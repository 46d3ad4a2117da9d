/-
# A result that is reported once

A one-shot takes the first result it is fired with and reports it; whatever
it is fired with later is dropped.

Key definitions: `OneShot`, `OneShot.fire`.
Key theorems: `OneShot.isFired_fire`, `OneShot.fire_of_isFired`.
-/

namespace Http1Client

/-- A report that is made at most once, with the result it was made with. -/
structure OneShot (α : Type) where
  result : Option α := none

namespace OneShot

variable {α : Type}

/-- Has the report been made? -/
def isFired (o : OneShot α) : Bool := o.result.isSome

/-- Fires. Gives the result to report, if this is the first time. -/
def fire (o : OneShot α) (a : α) : Option α × OneShot α :=
  match o.result with
  | none => (some a, ⟨some a⟩)
  | some _ => (none, o)

@[simp] theorem isFired_fire (o : OneShot α) (a : α) : (o.fire a).2.isFired = true := by
  unfold fire isFired
  split <;> simp_all

theorem fire_of_isFired {o : OneShot α} (h : o.isFired = true) (a : α) : o.fire a = (none, o) := by
  unfold fire
  unfold isFired at h
  split <;> simp_all

end OneShot
end Http1Client
