/-
# The field lines of a head

A header section that is put together by its own operations has each name
once (`Fields.Distinct`), so the fields of a name are its values, and to take a
name out takes out that name and no other.

A section goes out as lines. Whoever reads them cuts the bytes at their line
feeds, and each line at its colon (`Bytes.fieldsIn`): a name holds no colon and
a value no line end, so what is read back are the fields that were written
(`RequestHead.fieldsIn_printFields`).

Key definitions: `Fields.Distinct`, `Bytes.lines`, `Bytes.fieldsIn`,
`Bytes.valuesIn`.
Key theorems: `Fields.values_remove_self`, `Fields.values_remove_ne`,
`RequestHead.fieldsIn_printFields`, `RequestHead.valuesIn_printFields`.
-/
import Http1Client.Build
import Http1Client.Head.Print
import Http1Client.Proofs.Body.ChunkGrammar

namespace Http1Client

namespace Fields

/-! ### Names that stand once -/

/-- No name has two entries. -/
def Distinct (f : Fields) : Prop := (f.entries.map Prod.fst).Nodup

variable {f : Fields} {es : List (FieldName × List FieldValue)}

theorem map_fst_alter (n : FieldName) (change : List FieldValue → List FieldValue)
    (es : List (FieldName × List FieldValue)) :
    (alter n change es).map Prod.fst =
      if n ∈ es.map Prod.fst then es.map Prod.fst else es.map Prod.fst ++ [n] := by
  induction es with
  | nil => simp [alter]
  | cons e es ih =>
    by_cases h : e.1 = n
    · simp [alter, h]
    · have hne : n ≠ e.1 := fun hn => h hn.symm
      by_cases hmem : n ∈ es.map Prod.fst
      · have hin : n ∈ (e :: es).map Prod.fst := List.mem_cons_of_mem _ hmem
        rw [if_pos hmem] at ih
        rw [alter, if_neg h, List.map_cons, ih, if_pos hin, List.map_cons]
      · rw [if_neg hmem] at ih
        have hout : n ∉ (e :: es).map Prod.fst := by simpa [hne] using hmem
        rw [alter, if_neg h, List.map_cons, ih, if_neg hout, List.map_cons, List.cons_append]

theorem nodup_alter (h : (es.map Prod.fst).Nodup) (n : FieldName)
    (change : List FieldValue → List FieldValue) :
    ((alter n change es).map Prod.fst).Nodup := by
  rw [map_fst_alter]
  by_cases hmem : n ∈ es.map Prod.fst
  · rwa [if_pos hmem]
  · rw [if_neg hmem]
    exact List.nodup_append.mpr ⟨h, by simp, fun a ha b hb hab => by simp_all⟩

theorem Distinct.append (h : f.Distinct) (n : FieldName) (v : FieldValue) :
    (f.append n v).Distinct :=
  nodup_alter h n _

theorem Distinct.insert (h : f.Distinct) (n : FieldName) (v : FieldValue) :
    (f.insert n v).Distinct :=
  nodup_alter h n _

/-- A section that is made up of fields in their order has each name once. -/
theorem distinct_ofList (fs : List (FieldName × FieldValue)) : (ofList fs).Distinct := by
  suffices h : ∀ (fs : List (FieldName × FieldValue)) (f : Fields), f.Distinct →
      (fs.foldl (fun f x => f.append x.1 x.2) f).Distinct from h fs {} List.nodup_nil
  intro fs
  induction fs with
  | nil => exact fun _ h => h
  | cons x fs ih => exact fun f h => ih _ (h.append x.1 x.2)

/-! ### Values and fields -/

theorem valuesOf_of_not_mem {n : FieldName} (h : n ∉ es.map Prod.fst) : valuesOf n es = [] := by
  induction es with
  | nil => rfl
  | cons e es ih =>
    rw [List.map_cons, List.mem_cons, not_or] at h
    rw [valuesOf, if_neg fun he => h.1 he.symm]
    exact ih h.2

theorem valuesOf_of_mem {n : FieldName} {vs : List FieldValue} (hes : (es.map Prod.fst).Nodup)
    (h : (n, vs) ∈ es) : valuesOf n es = vs := by
  induction es with
  | nil => cases h
  | cons e es ih =>
    rw [List.map_cons, List.nodup_cons] at hes
    rcases List.mem_cons.mp h with rfl | h
    · rw [valuesOf, if_pos rfl]
    · have hne : e.1 ≠ n := by
        rintro rfl
        exact hes.1 (List.mem_map.mpr ⟨_, h, rfl⟩)
      rw [valuesOf, if_neg hne]
      exact ih hes.2 h

/-- The fields of a name are its values, each under the name. -/
theorem filter_toList (h : f.Distinct) (n : FieldName) :
    f.toList.filter (fun x => decide (x.1 = n)) = (f.values n).map fun v => (n, v) := by
  obtain ⟨es⟩ := f
  unfold Distinct at h
  dsimp only at h
  unfold toList values
  dsimp only
  induction es with
  | nil => rfl
  | cons e es ih =>
    rw [List.map_cons, List.nodup_cons] at h
    rw [List.flatMap_cons, List.filter_append, ih h.2]
    by_cases hn : e.1 = n
    · have hout : valuesOf n es = [] := valuesOf_of_not_mem (hn ▸ h.1)
      rw [hout, valuesOf, if_pos hn, List.map_nil, List.append_nil,
        List.filter_eq_self.mpr (by simp [hn]), hn]
    · rw [valuesOf, if_neg hn, List.filter_eq_nil_iff.mpr (by simp [hn]), List.nil_append]

/-! ### Taking a name out -/

/-- What stays are the entries of the other names, in another order. -/
theorem removeEntry_perm (hes : (es.map Prod.fst).Nodup) (n : FieldName) :
    (removeEntry n es).Perm (es.filter fun e => decide (e.1 ≠ n)) := by
  induction es with
  | nil => exact .nil
  | cons e es ih =>
    rw [List.map_cons, List.nodup_cons] at hes
    by_cases hn : e.1 = n
    · have hothers : es.filter (fun e => decide (e.1 ≠ n)) = es := by
        apply List.filter_eq_self.mpr
        intro x hx
        have hne : x.1 ≠ n := fun hxn => hes.1 (List.mem_map.mpr ⟨x, hx, hxn.trans hn.symm⟩)
        simpa using hne
      rw [removeEntry, if_pos hn, List.filter_cons_of_neg (by simpa using hn), hothers]
      cases hlast : es.getLast? with
      | none =>
        have hnil : es = [] := List.getLast?_eq_none_iff.mp hlast
        rw [hnil]
      | some last =>
        obtain ⟨front, hfront⟩ := List.getLast?_eq_some_iff.mp hlast
        have hdrop : es.dropLast = front := by rw [hfront, List.dropLast_concat]
        dsimp only
        rw [hdrop]
        calc
          (last :: front).Perm (front ++ [last]) := (List.perm_append_singleton ..).symm
          _ = es := hfront.symm
    · rw [removeEntry, if_neg hn, List.filter_cons_of_pos (by simpa using hn)]
      exact (ih hes.2).cons e

theorem mem_remove (h : f.Distinct) {n m : FieldName} {vs : List FieldValue} :
    (m, vs) ∈ (f.remove n).entries ↔ (m, vs) ∈ f.entries ∧ m ≠ n := by
  rw [remove, (removeEntry_perm h n).mem_iff, List.mem_filter, decide_eq_true_eq]

theorem Distinct.remove (h : f.Distinct) (n : FieldName) : (f.remove n).Distinct := by
  have hperm := (removeEntry_perm h n).map Prod.fst
  exact hperm.nodup_iff.mpr (h.sublist (List.filter_sublist.map _))

theorem mem_names_remove (h : f.Distinct) {n m : FieldName} :
    m ∈ (f.remove n).entries.map Prod.fst ↔ m ∈ f.entries.map Prod.fst ∧ m ≠ n := by
  constructor
  · intro hm
    obtain ⟨⟨m', vs⟩, he, rfl⟩ := List.mem_map.mp hm
    obtain ⟨he', hne⟩ := (mem_remove h).mp he
    exact ⟨List.mem_map.mpr ⟨_, he', rfl⟩, hne⟩
  · rintro ⟨hm, hne⟩
    obtain ⟨⟨m', vs⟩, he, rfl⟩ := List.mem_map.mp hm
    exact List.mem_map.mpr ⟨_, (mem_remove h).mpr ⟨he, hne⟩, rfl⟩

/-- A name that is taken out has no values. -/
theorem values_remove_self (h : f.Distinct) (n : FieldName) : (f.remove n).values n = [] := by
  apply valuesOf_of_not_mem
  intro hmem
  exact ((mem_names_remove h).mp hmem).2 rfl

/-- To take a name out leaves the values of every other one. -/
theorem values_remove_ne (h : f.Distinct) {n m : FieldName} (hne : m ≠ n) :
    (f.remove n).values m = f.values m := by
  by_cases hmem : m ∈ f.entries.map Prod.fst
  · obtain ⟨⟨m', vs⟩, he, rfl⟩ := List.mem_map.mp hmem
    calc
      (f.remove n).values m' = vs := valuesOf_of_mem (h.remove n) ((mem_remove h).mpr ⟨he, hne⟩)
      _ = f.values m' := (valuesOf_of_mem h he).symm
  · have hout : m ∉ (f.remove n).entries.map Prod.fst := by
      intro hin
      exact hmem ((mem_names_remove h).mp hin).1
    calc
      (f.remove n).values m = [] := valuesOf_of_not_mem hout
      _ = f.values m := (valuesOf_of_not_mem hmem).symm

end Fields

/-! ### Lines read back -/

namespace Bytes

/-- The lines of the bytes, without the carriage returns at their ends. -/
def lines (b : Bytes) : List Bytes := (split lf b).map (trimEnd (· == cr))

/-- The name in a field line, in lower case, and the value: what stands before
the first colon, and what stands behind it and the space. -/
def fieldIn (line : Bytes) : Bytes × Bytes :=
  ((line.takeWhile (· != 58)).map lower, (line.dropWhile (· != 58)).drop 2)

/-- The fields in the lines of a block, up to the first line that is empty. -/
def fieldsIn (block : Bytes) : List (Bytes × Bytes) :=
  ((lines block).takeWhile (· != [])).map fieldIn

/-- The values in the lines of a name, which is given in lower case. -/
def valuesIn (name block : Bytes) : List Bytes :=
  ((fieldsIn block).filter fun x => decide (x.1 = name)).map Prod.snd

theorem split_eq_splitOn (sep : UInt8) : ∀ b : Bytes, split sep b = b.splitOn sep
  | [] => rfl
  | x :: xs => by
    rw [List.splitOn, List.splitOnP_cons_eq_if_modifyHead]
    rw [split, split_eq_splitOn sep xs, List.splitOn]
    by_cases hx : x = sep
    · rw [if_pos hx, if_pos (by simpa using hx)]
    · rw [if_neg hx, if_neg (by simpa using hx)]
      cases hrest : List.splitOnP (· == sep) xs with
      | nil => exact absurd hrest (List.splitOnP_ne_nil _ xs)
      | cons p ps => rfl

/-- A line that holds no part of a line end is the first one, and is read
without its end. -/
theorem lines_line {line : Bytes} (h : ∀ x ∈ line, x ≠ cr ∧ x ≠ lf) (rest : Bytes) :
    lines (line ++ crlf ++ rest) = line :: lines rest := by
  have hlf : lf ∉ line ++ [cr] := by
    intro hmem
    rcases List.mem_append.mp hmem with hmem | hmem
    · exact (h lf hmem).2 rfl
    · exact absurd (List.mem_singleton.mp hmem) (by decide)
  have hcut : line ++ crlf ++ rest = (line ++ [cr]) ++ lf :: rest := by simp [crlf]
  have htrim : trimEnd (· == cr) (line ++ [cr]) = line :=
    Chunked.trimEnd_of_run (by simp) fun x hx => by simpa using (h x (List.mem_of_getLast? hx)).1
  rw [lines, hcut, split_eq_splitOn, List.splitOn_append_cons_self_of_not_mem hlf, List.map_cons,
    htrim, lines, split_eq_splitOn]

end Bytes

namespace FieldName

/-- A name holds no colon and no part of a line end. -/
theorem bytes_inline (n : FieldName) : ∀ x ∈ n.bytes, x ≠ 58 ∧ x ≠ Bytes.cr ∧ x ≠ Bytes.lf := by
  intro x hx
  have htoken := (n.isToken x hx).1
  refine ⟨?_, ?_, ?_⟩
  all_goals
    rintro rfl
    exact absurd htoken (by decide)

theorem map_lower_bytes (n : FieldName) : n.bytes.map Bytes.lower = n.bytes := by
  calc
    n.bytes.map Bytes.lower = n.bytes.map id := List.map_congr_left fun x hx => (n.isToken x hx).2
    _ = n.bytes := List.map_id _

theorem ext_iff_bytes {n m : FieldName} : n.bytes = m.bytes ↔ n = m := by
  cases n
  cases m
  simp

end FieldName

/-- A value holds no part of a line end. -/
theorem FieldValue.bytes_inline (v : FieldValue) : ∀ x ∈ v.bytes, x ≠ Bytes.cr ∧ x ≠ Bytes.lf := by
  intro x hx
  have hvalue := v.isValue x hx
  refine ⟨?_, ?_⟩
  all_goals
    rintro rfl
    exact absurd hvalue (by decide)

namespace RequestHead

/-- The line of a field, without its end. -/
def fieldText (x : FieldName × FieldValue) : Bytes := x.1.bytes ++ [58, 32] ++ x.2.bytes

theorem fieldLine_eq (x : FieldName × FieldValue) : fieldLine x = fieldText x ++ Bytes.crlf := rfl

theorem fieldText_inline (x : FieldName × FieldValue) :
    ∀ b ∈ fieldText x, b ≠ Bytes.cr ∧ b ≠ Bytes.lf := by
  intro b hb
  rcases List.mem_append.mp hb with hb | hb
  · rcases List.mem_append.mp hb with hb | hb
    · exact (x.1.bytes_inline b hb).2
    · have hmark : b = 58 ∨ b = 32 := by simpa using hb
      rcases hmark with rfl | rfl <;> exact ⟨by decide, by decide⟩
  · exact x.2.bytes_inline b hb

/-- The line of a field holds its name and its value. -/
theorem fieldIn_fieldText (x : FieldName × FieldValue) :
    Bytes.fieldIn (fieldText x) = (x.1.bytes, x.2.bytes) := by
  have hname : ∀ b ∈ x.1.bytes, (b != 58) = true := fun b hb => by
    simpa using (x.1.bytes_inline b hb).1
  have hsplit : fieldText x = x.1.bytes ++ (58 :: 32 :: x.2.bytes) := by simp [fieldText]
  have htake : (fieldText x).takeWhile (· != 58) = x.1.bytes := by
    rw [hsplit, List.takeWhile_append_of_pos hname]
    simp
  have hdrop : (fieldText x).dropWhile (· != 58) = 58 :: 32 :: x.2.bytes := by
    rw [hsplit, List.dropWhile_append_of_pos hname]
    simp
  rw [Bytes.fieldIn, htake, hdrop, x.1.map_lower_bytes]
  rfl

/-- What is read back from the lines of a section are its fields. -/
theorem fieldsIn_printFields (f : Fields) :
    Bytes.fieldsIn (printFields f) = f.toList.map fun x => (x.1.bytes, x.2.bytes) := by
  unfold printFields
  generalize f.toList = xs
  induction xs with
  | nil => rfl
  | cons x xs ih =>
    have hne : (fieldText x != []) = true := by simp [fieldText]
    rw [List.flatMap_cons, fieldLine_eq, List.append_assoc, Bytes.fieldsIn,
      Bytes.lines_line (fieldText_inline x), List.takeWhile_cons_of_pos (p := (· != [])) hne, List.map_cons,
      fieldIn_fieldText, List.map_cons, ← ih, Bytes.fieldsIn]

/-- The lines of a name hold its values. -/
theorem valuesIn_printFields {f : Fields} (h : f.Distinct) (n : FieldName) :
    Bytes.valuesIn n.bytes (printFields f) = (f.values n).map FieldValue.bytes := by
  have hname : ((fun x : Bytes × Bytes => decide (x.1 = n.bytes)) ∘
      fun x : FieldName × FieldValue => (x.1.bytes, x.2.bytes)) = fun x => decide (x.1 = n) := by
    funext x
    simp [FieldName.ext_iff_bytes]
  rw [Bytes.valuesIn, fieldsIn_printFields, List.filter_map, hname, Fields.filter_toList h,
    List.map_map, List.map_map]
  rfl

end RequestHead
end Http1Client
