/-
# A connection that may be used again

An exchange that is complete may leave its connection to another one, or say
that it must not (`Exchange.keepAlive`). Where it leaves it, it has taken the
bytes of its own response off the wire, all of them and no byte behind them
(`Course.keepAlive_run`): the next exchange finds the next response.

Key theorems: `Course.keepAlive_run`.
-/
import Http1Client.Proofs.Course

namespace Http1Client
namespace Course

variable {toHead : Bool} {framing : Framing} {p body rest : Bytes} {settings : Settings} {w : Wire}

/-- **A connection is kept only at the end of its response.** Where an exchange
is complete and keeps its connection, it has taken exactly the response; where
it has taken more, it does not keep it. -/
theorem keepAlive_run {c : Course} {deeds : List Deed}
    (hresponse : IsResponse toHead p framing body) (hw : w.unread = p ++ rest)
    (hfits : ∀ deed ∈ deeds, deed.Fits toHead) (hc : (start settings w).run deeds = c)
    (hcomplete : c.exchange.stage = .complete) :
    ∃ taken, w.unread = taken ++ c.wire.unread ∧ (c.exchange.keepAlive = true → taken = p) ∧
      (p.length < taken.length → c.exchange.keepAlive = false) := by
  obtain ⟨response, hheads⟩ := hresponse.heads
  have hstart : Follows toHead response framing body rest [] (start settings w) := by
    refine follows_start ?_
    rw [List.append_nil, hw]
    exact hheads.append rest
  have hfollows := follows_run hresponse.isBody deeds hfits hstart
  obtain ⟨taken, htaken⟩ := reads_run hresponse.isBody deeds hfits hstart
  rw [hc] at hfollows htaken
  have hexact : c.exchange.keepAlive = true → taken = p := by
    intro hkeep
    rcases hfollows.of_complete hcomplete with ⟨-, hclose⟩ | ⟨dropped, hrest, hdropped⟩
    · rw [hkeep] at hclose
      simp at hclose
    · rw [hdropped hkeep, List.nil_append, List.append_nil] at hrest
      rw [show w.unread = taken ++ c.wire.unread from htaken, ← hrest] at hw
      exact List.append_cancel_right hw
  refine ⟨taken, htaken, hexact, fun hlt => ?_⟩
  rw [← Bool.not_eq_true]
  intro hkeep
  rw [hexact hkeep] at hlt
  exact Nat.lt_irrefl _ hlt

/-- A response in two pieces, and bytes behind it. -/
def followed : Wire :=
  { arriving := [
      .bytes (Incoming.shortHeads.take 50), .act .pause,
      .bytes (Incoming.shortHeads.drop 50 ++ Bytes.ofText "hi"), .bytes (Bytes.ofText "HTTP/1.1")] }

theorem keepAlive_run_followed :
    (((start {} followed).run plainDeeds).step .ask).exchange.keepAlive = true ∧
      followed.unread = Incoming.shortHeads ++ Bytes.ofText "hi" ++
        (((start {} followed).run plainDeeds).step .ask).wire.unread := by
  have hw : followed.unread =
      Incoming.shortHeads ++ Bytes.ofText "hi" ++ Bytes.ofText "HTTP/1.1" := by
    decide +kernel
  have hfits : ∀ deed ∈ plainDeeds ++ [.ask], deed.Fits false := by
    intro deed hdeed
    rcases List.mem_append.mp hdeed with h | h
    · exact fits_plainDeeds deed h
    · obtain rfl := List.mem_singleton.mp h
      trivial
  have hkeep : (((start {} followed).run plainDeeds).step .ask).exchange.keepAlive = true := by
    decide +kernel
  have hc : (start {} followed).run (plainDeeds ++ [.ask]) =
      ((start {} followed).run plainDeeds).step .ask := rfl
  obtain ⟨taken, htaken, hexact, -⟩ :=
    keepAlive_run isResponse_short hw hfits hc (by decide +kernel)
  rw [hexact hkeep] at htaken
  exact ⟨hkeep, htaken⟩

end Course
end Http1Client
