import RedisStore.Calls

/-!
# Watches

What the history of a run says about the session of a connection. The events since the connection's
last `EXEC` or loss are its window (`window`): the session watches the keys that were watched in the
window, and its flag is clear exactly if none of them was modified later in the window
(`session_dirty`). So whether the next transaction of a connection is executed can be read off the
history, whatever the calls were that left the watches.
-/

namespace RedisStore

open Redis

variable {ι : Type} [DecidableEq ι]

/-- The event ends the watches of connection `c`. -/
def Event.clears (c : ι) : Event ι → Bool
  | .executed d ⟨.exec _, _⟩ _ _ => d = c
  | .lost d => d = c
  | _ => false

/-- The key that connection `c` starts to watch. -/
def Event.watches (c : ι) : Event ι → Option Key
  | .executed d ⟨.watch key, _⟩ reply _ => if d = c ∧ reply ≠ .error then some key else none
  | _ => none

/-- The keys that others than connection `c` modify. -/
def Event.modifies (c : ι) : Event ι → List Key
  | .executed d _ _ touched => if d = c then [] else touched
  | .wrote keys => keys
  | _ => []

/-- The history since the last end of the watches of connection `c`. -/
def window (c : ι) (log : List (Event ι)) : List (Event ι) :=
  (log.reverse.takeWhile fun e => !e.clears c).reverse

/-- No key that connection `c` watches was modified by another since it was watched. -/
def WatchesHold (c : ι) (log : List (Event ι)) : Prop :=
  (window c log).Pairwise fun e e' => ∀ key ∈ e.watches c, key ∉ e'.modifies c

/-- The window after one more event. -/
theorem window_concat (c : ι) (log : List (Event ι)) (e : Event ι) :
    window c (log ++ [e]) = if e.clears c then [] else window c log ++ [e] := by
  rw [window, List.reverse_concat]
  cases h : e.clears c with
  | true => rw [List.takeWhile_cons_of_neg (by simp [h])]; rfl
  | false => rw [List.takeWhile_cons_of_pos (by simp [h]), List.reverse_cons]; rfl

/-! ## The session as a function of the history -/

/-- What an event makes of the session of connection `c`. -/
def Session.after (c : ι) (session : Session) (e : Event ι) : Session :=
  if e.clears c then .clear
  else ⟨(e.watches c).toList ++ session.watched, (session.touch (e.modifies c)).dirty⟩

/-- The session that a history makes. -/
def sessionOf (c : ι) (log : List (Event ι)) : Session := log.foldl (Session.after c) .clear

theorem sessionOf_concat (c : ι) (log : List (Event ι)) (e : Event ι) :
    sessionOf c (log ++ [e]) = Session.after c (sessionOf c log) e := by
  simp [sessionOf]

/-- The watched keys are those that were watched in the window. -/
theorem mem_watched_sessionOf {c : ι} {log : List (Event ι)} {key : Key} :
    key ∈ (sessionOf c log).watched ↔ ∃ e ∈ window c log, key ∈ e.watches c := by
  induction log using List.reverseRecOn with
  | nil => simp [sessionOf, Session.clear, window]
  | append_singleton log e ih =>
    rw [sessionOf_concat, window_concat, Session.after]
    split_ifs
    · simp [Session.clear]
    · rw [List.mem_append, Option.mem_toList, ih]
      simp only [List.mem_append, List.mem_singleton, or_and_right, exists_or, exists_eq_left]
      exact or_comm

/-- The flag is clear exactly if no watch of the window was broken. -/
theorem sessionOf_dirty {c : ι} {log : List (Event ι)} :
    (sessionOf c log).dirty = false ↔ WatchesHold c log := by
  induction log using List.reverseRecOn with
  | nil => simp [sessionOf, Session.clear, WatchesHold, window]
  | append_singleton log e ih =>
    rw [sessionOf_concat, WatchesHold, window_concat, Session.after]
    split_ifs
    · simp [Session.clear]
    · rw [List.pairwise_append]
      -- The new event breaks a watch exactly if it modifies a key that is watched by now.
      have hnew : (∀ a ∈ window c log, ∀ b ∈ [e], ∀ key ∈ a.watches c, key ∉ b.modifies c) ↔
          ∀ key ∈ e.modifies c, key ∉ (sessionOf c log).watched := by
        simp only [mem_watched_sessionOf, List.mem_singleton, forall_eq, not_exists, not_and]
        constructor
        · exact fun h key hkey a ha hw => h a ha key hw hkey
        · exact fun h a ha key hw hkey => h key hkey a ha hw
      have hflag := (Session.touch_dirty (e.modifies c) (sessionOf c log)).not
      rw [Bool.not_eq_true, not_or, Bool.not_eq_true] at hflag
      rw [hflag, ih, hnew, WatchesHold]
      simp only [List.pairwise_singleton, true_and, not_exists, not_and]

/-! ## The session of a run -/

/-- The events of the code are no commands, and change no session. -/
theorem foldl_after_eventsOf (c d : ι) (code : Code Unit) (session : Session) :
    (eventsOf d code).foldl (Session.after c) session = session := by
  rw [eventsOf, List.foldl_append, List.foldl_map, List.foldl_map,
    List.foldl_fixed' fun _ => rfl, List.foldl_fixed' fun _ => rfl]

/-- A command of another connection only modifies keys. -/
theorem after_executed_of_ne {c d : ι} (h : d ≠ c) (request : Request) (reply : Reply)
    (touched : List Key) (session : Session) :
    Session.after c session (.executed d request reply touched) = session.touch touched := by
  obtain ⟨cmd, callback⟩ := request
  -- Neither its watches nor its `EXEC` are the connection's.
  cases cmd <;> simp [Session.after, Event.clears, Event.watches, Event.modifies, h] <;>
    rw [← Session.touch_watched touched session]

namespace Sys

variable {s t : Sys ι} {l : Label ι}

/-- A command of the connection does to the session what its event says. -/
theorem after_executed_self (s : Sys ι) (c : ι) (request : Request) (fault : Fault) :
    Session.after c (s.conn c).session (.executed c request (outcome s c request fault).reply
      (outcome s c request fault).touched) = (outcome s c request fault).session := by
  obtain ⟨cmd, callback⟩ := request
  cases cmd with
  | exec queue =>
    obtain ⟨-, -, -, -, hsession⟩ := Command.serve_exec queue s.db (s.conn c).session fault
    simp [Session.after, Event.clears, outcome, hsession]
  | watch key =>
    cases fault <;>
      simp [Session.after, Event.clears, Event.watches, Event.modifies, outcome, Command.serve,
        Command.refuse, Command.deny]
  | _ =>
    cases fault <;>
      simp [Session.after, Event.clears, Event.watches, Event.modifies, outcome, Command.serve,
        Command.execute, Command.refuse, Command.deny]

/-- A step does to the session of a connection what its events say. -/
theorem session_step {c : ι} (h : step s l = some t)
    (hs : (s.conn c).session = sessionOf c s.log) : (t.conn c).session = sessionOf c t.log := by
  -- It is enough to compare what the events of the step make of the session before it.
  have hadd : ∀ es, t.log = s.log ++ es →
      sessionOf c t.log = es.foldl (Session.after c) (s.conn c).session := fun es hes => by
    rw [hes, hs, sessionOf, sessionOf, List.foldl_append]
  cases l with
  | call d op =>
    have hstep := call_step h
    rw [hadd _ hstep.log, List.foldl_cons, foldl_after_eventsOf]
    by_cases hd : c = d
    · subst hd
      rw [hstep.self]
      rfl
    · rw [hstep.other c hd]
      rfl
  | serve d fault =>
    obtain ⟨request, rest, hstep⟩ := serve_step h
    rw [hadd _ hstep.log, List.foldl_cons, List.foldl_nil]
    by_cases hd : c = d
    · subst hd
      rw [hstep.self, after_executed_self]
    · rw [hstep.other c hd, after_executed_of_ne (Ne.symm hd)]
  | deliver d =>
    obtain ⟨cb, reply, rest, hstep⟩ := deliver_step h
    rw [hadd _ hstep.log, foldl_after_eventsOf]
    by_cases hd : c = d
    · subst hd
      rw [hstep.self]
    · rw [hstep.other c hd]
  | lose d kept =>
    have hstep := lose_step h
    rw [hadd _ hstep.log, List.foldl_cons, List.foldl_nil]
    by_cases hd : c = d
    · subst hd
      rw [hstep.self]
      simp [Session.after, Event.clears]
    · rw [hstep.other c hd]
      simp [Session.after, Event.clears, Event.watches, Event.modifies, Ne.symm hd]
  | regain d =>
    have hstep := regain_step h
    rw [hadd _ hstep.log, List.foldl_cons, List.foldl_nil]
    by_cases hd : c = d
    · subst hd
      rw [hstep.self]
      rfl
    · rw [hstep.other c hd]
      rfl
  | foreign values =>
    have hstep := foreign_step h
    rw [hadd _ hstep.log, List.foldl_cons, List.foldl_nil, hstep.conn c]
    simp [Session.after, Event.clears, Event.watches, Event.modifies]
    rw [← Session.touch_watched (values.map Prod.fst)]

/-- The session of a connection is the one that the history of the run makes. -/
theorem session_run {ls : List (Label ι)} (h₀ : Fresh s) (h : run s ls = some t) (c : ι) :
    (t.conn c).session = sessionOf c t.log :=
  Transition.run_invariant' (P := fun u => (u.conn c).session = sessionOf c u.log)
    (fun _ _ _ hs hstep => session_step hstep hs) (by rw [h₀.session c, h₀.log]; rfl) h

/-- The flag of a connection is clear exactly if its watches hold. -/
theorem dirty_eq_false_iff {ls : List (Label ι)} (h₀ : Fresh s) (h : run s ls = some t) (c : ι) :
    (t.conn c).session.dirty = false ↔ WatchesHold c t.log := by
  rw [session_run h₀ h c, sessionOf_dirty]

end Sys

end RedisStore
