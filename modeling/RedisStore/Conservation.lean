import RedisStore.Answers
import RedisStore.Isolation
import Mathlib.Algebra.BigOperators.Intervals

/-!
# No call is lost

A piece of the stores' code passes a callback with its commands, or answers its call, or throws: exactly
one of the three (`start_settles`, `resume_settles`). So in every run the calls made on a connection are
the callbacks that wait, the answers, and the exceptions together (`balance_run`), through faults, lost
connections, retries, and calls that overlap. And as no call has two of the first two kinds, the calls
that have neither are as many as the exceptions (`calls_conserved`): without an exception each call waits
or has its answer.
-/

namespace RedisStore

open Redis

/-! ## What code leaves of a call -/

/-- The code passes a callback, or answers its call, or throws. -/
def Js.Settles (code : Code Unit) : Prop :=
  code.passed.length + code.answered.length + code.thrown.length = 1

/-- Code whose effects are known settles its call if they do. -/
theorem Js.Does.settles {code : Code Unit} {issued : List Request}
    {answered : List (CallId × Answer)} {thrown : List Exn} (h : code.Does issued answered thrown)
    (hone : (issued.filterMap Request.callback).length + answered.length + thrown.length = 1) :
    code.Settles := by
  unfold Js.Settles Js.passed
  rw [h.issued, h.answered, h.thrown]
  exact hone

theorem upsertInternal_settles (state : StoreState) (kind : Kind) (item : Item) (call : CallId) :
    (upsertInternal state kind item call).Settles := by
  cases h : state.down with
  | false => exact (upsertInternal_does_of_up h kind item call).settles rfl
  | true => exact (upsertInternal_does_of_down h kind item call).settles rfl

/-- The code of an operation. -/
theorem start_settles (state : StoreState) (call : CallId) (op : Op) :
    (op.start state call).Settles := by
  cases op with
  | getInternal kind key =>
    cases h : state.down with
    | false => exact (getInternal_does_of_up h kind key call).settles rfl
    | true => exact (getInternal_does_of_down h kind key call).settles rfl
  | getAllInternal kind =>
    cases h : state.down with
    | false => exact (getAllInternal_does_of_up h kind call).settles rfl
    | true => exact (getAllInternal_does_of_down h kind call).settles rfl
  | initInternal allData =>
    cases h : buildInit state allData with
    | ok multi => exact (initInternal_does_of_ok h call).settles rfl
    | error x => exact (initInternal_does_of_error h call).settles rfl
  | upsertInternal kind item => exact upsertInternal_settles state kind item call
  | initializedInternal => exact (initializedInternal_does state call).settles rfl
  | getMetadata => rfl
  | getUserMembership userHash => rfl

/-- The code of a callback. -/
theorem resume_settles {cb : Callback} (hcb : Awaited cb) (state : StoreState) (reply : Reply) :
    (cb.resume state reply).Settles := by
  cases hcb with
  | getRead kind key call =>
    have h := onHget_getInternal_does state kind key call reply
    split at h <;> exact h.settles rfl
  | upsertRead kind item call =>
    have h := onHget_update_does state kind item.key item call reply
    split at h <;> exact h.settles rfl
  | upsertWrite kind item call =>
    by_cases hnil : reply = .nil
    · subst hnil
      -- An aborted transaction passes the callbacks of a new attempt.
      have hd : (onUpsertExec state kind item call .nil).Does _ _ _ :=
        onUpsertExec_does_of_nil ⟨rfl, rfl, rfl⟩
      exact hd.settles (upsertInternal_settles state kind item call)
    · exact (onUpsertExec_does hnil state kind item call).settles rfl
  | getAll kind call =>
    have h := onHgetall_does kind call reply
    split at h <;> exact h.settles rfl
  | init allData call => exact (onInitExec_does call reply).settles rfl
  | inited call => exact (onInitedExists_does call reply).settles rfl
  | metadata call => cases reply <;> rfl
  | includes userHash call =>
    unfold Callback.resume onIncludedRefs
    split_ifs <;> rfl
  | excludes userHash refs call =>
    unfold Callback.resume onExcludedRefs
    split_ifs <;> rfl

/-! ## The callbacks that wait -/

namespace Sys

variable {ι : Type} {s t : Sys ι} {c : ι}

/-- A call adds the callbacks that its code passes. -/
theorem CallStep.callbacks [DecidableEq ι] {op : Op} (hs : CallStep s t c op) :
    (t.conn c).callbacks =
      (s.conn c).callbacks ++ (op.start (s.conn c).state (s.calls c)).passed := by
  unfold Conn.callbacks Js.passed
  rw [hs.self]
  simp only [List.filterMap_append, List.append_assoc]

/-- A command leaves the callbacks in their order: its own goes from the first place in the inbox to
the last one in the outbox. -/
theorem ServeStep.callbacks {request : Request} {rest : List Request} {fault : Fault}
    (hs : ServeStep s t c request rest fault) : (t.conn c).callbacks = (s.conn c).callbacks := by
  unfold Conn.callbacks
  rw [hs.self, hs.inbox]
  unfold waiting
  cases hcb : request.callback with
  | none => simp [hcb]
  | some cb => simp [hcb]

/-- The first callback runs, and those that its code passes come last. -/
theorem DeliverStep.callbacks {cb : Callback} {reply : Reply} {rest : List (Callback × Reply)}
    (hs : DeliverStep s t c cb reply rest) :
    ∃ others, (s.conn c).callbacks = cb :: others ∧
      (t.conn c).callbacks = others ++ (cb.resume (s.conn c).state reply).passed := by
  refine ⟨rest.map Prod.fst ++ (s.conn c).inbox.filterMap Request.callback, ?_, ?_⟩
  · unfold Conn.callbacks
    rw [hs.outbox]
    rfl
  · unfold Conn.callbacks Js.passed
    rw [hs.self]
    simp only [List.filterMap_append, List.append_assoc]

/-- A lost connection leaves the callbacks in their order. -/
theorem LoseStep.callbacks {kept : ℕ} (hs : LoseStep s t c kept) :
    (t.conn c).callbacks = (s.conn c).callbacks := by
  unfold Conn.callbacks
  rw [hs.self]
  simp only [abandoned, List.map_append, List.map_map, List.filterMap_nil, List.append_nil,
    List.map_filterMap, Option.map_map, Function.comp_def, Option.map_id']
  rw [← List.map_append, List.take_append_drop]

end Sys

/-! ## The balance of a connection -/

variable {ι : Type} [DecidableEq ι]

/-- The event is an answer on the connection. -/
def Event.answersOn (c : ι) : Event ι → Bool
  | .answered d _ _ => d = c
  | _ => false

/-- The event is an exception on the connection. -/
def Event.throwsOn (c : ι) : Event ι → Bool
  | .threw d _ => d = c
  | _ => false

/-- The events of code are its answers and its exception. -/
theorem countP_eventsOf (c : ι) (code : Code Unit) :
    (eventsOf c code).countP (Event.answersOn c) = code.answered.length ∧
      (eventsOf c code).countP (Event.throwsOn c) = code.thrown.length := by
  constructor <;> simp [eventsOf, Event.answersOn, Event.throwsOn, Function.comp_def]

/-- The events of another connection are none of them. -/
theorem countP_of_conn {c : ι} {es : List (Event ι)} (h : ∀ e ∈ es, e.conn? ≠ some c) :
    es.countP (Event.answersOn c) = 0 ∧ es.countP (Event.throwsOn c) = 0 := by
  have hne : ∀ e ∈ es, e.answersOn c = false ∧ e.throwsOn c = false := by
    intro e he
    have hc := h e he
    cases e with
    | answered d call a =>
      refine ⟨?_, rfl⟩
      exact decide_eq_false fun hd => hc (congrArg some hd)
    | threw d x =>
      refine ⟨rfl, ?_⟩
      exact decide_eq_false fun hd => hc (congrArg some hd)
    | _ => exact ⟨rfl, rfl⟩
  rw [List.countP_eq_zero, List.countP_eq_zero]
  exact ⟨fun e he => by simp [(hne e he).1], fun e he => by simp [(hne e he).2]⟩

namespace Sys

variable {s t : Sys ι} {l : Label ι} {c : ι}

/-- What has become of the calls on a connection: callbacks that wait, answers, and exceptions. -/
def balance (s : Sys ι) (c : ι) : ℕ :=
  (s.conn c).callbacks.length + s.log.countP (Event.answersOn c) + s.log.countP (Event.throwsOn c)

/-- A connection's balance after a step that adds nothing to its callbacks, and no answer and no
exception to the history. -/
theorem balance_of_same (hcalls : (t.conn c).callbacks.length = (s.conn c).callbacks.length)
    {es : List (Event ι)} (hlog : t.log = s.log ++ es)
    (hes : es.countP (Event.answersOn c) = 0 ∧ es.countP (Event.throwsOn c) = 0) :
    balance t c = balance s c := by
  unfold balance
  rw [hcalls, hlog, List.countP_append, List.countP_append, hes.1, hes.2, Nat.add_zero, Nat.add_zero]

/-- After a step that runs code which settles a call, the balance is one more than without the callback
that ran, if one did. -/
theorem balance_of_code {code : Code Unit} (h : code.Settles) {ran : ℕ}
    (hcalls : (t.conn c).callbacks.length + ran =
      (s.conn c).callbacks.length + code.passed.length)
    {es : List (Event ι)} (hlog : t.log = s.log ++ es ++ eventsOf c code)
    (hes : es.countP (Event.answersOn c) = 0 ∧ es.countP (Event.throwsOn c) = 0) :
    balance t c + ran = balance s c + 1 := by
  obtain ⟨hanswers, hthrows⟩ := countP_eventsOf c code
  unfold balance
  rw [hlog]
  simp only [List.countP_append, hes.1, hes.2, hanswers, hthrows]
  unfold Js.Settles at h
  omega

/-- Every step keeps the difference of a connection's calls and its balance. -/
theorem balance_step (hq : ∀ c, (s.conn c).Queued) (h : step s l = some t) (c : ι) :
    balance t c + s.calls c = balance s c + t.calls c := by
  cases step_conn h c with
  | call op hs =>
    have hcallbacks : (t.conn c).callbacks.length + 0 = (s.conn c).callbacks.length +
        (op.start (s.conn c).state (s.calls c)).passed.length := by
      rw [hs.callbacks, List.length_append, Nat.add_zero]
    have hlog : t.log = s.log ++ [.called c (s.calls c) op] ++
        eventsOf c (op.start (s.conn c).state (s.calls c)) := by
      rw [hs.log, List.append_assoc]
      rfl
    have hone : balance t c + 0 = balance s c + 1 :=
      balance_of_code (start_settles _ _ op) hcallbacks hlog ⟨rfl, rfl⟩
    rw [hs.calls, Function.update_self]
    omega
  | serve request rest fault hs =>
    have hcallbacks := congrArg List.length hs.callbacks
    rw [balance_of_same hcallbacks hs.log ⟨rfl, rfl⟩, hs.calls]
  | deliver cb reply rest hs =>
    have hcb : Awaited cb := (hq c).outbox (cb, reply) (by rw [hs.outbox]; exact List.mem_cons_self)
    obtain ⟨others, hbefore, hafter⟩ := hs.callbacks
    have hcallbacks : (t.conn c).callbacks.length + 1 = (s.conn c).callbacks.length +
        (cb.resume (s.conn c).state reply).passed.length := by
      rw [hbefore, hafter, List.length_append, List.length_cons]
      omega
    have hlog : t.log = s.log ++ [] ++ eventsOf c (cb.resume (s.conn c).state reply) := by
      rw [hs.log, List.append_nil]
    have hone : balance t c + 1 = balance s c + 1 :=
      balance_of_code (resume_settles hcb _ reply) hcallbacks hlog ⟨rfl, rfl⟩
    rw [hs.calls]
    omega
  | lose kept hs =>
    have hcallbacks := congrArg List.length hs.callbacks
    rw [balance_of_same hcallbacks hs.log ⟨rfl, rfl⟩, hs.calls]
  | regain hs =>
    have hcallbacks : (t.conn c).callbacks.length = (s.conn c).callbacks.length := by
      rw [hs.self]
      rfl
    rw [balance_of_same hcallbacks hs.log ⟨rfl, rfl⟩, hs.calls]
  | other l hc hs =>
    obtain ⟨es, hes, hconn⟩ := step_log_conn h
    have hcallbacks : (t.conn c).callbacks.length = (s.conn c).callbacks.length := by
      rw [hs]
      rfl
    have hevents := countP_of_conn fun e he => (hconn e he).trans_ne hc
    rw [balance_of_same hcallbacks hes hevents, step_calls h hc]

/-- In every run, the calls made on a connection are its callbacks that wait, its answers, and its
exceptions. -/
theorem balance_run {ls : List (Label ι)} (h₀ : Fresh s) (h : run s ls = some t) (c : ι) :
    s.calls c + balance t c = t.calls c := by
  have hstart : balance s c = 0 := by
    unfold balance Conn.callbacks
    rw [h₀.inbox c, h₀.outbox c, h₀.log]
    rfl
  have hkept : (∀ c, (t.conn c).Queued) ∧ s.calls c + balance t c = t.calls c :=
    Transition.run_invariant'
      (P := fun u : Sys ι => (∀ c, (u.conn c).Queued) ∧ s.calls c + balance u c = u.calls c)
      (fun u _ v hu hstep => by
        have hone : (_ : ℕ) = _ := balance_step hu.1 hstep c
        have hbefore : (_ : ℕ) = _ := hu.2
        exact ⟨queued_step hu.1 hstep, show (_ : ℕ) = _ by omega⟩)
      ⟨h₀.queued, by rw [hstart, Nat.add_zero]⟩ h
  exact hkept.2

/-! ## The calls without a callback and without an answer -/

/-- The elements of a list by their marks: if each mark is in the set, then none is left out. -/
theorem sum_countP {α : Type} (f : α → ℕ) (S : Finset ℕ) {xs : List α} (h : ∀ x ∈ xs, f x ∈ S) :
    ∑ k ∈ S, (xs.countP fun x => f x = k) = xs.length := by
  induction xs with
  | nil => simp
  | cons x xs ih =>
    have hx : f x ∈ S := h x List.mem_cons_self
    have hrest := ih fun y hy => h y (List.mem_cons_of_mem _ hy)
    simp only [List.countP_cons, decide_eq_true_eq, Finset.sum_add_distrib, hrest,
      Finset.sum_ite_eq, hx, if_true, List.length_cons]

/-- The calls that a connection's callbacks and answers belong to were made in the run. -/
theorem mem_Ico_of_called {ls : List (Label ι)} (h₀ : Fresh s) (h : run s ls = some t) {call : CallId}
    {op : Op} (hcalled : .called c call op ∈ t.log) :
    call ∈ Finset.Ico (s.calls c) (t.calls c) := by
  rw [Finset.mem_Ico]
  refine ⟨?_, (called_run h₀ h).fresh c call op hcalled⟩
  obtain ⟨ls₁, l, ls₂, u, v, -, hu, hnu, huv, hv, -⟩ := Transition.exists_step_of_run
    (P := fun u : Sys ι => .called c call op ∈ u.log) (by simp [h₀.log]) hcalled h
  -- Its number is that of the calls before its step.
  obtain ⟨-, rfl⟩ := (called_of_step huv hv).resolve_left hnu
  exact Nat.le.intro (balance_run h₀ hu c)

/-- The answers on a connection by their calls. -/
theorem sum_answersTo {log : List (Event ι)} {S : Finset ℕ}
    (h : ∀ call a, .answered c call a ∈ log → call ∈ S) :
    ∑ call ∈ S, answersTo c call log = log.countP (Event.answersOn c) := by
  induction log with
  | nil => simp [answersTo]
  | cons e log ih =>
    have hrest := ih fun call a ha => h call a (List.mem_cons_of_mem _ ha)
    unfold answersTo at hrest ⊢
    simp only [List.countP_cons, Finset.sum_add_distrib, hrest]
    congr 1
    cases e with
    | answered d call a =>
      by_cases hd : d = c
      · subst hd
        have hmem : call ∈ S := h call a List.mem_cons_self
        simp [Event.answers, Event.answersOn, hmem]
      · simp [Event.answers, Event.answersOn, hd]
    | _ => simp [Event.answers, Event.answersOn]

/-- The calls on a connection with neither a callback nor an answer are as many as its exceptions. -/
theorem card_unsettled {ls : List (Label ι)} (h₀ : Fresh s) (h : run s ls = some t) (c : ι) :
    ((Finset.Ico (s.calls c) (t.calls c)).filter fun call =>
      (t.conn c).awaiting call + answersTo c call t.log = 0).card =
      t.log.countP (Event.throwsOn c) := by
  have hcalled := called_run h₀ h
  have honce : ∀ call, (t.conn c).awaiting call + answersTo c call t.log ≤ 1 :=
    answered_once h₀ h c
  have hwaiting : ∑ call ∈ Finset.Ico (s.calls c) (t.calls c), (t.conn c).awaiting call =
      (t.conn c).callbacks.length :=
    sum_countP Callback.call _ fun cb hcb => mem_Ico_of_called h₀ h (hcalled.pending c cb hcb)
  have hanswers : ∑ call ∈ Finset.Ico (s.calls c) (t.calls c), answersTo c call t.log =
      t.log.countP (Event.answersOn c) :=
    sum_answersTo fun call a ha => by
      obtain ⟨op, hop⟩ := hcalled.answered c call a ha
      exact mem_Ico_of_called h₀ h hop
  -- Each call counts once: in its account, or among those that have none.
  have hsplit : ∑ call ∈ Finset.Ico (s.calls c) (t.calls c),
      (((t.conn c).awaiting call + answersTo c call t.log) +
        if (t.conn c).awaiting call + answersTo c call t.log = 0 then 1 else 0) =
      (Finset.Ico (s.calls c) (t.calls c)).card := by
    calc _ = ∑ call ∈ Finset.Ico (s.calls c) (t.calls c), 1 :=
          Finset.sum_congr rfl fun call _ => by
            have hle := honce call
            by_cases hnone : (t.conn c).awaiting call + answersTo c call t.log = 0
            · rw [if_pos hnone, hnone]
            · rw [if_neg hnone]
              omega
      _ = (Finset.Ico (s.calls c) (t.calls c)).card := (Finset.card_eq_sum_ones _).symm
  rw [Finset.sum_add_distrib, Finset.sum_add_distrib, hwaiting, hanswers, ← Finset.card_filter,
    Nat.card_Ico] at hsplit
  have hbalance : (_ : ℕ) = _ := balance_run h₀ h c
  unfold balance at hbalance
  omega

/-- In every run of any number of connections, whatever the faults and lost connections and the calls
that overlap: each call has one callback that waits or one answer at most, and on each connection the
calls with neither are as many as the exceptions that have escaped there. -/
theorem calls_conserved {ls : List (Label ι)} (h₀ : Fresh s) (h : run s ls = some t) (c : ι) :
    (∀ call, (t.conn c).awaiting call + answersTo c call t.log ≤ 1) ∧
      ((Finset.Ico (s.calls c) (t.calls c)).filter fun call =>
        (t.conn c).awaiting call + answersTo c call t.log = 0).card =
        t.log.countP (Event.throwsOn c) :=
  ⟨answered_once h₀ h c, card_unsettled h₀ h c⟩

/-- An init whose data names no kind, and a read that waits. -/
def thrownInit : List (Label Unit) :=
  [.call () (.initInternal ((∅ : AllData).insert "flags" ∅)), .call () (.getInternal .features "f"),
    .serve () .none]

/-- Of the two calls the init has neither a callback nor an answer. -/
theorem calls_conserved_thrown :
    ∃ t : Sys Unit, run (opened (fun _ => none) fun _ => connectedState) thrownInit = some t ∧
      ((Finset.Ico 0 2).filter fun call =>
        (t.conn ()).awaiting call + answersTo () call t.log = 0).card = 1 := by
  have hend : (run (opened (fun _ => none) fun _ => connectedState) thrownInit).map
      (fun t => (t.calls (), t.log.countP (Event.throwsOn ()))) = some (2, 1) := by decide +kernel
  obtain ⟨t, ht, hparts⟩ := Option.map_eq_some_iff.1 hend
  obtain ⟨hcalls, hthrows⟩ := Prod.mk.inj hparts
  have hcount := (calls_conserved (opened_fresh (fun _ => none) fun _ => connectedState) ht ()).2
  rw [hcalls, hthrows] at hcount
  exact ⟨t, ht, hcount⟩

end Sys

end RedisStore
