import RedisStore.Calls

/-!
# Answers

Each call of a run is answered at most once. The code of an operation or of a callback passes one
callback with its commands, or answers the call, or throws (`start_once`, `resume_once`); so the
callbacks of a call in the queues and its answers in the history are together one at most
(`answered_once`), through faults, lost connections, and calls that overlap. And an answer in the
history was given at a step of the run, by the call itself or by a callback on its reply
(`step_of_answered`).
-/

namespace RedisStore

open Redis

/-! ## What code leaves to be answered -/

/-- What is left of a call after a piece of its code: a callback that waits, or an answer. -/
def Js.Once (code : Code Unit) : Prop := code.passed.length + code.answered.length ≤ 1

/-- Code whose effects are known passes what they say. -/
theorem Js.Does.once {code : Code Unit} {issued : List Request} {answered : List (CallId × Answer)}
    {thrown : List Exn} (h : code.Does issued answered thrown)
    (hle : (issued.filterMap Request.callback).length + answered.length ≤ 1) : code.Once := by
  unfold Js.Once Js.passed
  rw [h.issued, h.answered]
  exact hle

theorem upsertInternal_once (state : StoreState) (kind : Kind) (item : Item) (call : CallId) :
    (upsertInternal state kind item call).Once := by
  cases h : state.down with
  | false => exact (upsertInternal_does_of_up h kind item call).once le_rfl
  | true => exact (upsertInternal_does_of_down h kind item call).once le_rfl

/-- A call passes one callback, or is answered, or throws. -/
theorem start_once (state : StoreState) (call : CallId) (op : Op) : (op.start state call).Once := by
  cases op with
  | getInternal kind key =>
    cases h : state.down with
    | false => exact (getInternal_does_of_up h kind key call).once le_rfl
    | true => exact (getInternal_does_of_down h kind key call).once le_rfl
  | getAllInternal kind =>
    cases h : state.down with
    | false => exact (getAllInternal_does_of_up h kind call).once le_rfl
    | true => exact (getAllInternal_does_of_down h kind call).once le_rfl
  | initInternal allData =>
    cases h : buildInit state allData with
    | ok multi => exact (initInternal_does_of_ok h call).once le_rfl
    | error x => exact (initInternal_does_of_error h call).once (by simp)
  | upsertInternal kind item => exact upsertInternal_once state kind item call
  | initializedInternal => exact (initializedInternal_does state call).once le_rfl
  | getMetadata => exact le_rfl
  | getUserMembership userHash => exact le_rfl

/-- So does a callback. -/
theorem resume_once {cb : Callback} (hcb : Awaited cb) (state : StoreState) (reply : Reply) :
    (cb.resume state reply).Once := by
  cases hcb with
  | getRead kind key call =>
    have h := onHget_getInternal_does state kind key call reply
    split at h
    · exact h.once le_rfl
    · exact h.once (by simp)
  | upsertRead kind item call =>
    have h := onHget_update_does state kind item.key item call reply
    split at h
    · exact h.once le_rfl
    · exact h.once le_rfl
    · exact h.once (by simp)
  | upsertWrite kind item call =>
    by_cases hnil : reply = .nil
    · subst hnil
      have hd : (onUpsertExec state kind item call .nil).Does _ _ _ :=
        onUpsertExec_does_of_nil ⟨rfl, rfl, rfl⟩
      exact hd.once (upsertInternal_once state kind item call)
    · exact (onUpsertExec_does hnil state kind item call).once le_rfl
  | getAll kind call =>
    have h := onHgetall_does kind call reply
    split at h
    · exact h.once le_rfl
    · exact h.once (by simp)
  | init allData call => exact (onInitExec_does call reply).once le_rfl
  | inited call => exact (onInitedExists_does call reply).once le_rfl
  | metadata call => cases reply <;> exact le_rfl
  | includes userHash call =>
    unfold Callback.resume onIncludedRefs
    split_ifs <;> exact le_rfl
  | excludes userHash refs call =>
    unfold Callback.resume onExcludedRefs
    split_ifs <;> exact le_rfl

/-! ## The kinds of answers -/

/-- The answers that the type of an operation allows. -/
def Op.mayAnswer : Op → Answer → Bool
  | .getInternal _ _, .item _ => true
  | .getAllInternal _, .items _ => true
  | .initInternal _, .done => true
  | .upsertInternal _ _, .upserted _ _ => true
  | .initializedInternal, .inited _ => true
  | .getMetadata, .metadata _ => true
  | .getMetadata, .rejected => true
  | .getUserMembership _, .membership _ => true
  | .getUserMembership _, .rejected => true
  | _, _ => false

/-- Code whose effects are known answers what they say. -/
theorem Js.Does.mayAnswer {code : Code Unit} {issued : List Request}
    {answered : List (CallId × Answer)} {thrown : List Exn} (h : code.Does issued answered thrown)
    {op : Op} (hall : answered.all fun a => op.mayAnswer a.2) :
    ∀ a ∈ code.answered, op.mayAnswer a.2 = true := by
  rw [h.answered]
  exact List.all_eq_true.1 hall

theorem upsertInternal_mayAnswer (state : StoreState) (kind : Kind) (item : Item) (call : CallId) :
    ∀ a ∈ (upsertInternal state kind item call).answered,
      (Op.upsertInternal kind item).mayAnswer a.2 = true := by
  cases h : state.down with
  | false => exact (upsertInternal_does_of_up h kind item call).mayAnswer rfl
  | true => exact (upsertInternal_does_of_down h kind item call).mayAnswer rfl

/-- What a call is answered with at once is of its operation's type. -/
theorem start_mayAnswer (state : StoreState) (call : CallId) (op : Op) :
    ∀ a ∈ (op.start state call).answered, op.mayAnswer a.2 = true := by
  cases op with
  | getInternal kind key =>
    cases h : state.down with
    | false => exact (getInternal_does_of_up h kind key call).mayAnswer rfl
    | true => exact (getInternal_does_of_down h kind key call).mayAnswer rfl
  | getAllInternal kind =>
    cases h : state.down with
    | false => exact (getAllInternal_does_of_up h kind call).mayAnswer rfl
    | true => exact (getAllInternal_does_of_down h kind call).mayAnswer rfl
  | initInternal allData =>
    cases h : buildInit state allData with
    | ok multi => exact (initInternal_does_of_ok h call).mayAnswer rfl
    | error x => exact (initInternal_does_of_error h call).mayAnswer rfl
  | upsertInternal kind item => exact upsertInternal_mayAnswer state kind item call
  | initializedInternal => exact (initializedInternal_does state call).mayAnswer rfl
  | getMetadata => exact List.forall_mem_nil _
  | getUserMembership userHash => exact List.forall_mem_nil _

/-- So is what a callback answers. -/
theorem resume_mayAnswer {cb : Callback} (hcb : Awaited cb) (state : StoreState) (reply : Reply) :
    ∀ a ∈ (cb.resume state reply).answered, cb.op.mayAnswer a.2 = true := by
  cases hcb with
  | getRead kind key call =>
    have h := onHget_getInternal_does state kind key call reply
    split at h <;> exact h.mayAnswer rfl
  | upsertRead kind item call =>
    have h := onHget_update_does state kind item.key item call reply
    split at h <;> exact h.mayAnswer rfl
  | upsertWrite kind item call =>
    by_cases hnil : reply = .nil
    · subst hnil
      have hd : (onUpsertExec state kind item call .nil).Does _ _ _ :=
        onUpsertExec_does_of_nil ⟨rfl, rfl, rfl⟩
      exact hd.mayAnswer (List.all_eq_true.2 (upsertInternal_mayAnswer state kind item call))
    · exact (onUpsertExec_does hnil state kind item call).mayAnswer rfl
  | getAll kind call =>
    have h := onHgetall_does kind call reply
    split at h <;> exact h.mayAnswer rfl
  | init allData call => exact (onInitExec_does call reply).mayAnswer rfl
  | inited call => exact (onInitedExists_does call reply).mayAnswer rfl
  | metadata call => cases reply <;> simp [Callback.resume, onMetadataGet, answer, Js.answered, Callback.op, Op.mayAnswer]
  | includes userHash call =>
    unfold Callback.resume onIncludedRefs
    split_ifs <;> simp [answer, issue, Js.answered, Callback.op, Op.mayAnswer]
  | excludes userHash refs call =>
    unfold Callback.resume onExcludedRefs
    split_ifs <;> simp [answer, Js.answered, Callback.op, Op.mayAnswer]

/-! ## The account of a call -/

/-- The number of callbacks of a call that have not run. -/
def Conn.awaiting (conn : Conn) (call : CallId) : ℕ :=
  conn.callbacks.countP fun cb => cb.call = call

/-- Two elements that a list counts once are the same. -/
theorem eq_of_mem_of_countP_le_one {α : Type} {p : α → Bool} {l : List α} (h : l.countP p ≤ 1)
    {a b : α} (ha : a ∈ l) (hb : b ∈ l) (hpa : p a = true) (hpb : p b = true) : a = b := by
  have hmem : ∀ {x}, x ∈ l → p x = true → x ∈ l.filter p := fun hx hp => List.mem_filter.2 ⟨hx, hp⟩
  rw [List.countP_eq_length_filter] at h
  have ha' := hmem ha hpa
  have hb' := hmem hb hpb
  generalize l.filter p = m at h ha' hb'
  -- A list of one element at most.
  match m, h with
  | [], _ => cases ha'
  | [x], _ => rw [List.mem_singleton.1 ha', List.mem_singleton.1 hb']

variable {ι : Type} [DecidableEq ι]

/-- The event is an answer to a call. -/
def Event.answers (c : ι) (call : CallId) : Event ι → Bool
  | .answered d call' _ => d = c && call' = call
  | _ => false

/-- The number of answers to a call in a history. -/
def answersTo (c : ι) (call : CallId) (log : List (Event ι)) : ℕ :=
  log.countP (Event.answers c call)

theorem answersTo_append (c : ι) (call : CallId) (log es : List (Event ι)) :
    answersTo c call (log ++ es) = answersTo c call log + answersTo c call es :=
  List.countP_append

/-- A counted answer is in the history. -/
theorem exists_answered {c : ι} {call : CallId} {log : List (Event ι)}
    (h : 0 < answersTo c call log) : ∃ a, .answered c call a ∈ log := by
  obtain ⟨e, he, hans⟩ := List.countP_pos_iff.1 h
  cases e with
  | answered d call' a =>
    obtain ⟨rfl, rfl⟩ : d = c ∧ call' = call := by simpa [Event.answers] using hans
    exact ⟨a, he⟩
  | _ => cases hans

/-- One event that is no answer. -/
theorem answersTo_of_not_answers {c : ι} {call : CallId} {e : Event ι}
    (h : e.answers c call = false) : answersTo c call [e] = 0 := by
  unfold answersTo
  rw [List.countP_singleton, h]
  rfl

/-- The events of another connection are no answers. -/
theorem answersTo_of_conn {c : ι} {es : List (Event ι)} (h : ∀ e ∈ es, e.conn? ≠ some c)
    (call : CallId) : answersTo c call es = 0 := by
  unfold answersTo
  rw [List.countP_eq_zero]
  intro e he hans
  cases e with
  | answered d call' a =>
    obtain ⟨rfl, -⟩ : d = c ∧ call' = call := by simpa [Event.answers] using hans
    exact h _ he rfl
  | _ => cases hans

/-- The answers among the events of a piece of code. -/
theorem answersTo_eventsOf (c : ι) (call : CallId) (code : Code Unit) :
    answersTo c call (eventsOf c code) = code.answered.countP fun a => a.1 = call := by
  unfold answersTo eventsOf
  rw [List.countP_append, List.countP_map, List.countP_map]
  have hthrew : code.thrown.countP (Event.answers c call ∘ .threw c) = 0 := by
    rw [List.countP_eq_zero]
    intro x _ hx
    cases hx
  rw [hthrew, Nat.add_zero]
  exact List.countP_congr fun a _ => by simp [Event.answers]

/-- A piece of code adds one at most to the account of its call, and nothing to any other. -/
theorem WorksFor.count_le {code : Code Unit} {call : CallId} {op : Op} (h : WorksFor code call op)
    (honce : code.Once) (call' : CallId) :
    (code.passed.countP fun cb => cb.call = call') + (code.answered.countP fun a => a.1 = call') ≤
      if call = call' then 1 else 0 := by
  have hpassed : ∀ cb ∈ code.passed, cb.call = call := fun cb hcb => (h.passed hcb).1
  split_ifs with hc
  · have h1 := List.countP_le_length (p := fun cb : Callback => decide (cb.call = call')) (l := code.passed)
    have h2 := List.countP_le_length (p := fun a : CallId × Answer => decide (a.1 = call'))
      (l := code.answered)
    unfold Js.Once at honce
    omega
  · have h1 : (code.passed.countP fun cb => cb.call = call') = 0 := by
      rw [List.countP_eq_zero]
      intro cb hcb hcall
      exact hc ((hpassed cb hcb).symm.trans (of_decide_eq_true hcall))
    have h2 : (code.answered.countP fun a => a.1 = call') = 0 := by
      rw [List.countP_eq_zero]
      intro a ha hcall
      exact hc ((h.answered a ha).symm.trans (of_decide_eq_true hcall))
    omega

namespace Sys

variable {s t : Sys ι} {l : Label ι}

/-- A call has one callback in the queues or one answer in the history, at most. -/
def Once (s : Sys ι) : Prop :=
  ∀ c call, (s.conn c).awaiting call + answersTo c call s.log ≤ 1

/-- Before any call there is nothing to account for. -/
theorem Fresh.once (h : Fresh s) : Once s := by
  intro c call
  unfold Conn.awaiting Conn.callbacks answersTo
  rw [h.inbox c, h.outbox c, h.log]
  exact Nat.zero_le _

omit [DecidableEq ι] in
/-- The callback of an executed command moves from the inbox to the outbox. -/
theorem ServeStep.awaiting {c : ι} {request : Request} {rest : List Request} {fault : Fault}
    (hs : ServeStep s t c request rest fault) (call : CallId) :
    (t.conn c).awaiting call = (s.conn c).awaiting call := by
  unfold Conn.awaiting Conn.callbacks
  rw [hs.self, hs.inbox]
  unfold waiting
  cases hcb : request.callback with
  | none => simp [hcb]
  | some cb => simp [hcb, List.countP_append, List.countP_cons, Nat.add_assoc, Nat.add_comm]

omit [DecidableEq ι] in
/-- A callback that runs is counted no more, and those that its code passes are. -/
theorem DeliverStep.awaiting {c : ι} {cb : Callback} {reply : Reply}
    {rest : List (Callback × Reply)} (hs : DeliverStep s t c cb reply rest) (call : CallId) :
    (t.conn c).awaiting call + (if cb.call = call then 1 else 0) = (s.conn c).awaiting call +
      ((cb.resume (s.conn c).state reply).passed.countP fun cb => cb.call = call) := by
  unfold Conn.awaiting Conn.callbacks Js.passed
  rw [hs.self, hs.outbox]
  simp only [List.map_cons, List.cons_append, List.countP_cons, List.filterMap_append,
    List.countP_append, decide_eq_true_eq]
  omega

omit [DecidableEq ι] in
/-- Every callback that waits when the connection is lost gets an error, and goes on waiting. -/
theorem LoseStep.awaiting {c : ι} {kept : ℕ} (hs : LoseStep s t c kept) (call : CallId) :
    (t.conn c).awaiting call = (s.conn c).awaiting call := by
  have hsame : (t.conn c).callbacks = (s.conn c).callbacks := by
    unfold Conn.callbacks
    rw [hs.self]
    simp only [abandoned, List.map_append, List.map_map, List.filterMap_nil, List.append_nil,
      List.map_filterMap, Option.map_map, Function.comp_def, Option.map_id']
    rw [← List.map_append, List.take_append_drop]
  unfold Conn.awaiting
  rw [hsame]

/-- A step that is no call adds nothing to the account of any call. -/
theorem account_le (hq : ∀ c, (s.conn c).Queued) (h : step s l = some t) {c : ι} {call : CallId}
    (hl : ∀ op, l ≠ .call c op) :
    (t.conn c).awaiting call + answersTo c call t.log ≤
      (s.conn c).awaiting call + answersTo c call s.log := by
  cases step_conn h c with
  | call op hs => exact absurd rfl (hl op)
  | serve request rest fault hs =>
    rw [hs.awaiting, hs.log, answersTo_append, answersTo_of_not_answers rfl, Nat.add_zero]
  | deliver cb reply rest hs =>
    have hcb : Awaited cb := (hq c).outbox (cb, reply) (by rw [hs.outbox]; exact List.mem_cons_self)
    -- The callback's code adds one at most, where the callback was counted.
    have hworks : WorksFor (cb.resume (s.conn c).state reply) cb.call cb.op :=
      resume_worksFor hcb reply
    have hcode := hworks.count_le (resume_once hcb _ reply) call
    have hawaiting := hs.awaiting call
    rw [hs.log, answersTo_append, answersTo_eventsOf]
    omega
  | lose kept hs =>
    rw [hs.awaiting, hs.log, answersTo_append, answersTo_of_not_answers rfl, Nat.add_zero]
  | regain hs =>
    have hawaiting : (t.conn c).awaiting call = (s.conn c).awaiting call := by
      rw [hs.self]
      rfl
    rw [hawaiting, hs.log, answersTo_append, answersTo_of_not_answers rfl, Nat.add_zero]
  | other l hc hs =>
    obtain ⟨es, hes, hconn⟩ := step_log_conn h
    have hawaiting : (t.conn c).awaiting call = (s.conn c).awaiting call := by
      rw [hs]
      rfl
    have hanswers : answersTo c call es = 0 :=
      answersTo_of_conn (fun e he => (hconn e he).trans_ne hc) call
    rw [hawaiting, hes, answersTo_append, hanswers, Nat.add_zero]

/-- No step gives a call a second callback or a second answer. -/
theorem once_step (hq : ∀ c, (s.conn c).Queued) (hcalled : Called s) (hs : Once s)
    (h : step s l = some t) : Once t := by
  intro c call
  by_cases hl : ∃ op, l = .call c op
  · obtain ⟨op, rfl⟩ := hl
    have hstep := call_step h
    have hcode := (start_worksFor (s.conn c).state (s.calls c) op).count_le (start_once _ _ op) call
    have hawaiting : (t.conn c).awaiting call = (s.conn c).awaiting call +
        ((op.start (s.conn c).state (s.calls c)).passed.countP fun cb => cb.call = call) := by
      unfold Conn.awaiting Conn.callbacks Js.passed
      rw [hstep.self]
      simp only [List.filterMap_append, List.countP_append]
      omega
    have hanswers : answersTo c call t.log = answersTo c call s.log +
        ((op.start (s.conn c).state (s.calls c)).answered.countP fun a => a.1 = call) := by
      rw [hstep.log, answersTo_append, ← answersTo_eventsOf c call]
      rfl
    have hle := hs c call
    split_ifs at hcode with hcall
    · -- A new call is not in the account yet.
      have hnew : (s.conn c).awaiting call = 0 := by
        unfold Conn.awaiting
        rw [List.countP_eq_zero]
        intro cb hcb heq
        have hlt := hcalled.fresh c _ _ (hcalled.pending c cb hcb)
        rw [hcall, of_decide_eq_true heq] at hlt
        exact lt_irrefl _ hlt
      have hnone : answersTo c call s.log = 0 := by
        unfold answersTo
        rw [List.countP_eq_zero]
        intro e he heq
        cases e with
        | answered d call' a =>
          obtain ⟨rfl, rfl⟩ : d = c ∧ call' = call := by simpa [Event.answers] using heq
          obtain ⟨op', hop⟩ := hcalled.answered d call' a he
          have hlt := hcalled.fresh d _ _ hop
          rw [hcall] at hlt
          exact lt_irrefl _ hlt
        | _ => cases heq
      omega
    · omega
  · have hle : (t.conn c).awaiting call + answersTo c call t.log ≤
        (s.conn c).awaiting call + answersTo c call s.log :=
      account_le hq h fun op heq => hl ⟨op, heq⟩
    have hbefore := hs c call
    omega

/-- In every run each call has one callback in the queues or one answer in the history, at most. -/
theorem answered_once {ls : List (Label ι)} (h₀ : Fresh s) (h : run s ls = some t) : Once t :=
  (Transition.run_invariant' (P := fun u => ((∀ c, (u.conn c).Queued) ∧ Called u) ∧ Once u)
    (fun _ _ _ hs hstep => ⟨⟨queued_step hs.1.1 hstep, called_step hs.1.1 hs.1.2 hstep⟩,
      once_step hs.1.1 hs.1.2 hs.2 hstep⟩)
    ⟨⟨h₀.queued, h₀.called⟩, h₀.once⟩ h).2

/-- A call has one answer. -/
theorem Once.answer_unique (hs : Once s) {c : ι} {call : CallId} {a a' : Answer}
    (ha : .answered c call a ∈ s.log) (ha' : .answered c call a' ∈ s.log) : a = a' := by
  have hle := hs c call
  have hone : s.log.countP (Event.answers c call) ≤ 1 := by
    unfold answersTo at hle
    omega
  have heq := eq_of_mem_of_countP_le_one hone ha ha' (by simp [Event.answers]) (by simp [Event.answers])
  cases heq
  rfl

/-- A call with an answer has no callback. -/
theorem Once.not_answered (hs : Once s) {c : ι} {cb : Callback} (hcb : cb ∈ (s.conn c).callbacks)
    (a : Answer) : .answered c cb.call a ∉ s.log := by
  intro ha
  have hle := hs c cb.call
  have h1 : 0 < (s.conn c).awaiting cb.call :=
    List.countP_pos_iff.2 ⟨cb, hcb, decide_eq_true rfl⟩
  have h2 : 0 < answersTo c cb.call s.log :=
    List.countP_pos_iff.2 ⟨_, ha, by simp [Event.answers]⟩
  omega

/-- A call has one reply waiting. -/
theorem Once.reply_unique (hs : Once s) {c : ι} {cb cb' : Callback} {reply reply' : Reply}
    (hmem : (cb, reply) ∈ (s.conn c).outbox) (hmem' : (cb', reply') ∈ (s.conn c).outbox)
    (hcall : cb.call = cb'.call) : cb = cb' ∧ reply = reply' := by
  have hle := hs c cb'.call
  have hone : ((s.conn c).outbox.countP fun p => p.1.call = cb'.call) ≤ 1 := by
    unfold Conn.awaiting Conn.callbacks at hle
    rw [List.countP_append, List.countP_map] at hle
    have hsame : ((s.conn c).outbox.countP ((fun cb => decide (cb.call = cb'.call)) ∘ Prod.fst)) =
        (s.conn c).outbox.countP fun p => p.1.call = cb'.call := rfl
    omega
  exact Prod.mk.inj (eq_of_mem_of_countP_le_one hone hmem hmem' (decide_eq_true hcall)
    (decide_eq_true rfl))

/-- A call has been made, and has not been answered. -/
def InProgress (s : Sys ι) (c : ι) (call : CallId) : Prop :=
  (∃ op, .called c call op ∈ s.log) ∧ ∀ a, .answered c call a ∉ s.log

/-- A call whose callback waits is in progress. -/
theorem inProgress_of_callback {ls : List (Label ι)} (h₀ : Fresh s) (h : run s ls = some t) {c : ι}
    {cb : Callback} (hcb : cb ∈ (t.conn c).callbacks) : InProgress t c cb.call :=
  ⟨⟨cb.op, (called_run h₀ h).pending c cb hcb⟩, (answered_once h₀ h).not_answered hcb⟩

/-! ## Where an answer comes from -/

/-- An answer in the history of a run was given at one of its steps: by the call itself, or by a
callback of the call on its reply. -/
theorem step_of_answered {ls : List (Label ι)} (h₀ : Fresh s) (h : run s ls = some t) {c : ι}
    {call : CallId} {a : Answer} (ha : .answered c call a ∈ t.log) :
    ∃ ls₁ l ls₂ u v, ls = ls₁ ++ l :: ls₂ ∧ run s ls₁ = some u ∧ step u l = some v ∧
      run v ls₂ = some t ∧
      ((∃ op, l = .call c op ∧ call = u.calls c ∧
          (call, a) ∈ (op.start (u.conn c).state call).answered) ∨
        ∃ cb reply rest, l = .deliver c ∧ (u.conn c).outbox = (cb, reply) :: rest ∧
          cb.call = call ∧ (call, a) ∈ (cb.resume (u.conn c).state reply).answered) := by
  obtain ⟨ls₁, l, ls₂, u, v, hls, hu, hnu, huv, hv, hvt⟩ := Transition.exists_step_of_run
    (P := fun u : Sys ι => .answered c call a ∈ u.log) (by simp [h₀.log]) ha h
  refine ⟨ls₁, l, ls₂, u, v, hls, hu, huv, hvt, ?_⟩
  rcases (answered_of_step (fun d => queued_run h₀ hu d) huv hv).resolve_left hnu with
    ⟨op, hl, hcall, hmem⟩ | ⟨cb, reply, rest, hl, hout, hcall, hmem⟩
  · rw [← hcall] at hmem
    exact .inl ⟨op, hl, hcall, hmem⟩
  · exact .inr ⟨cb, reply, rest, hl, hout, hcall.symm, hmem⟩

/-- That step ran the code of the operation that the call is recorded with. -/
theorem step_of_called_answered {ls : List (Label ι)} (h₀ : Fresh s) (h : run s ls = some t) {c : ι}
    {call : CallId} {op : Op} {a : Answer} (hcalled : .called c call op ∈ t.log)
    (ha : .answered c call a ∈ t.log) :
    ∃ ls₁ l ls₂ u v, ls = ls₁ ++ l :: ls₂ ∧ run s ls₁ = some u ∧ step u l = some v ∧
      run v ls₂ = some t ∧
      ((l = .call c op ∧ (call, a) ∈ (op.start (u.conn c).state call).answered) ∨
        ∃ cb reply, l = .deliver c ∧ (cb, reply) ∈ (u.conn c).outbox ∧ Awaited cb ∧ cb.op = op ∧
          cb.call = call ∧ (call, a) ∈ (cb.resume (u.conn c).state reply).answered) := by
  obtain ⟨ls₁, l, ls₂, u, v, hls, hu, huv, hvt, hgiven⟩ := step_of_answered h₀ h ha
  refine ⟨ls₁, l, ls₂, u, v, hls, hu, huv, hvt, ?_⟩
  have hrecorded : Called t := called_run h₀ h
  rcases hgiven with ⟨op', rfl, rfl, hans⟩ | ⟨cb, reply, rest, rfl, hout, rfl, hans⟩
  · have hmade : .called c (u.calls c) op' ∈ v.log := by
      rw [(call_step huv).log]
      simp
    obtain rfl : op = op' := hrecorded.unique c _ _ _ hcalled (mem_log_of_run hvt hmade)
    exact .inl ⟨rfl, hans⟩
  · have hmem : (cb, reply) ∈ (u.conn c).outbox := by
      rw [hout]
      exact List.mem_cons_self
    have hop : cb.op = op := op_of_callback (called_run h₀ hu) hrecorded
      (Transition.run_cons_eq_some.2 ⟨v, huv, hvt⟩) (Conn.mem_callbacks.2 (.inl ⟨reply, hmem⟩)) hcalled
    exact .inr ⟨cb, reply, rfl, hmem, (queued_run h₀ hu c).outbox _ hmem, hop, rfl, hans⟩

/-- An answer is of the type of the call's operation. -/
theorem mayAnswer_of_answered {ls : List (Label ι)} (h₀ : Fresh s) (h : run s ls = some t) {c : ι}
    {call : CallId} {op : Op} {a : Answer} (hcalled : .called c call op ∈ t.log)
    (ha : .answered c call a ∈ t.log) : op.mayAnswer a = true := by
  obtain ⟨ls₁, l, ls₂, u, v, -, -, -, -, hgiven⟩ := step_of_called_answered h₀ h hcalled ha
  rcases hgiven with ⟨-, hans⟩ | ⟨cb, reply, -, -, hcb, rfl, -, hans⟩
  · exact start_mayAnswer _ call op _ hans
  · exact resume_mayAnswer hcb _ reply _ hans

end Sys

end RedisStore
