import RedisStore.Queue

/-!
# The calls of a run

Each callback in a queue, and each answer, belongs to a call that the history records, and the
number of a call determines its operation. So the operation that an answer is for can be read off
the history.
-/

namespace RedisStore

open Redis

/-- The callbacks of a connection that have not run. -/
def Conn.callbacks (conn : Conn) : List Callback :=
  conn.outbox.map Prod.fst ++ conn.inbox.filterMap Request.callback

/-- A callback that has not run waits in the outbox or comes with a request. -/
theorem Conn.mem_callbacks {conn : Conn} {cb : Callback} :
    cb ∈ conn.callbacks ↔
      (∃ reply, (cb, reply) ∈ conn.outbox) ∨ ∃ r ∈ conn.inbox, r.callback = some cb := by
  simp [callbacks]

/-- The callbacks that a piece of code passes with its commands. -/
def Js.passed (code : Code Unit) : List Callback := code.issued.filterMap Request.callback

/-- They belong to the call that the code works for. -/
theorem WorksFor.passed {code : Code Unit} {call : CallId} {op : Op} (h : WorksFor code call op)
    {cb : Callback} (hcb : cb ∈ code.passed) : cb.call = call ∧ cb.op = op := by
  obtain ⟨r, hr, hrcb⟩ := List.mem_filterMap.1 hcb
  exact h.issued r hr cb hrcb

namespace Sys

variable {ι : Type}

/-- The history records the calls that the callbacks and the answers belong to, each once. -/
structure Called (s : Sys ι) : Prop where
  pending : ∀ c, ∀ cb ∈ (s.conn c).callbacks, .called c cb.call cb.op ∈ s.log
  answered : ∀ c call a, .answered c call a ∈ s.log → ∃ op, .called c call op ∈ s.log
  fresh : ∀ c call op, .called c call op ∈ s.log → call < s.calls c
  unique : ∀ c call op op', .called c call op ∈ s.log → .called c call op' ∈ s.log → op = op'

theorem Fresh.called {s : Sys ι} (h : Fresh s) : Called s where
  pending c cb hcb := by simp [Conn.callbacks, h.inbox c, h.outbox c] at hcb
  answered c call a ha := by simp [h.log] at ha
  fresh c call op hc := by simp [h.log] at hc
  unique c d call op op' hc := by simp [h.log] at hc

variable [DecidableEq ι] {s t : Sys ι} {l : Label ι}

/-- What a step adds to the history. -/
theorem step_log (h : step s l = some t) : ∃ es, t.log = s.log ++ es := by
  cases l with
  | call c op => exact ⟨_, (call_step h).log⟩
  | serve c fault => obtain ⟨_, _, hs⟩ := serve_step h; exact ⟨_, hs.log⟩
  | deliver c => obtain ⟨_, _, _, hs⟩ := deliver_step h; exact ⟨_, hs.log⟩
  | lose c kept => exact ⟨_, (lose_step h).log⟩
  | regain c => exact ⟨_, (regain_step h).log⟩
  | foreign values => exact ⟨_, (foreign_step h).log⟩

/-- The history grows. -/
theorem mem_log_of_step (h : step s l = some t) {e : Event ι} (he : e ∈ s.log) : e ∈ t.log := by
  obtain ⟨es, hes⟩ := step_log h
  rw [hes]
  exact List.mem_append_left _ he

/-- A call is recorded at its step, and no other step records one. -/
theorem called_of_step (h : step s l = some t) {c : ι} {call : CallId} {op : Op}
    (hc : .called c call op ∈ t.log) :
    .called c call op ∈ s.log ∨ l = .call c op ∧ call = s.calls c := by
  cases l with
  | call d op' =>
    rw [(call_step h).log] at hc
    simp only [List.mem_append, List.mem_cons, Event.called.injEq, not_called_eventsOf,
      or_false] at hc
    rcases hc with hc | ⟨rfl, rfl, rfl⟩
    · exact .inl hc
    · exact .inr ⟨rfl, rfl⟩
  | serve d fault =>
    obtain ⟨_, _, hs⟩ := serve_step h
    simpa [hs.log] using hc
  | deliver d =>
    obtain ⟨_, _, _, hs⟩ := deliver_step h
    simpa [hs.log] using hc
  | lose d kept => simpa [(lose_step h).log] using hc
  | regain d => simpa [(regain_step h).log] using hc
  | foreign values => simpa [(foreign_step h).log] using hc

/-- An answer is recorded by the code of its call. -/
theorem answered_of_step (hq : ∀ c, (s.conn c).Queued) (h : step s l = some t) {c : ι}
    {call : CallId} {a : Answer} (ha : .answered c call a ∈ t.log) :
    .answered c call a ∈ s.log ∨
      (∃ op, l = .call c op ∧ call = s.calls c ∧
        (call, a) ∈ (op.start (s.conn c).state (s.calls c)).answered) ∨
      ∃ cb reply rest, l = .deliver c ∧ (s.conn c).outbox = (cb, reply) :: rest ∧
        call = cb.call ∧ (call, a) ∈ (cb.resume (s.conn c).state reply).answered := by
  cases l with
  | call d op =>
    rw [(call_step h).log] at ha
    simp only [List.mem_append, List.mem_cons, reduceCtorEq, false_or] at ha
    refine ha.imp_right fun ha => .inl ?_
    obtain ⟨rfl, hmem⟩ := answered_mem_eventsOf.1 ha
    exact ⟨op, rfl, (start_worksFor _ _ op).answered _ hmem, hmem⟩
  | serve d fault =>
    obtain ⟨_, _, hs⟩ := serve_step h
    exact .inl (by simpa [hs.log] using ha)
  | deliver d =>
    obtain ⟨cb, reply, rest, hs⟩ := deliver_step h
    rw [hs.log, List.mem_append] at ha
    refine ha.imp_right fun ha => .inr ?_
    obtain ⟨rfl, hmem⟩ := answered_mem_eventsOf.1 ha
    have hcb : Awaited cb := (hq c).outbox (cb, reply) (by rw [hs.outbox]; simp)
    exact ⟨cb, reply, rest, rfl, hs.outbox, (resume_worksFor hcb reply).answered _ hmem, hmem⟩
  | lose d kept => exact .inl (by simpa [(lose_step h).log] using ha)
  | regain d => exact .inl (by simpa [(regain_step h).log] using ha)
  | foreign values => exact .inl (by simpa [(foreign_step h).log] using ha)

/-- A callback in a queue was there before the step, or the code of the step passed it. -/
theorem passed_of_step (h : step s l = some t) {d : ι} {cb : Callback}
    (hcb : cb ∈ (t.conn d).callbacks) :
    cb ∈ (s.conn d).callbacks ∨
      (∃ op, l = .call d op ∧ cb ∈ (op.start (s.conn d).state (s.calls d)).passed) ∨
      ∃ cb' reply rest, l = .deliver d ∧ (s.conn d).outbox = (cb', reply) :: rest ∧
        cb ∈ (cb'.resume (s.conn d).state reply).passed := by
  cases step_conn h d with
  | call op hs =>
    rw [hs.self, Conn.mem_callbacks] at hcb
    rcases hcb with hcb | ⟨r, hr, hrcb⟩
    · exact .inl (Conn.mem_callbacks.2 (.inl hcb))
    · rcases List.mem_append.mp hr with hr | hr
      · exact .inl (Conn.mem_callbacks.2 (.inr ⟨r, hr, hrcb⟩))
      · exact .inr (.inl ⟨op, rfl, List.mem_filterMap.2 ⟨r, hr, hrcb⟩⟩)
  | serve request rest fault hs =>
    refine .inl (Conn.mem_callbacks.2 ?_)
    rw [hs.self, Conn.mem_callbacks] at hcb
    rcases hcb with ⟨reply, hp⟩ | ⟨r, hr, hrcb⟩
    · rcases List.mem_append.mp hp with hp | hp
      · exact .inl ⟨reply, hp⟩
      · exact .inr ⟨request, by rw [hs.inbox]; simp, (mem_waiting.1 hp).1⟩
    · exact .inr ⟨r, by rw [hs.inbox]; exact List.mem_cons_of_mem _ hr, hrcb⟩
  | deliver cb' reply rest hs =>
    rw [hs.self, Conn.mem_callbacks] at hcb
    rcases hcb with ⟨reply', hp⟩ | ⟨r, hr, hrcb⟩
    · refine .inl (Conn.mem_callbacks.2 (.inl ⟨reply', ?_⟩))
      rw [hs.outbox]
      exact List.mem_cons_of_mem _ hp
    · rcases List.mem_append.mp hr with hr | hr
      · exact .inl (Conn.mem_callbacks.2 (.inr ⟨r, hr, hrcb⟩))
      · exact .inr (.inr ⟨cb', reply, rest, rfl, hs.outbox, List.mem_filterMap.2 ⟨r, hr, hrcb⟩⟩)
  | lose kept hs =>
    refine .inl (Conn.mem_callbacks.2 ?_)
    rw [hs.self, Conn.mem_callbacks] at hcb
    rcases hcb with ⟨reply, hp⟩ | ⟨r, hr, -⟩
    · simp only [List.append_assoc, List.mem_append, List.mem_map, Prod.mk.injEq] at hp
      rcases hp with hp | ⟨q, hq, rfl, -⟩ | hp
      · exact .inl ⟨reply, List.mem_of_mem_take hp⟩
      · exact .inl ⟨q.2, List.mem_of_mem_drop hq⟩
      · exact .inr (mem_abandoned.1 hp).2
    · cases hr
  | regain hs =>
    rw [hs.self] at hcb
    exact .inl hcb
  | other l hd hs =>
    rw [hs] at hcb
    exact .inl hcb

/-- So a new callback belongs to the call that the step makes, or to the call of the callback that it
runs. -/
theorem callbacks_of_step (hq : ∀ c, (s.conn c).Queued) (h : step s l = some t) {d : ι}
    {cb : Callback} (hcb : cb ∈ (t.conn d).callbacks) :
    cb ∈ (s.conn d).callbacks ∨ (l = .call d cb.op ∧ cb.call = s.calls d) ∨
      ∃ cb' ∈ (s.conn d).callbacks, cb.call = cb'.call ∧ cb.op = cb'.op := by
  refine (passed_of_step h hcb).imp_right ?_
  rintro (⟨op, rfl, hmem⟩ | ⟨cb', reply, rest, -, hout, hmem⟩)
  · obtain ⟨hcall, hop⟩ := (start_worksFor _ _ op).passed hmem
    exact .inl ⟨by rw [hop], hcall⟩
  · have hmem' : (cb', reply) ∈ (s.conn d).outbox := by rw [hout]; exact List.mem_cons_self
    exact .inr ⟨cb', Conn.mem_callbacks.2 (.inl ⟨reply, hmem'⟩),
      (resume_worksFor ((hq d).outbox _ hmem') reply).passed hmem⟩

theorem called_step (hq : ∀ c, (s.conn c).Queued) (hs : Called s) (h : step s l = some t) :
    Called t := by
  -- The numbers of calls grow.
  have hcalls : ∀ d, s.calls d ≤ t.calls d := by
    intro d
    cases l with
    | call c op =>
      rw [(call_step h).calls, Function.update_apply]
      split_ifs with hd
      · rw [hd]
        exact Nat.le_succ _
      · exact le_rfl
    | serve c fault => obtain ⟨_, _, hstep⟩ := serve_step h; rw [hstep.calls]
    | deliver c => obtain ⟨_, _, _, hstep⟩ := deliver_step h; rw [hstep.calls]
    | lose c kept => rw [(lose_step h).calls]
    | regain c => rw [(regain_step h).calls]
    | foreign values => rw [(foreign_step h).calls]
  -- A new call is recorded, with a number that no call had.
  have hnew : ∀ c op, l = .call c op →
      .called c (s.calls c) op ∈ t.log ∧ s.calls c < t.calls c := by
    rintro c op rfl
    have hstep := call_step h
    rw [hstep.log, hstep.calls, Function.update_self]
    exact ⟨by simp, Nat.lt_succ_self _⟩
  refine ⟨fun c cb hcb => ?_, fun c call a ha => ?_, fun c call op hc => ?_,
    fun c call op op' hc hc' => ?_⟩
  · rcases callbacks_of_step hq h hcb with hcb | ⟨hl, hcall⟩ | ⟨cb', hcb', hcall, hop⟩
    · exact mem_log_of_step h (hs.pending c cb hcb)
    · rw [hcall]
      exact (hnew c cb.op hl).1
    · rw [hcall, hop]
      exact mem_log_of_step h (hs.pending c cb' hcb')
  · -- The answer is from before, or given by the call itself, or by a callback that waited.
    rcases answered_of_step hq h ha with ha | ⟨op, hl, rfl, -⟩ | ⟨cb, reply, rest, -, hout, rfl, -⟩
    · obtain ⟨op, hop⟩ := hs.answered c call a ha
      exact ⟨op, mem_log_of_step h hop⟩
    · exact ⟨op, (hnew c op hl).1⟩
    · refine ⟨cb.op, mem_log_of_step h (hs.pending c cb (Conn.mem_callbacks.2 (.inl ⟨reply, ?_⟩)))⟩
      rw [hout]
      simp
  · rcases called_of_step h hc with hc | ⟨hl, rfl⟩
    · exact lt_of_lt_of_le (hs.fresh c call op hc) (hcalls c)
    · exact (hnew c op hl).2
  · rcases called_of_step h hc with hc | ⟨hl, rfl⟩ <;>
      rcases called_of_step h hc' with hc' | ⟨hl', hcall⟩
    · exact hs.unique c call op op' hc hc'
    · exact absurd (hs.fresh c call op hc) (hcall ▸ lt_irrefl _)
    · exact absurd (hs.fresh c _ op' hc') (lt_irrefl _)
    · rw [hl] at hl'
      cases hl'
      rfl

/-- The history of a run records the calls. -/
theorem called_run {ls : List (Label ι)} (h₀ : Fresh s) (h : run s ls = some t) : Called t :=
  (Transition.run_invariant' (P := fun u => (∀ c, (u.conn c).Queued) ∧ Called u)
    (fun _ _ _ hs hstep => ⟨queued_step hs.1 hstep, called_step hs.1 hs.2 hstep⟩)
    ⟨h₀.queued, h₀.called⟩ h).2

/-- The history of a run keeps its events. -/
theorem mem_log_of_run {ls : List (Label ι)} (h : run s ls = some t) {e : Event ι}
    (he : e ∈ s.log) : e ∈ t.log :=
  Transition.run_invariant' (P := fun u : Sys ι => e ∈ u.log)
    (fun _ _ _ hs hstep => mem_log_of_step hstep hs) he h

/-- A callback that waits before a run is one of the operation that its call is recorded with after
it. -/
theorem op_of_callback {ls : List (Label ι)} (hs : Called s) (ht : Called t) (h : run s ls = some t)
    {c : ι} {cb : Callback} {op : Op} (hcb : cb ∈ (s.conn c).callbacks)
    (hcalled : .called c cb.call op ∈ t.log) : cb.op = op :=
  ht.unique c cb.call _ _ (mem_log_of_run h (hs.pending c cb hcb)) hcalled

/-- A call of a run is in its history. -/
theorem called_of_mem {ls : List (Label ι)} (h : run s ls = some t) {c : ι} {op : Op}
    (hmem : .call c op ∈ ls) : ∃ call, .called c call op ∈ t.log := by
  obtain ⟨ls₁, ls₂, rfl⟩ := List.append_of_mem hmem
  obtain ⟨u, -, hu⟩ := Transition.run_append_eq_some.1 h
  obtain ⟨v, hv, hrest⟩ := Transition.run_cons_eq_some.1 hu
  exact ⟨u.calls c, mem_log_of_run hrest (by rw [(call_step hv).log]; simp)⟩

/-- A call in the history of a run is one of its labels. -/
theorem mem_of_called (h₀ : Fresh s) (h : run s ls = some t) {c : ι} {call : CallId} {op : Op}
    (hcalled : .called c call op ∈ t.log) : .call c op ∈ ls := by
  obtain ⟨ls₁, l, ls₂, u, v, rfl, -, hnu, huv, hv, -⟩ := Transition.exists_step_of_run
    (P := fun u : Sys ι => .called c call op ∈ u.log) (by simp [h₀.log]) hcalled h
  obtain ⟨rfl, -⟩ := (called_of_step huv hv).resolve_left hnu
  simp

/-- Every call has been answered. -/
def AllAnswered (s : Sys ι) : Prop :=
  ∀ c call op, .called c call op ∈ s.log → ∃ a, .answered c call a ∈ s.log

instance (s : Sys ι) : Decidable (AllAnswered s) :=
  decidable_of_iff
    (s.log.all fun
      | .called c call _ => s.log.any fun
        | .answered d call' _ => c = d && call = call'
        | _ => false
      | _ => true) <| by
    rw [List.all_eq_true]
    constructor
    · intro h c call op hc
      obtain ⟨e, he, hans⟩ := List.any_eq_true.1 (h _ hc)
      split at hans
      · next d call' a =>
        obtain ⟨rfl, rfl⟩ : c = d ∧ call = call' := by simpa using hans
        exact ⟨a, he⟩
      · cases hans
    · intro h e he
      cases e with
      | called c call op =>
        obtain ⟨a, ha⟩ := h c call op he
        exact List.any_eq_true.2 ⟨_, ha, by simp⟩
      | _ => rfl

/-! ## Where a reply comes from -/

/-- A reply was in the outbox before the step, or it is the error of a fault or of a lost connection,
or the step is the execution of its command, of which a fault can only refuse writes. -/
theorem outbox_of_step (h : step s l = some t) {d : ι} {cb : Callback} {reply : Reply}
    (hmem : (cb, reply) ∈ (t.conn d).outbox) :
    (cb, reply) ∈ (s.conn d).outbox ∨ (reply = .error ∧ ¬ Faultless d l) ∨
      ∃ fault request rest, l = .serve d fault ∧ ServeStep s t d request rest fault ∧
        request.callback = some cb ∧ (outcome s d request fault).reply = reply ∧
        (fault = .none ∨ fault ≠ .error ∧ ∃ queue, request.cmd = .exec queue) := by
  cases step_conn h d with
  | call op hs =>
    rw [hs.self] at hmem
    exact .inl hmem
  | serve request rest fault hs =>
    rw [hs.self] at hmem
    refine (List.mem_append.mp hmem).imp_right fun hmem => ?_
    obtain ⟨hcb, hr⟩ := mem_waiting.1 hmem
    by_cases hnone : fault = .none
    · exact .inr ⟨fault, request, rest, rfl, hs, hcb, hr.symm, .inl hnone⟩
    by_cases hexec : fault ≠ .error ∧ ∃ queue, request.cmd = .exec queue
    · exact .inr ⟨fault, request, rest, rfl, hs, hcb, hr.symm, .inr hexec⟩
    -- Any other fault is an error.
    have herror : (outcome s d request fault).reply = .error := by
      by_cases hfault : fault = .error
      · subst hfault
        exact (Command.refuse_db _ _ _).2.2
      · exact Command.serve_reply (fun queue hq => hexec ⟨hfault, queue, hq⟩) _ _ hnone
    exact .inl ⟨hr.trans herror, fun hl => hnone (hl rfl)⟩
  | deliver cb' reply' rest hs =>
    rw [hs.self] at hmem
    rw [hs.outbox]
    exact .inl (List.mem_cons_of_mem _ hmem)
  | lose kept hs =>
    rw [hs.self] at hmem
    simp only [List.append_assoc, List.mem_append, List.mem_map, Prod.mk.injEq] at hmem
    rcases hmem with hmem | ⟨q, -, -, herror⟩ | hmem
    · exact .inl (List.mem_of_mem_take hmem)
    · exact .inr (.inl ⟨herror.symm, fun hl => hl rfl⟩)
    · exact .inr (.inl ⟨(mem_abandoned.1 hmem).1, fun hl => hl rfl⟩)
  | regain hs =>
    rw [hs.self] at hmem
    exact .inl hmem
  | other l hd hs =>
    rw [hs] at hmem
    exact .inl hmem

/-- A reply that is no error has its call and the execution of its command before it in the run. -/
theorem served_of_outbox {ls : List (Label ι)} (h₀ : Fresh s) (h : run s ls = some t) {c : ι}
    {cb : Callback} {reply : Reply} (hmem : (cb, reply) ∈ (t.conn c).outbox)
    (hreply : reply ≠ .error) :
    ∃ ls₁ ls₂ ls₃ u v w x fault request rest,
      ls = ls₁ ++ .call c cb.op :: (ls₂ ++ .serve c fault :: ls₃) ∧
      run s ls₁ = some u ∧ u.calls c = cb.call ∧ step u (.call c cb.op) = some v ∧
      run v ls₂ = some w ∧ step w (.serve c fault) = some x ∧ run x ls₃ = some t ∧
      ServeStep w x c request rest fault ∧ request.callback = some cb ∧
      (outcome w c request fault).reply = reply ∧
      (fault = .none ∨ fault ≠ .error ∧ ∃ queue, request.cmd = .exec queue) := by
  have hcalled : .called c cb.call cb.op ∈ t.log :=
    (called_run h₀ h).pending c cb (Conn.mem_callbacks.2 (.inl ⟨reply, hmem⟩))
  obtain ⟨ls₁, l, ls', u, v, rfl, hu, hnu, huv, hv, hvt⟩ := Transition.exists_step_of_run
    (P := fun u : Sys ι => .called c cb.call cb.op ∈ u.log) (by simp [h₀.log]) hcalled h
  -- The call is recorded by its own step.
  obtain ⟨rfl, hcall⟩ := (called_of_step huv hv).resolve_left hnu
  -- Before the call no callback had its number.
  have hnv : ¬ (cb, reply) ∈ (v.conn c).outbox := fun hbad => by
    rw [(call_step huv).self] at hbad
    have hu' := called_run h₀ hu
    have hlt := hu'.fresh c _ _
      (hu'.pending c cb (Conn.mem_callbacks.2 (.inl ⟨reply, hbad⟩)))
    exact absurd hlt (hcall ▸ lt_irrefl _)
  -- The reply gets into the outbox at a later step, which is the execution of its command.
  obtain ⟨ls₂, l', ls₃, w, x, rfl, hw, hnw, hwx, hx, hxt⟩ := Transition.exists_step_of_run
    (P := fun u : Sys ι => (cb, reply) ∈ (u.conn c).outbox) hnv hmem hvt
  obtain ⟨fault, request, rest, rfl, hs, hcb, hr, hfault⟩ :=
    ((outbox_of_step hwx hx).resolve_left hnw).resolve_left fun he => hreply he.1
  exact ⟨ls₁, ls₂, ls₃, u, v, w, x, fault, request, rest, rfl, hu, hcall.symm, huv, hw, hwx, hxt, hs,
    hcb, hr, hfault⟩

/-- Where only the execution of the command matters: the state in which the server executed it, with
the callback still waiting. -/
theorem executed_of_outbox {ls : List (Label ι)} (h₀ : Fresh s) (h : run s ls = some t) {c : ι}
    {cb : Callback} {reply : Reply} (hmem : (cb, reply) ∈ (t.conn c).outbox)
    (hreply : reply ≠ .error) :
    ∃ ls₁ ls₂ w fault request, ls = ls₁ ++ .serve c fault :: ls₂ ∧ run s ls₁ = some w ∧
      run w (.serve c fault :: ls₂) = some t ∧ cb ∈ (w.conn c).callbacks ∧
      Issued (w.conn c).state request ∧ request.callback = some cb ∧
      (outcome w c request fault).reply = reply ∧
      (fault = .none ∨ fault ≠ .error ∧ ∃ queue, request.cmd = .exec queue) := by
  obtain ⟨ls₁, ls₂, ls₃, u, v, w, x, fault, request, rest, rfl, hu, -, huv, hw, hwx, hxt, hs, hcb, hr,
    hfault⟩ := served_of_outbox h₀ h hmem hreply
  have hrun : run s (ls₁ ++ .call c cb.op :: ls₂) = some w :=
    Transition.run_append_eq_some.2 ⟨u, hu, Transition.run_cons_eq_some.2 ⟨v, huv, hw⟩⟩
  have hin : request ∈ (w.conn c).inbox := by
    rw [hs.inbox]
    exact List.mem_cons_self
  exact ⟨_, ls₃, w, fault, request, by simp, hrun, Transition.run_cons_eq_some.2 ⟨x, hwx, hxt⟩,
    Conn.mem_callbacks.2 (.inr ⟨request, hin, hcb⟩), (queued_run h₀ hrun c).inbox request hin, hcb, hr,
    hfault⟩

end Sys

/-! ## One write at a time -/

/-- A write of the connection has been called, and its callback not yet. -/
def Conn.writing (conn : Conn) : Bool := conn.callbacks.any fun cb => cb.op.writes

/-- The SDK's update queue: a connection's next init or upsert is called after the callback of the
one before. -/
def OneWriteAtATime {ι : Type} (s : Sys ι) : Label ι → Prop
  | .call c op => op.writes = true → (s.conn c).writing = false
  | _ => True

instance {ι : Type} (s : Sys ι) : ∀ l, Decidable (OneWriteAtATime s l)
  | .call c op => inferInstanceAs (Decidable (op.writes = true → (s.conn c).writing = false))
  | .serve _ _ => .isTrue trivial
  | .deliver _ => .isTrue trivial
  | .lose _ _ => .isTrue trivial
  | .regain _ => .isTrue trivial
  | .foreign _ => .isTrue trivial

end RedisStore
