import RedisStore.Answers
import RedisStore.Watch

/-!
# Retries

An upsert starts again when its `EXEC` is aborted, and there is no bound in the code on the number of
its attempts. But an abort needs a flag that is set, and clears it, and only a write by others to a
watched key sets it. So the aborts of one upsert are no more than such writes since the connection's
last `EXEC`, whatever watches earlier calls have left: the flag is the potential that pays for them. And
of all the code of a call only the start and the callback of an aborted `EXEC` enter
`updateItemWithVersioning`, so that the attempts are one more at most (`retries_le_foreignWrites`).
-/

namespace RedisStore

open Redis

/-- The command is a `WATCH`. -/
def Redis.Command.isWatch : Command → Bool
  | .watch _ => true
  | _ => false

/-- The code enters `updateItemWithVersioning`, which issues a `WATCH` first, and which alone does. -/
def Js.attempts (code : Code Unit) : Bool := code.issued.any fun r => r.cmd.isWatch

/-- Whether code attempts an upsert, by what it issues. -/
theorem Js.Does.attempts_eq {code : Code Unit} {issued : List Request}
    {answered : List (CallId × Answer)} {thrown : List Exn} (h : code.Does issued answered thrown) :
    code.attempts = issued.any fun r => r.cmd.isWatch := by
  rw [Js.attempts, h.issued]

/-- The call of an upsert does. -/
theorem attempts_upsertInternal (state : StoreState) (kind : Kind) (item : Item) (call : CallId) :
    (upsertInternal state kind item call).attempts = true := by
  cases hdown : state.down with
  | false => exact (upsertInternal_does_of_up hdown kind item call).attempts_eq
  | true => exact (upsertInternal_does_of_down hdown kind item call).attempts_eq

/-- A callback does only where an upsert's transaction was aborted. -/
theorem aborted_of_attempts {cb : Callback} (hcb : Awaited cb) {state : StoreState} {reply : Reply}
    (h : (cb.resume state reply).attempts = true) :
    ∃ kind item call, cb = .upsertExec kind item call ∧ reply = .nil := by
  have hno : (cb.resume state reply).attempts = false → ∃ kind item call,
      cb = .upsertExec kind item call ∧ reply = .nil := fun hfalse => by
    rw [h] at hfalse
    cases hfalse
  cases hcb with
  | getRead kind key call =>
    refine hno ?_
    have hdoes := onHget_getInternal_does state kind key call reply
    split at hdoes <;> exact hdoes.attempts_eq
  | upsertRead kind item call =>
    refine hno ?_
    have hdoes := onHget_update_does state kind item.key item call reply
    split at hdoes <;> exact hdoes.attempts_eq
  | upsertWrite kind item call =>
    by_cases hnil : reply = .nil
    · exact ⟨kind, item, call, rfl, hnil⟩
    · exact hno (onUpsertExec_does hnil state kind item call).attempts_eq
  | getAll kind call =>
    refine hno ?_
    have hdoes := onHgetall_does kind call reply
    split at hdoes <;> exact hdoes.attempts_eq
  | init allData call => exact hno (onInitExec_does call reply).attempts_eq
  | inited call => exact hno (onInitedExists_does call reply).attempts_eq
  | metadata call =>
    refine hno ?_
    cases reply <;> rfl
  | includes userHash call =>
    refine hno ?_
    unfold Callback.resume onIncludedRefs
    split_ifs <;> rfl
  | excludes userHash refs call =>
    refine hno ?_
    unfold Callback.resume onExcludedRefs
    split_ifs <;> rfl

namespace Sys

variable {ι : Type}

/-- The step is a write by others to a key that connection `c` watches. -/
def foreignWrite [DecidableEq ι] (c : ι) (s : Sys ι) (l : Label ι) : Bool :=
  l.conn? ≠ some c && (modified s l).any (· ∈ (s.conn c).session.watched)

/-- The step aborts the transaction of an upsert's call on connection `c`. -/
def abort [DecidableEq ι] (c : ι) (call : CallId) (s : Sys ι) (l : Label ι) : Bool :=
  match l, (s.conn c).inbox with
  | .serve d fault, ⟨.exec _, some (.upsertExec _ _ call')⟩ :: _ =>
    d = c && fault ≠ .error && call' = call && (s.conn c).session.dirty
  | _, _ => false

/-- The code that a step runs for a call: that of the operation, or of a callback of the call. -/
def codeOf [DecidableEq ι] (s : Sys ι) (c : ι) (call : CallId) : Label ι → Option (Code Unit)
  | .call d op =>
    if d = c ∧ s.calls c = call then some (op.start (s.conn c).state call) else none
  | .deliver d =>
    match (s.conn c).outbox with
    | (cb, reply) :: _ =>
      if d = c ∧ cb.call = call then some (cb.resume (s.conn c).state reply) else none
    | [] => none
  | _ => none

/-- The step is an attempt of the call: its code enters `updateItemWithVersioning`. -/
def attempt [DecidableEq ι] (c : ι) (call : CallId) (s : Sys ι) (l : Label ι) : Bool :=
  (codeOf s c call l).any Js.attempts

/-- The reply is that of an aborted transaction of the call. -/
def abortedReply (call : CallId) : Callback × Reply → Bool
  | (.upsertExec _ _ call', .nil) => call' = call
  | _ => false

variable [DecidableEq ι] {s t : Sys ι} {l : Label ι} {c : ι} {call : CallId}

theorem foreignWrite_eq_true : foreignWrite c s l = true ↔
    l.conn? ≠ some c ∧ ∃ k ∈ modified s l, k ∈ (s.conn c).session.watched := by
  simp [foreignWrite]

theorem abort_eq_true : abort c call s l = true ↔ ∃ fault, l = .serve c fault ∧ fault ≠ .error ∧
    (∃ queue kind item rest,
      (s.conn c).inbox = ⟨.exec queue, some (.upsertExec kind item call)⟩ :: rest) ∧
    (s.conn c).session.dirty = true := by
  unfold abort
  constructor
  · intro h
    split at h
    · next d fault queue kind item call' rest hin =>
      simp only [Bool.and_eq_true, decide_eq_true_eq] at h
      obtain ⟨⟨⟨rfl, hfault⟩, rfl⟩, hdirty⟩ := h
      exact ⟨fault, rfl, hfault, ⟨queue, kind, item, rest, hin⟩, hdirty⟩
    · cases h
  · rintro ⟨fault, rfl, hfault, ⟨queue, kind, item, rest, hin⟩, hdirty⟩
    simp [hin, hdirty, hfault]

omit [DecidableEq ι] in
/-- A transaction is answered nil only with the flag set. -/
theorem dirty_of_nil {queue : List Write} {callback : Option Callback} {fault : Fault}
    (h : (outcome s c ⟨.exec queue, callback⟩ fault).reply = .nil) :
    fault ≠ .error ∧ (s.conn c).session.dirty = true := by
  have hfault : fault ≠ .error := by
    rintro rfl
    cases h
  refine ⟨hfault, ?_⟩
  by_contra hclean
  rw [outcome, Command.serve_exec_of_clean queue s.db (Bool.not_eq_true _ ▸ hclean) hfault] at h
  cases h

/-! ## The flag pays for the aborts -/

omit [DecidableEq ι] in
/-- A command of the connection does not set the flag of its session. -/
theorem dirty_of_outcome {request : Request} {fault : Fault}
    (h : (outcome s c request fault).session.dirty = true) : (s.conn c).session.dirty = true := by
  obtain ⟨cmd, callback⟩ := request
  cases cmd with
  | exec queue =>
    obtain ⟨-, -, -, -, hclear⟩ := Command.serve_exec queue s.db (s.conn c).session fault
    rw [outcome, hclear] at h
    cases h
  | _ => cases fault <;> exact h

/-- So a flag that is set was set before, or the step is a foreign write. -/
theorem dirty_of_step (h : step s l = some t) (hdirty : (t.conn c).session.dirty = true) :
    foreignWrite c s l = true ∨ (s.conn c).session.dirty = true := by
  cases step_conn h c with
  | call op hstep =>
    rw [hstep.self] at hdirty
    exact .inr hdirty
  | serve request rest fault hstep =>
    rw [hstep.self] at hdirty
    exact .inr (dirty_of_outcome hdirty)
  | deliver cb reply rest hstep =>
    rw [hstep.self] at hdirty
    exact .inr hdirty
  | lose kept hstep =>
    rw [hstep.self] at hdirty
    cases hdirty
  | regain hstep =>
    rw [hstep.self] at hdirty
    exact .inr hdirty
  | other l hc hstep =>
    rw [hstep] at hdirty
    refine ((Session.touch_dirty _ _).1 hdirty).symm.imp_left fun hkey => ?_
    exact foreignWrite_eq_true.2 ⟨hc, hkey⟩

/-- An abort takes the flag, and only a foreign write sets it. -/
theorem dirty_step (h : step s l = some t) :
    (abort c call s l).toNat + (t.conn c).session.dirty.toNat ≤
      (foreignWrite c s l).toNat + (s.conn c).session.dirty.toNat := by
  cases habort : abort c call s l with
  | true =>
    obtain ⟨fault, rfl, hfault, ⟨queue, kind, item, rest, hin⟩, hdirty⟩ := abort_eq_true.1 habort
    obtain ⟨request, rest', hstep⟩ := serve_step h
    obtain ⟨rfl, -⟩ := List.cons.inj (hin.symm.trans hstep.inbox)
    have hout : outcome s c ⟨.exec queue, some (.upsertExec kind item call)⟩ fault = _ :=
      Command.serve_exec_of_dirty queue s.db hdirty hfault
    have hclear : (t.conn c).session.dirty = false := by
      rw [hstep.self, hout]
      rfl
    rw [hclear, hdirty]
    exact Nat.le_add_left _ _
  | false =>
    rw [Bool.toNat_false, Nat.zero_add]
    cases hdirty : (t.conn c).session.dirty with
    | false => exact Nat.zero_le _
    | true =>
      rcases dirty_of_step h hdirty with hset | hset
      · rw [hset]
        exact Nat.le_add_right _ _
      · rw [hset]
        exact Nat.le_add_left _ _

/-! ## The aborts pay for the retries -/

/-- The number of replies of aborted transactions of the call that wait. -/
def abortsWaiting (s : Sys ι) (c : ι) (call : CallId) : ℕ :=
  (s.conn c).outbox.countP (abortedReply call)

omit [DecidableEq ι] in
theorem abortedReply_eq_true {p : Callback × Reply} :
    abortedReply call p = true ↔ ∃ kind item, p = (.upsertExec kind item call, .nil) := by
  unfold abortedReply
  constructor
  · intro h
    split at h
    · next kind item call' =>
      obtain rfl : call' = call := of_decide_eq_true h
      exact ⟨kind, item, rfl⟩
    · cases h
  · rintro ⟨kind, item, rfl⟩
    exact decide_eq_true rfl

/-- Only an abort puts such a reply in the outbox. -/
theorem abortsWaiting_serve (call : CallId) {request : Request} {rest : List Request} {fault : Fault}
    (hq : (s.conn c).Queued) (hs : ServeStep s t c request rest fault) :
    (waiting request (outcome s c request fault).reply).countP (abortedReply call) ≤
      (abort c call s (.serve c fault)).toNat := by
  cases habort : abort c call s (.serve c fault) with
  | true =>
    calc (waiting request (outcome s c request fault).reply).countP (abortedReply call)
        ≤ (waiting request (outcome s c request fault).reply).length := List.countP_le_length
      _ ≤ 1 := by unfold waiting; split <;> simp
  | false =>
    refine (List.countP_eq_zero.2 fun p hp haborted => ?_).le
    obtain ⟨kind, item, rfl⟩ := abortedReply_eq_true.1 haborted
    obtain ⟨hcb, hreply⟩ := mem_waiting.1 hp
    have hissued := hq.inbox request (by rw [hs.inbox]; exact List.mem_cons_self)
    obtain rfl := hissued.eq_writeRequest hcb
    -- The reply is nil, so that the transaction is aborted.
    obtain ⟨hfault, hdirty⟩ := dirty_of_nil hreply.symm
    rw [abort_eq_true.2 ⟨fault, rfl, hfault, ⟨_, kind, item, rest, hs.inbox⟩, hdirty⟩] at habort
    cases habort

omit [DecidableEq ι] in
/-- A callback that attempts the upsert again has such a reply. -/
theorem abortedReply_of_attempts {cb : Callback} (hcb : Awaited cb) (hcall : cb.call = call)
    {state : StoreState} {reply : Reply} (h : (cb.resume state reply).attempts = true) :
    abortedReply call (cb, reply) = true := by
  obtain ⟨kind, item, call', rfl, rfl⟩ := aborted_of_attempts hcb h
  obtain rfl : call' = call := hcall
  exact abortedReply_eq_true.2 ⟨kind, item, rfl⟩

/-- After the call, an attempt takes such a reply, and only an abort gives one. -/
theorem abortsWaiting_step (hq : ∀ c, (s.conn c).Queued) (hcall : call < s.calls c)
    (h : step s l = some t) :
    (attempt c call s l).toNat + abortsWaiting t c call ≤
      (abort c call s l).toNat + abortsWaiting s c call := by
  unfold abortsWaiting
  cases step_conn h c with
  | call op hs =>
    have hno : attempt c call s (.call c op) = false := by
      simp [attempt, codeOf, (Nat.ne_of_gt hcall)]
    rw [hno, hs.self]
    exact Nat.add_le_add_right (Nat.zero_le _) _
  | serve request rest fault hs =>
    have hle := abortsWaiting_serve call (hq c) hs
    have hno : attempt c call s (.serve c fault) = false := rfl
    rw [hno, hs.self]
    dsimp only
    rw [List.countP_append, Bool.toNat_false]
    omega
  | deliver cb reply rest hs =>
    have hcb : Awaited cb := (hq c).outbox (cb, reply) (by rw [hs.outbox]; exact List.mem_cons_self)
    have hattempt : attempt c call s (.deliver c) = true → abortedReply call (cb, reply) = true := by
      intro hatt
      rw [attempt, codeOf, hs.outbox] at hatt
      dsimp only at hatt
      split_ifs at hatt with hof
      · exact abortedReply_of_attempts hcb hof.2 hatt
      · cases hatt
    have hle : (attempt c call s (.deliver c)).toNat ≤ (abortedReply call (cb, reply)).toNat :=
      Bool.toNat_le_toNat hattempt
    rw [hs.outbox, List.countP_cons, hs.self]
    dsimp only
    cases hreply : abortedReply call (cb, reply) with
    | true =>
      rw [hreply, Bool.toNat_true] at hle
      simp only [if_true]
      omega
    | false =>
      rw [hreply, Bool.toNat_false] at hle
      simp only [Bool.false_eq_true, if_false]
      omega
  | lose kept hs =>
    have herror : ∀ p : Callback × Reply, p.2 = .error → ¬ abortedReply call p = true := by
      intro p hp haborted
      obtain ⟨kind, item, rfl⟩ := abortedReply_eq_true.1 haborted
      cases hp
    have h1 : ((s.conn c).outbox.drop kept |>.map fun r => (r.1, Reply.error)).countP
        (abortedReply call) = 0 := by
      rw [List.countP_eq_zero]
      intro p hp
      obtain ⟨r, -, rfl⟩ := List.mem_map.1 hp
      exact herror _ rfl
    have h2 : (abandoned (s.conn c).inbox).countP (abortedReply call) = 0 :=
      List.countP_eq_zero.2 fun p hp => herror p (mem_abandoned.1 hp).1
    have h3 := (List.take_sublist kept (s.conn c).outbox).countP_le (p := abortedReply call)
    have hno : attempt c call s (.lose c kept) = false := rfl
    rw [hno, hs.self]
    dsimp only
    rw [List.countP_append, List.countP_append, h1, h2, Bool.toNat_false]
    omega
  | regain hs =>
    have hno : attempt c call s (.regain c) = false := rfl
    rw [hno, hs.self]
    exact Nat.add_le_add_right (Nat.zero_le _) _
  | other l hc hs =>
    have hno : attempt c call s l = false := by
      cases l with
      | call d op =>
        have hd : d ≠ c := fun hdc => hc (congrArg some hdc)
        simp [attempt, codeOf, hd]
      | deliver d =>
        have hd : d ≠ c := fun hdc => hc (congrArg some hdc)
        unfold attempt codeOf
        dsimp only
        split <;> simp [hd]
      | _ => rfl
    rw [hno, hs]
    exact Nat.add_le_add_right (Nat.zero_le _) _

/-! ## The bound -/

variable {r u v : Sys ι} {ls₀ ls₁ ls₂ ls : List (Label ι)} {kind : Kind} {item : Item}

/-- In every run, the aborts are no more than the foreign writes and the flag at the start. -/
theorem aborts_le (c : ι) (call : CallId) (h : run s ls = some t) :
    Transition.countAlong step (abort c call) s ls ≤
      Transition.countAlong step (foreignWrite c) s ls + (s.conn c).session.dirty.toNat := by
  have hle : Transition.countAlong step (abort c call) s ls + (t.conn c).session.dirty.toNat ≤
      Transition.countAlong step (foreignWrite c) s ls + (s.conn c).session.dirty.toNat :=
    Transition.countAlong_add_le (I := fun _ => True)
      (Φ := fun u : Sys ι => (u.conn c).session.dirty.toNat) (fun _ _ _ _ _ => trivial)
      (fun _ _ _ _ hstep => dirty_step hstep) trivial h
  omega

/-- The number of attempts of a call in a run. -/
def attempts (s : Sys ι) (c : ι) (call : CallId) (ls : List (Label ι)) : ℕ :=
  Transition.countAlong step (attempt c call) s ls

/-- After the call, the attempts are no more than the aborts and those whose replies wait. -/
theorem attempts_le (c : ι) (call : CallId) (hq : ∀ c, (s.conn c).Queued) (hcall : call < s.calls c)
    (h : run s ls = some t) :
    attempts s c call ls ≤
      Transition.countAlong step (abort c call) s ls + abortsWaiting s c call := by
  have hle : attempts s c call ls + abortsWaiting t c call ≤
      Transition.countAlong step (abort c call) s ls + abortsWaiting s c call :=
    Transition.countAlong_add_le (I := fun u : Sys ι => (∀ c, (u.conn c).Queued) ∧ call < u.calls c)
      (Φ := fun u : Sys ι => abortsWaiting u c call)
      (fun _ _ _ hs hstep => ⟨queued_step hs.1 hstep, hs.2.trans_le (calls_le_of_step hstep c)⟩)
      (fun _ _ _ hs hstep => abortsWaiting_step hs.1 hs.2 hstep) ⟨hq, hcall⟩ h
  omega

/-- In every run with a call of an upsert, counted from a state `r` where the connection's last `EXEC`
is just over, or from the start: its aborts are no more than the writes by others to keys that the
connection watched, and its attempts, from the call on, one more at most; without such a write there is
the first attempt alone. -/
theorem retries_le_foreignWrites (h₀ : Fresh s) (hr : run s ls₀ = some r)
    (hwindow : window c r.log = []) (hu : run r ls₁ = some u)
    (hcall : step u (.call c (.upsertInternal kind item)) = some v) (h : run v ls₂ = some t) :
    Transition.countAlong step (abort c (u.calls c)) v ls₂ ≤
        Transition.countAlong step (foreignWrite c) r
          (ls₁ ++ .call c (.upsertInternal kind item) :: ls₂) ∧
      attempts u c (u.calls c) (.call c (.upsertInternal kind item) :: ls₂) ≤
        Transition.countAlong step (foreignWrite c) r
          (ls₁ ++ .call c (.upsertInternal kind item) :: ls₂) + 1 ∧
      (Transition.countAlong step (foreignWrite c) r
          (ls₁ ++ .call c (.upsertInternal kind item) :: ls₂) = 0 →
        attempts u c (u.calls c) (.call c (.upsertInternal kind item) :: ls₂) = 1) := by
  have hrunu : run s (ls₀ ++ ls₁) = some u := Transition.run_append_eq_some.2 ⟨r, hr, hu⟩
  have hrunv : run s (ls₀ ++ ls₁ ++ [.call c (.upsertInternal kind item)]) = some v :=
    Transition.run_concat_eq_some.2 ⟨u, hrunu, hcall⟩
  -- The flag is clear in `r`.
  have hclean : (r.conn c).session.dirty = false := by
    rw [dirty_eq_false_iff h₀ hr, WatchesHold, hwindow]
    exact List.Pairwise.nil
  have hrunt : run r (ls₁ ++ .call c (.upsertInternal kind item) :: ls₂) = some t :=
    Transition.run_append_eq_some.2 ⟨u, hu, Transition.run_cons_eq_some.2 ⟨v, hcall, h⟩⟩
  have hall := aborts_le c (u.calls c) hrunt
  rw [hclean, Bool.toNat_false, Nat.add_zero, Transition.countAlong_append hu,
    Transition.countAlong_cons hcall] at hall
  -- No reply to the new call waits yet.
  have hnone : abortsWaiting v c (u.calls c) = 0 := by
    unfold abortsWaiting
    rw [List.countP_eq_zero, (call_step hcall).self]
    intro p hp haborted
    obtain ⟨kind', item', rfl⟩ := abortedReply_eq_true.1 haborted
    have hcalled := called_run h₀ hrunu
    have hlt := hcalled.fresh c _ _ (hcalled.pending c _ (Conn.mem_callbacks.2 (.inl ⟨_, hp⟩)))
    exact lt_irrefl _ hlt
  have hmade : u.calls c < v.calls c := by
    rw [(call_step hcall).calls, Function.update_self]
    exact Nat.lt_succ_self _
  have hretries := attempts_le c (u.calls c) (queued_run h₀ hrunv) hmade h
  -- The call itself is the first attempt.
  have hfirst : attempt c (u.calls c) u (.call c (.upsertInternal kind item)) = true := by
    simp [attempt, codeOf, Op.start, attempts_upsertInternal]
  have hattempts : attempts u c (u.calls c) (.call c (.upsertInternal kind item) :: ls₂) =
      1 + attempts v c (u.calls c) ls₂ := by
    rw [attempts, Transition.countAlong_cons hcall, hfirst]
    rfl
  refine ⟨?_, ?_, fun hzero => ?_⟩ <;> omega

/-- An upsert from its first command on: another program writes its key once, between its read and its
`EXEC`. -/
def retriedUpsert : List (Label Unit) :=
  [.serve () .none, .serve () .none, .foreign [(itemsKey connectedState .features, none)],
    .deliver (), .serve () .none, .deliver (), .serve () .none, .serve () .none, .deliver (),
    .serve () .none, .deliver ()]

/-- One foreign write, one abort, two attempts. -/
theorem retries_le_foreignWrites_one :
    ∃ v t : Sys Unit, step (opened (fun _ => none) fun _ => connectedState)
        (.call () (.upsertInternal .features (.ofVersion "f" 1))) = some v ∧
      run v retriedUpsert = some t ∧
      Transition.countAlong step (abort () 0) v retriedUpsert = 1 ∧
      attempts (opened (fun _ => none) fun _ => connectedState) () 0
        (.call () (.upsertInternal .features (.ofVersion "f" 1)) :: retriedUpsert) = 2 ∧
      2 ≤ Transition.countAlong step (foreignWrite ()) (opened (fun _ => none) fun _ => connectedState)
        (.call () (.upsertInternal .features (.ofVersion "f" 1)) :: retriedUpsert) + 1 ∧
      (t.conn ()).outbox = [] := by
  have hrun : ∃ v t : Sys Unit, step (opened (fun _ => none) fun _ => connectedState)
        (.call () (.upsertInternal .features (.ofVersion "f" 1))) = some v ∧
      run v retriedUpsert = some t ∧
      Transition.countAlong step (abort () 0) v retriedUpsert = 1 ∧
      attempts (opened (fun _ => none) fun _ => connectedState) () 0
        (.call () (.upsertInternal .features (.ofVersion "f" 1)) :: retriedUpsert) = 2 ∧
      (t.conn ()).outbox = [] :=
    ⟨_, _, rfl, rfl, rfl, rfl, rfl⟩
  obtain ⟨v, t, hcall, hrest, haborts, hattempts, hend⟩ := hrun
  have hidle : run (opened (fun _ => none) fun _ : Unit => connectedState) [] = some _ := rfl
  have hle := (retries_le_foreignWrites (opened_fresh _ _) hidle rfl hidle hcall hrest).2.1
  refine ⟨v, t, hcall, hrest, haborts, hattempts, ?_, hend⟩
  rw [← hattempts]
  exact hle

end Sys

end RedisStore
