import RedisStore.Conservation
import RedisStore.Retries

/-!
# The work of a connection

The server's executions of a connection's commands and the runs of its callbacks are its work. Every
request and every waiting reply has a bound on the work that it still makes (`Request.work`,
`replyWork`): an upsert has its `WATCH`, its read, and its transaction before it, and an aborted
transaction the upsert once more. The flag of the session holds what one abort costs. With these each
piece of work takes from the account of its connection (`Conn.work`), and only a call or a write by
others to a watched key adds to it, so that the retries of upserts cannot go on by themselves: the work
of a connection is at most five times the number of such steps (`works_bounded`), and a connection that is
served fairly and left alone comes to rest with every call answered (`eventually_rests`).
-/

namespace RedisStore

open Redis

/-! ## What a request and a reply still make -/

/-- The work that a reply makes: its callback, and what the callback issues. -/
def replyWork : Callback × Reply → ℕ
  | (.hget _ _ (.update _ _ _ _), _) => 3
  | (.upsertExec _ _ _, .nil) => 6
  | (.smembersInclude _ _, _) => 3
  | _ => 1

/-- The work that a request makes, if it is not aborted. -/
def Request.work (r : Request) : ℕ :=
  match r.callback with
  | some cb => replyWork (cb, .ok) + 1
  | none => 1

/-- The work that the requests of a piece of code make. -/
def Js.work (code : Code Unit) : ℕ := (code.issued.map Request.work).sum

/-- The work of code whose effects are known. -/
theorem Js.Does.work_le {code : Code Unit} {issued : List Request}
    {answered : List (CallId × Answer)} {thrown : List Exn} (h : code.Does issued answered thrown)
    {n : ℕ} (hle : (issued.map Request.work).sum ≤ n) : code.work ≤ n := by
  unfold Js.work
  rw [h.issued]
  exact hle

/-- An attempt of an upsert: its `WATCH`, its read, its check, its transaction, and its callback. -/
theorem upsertInternal_work (state : StoreState) (kind : Kind) (item : Item) (call : CallId) :
    (upsertInternal state kind item call).work ≤ 5 := by
  cases h : state.down with
  | false => exact (upsertInternal_does_of_up h kind item call).work_le (Nat.le_of_ble_eq_true rfl)
  | true => exact (upsertInternal_does_of_down h kind item call).work_le (Nat.le_of_ble_eq_true rfl)

/-- No call makes more work. -/
theorem start_work (state : StoreState) (call : CallId) (op : Op) :
    (op.start state call).work ≤ 5 := by
  cases op with
  | getInternal kind key =>
    cases h : state.down with
    | false => exact (getInternal_does_of_up h kind key call).work_le (Nat.le_of_ble_eq_true rfl)
    | true => exact (getInternal_does_of_down h kind key call).work_le (Nat.zero_le _)
  | getAllInternal kind =>
    cases h : state.down with
    | false => exact (getAllInternal_does_of_up h kind call).work_le (Nat.le_of_ble_eq_true rfl)
    | true => exact (getAllInternal_does_of_down h kind call).work_le (Nat.zero_le _)
  | initInternal allData =>
    cases h : buildInit state allData with
    | ok multi => exact (initInternal_does_of_ok h call).work_le (Nat.le_of_ble_eq_true rfl)
    | error x => exact (initInternal_does_of_error h call).work_le (Nat.zero_le _)
  | upsertInternal kind item => exact upsertInternal_work state kind item call
  | initializedInternal =>
    exact (initializedInternal_does state call).work_le (Nat.le_of_ble_eq_true rfl)
  | getMetadata => exact Nat.le_of_ble_eq_true rfl
  | getUserMembership userHash => exact Nat.le_of_ble_eq_true rfl

/-- A transaction that was not aborted makes its callback. -/
theorem replyWork_of_ne_nil {reply : Reply} (h : reply ≠ .nil) {kind : Kind} {item : Item}
    {call : CallId} : replyWork (.upsertExec kind item call, reply) = 1 := by
  cases reply <;> first | rfl | exact absurd rfl h

/-- A callback takes one from the work of its reply, and issues no more than the rest. -/
theorem resume_work {cb : Callback} (hcb : Awaited cb) (state : StoreState) (reply : Reply) :
    (cb.resume state reply).work + 1 ≤ replyWork (cb, reply) := by
  cases hcb with
  | getRead kind key call =>
    have h := onHget_getInternal_does state kind key call reply
    split at h <;> exact Nat.succ_le_succ (h.work_le le_rfl)
  | upsertRead kind item call =>
    have h := onHget_update_does state kind item.key item call reply
    split at h
    · exact Nat.succ_le_succ (h.work_le le_rfl)
    · exact Nat.succ_le_succ (h.work_le (Nat.zero_le _))
    · exact Nat.succ_le_succ (h.work_le (Nat.zero_le _))
  | upsertWrite kind item call =>
    by_cases hnil : reply = .nil
    · subst hnil
      -- The upsert starts again.
      have hretry : (onUpsertExec state kind item call .nil).Does _ _ _ :=
        onUpsertExec_does_of_nil ⟨rfl, rfl, rfl⟩
      exact Nat.succ_le_succ (hretry.work_le (upsertInternal_work state kind item call))
    · have hwork := (onUpsertExec_does hnil state kind item call).work_le (Nat.zero_le 0)
      have hone : replyWork (.upsertExec kind item call, reply) = 1 := replyWork_of_ne_nil hnil
      rw [hone]
      exact Nat.succ_le_succ hwork
  | getAll kind call =>
    have h := onHgetall_does kind call reply
    split at h <;> exact Nat.succ_le_succ (h.work_le le_rfl)
  | init allData call => exact Nat.succ_le_succ ((onInitExec_does call reply).work_le le_rfl)
  | inited call => exact Nat.succ_le_succ ((onInitedExists_does call reply).work_le le_rfl)
  | metadata call => cases reply <;> exact le_rfl
  | includes userHash call =>
    unfold Callback.resume onIncludedRefs
    split_ifs
    · exact Nat.succ_le_succ (Nat.zero_le _)
    · exact le_rfl
  | excludes userHash refs call =>
    unfold Callback.resume onExcludedRefs
    split_ifs <;> exact le_rfl

/-- The work of a reply that is not nil is the least that its callback can have. -/
theorem replyWork_le {reply : Reply} (h : reply ≠ .nil) (cb : Callback) (reply' : Reply) :
    replyWork (cb, reply) ≤ replyWork (cb, reply') := by
  cases cb with
  | hget kind key cb => cases cb <;> exact le_rfl
  | upsertExec kind item call =>
    rw [replyWork_of_ne_nil h]
    cases reply' <;> exact Nat.le_of_ble_eq_true rfl
  | _ => exact le_rfl

/-- Only the nil reply to an upsert's transaction makes more work. -/
theorem replyWork_eq {cb : Callback} {reply : Reply}
    (h : (∃ kind item call, cb = .upsertExec kind item call) → reply ≠ .nil) :
    replyWork (cb, reply) = replyWork (cb, .ok) := by
  cases cb with
  | hget kind key cb => cases cb <;> rfl
  | upsertExec kind item call =>
    have hne := h ⟨kind, item, call, rfl⟩
    exact replyWork_of_ne_nil hne
  | _ => rfl

/-! ## The account of a connection -/

/-- The work that a connection has before it. -/
def Conn.work (conn : Conn) : ℕ :=
  (conn.inbox.map Request.work).sum + (conn.outbox.map replyWork).sum + 5 * conn.session.dirty.toNat

namespace Sys

variable {ι : Type} [DecidableEq ι] {s t : Sys ι} {l : Label ι} {c : ι}

/-- The step executes a command of the connection, or runs one of its callbacks. -/
def works (c : ι) (_ : Sys ι) : Label ι → Bool
  | .serve d _ => d = c
  | .deliver d => d = c
  | _ => false

/-- The step gives the connection work: a call, or a write by others to a key that it watches. -/
def stirs (c : ι) (s : Sys ι) (l : Label ι) : Bool :=
  foreignWrite c s l || match l with
    | .call d _ => d = c
    | _ => false

omit [DecidableEq ι] in
/-- An executed command takes one from the account, or more if its reply is an abort. -/
theorem work_of_serve {request : Request} {rest : List Request} {fault : Fault}
    (hq : (s.conn c).Queued) (hs : ServeStep s t c request rest fault) :
    1 + (t.conn c).work ≤ (s.conn c).work := by
  have hissued := hq.inbox request (by rw [hs.inbox]; exact List.mem_cons_self)
  -- The reply and the flag together cost what the request and the flag did before, less one.
  have hone : ((waiting request (outcome s c request fault).reply).map replyWork).sum +
      5 * (outcome s c request fault).session.dirty.toNat + 1 ≤
        request.work + 5 * (s.conn c).session.dirty.toNat := by
    have hdirty : (outcome s c request fault).session.dirty.toNat ≤
        (s.conn c).session.dirty.toNat := by
      cases h : (outcome s c request fault).session.dirty with
      | false => exact Nat.zero_le _
      | true => rw [dirty_of_outcome h]
    unfold waiting Request.work
    cases hcb : request.callback with
    | none =>
      simp only [List.map_nil, List.sum_nil]
      omega
    | some cb =>
      simp only [List.map_cons, List.map_nil, List.sum_cons, List.sum_nil]
      by_cases hsame : (∃ kind item call, cb = .upsertExec kind item call) →
          (outcome s c request fault).reply ≠ .nil
      · rw [replyWork_eq hsame]
        omega
      · -- The transaction is aborted: the flag was set, and is clear.
        push Not at hsame
        obtain ⟨⟨kind, item, call, rfl⟩, hnil⟩ := hsame
        obtain rfl := hissued.eq_writeRequest hcb
        obtain ⟨hfault, hset⟩ := dirty_of_nil hnil
        have hout : outcome s c (writeRequest (s.conn c).state kind item call) fault = _ :=
          Command.serve_exec_of_dirty _ s.db hset hfault
        rw [hout, hset]
        exact le_rfl
  unfold Conn.work
  rw [hs.self, hs.inbox]
  simp only [List.map_cons, List.sum_cons, List.map_append, List.sum_append]
  omega

omit [DecidableEq ι] in
/-- A callback takes one from the account. -/
theorem work_of_deliver {cb : Callback} {reply : Reply} {rest : List (Callback × Reply)}
    (hq : (s.conn c).Queued) (hs : DeliverStep s t c cb reply rest) :
    1 + (t.conn c).work ≤ (s.conn c).work := by
  have hcb : Awaited cb := hq.outbox (cb, reply) (by rw [hs.outbox]; exact List.mem_cons_self)
  have hone := resume_work hcb (s.conn c).state reply
  unfold Js.work at hone
  unfold Conn.work
  rw [hs.self, hs.outbox]
  simp only [List.map_cons, List.sum_cons, List.map_append, List.sum_append]
  omega

omit [DecidableEq ι] in
/-- A lost connection adds nothing to the account: an error is never an abort. -/
theorem work_of_lose {kept : ℕ} (hs : LoseStep s t c kept) : (t.conn c).work ≤ (s.conn c).work := by
  have hunread : (((s.conn c).outbox.drop kept).map fun r => replyWork (r.1, .error)).sum ≤
      (((s.conn c).outbox.drop kept).map replyWork).sum :=
    List.sum_le_sum fun p _ => replyWork_le Reply.noConfusion p.1 p.2
  have hrequests : ((abandoned (s.conn c).inbox).map replyWork).sum ≤
      ((s.conn c).inbox.map Request.work).sum := by
    unfold abandoned
    induction (s.conn c).inbox with
    | nil => exact le_rfl
    | cons r rs ih =>
      cases hcb : r.callback with
      | none =>
        rw [List.filterMap_cons_none (by rw [hcb]; rfl), List.map_cons, List.sum_cons]
        omega
      | some cb =>
        have hle : replyWork (cb, .error) ≤ replyWork (cb, .ok) :=
          replyWork_le Reply.noConfusion cb .ok
        rw [List.filterMap_cons_some (by rw [hcb]; rfl)]
        simp only [List.map_cons, List.sum_cons, Request.work, hcb]
        omega
  have hsplit : (((s.conn c).outbox.take kept).map replyWork).sum +
      (((s.conn c).outbox.drop kept).map replyWork).sum = ((s.conn c).outbox.map replyWork).sum := by
    rw [← List.sum_append, ← List.map_append, List.take_append_drop]
  have hclear : Session.clear.dirty.toNat = 0 := rfl
  unfold Conn.work
  rw [hs.self]
  simp only [List.map_nil, List.sum_nil, List.map_append, List.sum_append, List.map_map,
    Function.comp_def, hclear]
  omega

/-- Work takes from the account of the connection, and only a step that gives it work adds to it, by
five at most. -/
theorem work_step (hq : ∀ c, (s.conn c).Queued) (h : step s l = some t) :
    (works c s l).toNat + (t.conn c).work ≤ 5 * (stirs c s l).toNat + (s.conn c).work := by
  cases step_conn h c with
  | call op hs =>
    have hcost := start_work (s.conn c).state (s.calls c) op
    unfold Js.work at hcost
    have hstirs : stirs c s (.call c op) = true := by simp [stirs]
    rw [hstirs]
    unfold Conn.work
    rw [hs.self]
    simp only [List.map_append, List.sum_append, works, Bool.toNat_false, Bool.toNat_true]
    omega
  | serve request rest fault hs =>
    have hone := work_of_serve (hq c) hs
    simp only [works, decide_true, Bool.toNat_true]
    omega
  | deliver cb reply rest hs =>
    have hone := work_of_deliver (hq c) hs
    simp only [works, decide_true, Bool.toNat_true]
    omega
  | lose kept hs =>
    have hle := work_of_lose hs
    simp only [works, Bool.toNat_false]
    omega
  | regain hs =>
    have hsame : (t.conn c).work = (s.conn c).work := by
      rw [hs.self]
      rfl
    rw [hsame]
    exact Nat.add_le_add_right (Nat.zero_le _) _
  | other l hc hs =>
    have hidle : works c s l = false := by
      cases l with
      | serve d fault => exact decide_eq_false fun hd => hc (congrArg some hd)
      | deliver d => exact decide_eq_false fun hd => hc (congrArg some hd)
      | _ => rfl
    -- Only the flag may change, and what sets it is a write to a watched key.
    have hflag : (t.conn c).session.dirty.toNat ≤
        (stirs c s l).toNat + (s.conn c).session.dirty.toNat := by
      cases hdirty : (t.conn c).session.dirty with
      | false => exact Nat.zero_le _
      | true =>
        rcases dirty_of_step h hdirty with hset | hset
        · have hstirs : stirs c s l = true := by simp [stirs, hset]
          rw [hstirs]
          exact Nat.le_add_right _ _
        · rw [hset]
          exact Nat.le_add_left _ _
    rw [hidle]
    unfold Conn.work
    rw [hs] at hflag ⊢
    dsimp only at hflag ⊢
    rw [Bool.toNat_false]
    omega

omit [DecidableEq ι] in
/-- Before any call there is no work. -/
theorem Fresh.work (h : Fresh s) (c : ι) : (s.conn c).work = 0 := by
  unfold Conn.work
  rw [h.inbox c, h.outbox c, h.session c]
  rfl

/-- In every run, whatever the faults, the lost connections, and the other connections: the commands of
a connection that are executed and the callbacks that it runs are five times the calls on it and the
writes by others to keys that it watches, at most; and so much of this as is not used up is before it. -/
theorem works_bounded {ls : List (Label ι)} (h₀ : Fresh s) (h : run s ls = some t) (c : ι) :
    Transition.countAlong step (works c) s ls + (t.conn c).work ≤
      5 * Transition.countAlong step (stirs c) s ls := by
  have hle := Transition.countAlong_add_le_mul (I := fun u : Sys ι => ∀ c, (u.conn c).Queued)
    (Φ := fun u : Sys ι => (u.conn c).work) (fun _ _ _ hs hstep => queued_step hs hstep)
    (fun _ _ _ hs hstep => work_step hs hstep) h₀.queued h
  rw [h₀.work c, Nat.add_zero] at hle
  exact hle

/-- An upsert that another program's write makes start again does all the work of the bound: ten pieces
for the call and the write. -/
theorem works_bounded_retried :
    ∃ t : Sys Unit, run (opened (fun _ => none) fun _ => connectedState)
        (.call () (.upsertInternal .features (.ofVersion "f" 1)) :: retriedUpsert) = some t ∧
      Transition.countAlong step (works ()) (opened (fun _ => none) fun _ => connectedState)
        (.call () (.upsertInternal .features (.ofVersion "f" 1)) :: retriedUpsert) = 10 ∧
      Transition.countAlong step (stirs ()) (opened (fun _ => none) fun _ => connectedState)
        (.call () (.upsertInternal .features (.ofVersion "f" 1)) :: retriedUpsert) = 2 ∧
      10 + (t.conn ()).work ≤ 5 * 2 := by
  have hcounts : (Transition.countAlong step (works ()) (opened (fun _ => none) fun _ => connectedState)
        (.call () (.upsertInternal .features (.ofVersion "f" 1)) :: retriedUpsert),
      Transition.countAlong step (stirs ()) (opened (fun _ => none) fun _ => connectedState)
        (.call () (.upsertInternal .features (.ofVersion "f" 1)) :: retriedUpsert)) = (10, 2) := rfl
  obtain ⟨hworks, hstirs⟩ := Prod.mk.inj hcounts
  have hsome : (run (opened (fun _ => none) fun _ => connectedState)
      (.call () (.upsertInternal .features (.ofVersion "f" 1)) :: retriedUpsert)).isSome := rfl
  obtain ⟨t, ht⟩ := Option.isSome_iff_exists.1 hsome
  have hle := works_bounded (opened_fresh (fun _ => none) fun _ => connectedState) ht ()
  rw [hworks, hstirs] at hle
  exact ⟨t, ht, hworks, hstirs, hle⟩

/-! ## Coming to rest -/

/-- The connection can execute a command or run a callback. -/
def CanWork (c : ι) (s : Sys ι) : Prop := ∃ l t, works c s l = true ∧ step s l = some t

/-- A connection that is up and has nothing that it can do has nothing left to do. -/
theorem rests_of_not_canWork (hon : (s.conn c).online = true) (h : ¬ CanWork c s) :
    (s.conn c).inbox = [] ∧ (s.conn c).outbox = [] := by
  have hidle : ∀ l, works c s l = true → ¬ (step s l).isSome := by
    intro l hl hsome
    obtain ⟨t, ht⟩ := Option.isSome_iff_exists.1 hsome
    exact h ⟨l, t, hl, ht⟩
  constructor
  · cases hin : (s.conn c).inbox with
    | nil => rfl
    | cons request rest =>
      have hserve : (step s (.serve c .none)).isSome := by simp [step, hin, hon]
      exact absurd hserve (hidle _ (decide_eq_true rfl))
  · cases hout : (s.conn c).outbox with
    | nil => rfl
    | cons p rest =>
      have hdeliver : (step s (.deliver c)).isSome := by simp [step, hout]
      exact absurd hdeliver (hidle _ (decide_eq_true rfl))

/-- In an infinite run the connection is served fairly: it does not have work that it can do for ever
without a piece of it being done. -/
def ServedFairly (c : ι) (states : ℕ → Sys ι) (labels : ℕ → Label ι) : Prop :=
  ∀ n, (∀ m, n ≤ m → CanWork c (states m)) → ∃ m, n ≤ m ∧ works c (states m) (labels m) = true

/-- In every infinite run in which a connection is served fairly, and from some point on is up and is
given no work: it comes to rest, with no command and no reply left, and then its calls that have no
answer are as many as the exceptions that have escaped. What happened before that point, and what the
other connections do, is free. -/
theorem eventually_rests {states : ℕ → Sys ι} {labels : ℕ → Label ι} (h₀ : Fresh (states 0))
    (hrun : Transition.Follows step states labels) (hfair : ServedFairly c states labels) {n₀ : ℕ}
    (hon : ∀ n, n₀ ≤ n → ((states n).conn c).online = true)
    (hquiet : ∀ n, n₀ ≤ n → stirs c (states n) (labels n) = false) :
    ∃ n, n₀ ≤ n ∧ ((states n).conn c).inbox = [] ∧ ((states n).conn c).outbox = [] ∧
      ((Finset.Ico ((states 0).calls c) ((states n).calls c)).filter fun call =>
        answersTo c call (states n).log = 0).card = (states n).log.countP (Event.throwsOn c) := by
  have hqueued : ∀ n c, ((states n).conn c).Queued := fun n c => queued_run h₀ (hrun.run n) c
  have hstep : ∀ n, n₀ ≤ n → (works c (states n) (labels n)).toNat + ((states (n + 1)).conn c).work ≤
      ((states n).conn c).work := by
    intro n hn
    have hone := work_step (c := c) (hqueued n) (hrun n)
    rw [hquiet n hn, Bool.toNat_false, Nat.mul_zero, Nat.zero_add] at hone
    exact hone
  -- As long as there is work to do some of it is done, so that the account runs out.
  obtain ⟨n, hn, hrest⟩ := Transition.eventually_of_potential
    (P := fun u : Sys ι => (u.conn c).online = true ∧ ¬ CanWork c u)
    (Φ := fun u : Sys ι => (u.conn c).work)
    (fun n hn => (Nat.le_add_left _ _).trans (hstep n hn))
    (fun n hn hnever => by
      have hcan : ∀ m, n ≤ m → CanWork c (states m) := by
        intro m hm
        by_contra hnot
        exact hnever m hm ⟨hon m (hn.trans hm), hnot⟩
      obtain ⟨m, hm, hworks⟩ := hfair n hcan
      have hone := hstep m (hn.trans hm)
      rw [hworks, Bool.toNat_true] at hone
      exact ⟨m, hm, by omega⟩)
  obtain ⟨hin, hout⟩ := rests_of_not_canWork hrest.1 hrest.2
  refine ⟨n, hn, hin, hout, ?_⟩
  have hcount := card_unsettled h₀ (hrun.run n) c
  have hnone : ∀ call, ((states n).conn c).awaiting call = 0 := by
    intro call
    unfold Conn.awaiting Conn.callbacks
    rw [hin, hout]
    rfl
  simp only [hnone, Nat.zero_add] at hcount
  exact hcount

/-- A read, and then nothing but writes of no keys by another program. -/
def readThenQuiet : ℕ → Label Unit
  | 0 => .call () (.getInternal .features "f")
  | 1 => .serve () .none
  | 2 => .deliver ()
  | _ => .foreign []

/-- The states of this run. -/
def readStates : ℕ → Sys Unit :=
  Transition.follow step (opened (fun _ => none) fun _ => connectedState) readThenQuiet

/-- From the third step on nothing is left, and the rest is quiet. -/
theorem readStates_rest (n : ℕ) : ((readStates (n + 3)).conn ()).inbox = [] ∧
    ((readStates (n + 3)).conn ()).outbox = [] ∧ ((readStates (n + 3)).conn ()).online = true := by
  induction n with
  | zero => decide +kernel
  | succ n ih =>
    have hstep : step (readStates (n + 3)) (.foreign []) = some (readStates (n + 1 + 3)) := rfl
    rw [(foreign_step hstep).conn ()]
    exact ih

/-- The read comes to rest. -/
theorem eventually_rests_read :
    ∃ n, 1 ≤ n ∧ ((readStates n).conn ()).inbox = [] ∧ ((readStates n).conn ()).outbox = [] ∧
      ((Finset.Ico ((readStates 0).calls ()) ((readStates n).calls ())).filter fun call =>
        answersTo () call (readStates n).log = 0).card =
        (readStates n).log.countP (Event.throwsOn ()) := by
  have hrun : Transition.Follows step readStates readThenQuiet := by
    refine Transition.follows_follow fun n => ?_
    match n with
    | 0 => rfl
    | 1 => decide +kernel
    | 2 => decide +kernel
    | n + 3 => rfl
  have hfair : ServedFairly () readStates readThenQuiet := by
    intro n hcan
    by_cases hn : n ≤ 2
    · exact ⟨2, hn, rfl⟩
    · -- Later there is nothing to do.
      obtain ⟨l, t, hworks, hl⟩ := hcan n le_rfl
      obtain ⟨m, rfl⟩ : ∃ m, n = m + 3 := ⟨n - 3, by omega⟩
      obtain ⟨hin, hout, -⟩ := readStates_rest m
      cases l with
      | serve d fault =>
        obtain ⟨request, rest, hs⟩ := serve_step hl
        cases hin.symm.trans hs.inbox
      | deliver d =>
        obtain ⟨cb, reply, rest, hs⟩ := deliver_step hl
        cases hout.symm.trans hs.outbox
      | _ => cases hworks
  have hon : ∀ n, 1 ≤ n → ((readStates n).conn ()).online = true := by
    intro n hn
    match n with
    | 1 => decide +kernel
    | 2 => decide +kernel
    | n + 3 => exact (readStates_rest n).2.2
  have hquiet : ∀ n, 1 ≤ n → stirs () (readStates n) (readThenQuiet n) = false := by
    intro n hn
    match n with
    | 1 => rfl
    | 2 => rfl
    | n + 3 => rfl
  exact eventually_rests (opened_fresh _ _) hrun hfair hon hquiet

end Sys

end RedisStore
