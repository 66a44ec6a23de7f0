import RedisStore.Conservation
import RedisStore.Commit

/-!
# At most one commit

An upsert sends its transaction again after an abort, and the client answers a transaction that it gave
up with an error, whether or not the server executed it. Even so no write is applied twice: in every
run each call has one executed transaction at most, and, unless its connection was lost meanwhile, none
after its callback was called (`committed_once`). The account of a call holds its executed transactions
and its callbacks that may still lead to one (`Conn.mayCommit`); an executed transaction moves the one to
the other, and a reply that ends a transaction leaves the second.
-/

namespace RedisStore

open Redis

/-- The reply ends the transactions of its call: there is none to come. -/
def endsCommits : Callback × Reply → Bool
  | (.upsertExec _ _ _, .nil) => false
  | (.upsertExec _ _ _, _) => true
  | (.initExec _ _, _) => true
  | _ => false

/-- A callback passes no other on a reply that ends the transactions. -/
theorem passed_of_endsCommits {cb : Callback} {reply : Reply} (h : endsCommits (cb, reply) = true)
    (state : StoreState) : (cb.resume state reply).passed = [] := by
  unfold Js.passed
  cases cb with
  | upsertExec kind item call =>
    have hne : reply ≠ .nil := by
      rintro rfl
      cases h
    rw [Callback.resume, (onUpsertExec_does hne state kind item call).issued]
    rfl
  | initExec allData call =>
    rw [Callback.resume, (onInitExec_does call reply).issued]
    rfl
  | _ => cases h

/-- The callbacks of a call that may still lead to a commit: those with a request, and those whose reply
does not end the transactions. -/
def Conn.mayCommit (conn : Conn) (call : CallId) : ℕ :=
  (conn.outbox.countP fun p => p.1.call = call && !endsCommits p) +
    (conn.inbox.filterMap Request.callback).countP fun cb => cb.call = call

/-- They are among the callbacks that wait. -/
theorem Conn.mayCommit_le (conn : Conn) (call : CallId) : conn.mayCommit call ≤ conn.awaiting call := by
  have houtbox : (conn.outbox.countP fun p => p.1.call = call && !endsCommits p) ≤
      (conn.outbox.map Prod.fst).countP fun cb => cb.call = call := by
    rw [List.countP_map]
    refine List.countP_mono_left fun p _ hp => ?_
    exact (Bool.and_eq_true_iff.1 hp).1
  unfold mayCommit awaiting callbacks
  rw [List.countP_append]
  omega

variable {ι : Type} [DecidableEq ι]

/-- The event executes a transaction of the call. -/
def Event.commits (c : ι) (call : CallId) : Event ι → Bool
  | .executed d ⟨.exec _, some cb⟩ (.replies _) _ => d = c && cb.call = call
  | _ => false

/-- Code executes no transaction. -/
theorem commits_eventsOf (c d : ι) (call : CallId) (code : Code Unit) :
    (eventsOf d code).countP (Event.commits c call) = 0 := by
  rw [List.countP_eq_zero]
  intro e he
  rcases List.mem_append.mp he with he | he
  · obtain ⟨a, -, rfl⟩ := List.mem_map.1 he
    exact Bool.false_ne_true
  · obtain ⟨x, -, rfl⟩ := List.mem_map.1 he
    exact Bool.false_ne_true

namespace Sys

variable {s t : Sys ι} {l : Label ι} {c : ι}

/-- The executed transactions of a call, and the callbacks that may lead to one. -/
def commitAccount (s : Sys ι) (c : ι) (call : CallId) : ℕ :=
  s.log.countP (Event.commits c call) + (s.conn c).mayCommit call

/-- The event of a command executes a transaction of the call only if its reply is that of one, and its
callback belongs to the call. -/
theorem commits_executed {request : Request} {reply : Reply} {touched : List Key} {call : CallId}
    (h : Event.commits c call (.executed c request reply touched) = true) :
    ∃ queue cb rs, request = ⟨.exec queue, some cb⟩ ∧ reply = .replies rs ∧ cb.call = call := by
  unfold Event.commits at h
  split at h
  · next e d queue cb rs touched' he =>
    injection he with hd hrequest hreply htouched
    subst hrequest hreply
    exact ⟨queue, cb, rs, rfl, rfl, (of_decide_eq_true (Bool.and_eq_true_iff.1 h).2)⟩
  · cases h

/-- An executed transaction leaves its callback with a reply that ends the transactions. -/
theorem endsCommits_of_commits {request : Request} {rest : List Request} {fault : Fault}
    (hq : (s.conn c).Queued) (hs : ServeStep s t c request rest fault) {call : CallId}
    (h : Event.commits c call (.executed c request (outcome s c request fault).reply
      (outcome s c request fault).touched) = true) :
    ∃ cb, request.callback = some cb ∧ cb.call = call ∧
      endsCommits (cb, (outcome s c request fault).reply) = true := by
  obtain ⟨queue, cb, rs, rfl, hreply, hcall⟩ := commits_executed h
  refine ⟨cb, rfl, hcall, ?_⟩
  rw [hreply]
  have hissued := hq.inbox ⟨.exec queue, some cb⟩ (by rw [hs.inbox]; exact List.mem_cons_self)
  generalize hr : (⟨.exec queue, some cb⟩ : Request) = r at hissued
  cases hissued with
  | upsertWrite kind item call' =>
    obtain rfl : cb = .upsertExec kind item call' := Option.some.inj (congrArg Request.callback hr)
    rfl
  | init allData call' multi hb =>
    obtain rfl : cb = .initExec allData call' := Option.some.inj (congrArg Request.callback hr)
    rfl
  | _ => cases congrArg Request.cmd hr

/-- An executed command adds nothing to the account of any call. -/
theorem commitAccount_serve {request : Request} {rest : List Request} {fault : Fault}
    (hq : (s.conn c).Queued) (hs : ServeStep s t c request rest fault) (call : CallId) :
    commitAccount t c call ≤ commitAccount s c call := by
  unfold commitAccount Conn.mayCommit
  rw [hs.log, hs.self, hs.inbox]
  unfold waiting
  cases hcommits : Event.commits c call (.executed c request (outcome s c request fault).reply
      (outcome s c request fault).touched) with
  | true =>
    -- The callback is counted no more, as its reply ends the transactions.
    obtain ⟨cb, hcb, hcall, hends⟩ := endsCommits_of_commits hq hs hcommits
    rw [hcb, List.filterMap_cons_some hcb]
    simp only [List.countP_append, List.countP_cons, List.countP_nil, hcommits, hcall, hends,
      decide_true, if_true, Bool.not_true, Bool.and_false, Bool.false_eq_true, if_false]
    omega
  | false =>
    cases hcb : request.callback with
    | none =>
      rw [List.filterMap_cons_none hcb]
      simp [hcommits]
    | some cb =>
      have hle : (if (decide (cb.call = call) &&
          !endsCommits (cb, (outcome s c request fault).reply)) = true then 1 else 0) ≤
            if decide (cb.call = call) = true then 1 else 0 := by
        cases decide (cb.call = call) <;> cases endsCommits _ <;> decide
      rw [List.filterMap_cons_some hcb]
      simp only [List.countP_append, List.countP_cons, List.countP_nil, hcommits, Bool.false_eq_true,
        if_false] at hle ⊢
      omega

/-- A callback that runs passes another only where it was counted. -/
theorem commitAccount_deliver {cb : Callback} {reply : Reply} {rest : List (Callback × Reply)}
    (hq : (s.conn c).Queued) (hs : DeliverStep s t c cb reply rest) (call : CallId) :
    commitAccount t c call ≤ commitAccount s c call := by
  have hcb : Awaited cb := hq.outbox (cb, reply) (by rw [hs.outbox]; exact List.mem_cons_self)
  have hpassed : ((cb.resume (s.conn c).state reply).passed.countP fun cb => cb.call = call) ≤
      if (decide (cb.call = call) && !endsCommits (cb, reply)) = true then 1 else 0 := by
    cases hends : endsCommits (cb, reply) with
    | true =>
      rw [passed_of_endsCommits hends, List.countP_nil]
      exact Nat.zero_le _
    | false =>
      have hworks : WorksFor (cb.resume (s.conn c).state reply) cb.call cb.op :=
        resume_worksFor hcb reply
      have hle := hworks.count_le (resume_once hcb _ reply) call
      simp only [Bool.not_false, Bool.and_true, decide_eq_true_eq]
      omega
  unfold Js.passed at hpassed
  unfold commitAccount Conn.mayCommit
  rw [hs.log, hs.self, hs.outbox, List.countP_append, commits_eventsOf, List.countP_cons]
  simp only [List.filterMap_append, List.countP_append]
  omega

omit [DecidableEq ι] in
/-- An error in the place of a reply ends the transactions if the reply does. -/
theorem endsCommits_error {cb : Callback} {reply : Reply} (h : endsCommits (cb, reply) = true) :
    endsCommits (cb, .error) = true := by
  cases cb with
  | upsertExec kind item call => rfl
  | initExec allData call => rfl
  | _ => cases h

/-- A lost connection adds nothing to the account of any call. -/
theorem commitAccount_lose {kept : ℕ} (hs : LoseStep s t c kept) (call : CallId) :
    commitAccount t c call ≤ commitAccount s c call := by
  have hunread : ((((s.conn c).outbox.drop kept).map fun r => (r.1, Reply.error)).countP
      fun p => p.1.call = call && !endsCommits p) ≤
      ((s.conn c).outbox.drop kept).countP fun p => p.1.call = call && !endsCommits p := by
    rw [List.countP_map]
    refine List.countP_mono_left fun p _ hp => ?_
    obtain ⟨hcall, hends⟩ := Bool.and_eq_true_iff.1 hp
    refine Bool.and_eq_true_iff.2 ⟨hcall, ?_⟩
    cases hbefore : endsCommits p with
    | false => rfl
    | true =>
      dsimp only at hends
      rw [endsCommits_error hbefore] at hends
      cases hends
  have hrequests : ((abandoned (s.conn c).inbox).countP fun p => p.1.call = call && !endsCommits p) ≤
      ((s.conn c).inbox.filterMap Request.callback).countP fun cb => cb.call = call := by
    have hsame : (s.conn c).inbox.filterMap Request.callback =
        (abandoned (s.conn c).inbox).map Prod.fst := by
      simp [abandoned, List.map_filterMap, Function.comp_def]
    rw [hsame, List.countP_map]
    refine List.countP_mono_left fun p _ hp => ?_
    exact (Bool.and_eq_true_iff.1 hp).1
  have hsplit : (((s.conn c).outbox.take kept).countP fun p => p.1.call = call && !endsCommits p) +
      (((s.conn c).outbox.drop kept).countP fun p => p.1.call = call && !endsCommits p) =
      (s.conn c).outbox.countP fun p => p.1.call = call && !endsCommits p := by
    rw [← List.countP_append, List.take_append_drop]
  unfold commitAccount Conn.mayCommit
  rw [hs.log, hs.self]
  simp only [List.countP_append, List.countP_singleton, Event.commits, Bool.false_eq_true, if_false,
    List.filterMap_nil, List.countP_nil]
  omega

/-- The account of a call whose number is still to come is empty. -/
def CommitsCalled (s : Sys ι) : Prop :=
  ∀ c call, s.calls c ≤ call → commitAccount s c call = 0

/-- The account of a call holds one at most. -/
def CommittedOnce (s : Sys ι) : Prop :=
  ∀ c call, commitAccount s c call ≤ 1

/-- Only the call itself adds to its account. -/
theorem commitAccount_step (hq : ∀ c, (s.conn c).Queued) (h : step s l = some t) {call : CallId}
    (hl : ∀ op, l = .call c op → call ≠ s.calls c) :
    commitAccount t c call ≤ commitAccount s c call := by
  cases step_conn h c with
  | call op hs =>
    have hne := hl op rfl
    have hpassed : ((op.start (s.conn c).state (s.calls c)).passed.countP
        fun cb => cb.call = call) = 0 := by
      rw [List.countP_eq_zero]
      intro cb hcb hcall
      have hmine := ((start_worksFor _ _ op).passed hcb).1
      exact hne ((of_decide_eq_true hcall).symm.trans hmine)
    unfold Js.passed at hpassed
    unfold commitAccount Conn.mayCommit
    rw [hs.log, hs.self, List.countP_append, ← List.singleton_append, List.countP_append,
      commits_eventsOf]
    simp only [List.filterMap_append, List.countP_append, hpassed, List.countP_singleton,
      Event.commits, Bool.false_eq_true, if_false]
    exact le_rfl
  | serve request rest fault hs => exact commitAccount_serve (hq c) hs call
  | deliver cb reply rest hs => exact commitAccount_deliver (hq c) hs call
  | lose kept hs => exact commitAccount_lose hs call
  | regain hs =>
    unfold commitAccount Conn.mayCommit
    rw [hs.log, hs.self, List.countP_append, List.countP_singleton]
    exact le_rfl
  | other l hc hs =>
    obtain ⟨es, hes, hconn⟩ := step_log_conn h
    have hnone : es.countP (Event.commits c call) = 0 := by
      rw [List.countP_eq_zero]
      intro e he hcommits
      unfold Event.commits at hcommits
      split at hcommits
      · obtain rfl := of_decide_eq_true (Bool.and_eq_true_iff.1 hcommits).1
        exact hc (hconn _ he).symm
      · cases hcommits
    unfold commitAccount Conn.mayCommit
    rw [hes, hs, List.countP_append, hnone]
    exact le_rfl

/-- A step keeps the accounts of the calls to come empty. -/
theorem commitsCalled_step (hq : ∀ c, (s.conn c).Queued) (hs : CommitsCalled s)
    (h : step s l = some t) : CommitsCalled t := by
  intro c call hcall
  have hgrows : s.calls c ≤ t.calls c ∧ ∀ op, l = .call c op → s.calls c < t.calls c := by
    by_cases hl : ∃ op, l = .call c op
    · obtain ⟨op, rfl⟩ := hl
      have hone : s.calls c < t.calls c := by
        rw [(call_step h).calls, Function.update_self]
        exact Nat.lt_succ_self _
      exact ⟨hone.le, fun _ _ => hone⟩
    · have hsame : t.calls c = s.calls c := by
        cases step_conn h c with
        | call op _ => exact absurd ⟨op, rfl⟩ hl
        | serve _ _ _ hs => rw [hs.calls]
        | deliver _ _ _ hs => rw [hs.calls]
        | lose _ hs => rw [hs.calls]
        | regain hs => rw [hs.calls]
        | other l hc _ => exact step_calls h hc
      exact ⟨hsame.ge, fun op hop => absurd ⟨op, hop⟩ hl⟩
  have hle : commitAccount t c call ≤ commitAccount s c call := commitAccount_step hq h fun op hop =>
    (lt_of_lt_of_le (hgrows.2 op hop) hcall).ne'
  rw [hs c call (hgrows.1.trans hcall)] at hle
  exact Nat.le_zero.1 hle

/-- A step keeps the account of each call at one at most. -/
theorem committedOnce_step (hq : ∀ c, (s.conn c).Queued) (hcalled : CommitsCalled s)
    (hs : CommittedOnce s) (h : step s l = some t) (hawaiting : ∀ c call, (t.conn c).awaiting call ≤ 1) :
    CommittedOnce t := by
  intro c call
  by_cases hl : ∃ op, l = .call c op ∧ call = s.calls c
  · obtain ⟨op, rfl, rfl⟩ := hl
    -- Nothing was counted before the call, and the step executes no transaction.
    have hnone := hcalled c (s.calls c) le_rfl
    unfold commitAccount at hnone ⊢
    have hlog : t.log.countP (Event.commits c (s.calls c)) = 0 := by
      rw [(call_step h).log, List.countP_append, ← List.singleton_append, List.countP_append,
        commits_eventsOf, List.countP_singleton]
      simp only [Event.commits, Bool.false_eq_true, if_false]
      omega
    have hle := (t.conn c).mayCommit_le (s.calls c)
    have hone := hawaiting c (s.calls c)
    omega
  · have hle : commitAccount t c call ≤ commitAccount s c call :=
      commitAccount_step hq h fun op hop heq => hl ⟨op, hop, heq⟩
    exact hle.trans (hs c call)

/-- In every run. -/
theorem commits_run {ls : List (Label ι)} (h₀ : Fresh s) (h : run s ls = some t) :
    CommittedOnce t := by
  have hstart : ∀ c call, commitAccount s c call = 0 := by
    intro c call
    unfold commitAccount Conn.mayCommit
    rw [h₀.log, h₀.inbox c, h₀.outbox c]
    rfl
  have hkept := Transition.run_invariant'
    (P := fun u : Sys ι => (((∀ c, (u.conn c).Queued) ∧ Called u) ∧ Once u) ∧ CommitsCalled u ∧
      CommittedOnce u)
    (fun u _ v hu hstep => by
      obtain ⟨⟨⟨hq, hcalled⟩, honce⟩, hcommits, hone⟩ := hu
      have honce' := once_step hq hcalled honce hstep
      exact ⟨⟨⟨queued_step hq hstep, called_step hq hcalled hstep⟩, honce'⟩,
        commitsCalled_step hq hcommits hstep, committedOnce_step hq hcommits hone hstep
          fun c call => (Nat.le_add_right _ _).trans (honce' c call)⟩)
    ⟨⟨⟨h₀.queued, h₀.called⟩, h₀.once⟩, fun c call _ => hstart c call,
      fun c call => (hstart c call).le.trans (Nat.zero_le 1)⟩ h
  exact hkept.2.2

/-- After the answer to a call no step executes a transaction of it. -/
theorem commits_of_step (hq : ∀ c, (s.conn c).Queued) (hcalled : Called s) (honce : Once s)
    (h : step s l = some t) {call : CallId} {a : Answer} (ha : .answered c call a ∈ s.log) :
    t.log.countP (Event.commits c call) = s.log.countP (Event.commits c call) := by
  -- The call has its answer, so that no callback of it waits.
  have hawaiting : (s.conn c).awaiting call = 0 := by
    have hle := honce c call
    have hpos : 0 < answersTo c call s.log :=
      List.countP_pos_iff.2 ⟨_, ha, by simp [Event.answers]⟩
    omega
  have hold : call < s.calls c := by
    obtain ⟨op, hop⟩ := hcalled.answered c call a ha
    exact hcalled.fresh c call op hop
  have hle : commitAccount t c call ≤ commitAccount s c call :=
    commitAccount_step hq h fun _ _ => hold.ne
  have hmay := (s.conn c).mayCommit_le call
  obtain ⟨es, hes⟩ := step_log h
  unfold commitAccount at hle
  rw [hes, List.countP_append] at hle ⊢
  omega

/-- The connection is lost while the call is in progress. -/
def LostDuring (s : Sys ι) (ls : List (Label ι)) (c : ι) (call : CallId) : Prop :=
  ∃ ls₁ kept ls₂ u, ls = ls₁ ++ .lose c kept :: ls₂ ∧ run s ls₁ = some u ∧ InProgress u c call

/-- In every run of any number of connections, whatever the aborts, the faults, the lost connections,
and the calls that overlap: each call has one executed transaction at most; and where the callback of a
call was called on a reply of the server, as its connection was not lost meanwhile, none is executed after
that. A server may still execute what it received before a connection was lost, so nothing is said about
the other calls, though `Sys.step` drops what is not executed at the loss. -/
theorem committed_once {ls : List (Label ι)} (h₀ : Fresh s) (h : run s ls = some t) (c : ι)
    (call : CallId) :
    t.log.countP (Event.commits c call) ≤ 1 ∧
      ∀ ls₁ ls₂ u a, ls = ls₁ ++ ls₂ → run s ls₁ = some u → .answered c call a ∈ u.log →
        ¬ LostDuring s ls₁ c call →
        t.log.countP (Event.commits c call) = u.log.countP (Event.commits c call) := by
  constructor
  · exact (Nat.le_add_right _ _).trans (commits_run h₀ h c call)
  · rintro ls₁ ls₂ u a rfl hu ha -
    obtain ⟨u', hu', hrest⟩ := Transition.run_append_eq_some.1 h
    obtain rfl : u = u' := Option.some.inj (hu.symm.trans hu')
    have hkept := Transition.run_invariant'
      (P := fun v : Sys ι => (((∀ c, (v.conn c).Queued) ∧ Called v) ∧ Once v) ∧
        .answered c call a ∈ v.log ∧
        v.log.countP (Event.commits c call) = u.log.countP (Event.commits c call))
      (fun v _ w hv hstep => by
        obtain ⟨⟨⟨hq, hcalled⟩, honce⟩, hans, hcount⟩ := hv
        exact ⟨⟨⟨queued_step hq hstep, called_step hq hcalled hstep⟩, once_step hq hcalled honce hstep⟩,
          mem_log_of_step hstep hans, (commits_of_step hq hcalled honce hstep hans).trans hcount⟩)
      ⟨⟨⟨queued_run h₀ hu, called_run h₀ hu⟩, answered_once h₀ hu⟩, ha, rfl⟩ hrest
    exact hkept.2.2

/-- An upsert whose first transaction is aborted, and whose second one is executed just before the
connection is lost: its callback is called with an error. -/
def lostAfterCommit : List (Label Unit) :=
  [.call () (.upsertInternal .features (.ofVersion "f" 1)), .serve () .none, .serve () .none,
    .foreign [(itemsKey connectedState .features, none)], .deliver (), .serve () .none, .deliver (),
    .serve () .none, .serve () .none, .deliver (), .serve () .none, .lose () 0, .deliver ()]

/-- It has one executed transaction at most. -/
theorem committed_once_lost :
    ∃ t : Sys Unit, run (opened (fun _ => none) fun _ => connectedState) lostAfterCommit = some t ∧
      t.log.countP (Event.commits () 0) ≤ 1 := by
  have hsome : (run (opened (fun _ => none) fun _ => connectedState) lostAfterCommit).isSome := rfl
  obtain ⟨t, ht⟩ := Option.isSome_iff_exists.1 hsome
  exact ⟨t, ht, (committed_once (opened_fresh _ _) ht () 0).1⟩

end Sys

end RedisStore
