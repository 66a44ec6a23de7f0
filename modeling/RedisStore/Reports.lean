import RedisStore.Answers
import RedisStore.Version

/-!
# What an upsert reports

An upsert calls its callback with an error, or with the new item, or with the item that it read. The
new item says that the write took effect, and the other one that it was stored with a version that is
not lower. A write may fail in two places: `EXEC` may be answered with an error, which is passed on,
and the command in an executed transaction may be refused, when the key holds no hash, or when the user
has lost the permission for it; this is an error among the `replies`, at which the callback of `exec`
does not look. So an upsert tells the truth exactly if, when its transaction is executed, the key is
missing or holds a hash and the command is permitted (`upsert_truthful_iff`). Every outcome of a
transaction but an abort reaches the callback, or an error in its place (`replied_run`), so that the
callback speaks for all the writes of its call.
-/

namespace RedisStore

open Redis

/-- The item that the upsert's callback is called with is the new one, and not the one that was read. -/
def Callback.passesNewItem : Callback → Bool
  | .upsertExec _ _ _ => true
  | _ => false

/-- The item's version is not lower, as JavaScript compares them. -/
def NotOlder (oldItem : Json) (item : Item) : Prop :=
  Json.geNumber (oldItem.prop "version") (.ofInt item.version) = .ok true

/-- An upsert's callback is called by the callback of `exec`, unless the transaction was aborted, or by
that of a read whose version check rejects the upsert; there is an error exactly if the reply is one. -/
theorem upserted_answered {cb : Callback} (hcb : Awaited cb) {state : StoreState} {reply : Reply}
    {call : CallId} {err : Bool} {j : Json}
    (h : (call, .upserted err j) ∈ (cb.resume state reply).answered) :
    ∃ kind item, cb.op = .upsertInternal kind item ∧ cb.call = call ∧ err = decide (reply = .error) ∧
      (cb = .upsertExec kind item call ∧ reply ≠ .nil ∧ j = item.json ∨
        cb = .hget kind item.key (.update kind item [] call) ∧ replyVerdict reply item = .reject j) := by
  have hmay := resume_mayAnswer hcb state reply _ h
  obtain rfl : call = cb.call := (resume_worksFor hcb reply).answered _ h
  cases hcb with
  | upsertWrite kind item call =>
    by_cases hnil : reply = .nil
    · -- After an abort the upsert starts again.
      subst hnil
      have hagain : (call, .upserted err j) ∈ (upsertInternal state kind item call).answered := h
      exact (not_answered_upsertInternal hagain).elim
    · rw [Callback.resume, (onUpsertExec_does hnil state kind item call).answered] at h
      obtain ⟨-, rfl, rfl⟩ : _ ∧ err = decide (reply = .error) ∧ j = item.json := by simpa using h
      exact ⟨kind, item, rfl, rfl, rfl, .inl ⟨rfl, hnil, rfl⟩⟩
  | upsertRead kind item call =>
    have hdoes := onHget_update_does state kind item.key item call reply
    rw [Callback.resume] at h
    split at hdoes
    · exact (hdoes.not_answer h).elim
    · next oldItem hverdict =>
      rw [hdoes.answered] at h
      obtain ⟨-, rfl, rfl⟩ : _ ∧ err = false ∧ j = oldItem := by simpa using h
      have hreply : reply ≠ .error := by
        rintro rfl
        cases hverdict
      exact ⟨kind, item, rfl, rfl, (decide_eq_false hreply).symm, .inr ⟨rfl, hverdict⟩⟩
    · exact (hdoes.not_answer h).elim
  | _ => cases hmay

/-! ## Every outcome reaches the callback -/

namespace Sys

variable {ι : Type} {s t : Sys ι}

/-- An outcome of an upsert's transaction other than an abort waits for the callback, or an error in its
place, or the call has been answered. -/
def Replied (s : Sys ι) : Prop :=
  ∀ c request reply touched kind item call, .executed c request reply touched ∈ s.log →
    request.callback = some (.upsertExec kind item call) → reply ≠ .nil →
    (∃ reply', (.upsertExec kind item call, reply') ∈ (s.conn c).outbox ∧
        (reply' = reply ∨ reply' = .error)) ∨
      ∃ a, .answered c call a ∈ s.log

variable [DecidableEq ι] {l : Label ι}

/-- An outcome that waits goes on waiting, or turns into an error, or is answered. -/
theorem outcome_of_step (h : step s l = some t) {c : ι} {kind : Kind} {item : Item} {call : CallId}
    {reply : Reply} (hreply : reply ≠ .nil)
    (hmem : (.upsertExec kind item call, reply) ∈ (s.conn c).outbox) :
    (∃ reply', (.upsertExec kind item call, reply') ∈ (t.conn c).outbox ∧
        (reply' = reply ∨ reply' = .error)) ∨
      ∃ a, .answered c call a ∈ t.log := by
  cases step_conn h c with
  | call op hs =>
    refine .inl ⟨reply, ?_, .inl rfl⟩
    rw [hs.self]
    exact hmem
  | serve request rest fault hs =>
    refine .inl ⟨reply, ?_, .inl rfl⟩
    rw [hs.self]
    exact List.mem_append_left _ hmem
  | deliver cb reply' rest hs =>
    rw [hs.outbox] at hmem
    rcases List.mem_cons.mp hmem with heq | hmem
    · -- The callback runs now, and answers the call.
      obtain ⟨rfl, rfl⟩ := Prod.mk.inj heq
      refine .inr ⟨.upserted (decide (reply = .error)) item.json, ?_⟩
      rw [hs.log, List.mem_append]
      refine .inr (answered_mem_eventsOf.2 ⟨rfl, ?_⟩)
      rw [Callback.resume, (onUpsertExec_does hreply _ kind item call).answered]
      exact List.mem_cons_self
    · refine .inl ⟨reply, ?_, .inl rfl⟩
      rw [hs.self]
      exact hmem
  | lose kept hs =>
    left
    rw [hs.self]
    rw [← List.take_append_drop kept (s.conn c).outbox] at hmem
    rcases List.mem_append.mp hmem with hmem | hmem
    · exact ⟨reply, by simp [hmem], .inl rfl⟩
    · refine ⟨.error, List.mem_append_left _ (List.mem_append_right _ ?_), .inr rfl⟩
      exact List.mem_map.2 ⟨_, hmem, rfl⟩
  | regain hs =>
    refine .inl ⟨reply, ?_, .inl rfl⟩
    rw [hs.self]
    exact hmem
  | other l hc hs =>
    refine .inl ⟨reply, ?_, .inl rfl⟩
    rw [hs]
    exact hmem

/-- A step that records the execution of a command puts its reply in the outbox. -/
theorem executed_of_step (h : step s l = some t) {c : ι} {request : Request} {reply : Reply}
    {touched : List Key} (hmem : .executed c request reply touched ∈ t.log) :
    .executed c request reply touched ∈ s.log ∨
      ∀ cb, request.callback = some cb → (cb, reply) ∈ (t.conn c).outbox := by
  have hcode : ∀ (d : ι) (code : Code Unit), .executed c request reply touched ∉ eventsOf d code := by
    intro d code
    simp [eventsOf]
  cases l with
  | call d op =>
    rw [(call_step h).log] at hmem
    exact .inl (by simpa [hcode] using hmem)
  | serve d fault =>
    obtain ⟨request', rest, hs⟩ := serve_step h
    rw [hs.log, List.mem_append, List.mem_singleton] at hmem
    refine hmem.imp_right fun heq cb hcb => ?_
    cases heq
    rw [hs.self]
    exact List.mem_append_right _ (mem_waiting.2 ⟨hcb, rfl⟩)
  | deliver d =>
    obtain ⟨_, _, _, hs⟩ := deliver_step h
    rw [hs.log] at hmem
    exact .inl (by simpa [hcode] using hmem)
  | lose d kept => exact .inl (by simpa [(lose_step h).log] using hmem)
  | regain d => exact .inl (by simpa [(regain_step h).log] using hmem)
  | foreign values => exact .inl (by simpa [(foreign_step h).log] using hmem)

theorem replied_step (hs : Replied s) (h : step s l = some t) : Replied t := by
  intro c request reply touched kind item call hmem hcb hreply
  rcases executed_of_step h hmem with hmem | hnew
  · rcases hs c request reply touched kind item call hmem hcb hreply with
      ⟨reply', hout, hsame⟩ | ⟨a, ha⟩
    · have hne : reply' ≠ .nil := by
        rcases hsame with rfl | rfl
        · exact hreply
        · exact Reply.noConfusion
      refine (outcome_of_step h hne hout).imp_left ?_
      rintro ⟨reply'', hout', hsame'⟩
      refine ⟨reply'', hout', ?_⟩
      rcases hsame' with rfl | rfl
      · exact hsame
      · exact .inr rfl
    · exact .inr ⟨a, mem_log_of_step h ha⟩
  · exact .inl ⟨reply, hnew _ hcb, .inl rfl⟩

/-- In every run, every outcome of an upsert's transaction but an abort reaches the callback, or an
error in its place. -/
theorem replied_run {ls : List (Label ι)} (h₀ : Fresh s) (h : run s ls = some t) : Replied t :=
  Transition.run_invariant' (P := Replied) (fun _ _ _ hs hstep => replied_step hs hstep)
    (fun c request reply touched kind item call hmem => by simp [h₀.log] at hmem) h

/-! ## The executed transaction -/

/-- The next command of the connection is the transaction of an upsert, and no watch is broken. -/
def Commits (s : Sys ι) (c : ι) (kind : Kind) (item : Item) (call : CallId) : Prop :=
  (∃ rest, (s.conn c).inbox = writeRequest (s.conn c).state kind item call :: rest) ∧
    (s.conn c).session.dirty = false

/-- The server then executes its write, unless it refuses it. -/
theorem Commits.step {c : ι} {fault : Fault} {kind : Kind} {item : Item} {call : CallId}
    (hc : Commits s c kind item call) (hfault : fault ≠ .error)
    (h : step s (.serve c fault) = some t) :
    let r := runAllowed fault.refused [.hset (itemsKey (s.conn c).state kind) item.key item.text] s.db
    t.db = r.db ∧ t.log = s.log ++
      [.executed c (writeRequest (s.conn c).state kind item call) (.replies r.replies) r.touched] := by
  obtain ⟨⟨rest, hin⟩, hclean⟩ := hc
  obtain ⟨request, rest', hs⟩ := serve_step h
  obtain ⟨rfl, -⟩ := List.cons.inj (hin.symm.trans hs.inbox)
  have hout : outcome s c (writeRequest (s.conn c).state kind item call) fault = _ :=
    Command.serve_exec_of_clean _ s.db hclean hfault
  exact ⟨by rw [hs.db, hout], by rw [hs.log, hout]⟩

/-- A reply to an upsert's transaction, other than an error and an abort, is from the execution of its
write. -/
theorem commits_of_outbox {ls : List (Label ι)} (h₀ : Fresh s) (h : run s ls = some t) {c : ι}
    {kind : Kind} {item : Item} {call : CallId} {reply : Reply}
    (hmem : (.upsertExec kind item call, reply) ∈ (t.conn c).outbox) (hreply : reply ≠ .error)
    (hnil : reply ≠ .nil) :
    ∃ ls₁ ls₂ w x fault, ls = ls₁ ++ .serve c fault :: ls₂ ∧ fault ≠ .error ∧
      run s ls₁ = some w ∧ step w (.serve c fault) = some x ∧ run x ls₂ = some t ∧
      InProgress w c call ∧ Commits w c kind item call ∧ reply = .replies (runAllowed fault.refused
        [.hset (itemsKey (w.conn c).state kind) item.key item.text] w.db).replies := by
  obtain ⟨ls₁, ls₂, ls₃, u, v, w, x, fault, request, rest, rfl, hu, -, huv, hw, hwx, hxt, hs, hcb, hr,
    -⟩ := served_of_outbox h₀ h hmem hreply
  have hrun : run s (ls₁ ++ .call c (.upsertInternal kind item) :: ls₂) = some w :=
    Transition.run_append_eq_some.2 ⟨u, hu, Transition.run_cons_eq_some.2 ⟨v, huv, hw⟩⟩
  have hin : request ∈ (w.conn c).inbox := by
    rw [hs.inbox]
    exact List.mem_cons_self
  have hprogress : InProgress w c call :=
    inProgress_of_callback h₀ hrun (Conn.mem_callbacks.2 (.inr ⟨request, hin, hcb⟩))
  have hissued := (queued_run h₀ hrun c).inbox request hin
  obtain rfl := hissued.eq_writeRequest hcb
  have hfault : fault ≠ .error := by
    rintro rfl
    exact hreply hr.symm
  cases hdirty : (w.conn c).session.dirty with
  | true =>
    have hout : outcome w c (writeRequest (w.conn c).state kind item call) fault = _ :=
      Command.serve_exec_of_dirty _ w.db hdirty hfault
    rw [hout] at hr
    exact absurd hr.symm hnil
  | false =>
    have hout : outcome w c (writeRequest (w.conn c).state kind item call) fault = _ :=
      Command.serve_exec_of_clean _ w.db hdirty hfault
    rw [hout] at hr
    exact ⟨_, ls₃, w, x, fault, by simp [Callback.op], hfault, hrun, hwx, hxt, hprogress,
      ⟨⟨rest, hs.inbox⟩, hdirty⟩, hr.symm⟩

/-! ## The truth of a report -/

/-- Redis refused the write of an upsert's transaction: it answered `EXEC` with an error, or the command
in it. -/
def Refused (s : Sys ι) (c : ι) (kind : Kind) (item : Item) (call : CallId) : Prop :=
  ∃ request reply touched, .executed c request reply touched ∈ s.log ∧
    request.callback = some (.upsertExec kind item call) ∧
    (reply = .error ∨ reply = .replies [.error])

/-- What the call of an upsert's callback by `cb` says of the run before it. -/
structure Truthful (s t : Sys ι) (ls : List (Label ι)) (c : ι) (kind : Kind) (item : Item)
    (call : CallId) (cb : Callback) (err : Bool) (j : Json) : Prop where
  /-- With no error and the new item, its `HSET` took effect while the call was in progress. -/
  new : err = false → cb.passesNewItem = true → j = item.json ∧
    ∃ ls₁ ls₂ w x fault n, ls = ls₁ ++ .serve c fault :: ls₂ ∧ run s ls₁ = some w ∧
      step w (.serve c fault) = some x ∧ run x ls₂ = some t ∧ InProgress w c call ∧
      x.log = w.log ++ [.executed c (writeRequest (w.conn c).state kind item call)
        (.replies [.int n]) [itemsKey (w.conn c).state kind]] ∧
      fieldOf (x.db (itemsKey (w.conn c).state kind)) item.key = some item.text
  /-- With no error and another item, that item was stored while the call was in progress, and its
  version is not lower. -/
  old : err = false → cb.passesNewItem = false →
    ∃ ls₁ ls₂ w text, ls = ls₁ ++ ls₂ ∧ run s ls₁ = some w ∧ run w ls₂ = some t ∧
      InProgress w c call ∧
      fieldOf (w.db (itemsKey (w.conn c).state kind)) item.key = some text ∧
      Json.parse text = some j ∧ NotOlder j item
  /-- If Redis refused the write, there is an error. -/
  refused : Refused t c kind item call → err = true

variable {ls : List (Label ι)} {c : ι} {kind : Kind} {item : Item} {call : CallId} {cb : Callback}
  {reply : Reply} {rest : List (Callback × Reply)} {err : Bool} {j : Json}

/-- A rejected upsert tells the truth about the item that it read. -/
theorem stored_of_rejected (h₀ : Fresh s) (h : run s ls = some t)
    (hmem : (.hget kind item.key (.update kind item [] call), reply) ∈ (t.conn c).outbox)
    (hverdict : replyVerdict reply item = .reject j) :
    ∃ ls₁ ls₂ w text, ls = ls₁ ++ ls₂ ∧ run s ls₁ = some w ∧ run w ls₂ = some t ∧
      InProgress w c call ∧
      fieldOf (w.db (itemsKey (w.conn c).state kind)) item.key = some text ∧
      Json.parse text = some j ∧ NotOlder j item := by
  have hreply : reply ≠ .error := by
    rintro rfl
    cases hverdict
  obtain ⟨ls₁, ls₂, w, fault, request, hls, hw, hwt, hwaits, hissued, hcb, hr, hfault⟩ :=
    executed_of_outbox h₀ h hmem hreply
  obtain ⟨text, hfield, hparse, -, hge⟩ :
      ∃ text, fieldOf (w.db (itemsKey (w.conn c).state kind)) item.key = some text ∧
        Json.parse text = some j ∧ j.truthy = true ∧ NotOlder j item := by
    obtain rfl := hissued.eq_readRequest hcb
    obtain rfl := hfault.resolve_right fun ⟨_, queue, hqueue⟩ => by cases hqueue
    rw [← hr] at hverdict
    exact fieldOf_of_reject hverdict
  exact ⟨ls₁, _, w, text, hls, hw, hwt, inProgress_of_callback h₀ hw hwaits, hfield, hparse, hge⟩

/-- The condition of a true report: whenever the transaction of the call is executed, its write is
permitted, and the kind's key is missing or holds a hash. -/
def ExecutesOnHash (s : Sys ι) (ls : List (Label ι)) (c : ι) (kind : Kind) (item : Item)
    (call : CallId) : Prop :=
  ∀ ls₁ fault ls₂ w, ls = ls₁ ++ .serve c fault :: ls₂ → run s ls₁ = some w →
    Commits w c kind item call → fault ≠ .error →
    .hset (itemsKey (w.conn c).state kind) item.key item.text ∉ fault.refused ∧
      Hashlike (w.db (itemsKey (w.conn c).state kind))

/-- A write without permission, or on another value, is refused. -/
theorem refused_of_commits {fault : Fault} {ls₂ : List (Label ι)} (hc : Commits s c kind item call)
    (hfault : fault ≠ .error)
    (hnot : ¬ (.hset (itemsKey (s.conn c).state kind) item.key item.text ∉ fault.refused ∧
      Hashlike (s.db (itemsKey (s.conn c).state kind))))
    (h : run s (.serve c fault :: ls₂) = some t) : Refused t c kind item call := by
  obtain ⟨u, hu, hut⟩ := Transition.run_cons_eq_some.1 h
  have hreplies : (runAllowed fault.refused
      [.hset (itemsKey (s.conn c).state kind) item.key item.text] s.db).replies = [.error] := by
    rw [runAllowed_singleton]
    split_ifs with hdenied
    · rfl
    · have hone := runWrites_hset_replies (itemsKey (s.conn c).state kind) item.key item.text s.db
      rwa [if_neg fun hlike => hnot ⟨hdenied, hlike⟩] at hone
  have hlog := (hc.step hfault hu).2
  rw [hreplies] at hlog
  have hexecuted := mem_log_of_run hut (hlog ▸ List.mem_append_right _ List.mem_cons_self)
  exact ⟨_, _, _, hexecuted, rfl, .inr rfl⟩

/-- A reply to the transaction, other than an error and an abort, is then the one to a write that took
effect. -/
theorem written_of_outbox (h₀ : Fresh s) (h : run s ls = some t)
    (hmem : (.upsertExec kind item call, reply) ∈ (t.conn c).outbox) (hreply : reply ≠ .error)
    (hnil : reply ≠ .nil) (hlike : ExecutesOnHash s ls c kind item call) :
    ∃ ls₁ ls₂ w x fault n, ls = ls₁ ++ .serve c fault :: ls₂ ∧ run s ls₁ = some w ∧
      step w (.serve c fault) = some x ∧ run x ls₂ = some t ∧ InProgress w c call ∧
      reply = .replies [.int n] ∧
      x.log = w.log ++ [.executed c (writeRequest (w.conn c).state kind item call)
        (.replies [.int n]) [itemsKey (w.conn c).state kind]] ∧
      fieldOf (x.db (itemsKey (w.conn c).state kind)) item.key = some item.text := by
  obtain ⟨ls₁, ls₂, w, x, fault, hls, hfault, hw, hwx, hxt, hprogress, hc, hr⟩ :=
    commits_of_outbox h₀ h hmem hreply hnil
  obtain ⟨hallowed, hw'⟩ := hlike ls₁ fault ls₂ w hls hw hc hfault
  have hreplies := runWrites_hset_replies (itemsKey (w.conn c).state kind) item.key item.text w.db
  rw [if_pos hw'] at hreplies
  obtain ⟨⟨n, hn⟩, htouched⟩ := hreplies
  obtain ⟨hdb, hlog⟩ := hc.step hfault hwx
  rw [runAllowed_singleton, if_neg hallowed] at hr hdb hlog
  refine ⟨ls₁, ls₂, w, x, fault, n, hls, hw, hwx, hxt, hprogress, ?_, ?_, ?_⟩
  · rw [hr, hn]
  · rw [hlog, hn, htouched]
  · rw [hdb, fieldOf_runWrites_hset hw', if_pos ⟨rfl, rfl⟩]

/-- If Redis refused the write, the reply that waits is then an error. -/
theorem error_of_refused (h₀ : Fresh s) (h : run s ls = some t) (hmem : (cb, reply) ∈ (t.conn c).outbox)
    (hcall : cb.call = call) (hlike : reply ≠ .error → ExecutesOnHash s ls c kind item call)
    (hrefused : Refused t c kind item call) : reply = .error := by
  have honce : Once t := answered_once h₀ h
  obtain ⟨request, reply', touched, hexecuted, hrequest, hbad⟩ := hrefused
  have hne : reply' ≠ .nil := by
    rcases hbad with rfl | rfl <;> exact Reply.noConfusion
  rcases replied_run h₀ h c request reply' touched kind item call hexecuted hrequest hne with
    ⟨reply'', hmem', hsame⟩ | ⟨a, ha⟩
  · obtain ⟨-, rfl⟩ := honce.reply_unique hmem hmem' hcall
    by_contra hreply
    obtain rfl : reply = .replies [.error] := by
      rcases hsame with rfl | heq
      · exact hbad.resolve_left hreply
      · exact absurd heq hreply
    -- But a reply with an error is not that of a write on a hash.
    obtain ⟨_, _, _, _, _, n, -, -, -, -, -, hn, -⟩ :=
      written_of_outbox h₀ h hmem' hreply Reply.noConfusion (hlike hreply)
    cases hn
  · have hwaits : cb ∈ (t.conn c).callbacks := Conn.mem_callbacks.2 (.inl ⟨reply, hmem⟩)
    rw [← hcall] at ha
    exact absurd ha (honce.not_answered hwaits a)

/-- In every run, when the callback of an upsert is called: the report is true, with all that it says
of the call's writes and reads, exactly if, when the call's transaction was executed, its write was
permitted and the kind's key was missing or held a hash, unless its reply got lost. -/
theorem upsert_truthful_iff (h₀ : Fresh s) (h : run s ls = some t)
    (hcalled : .called c call (.upsertInternal kind item) ∈ t.log)
    (hout : (t.conn c).outbox = (cb, reply) :: rest)
    (hans : (call, .upserted err j) ∈ (cb.resume (t.conn c).state reply).answered) :
    Truthful s t ls c kind item call cb err j ↔
      (reply ≠ .error → ∀ ls₁ fault ls₂ w, ls = ls₁ ++ .serve c fault :: ls₂ →
        run s ls₁ = some w → Commits w c kind item call → fault ≠ .error →
        .hset (itemsKey (w.conn c).state kind) item.key item.text ∉ fault.refused ∧
          Hashlike (w.db (itemsKey (w.conn c).state kind))) := by
  have hmem : (cb, reply) ∈ (t.conn c).outbox := by
    rw [hout]
    exact List.mem_cons_self
  have hwaits : cb ∈ (t.conn c).callbacks := Conn.mem_callbacks.2 (.inl ⟨reply, hmem⟩)
  have hawaited : Awaited cb := (queued_run h₀ h c).outbox (cb, reply) hmem
  obtain ⟨kind', item', hop, hcall, rfl, hcb⟩ := upserted_answered hawaited hans
  -- The callback is one of the call's operation.
  obtain ⟨rfl, rfl⟩ : kind = kind' ∧ item = item' := by
    have hpending := (called_run h₀ h).pending c cb hwaits
    rw [hop, hcall] at hpending
    exact Op.upsertInternal.inj ((called_run h₀ h).unique c call _ _ hcalled hpending)
  constructor
  · intro htrue hreply ls₁ fault ls₂ w hls hw hc hfault
    by_contra hnot
    -- The write was refused, and the callback is called without an error.
    rw [hls] at h
    obtain ⟨w', hw', hrest⟩ := Transition.run_append_eq_some.1 h
    obtain rfl : w = w' := Option.some.inj (hw.symm.trans hw')
    exact hreply (of_decide_eq_true (htrue.refused (refused_of_commits hc hfault hnot hrest)))
  · intro hlike
    refine ⟨fun herr hnew => ?_, fun herr hold => ?_, fun hrefused => ?_⟩
    · have hreply : reply ≠ .error := of_decide_eq_false herr
      rcases hcb with ⟨rfl, hnil, hj⟩ | ⟨hcb, -⟩
      · obtain ⟨ls₁, ls₂, w, x, fault, n, hls, hw, hwx, hxt, hprogress, -, hlog, hfield⟩ :=
          written_of_outbox h₀ h hmem hreply hnil (hlike hreply)
        exact ⟨hj, ls₁, ls₂, w, x, fault, n, hls, hw, hwx, hxt, hprogress, hlog, hfield⟩
      · rw [hcb] at hnew
        cases hnew
    · rcases hcb with ⟨rfl, -, -⟩ | ⟨rfl, hverdict⟩
      · cases hold
      · exact stored_of_rejected h₀ h hmem hverdict
    · exact decide_eq_true (error_of_refused h₀ h hmem hcall hlike hrefused)

/-! ## A refused write -/

/-- An upsert up to the reply to its transaction. -/
def upsertOnce (item : Item) : List (Label Unit) :=
  [.call () (.upsertInternal .features item), .serve () .none, .serve () .none, .deliver (),
    .serve () .none]

/-- A database where the kind `features` holds a string. -/
def stringDb : Db :=
  Function.update (fun _ => none) (itemsKey connectedState .features) (some (.string "x"))

/-- On a key that holds a string the write is refused, and the callback is called with the new item and
no error. -/
theorem refused_write_reported :
    ∃ (s t : Sys Unit) (item : Item) (cb : Callback) (reply : Reply),
      Fresh s ∧ run s (upsertOnce item) = some t ∧
      .called () 0 (.upsertInternal .features item) ∈ t.log ∧ (t.conn ()).outbox = [(cb, reply)] ∧
      (0, .upserted false item.json) ∈ (cb.resume (t.conn ()).state reply).answered ∧
      ¬ Truthful s t (upsertOnce item) () .features item 0 cb false item.json ∧
      t.db (itemsKey (t.conn ()).state .features) = some (.string "x") := by
  refine ⟨opened stringDb fun _ => connectedState, _, .ofVersion "f" 1,
    .upsertExec .features (.ofVersion "f" 1) 0, .replies [.error], opened_fresh _ _, rfl,
    List.mem_cons_self, rfl, List.mem_cons_self, fun htrue => ?_, rfl⟩
  have herr := htrue.refused
    ⟨writeRequest connectedState .features (.ofVersion "f" 1) 0, .replies [.error], [],
      List.mem_append_right _ List.mem_cons_self, rfl, .inr rfl⟩
  cases herr

/-- On an empty database the report is true. -/
theorem upsert_truthful_iff_empty :
    ∃ t : Sys Unit, run (opened (fun _ => none) fun _ => connectedState)
        (upsertOnce (.ofVersion "f" 1)) = some t ∧
      Truthful (opened (fun _ => none) fun _ => connectedState) t (upsertOnce (.ofVersion "f" 1)) ()
        .features (.ofVersion "f" 1) 0 (.upsertExec .features (.ofVersion "f" 1) 0) false
        (Item.ofVersion "f" 1).json := by
  have hrun : run (opened (fun _ => none) fun _ => connectedState)
    (upsertOnce (.ofVersion "f" 1)) = some _ := rfl
  have hlike : Along (fun (w : Sys Unit) l => Undisturbed l ∧
      Hashlike (w.db (itemsKey (w.conn ()).state .features)))
      (opened (fun _ => none) fun _ => connectedState) (upsertOnce (.ofVersion "f" 1)) := by
    decide +kernel
  refine ⟨_, hrun, (@upsert_truthful_iff Unit _ _ _ _ () .features (.ofVersion "f" 1) 0
    (.upsertExec .features (.ofVersion "f" 1) 0) (.replies [.int 1]) [] false _ (opened_fresh _ _) hrun
    List.mem_cons_self rfl List.mem_cons_self).2 fun _ ls₁ fault ls₂ w hls hw _ _ => ?_⟩
  rw [hls] at hlike
  obtain ⟨hnone, hhash⟩ := ((Transition.along_append hw).1 hlike).2.1
  obtain rfl : fault = .none := hnone
  exact ⟨List.not_mem_nil, hhash⟩

end Sys

end RedisStore
