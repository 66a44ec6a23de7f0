import RedisStore.Semantics.Linearizable
import RedisStore.Refinement
import RedisStore.AllOrNothing
import RedisStore.Answers
import RedisStore.Upsert

/-!
# The feature store is linearizable

Any number of connections to one Redis, with calls that overlap on each of them, serve one abstract
store as if the calls were made one after the other: the order is that in which the server executes, for
each call, the command on whose reply its callback answers (`Event.point`). A read has its point at its
command; an upsert at its transaction, or at its read if the stored item is not older; an init at its
transaction. In between, other connections may have changed what an upsert has read: then its
transaction is aborted, which is no point, and it reads again. That what it has read still holds when
the transaction is executed is the invariant of its phase (`Conn.InPhase`).

The runs have no errors and no lost connections, each connection has one write at a time, no init is
aborted, and no item has the key `__proto__`; what happens otherwise is the subject of other modules.
-/

namespace RedisStore

open Redis Linear

/-- The feature store, as an object with operations. -/
def Abstract.spec : Linear.Spec Abstract Op Answer := ⟨Abstract.apply, Abstract.Gives⟩

/-! ## Points -/

/-- The state of stores whose connection is up. -/
def upState : StoreState := ⟨"", true, false, false⟩

/-- The answer that a callback gives on a reply, if it gives one and the connection is up. -/
def replyAnswer (cb : Callback) (reply : Reply) : Option Answer :=
  (cb.resume upState reply).answered.head?.map Prod.snd

/-- What a callback answers does not depend on the state of a connection that is up. -/
theorem resume_answered_congr {cb : Callback} (hcb : Awaited cb) {state state' : StoreState}
    (hup : state.down = false) (hup' : state'.down = false) (reply : Reply) :
    (cb.resume state reply).answered = (cb.resume state' reply).answered := by
  cases hcb with
  | getRead kind key call =>
    have h := onHget_getInternal_does state kind key call reply
    have h' := onHget_getInternal_does state' kind key call reply
    rw [Callback.resume, Callback.resume]
    split at h <;> split at h' <;> simp_all only [Except.ok.injEq, reduceCtorEq, h.answered, h'.answered]
  | upsertRead kind item call =>
    have h := onHget_update_does state kind item.key item call reply
    have h' := onHget_update_does state' kind item.key item call reply
    rw [Callback.resume, Callback.resume]
    split at h <;> split at h' <;>
      simp_all only [Verdict.reject.injEq, reduceCtorEq, h.answered, h'.answered]
  | upsertWrite kind item call =>
    rw [Callback.resume, Callback.resume]
    by_cases hnil : reply = .nil
    · subst hnil
      rw [(onUpsertExec_does_of_nil (upsertInternal_does_of_up hup kind item call)).answered,
        (onUpsertExec_does_of_nil (upsertInternal_does_of_up hup' kind item call)).answered]
    · rw [(onUpsertExec_does hnil state kind item call).answered,
        (onUpsertExec_does hnil state' kind item call).answered]
  | getAll kind call => rfl
  | init allData call => rfl
  | inited call => rfl
  | metadata call => rfl
  | includes userHash call =>
    unfold Callback.resume onIncludedRefs
    split_ifs <;> rfl
  | excludes userHash refs call => rfl

/-- The answers of a callback, while the connection is up. -/
theorem resume_answered {cb : Callback} (hcb : Awaited cb) {state : StoreState}
    (hup : state.down = false) (reply : Reply) :
    (cb.resume state reply).answered = (replyAnswer cb reply).toList.map fun a => (cb.call, a) := by
  have hcall : ∀ p ∈ (cb.resume upState reply).answered, p.1 = cb.call :=
    (resume_worksFor hcb reply).answered
  have honce := resume_once hcb upState reply
  rw [resume_answered_congr hcb hup (show upState.down = false from rfl) reply, replyAnswer]
  unfold Js.Once at honce
  -- There is one answer at most, and it is to the callback's call.
  match hans : (cb.resume upState reply).answered, honce with
  | [], _ => rfl
  | [(call, a)], _ =>
    rw [hans] at hcall
    obtain rfl : call = cb.call := hcall (call, a) List.mem_cons_self
    rfl
  | _ :: _ :: _, honce =>
    rw [List.length_cons, List.length_cons] at honce
    omega

/-- The answer of code that is known to give one. -/
theorem replyAnswer_eq_some {cb : Callback} (hcb : Awaited cb) {state : StoreState}
    (hup : state.down = false) {reply : Reply} {issued : List Request} {call : CallId} {a : Answer}
    {thrown : List Exn} (h : (cb.resume state reply).Does issued [(call, a)] thrown) :
    replyAnswer cb reply = some a := by
  have hans := resume_answered hcb hup reply
  rw [h.answered] at hans
  cases hr : replyAnswer cb reply with
  | none => rw [hr] at hans; cases hans
  | some a' =>
    rw [hr] at hans
    obtain ⟨heq, -⟩ := List.cons.inj hans
    rw [(Prod.mk.inj heq).2]

/-- Code that is known to give none. -/
theorem replyAnswer_eq_none {cb : Callback} (hcb : Awaited cb) {state : StoreState}
    (hup : state.down = false) {reply : Reply} {issued : List Request} {thrown : List Exn}
    (h : (cb.resume state reply).Does issued [] thrown) : replyAnswer cb reply = none := by
  have hans := resume_answered hcb hup reply
  rw [h.answered] at hans
  cases hr : replyAnswer cb reply with
  | none => rfl
  | some a => rw [hr] at hans; cases hans

variable {ι : Type}

/-- The call that an event makes. -/
def Event.made : Event ι → Option ((ι × CallId) × Op)
  | .called c call op => some ((c, call), op)
  | _ => none

/-- The call that takes effect at an event, with its answer: the server executes the command on whose
reply the callback answers. -/
def Event.point : Event ι → Option ((ι × CallId) × Op × Answer)
  | .executed c request reply _ => request.callback.bind fun cb =>
    (replyAnswer cb reply).map fun a => ((c, cb.call), cb.op, a)
  | _ => none

/-- The call that an event answers. -/
def Event.answer? : Event ι → Option ((ι × CallId) × Answer)
  | .answered c call a => some ((c, call), a)
  | _ => none

/-- The calls of a history. -/
def callView (ι : Type) : View (Event ι) (ι × CallId) Op Answer :=
  ⟨Event.made, Event.point, Event.answer?⟩

/-- The point of an executed command with a callback. -/
theorem point_executed {c : ι} {request : Request} {reply : Reply} {touched : List Key}
    {cb : Callback} (hcb : request.callback = some cb) :
    Event.point (.executed c request reply touched) =
      (replyAnswer cb reply).map fun a => ((c, cb.call), cb.op, a) := by
  rw [Event.point, hcb]
  rfl

/-! ## What the calls may be -/

/-- The operation writes no item with the key `__proto__`. -/
def Op.NoProto : Op → Prop
  | .initInternal allData => NoProtoKey allData
  | .upsertInternal _ item => item.key ≠ "__proto__"
  | _ => True

/-- Such an operation leaves the store without such an item. -/
theorem apply_noProto {a : Abstract} {op : Op} (hop : op.NoProto)
    (ha : ∀ kind, a.items kind "__proto__" = none) (kind : Kind) :
    (a.apply op).items kind "__proto__" = none := by
  cases op with
  | initInternal allData =>
    simp only [Abstract.apply, Contents.apply_replace, initItems]
    cases hlookup : allData.lookup kind.namespaceName with
    | none => exact ha kind
    | some items =>
      have hnone : items.lookup "__proto__" = none := AList.lookup_eq_none.2 (hop kind items hlookup)
      simp [hnone]
  | upsertInternal kind' item =>
    rw [Abstract.apply]
    split_ifs
    · dsimp only
      rw [Contents.apply_put, if_neg fun h => hop h.2.symm]
      exact ha kind
    · exact ha kind
  | _ => exact ha kind

/-- A store without such an item has no such field. -/
theorem HoldsEncoded.noProto {state : StoreState} {db : Db} (h : HoldsEncoded state db)
    (hproto : ∀ kind, (Abstract.ofDb state db).items kind "__proto__" = none) (kind : Kind) :
    fieldOf (db (itemsKey state kind)) "__proto__" = none := by
  rcases h.item kind "__proto__" with ⟨text, j, v, -, -, -, hitem⟩ | ⟨hnone, -⟩
  · cases (hproto kind).symm.trans hitem
  · exact hnone

/-- What is stored admits an item exactly if the store does. -/
theorem HoldsEncoded.admits {state : StoreState} {db : Db} (h : HoldsEncoded state db) {kind : Kind}
    {item : Item} (hadmits : Admits (db (itemsKey state kind)) item) :
    (Abstract.ofDb state db).admits kind item = true := by
  rw [Abstract.admits]
  rcases h.item kind item.key with ⟨text, j, v, htext, hparse, hv, hitem⟩ | ⟨-, hitem⟩
  · have hstored : storedVersion (db (itemsKey state kind)) item.key = some v :=
      storedVersion_eq_some.2 ⟨text, htext, by rw [textVersion, hparse]; exact hv⟩
    have hlt := hadmits v hstored
    rw [hitem]
    simp [hv, hlt]
  · rw [hitem]

/-! ## The calls that have not taken effect -/

/-- A callback whose call has not taken effect: its command has not been executed, or it does not answer
on the reply. -/
def Conn.Open (conn : Conn) (cb : Callback) : Prop :=
  (∃ r ∈ conn.inbox, r.callback = some cb) ∨
    ∃ reply, (cb, reply) ∈ conn.outbox ∧ replyAnswer cb reply = none

namespace Sys

variable [DecidableEq ι] {s t : Sys ι} {l : Label ι} {c : ι} {state : StoreState} {a₀ : Abstract}

/-- If the step serves the transaction of an init, it is not aborted. -/
def InitsCommit (s : Sys ι) : Label ι → Prop
  | .serve c _ => (nextInit (s.conn c).inbox).isSome = true → (s.conn c).session.dirty = false
  | _ => True

instance (s : Sys ι) : ∀ l, Decidable (InitsCommit s l)
  | .serve c _ => inferInstanceAs (Decidable ((nextInit (s.conn c).inbox).isSome = true →
      (s.conn c).session.dirty = false))
  | .call _ _ => .isTrue trivial
  | .deliver _ => .isTrue trivial
  | .lose _ _ => .isTrue trivial
  | .regain _ => .isTrue trivial
  | .foreign _ => .isTrue trivial

/-- The step is one of a run in order: without an error and without a lost connection, with one write at
a time on each connection, with calls of the feature store that write no item with the key `__proto__`,
and with no init that is aborted. -/
structure InOrder (s : Sys ι) (l : Label ι) : Prop where
  undisturbed : Undisturbed l
  one : OneWriteAtATime s l
  called : ∀ c op, l = .call c op → op.OfItems ∧ op.NoProto
  inits : InitsCommit s l

/-- What holds throughout a run in order from the store `a₀`. -/
structure Following (state : StoreState) (a₀ : Abstract) (s : Sys ι) : Prop where
  orderly : Orderly s
  called : Called s
  once : Once s
  itemsPrefix : ∀ c, (s.conn c).state.itemsPrefix = state.itemsPrefix
  encoded : HoldsEncoded state s.db
  noProto : ∀ kind, (Abstract.ofDb state s.db).items kind "__proto__" = none
  plain : ∀ c call op, .called c call op ∈ s.log → op.OfItems ∧ op.NoProto
  follows : FollowsPoints Abstract.spec (callView ι) a₀ s.log (Abstract.ofDb state s.db)
  /-- A reply on which the callback answers is that of the call's point. -/
  replied : ∀ c cb reply, (cb, reply) ∈ (s.conn c).outbox → ∀ a, replyAnswer cb reply = some a →
    ((c, cb.call), cb.op, a) ∈ s.log.filterMap Event.point
  /-- A call that has not taken effect has no point. -/
  noPoint : ∀ c cb, (s.conn c).Open cb → ∀ x ∈ s.log.filterMap Event.point, x.1 ≠ (c, cb.call)

/-- The points are of calls that were made. -/
theorem Following.lt_calls (hs : Following state a₀ s) {x : (ι × CallId) × Op × Answer}
    (hx : x ∈ s.log.filterMap Event.point) : x.1.2 < s.calls x.1.1 := by
  obtain ⟨e, he, hmade⟩ := hs.follows.made x hx
  cases e with
  | called c call op =>
    obtain ⟨hk, -⟩ := Prod.mk.inj (Option.some.inj hmade)
    rw [← hk]
    exact hs.called.fresh c call op he
  | _ => cases hmade

/-- What is left to show of a step. -/
theorem Following.of_step (hs : Following state a₀ s) (hl : InOrder s l) (h : step s l = some t)
    (encoded : HoldsEncoded state t.db)
    (noProto : ∀ kind, (Abstract.ofDb state t.db).items kind "__proto__" = none)
    (follows : FollowsPoints Abstract.spec (callView ι) a₀ t.log (Abstract.ofDb state t.db))
    (replied : ∀ c cb reply, (cb, reply) ∈ (t.conn c).outbox → ∀ a, replyAnswer cb reply = some a →
      ((c, cb.call), cb.op, a) ∈ t.log.filterMap Event.point)
    (noPoint : ∀ c cb, (t.conn c).Open cb → ∀ x ∈ t.log.filterMap Event.point, x.1 ≠ (c, cb.call)) :
    Following state a₀ t where
  orderly := orderly_step hs.orderly hl.one hl.undisturbed h
  called := called_step hs.orderly.queued hs.called h
  once := once_step hs.orderly.queued hs.called hs.once h
  itemsPrefix d := (step_itemsPrefix h d).trans (hs.itemsPrefix d)
  encoded := encoded
  noProto := noProto
  plain d call op hcalled := by
    rcases called_of_step h hcalled with hcalled | ⟨hlabel, -⟩
    · exact hs.plain d call op hcalled
    · exact hl.called d op hlabel
  follows := follows
  replied := replied
  noPoint := noPoint

/-- A call takes effect at none of the earlier points. -/
theorem Following.call (hs : Following state a₀ s) {op : Op} (hl : InOrder s (.call c op))
    (h : step s (.call c op) = some t) : Following state a₀ t := by
  have hstep := call_step h
  obtain ⟨hop, hplain⟩ := hl.called c op rfl
  have hproto : op.AvoidsProto state s.db := by
    cases op with
    | initInternal allData => exact hplain
    | getAllInternal kind => exact hs.encoded.noProto hs.noProto kind
    | _ => trivial
  obtain ⟨issued, hdoes, -⟩ := start_does (hs.itemsPrefix c) (hs.orderly.up c) hop hproto (s.calls c)
  have hlog : t.log = s.log ++ [.called c (s.calls c) op] := by
    rw [hstep.log, hdoes.eventsOf]
    rfl
  have hpoints : t.log.filterMap Event.point = s.log.filterMap Event.point := by
    rw [hlog, List.filterMap_append]
    exact List.append_nil _
  have hnew : ∀ x ∈ s.log.filterMap Event.point, x.1 ≠ (c, s.calls c) := by
    intro x hx heq
    have hlt := hs.lt_calls hx
    rw [heq] at hlt
    exact lt_irrefl _ hlt
  refine hs.of_step hl h (by rw [hstep.db]; exact hs.encoded) (by rw [hstep.db]; exact hs.noProto) ?_
    (fun d cb reply hout a ha => ?_) fun d cb hopen => ?_
  · rw [hlog, hstep.db]
    refine hs.follows.snoc ⟨fun k op' ans hk => ?_, fun _ => rfl, fun k op' hk => ?_,
      fun k ans hk => ?_⟩
    · cases hk
    · obtain ⟨rfl, -⟩ := Prod.mk.inj (Option.some.inj hk)
      exact hnew
    · cases hk
  · rw [hpoints]
    refine hs.replied d cb reply ?_ a ha
    by_cases hd : d = c
    · subst hd
      rw [hstep.self] at hout
      exact hout
    · rw [hstep.other d hd] at hout
      exact hout
  · rw [hpoints]
    by_cases hd : d = c
    · subst hd
      rw [hstep.self] at hopen
      rcases hopen with ⟨r, hr, hcb⟩ | hout
      · rcases List.mem_append.mp hr with hr | hr
        · exact hs.noPoint d cb (.inl ⟨r, hr, hcb⟩)
        · rw [((start_worksFor _ _ op).issued r hr cb hcb).1]
          exact hnew
      · exact hs.noPoint d cb (.inr hout)
    · rw [hstep.other d hd] at hopen
      exact hs.noPoint d cb hopen

/-- A callback that runs answers what its call's point says. -/
theorem Following.deliver (hs : Following state a₀ s) (hl : InOrder s (.deliver c))
    (h : step s (.deliver c) = some t) : Following state a₀ t := by
  obtain ⟨cb₀, reply₀, rest, hstep⟩ := deliver_step h
  have hmem : (cb₀, reply₀) ∈ (s.conn c).outbox := by
    rw [hstep.outbox]
    exact List.mem_cons_self
  have hcb₀ : Awaited cb₀ := (hs.orderly.queued c).outbox _ hmem
  have hanswered := resume_answered hcb₀ (hs.orderly.up c) reply₀
  -- The code makes no call, and executes nothing.
  have hcode : ∀ e ∈ eventsOf c (cb₀.resume (s.conn c).state reply₀),
      e.made = none ∧ e.point = none := by
    intro e he
    rcases List.mem_append.mp he with he | he <;> obtain ⟨_, -, rfl⟩ := List.mem_map.1 he <;>
      exact ⟨rfl, rfl⟩
  have hpoints : t.log.filterMap Event.point = s.log.filterMap Event.point := by
    rw [hstep.log, List.filterMap_append, List.filterMap_eq_nil_iff.2 fun e he => (hcode e he).2,
      List.append_nil]
  refine hs.of_step hl h (by rw [hstep.db]; exact hs.encoded) (by rw [hstep.db]; exact hs.noProto) ?_
    (fun d cb reply hout a ha => ?_) fun d cb hopen => ?_
  · rw [hstep.log, hstep.db]
    refine hs.follows.append (fun e he => (hcode e he).1) (fun e he => (hcode e he).2)
      fun e he k ans hk => ?_
    rcases List.mem_append.mp he with he | he
    · obtain ⟨⟨call, a⟩, ha, rfl⟩ := List.mem_map.1 he
      obtain ⟨rfl, rfl⟩ := Prod.mk.inj (Option.some.inj hk)
      rw [hanswered] at ha
      obtain ⟨a', ha', heq⟩ := List.mem_map.1 ha
      obtain ⟨rfl, rfl⟩ := Prod.mk.inj heq
      exact ⟨cb₀.op, hs.replied c cb₀ reply₀ hmem a' (Option.mem_toList.1 ha')⟩
    · obtain ⟨x, -, rfl⟩ := List.mem_map.1 he
      cases hk
  · rw [hpoints]
    refine hs.replied d cb reply ?_ a ha
    by_cases hd : d = c
    · subst hd
      rw [hstep.self] at hout
      rw [hstep.outbox]
      exact List.mem_cons_of_mem _ hout
    · rw [hstep.other d hd] at hout
      exact hout
  · rw [hpoints]
    by_cases hd : d = c
    · subst hd
      rw [hstep.self] at hopen
      rcases hopen with ⟨r, hr, hcb⟩ | ⟨reply, hout, hnone⟩
      · rcases List.mem_append.mp hr with hr | hr
        · exact hs.noPoint d cb (.inl ⟨r, hr, hcb⟩)
        · -- The callback that runs passes another, so that it does not answer.
          have honce := resume_once hcb₀ (s.conn d).state reply₀
          have hpassed : 0 < (cb₀.resume (s.conn d).state reply₀).passed.length :=
            List.length_pos_of_mem (List.mem_filterMap.2 ⟨r, hr, hcb⟩)
          have hnone : replyAnswer cb₀ reply₀ = none := by
            cases ha : replyAnswer cb₀ reply₀ with
            | none => rfl
            | some a =>
              rw [ha] at hanswered
              have hlength := congrArg List.length hanswered
              rw [Option.toList_some, List.length_map, List.length_singleton] at hlength
              unfold Js.Once at honce
              omega
          rw [((resume_worksFor hcb₀ reply₀).issued r hr cb hcb).1]
          exact hs.noPoint d cb₀ (.inr ⟨reply₀, hmem, hnone⟩)
      · refine hs.noPoint d cb (.inr ⟨reply, ?_, hnone⟩)
        rw [hstep.outbox]
        exact List.mem_cons_of_mem _ hout
    · rw [hstep.other d hd] at hopen
      exact hs.noPoint d cb hopen

/-- What the execution of a command does to the store: the call takes effect, and its callback will
answer what the store gives; or the callback will not answer, and the store is the same. -/
def TakesEffect (state : StoreState) (db db' : Db) (request : Request) (reply : Reply) : Prop :=
  (∃ cb a, request.callback = some cb ∧ replyAnswer cb reply = some a ∧
      (Abstract.ofDb state db).Gives cb.op a ∧
      Abstract.ofDb state db' = (Abstract.ofDb state db).apply cb.op) ∨
    (∀ cb, request.callback = some cb → replyAnswer cb reply = none) ∧
      Abstract.ofDb state db' = Abstract.ofDb state db

omit [DecidableEq ι] in
/-- A read takes effect if its callback answers; that of an upsert may go on to write. -/
theorem takesEffect_reads {st : StoreState} (hsame : st.itemsPrefix = state.itemsPrefix)
    (hup : st.down = false) {db : Db} (henc : HoldsEncoded state db) {cb : Callback} (hcb : Awaited cb)
    {r : Request} (hr : Reads state cb.call cb.op r) (hrcb : r.callback = some cb)
    (hproto : cb.op.AvoidsProto state db) (session : Session) :
    HoldsEncoded state (r.cmd.execute db session).db ∧
      TakesEffect state db (r.cmd.execute db session).db r (r.cmd.execute db session).reply := by
  rw [(hr.execute db session).2]
  refine ⟨henc, ?_⟩
  rcases resume_read_does hsame henc hr hproto hrcb with ⟨a, hdoes, hgives, happly⟩ | ⟨w, hdoes, -⟩
  · exact .inl ⟨cb, a, hrcb, replyAnswer_eq_some hcb hup hdoes, hgives, happly.symm⟩
  · refine .inr ⟨fun cb' hcb' => ?_, rfl⟩
    obtain rfl : cb = cb' := Option.some.inj (hrcb.symm.trans hcb')
    exact replyAnswer_eq_none hcb hup hdoes

omit [DecidableEq ι] in
/-- A transaction that the store admits takes effect when it is executed. -/
theorem takesEffect_writes {st : StoreState} (hup : st.down = false) {db : Db}
    (henc : HoldsEncoded state db) {cb : Callback} (hcb : Awaited cb) {r : Request}
    (hr : Writes state (Abstract.ofDb state db) cb.call cb.op r) (hrcb : r.callback = some cb)
    {session : Session} (hclean : session.dirty = false) :
    HoldsEncoded state (r.cmd.execute db session).db ∧
      TakesEffect state db (r.cmd.execute db session).db r (r.cmd.execute db session).reply := by
  obtain ⟨-, db', rs, touched, hexecute, henc', hofDb⟩ := hr.execute henc hclean
  obtain ⟨a, hdoes, hgives⟩ := resume_written_does st hr hrcb rs
  rw [hexecute]
  exact ⟨henc', .inl ⟨cb, a, hrcb, replyAnswer_eq_some hcb hup hdoes, hgives, hofDb⟩⟩

/-- Every command in a run in order takes effect or leaves the store as it is. -/
theorem Following.executed (hs : Following state a₀ s) (hl : InOrder s (.serve c .none))
    {request : Request} {rest : List Request} (hstep : ServeStep s t c request rest .none) :
    HoldsEncoded state t.db ∧
      TakesEffect state s.db t.db request (outcome s c request .none).reply := by
  have hup := hs.orderly.up c
  have hmem : request ∈ (s.conn c).inbox := by
    rw [hstep.inbox]
    exact List.mem_cons_self
  have hissued := (hs.orderly.queued c).inbox request hmem
  -- The operation of the callback is one of the feature store.
  have hplain : ∀ cb, request.callback = some cb → cb.op.OfItems ∧ cb.op.NoProto := fun cb hcb =>
    hs.plain c _ _ (hs.called.pending c cb (Conn.mem_callbacks.2 (.inr ⟨request, hmem, hcb⟩)))
  have hout : outcome s c request .none = request.cmd.execute s.db (s.conn c).session := rfl
  have hread : ∀ cb, request.callback = some cb → Reads state cb.call cb.op request →
      HoldsEncoded state t.db ∧
        TakesEffect state s.db t.db request (outcome s c request .none).reply := by
    intro cb hcb hr
    have hproto : cb.op.AvoidsProto state s.db := by
      have hcbproto := (hplain cb hcb).2
      cases hop : cb.op with
      | initInternal allData => rw [hop] at hcbproto; exact hcbproto
      | getAllInternal kind => exact hs.encoded.noProto hs.noProto kind
      | _ => trivial
    rw [hstep.db, hout]
    exact takesEffect_reads (hs.itemsPrefix c) hup hs.encoded (hissued.awaited hcb) hr hcb hproto _
  have hwrite : ∀ cb, request.callback = some cb → (s.conn c).session.dirty = false →
      Writes state (Abstract.ofDb state s.db) cb.call cb.op request →
      HoldsEncoded state t.db ∧
        TakesEffect state s.db t.db request (outcome s c request .none).reply := by
    intro cb hcb hclean hw
    rw [hstep.db, hout]
    exact takesEffect_writes hup hs.encoded (hissued.awaited hcb) hw hcb hclean
  have hissued' := hissued.congr (hs.itemsPrefix c)
  cases hissued' with
  | watch kind =>
    rw [hstep.db, hout]
    refine ⟨hs.encoded, .inr ⟨fun cb hcb => ?_, rfl⟩⟩
    cases hcb
  | getRead kind key call => exact hread _ rfl (.get kind key)
  | upsertRead kind item call => exact hread _ rfl (.upsert kind item)
  | getAll kind call => exact hread _ rfl (.getAll kind)
  | inited call => exact hread _ rfl .inited
  | upsertWrite kind item call =>
    cases hdirty : (s.conn c).session.dirty with
    | true =>
      -- The transaction is aborted, and the callback starts the upsert again.
      have haborted : outcome s c (writeRequest state kind item call) .none = _ :=
        Command.execute_exec_of_dirty _ s.db hdirty
      rw [hstep.db, haborted]
      refine ⟨hs.encoded, .inr ⟨fun cb hcb => ?_, rfl⟩⟩
      obtain rfl := Option.some.inj hcb
      exact replyAnswer_eq_none (.upsertWrite kind item call) hup
        (onUpsertExec_does_of_nil (upsertInternal_does_of_up hup kind item call))
    | false =>
      -- What the upsert has read still holds.
      have hin : (s.conn c).inbox = writeRequest (s.conn c).state kind item call :: rest := by
        rw [hstep.inbox, writeRequest, writeRequest, itemsKey_congr (hs.itemsPrefix c)]
      have hadmits := admits_of_inPhase (hs.orderly.phase c) hin hdirty
      rw [itemsKey_congr (hs.itemsPrefix c)] at hadmits
      exact hwrite _ rfl hdirty (.upsert kind item (hs.encoded.admits hadmits))
  | init allData call multi hbuild =>
    have hclean := hl.inits (by rw [hstep.inbox]; rfl)
    obtain ⟨⟨-, hitems⟩, hproto⟩ := hplain _ rfl
    exact hwrite _ rfl hclean (.init allData multi hbuild hitems hproto)
  | metadata call => exact absurd (hplain _ rfl).1 id
  | includes userHash call => exact absurd (hplain _ rfl).1 id
  | excludes userHash refs call => exact absurd (hplain _ rfl).1 id

/-- Of the callbacks that wait no two belong to one call. -/
theorem Once.call_ne (hs : Once s) {request : Request} {rest : List Request}
    (hin : (s.conn c).inbox = request :: rest) {cb cb' : Callback} (hcb : request.callback = some cb)
    (hcb' : (∃ reply, (cb', reply) ∈ (s.conn c).outbox) ∨ ∃ r ∈ rest, r.callback = some cb') :
    cb'.call ≠ cb.call := by
  intro hcall
  have hle := hs c cb.call
  unfold Conn.awaiting Conn.callbacks at hle
  rw [hin, List.filterMap_cons_some hcb, List.countP_append, List.countP_cons] at hle
  simp only [decide_true, if_true] at hle
  rcases hcb' with ⟨reply, hmem⟩ | ⟨r, hr, hrcb⟩
  · have hpos : 0 < ((s.conn c).outbox.map Prod.fst).countP fun cb' => cb'.call = cb.call :=
      List.countP_pos_iff.2 ⟨cb', List.mem_map.2 ⟨_, hmem, rfl⟩, decide_eq_true hcall⟩
    omega
  · have hpos : 0 < (rest.filterMap Request.callback).countP fun cb' => cb'.call = cb.call :=
      List.countP_pos_iff.2 ⟨cb', List.mem_filterMap.2 ⟨r, hr, hrcb⟩, decide_eq_true hcall⟩
    omega

omit [DecidableEq ι] in
/-- The points after a command is executed: those before it, and its own. -/
theorem points_executed {log : List (Event ι)} {request : Request} {reply : Reply} {touched : List Key} :
    (log ++ [Event.executed c request reply touched]).filterMap Event.point =
      log.filterMap Event.point ++ (Event.point (.executed c request reply touched)).toList :=
  filterMap_point_concat (V := callView ι) _

/-- A callback of another call than the executed command's has no point yet. -/
theorem Following.point_ne_serve (hs : Following state a₀ s) {request : Request} {rest : List Request}
    (hstep : ServeStep s t c request rest .none) {d : ι} {cb : Callback} (hopen : (s.conn d).Open cb)
    (hne : ∀ cb₀, request.callback = some cb₀ → (d, cb.call) ≠ (c, cb₀.call)) :
    ∀ x ∈ t.log.filterMap Event.point, x.1 ≠ (d, cb.call) := by
  intro x hx
  rw [hstep.log, points_executed] at hx
  rcases List.mem_append.mp hx with hx | hx
  · exact hs.noPoint d cb hopen x hx
  · obtain ⟨cb₀, hcb₀, hpoint⟩ := Option.bind_eq_some_iff.1 (Option.mem_toList.1 hx)
    obtain ⟨a, -, rfl⟩ := Option.map_eq_some_iff.1 hpoint
    exact (hne cb₀ hcb₀).symm

/-- An executed command is the point of its call, or of none. -/
theorem Following.follows_serve (hs : Following state a₀ s) {request : Request} {rest : List Request}
    (hstep : ServeStep s t c request rest .none)
    (heffect : TakesEffect state s.db t.db request (outcome s c request .none).reply) :
    FollowsPoints Abstract.spec (callView ι) a₀ t.log (Abstract.ofDb state t.db) := by
  have hmem : request ∈ (s.conn c).inbox := by
    rw [hstep.inbox]
    exact List.mem_cons_self
  rw [hstep.log]
  refine hs.follows.snoc ⟨fun k op ans hk => ?_, fun hk => ?_, fun k op hk => ?_, fun k ans hk => ?_⟩
  · -- The point is that of the command's callback.
    obtain ⟨cb, hcb, hpoint⟩ := Option.bind_eq_some_iff.1 hk
    obtain ⟨a, ha, heq⟩ := Option.map_eq_some_iff.1 hpoint
    obtain ⟨rfl, hrest⟩ := Prod.mk.inj heq
    obtain ⟨rfl, rfl⟩ := Prod.mk.inj hrest
    rcases heffect with ⟨cb', a', hcb', ha', hgives, hdb⟩ | ⟨hnone, -⟩
    · obtain rfl : cb = cb' := Option.some.inj (hcb.symm.trans hcb')
      obtain rfl : a = a' := Option.some.inj (ha.symm.trans ha')
      have hpending := hs.called.pending c cb (Conn.mem_callbacks.2 (.inr ⟨request, hmem, hcb⟩))
      exact ⟨hgives, hdb, ⟨.called c cb.call cb.op, hpending, rfl⟩,
        hs.noPoint c cb (.inl ⟨request, hmem, hcb⟩)⟩
    · rw [hnone cb hcb] at ha
      cases ha
  · rcases heffect with ⟨cb, a, hcb, ha, -, -⟩ | ⟨-, hdb⟩
    · have hpoint : Event.point (.executed c request (outcome s c request .none).reply
          (outcome s c request .none).touched) = none := hk
      rw [point_executed hcb, ha] at hpoint
      cases hpoint
    · exact hdb
  · cases hk
  · cases hk

/-- A reply on which its callback answers is that of the command, or one that waited. -/
theorem Following.replied_serve (hs : Following state a₀ s) {request : Request} {rest : List Request}
    (hstep : ServeStep s t c request rest .none) {d : ι} {cb : Callback} {reply : Reply}
    (hout : (cb, reply) ∈ (t.conn d).outbox) {a : Answer} (ha : replyAnswer cb reply = some a) :
    ((d, cb.call), cb.op, a) ∈ t.log.filterMap Event.point := by
  rw [hstep.log, points_executed]
  by_cases hd : d = c
  · subst hd
    rw [hstep.self] at hout
    rcases List.mem_append.mp hout with hout | hout
    · exact List.mem_append_left _ (hs.replied d cb reply hout a ha)
    · obtain ⟨hcb, rfl⟩ := mem_waiting.1 hout
      refine List.mem_append_right _ (Option.mem_toList.2 ?_)
      rw [point_executed hcb, ha]
      rfl
  · rw [hstep.other d hd] at hout
    exact List.mem_append_left _ (hs.replied d cb reply hout a ha)

/-- A call that has not taken effect when a command is executed has no point. -/
theorem Following.noPoint_serve (hs : Following state a₀ s) {request : Request} {rest : List Request}
    (hstep : ServeStep s t c request rest .none) {d : ι} {cb : Callback} (hopen : (t.conn d).Open cb) :
    ∀ x ∈ t.log.filterMap Event.point, x.1 ≠ (d, cb.call) := by
  by_cases hd : d = c
  · subst hd
    rw [hstep.self] at hopen
    rcases hopen with ⟨r, hr, hcb⟩ | ⟨reply, hout, hnone⟩
    · refine hs.point_ne_serve hstep (.inl ⟨r, ?_, hcb⟩) fun cb₀ hcb₀ heq => ?_
      · rw [hstep.inbox]
        exact List.mem_cons_of_mem _ hr
      · exact hs.once.call_ne hstep.inbox hcb₀ (.inr ⟨r, hr, hcb⟩) (Prod.mk.inj heq).2
    · rcases List.mem_append.mp hout with hout | hout
      · refine hs.point_ne_serve hstep (.inr ⟨reply, hout, hnone⟩) fun cb₀ hcb₀ heq => ?_
        exact hs.once.call_ne hstep.inbox hcb₀ (.inl ⟨reply, hout⟩) (Prod.mk.inj heq).2
      · -- The callback does not answer on the reply, so that the command is no point.
        obtain ⟨hcb, rfl⟩ := mem_waiting.1 hout
        rw [hstep.log, points_executed, point_executed hcb, hnone, Option.map_none,
          Option.toList_none, List.append_nil]
        refine hs.noPoint d cb (.inl ⟨request, ?_, hcb⟩)
        rw [hstep.inbox]
        exact List.mem_cons_self
  · rw [hstep.other d hd] at hopen
    exact hs.point_ne_serve hstep hopen fun cb₀ _ heq => hd (Prod.mk.inj heq).1

/-- The execution of a command. -/
theorem Following.serve (hs : Following state a₀ s) (hl : InOrder s (.serve c .none))
    (h : step s (.serve c .none) = some t) : Following state a₀ t := by
  obtain ⟨request, rest, hstep⟩ := serve_step h
  obtain ⟨henc, heffect⟩ := hs.executed hl hstep
  refine hs.of_step hl h henc ?_ (hs.follows_serve hstep heffect)
    (fun d cb reply hout a ha => hs.replied_serve hstep hout ha)
    fun d cb hopen => hs.noPoint_serve hstep hopen
  rcases heffect with ⟨cb, a, hcb, -, -, hdb⟩ | ⟨-, hdb⟩
  · have hmem : request ∈ (s.conn c).inbox := by
      rw [hstep.inbox]
      exact List.mem_cons_self
    have hplain := hs.plain c _ _
      (hs.called.pending c cb (Conn.mem_callbacks.2 (.inr ⟨request, hmem, hcb⟩)))
    rw [hdb]
    exact apply_noProto hplain.2 hs.noProto
  · rw [hdb]
    exact hs.noProto

/-- A connection that is made is no event of a call. -/
theorem Following.regain (hs : Following state a₀ s) (hl : InOrder s (.regain c))
    (h : step s (.regain c) = some t) : Following state a₀ t := by
  have hstep := regain_step h
  have hpoints : t.log.filterMap Event.point = s.log.filterMap Event.point := by
    rw [hstep.log, List.filterMap_append]
    exact List.append_nil _
  have hqueues : ∀ d, (t.conn d).inbox = (s.conn d).inbox ∧ (t.conn d).outbox = (s.conn d).outbox := by
    intro d
    by_cases hd : d = c
    · rw [hd, hstep.self]
      exact ⟨rfl, rfl⟩
    · rw [hstep.other d hd]
      exact ⟨rfl, rfl⟩
  refine hs.of_step hl h (by rw [hstep.db]; exact hs.encoded) (by rw [hstep.db]; exact hs.noProto) ?_
    (fun d cb reply hout => ?_) fun d cb hopen => ?_
  · rw [hstep.log, hstep.db]
    exact hs.follows.append (by simp [callView, Event.made]) (by simp [callView, Event.point])
      (by simp [callView, Event.answer?])
  · rw [hpoints]
    rw [(hqueues d).2] at hout
    exact hs.replied d cb reply hout
  · rw [hpoints]
    unfold Conn.Open at hopen
    rw [(hqueues d).1, (hqueues d).2] at hopen
    exact hs.noPoint d cb hopen

/-- Every step of a run in order. -/
theorem following_step (hs : Following state a₀ s) (hl : InOrder s l) (h : step s l = some t) :
    Following state a₀ t := by
  cases l with
  | call c op => exact hs.call hl h
  | serve c fault =>
    obtain rfl : fault = .none := hl.undisturbed
    exact hs.serve hl h
  | deliver c => exact hs.deliver hl h
  | lose c kept => exact absurd hl.undisturbed id
  | regain c => exact hs.regain hl h
  | foreign values => exact absurd hl.undisturbed id

/-- At the start. -/
theorem Fresh.following (h₀ : Fresh s) (hup : ∀ c, (s.conn c).state.down = false)
    (hsame : ∀ c, (s.conn c).state.itemsPrefix = state.itemsPrefix) (henc : HoldsEncoded state s.db)
    (hproto : ∀ kind, fieldOf (s.db (itemsKey state kind)) "__proto__" = none) :
    Following state (Abstract.ofDb state s.db) s where
  orderly := ⟨h₀.queued, hup, fun c => h₀.inPhase c⟩
  called := h₀.called
  once := h₀.once
  itemsPrefix := hsame
  encoded := henc
  noProto kind := by rw [Abstract.ofDb_items, hproto]; rfl
  plain c call op hcalled := by simp [h₀.log] at hcalled
  follows := by rw [h₀.log]; exact .nil
  replied c cb reply hout := by simp [h₀.outbox c] at hout
  noPoint c cb hopen x hx := by simp [h₀.log] at hx

/-- At the end of a run in order. -/
theorem following_run {ls : List (Label ι)} (h₀ : Fresh s)
    (hup : ∀ c, (s.conn c).state.down = false)
    (hsame : ∀ c, (s.conn c).state.itemsPrefix = state.itemsPrefix) (henc : HoldsEncoded state s.db)
    (hproto : ∀ kind, fieldOf (s.db (itemsKey state kind)) "__proto__" = none)
    (horder : Along InOrder s ls) (h : run s ls = some t) :
    Following state (Abstract.ofDb state s.db) t :=
  Transition.run_invariant (fun _ _ _ hs hl hstep => following_step hs hl hstep)
    (h₀.following hup hsame henc hproto) horder h

/-- In every run in order, of any number of connections with one prefix, with any calls of the feature
store at any time, from a database whose hashes hold items: the points in their order are a linearization
of the calls. They are calls that the abstract store could have served one after the other, with these
answers, from what the database stands for at the start to what it stands for at the end; every answered
call is among them with its answer, none twice; and a call that was answered before another was made
comes before it. -/
theorem linearizable {ls : List (Label ι)} (h₀ : Fresh s) (hup : ∀ c, (s.conn c).state.down = false)
    (hsame : ∀ c, (s.conn c).state.itemsPrefix = state.itemsPrefix) (henc : HoldsEncoded state s.db)
    (hproto : ∀ kind, fieldOf (s.db (itemsKey state kind)) "__proto__" = none)
    (horder : Along InOrder s ls) (h : run s ls = some t) :
    Linearizes Abstract.spec (callView ι) (Abstract.ofDb state s.db) t.log
      (t.log.filterMap Event.point) (Abstract.ofDb state t.db) :=
  (following_run h₀ hup hsame henc hproto horder h).follows.linearizes

/-- A read of one connection that overlaps an upsert of another, and is served before it. -/
def overlappingCalls : List (Label Bool) :=
  [.call false (.upsertInternal .features (.ofVersion "f" 1)),
    .call true (.getInternal .features "f"), .serve false .none, .serve true .none,
    .serve false .none, .deliver false, .serve false .none, .deliver false, .deliver true]

/-- The two calls are linearized. -/
theorem linearizable_overlapping :
    ∃ t : Sys Bool, run (opened (fun _ => none) fun _ => connectedState) overlappingCalls = some t ∧
      Linearizes Abstract.spec (callView Bool) (Abstract.ofDb connectedState fun _ => none) t.log
        (t.log.filterMap Event.point) (Abstract.ofDb connectedState t.db) := by
  have hsome : (run (opened (fun _ => none) fun _ => connectedState) overlappingCalls).isSome := by
    decide +kernel
  obtain ⟨t, ht⟩ := Option.isSome_iff_exists.1 hsome
  have hone : Along (fun s l => OneWriteAtATime s l ∧ InitsCommit s l)
      (opened (fun _ => none) fun _ => connectedState) overlappingCalls := by decide +kernel
  have hlabels : ∀ l ∈ overlappingCalls, Undisturbed l ∧
      ∀ c op, l = .call c op → op.OfItems ∧ op.NoProto := by
    simp [overlappingCalls, Undisturbed, Op.OfItems, Op.NoProto, Item.ofVersion]
  have horder : Along InOrder (opened (fun _ => none) fun _ => connectedState) overlappingCalls := by
    refine (hone.and (Transition.Along.of_forall fun _ => hlabels)).mono ?_
    rintro s l ⟨⟨hone, hinits⟩, hundisturbed, hcalled⟩
    exact ⟨hundisturbed, hone, hcalled, hinits⟩
  exact ⟨t, ht, linearizable (opened_fresh _ _) (fun _ => rfl) (fun _ => rfl) (holdsEncoded_empty _)
    (fun _ => rfl) horder ht⟩

end Sys

end RedisStore
