import RedisStore.Conservation
import RedisStore.Abstract
import RedisStore.AllOrNothing
import RedisStore.Written

/-!
# What the stores write they can read

The texts that upserts and inits write are read back as items with versions, whatever the faults, the
lost connections, the aborts, and the calls that overlap. So where the hashes hold items at the start,
and nobody else puts anything else there, they always do; no exception escapes from the stores' code; and
each call waits for a reply or has its answer (`reads_back`).

Where another program has left something else in the database, a read throws, and its call is lost. An
init that names both kinds mends this: from its commit on no call that is made is lost (`init_mends`).
-/

namespace RedisStore

open Redis

/-! ## Values that are read back -/

/-- What the stores keep under a kind's key: nothing, or a hash of the texts of items. -/
structure Encoded (v : Option Value) : Prop where
  hashlike : Hashlike v
  version : ∀ field text, fieldOf v field = some text → (textVersion text).isSome

/-- The hashes hold items if each of them does. -/
theorem holdsEncoded_iff {state : StoreState} {db : Db} :
    HoldsEncoded state db ↔ ∀ kind, Encoded (db (itemsKey state kind)) := by
  constructor
  · intro h kind
    exact ⟨h.hashlike kind, h.version kind⟩
  · intro h
    exact ⟨fun kind => (h kind).hashlike, fun kind => (h kind).version⟩

/-- That depends on the prefix alone. -/
theorem HoldsEncoded.of_itemsPrefix {state state' : StoreState} {db : Db} (h : HoldsEncoded state db)
    (hsame : state.itemsPrefix = state'.itemsPrefix) : HoldsEncoded state' db := by
  rw [holdsEncoded_iff] at h ⊢
  intro kind
  rw [← itemsKey_congr hsame]
  exact h kind

/-! ## What the stores write -/

/-- The operation gives items, of known kinds. -/
def Op.GivesItems : Op → Prop
  | .initInternal allData =>
    (∀ e ∈ allData.entries, ∃ kind : Kind, e.1 = kind.namespaceName) ∧ HasItems allData
  | _ => True

/-- What an init of items stores has a version. -/
theorem HasItems.version_of_puts {allData : AllData} (h : HasItems allData) {kind : Kind}
    {key : String} {j : Json}
    (hputs : (Op.initInternal allData).Puts kind key j) : j.itemVersion.isSome := by
  obtain ⟨items, hlookup, hitem⟩ := hputs
  obtain ⟨j', hj', hversion⟩ := h ⟨_, items⟩ (List.of_mem_dlookup hlookup) ⟨key, _⟩
    (List.of_mem_dlookup hitem)
  obtain rfl := JsValue.json.inj hj'
  exact hversion

/-- So has what any operation stores that gives items. -/
theorem Op.GivesItems.version {op : Op} (h : op.GivesItems) {kind : Kind} {key : String} {j : Json}
    (hputs : op.Puts kind key j) : j.itemVersion.isSome := by
  cases op with
  | initInternal allData => exact h.2.version_of_puts hputs
  | upsertInternal kind' item =>
    obtain ⟨-, -, rfl⟩ := hputs
    rw [Item.itemVersion_json]
    rfl
  | _ => exact absurd hputs id

/-- Its text is read back with the version. -/
theorem textVersion_stringify (j : Json) : textVersion j.stringify = j.itemVersion := by
  rw [textVersion, Json.parse_stringify]
  rfl

/-- A command of the stores leaves what is read back under the keys of the kinds. -/
theorem Issued.encoded_serve {state st : StoreState} {r : Request} (hr : Issued st r)
    (hitems : ∀ cb, r.callback = some cb → cb.op.GivesItems) {db : Db} (h : HoldsEncoded state db)
    (session : Session) (fault : Fault) : HoldsEncoded state (r.cmd.serve db session fault).db := by
  refine ⟨fun kind => hr.hashlike_serve (h.hashlike kind) session fault,
    fun kind field text htext => ?_⟩
  rcases hr.text_of_serve htext with hold | ⟨cb, j, hcb, -, hputs, rfl⟩
  · exact h.version kind field text hold
  · rw [textVersion_stringify]
    exact (hitems cb hcb).version hputs

/-- The transaction of an init is built. -/
theorem Op.GivesItems.buildInit {allData : AllData} (h : (Op.initInternal allData).GivesItems)
    (state : StoreState) : ∃ multi, buildInit state allData = .ok multi := by
  rw [buildInit_isOk]
  intro e he
  obtain ⟨kind, hkind⟩ := h.1 e he
  refine ⟨⟨kind.namespaceName, ?_⟩, ?_⟩
  · rw [hkind]
    exact dataKindNamespace_namespaceName kind
  · unfold stringifyItems
    rw [PlainObject.assignAll_isOk]
    intro item hitem
    obtain ⟨j, hj, -⟩ := h.2 e he item hitem
    rw [hj]
    exact ⟨j.stringify, rfl⟩

/-- What an init of both kinds leaves is read back, whatever was there before. -/
theorem holdsEncoded_buildInit {state : StoreState} {allData : AllData} {multi : Multi}
    (hbuild : buildInit state allData = .ok multi) (hitems : HasItems allData)
    (hkinds : ∀ kind : Kind, kind.namespaceName ∈ allData) (db : Db) :
    HoldsEncoded state (runWrites multi db).db := by
  rw [holdsEncoded_iff]
  intro kind
  obtain ⟨items, hlookup⟩ := Option.isSome_iff_exists.1 (AList.lookup_isSome.2 (hkinds kind))
  have hkind : ∀ db, (runWrites multi db).db (itemsKey state kind) = hashOf items := by
    intro db
    have hkept := (runWrites_buildInit hbuild db).1 kind
    rw [hlookup] at hkept
    exact hkept
  rw [hkind]
  refine ⟨hashlike_hashOf items, fun field text htext => ?_⟩
  -- In an empty database each text is one that the init stores.
  rw [← hkind fun _ => none] at htext
  obtain ⟨w, hw, hstores⟩ := (fieldOf_runWrites htext).resolve_left (by simp)
  obtain ⟨-, j, hputs, rfl⟩ := puts_of_buildInit hbuild hw hstores
  rw [textVersion_stringify]
  exact hitems.version_of_puts hputs

/-! ## Replies that are read -/

/-- The callback throws nothing on the reply. -/
def Harmless (p : Callback × Reply) : Prop := ∀ state, (p.1.resume state p.2).thrown = []

/-- An error is no text that could be misread. -/
theorem harmless_error {cb : Callback} (hcb : Awaited cb) : Harmless (cb, .error) := by
  intro state
  cases hcb with
  | getRead kind key call => exact (onHget_getInternal_does state kind key call .error).thrown
  | upsertRead kind item call => exact (onHget_update_does state kind item.key item call .error).thrown
  | upsertWrite kind item call =>
    have hne : Reply.error ≠ .nil := Reply.noConfusion
    exact (onUpsertExec_does hne state kind item call).thrown
  | getAll kind call => exact (onHgetall_does kind call .error).thrown
  | init allData call => exact (onInitExec_does call .error).thrown
  | inited call => exact (onInitedExists_does call .error).thrown
  | metadata call => rfl
  | includes userHash call => rfl
  | excludes userHash refs call => rfl

/-- Nor is what the server reads where the hashes hold items. -/
theorem harmless_served {state : StoreState} {r : Request} (hr : Issued state r) {cb : Callback}
    (hcb : r.callback = some cb) {db : Db} (h : HoldsEncoded state db) (session : Session)
    (fault : Fault) : Harmless (cb, (r.cmd.serve db session fault).reply) := by
  by_cases herror : (r.cmd.serve db session fault).reply = .error
  · rw [herror]
    exact harmless_error (hr.awaited hcb)
  intro st
  cases hr with
  | watch kind => cases hcb
  | getRead kind key call =>
    obtain rfl := Option.some.inj hcb
    obtain rfl := Command.fault_eq_none (fun queue => Command.noConfusion) herror
    have hdoes := onHget_getInternal_does st kind key call
      ((Command.hget (itemsKey state kind) key).read db)
    rw [replyItem_read h] at hdoes
    exact hdoes.thrown
  | upsertRead kind item call =>
    obtain rfl := Option.some.inj hcb
    obtain rfl := Command.fault_eq_none (fun queue => Command.noConfusion) herror
    have hdoes := onHget_update_does st kind item.key item call
      ((Command.hget (itemsKey state kind) item.key).read db)
    rw [replyVerdict_read h] at hdoes
    split_ifs at hdoes <;> exact hdoes.thrown
  | upsertWrite kind item call =>
    obtain rfl := Option.some.inj hcb
    generalize ((writeRequest state kind item call).cmd.serve db session fault).reply = reply
    by_cases hnil : reply = .nil
    · subst hnil
      have hdoes : (onUpsertExec st kind item call .nil).Does _ _ _ :=
        onUpsertExec_does_of_nil ⟨rfl, rfl, rfl⟩
      refine hdoes.thrown.trans ?_
      cases hdown : st.down with
      | false => exact (upsertInternal_does_of_up hdown kind item call).thrown
      | true => exact (upsertInternal_does_of_down hdown kind item call).thrown
    · exact (onUpsertExec_does hnil st kind item call).thrown
  | getAll kind call =>
    obtain rfl := Option.some.inj hcb
    obtain rfl := Command.fault_eq_none (fun queue => Command.noConfusion) herror
    have hdoes := onHgetall_does kind call ((Command.hgetall (itemsKey state kind)).read db)
    obtain ⟨results, hreply, -⟩ := replyItems_read_hgetall (h.hashlike kind) (h.parses kind)
    rw [hreply] at hdoes
    exact hdoes.thrown
  | init allData call multi hbuild =>
    obtain rfl := Option.some.inj hcb
    exact (onInitExec_does call _).thrown
  | inited call =>
    obtain rfl := Option.some.inj hcb
    generalize ((Command.existsKey (initedKey state)).serve db session fault).reply = reply
    exact (onInitedExists_does call reply).thrown
  | metadata call =>
    obtain rfl := Option.some.inj hcb
    generalize ((Command.get (state.itemsPrefix ++ keyLastUpToDate)).serve db session fault).reply =
      reply
    cases reply <;> rfl
  | includes userHash call =>
    obtain rfl := Option.some.inj hcb
    unfold Callback.resume onIncludedRefs
    dsimp only
    split_ifs <;> rfl
  | excludes userHash refs call =>
    obtain rfl := Option.some.inj hcb
    unfold Callback.resume onExcludedRefs
    dsimp only
    split_ifs <;> rfl

/-- The code of an operation throws nothing, if an init is given items. -/
theorem start_thrown {op : Op} (hop : op.GivesItems) (state : StoreState) (call : CallId) :
    (op.start state call).thrown = [] := by
  cases op with
  | getInternal kind key =>
    cases h : state.down with
    | false => exact (getInternal_does_of_up h kind key call).thrown
    | true => exact (getInternal_does_of_down h kind key call).thrown
  | getAllInternal kind =>
    cases h : state.down with
    | false => exact (getAllInternal_does_of_up h kind call).thrown
    | true => exact (getAllInternal_does_of_down h kind call).thrown
  | initInternal allData =>
    obtain ⟨multi, hbuild⟩ := hop.buildInit state
    exact (initInternal_does_of_ok hbuild call).thrown
  | upsertInternal kind item =>
    cases h : state.down with
    | false => exact (upsertInternal_does_of_up h kind item call).thrown
    | true => exact (upsertInternal_does_of_down h kind item call).thrown
  | initializedInternal => exact (initializedInternal_does state call).thrown
  | getMetadata => rfl
  | getUserMembership userHash => rfl

/-! ## Runs -/

/-- Code that throws nothing passes a callback of its call or answers it. -/
theorem Js.Settles.account {code : Code Unit} {call : CallId} {op : Op} (h : code.Settles)
    (hthrown : code.thrown = []) (hworks : WorksFor code call op) :
    (code.passed.countP fun cb => cb.call = call) + (code.answered.countP fun a => a.1 = call) = 1 := by
  have hpassed : (code.passed.countP fun cb => cb.call = call) = code.passed.length :=
    List.countP_eq_length.2 fun cb hcb => decide_eq_true (hworks.passed hcb).1
  have hanswered : (code.answered.countP fun a => a.1 = call) = code.answered.length :=
    List.countP_eq_length.2 fun a ha => decide_eq_true (hworks.answered a ha)
  unfold Js.Settles at h
  rw [hthrown, List.length_nil] at h
  omega

/-- A call gives items, and another program puts nothing else under the keys of the kinds. -/
def Label.GivesItems {ι : Type} (state : StoreState) : Label ι → Prop
  | .call _ op => op.GivesItems
  | .foreign values => ∀ v ∈ values, ∀ kind, v.1 = itemsKey state kind → Encoded v.2
  | _ => True

namespace Sys

variable {ι : Type} [DecidableEq ι] {s t u v : Sys ι} {l : Label ι} {ls : List (Label ι)}
  {state : StoreState} {n : ι → CallId}

/-- The call waits for a reply or has its answer. -/
def Settled (s : Sys ι) (c : ι) (call : CallId) : Prop :=
  0 < (s.conn c).awaiting call + answersTo c call s.log

/-- The hashes hold items, and of the calls with the numbers from `n` on none is lost. -/
structure Intact (state : StoreState) (n : ι → CallId) (s : Sys ι) : Prop where
  queued : ∀ c, (s.conn c).Queued
  called : Called s
  gives : ∀ c call op, .called c call op ∈ s.log → op.GivesItems
  encoded : HoldsEncoded state s.db
  harmless : ∀ c, (s.conn c).state.itemsPrefix = state.itemsPrefix → ∀ p ∈ (s.conn c).outbox,
    n c ≤ p.1.call → Harmless p
  settled : ∀ c, (s.conn c).state.itemsPrefix = state.itemsPrefix → ∀ call, n c ≤ call →
    call < s.calls c → Settled s c call

/-- The callback of a command in an inbox is of a call that gives items. -/
theorem Intact.request (hs : Intact state n s) {c : ι} {r : Request} (hr : r ∈ (s.conn c).inbox)
    {cb : Callback} (hcb : r.callback = some cb) : cb.op.GivesItems :=
  hs.gives c cb.call cb.op (hs.called.pending c cb (Conn.mem_callbacks.2 (.inr ⟨r, hr, hcb⟩)))

/-- Every step leaves items in the hashes. -/
theorem Intact.encoded_step (hs : Intact state n s) (hl : l.GivesItems state)
    (h : step s l = some t) : HoldsEncoded state t.db := by
  rcases db_of_step h with hdb | ⟨c, fault, request, hmem, hdb⟩ | ⟨values, rfl, hdb⟩
  · rw [hdb]
    exact hs.encoded
  · rw [hdb]
    exact ((hs.queued c).inbox request hmem).encoded_serve (fun cb hcb => hs.request hmem hcb)
      hs.encoded _ fault
  · rw [holdsEncoded_iff]
    intro kind
    rcases hdb (itemsKey state kind) with hkept | ⟨v, hv, hkey, hvalue⟩
    · rw [hkept]
      exact holdsEncoded_iff.1 hs.encoded kind
    · rw [hvalue]
      exact hl v hv kind hkey

/-- The replies that wait are read, or are those of earlier calls. -/
theorem Intact.harmless_step (hs : Intact state n s) (h : step s l = some t) {c : ι}
    (hc : (s.conn c).state.itemsPrefix = state.itemsPrefix) :
    ∀ p ∈ (t.conn c).outbox, n c ≤ p.1.call → Harmless p := by
  rintro ⟨cb, reply⟩ hp hcall
  rcases outbox_of_step h hp with hp | ⟨rfl, -⟩ | ⟨fault, request, rest, -, hstep, hcb, hreply, -⟩
  · exact hs.harmless c hc _ hp hcall
  · exact harmless_error ((queued_step hs.queued h c).outbox _ hp)
  · have hmem : request ∈ (s.conn c).inbox := by
      rw [hstep.inbox]
      exact List.mem_cons_self
    have hissued : Issued state request := ((hs.queued c).inbox request hmem).congr hc
    rw [← hreply]
    exact harmless_served hissued hcb hs.encoded _ fault

/-- No call is lost. -/
theorem Intact.settled_step (hs : Intact state n s) (hl : l.GivesItems state)
    (h : step s l = some t) {c : ι} (hc : (s.conn c).state.itemsPrefix = state.itemsPrefix)
    {call : CallId} (hn : n c ≤ call) (hcall : call < t.calls c) : Settled t c call := by
  have hold : call < s.calls c → 0 < (s.conn c).awaiting call + answersTo c call s.log :=
    hs.settled c hc call hn
  unfold Settled
  cases step_conn h c with
  | call op hstep =>
    rw [hstep.calls, Function.update_self] at hcall
    have hawaiting : (t.conn c).awaiting call = (s.conn c).awaiting call +
        ((op.start (s.conn c).state (s.calls c)).passed.countP fun cb => cb.call = call) := by
      unfold Conn.awaiting
      rw [hstep.callbacks, List.countP_append]
    have hanswers : answersTo c call t.log = answersTo c call s.log +
        ((op.start (s.conn c).state (s.calls c)).answered.countP fun a => a.1 = call) := by
      rw [hstep.log, answersTo_append, ← answersTo_eventsOf c call]
      rfl
    rcases Nat.lt_succ_iff_lt_or_eq.1 hcall with hlt | rfl
    · have hpos := hold hlt
      omega
    · -- The code of the new call.
      have hone := (start_settles (s.conn c).state (s.calls c) op).account (start_thrown hl _ _)
        (start_worksFor _ _ op)
      omega
  | serve request rest fault hstep =>
    rw [hstep.awaiting, hstep.log, answersTo_append, answersTo_of_not_answers rfl, Nat.add_zero]
    exact hold (hstep.calls ▸ hcall)
  | deliver cb reply rest hstep =>
    have hmem : (cb, reply) ∈ (s.conn c).outbox := by
      rw [hstep.outbox]
      exact List.mem_cons_self
    have hcb : Awaited cb := (hs.queued c).outbox _ hmem
    have hpos := hold (hstep.calls ▸ hcall)
    have hawaiting := hstep.awaiting call
    rw [hstep.log, answersTo_append, answersTo_eventsOf]
    by_cases hown : cb.call = call
    · -- The callback of the call runs, and throws nothing.
      subst hown
      have hone := (resume_settles hcb (s.conn c).state reply).account
        (hs.harmless c hc _ hmem hn _) (resume_worksFor hcb reply)
      rw [if_pos rfl] at hawaiting
      omega
    · rw [if_neg hown] at hawaiting
      omega
  | lose kept hstep =>
    rw [hstep.awaiting, hstep.log, answersTo_append, answersTo_of_not_answers rfl, Nat.add_zero]
    exact hold (hstep.calls ▸ hcall)
  | regain hstep =>
    have hawaiting : (t.conn c).awaiting call = (s.conn c).awaiting call := by
      rw [hstep.self]
      rfl
    rw [hawaiting, hstep.log, answersTo_append, answersTo_of_not_answers rfl, Nat.add_zero]
    exact hold (hstep.calls ▸ hcall)
  | other l hlc hstep =>
    obtain ⟨es, hes, hconn⟩ := step_log_conn h
    have hawaiting : (t.conn c).awaiting call = (s.conn c).awaiting call := by
      rw [hstep]
      rfl
    rw [hawaiting, hes, answersTo_append]
    have hpos := hold (step_calls h hlc ▸ hcall)
    omega

/-- So every step keeps them. -/
theorem intact_step (hs : Intact state n s) (hl : l.GivesItems state) (h : step s l = some t) :
    Intact state n t where
  queued := queued_step hs.queued h
  called := called_step hs.queued hs.called h
  gives c call op hcalled := by
    rcases called_of_step h hcalled with hcalled | ⟨rfl, -⟩
    · exact hs.gives c call op hcalled
    · exact hl
  encoded := hs.encoded_step hl h
  harmless c hc := hs.harmless_step h ((step_itemsPrefix h c).symm.trans hc)
  settled c hc _ hn hcall := hs.settled_step hl h ((step_itemsPrefix h c).symm.trans hc) hn hcall

/-- And every run. -/
theorem intact_run (hs : Intact state n s) (hls : ∀ l ∈ ls, l.GivesItems state)
    (h : run s ls = some t) : Intact state n t :=
  Transition.run_invariant (fun _ _ _ hs hl hstep => intact_step hs hl hstep) hs
    (Transition.Along.of_forall fun _ => hls) h

/-- Each of the calls waits for one reply or has one answer. -/
theorem Intact.account_eq_one (ht : Intact state n t) (honce : Once t) {c : ι}
    (hc : (t.conn c).state.itemsPrefix = state.itemsPrefix) {call : CallId} (hn : n c ≤ call)
    (hcall : call < t.calls c) : (t.conn c).awaiting call + answersTo c call t.log = 1 := by
  have hle := honce c call
  have hpos : 0 < (t.conn c).awaiting call + answersTo c call t.log := ht.settled c hc call hn hcall
  omega

/-- In every run of any number of connections, with any faults, lost connections, aborts and overlapping
calls, from a database whose hashes hold items, where inits are given items of known kinds and other
programs put nothing else under the keys of the kinds: the hashes go on holding items, no exception
escapes from the stores with this prefix, and each of their calls has one callback that waits or one
answer. -/
theorem reads_back (h₀ : Fresh s) (henc : HoldsEncoded state s.db)
    (hls : ∀ l ∈ ls, l.GivesItems state) (h : run s ls = some t) :
    HoldsEncoded state t.db ∧ ∀ c, (s.conn c).state.itemsPrefix = state.itemsPrefix →
      t.log.countP (Event.throwsOn c) = 0 ∧ ∀ call, s.calls c ≤ call → call < t.calls c →
        (t.conn c).awaiting call + answersTo c call t.log = 1 := by
  have hstart : Intact state s.calls s :=
    { queued := h₀.queued
      called := h₀.called
      gives := fun c call op hcalled => by simp [h₀.log] at hcalled
      encoded := henc
      harmless := fun c _ p hp => by simp [h₀.outbox c] at hp
      settled := fun c _ call hn hcall => absurd hcall (not_lt.2 hn) }
  have ht := intact_run hstart hls h
  refine ⟨ht.encoded, fun c hc => ?_⟩
  have hone : ∀ call, s.calls c ≤ call → call < t.calls c →
      (t.conn c).awaiting call + answersTo c call t.log = 1 := fun call hn hcall =>
    ht.account_eq_one (answered_once h₀ h) ((run_itemsPrefix h c).trans hc) hn hcall
  refine ⟨?_, hone⟩
  -- The exceptions are as many as the calls that are lost.
  rw [← card_unsettled h₀ h c, Finset.card_eq_zero, Finset.filter_eq_empty_iff]
  intro call hmem
  obtain ⟨hn, hcall⟩ := Finset.mem_Ico.1 hmem
  rw [hone call hn hcall]
  exact one_ne_zero

/-- A connection that is lost between the commands of an upsert whose data others replace. -/
def disturbedUpsert : List (Label Unit) :=
  [.call () (.upsertInternal .features (.ofVersion "f" 1)), .serve () .none, .serve () .error,
    .foreign [(itemsKey connectedState .features, none)], .deliver (), .lose () 0, .deliver (),
    .call () (.getAllInternal .features), .regain (), .call () (.getInternal .features "f"),
    .serve () .none, .deliver ()]

/-- Its three calls are answered, and no exception escapes. -/
theorem reads_back_disturbed :
    ∃ t : Sys Unit, run (opened (fun _ => none) fun _ => connectedState) disturbedUpsert = some t ∧
      t.log.countP (Event.throwsOn ()) = 0 ∧ ∀ call, 0 ≤ call → call < t.calls () →
        (t.conn ()).awaiting call + answersTo () call t.log = 1 := by
  have hsome : (run (opened (fun _ => none) fun _ => connectedState) disturbedUpsert).isSome := by
    decide +kernel
  obtain ⟨t, ht⟩ := Option.isSome_iff_exists.1 hsome
  have hls : ∀ l ∈ disturbedUpsert, l.GivesItems connectedState := by
    have hnone : Encoded none := ⟨trivial, fun _ _ htext => by cases htext⟩
    simp [disturbedUpsert, Label.GivesItems, Op.GivesItems, hnone]
  exact ⟨t, ht, (reads_back (opened_fresh _ _) (holdsEncoded_empty _) hls ht).2 () rfl⟩

omit [DecidableEq ι] in
/-- The init whose transaction is next has its callback with it. -/
theorem callback_of_nextInit {requests : List Request} {multi : Multi} {allData : AllData}
    (h : nextInit requests = some (multi, allData)) :
    ∃ r ∈ requests, ∃ call, r.callback = some (.initExec allData call) := by
  unfold nextInit at h
  split at h
  · next multi' allData' call rest =>
    obtain ⟨rfl, rfl⟩ := Prod.mk.inj (Option.some.inj h)
    exact ⟨_, List.mem_cons_self, call, rfl⟩
  · cases h

/-- The commit of an init that names both kinds leaves items in the hashes, whatever was there. -/
theorem holdsEncoded_of_init (hq : ∀ c, (s.conn c).Queued) {c : ι} {fault : Fault} {multi : Multi}
    {allData : AllData} (hinit : nextInit (s.conn c).inbox = some (multi, allData))
    (hclean : (s.conn c).session.dirty = false) (hfault : fault ≠ .error)
    (hallowed : ∀ w ∈ multi, w ∉ fault.refused) (hitems : HasItems allData)
    (hkinds : ∀ kind : Kind, kind.namespaceName ∈ allData)
    (h : step s (.serve c fault) = some t) : HoldsEncoded (s.conn c).state t.db := by
  obtain ⟨request, rest, hstep⟩ := serve_step h
  have hmem : request ∈ (s.conn c).inbox := by
    rw [hstep.inbox]
    exact List.mem_cons_self
  have hissued := (hq c).inbox request hmem
  rw [hstep.inbox] at hinit
  rw [hstep.db]
  cases hissued with
  | init allData' call multi' hbuild =>
    obtain ⟨rfl, rfl⟩ := Prod.mk.inj (Option.some.inj hinit)
    rw [outcome, Command.serve_exec_of_clean multi' s.db hclean hfault]
    dsimp only
    rw [runAllowed_of_not_mem hallowed]
    exact holdsEncoded_buildInit hbuild hitems hkinds s.db
  | _ => cases hinit

/-- In every run, whatever other programs have left in the database: once an init that names both kinds
is committed, with none of its writes refused, and others put nothing but items under the keys of the
kinds from then on, the hashes hold items, and each call that is made from then on by a store with this
prefix has one callback that waits or one answer. -/
theorem init_mends {ls₁ ls₂ : List (Label ι)} (h₀ : Fresh s) (hu : run s ls₁ = some u) {c : ι}
    {fault : Fault} {multi : Multi} {allData : AllData}
    (hinit : nextInit (u.conn c).inbox = some (multi, allData))
    (hclean : (u.conn c).session.dirty = false) (hfault : fault ≠ .error)
    (hallowed : ∀ w ∈ multi, w ∉ fault.refused)
    (hkinds : ∀ kind : Kind, kind.namespaceName ∈ allData)
    (huv : step u (.serve c fault) = some v) (hcalls : ∀ d op, .call d op ∈ ls₁ → op.GivesItems)
    (hls : ∀ l ∈ ls₂, l.GivesItems (s.conn c).state) (h : run v ls₂ = some t) :
    HoldsEncoded (s.conn c).state t.db ∧ ∀ d,
      (s.conn d).state.itemsPrefix = (s.conn c).state.itemsPrefix → ∀ call, v.calls d ≤ call →
        call < t.calls d → (t.conn d).awaiting call + answersTo d call t.log = 1 := by
  have hq : ∀ d, (u.conn d).Queued := queued_run h₀ hu
  have hcalled : Called u := called_run h₀ hu
  have hrun : run s (ls₁ ++ [.serve c fault]) = some v := Transition.run_concat_eq_some.2 ⟨u, hu, huv⟩
  have hgives : ∀ d call op, .called d call op ∈ v.log → op.GivesItems := by
    intro d call op hmem
    exact hcalls d op (by simpa using mem_of_called h₀ hrun hmem)
  obtain ⟨r, hr, call₀, hcb⟩ := callback_of_nextInit hinit
  have hpending : .called c call₀ (.initInternal allData) ∈ u.log :=
    hcalled.pending c _ (Conn.mem_callbacks.2 (.inr ⟨r, hr, hcb⟩))
  have hgiven : (Op.initInternal allData).GivesItems :=
    hgives c call₀ _ (mem_log_of_step huv hpending)
  have hheld : HoldsEncoded (u.conn c).state v.db :=
    holdsEncoded_of_init hq hinit hclean hfault hallowed hgiven.2 hkinds huv
  have henc : HoldsEncoded (s.conn c).state v.db := hheld.of_itemsPrefix (run_itemsPrefix hu c)
  have hcalled' : Called v := called_run h₀ hrun
  -- Every callback that waits at the commit is of an earlier call.
  have hstart : Intact (s.conn c).state v.calls v :=
    { queued := queued_run h₀ hrun
      called := hcalled'
      gives := hgives
      encoded := henc
      harmless := fun d _ p hp hn => by
        have hmem := Conn.mem_callbacks.2 (.inl ⟨p.2, hp⟩)
        exact absurd hn (not_le.2 (hcalled'.fresh d _ _ (hcalled'.pending d p.1 hmem)))
      settled := fun d _ call hn hcall => absurd hcall (not_lt.2 hn) }
  have ht := intact_run hstart hls h
  have hwhole : run s (ls₁ ++ [.serve c fault] ++ ls₂) = some t :=
    Transition.run_append_eq_some.2 ⟨v, hrun, h⟩
  refine ⟨ht.encoded, fun d hd call hn hcall => ?_⟩
  exact ht.account_eq_one (answered_once h₀ hwhole) ((run_itemsPrefix hwhole d).trans hd) hn hcall

/-- A database where another program has left a text that is no item. -/
def poisonedDb : Db := Function.update (fun _ => none) (itemsKey connectedState .features)
  (some (.hash ((∅ : Fields).insert "f" "oops")))

/-- The data of an init of both kinds. -/
def wholeData : AllData := (sampleData "f" 1).insert "segments" ∅

/-- It gives items of known kinds. -/
theorem wholeData_givesItems : (Op.initInternal wholeData).GivesItems := by
  have hentries : ∀ e ∈ wholeData.entries, e = ⟨"segments", ∅⟩ ∨ e ∈ (sampleData "f" 1).entries := by
    intro e he
    unfold wholeData at he
    rw [AList.entries_insert] at he
    exact (List.mem_cons.mp he).imp_right fun hmem => (List.kerase_sublist _ _).subset hmem
  constructor
  · intro e he
    rcases hentries e he with rfl | hmem
    · exact ⟨.segments, rfl⟩
    · obtain rfl := List.mem_singleton.1 hmem
      exact ⟨.features, rfl⟩
  · intro e he item hitem
    rcases hentries e he with rfl | hmem
    · cases hitem
    · obtain rfl := List.mem_singleton.1 hmem
      obtain rfl := List.mem_singleton.1 hitem
      exact ⟨_, rfl, by simp⟩

/-- A read of that text, which throws, and an init. -/
def beforeMending : List (Label Unit) :=
  [.call () (.getInternal .features "f"), .serve () .none, .deliver (), .call () (.initInternal wholeData)]

/-- The callback of the init, and a read of the key. -/
def afterMending : List (Label Unit) :=
  [.call () (.getInternal .features "f"), .deliver (), .serve () .none, .deliver ()]

/-- The later read is answered. -/
theorem init_mends_poisoned :
    ∃ v t : Sys Unit, run (opened poisonedDb fun _ => connectedState)
        (beforeMending ++ [.serve () .none]) = some v ∧ run v afterMending = some t ∧
      HoldsEncoded connectedState t.db ∧ ∀ call, v.calls () ≤ call → call < t.calls () →
        (t.conn ()).awaiting call + answersTo () call t.log = 1 := by
  have hend : (run (opened poisonedDb fun _ => connectedState)
      (beforeMending ++ .serve () .none :: afterMending)).isSome := by decide +kernel
  obtain ⟨t, ht⟩ := Option.isSome_iff_exists.1 hend
  obtain ⟨u, hu, hrest⟩ := Transition.run_append_eq_some.1 ht
  obtain ⟨v, huv, hv⟩ := Transition.run_cons_eq_some.1 hrest
  -- The transaction of the init is next.
  have hnext : (run (opened poisonedDb fun _ => connectedState) beforeMending).map (fun u =>
      ((nextInit (u.conn ()).inbox).any fun p => "features" ∈ p.2 && "segments" ∈ p.2,
        (u.conn ()).session.dirty)) = some (true, false) := by decide +kernel
  rw [show run _ beforeMending = some u from hu, Option.map_some, Option.some_inj] at hnext
  obtain ⟨hany, hclean⟩ := Prod.mk.inj hnext
  obtain ⟨⟨multi, allData⟩, hinit, hboth⟩ := (Option.any_eq_true _ _).1 hany
  have hkinds : ∀ kind : Kind, kind.namespaceName ∈ allData := by
    rw [Bool.and_eq_true, decide_eq_true_eq, decide_eq_true_eq] at hboth
    intro kind
    cases kind with
    | features => exact hboth.1
    | segments => exact hboth.2
  have hcalls : ∀ d op, .call d op ∈ beforeMending → op.GivesItems := by
    intro d op hmem
    simp only [beforeMending, List.mem_cons, Label.call.injEq, reduceCtorEq, List.not_mem_nil] at hmem
    rcases hmem with ⟨-, rfl⟩ | hmem | hmem | ⟨-, rfl⟩ | hmem
    · trivial
    · exact absurd hmem id
    · exact absurd hmem id
    · exact wholeData_givesItems
    · exact absurd hmem id
  have hls : ∀ l ∈ afterMending, l.GivesItems connectedState := by
    simp [afterMending, Label.GivesItems, Op.GivesItems]
  obtain ⟨henc, hsettled⟩ := init_mends (opened_fresh _ _) hu hinit hclean (by decide)
    (fun _ _ => List.not_mem_nil) hkinds huv hcalls hls hv
  exact ⟨v, t, Transition.run_concat_eq_some.2 ⟨u, hu, huv⟩, hv, henc, hsettled () rfl⟩

end Sys

end RedisStore
