import RedisStore.Semantics.Contents
import RedisStore.Commit
import RedisStore.Calls
import RedisStore.Version

/-!
# Runs of a set of upserts

A run that executes a set of upserts to their callbacks ends with what `Versioned.Highest` says of
each field: the item of the highest version among the stored one and those upserted
(`UpsertRun.highest`). This needs that stored versions never decrease, for which there are different
reasons in different runs, and that an upsert is answered only when an item of its version or a higher
one is stored (`Stored`): it was rejected for such an item, or it has written its own.
-/

namespace RedisStore

open Redis Versioned

/-- The calls are of upserts in `U`, or of reads. -/
def Op.From (U : Kind → Item → Prop) : Op → Prop
  | .initInternal _ => False
  | .upsertInternal kind item => U kind item
  | _ => True

/-- The calls of a step are of upserts in `U`, or of reads. -/
def CallsFrom {ι : Type} (U : Kind → Item → Prop) : Label ι → Prop
  | .call _ op => op.From U
  | _ => True

/-- The texts that the upserts of `U` write in a field. -/
def textsOf (U : Kind → Item → Prop) (kind : Kind) (field : String) : Set String :=
  {text | ∃ item, U kind item ∧ item.key = field ∧ text = item.text}

/-- A text that is stored under the key of an upsert in `U` has an integer version, or the check of
that upsert lets it go on. -/
def Comparable (U : Kind → Item → Prop) (state : StoreState) (db : Db) : Prop :=
  ∀ kind item, U kind item → ∀ text, fieldOf (db (itemsKey state kind)) item.key = some text →
    (textVersion text).isSome = true ∨ ∀ oldItem, replyVerdict (.str text) item ≠ .reject oldItem

/-- An item of the version of the upserted one, or of a higher one, is stored. -/
def Stored (db : Db) (state : StoreState) (kind : Kind) (item : Item) : Prop :=
  AtLeast textVersion (fieldOf (db (itemsKey state kind)) item.key) item.version

namespace Sys

variable {ι : Type} [DecidableEq ι] {s t : Sys ι} {l : Label ι} {U : Kind → Item → Prop}
  {state : StoreState} {db₀ : Db}

/-- What holds throughout a run of upserts in `U` that starts with the database `db₀`. -/
structure Upserting (U : Kind → Item → Prop) (state : StoreState) (db₀ : Db) (s : Sys ι) : Prop where
  queued : ∀ c, (s.conn c).Queued
  up : ∀ c, (s.conn c).state.down = false
  called : Called s
  itemsPrefix : ∀ c, (s.conn c).state.itemsPrefix = state.itemsPrefix
  /-- Every call is of an upsert in `U` or of a read. -/
  calls : ∀ c call op, .called c call op ∈ s.log → op.From U
  hashlike : ∀ kind, Hashlike (s.db (itemsKey state kind))
  /-- Every text is from the start or from an upsert. -/
  source : ∀ kind field, fieldOf (s.db (itemsKey state kind)) field =
      fieldOf (db₀ (itemsKey state kind)) field ∨
    ∃ text ∈ textsOf U kind field, fieldOf (s.db (itemsKey state kind)) field = some text
  /-- No version is lower than at the start. -/
  grown : ∀ kind field v, storedVersion (db₀ (itemsKey state kind)) field = some v →
    AtLeast textVersion (fieldOf (s.db (itemsKey state kind)) field) v
  rejected : ∀ c kind item call reply oldItem,
    (.hget kind item.key (.update kind item [] call), reply) ∈ (s.conn c).outbox →
      replyVerdict reply item = .reject oldItem → Stored s.db state kind item
  written : ∀ c kind item call reply, (.upsertExec kind item call, reply) ∈ (s.conn c).outbox →
    reply ≠ .nil → Stored s.db state kind item
  answered : ∀ c call a kind item, .answered c call a ∈ s.log →
    .called c call (.upsertInternal kind item) ∈ s.log → Stored s.db state kind item

omit [DecidableEq ι] in
/-- The operation of a callback that waits is among the calls. -/
theorem Upserting.from_of_callback (hs : Upserting U state db₀ s) {c : ι} {cb : Callback}
    (hcb : cb ∈ (s.conn c).callbacks) : cb.op.From U :=
  hs.calls c cb.call cb.op (hs.called.pending c cb hcb)

omit [DecidableEq ι] in
/-- The operation of a request in the inbox is among the calls. -/
theorem Upserting.from_of_request (hs : Upserting U state db₀ s) {c : ι} {r : Request}
    {cb : Callback} (hr : r ∈ (s.conn c).inbox) (hcb : r.callback = some cb) : cb.op.From U :=
  hs.from_of_callback (Conn.mem_callbacks.2 (.inr ⟨r, hr, hcb⟩))

/-- No init commits. -/
theorem Upserting.not_initCommits (hs : Upserting U state db₀ s) (h : step s l = some t) (c : ι)
    (allData : AllData) : ¬ InitCommits s t c allData := by
  rintro ⟨queue, call, rs, touched, hlog⟩
  obtain ⟨rest, fault, -, hstep, -⟩ := serve_of_executed h hlog
  exact hs.from_of_request (by rw [hstep.inbox]; exact List.mem_cons_self) rfl

/-- The step decreases no stored version. -/
def Grows (s t : Sys ι) (state : StoreState) : Prop :=
  ∀ kind field v, AtLeast textVersion (fieldOf (s.db (itemsKey state kind)) field) v →
    AtLeast textVersion (fieldOf (t.db (itemsKey state kind)) field) v

omit [DecidableEq ι] in
/-- What an executed upsert leaves: its own text in its field, and the rest as it was. -/
theorem Upserting.fieldOf_of_commit (hs : Upserting U state db₀ s) {c : ι} {kind : Kind} {item : Item}
    (hdb : t.db = (runWrites [.hset (itemsKey (s.conn c).state kind) item.key item.text] s.db).db)
    (kind' : Kind) (field : String) :
    fieldOf (t.db (itemsKey state kind')) field =
      if kind' = kind ∧ field = item.key then some item.text
      else fieldOf (s.db (itemsKey state kind')) field := by
  rw [hdb, itemsKey_congr (hs.itemsPrefix c), fieldOf_runWrites_hset (hs.hashlike kind)]
  simp only [itemsKey_inj]

omit [DecidableEq ι] in
/-- A text that rejects an upsert in `U` has a version. -/
theorem Upserting.version_of_reject (hs : Upserting U state db₀ s) (hstart : Comparable U state db₀)
    {kind : Kind} {item : Item} (hU : U kind item) {text : String}
    (htext : fieldOf (s.db (itemsKey state kind)) item.key = some text) {oldItem : Json}
    (hreject : replyVerdict (.str text) item = .reject oldItem) : ∃ v, textVersion text = some v := by
  -- A text from the start may be compared by assumption; any other is an item's.
  rcases hs.source kind item.key with hsame | ⟨text', ⟨item', -, -, rfl⟩, htext'⟩
  · rcases hstart kind item hU text (hsame ▸ htext) with hsome | hwrite
    · exact Option.isSome_iff_exists.1 hsome
    · exact absurd hreject (hwrite oldItem)
  · rw [htext] at htext'
    obtain rfl := Option.some.inj htext'
    exact ⟨item'.version, textVersion_text item'⟩

omit [DecidableEq ι] in
/-- An executed upsert is stored. -/
theorem Upserting.stored_of_commit (hs : Upserting U state db₀ s) {c : ι} {kind : Kind} {item : Item}
    (hdb : t.db = (runWrites [.hset (itemsKey (s.conn c).state kind) item.key item.text] s.db).db) :
    Stored t.db state kind item := by
  refine ⟨item.version, ?_, le_rfl⟩
  rw [hs.fieldOf_of_commit hdb, if_pos ⟨rfl, rfl⟩, Option.bind_some, textVersion_text]

/-- The contents of the fields after a step. -/
theorem Upserting.source_of_step (hs : Upserting U state db₀ s) (hl : Undisturbed l)
    (h : step s l = some t) (kind : Kind) :
    Hashlike (t.db (itemsKey state kind)) ∧ ∀ field,
      fieldOf (t.db (itemsKey state kind)) field = fieldOf (db₀ (itemsKey state kind)) field ∨
        ∃ text ∈ textsOf U kind field, fieldOf (t.db (itemsKey state kind)) field = some text := by
  have hforeign : ∀ values, l ≠ .foreign values := by
    rintro values rfl
    exact hl
  cases change_of_step hs.queued h hforeign with
  | none hno hdb =>
    rw [hdb]
    exact ⟨hs.hashlike kind, hs.source kind⟩
  | init c fault allData call multi rest hserve hfault hin hclean hbuild hdb hlog =>
    exact absurd ⟨multi, call, _, _, hlog⟩ (hs.not_initCommits h c allData)
  | upsert c fault kind' item call rest hserve hfault hin hclean hdb hlog =>
    subst hserve
    obtain rfl : fault = .none := hl
    rw [Fault.refused, runAllowed_nil] at hdb
    have hcb : (writeRequest (s.conn c).state kind' item call).callback =
        some (.upsertExec kind' item call) := rfl
    have hU : U kind' item := hs.from_of_request (by rw [hin]; exact List.mem_cons_self) hcb
    constructor
    · -- The write leaves a hash under its key, and other keys alone.
      rw [hdb, itemsKey_congr (hs.itemsPrefix c), runWrites_hset]
      by_cases hk : itemsKey state kind = itemsKey state kind'
      · rw [hk, Function.update_self]
        exact hashlike_hset (hs.hashlike kind') _ _ _
      · rw [Function.update_of_ne hk]
        exact hs.hashlike kind
    · intro field
      rw [hs.fieldOf_of_commit hdb]
      split_ifs with hf
      · obtain ⟨rfl, rfl⟩ := hf
        exact .inr ⟨item.text, ⟨item, hU, rfl, rfl⟩, rfl⟩
      · exact hs.source kind field

omit [DecidableEq ι] in
/-- A read that rejects an upsert has found an item of its version or a higher one. -/
theorem Upserting.stored_of_read (hs : Upserting U state db₀ s) (hstart : Comparable U state db₀)
    {c : ι} {kind : Kind} {item : Item} (hU : U kind item) {oldItem : Json}
    (h : replyVerdict ((Command.hget (itemsKey (s.conn c).state kind) item.key).read s.db) item =
      .reject oldItem) : Stored s.db state kind item := by
  obtain ⟨text, htext, hparse, -, hge⟩ := fieldOf_of_reject h
  rw [itemsKey_congr (hs.itemsPrefix c)] at h htext
  rw [read_hget (hs.hashlike kind), htext] at h
  obtain ⟨v, hv⟩ := hs.version_of_reject hstart hU htext h
  -- The text is an item's, so that the check has compared the versions.
  have hj : oldItem.itemVersion = some v := by
    rw [textVersion, hparse] at hv
    exact hv
  rw [Json.geNumber_itemVersion hj, Except.ok.injEq, decide_eq_true_eq] at hge
  exact ⟨v, by rw [htext, Option.bind_some, hv], hge⟩

omit [DecidableEq ι] in
/-- What is stored stays stored when no version decreases. -/
theorem Grows.stored (hgrows : Grows s t state) {kind : Kind} {item : Item}
    (h : Stored s.db state kind item) : Stored t.db state kind item :=
  hgrows kind item.key item.version h

/-- A reply that rejects an upsert is that of the read, or was there before. -/
theorem Upserting.stored_of_rejected (hs : Upserting U state db₀ s) (hstart : Comparable U state db₀)
    (hl : Undisturbed l) (hgrows : Grows s t state) (h : step s l = some t) {c : ι} {kind : Kind}
    {item : Item} {call : CallId} {reply : Reply} {oldItem : Json}
    (hmem : (.hget kind item.key (.update kind item [] call), reply) ∈ (t.conn c).outbox)
    (hreject : replyVerdict reply item = .reject oldItem) : Stored t.db state kind item := by
  rcases outbox_of_step h hmem with hmem | ⟨-, hdist⟩ | ⟨fault, request, rest, rfl, hstep, hcb, hr, -⟩
  · exact hgrows.stored (hs.rejected c kind item call reply oldItem hmem hreject)
  · exact absurd (hl.faultless c) hdist
  · obtain rfl : fault = .none := hl
    have hin : request ∈ (s.conn c).inbox := by rw [hstep.inbox]; exact List.mem_cons_self
    have hissued := (hs.queued c).inbox request hin
    have hU : U kind item := hs.from_of_request hin hcb
    obtain rfl := hissued.eq_readRequest hcb
    have hread : (outcome s c (readRequest (s.conn c).state kind item call) .none).reply =
        (Command.hget (itemsKey (s.conn c).state kind) item.key).read s.db := rfl
    rw [← hr, hread] at hreject
    exact hgrows.stored (hs.stored_of_read hstart hU hreject)

/-- A reply to the transaction of an upsert that was not aborted comes from its execution, or was there
before. -/
theorem Upserting.stored_of_written (hs : Upserting U state db₀ s) (hl : Undisturbed l)
    (hgrows : Grows s t state) (h : step s l = some t) {c : ι} {kind : Kind} {item : Item}
    {call : CallId} {reply : Reply}
    (hmem : (.upsertExec kind item call, reply) ∈ (t.conn c).outbox) (hnil : reply ≠ .nil) :
    Stored t.db state kind item := by
  rcases outbox_of_step h hmem with hmem | ⟨-, hdist⟩ | ⟨fault, request, rest, rfl, hstep, hcb, hr, -⟩
  · exact hgrows.stored (hs.written c kind item call reply hmem hnil)
  · exact absurd (hl.faultless c) hdist
  · obtain rfl : fault = .none := hl
    have hin : request ∈ (s.conn c).inbox := by rw [hstep.inbox]; exact List.mem_cons_self
    obtain rfl := ((hs.queued c).inbox request hin).eq_writeRequest hcb
    cases hdirty : (s.conn c).session.dirty with
    | true =>
      -- An aborted transaction is answered nil.
      have hout : outcome s c (writeRequest (s.conn c).state kind item call) .none = _ :=
        Command.execute_exec_of_dirty _ s.db hdirty
      exact absurd (by rw [← hr, hout]) hnil
    | false =>
      have hout : outcome s c (writeRequest (s.conn c).state kind item call) .none = _ :=
        Command.execute_exec_of_clean _ s.db hdirty
      exact hs.stored_of_commit (by rw [hstep.db, hout])

/-- An upsert is answered by the callback of its read, which rejects it, or of its transaction. -/
theorem Upserting.stored_of_answered (hs : Upserting U state db₀ s) (hgrows : Grows s t state)
    (h : step s l = some t) {c : ι} {call : CallId} {a : Answer} {kind : Kind} {item : Item}
    (ha : .answered c call a ∈ t.log) (hc : .called c call (.upsertInternal kind item) ∈ t.log) :
    Stored t.db state kind item := by
  have hcalled := called_step hs.queued hs.called h
  rcases answered_of_step hs.queued h ha with ha | ⟨op, rfl, rfl, hmem⟩ |
    ⟨cb, reply, rest, rfl, hout, rfl, hmem⟩
  · rcases called_of_step h hc with hc | ⟨rfl, rfl⟩
    · exact hgrows.stored (hs.answered c call a kind item ha hc)
    · -- No earlier answer has the number of a new call.
      obtain ⟨op, hop⟩ := hs.called.answered c _ a ha
      exact absurd (hs.called.fresh c _ op hop) (lt_irrefl _)
  · -- An upsert is not answered by its call.
    have hnew : .called c (s.calls c) op ∈ t.log := by rw [(call_step h).log]; simp
    obtain rfl := hcalled.unique c _ _ _ hc hnew
    rw [Op.start, (upsertInternal_does_of_up (hs.up c) kind item _).answered] at hmem
    cases hmem
  · have hin : (cb, reply) ∈ (s.conn c).outbox := by rw [hout]; exact List.mem_cons_self
    have hpend := hs.called.pending c cb (Conn.mem_callbacks.2 (.inl ⟨reply, hin⟩))
    have hop := hcalled.unique c _ _ _ hc (mem_log_of_step h hpend)
    refine hgrows.stored ?_
    cases (hs.queued c).outbox _ hin with
    | upsertRead kind' item' call' =>
      cases hop
      have hdoes := onHget_update_does (s.conn c).state kind item.key item call' reply
      rw [Callback.resume] at hmem
      split at hdoes
      · rw [hdoes.answered] at hmem
        cases hmem
      · next oldItem hverdict => exact hs.rejected c kind item call' reply oldItem hin hverdict
      · rw [hdoes.answered] at hmem
        cases hmem
    | upsertWrite kind' item' call' =>
      cases hop
      refine hs.written c kind item call' reply hin ?_
      rintro rfl
      rw [Callback.resume, (onUpsertExec_does_of_nil
        (upsertInternal_does_of_up (hs.up c) kind item call')).answered] at hmem
      cases hmem
    | _ => cases hop

/-- A step keeps all this. -/
theorem upserting_step (hstart : Comparable U state db₀) (hs : Upserting U state db₀ s)
    (hl : Undisturbed l) (hfrom : CallsFrom U l) (hgrows : Grows s t state) (h : step s l = some t) :
    Upserting U state db₀ t where
  queued := queued_step hs.queued h
  up c := up_of_step h (hl.faultless c) (hs.up c)
  called := called_step hs.queued hs.called h
  itemsPrefix c := (step_itemsPrefix h c).trans (hs.itemsPrefix c)
  calls c call op hc := by
    rcases called_of_step h hc with hc | ⟨rfl, -⟩
    · exact hs.calls c call op hc
    · exact hfrom
  hashlike kind := (hs.source_of_step hl h kind).1
  source kind := (hs.source_of_step hl h kind).2
  grown kind field v hv := hgrows kind field v (hs.grown kind field v hv)
  rejected _ _ _ _ _ _ hmem hreject := hs.stored_of_rejected hstart hl hgrows h hmem hreject
  written _ _ _ _ _ hmem hnil := hs.stored_of_written hl hgrows h hmem hnil
  answered _ _ _ _ _ ha hc := hs.stored_of_answered hgrows h ha hc

/-! ## Complete runs -/

/-- A run that executes the upserts of `U` to their callbacks: any number of connections with one
prefix, without errors and lost connections. -/
structure UpsertRun (U : Kind → Item → Prop) (state : StoreState) (s t : Sys ι)
    (ls : List (Label ι)) : Prop where
  fresh : Fresh s
  up : ∀ c, (s.conn c).state.down = false
  itemsPrefix : ∀ c, (s.conn c).state.itemsPrefix = state.itemsPrefix
  labels : ∀ l ∈ ls, Undisturbed l ∧ CallsFrom U l
  run : run s ls = some t
  called : ∀ kind item, U kind item → ∃ c, .call c (.upsertInternal kind item) ∈ ls
  answered : AllAnswered t

/-- At the start. -/
theorem UpsertRun.upserting {ls : List (Label ι)} (h : UpsertRun U state s t ls)
    (hhash : ∀ kind, Hashlike (s.db (itemsKey state kind))) : Upserting U state s.db s where
  queued := h.fresh.queued
  up := h.up
  called := h.fresh.called
  itemsPrefix := h.itemsPrefix
  calls c call op hc := by simp [h.fresh.log] at hc
  hashlike := hhash
  source _ _ := .inl rfl
  grown _ _ v hv := ⟨v, hv, le_rfl⟩
  rejected c _ _ _ _ _ hmem := by simp [h.fresh.outbox c] at hmem
  written c _ _ _ _ hmem := by simp [h.fresh.outbox c] at hmem
  answered _ _ _ _ _ ha := by simp [h.fresh.log] at ha

omit [DecidableEq ι] in
/-- The labels of a complete run, as a condition on its steps. -/
theorem UpsertRun.along [DecidableEq ι] {ls : List (Label ι)} (h : UpsertRun U state s t ls) :
    Along (fun _ l => Undisturbed l ∧ CallsFrom U l) s ls :=
  Transition.Along.of_forall fun _ l hl => h.labels l hl

/-- A complete run leaves the highest version of each field. -/
theorem UpsertRun.highest {ls : List (Label ι)} (h : UpsertRun U state s t ls)
    (ht : Upserting U state s.db t) (kind : Kind) (field : String) :
    Highest textVersion (fieldOf (s.db (itemsKey state kind)) field) (textsOf U kind field)
      (fieldOf (t.db (itemsKey state kind)) field) := by
  refine ⟨ht.source kind field, fun v hv => ht.grown kind field v hv, ?_⟩
  rintro text ⟨item, hU, rfl, rfl⟩ v hv
  rw [textVersion_text] at hv
  obtain rfl := Option.some.inj hv
  -- The item was upserted, and the upsert has been answered.
  obtain ⟨c, hmem⟩ := h.called kind item hU
  obtain ⟨call, hcall⟩ := called_of_mem h.run hmem
  obtain ⟨a, ha⟩ := h.answered c call _ hcall
  exact ht.answered c call a kind item ha hcall

/-- The texts of the upserts have versions. -/
theorem exists_version_of_mem_textsOf {kind : Kind} {field : String} :
    ∀ text ∈ textsOf U kind field, ∃ v, textVersion text = some v := by
  rintro text ⟨item, -, -, rfl⟩
  exact ⟨item.version, textVersion_text item⟩

/-! ## A set of two upserts -/

/-- The upserts of two versions. -/
def twoUpserts (kind : Kind) (item : Item) : Prop :=
  kind = .features ∧ (item = .ofVersion "f" 1 ∨ item = .ofVersion "f" 2)

/-- A run of the two upserts that is complete by its labels and its end. -/
theorem upsertRun_of_labels (c d : ι) {t : Sys ι} {ls : List (Label ι)}
    (hlabels : ∀ l ∈ ls, Undisturbed l ∧ CallsFrom twoUpserts l)
    (hrun : run (opened (sampleDb "f" 0) fun _ => connectedState) ls = some t)
    (hone : .call c (.upsertInternal .features (.ofVersion "f" 1)) ∈ ls)
    (htwo : .call d (.upsertInternal .features (.ofVersion "f" 2)) ∈ ls)
    (hanswered : AllAnswered t) :
    UpsertRun twoUpserts connectedState (opened (sampleDb "f" 0) fun _ => connectedState) t ls where
  fresh := opened_fresh _ _
  up _ := rfl
  itemsPrefix _ := rfl
  labels := hlabels
  run := hrun
  called := by
    rintro kind item ⟨rfl, rfl | rfl⟩
    · exact ⟨c, hone⟩
    · exact ⟨d, htwo⟩
  answered := hanswered

/-- The sample database holds hashes. -/
theorem hashlike_sampleDb (kind : Kind) :
    Hashlike (sampleDb "f" 0 (itemsKey connectedState kind)) := by
  cases kind <;> decide +kernel

/-- The field that the two upserts write holds an item. -/
theorem comparable_sampleDb : Comparable twoUpserts connectedState (sampleDb "f" 0) := by
  rintro kind item ⟨rfl, hitem⟩ text htext
  have hkey : item.key = "f" := by rcases hitem with rfl | rfl <;> rfl
  have hversion : storedVersion (sampleDb "f" 0 (itemsKey connectedState .features)) "f" =
      some 0 := by decide +kernel
  rw [hkey] at htext
  rw [storedVersion, htext, Option.bind_some] at hversion
  rw [hversion]
  exact .inl rfl

end Sys

end RedisStore
