import RedisStore.Store.Keys
import RedisStore.Store.Spec

/-!
# The transaction of an init

What the transaction that `initInternal` builds does to the database when it is executed: for each
kind that the data names, the hash is replaced by the texts of the kind's items
(`runWrites_buildInit`), other kinds are left alone, and `$inited` is set. The replacement is exact
but for an item with the key `__proto__`: the loop builds the hash in an object literal, where
an assignment of that name makes no property.
-/

namespace RedisStore

open Redis

/-- The text of a value that JSON can express. -/
def JsValue.text? : JsValue → Option String
  | .json j => some j.stringify
  | .unserializable => none

@[simp] theorem JsValue.toOption_stringify (v : JsValue) : v.stringify.toOption = v.text? := by
  cases v <;> rfl

/-- What a kind's key holds after an init with these items. -/
def hashOf (items : AList fun _ : String => JsValue) : Option Value :=
  match stringifyItems items with
  | .ok stringified =>
    if 0 < stringified.own.keys.length then some (.hash stringified.own) else none
  | .error _ => none

/-- An object without keys has no property. -/
theorem lookup_of_keys_length {α : Type} {o : AList fun _ : String => α}
    (h : ¬ 0 < o.keys.length) (name : String) : o.lookup name = none := by
  -- The code tests the number of keys, as Redis does not allow `hmset` with an empty object.
  have hnil : o.keys = [] := List.eq_nil_of_length_eq_zero (by omega)
  refine AList.lookup_eq_none.2 fun hmem => ?_
  have hkeys : name ∈ o.keys := hmem
  rw [hnil] at hkeys
  exact List.not_mem_nil hkeys

/-- The fields of a kind's hash after an init: the texts of its items, without `__proto__`. -/
theorem fieldOf_hashOf {items : AList fun _ : String => JsValue}
    {stringified : PlainObject String} (h : stringifyItems items = .ok stringified)
    (field : String) :
    fieldOf (hashOf items) field =
      if field = "__proto__" then none else (items.lookup field).bind JsValue.text? := by
  have hlookup := PlainObject.lookup_assignAll items.nodupKeys h field
  -- Without any property there is no hash, and no field either.
  have hfield : fieldOf (hashOf items) field = stringified.own.lookup field := by
    rw [hashOf, h]
    dsimp only
    split_ifs with hlen
    · rfl
    · rw [fieldOf_none, lookup_of_keys_length hlen]
  rw [hfield, hlookup]
  split_ifs
  · rfl
  · cases hi : items.lookup field with
    | none =>
      rw [AList.lookup] at hi
      rw [hi]
      rfl
    | some v =>
      rw [AList.lookup] at hi
      rw [hi]
      simp

/-! ## Namespaces -/

/-- A name in the data is looked up as a kind's namespace only if it is that namespace. -/
theorem dataKindNamespace_eq_kind {ns name : String} (h : dataKindNamespace ns = .ok name)
    (kind : Kind) : name = kind.namespaceName ↔ ns = kind.namespaceName := by
  unfold dataKindNamespace at h
  split_ifs at h with h1 h2 h3
  · obtain rfl := Except.ok.inj h
    rw [h1]
  · obtain rfl := Except.ok.inj h
    rw [h2]
  · obtain rfl := Except.ok.inj h
    constructor
    · intro hk
      cases kind <;> exact absurd hk (by decide)
    · rintro rfl
      cases kind
      · exact absurd rfl h1
      · exact absurd rfl h2

/-- The name of a known kind is its namespace. -/
theorem dataKindNamespace_namespaceName (kind : Kind) :
    dataKindNamespace kind.namespaceName = .ok kind.namespaceName := by
  cases kind <;> decide

/-! ## One kind -/

/-- The writes for one name in the data, with the key that they are about. None of them fails. -/
theorem addKind_ok {state : StoreState} {multi multi' : Multi} {ns : String}
    {items : AList fun _ : String => JsValue} (h : addKind state multi ns items = .ok multi') :
    ∃ name stringified ws, dataKindNamespace ns = .ok name ∧ stringifyItems items = .ok stringified ∧
      multi' = multi ++ ws ∧ (∀ w ∈ ws, w.key = state.itemsPrefix ++ name) ∧
      ∀ db, (runWrites ws db).db (state.itemsPrefix ++ name) = hashOf items ∧
        .error ∉ (runWrites ws db).replies := by
  unfold addKind at h
  cases hn : dataKindNamespace ns with
  | error x => simp [hn, bind, Except.bind] at h
  | ok name =>
    cases hs : stringifyItems items with
    | error x => simp [hn, hs, bind, Except.bind] at h
    | ok stringified =>
      simp only [hn, hs, bind, Except.bind, pure, Except.pure] at h
      -- Whatever the key held, `DEL` leaves it missing for the `HMSET` after it.
      have hdel : ∀ db : Db, ((Write.del (state.itemsPrefix ++ name)).run
          (db (state.itemsPrefix ++ name))).value = none := by
        intro db
        cases db (state.itemsPrefix ++ name) <;> rfl
      have hreply : ∀ db : Db, .error ≠ ((Write.del (state.itemsPrefix ++ name)).run
          (db (state.itemsPrefix ++ name))).reply := by
        intro db
        cases db (state.itemsPrefix ++ name) <;> exact WriteReply.noConfusion
      split_ifs at h with hlen
      · obtain rfl := Except.ok.inj h
        refine ⟨name, stringified, [.del (state.itemsPrefix ++ name),
          .hmset (state.itemsPrefix ++ name) stringified.own], rfl, rfl, ?_, ?_, fun db => ⟨?_, ?_⟩⟩
        · simp [Multi.del, Multi.hmset]
        · simp [Write.key]
        · simp only [runWrites, Write.key, Function.update_self, hdel]
          simp [Write.run, hashOf, hs, hlen]
        · have hset : ((Write.hmset (state.itemsPrefix ++ name) stringified.own).run none).reply =
              .ok := rfl
          simp [runWrites, Write.key, hdel, hreply, hset]
      · obtain rfl := Except.ok.inj h
        refine ⟨name, stringified, [.del (state.itemsPrefix ++ name)], rfl, rfl, ?_, ?_,
          fun db => ⟨?_, ?_⟩⟩
        · simp [Multi.del]
        · simp [Write.key]
        · simp [runWrites, Write.key, hdel, hashOf, hs, hlen]
        · simp [runWrites, Write.key, hreply]

/-! ## The whole transaction -/

/-- The loop over the names in the data: each kind's key is replaced where the data names the kind,
and kept where it does not, and no write fails. -/
theorem foldlM_addKind {state : StoreState} {entries : List (Sigma fun _ : String =>
      AList fun _ : String => JsValue)} (hnd : entries.NodupKeys) {multi multi' : Multi}
    (h : entries.foldlM (fun multi e => addKind state multi e.1 e.2) multi = .ok multi') :
    ∃ ws, multi' = multi ++ ws ∧ (∀ db, .error ∉ (runWrites ws db).replies) ∧
      ∀ kind db, (runWrites ws db).db (itemsKey state kind) =
        match entries.dlookup kind.namespaceName with
        | some items => hashOf items
        | none => db (itemsKey state kind) := by
  induction entries generalizing multi with
  | nil =>
    obtain rfl : multi = multi' := by simpa [pure, Except.pure] using h
    exact ⟨[], by simp, fun _ => List.not_mem_nil, fun _ _ => rfl⟩
  | cons e entries ih =>
    obtain ⟨ns, items⟩ := e
    rw [List.foldlM_cons] at h
    cases hadd : addKind state multi ns items with
    | error x => simp [hadd, bind, Except.bind] at h
    | ok multi₁ =>
      simp only [hadd, bind, Except.bind] at h
      obtain ⟨name, stringified, ws₁, hname, hstr, rfl, hkeys, hrun⟩ := addKind_ok hadd
      obtain ⟨ws₂, rfl, hreplies, hrun₂⟩ := ih (List.nodupKeys_cons.1 hnd).2 h
      have hns : ns ∉ entries.keys := (List.nodupKeys_cons.1 hnd).1
      refine ⟨ws₁ ++ ws₂, by rw [List.append_assoc], fun db => ?_, fun kind db => ?_⟩
      · rw [runWrites_append_replies, List.mem_append, not_or]
        exact ⟨(hrun db).2, hreplies _⟩
      -- The later names come last; what they do not name is as this one leaves it.
      rw [runWrites_append_db, hrun₂]
      by_cases hk : ns = kind.namespaceName
      · -- The name is this kind's, so no later name is.
        have hname' := (dataKindNamespace_eq_kind hname kind).2 hk
        rw [← hk, List.dlookup_cons_eq, List.dlookup_eq_none.2 hns]
        simp only [itemsKey, ← hname', (hrun _).1]
      · -- The writes for another name are about another key.
        have hname' : name ≠ kind.namespaceName :=
          mt (dataKindNamespace_eq_kind hname kind).1 hk
        have hkey : itemsKey state kind ∉ ws₁.map Write.key := by
          rw [List.mem_map]
          rintro ⟨w, hw, hwk⟩
          rw [hkeys w hw, itemsKey, String.append_right_inj] at hwk
          exact hname' hwk
        rw [List.dlookup_cons_ne _ _ (Ne.symm hk), runWrites_db_of_not_mem _ _ hkey]

/-- The write is one for a name in the data of an init: it deletes the key of the name, or stores the
texts of the items there. -/
def WritesKind (state : StoreState) (e : Sigma fun _ : String => AList fun _ : String => JsValue)
    (w : Write) : Prop :=
  ∃ name, dataKindNamespace e.1 = .ok name ∧ (w = .del (state.itemsPrefix ++ name) ∨
    ∃ stringified, stringifyItems e.2 = .ok stringified ∧
      w = .hmset (state.itemsPrefix ++ name) stringified.own)

theorem mem_addKind {state : StoreState} {multi multi' : Multi}
    {e : Sigma fun _ : String => AList fun _ : String => JsValue}
    (h : addKind state multi e.1 e.2 = .ok multi') {w : Write} (hw : w ∈ multi') :
    w ∈ multi ∨ WritesKind state e w := by
  unfold addKind at h
  cases hname : dataKindNamespace e.1 with
  | error x => simp [hname, bind, Except.bind] at h
  | ok name =>
    cases hstr : stringifyItems e.2 with
    | error x => simp [hname, hstr, bind, Except.bind] at h
    | ok stringified =>
      simp only [hname, hstr, bind, Except.bind, pure, Except.pure] at h
      split_ifs at h <;> obtain rfl := Except.ok.inj h <;>
        simp only [Multi.del, Multi.hmset, List.mem_append, List.mem_singleton] at hw
      · rcases hw with (hw | rfl) | rfl
        · exact .inl hw
        · exact .inr ⟨name, hname, .inl rfl⟩
        · exact .inr ⟨name, hname, .inr ⟨stringified, hstr, rfl⟩⟩
      · rcases hw with hw | rfl
        · exact .inl hw
        · exact .inr ⟨name, hname, .inl rfl⟩

/-- The writes of an init are those for the names in its data, and then the one of the marker. -/
theorem buildInit_eq_concat {state : StoreState} {allData : AllData} {multi : Multi}
    (h : buildInit state allData = .ok multi) :
    ∃ ws, multi = ws ++ [.set (initedKey state) ""] ∧
      ∀ w ∈ ws, ∃ e ∈ allData.entries, WritesKind state e w := by
  have hloop : ∀ (entries : List (Sigma fun _ : String => AList fun _ : String => JsValue))
      (multi multi' : Multi),
      entries.foldlM (fun multi e => addKind state multi e.1 e.2) multi = .ok multi' →
      ∀ w ∈ multi', w ∈ multi ∨ ∃ e ∈ entries, WritesKind state e w := by
    intro entries
    induction entries with
    | nil =>
      intro multi multi' hf w hw
      obtain rfl : multi = multi' := by simpa [pure, Except.pure] using hf
      exact .inl hw
    | cons e entries ih =>
      intro multi multi' hf w hw
      rw [List.foldlM_cons] at hf
      cases hadd : addKind state multi e.1 e.2 with
      | error x => simp [hadd, bind, Except.bind] at hf
      | ok multi₁ =>
        simp only [hadd, bind, Except.bind] at hf
        rcases ih multi₁ multi' hf w hw with hw | ⟨e', he', hw⟩
        · exact (mem_addKind hadd hw).imp_right fun hw => ⟨e, List.mem_cons_self, hw⟩
        · exact .inr ⟨e', List.mem_cons_of_mem _ he', hw⟩
  unfold buildInit at h
  cases hf : allData.entries.foldlM (fun multi e => addKind state multi e.1 e.2) [] with
  | error x => simp [hf, bind, Except.bind] at h
  | ok ws =>
    simp only [hf, bind, Except.bind, pure, Except.pure, Except.ok.injEq] at h
    exact ⟨ws, h.symm, fun w hw => (hloop _ _ _ hf w hw).resolve_left List.not_mem_nil⟩

/-- Each of them is one of these. -/
theorem mem_buildInit {state : StoreState} {allData : AllData} {multi : Multi}
    (h : buildInit state allData = .ok multi) {w : Write} (hw : w ∈ multi) :
    w = .set (initedKey state) "" ∨ ∃ e ∈ allData.entries, WritesKind state e w := by
  obtain ⟨ws, rfl, hws⟩ := buildInit_eq_concat h
  exact (List.mem_append.mp hw).symm.imp List.mem_singleton.1 (hws w)

/-- The writes of an init are about keys of the store's data. -/
theorem buildInit_keys {state : StoreState} {allData : AllData} {multi : Multi}
    (h : buildInit state allData = .ok multi) {w : Write} (hw : w ∈ multi) :
    ∃ k : StoreKey, k.ofData = true ∧ w.key = k.key state := by
  -- The name is a namespace, or inherited and then without a namespace of its own.
  have hname : ∀ {ns name : String}, dataKindNamespace ns = .ok name →
      ∃ k : StoreKey, k.ofData = true ∧ state.itemsPrefix ++ name = k.key state := by
    intro ns name hname
    unfold dataKindNamespace at hname
    split_ifs at hname <;> obtain rfl := Except.ok.inj hname
    · exact ⟨.items .features, rfl, rfl⟩
    · exact ⟨.items .segments, rfl, rfl⟩
    · exact ⟨.undefinedItems, rfl, rfl⟩
  rcases mem_buildInit h hw with rfl | ⟨e, -, name, hns, rfl | ⟨stringified, -, rfl⟩⟩
  · exact ⟨.inited, rfl, rfl⟩
  · exact hname hns
  · exact hname hns

/-- What the transaction of an init leaves under the keys of the store. -/
theorem runWrites_buildInit {state : StoreState} {allData : AllData} {multi : Multi}
    (h : buildInit state allData = .ok multi) (db : Db) :
    (∀ kind, (runWrites multi db).db (itemsKey state kind) =
      match allData.lookup kind.namespaceName with
      | some items => hashOf items
      | none => db (itemsKey state kind)) ∧
      (runWrites multi db).db (initedKey state) = some (.string "") ∧
      .error ∉ (runWrites multi db).replies := by
  unfold buildInit at h
  cases hf : allData.entries.foldlM (fun multi e => addKind state multi e.1 e.2) [] with
  | error x => simp [hf, bind, Except.bind] at h
  | ok ws =>
    simp only [hf, bind, Except.bind, pure, Except.pure, Except.ok.injEq] at h
    -- The writes of the loop, and the one of the marker after them.
    obtain ⟨ws', rfl, hreplies, hrun⟩ := foldlM_addKind allData.nodupKeys hf
    subst h
    refine ⟨?_, ?_, ?_⟩
    · intro kind
      rw [Multi.set, runWrites_append_db]
      have hne := itemsKey_ne_initedKey state state kind
      simp only [runWrites, Write.key, Function.update_of_ne hne]
      exact hrun kind db
    · rw [Multi.set, runWrites_append_db]
      simp [runWrites, Write.key, Write.run]
    · rw [Multi.set, runWrites_append_replies]
      simpa [runWrites, Write.run] using hreplies db

/-- So it is committed where it is executed and none of its writes is refused. -/
theorem committed_runAllowed_buildInit {state : StoreState} {allData : AllData} {multi : Multi}
    (h : buildInit state allData = .ok multi) (db : Db) (denied : List Write) :
    (Reply.replies (runAllowed denied multi db).replies).committed = true ↔
      ∀ w ∈ multi, w ∉ denied := by
  rw [Reply.committed, decide_eq_true_eq]
  constructor
  · exact fun hno w hw hdenied => hno (error_mem_runAllowed hw hdenied db)
  · intro hallowed
    rw [runAllowed_of_not_mem hallowed]
    exact (runWrites_buildInit h db).2.2

/-- The transaction is built exactly if each name in the data is known, or inherited, and each item
has a text. -/
theorem buildInit_isOk (state : StoreState) (allData : AllData) :
    (∃ multi, buildInit state allData = .ok multi) ↔
      ∀ e ∈ allData.entries, (∃ name, dataKindNamespace e.1 = .ok name) ∧
        ∃ stringified, stringifyItems e.2 = .ok stringified := by
  have hloop : ∀ (entries : List (Sigma fun _ : String => AList fun _ : String => JsValue))
      (multi : Multi), (∃ multi', entries.foldlM (fun multi e => addKind state multi e.1 e.2) multi =
        .ok multi') ↔ ∀ e ∈ entries, (∃ name, dataKindNamespace e.1 = .ok name) ∧
          ∃ stringified, stringifyItems e.2 = .ok stringified := by
    intro entries
    induction entries with
    | nil => intro multi; simp [pure, Except.pure]
    | cons e entries ih =>
      intro multi
      rw [List.foldlM_cons, List.forall_mem_cons]
      cases hname : dataKindNamespace e.1 with
      | error x => simp [addKind, hname, bind, Except.bind]
      | ok name =>
        cases hstr : stringifyItems e.2 with
        | error x => simp [addKind, hname, hstr, bind, Except.bind]
        | ok stringified =>
          obtain ⟨multi₁, hadd⟩ : ∃ multi₁, addKind state multi e.1 e.2 = .ok multi₁ := by
            simp only [addKind, hname, hstr, bind, Except.bind, pure, Except.pure]
            split_ifs <;> exact ⟨_, rfl⟩
          simp only [hadd, bind, Except.bind]
          rw [ih]
          simp
  rw [← hloop allData.entries []]
  unfold buildInit
  cases allData.entries.foldlM (fun multi e => addKind state multi e.1 e.2) [] <;>
    simp [bind, Except.bind, pure, Except.pure]

/-- The items that a built transaction writes have texts. -/
theorem stringifyItems_of_buildInit {state : StoreState} {allData : AllData} {multi : Multi}
    (h : buildInit state allData = .ok multi) {ns : String} {items : AList fun _ : String => JsValue}
    (hns : allData.lookup ns = some items) :
    ∃ stringified, stringifyItems items = .ok stringified :=
  ((buildInit_isOk state allData).1 ⟨multi, h⟩ ⟨ns, items⟩ (List.of_mem_dlookup hns)).2

/-! ## What an init promises -/

/-- A kind's key holds exactly these items: each field is the text of the item with its name. -/
def HoldsItems (v : Option Value) (items : AList fun _ : String => JsValue) : Prop :=
  Hashlike v ∧ ∀ field, fieldOf v field = (items.lookup field).bind JsValue.text?

/-- The database holds the data of an init: for each kind named in it exactly its items, and the
init marker. -/
structure Holds (db : Db) (state : StoreState) (allData : AllData) : Prop where
  items : ∀ kind items, allData.lookup kind.namespaceName = some items →
    HoldsItems (db (itemsKey state kind)) items
  inited : (db (initedKey state)).isSome

/-- No item of a kind has the key `__proto__`. -/
def NoProtoKey (allData : AllData) : Prop :=
  ∀ (kind : Kind) items, allData.lookup kind.namespaceName = some items → "__proto__" ∉ items

instance (allData : AllData) : Decidable (NoProtoKey allData) :=
  decidable_of_iff (∀ kind ∈ [Kind.features, .segments],
      ∀ items ∈ allData.lookup kind.namespaceName, "__proto__" ∉ items) <|
    forall_congr' fun kind => by cases kind <;> simp

theorem hashlike_hashOf (items : AList fun _ : String => JsValue) : Hashlike (hashOf items) := by
  unfold hashOf
  split
  · split_ifs <;> trivial
  · trivial

/-- Every item that was stringified has a text. -/
theorem text?_isSome_of_stringifyItems {items : AList fun _ : String => JsValue}
    {stringified : PlainObject String} (h : stringifyItems items = .ok stringified) {key : String}
    {item : JsValue} (hitem : items.lookup key = some item) : item.text?.isSome := by
  obtain ⟨text, htext⟩ := (PlainObject.assignAll_isOk _ _ _ _).1 ⟨stringified, h⟩ ⟨key, item⟩
    (List.of_mem_dlookup hitem)
  rw [← JsValue.toOption_stringify, htext]
  rfl

/-- An executed init leaves its data, save for items with the key `__proto__`. -/
theorem holds_runWrites_buildInit {state : StoreState} {allData : AllData} {multi : Multi}
    (h : buildInit state allData = .ok multi) (db : Db) :
    Holds (runWrites multi db).db state allData ↔ NoProtoKey allData := by
  obtain ⟨hkind, hinit, -⟩ := runWrites_buildInit h db
  constructor
  · intro hholds kind items hitems hmem
    obtain ⟨stringified, hstr⟩ := stringifyItems_of_buildInit h hitems
    obtain ⟨item, hitem⟩ := Option.isSome_iff_exists.1 (AList.lookup_isSome.2 hmem)
    -- The item has a text, but the hash has no field of this name.
    have hfield := (hholds.items kind items hitems).2 "__proto__"
    rw [hkind, hitems, fieldOf_hashOf hstr, if_pos rfl, hitem, Option.bind_some] at hfield
    have hsome := text?_isSome_of_stringifyItems hstr hitem
    rw [← hfield] at hsome
    cases hsome
  · intro hproto
    refine ⟨fun kind items hitems => ?_, by rw [hinit]; rfl⟩
    obtain ⟨stringified, hstr⟩ := stringifyItems_of_buildInit h hitems
    rw [hkind, hitems]
    refine ⟨hashlike_hashOf items, fun field => ?_⟩
    rw [fieldOf_hashOf hstr]
    split_ifs with hf
    · subst hf
      rw [AList.lookup_eq_none.2 (hproto kind items hitems)]
      rfl
    · rfl

/-- The texts that an init gives, for the kinds that its data names. -/
def initTexts (allData : AllData) : Kind → Option (String → Option String) := fun kind =>
  (allData.lookup kind.namespaceName).map fun items field =>
    (items.lookup field).bind JsValue.text?

/-- What a committed init leaves under the keys of the kinds. -/
theorem fieldOf_buildInit {state : StoreState} {allData : AllData} {multi : Multi}
    (hproto : NoProtoKey allData) (hbuild : buildInit state allData = .ok multi) {db : Db}
    {kind : Kind} (hhash : Hashlike (db (itemsKey state kind))) :
    Hashlike ((runWrites multi db).db (itemsKey state kind)) ∧ ∀ field,
      fieldOf ((runWrites multi db).db (itemsKey state kind)) field =
        (initTexts allData kind).getD (fieldOf (db (itemsKey state kind))) field := by
  have hholds := (holds_runWrites_buildInit hbuild db).2 hproto
  cases hlookup : allData.lookup kind.namespaceName with
  | some items =>
    obtain ⟨hlike, hfields⟩ := hholds.items kind items hlookup
    refine ⟨hlike, fun field => ?_⟩
    rw [hfields, initTexts, hlookup]
    rfl
  | none =>
    -- The data does not name the kind, and the transaction has no write about its key.
    have hkept := (runWrites_buildInit hbuild db).1 kind
    rw [hlookup] at hkept
    refine ⟨hkept ▸ hhash, fun field => ?_⟩
    rw [hkept, initTexts, hlookup]
    rfl

end RedisStore
