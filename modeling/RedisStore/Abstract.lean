import RedisStore.Semantics.Contents
import RedisStore.Init
import RedisStore.Version

/-!
# The store as its users see it

The feature store stands for a flag and, for each kind, a map from keys to items with versions
(`Abstract`). Its operations on these are defined here without regard to Redis: what each makes of the
store, and what it answers. A database stands for such a store where the hashes of the kinds hold the
texts of items (`ofDb`), and the transactions of upserts and inits do to it what the operations do to
the store.
-/

namespace RedisStore

open Redis Contents

/-- Whether the store is initialized, and the items of each kind, tombstones included. -/
structure Abstract where
  inited : Bool
  items : Contents Kind String Json

/-- The value, where JSON can express it. -/
def JsValue.json? : JsValue → Option Json
  | .json j => some j
  | .unserializable => none

/-- The items that an init gives, for the kinds that its data names. -/
def initItems (allData : AllData) : Kind → Option (String → Option Json) := fun kind =>
  (allData.lookup kind.namespaceName).map fun items key => (items.lookup key).bind JsValue.json?

namespace Abstract

/-- An upsert stores its item: the key is absent, or its current item has a strictly lower version. -/
def admits (a : Abstract) (kind : Kind) (item : Item) : Bool :=
  match a.items kind item.key with
  | none => true
  | some current => current.itemVersion.any (· < item.version)

/-- The store after an operation. -/
def apply (a : Abstract) : Op → Abstract
  | .initInternal allData => ⟨true, (Edit.replace (initItems allData)).apply a.items⟩
  | .upsertInternal kind item =>
    if a.admits kind item then
      { a with items := (Edit.put kind item.key item.json).apply a.items }
    else a
  | _ => a

/-- What `getInternal` answers for the item of a key: `null` for an absent or deleted one. -/
def shown : Option Json → Json
  | some item => if item.propTruthy "deleted" then .null else item
  | none => .null

/-- What an operation answers. An upsert answers with the item that is then stored. -/
def Gives (a : Abstract) : Op → Answer → Prop
  | .getInternal kind key, .item item => item = shown (a.items kind key)
  | .getAllInternal kind, .items (some results) => ∀ key, results.own.lookup key = a.items kind key
  | .initInternal _, .done => True
  | .upsertInternal kind item, .upserted err stored => err = false ∧
      (a.apply (.upsertInternal kind item)).items kind item.key = some stored
  | .initializedInternal, .inited b => b = a.inited
  | _, _ => False

/-- The calls and the answers, in order, of a store that starts as `a` and ends as `b`. -/
inductive Trace (a : Abstract) : List (CallId × Op) → List (CallId × Answer) → Abstract → Prop
  | nil : Trace a [] [] a
  | snoc {calls answers b} (h : Trace a calls answers b) (call : CallId) {op : Op} {ans : Answer}
    (hans : b.Gives op ans) :
    Trace a (calls ++ [(call, op)]) (answers ++ [(call, ans)]) (b.apply op)

end Abstract

/-! ## The database of a store -/

/-- The store that a database stands for. -/
def Abstract.ofDb (state : StoreState) (db : Db) : Abstract where
  inited := (db (initedKey state)).isSome
  items kind key := (fieldOf (db (itemsKey state kind)) key).bind Json.parse

theorem Abstract.ofDb_items (state : StoreState) (db : Db) (kind : Kind) (key : String) :
    (ofDb state db).items kind key = (fieldOf (db (itemsKey state kind)) key).bind Json.parse := rfl

/-- The kinds' keys are missing or hold hashes, and the hashes hold items. -/
structure HoldsEncoded (state : StoreState) (db : Db) : Prop where
  hashlike : ∀ kind, Hashlike (db (itemsKey state kind))
  version : ∀ kind key text, fieldOf (db (itemsKey state kind)) key = some text →
    (textVersion text).isSome

variable {state : StoreState} {db db' : Db} {kind : Kind}

/-- The store depends on its keys alone. -/
theorem Abstract.ofDb_congr (hitems : ∀ kind, db (itemsKey state kind) = db' (itemsKey state kind))
    (hinited : db (initedKey state) = db' (initedKey state)) : ofDb state db = ofDb state db' := by
  simp only [ofDb, hitems, hinited]

/-- So does that its hashes hold items. -/
theorem HoldsEncoded.congr (h : HoldsEncoded state db)
    (hitems : ∀ kind, db (itemsKey state kind) = db' (itemsKey state kind)) :
    HoldsEncoded state db' :=
  ⟨fun kind => hitems kind ▸ h.hashlike kind, fun kind => hitems kind ▸ h.version kind⟩

/-- Those of an empty database do. -/
theorem holdsEncoded_empty (state : StoreState) : HoldsEncoded state fun _ => none :=
  ⟨fun _ => trivial, fun _ _ _ htext => by cases htext⟩

/-- Every text of its hashes is read back as a value. -/
theorem HoldsEncoded.parses (h : HoldsEncoded state db) (kind : Kind) (key text : String)
    (htext : fieldOf (db (itemsKey state kind)) key = some text) : (Json.parse text).isSome := by
  obtain ⟨v, hv⟩ := Option.isSome_iff_exists.1 (h.version kind key text htext)
  obtain ⟨j, hj, -⟩ := Option.bind_eq_some_iff.1 hv
  rw [hj]
  rfl

/-- An item of the store is the value of the text in its field, and has a version. -/
theorem HoldsEncoded.item (h : HoldsEncoded state db) (kind : Kind) (key : String) :
    (∃ text j v, fieldOf (db (itemsKey state kind)) key = some text ∧ Json.parse text = some j ∧
        j.itemVersion = some v ∧ (Abstract.ofDb state db).items kind key = some j) ∨
      fieldOf (db (itemsKey state kind)) key = none ∧
        (Abstract.ofDb state db).items kind key = none := by
  cases hf : fieldOf (db (itemsKey state kind)) key with
  | none => exact .inr ⟨rfl, by rw [Abstract.ofDb_items, hf]; rfl⟩
  | some text =>
    obtain ⟨v, hv⟩ := Option.isSome_iff_exists.1 (h.version kind key text hf)
    obtain ⟨j, hj, hjv⟩ := Option.bind_eq_some_iff.1 hv
    exact .inl ⟨text, j, v, rfl, hj, hjv, by rw [Abstract.ofDb_items, hf]; exact hj⟩

/-! ## Reads -/

/-- The value that the reply to `HGET` decodes to. -/
theorem replyItem_read (h : HoldsEncoded state db) (kind : Kind) (key : String) :
    replyItem ((Command.hget (itemsKey state kind) key).read db) =
      .ok (((Abstract.ofDb state db).items kind key).getD .null) := by
  rw [replyItem_read_hget (h.hashlike kind) (h.parses kind key), Abstract.ofDb_items]

/-- `getInternal` answers what the store shows. -/
theorem visible_item (h : HoldsEncoded state db) (kind : Kind) (key : String) :
    visible (((Abstract.ofDb state db).items kind key).getD .null) =
      Abstract.shown ((Abstract.ofDb state db).items kind key) := by
  rcases h.item kind key with ⟨text, j, v, -, -, hv, hitem⟩ | ⟨-, hitem⟩
  · rw [hitem, Option.getD_some, visible, Json.truthy_of_itemVersion hv, Abstract.shown]
    cases j.propTruthy "deleted" <;> rfl
  · rw [hitem]
    rfl

/-- An upsert goes on to write exactly if the store admits its item. -/
theorem replyVerdict_read (h : HoldsEncoded state db) (kind : Kind) (item : Item) :
    replyVerdict ((Command.hget (itemsKey state kind) item.key).read db) item =
      if (Abstract.ofDb state db).admits kind item then .write
      else .reject (((Abstract.ofDb state db).items kind item.key).getD .null) := by
  rw [replyVerdict, replyItem_read h, Abstract.admits]
  rcases h.item kind item.key with ⟨text, j, v, -, -, hv, hitem⟩ | ⟨-, hitem⟩
  · rw [hitem]
    simp only [Option.getD_some, Json.verdict_of_itemVersion hv, hv, Option.any_some,
      decide_eq_true_eq]
    by_cases hlt : v < item.version
    · rw [if_neg (not_le.2 hlt), if_pos hlt]
    · rw [if_pos (not_lt.1 hlt), if_neg hlt]
  · rw [hitem]
    rfl

/-- `getAllInternal` answers the whole map, if no field of the hash is `__proto__`. -/
theorem replyItems_read (h : HoldsEncoded state db) (kind : Kind)
    (hproto : fieldOf (db (itemsKey state kind)) "__proto__" = none) :
    ∃ results, replyItems ((Command.hgetall (itemsKey state kind)).read db) = .ok (some results) ∧
      ∀ key, results.own.lookup key = (Abstract.ofDb state db).items kind key := by
  obtain ⟨results, hreply, hresults⟩ := replyItems_read_hgetall (h.hashlike kind) (h.parses kind)
  refine ⟨results, hreply, fun key => ?_⟩
  rw [hresults, Abstract.ofDb_items]
  split_ifs with hkey
  · rw [hkey, hproto]
    rfl
  · rfl

/-! ## Writes -/

/-- The transaction of an upsert that the store admits stores its item. -/
theorem ofDb_upsert (h : HoldsEncoded state db) {kind : Kind} {item : Item}
    (hadmits : (Abstract.ofDb state db).admits kind item = true) :
    HoldsEncoded state (runWrites [.hset (itemsKey state kind) item.key item.text] db).db ∧
      Abstract.ofDb state (runWrites [.hset (itemsKey state kind) item.key item.text] db).db =
        (Abstract.ofDb state db).apply (.upsertInternal kind item) := by
  have hfields := fun kind' => fieldOf_runWrites_hset (h.hashlike kind) item.key item.text
    (itemsKey state kind')
  -- The marker is under a key of its own.
  have hinited : (runWrites [.hset (itemsKey state kind) item.key item.text] db).db
      (initedKey state) = db (initedKey state) := by
    rw [runWrites_hset, Function.update_of_ne (itemsKey_ne_initedKey state state kind).symm]
  refine ⟨⟨fun kind' => ?_, fun kind' key text htext => ?_⟩, ?_⟩
  · rw [runWrites_hset]
    by_cases hk : kind' = kind
    · rw [hk, Function.update_self]
      exact hashlike_hset (h.hashlike kind) _ _ _
    · rw [Function.update_of_ne (mt itemsKey_inj.1 hk)]
      exact h.hashlike kind'
  · rw [hfields] at htext
    split_ifs at htext with hf
    · obtain rfl := Option.some.inj htext
      rw [textVersion_text]
      rfl
    · exact h.version kind' key text htext
  · rw [Abstract.apply, if_pos hadmits, Abstract.ofDb, Abstract.ofDb, hinited]
    refine congrArg (Abstract.mk _) (funext₂ fun kind' key => ?_)
    rw [hfields, apply_put]
    simp only [itemsKey_inj]
    split_ifs with hf
    · rw [Option.bind_some, Item.text, Json.parse_stringify]
    · rfl

/-- The items of an init: values with versions. -/
def HasItems (allData : AllData) : Prop :=
  ∀ e ∈ allData.entries, ∀ item ∈ e.2.entries, ∃ j, item.2 = .json j ∧ j.itemVersion.isSome

/-- The text of a value is read back as the value. -/
@[simp] theorem JsValue.text?_bind_parse (v : JsValue) : v.text?.bind Json.parse = v.json? := by
  cases v with
  | json j => exact Json.parse_stringify j
  | unserializable => rfl

/-- The texts that an init gives have versions. -/
theorem HasItems.version {allData : AllData} (h : HasItems allData) {kind : Kind}
    {texts : String → Option String} (htexts : initTexts allData kind = some texts) {key text : String}
    (htext : texts key = some text) : (textVersion text).isSome := by
  obtain ⟨items, hitems, rfl⟩ := Option.map_eq_some_iff.1 htexts
  obtain ⟨v, hv, hvtext⟩ := Option.bind_eq_some_iff.1 htext
  obtain ⟨j, hj, hversion⟩ := h ⟨_, items⟩ (AList.mem_lookup_iff.1 hitems) ⟨key, v⟩
    (AList.mem_lookup_iff.1 hv)
  obtain rfl : v = .json j := hj
  obtain rfl := Option.some.inj hvtext
  rw [textVersion, Json.parse_stringify]
  exact hversion

/-- The transaction of an init replaces the items of the kinds that its data names. -/
theorem ofDb_init (h : HoldsEncoded state db) {allData : AllData} {multi : Multi}
    (hbuild : buildInit state allData = .ok multi) (hitems : HasItems allData)
    (hproto : NoProtoKey allData) :
    HoldsEncoded state (runWrites multi db).db ∧
      Abstract.ofDb state (runWrites multi db).db =
        (Abstract.ofDb state db).apply (.initInternal allData) := by
  have hkind := fun kind => fieldOf_buildInit hproto hbuild (h.hashlike kind)
  refine ⟨⟨fun kind => (hkind kind).1, fun kind key text htext => ?_⟩, ?_⟩
  · rw [(hkind kind).2] at htext
    -- A kind that the data does not name keeps its texts.
    cases htexts : initTexts allData kind with
    | none =>
      rw [htexts] at htext
      exact h.version kind key text htext
    | some texts =>
      rw [htexts] at htext
      exact hitems.version htexts htext
  · rw [Abstract.apply, Abstract.ofDb, (runWrites_buildInit hbuild db).2.1]
    refine congrArg (Abstract.mk _) (funext₂ fun kind key => ?_)
    rw [(hkind kind).2, apply_replace, initTexts, initItems]
    cases allData.lookup kind.namespaceName with
    | none => rfl
    | some items =>
      simp only [Option.map_some, Option.getD_some, Option.bind_assoc, JsValue.text?_bind_parse]

end RedisStore
