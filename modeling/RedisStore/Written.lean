import RedisStore.Calls
import RedisStore.Init

/-!
# What the stores write

The texts that a step puts in the hashes of the kinds come from calls: each is the text of an item that
an upsert or an init in progress was given, under the item's key, on a connection with the prefix of the
hash; or another program has put it there (`text_of_step`).
-/

namespace RedisStore

open Redis

/-! ## Fields that a transaction writes -/

/-- The write stores the text in the field of the hash under the key. -/
def Redis.Write.Stores (key : Key) (field text : String) : Write → Prop
  | .hset key' field' value => key' = key ∧ field' = field ∧ value = text
  | .hmset key' fields => key' = key ∧ fields.lookup field = some text
  | _ => False

/-- What is in a field after a write was there before or is stored by it. -/
theorem fieldOf_run {w : Write} {old : Option Value} {field text : String}
    (h : fieldOf (w.run old).value field = some text) :
    fieldOf old field = some text ∨ w.Stores w.key field text := by
  cases w with
  | del key =>
    have hnone : ((Write.del key).run old).value = none := by
      cases old <;> rfl
    rw [hnone] at h
    cases h
  | set key value => cases h
  | hset key field' value =>
    by_cases hlike : Hashlike old
    · rw [fieldOf_hset hlike] at h
      split_ifs at h with hfield
      · exact .inr ⟨rfl, hfield.symm, Option.some.inj h⟩
      · exact .inl h
    · rw [hset_of_not_hashlike hlike] at h
      exact .inl h
  | hmset key fields =>
    -- The new fields go before those that the hash had.
    rcases old with _ | (_ | hash | _ | _)
    · exact .inr ⟨rfl, h⟩
    · exact .inl h
    · have hlookup : (fields ∪ hash).lookup field = some text := h
      by_cases hmem : field ∈ fields
      · rw [AList.lookup_union_left hmem] at hlookup
        exact .inr ⟨rfl, hlookup⟩
      · rw [AList.lookup_union_right hmem] at hlookup
        exact .inl hlookup
    · exact .inl h
    · exact .inl h

/-- What is in a field after a transaction was there before or is stored by one of its writes. -/
theorem fieldOf_runWrites {ws : List Write} {db : Db} {key : Key} {field text : String}
    (h : fieldOf ((runWrites ws db).db key) field = some text) :
    fieldOf (db key) field = some text ∨ ∃ w ∈ ws, w.Stores key field text := by
  induction ws generalizing db with
  | nil => exact .inl h
  | cons w ws ih =>
    rcases ih h with hbefore | ⟨w', hw', hstores⟩
    · by_cases hkey : key = w.key
      · subst hkey
        rw [Function.update_self] at hbefore
        exact (fieldOf_run hbefore).imp_right fun hstores => ⟨w, List.mem_cons_self, hstores⟩
      · rw [Function.update_of_ne hkey] at hbefore
        exact .inl hbefore
    · exact .inr ⟨w', List.mem_cons_of_mem _ hw', hstores⟩

/-- A write that is no `SET` leaves a missing key or a hash. -/
theorem hashlike_run {w : Write} {old : Option Value} (h : Hashlike old)
    (hw : ∀ key value, w ≠ .set key value) : Hashlike (w.run old).value := by
  cases w with
  | set key value => exact absurd rfl (hw key value)
  | hset key field value => exact hashlike_hset h key field value
  | del key => rcases old with _ | (_ | _ | _ | _) <;> trivial
  | hmset key fields => rcases old with _ | (_ | _ | _ | _) <;> trivial

/-- So does a transaction without a `SET` of the key. -/
theorem hashlike_runWrites {ws : List Write} {db : Db} {key : Key} (h : Hashlike (db key))
    (hws : ∀ value, .set key value ∉ ws) : Hashlike ((runWrites ws db).db key) := by
  induction ws generalizing db with
  | nil => exact h
  | cons w ws ih =>
    refine ih ?_ fun value hmem => hws value (List.mem_cons_of_mem _ hmem)
    by_cases hkey : key = w.key
    · subst hkey
      rw [Function.update_self]
      refine hashlike_run h fun key value hset => hws value ?_
      subst hset
      exact List.mem_cons_self
    · rw [Function.update_of_ne hkey]
      exact h

/-! ## Items that calls are given -/

/-- The operation is given this item, to store it under the key. -/
def Op.Puts (kind : Kind) (key : String) (j : Json) : Op → Prop
  | .initInternal allData =>
    ∃ items, allData.lookup kind.namespaceName = some items ∧ items.lookup key = some (.json j)
  | .upsertInternal kind' item => kind' = kind ∧ item.key = key ∧ item.json = j
  | _ => False

/-- A name of an init gives the key of a kind only with the prefix and the namespace of that key. -/
theorem eq_of_append_eq_itemsKey {state st : StoreState} {kind : Kind} {ns name : String}
    (hname : dataKindNamespace ns = .ok name) (h : st.itemsPrefix ++ name = itemsKey state kind) :
    st.itemsPrefix = state.itemsPrefix ∧ ns = kind.namespaceName := by
  have hends := congrArg (fun key : String => key.toList.reverse.take 2) h
  have hkind : name = kind.namespaceName := by
    unfold dataKindNamespace at hname
    split_ifs at hname <;> obtain rfl := Except.ok.inj hname <;> cases kind <;>
      first | rfl | simp [itemsKey, Kind.namespaceName] at hends
  refine ⟨?_, (dataKindNamespace_eq_kind hname kind).1 hkind⟩
  rw [hkind, itemsKey] at h
  exact (String.append_left_inj _).1 h

/-- A text that an init stores under the key of a kind is that of an item in its data, under the item's
key, and the prefix is that of the key. -/
theorem puts_of_buildInit {state st : StoreState} {allData : AllData} {multi : Multi}
    (h : buildInit st allData = .ok multi) {w : Write} (hw : w ∈ multi) {kind : Kind}
    {field text : String} (hstores : w.Stores (itemsKey state kind) field text) :
    st.itemsPrefix = state.itemsPrefix ∧
      ∃ j, (Op.initInternal allData).Puts kind field j ∧ text = j.stringify := by
  rcases mem_buildInit h hw with rfl | ⟨e, he, name, hname, rfl | ⟨stringified, hstr, rfl⟩⟩
  · cases hstores
  · cases hstores
  · obtain ⟨hkey, hlookup⟩ := hstores
    obtain ⟨hsame, hkind⟩ := eq_of_append_eq_itemsKey hname hkey
    have hassigned := PlainObject.lookup_assignAll e.2.nodupKeys hstr field
    rw [hlookup] at hassigned
    split_ifs at hassigned
    · cases hassigned
    · cases hitem : e.2.entries.dlookup field with
      | none =>
        rw [hitem] at hassigned
        cases hassigned
      | some value =>
        rw [hitem] at hassigned
        -- A value without a text has thrown.
        cases value with
        | unserializable => cases hassigned
        | json j =>
          refine ⟨hsame, j, ⟨e.2, ?_, hitem⟩, Option.some.inj hassigned⟩
          rw [← hkind]
          exact AList.mem_lookup_iff.2 he

/-- A `SET` of an init is that of the marker. -/
theorem set_notMem_buildInit {state st : StoreState} {allData : AllData} {multi : Multi}
    (h : buildInit st allData = .ok multi) (kind : Kind) (value : String) :
    .set (itemsKey state kind) value ∉ multi := by
  intro hmem
  rcases mem_buildInit h hmem with hset | ⟨e, -, name, -, hdel | ⟨_, -, hmset⟩⟩
  · exact itemsKey_ne_initedKey state st kind (Write.set.inj hset).1
  · cases hdel
  · cases hmset

/-! ## What a command writes -/

/-- A text that is in a hash of a kind after a command was there before, or is that of an item that the
call was given, on a connection with the prefix of the hash. -/
theorem Issued.text_of_serve {state st : StoreState} {r : Request} (hr : Issued st r) {db : Db}
    {session : Session} {fault : Fault} {kind : Kind} {field text : String}
    (h : fieldOf ((r.cmd.serve db session fault).db (itemsKey state kind)) field = some text) :
    fieldOf (db (itemsKey state kind)) field = some text ∨
      ∃ cb j, r.callback = some cb ∧ st.itemsPrefix = state.itemsPrefix ∧ cb.op.Puts kind field j ∧
        text = j.stringify := by
  have hexec : ∀ {queue : List Write}, fieldOf (((Command.exec queue).serve db session fault).db
      (itemsKey state kind)) field = some text → fieldOf (db (itemsKey state kind)) field = some text ∨
        ∃ w ∈ queue, w.Stores (itemsKey state kind) field text := by
    intro queue hfield
    obtain ⟨ws, hws, hdb, -, -⟩ := Command.serve_exec queue db session fault
    rw [hdb] at hfield
    exact (fieldOf_runWrites hfield).imp_right fun ⟨w, hw, hstores⟩ => ⟨w, hws.subset hw, hstores⟩
  cases hr with
  | upsertWrite kind' item call =>
    refine (hexec h).imp_right fun hstored => ?_
    obtain ⟨w, hw, hstores⟩ := hstored
    obtain rfl := List.mem_singleton.1 hw
    obtain ⟨hkey, hfield, htext⟩ := hstores
    obtain ⟨hsame, hkind⟩ := eq_of_append_eq_itemsKey (dataKindNamespace_namespaceName kind') hkey
    have hkind' : kind' = kind := by
      cases kind' <;> cases kind <;> first | rfl | exact absurd hkind (by decide)
    exact ⟨_, item.json, rfl, hsame, ⟨hkind', hfield, rfl⟩, htext.symm⟩
  | init allData call multi hbuild =>
    refine (hexec h).imp_right fun hstored => ?_
    obtain ⟨w, hw, hstores⟩ := hstored
    obtain ⟨hsame, j, hputs, htext⟩ := puts_of_buildInit hbuild hw hstores
    exact ⟨_, j, rfl, hsame, hputs, htext⟩
  | _ =>
    rw [(Command.serve_db (fun queue => Command.noConfusion) db session fault).1] at h
    exact .inl h

/-- A command leaves a missing key or a hash under the key of a kind. -/
theorem Issued.hashlike_serve {state st : StoreState} {r : Request} (hr : Issued st r) {db : Db}
    {kind : Kind} (h : Hashlike (db (itemsKey state kind))) (session : Session) (fault : Fault) :
    Hashlike ((r.cmd.serve db session fault).db (itemsKey state kind)) := by
  have hexec : ∀ queue : List Write, (∀ value, .set (itemsKey state kind) value ∉ queue) →
      Hashlike (((Command.exec queue).serve db session fault).db (itemsKey state kind)) := by
    intro queue hqueue
    obtain ⟨ws, hws, hdb, -, -⟩ := Command.serve_exec queue db session fault
    rw [hdb]
    exact hashlike_runWrites h fun value hmem => hqueue value (hws.subset hmem)
  cases hr with
  | upsertWrite kind' item call => exact hexec _ fun value => by simp
  | init allData call multi hbuild => exact hexec multi (set_notMem_buildInit hbuild kind)
  | _ =>
    rw [(Command.serve_db (fun queue => Command.noConfusion) db session fault).1]
    exact h

/-- What a program that replaces keys leaves under one of them. -/
theorem foldl_update_eq (values : List (Key × Option Value)) (db : Db) (key : Key) :
    values.foldl (fun db v => Function.update db v.1 v.2) db key = db key ∨
      ∃ v ∈ values, v.1 = key ∧ values.foldl (fun db v => Function.update db v.1 v.2) db key = v.2 := by
  induction values generalizing db with
  | nil => exact .inl rfl
  | cons v values ih =>
    rw [List.foldl_cons]
    rcases ih (Function.update db v.1 v.2) with hkept | ⟨w, hw, hkey, hvalue⟩
    · by_cases hkey : v.1 = key
      · refine .inr ⟨v, List.mem_cons_self, hkey, ?_⟩
        rw [hkept, ← hkey, Function.update_self]
      · refine .inl ?_
        rw [hkept, Function.update_of_ne (Ne.symm hkey)]
    · exact .inr ⟨w, List.mem_cons_of_mem _ hw, hkey, hvalue⟩

namespace Sys

variable {ι : Type} [DecidableEq ι] {s t : Sys ι} {l : Label ι} {state : StoreState}

/-- What a step does to the database: nothing, or the server executes a command of a connection, or another
program replaces the values of keys. -/
theorem db_of_step (h : step s l = some t) :
    t.db = s.db ∨
      (∃ c fault, ∃ request ∈ (s.conn c).inbox, t.db = (outcome s c request fault).db) ∨
      ∃ values, l = .foreign values ∧
        ∀ key, t.db key = s.db key ∨ ∃ v ∈ values, v.1 = key ∧ t.db key = v.2 := by
  cases l with
  | serve c fault =>
    obtain ⟨request, rest, hstep⟩ := serve_step h
    refine .inr (.inl ⟨c, fault, request, ?_, hstep.db⟩)
    rw [hstep.inbox]
    exact List.mem_cons_self
  | foreign values =>
    obtain rfl := Option.some.inj h
    exact .inr (.inr ⟨values, rfl, foldl_update_eq values s.db⟩)
  | call c op => exact .inl (call_step h).db
  | deliver c =>
    obtain ⟨cb, reply, rest, hstep⟩ := deliver_step h
    exact .inl hstep.db
  | lose c kept => exact .inl (lose_step h).db
  | regain c => exact .inl (regain_step h).db

/-- The item is one that a call has been given for the key, on a connection with the prefix. -/
def Given (s : Sys ι) (state : StoreState) (kind : Kind) (key : String) (j : Json) : Prop :=
  ∃ c call op, .called c call op ∈ s.log ∧ (s.conn c).state.itemsPrefix = state.itemsPrefix ∧
    op.Puts kind key j

/-- Another program puts the text in the field of the hash under the key. -/
def PutByOthers (key : Key) (field text : String) (l : Label ι) : Prop :=
  ∃ values, l = .foreign values ∧ ∃ v ∈ values, v.1 = key ∧ fieldOf v.2 field = some text

/-- A text that is in a hash of a kind after a step was there before, or another program has put it there,
or it is that of an item that a call has been given. -/
theorem text_of_step (hq : ∀ c, (s.conn c).Queued) (hcalled : Called s) (h : step s l = some t)
    {kind : Kind} {field text : String} (htext : fieldOf (t.db (itemsKey state kind)) field = some text) :
    fieldOf (s.db (itemsKey state kind)) field = some text ∨
      PutByOthers (itemsKey state kind) field text l ∨
      ∃ j, Given s state kind field j ∧ text = j.stringify := by
  rcases db_of_step h with hdb | ⟨c, fault, request, hmem, hdb⟩ | ⟨values, rfl, hdb⟩
  · rw [hdb] at htext
    exact .inl htext
  · rw [hdb] at htext
    refine (((hq c).inbox request hmem).text_of_serve htext).imp_right fun hgiven => .inr ?_
    obtain ⟨cb, j, hcb, hsame, hputs, hj⟩ := hgiven
    have hpending := hcalled.pending c cb (Conn.mem_callbacks.2 (.inr ⟨request, hmem, hcb⟩))
    exact ⟨j, ⟨c, cb.call, cb.op, hpending, hsame, hputs⟩, hj⟩
  · rcases hdb (itemsKey state kind) with hkept | ⟨v, hv, hkey, hvalue⟩
    · rw [hkept] at htext
      exact .inl htext
    · rw [hvalue] at htext
      exact .inr (.inl ⟨values, rfl, v, hv, hkey, htext⟩)

end Sys

end RedisStore
