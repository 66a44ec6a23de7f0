import RedisStore.Store.Spec

/-!
# Stored versions

The version of the item under a field of a hash, and what an upsert's check and write have to do
with it: a check on the value that the server read lets the write go on only if the stored version
is lower (`admits_of_write`), and an executed write leaves the item's version.
-/

namespace RedisStore

open Redis

/-- The version of the item that a text encodes, if it encodes one. -/
def textVersion (text : String) : Option ℤ := (Json.parse text).bind Json.itemVersion

/-- The version of the item stored in a field. -/
def storedVersion (v : Option Value) (field : String) : Option ℤ :=
  (fieldOf v field).bind textVersion

@[simp] theorem textVersion_text (item : Item) : textVersion item.text = some item.version := by
  simp [textVersion, Item.text]

/-- The item may be written: none is stored under its key, or one of a lower version. -/
def Admits (v : Option Value) (item : Item) : Prop :=
  ∀ w, storedVersion v item.key = some w → w < item.version

/-- A version is that of the text in the field. -/
theorem storedVersion_eq_some {v : Option Value} {field : String} {w : ℤ} :
    storedVersion v field = some w ↔ ∃ text, fieldOf v field = some text ∧
      textVersion text = some w := by
  rw [storedVersion, Option.bind_eq_some_iff]

instance (v : Option Value) (item : Item) : Decidable (Admits v item) :=
  decidable_of_iff (∀ w ∈ storedVersion v item.key, w < item.version) Iff.rfl

/-! ## The check -/

/-- The reply to the read of a field. -/
theorem read_hget {db : Db} {key : Key} (h : Hashlike (db key)) (field : String) :
    (Command.hget key field).read db =
      match fieldOf (db key) field with
      | some text => .str text
      | none => .nil := by
  rcases hv : db key with _ | (_ | fields | _ | _) <;> rw [hv] at h
  · simp only [Command.read, hv, fieldOf]
  · exact absurd h id
  · cases hf : fields.lookup field <;> simp only [Command.read, hv, fieldOf, hf]
  · exact absurd h id
  · exact absurd h id

/-- A reply to the read of a field that is a text is the text in the field. -/
theorem fieldOf_of_read_hget {db : Db} {key : Key} {field text : String}
    (h : (Command.hget key field).read db = .str text) : fieldOf (db key) field = some text := by
  by_cases hlike : Hashlike (db key)
  · rw [read_hget hlike] at h
    split at h
    · next hf =>
      cases h
      exact hf
    · cases h
  · rcases hv : db key with _ | (_ | fields | _ | _) <;> simp [Command.read, hv, Hashlike] at h hlike

/-- The value that the reply to the read of a field decodes to: `null` where there is none. -/
theorem replyItem_read_hget {db : Db} {key : Key} {field : String} (hlike : Hashlike (db key))
    (hparse : ∀ text, fieldOf (db key) field = some text → (Json.parse text).isSome) :
    replyItem ((Command.hget key field).read db) =
      .ok (((fieldOf (db key) field).bind Json.parse).getD .null) := by
  rw [read_hget hlike]
  cases hf : fieldOf (db key) field with
  | none => rfl
  | some text =>
    obtain ⟨j, hj⟩ := Option.isSome_iff_exists.1 (hparse text hf)
    simp only [replyItem, jsonParse, hj, Option.bind_some, Option.getD_some]

/-- The object that the reply to the read of a whole hash decodes to: every field with its value, save
that `__proto__` is never a property. -/
theorem replyItems_read_hgetall {db : Db} {key : Key} (hlike : Hashlike (db key))
    (hparse : ∀ field text, fieldOf (db key) field = some text → (Json.parse text).isSome) :
    ∃ results, replyItems ((Command.hgetall key).read db) = .ok (some results) ∧
      ∀ name, results.own.lookup name =
        if name = "__proto__" then none else (fieldOf (db key) name).bind Json.parse := by
  simp only [Command.read]
  generalize db key = value at hlike hparse
  -- A missing hash is answered as an object without properties.
  rcases value with _ | (_ | fields | _ | _)
  · exact ⟨.empty, rfl, fun name => by split_ifs <;> rfl⟩
  · exact absurd hlike id
  · -- Every text is decoded.
    obtain ⟨results, hresults⟩ : ∃ results, decodeItems fields = .ok results := by
      refine (PlainObject.assignAll_isOk _ _ _ _).2 fun e he => ?_
      obtain ⟨j, hj⟩ := Option.isSome_iff_exists.1 (hparse e.1 e.2 (AList.mem_lookup_iff.2 he))
      exact ⟨j, by rw [jsonParse, hj]⟩
    refine ⟨results, by rw [replyItems, hresults]; rfl, fun name => ?_⟩
    rw [PlainObject.lookup_assignAll fields.nodupKeys hresults name]
    split_ifs with hname
    · rfl
    · have hlookup : fields.lookup name = fields.entries.dlookup name := rfl
      rw [fieldOf_hash, hlookup]
      cases fields.entries.dlookup name with
      | none => rfl
      | some text =>
        simp only [jsonParse, Option.bind_some]
        cases Json.parse text <;> rfl
  · exact absurd hlike id
  · exact absurd hlike id

/-- A check on what the server read goes on to write only if no item of the version or a higher one
is stored. -/
theorem admits_of_write {db : Db} {key : Key} {item : Item}
    (h : replyVerdict ((Command.hget key item.key).read db) item = .write) :
    Admits (db key) item := by
  intro w hw
  obtain ⟨text, htext, hver⟩ := storedVersion_eq_some.1 hw
  have hlike : Hashlike (db key) := by
    by_contra hn
    rw [fieldOf_of_not_hashlike hn] at htext
    cases htext
  obtain ⟨j, hparse, hj⟩ := Option.bind_eq_some_iff.1 hver
  rw [read_hget hlike, htext, replyVerdict, replyItem, jsonParse, hparse] at h
  simp only [Json.verdict_of_itemVersion hj] at h
  by_contra hlt
  rw [if_pos (not_lt.1 hlt)] at h
  cases h

/-- A check on what the server read rejects a write only if the text of the answered item is
stored. -/
theorem fieldOf_of_reject {db : Db} {key : Key} {item : Item} {oldItem : Json}
    (h : replyVerdict ((Command.hget key item.key).read db) item = .reject oldItem) :
    ∃ text, fieldOf (db key) item.key = some text ∧ Json.parse text = some oldItem ∧
      oldItem.truthy = true ∧
      Json.geNumber (oldItem.prop "version") (.ofInt item.version) = .ok true := by
  obtain ⟨text, hread, hparse, htruthy, hge⟩ := replyVerdict_reject h
  exact ⟨text, fieldOf_of_read_hget hread, hparse, htruthy, hge⟩

/-! ## The write -/

/-- The value that an upsert's write leaves under its key. -/
theorem runWrites_hset (key : Key) (field value : String) (db : Db) :
    (runWrites [.hset key field value] db).db =
      Function.update db key ((Write.hset key field value).run (db key)).value := rfl

/-- The fields of a hash after an upsert's write. -/
theorem fieldOf_runWrites_hset {db : Db} {key : Key} (h : Hashlike (db key))
    (field value : String) (key' : Key) (field' : String) :
    fieldOf ((runWrites [.hset key field value] db).db key') field' =
      if key' = key ∧ field' = field then some value else fieldOf (db key') field' := by
  rw [runWrites_hset]
  by_cases hk : key' = key
  · subst hk
    rw [Function.update_self, fieldOf_hset h]
    simp
  · rw [Function.update_of_ne hk, if_neg (fun hn => hk hn.1)]

/-- An upsert's write is refused on any other value, and changes nothing. -/
theorem runWrites_hset_of_not_hashlike {db : Db} {key : Key} (h : ¬ Hashlike (db key))
    (field value : String) : (runWrites [.hset key field value] db).db = db := by
  rw [runWrites_hset, hset_of_not_hashlike h, Function.update_eq_self]

/-- The replies to an upsert's write: a number where it takes effect, which modifies the key, and an
error where Redis refuses it. -/
theorem runWrites_hset_replies (key : Key) (field value : String) (db : Db) :
    if Hashlike (db key) then
      (∃ n, (runWrites [.hset key field value] db).replies = [.int n]) ∧
        (runWrites [.hset key field value] db).touched = [key]
    else (runWrites [.hset key field value] db).replies = [.error] := by
  have hone : ∀ old : Option Value,
      if Hashlike old then
        (∃ n, ((Write.hset key field value).run old).reply = .int n) ∧
          ((Write.hset key field value).run old).modified = true
      else ((Write.hset key field value).run old).reply = .error := by
    rintro (_ | (_ | fields | _ | _))
    · exact ⟨⟨1, rfl⟩, rfl⟩
    · rfl
    · exact ⟨⟨_, rfl⟩, rfl⟩
    · rfl
    · rfl
  have h := hone (db key)
  by_cases hlike : Hashlike (db key)
  · rw [if_pos hlike] at h ⊢
    obtain ⟨⟨n, hn⟩, hmodified⟩ := h
    exact ⟨⟨n, congrArg (fun reply => [reply]) hn⟩, if_pos hmodified⟩
  · rw [if_neg hlike] at h ⊢
    exact congrArg (fun reply => [reply]) h

/-- An upsert's write is committed exactly where it takes effect. -/
theorem committed_runWrites_hset (key : Key) (field value : String) (db : Db) :
    (Reply.replies (runWrites [.hset key field value] db).replies).committed = true ↔
      Hashlike (db key) := by
  have hreplies := runWrites_hset_replies key field value db
  by_cases hlike : Hashlike (db key)
  · rw [if_pos hlike] at hreplies
    obtain ⟨⟨n, hn⟩, -⟩ := hreplies
    simp [Reply.committed, hn, hlike]
  · rw [if_neg hlike] at hreplies
    simp [Reply.committed, hreplies, hlike]

/-- The version of the item that a write puts in a field, if it puts one there. -/
def Redis.Write.versionAt : Write → Key → String → Option ℤ
  | .hmset key' fields, key, field =>
    if key' = key then (fields.lookup field).bind textVersion else none
  | .hset key' field' value, key, field =>
    if key' = key ∧ field' = field then textVersion value else none
  | _, _, _ => none

/-- After a write, a field has its version, or the one from before. -/
theorem storedVersion_run {w : Write} {old : Option Value} {field : String} {v : ℤ}
    (h : storedVersion (w.run old).value field = some v) :
    storedVersion old field = some v ∨ w.versionAt w.key field = some v := by
  cases w with
  | del key => rcases old with _ | _ <;> cases h
  | set key value => cases h
  | hset key field' value =>
    by_cases hlike : Hashlike old
    · rw [storedVersion, fieldOf_hset hlike] at h
      split_ifs at h with hf
      · exact .inr (by simpa [Write.versionAt, Write.key, hf] using h)
      · exact .inl h
    · rw [hset_of_not_hashlike hlike] at h
      exact .inl h
  | hmset key fields =>
    have hnew : (Write.hmset key fields).versionAt key field =
        (fields.lookup field).bind textVersion := if_pos rfl
    have hunion : ∀ hash : Fields, ((fields ∪ hash).lookup field).bind textVersion = some v →
        (hash.lookup field).bind textVersion = some v ∨
          (fields.lookup field).bind textVersion = some v := by
      intro hash hv
      by_cases hmem : field ∈ fields
      · rw [AList.lookup_union_left hmem] at hv
        exact .inr hv
      · rw [AList.lookup_union_right hmem] at hv
        exact .inl hv
    rcases old with _ | (_ | hash | _ | _)
    · exact .inr (hnew.trans h)
    · exact .inl h
    · exact (hunion hash h).imp_right hnew.trans
    · exact .inl h
    · exact .inl h

/-- After the writes of a transaction, a field has the version of one of them, or the one from
before. -/
theorem storedVersion_runWrites {ws : List Write} {db : Db} {key : Key} {field : String} {v : ℤ}
    (h : storedVersion ((runWrites ws db).db key) field = some v) :
    storedVersion (db key) field = some v ∨ ∃ w ∈ ws, w.versionAt key field = some v := by
  induction ws generalizing db with
  | nil => exact .inl h
  | cons w ws ih =>
    rcases ih h with hold | ⟨w', hw', hv⟩
    · by_cases hk : key = w.key
      · subst hk
        rw [Function.update_self] at hold
        exact (storedVersion_run hold).imp_right fun hv => ⟨w, List.mem_cons_self, hv⟩
      · rw [Function.update_of_ne hk] at hold
        exact .inl hold
    · exact .inr ⟨w', List.mem_cons_of_mem _ hw', hv⟩

/-- After a command, a field has the version of one of its writes that is not refused, or the one from
before. -/
theorem storedVersion_serve {cmd : Command} {db : Db} {session : Session} {fault : Fault} {key : Key}
    {field : String} {v : ℤ}
    (h : storedVersion ((cmd.serve db session fault).db key) field = some v) :
    storedVersion (db key) field = some v ∨ fault ≠ .error ∧
      ∃ queue, cmd = .exec queue ∧
        ∃ w ∈ queue, w ∉ fault.refused ∧ w.versionAt key field = some v := by
  by_cases hexec : ∃ queue, cmd = .exec queue
  · obtain ⟨queue, rfl⟩ := hexec
    by_cases hfault : fault = .error
    · subst hfault
      exact .inl h
    cases hdirty : session.dirty with
    | true =>
      rw [Command.serve_exec_of_dirty queue db hdirty hfault] at h
      exact .inl h
    | false =>
      rw [Command.serve_exec_of_clean queue db hdirty hfault] at h
      dsimp only at h
      rw [(runAllowed_eq fault.refused queue db).1] at h
      refine (storedVersion_runWrites h).imp_right fun ⟨w, hw, hv⟩ => ⟨hfault, queue, rfl, w, ?_⟩
      obtain ⟨hmem, hallowed⟩ := List.mem_filter.1 hw
      exact ⟨hmem, of_decide_eq_true hallowed, hv⟩
  · rw [(Command.serve_db (not_exists.1 hexec) db session fault).1] at h
    exact .inl h

/-- Where the item may be written, its write replaces no text but one of a lower version. -/
theorem storedVersion_runWrites_hset {db : Db} {key : Key} {item : Item} (h : Admits (db key) item)
    {key' : Key} {field : String} {w : ℤ} (hw : storedVersion (db key') field = some w) :
    fieldOf ((runWrites [.hset key item.key item.text] db).db key') field = fieldOf (db key') field ∨
      ∃ w', storedVersion ((runWrites [.hset key item.key item.text] db).db key') field = some w' ∧
        w < w' := by
  by_cases hlike : Hashlike (db key)
  · rw [storedVersion, fieldOf_runWrites_hset hlike]
    split_ifs with hf
    · obtain ⟨rfl, rfl⟩ := hf
      exact .inr ⟨item.version, by simp, h w hw⟩
    · exact .inl rfl
  · rw [runWrites_hset_of_not_hashlike hlike]
    exact .inl rfl

end RedisStore
