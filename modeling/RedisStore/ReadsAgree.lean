import RedisStore.Abstract
import RedisStore.Answers

/-!
# Point reads and bulk reads

`getInternal` decodes one field of a kind's hash, and `getAllInternal` copies all of them into an
object literal. While nothing writes to the hash and no read fails, the first answers what is shown of
the field (`point_read`), and the second an object with every field but `__proto__` (`bulk_read`):
assigning that name sets the object's prototype and makes no property. So the two agree, and the
object's own properties are the fields, exactly if `__proto__` is none of them (`reads_agree_iff`).
-/

namespace RedisStore

open Redis

/-- The texts in a kind's hash encode objects. -/
structure EncodesObjects (v : Option Value) : Prop where
  hashlike : Hashlike v
  object : ∀ field text, fieldOf v field = some text → ∃ props, Json.parse text = some (.obj props)

/-- Every text is read back as a value. -/
theorem EncodesObjects.parses {v : Option Value} (h : EncodesObjects v) (field text : String)
    (htext : fieldOf v field = some text) : (Json.parse text).isSome := by
  obtain ⟨props, hprops⟩ := h.object field text htext
  rw [hprops]
  rfl

/-- What is stored for a field: nothing, or an object. -/
theorem EncodesObjects.stored {v : Option Value} (h : EncodesObjects v) (field : String) :
    (fieldOf v field).bind Json.parse = none ∨
      ∃ props, (fieldOf v field).bind Json.parse = some (.obj props) := by
  cases hf : fieldOf v field with
  | none => exact .inl rfl
  | some text => exact .inr (h.object field text hf)

/-- What `getInternal` answers for a field. -/
theorem EncodesObjects.visible_eq {v : Option Value} (h : EncodesObjects v) (field : String) :
    visible (((fieldOf v field).bind Json.parse).getD .null) =
      Abstract.shown ((fieldOf v field).bind Json.parse) := by
  rcases h.stored field with hnone | ⟨props, hprops⟩
  · rw [hnone]
    rfl
  · rw [hprops, Option.getD_some, visible, Abstract.shown]
    cases (Json.obj props).propTruthy "deleted" <;> rfl

/-- An object is shown if it is not deleted. -/
theorem shown_obj {props : List (String × Json)} (h : (Json.obj props).propTruthy "deleted" = false) :
    Abstract.shown (some (.obj props)) = .obj props := by
  rw [Abstract.shown, h]
  rfl

/-- Of nothing or an object, what is shown is that object, if it is not deleted, or `null`. -/
theorem shown_eq_obj_iff {stored : Option Json} (h : stored = none ∨ ∃ props, stored = some (.obj props))
    (props : List (String × Json)) : Abstract.shown stored = .obj props ↔
      stored = some (.obj props) ∧ (Json.obj props).propTruthy "deleted" = false := by
  constructor
  · intro hshown
    rcases h with rfl | ⟨props', rfl⟩
    · cases hshown
    · rw [Abstract.shown] at hshown
      split_ifs at hshown with hdeleted
      rw [← hshown]
      exact ⟨rfl, Bool.eq_false_iff.2 hdeleted⟩
  · rintro ⟨rfl, hnot⟩
    exact shown_obj hnot

theorem shown_eq_null {stored : Option Json} (h : stored = none ∨ ∃ props, stored = some (.obj props))
    (hnot : ∀ props, Abstract.shown stored ≠ .obj props) : Abstract.shown stored = .null := by
  rcases h with rfl | ⟨props, rfl⟩
  · rfl
  · cases hdeleted : (Json.obj props).propTruthy "deleted" with
    | true =>
      rw [Abstract.shown, hdeleted]
      rfl
    | false => exact absurd (shown_obj hdeleted) (hnot props)

/-- What the two reads of a hash answer has to do with each other and with the hash: `x` for the read
of a key, and `results` for that of everything. -/
structure ReadsAgree (v : Option Value) (key : String) (x : Json)
    (results : Option (PlainObject Json)) : Prop where
  /-- The read of the key answers an item exactly if it is an own property of the object, and not
  deleted. -/
  item : ∀ props, x = .obj props ↔ ∃ o, results = some o ∧ o.own.lookup key = some (.obj props) ∧
    (Json.obj props).propTruthy "deleted" = false
  /-- Otherwise it answers `null`. -/
  null : (∀ props, x ≠ .obj props) → x = .null
  /-- The own properties of the object are the fields, each with its value. -/
  fields : ∃ o, results = some o ∧ ∀ name, o.own.lookup name = (fieldOf v name).bind Json.parse

/-- The read of a kind's hash that a callback is for, if it is for one. -/
def Callback.reads (key : Key) (kind : Kind) : Callback → Option Command
  | .hget kind' field (.getInternal _) => if kind' = kind then some (.hget key field) else none
  | .hgetall kind' _ => if kind' = kind then some (.hgetall key) else none
  | _ => none

namespace Sys

variable {ι : Type} [DecidableEq ι] {s t : Sys ι} {l : Label ι} {ls : List (Label ι)} {c : ι}
  {kind : Kind} {key : Key} {v : Option Value}

/-- The connection is up, and the replies that wait for its reads of a kind are those from a value
under the kind's key. -/
structure Reading (s : Sys ι) (c : ι) (kind : Kind) (key : Key) (v : Option Value) : Prop where
  queued : ∀ d, (s.conn d).Queued
  up : (s.conn c).state.down = false
  key_eq : itemsKey (s.conn c).state kind = key
  replies : ∀ cb reply cmd, (cb, reply) ∈ (s.conn c).outbox → cb.reads key kind = some cmd →
    reply = cmd.read fun _ => v

/-- A step without an error on the connection keeps this while the key holds the value. -/
theorem reading_step (hs : Reading s c kind key v) (hdb : s.db key = v) (hl : Faultless c l)
    (h : step s l = some t) : Reading t c kind key v where
  queued := queued_step hs.queued h
  up := up_of_step h hl hs.up
  key_eq := by
    unfold itemsKey
    rw [step_itemsPrefix h c]
    exact hs.key_eq
  replies cb reply cmd hmem hcmd := by
    rcases outbox_of_step h hmem with hmem | ⟨-, hfault⟩ | ⟨fault, request, rest, rfl, hstep, hcb, hr, -⟩
    · exact hs.replies cb reply cmd hmem hcmd
    · exact absurd hl hfault
    · have hissued := (hs.queued c).inbox request (by rw [hstep.inbox]; exact List.mem_cons_self)
      have hkey := hs.key_eq
      obtain rfl : fault = .none := hl rfl
      subst hr
      cases hissued with
      | getRead kind' field call =>
        obtain rfl := Option.some.inj hcb
        obtain ⟨rfl, rfl⟩ : kind' = kind ∧ .hget key field = cmd := by
          simpa [Callback.reads] using hcmd
        rw [hkey]
        have hsame : ∀ k ∈ (Command.hget key field).keys, s.db k = (fun _ => v) k := by
          simpa [Command.keys] using hdb
        exact (Command.execute_congr _ hsame _).1
      | getAll kind' call =>
        obtain rfl := Option.some.inj hcb
        obtain ⟨rfl, rfl⟩ : kind' = kind ∧ .hgetall key = cmd := by
          simpa [Callback.reads] using hcmd
        rw [hkey]
        have hsame : ∀ k ∈ (Command.hgetall key).keys, s.db k = (fun _ => v) k := by
          simpa [Command.keys] using hdb
        exact (Command.execute_congr _ hsame _).1
      | watch kind' => cases hcb
      | _ =>
        obtain rfl := Option.some.inj hcb
        cases hcmd

/-- The key holds a value, and the step gives the connection no error. -/
def Still (c : ι) (key : Key) (v : Option Value) (u : Sys ι) (l : Label ι) : Prop :=
  u.db key = v ∧ Faultless c l

/-- A run without a write to the key. -/
theorem still_of_not_modified
    (hG : Along (fun u l => key ∉ modified u l ∧ Faultless c l) s ls) :
    Along (Still c key (s.db key)) s ls := by
  induction ls generalizing s with
  | nil => trivial
  | cons l ls ih =>
    refine ⟨⟨rfl, hG.1.2⟩, fun t ht => ?_⟩
    rw [← step_db ht hG.1.1]
    exact ih (hG.2 t ht)

theorem reading_run (h₀ : Fresh s) (hup : (s.conn c).state.down = false)
    (hkey : itemsKey (s.conn c).state kind = key) (hG : Along (Still c key v) s ls)
    (h : run s ls = some t) : Reading t c kind key v :=
  Transition.run_invariant (P := fun u => Reading u c kind key v)
    (fun _ _ _ hs hl hstep => reading_step hs hl.1 hl.2 hstep)
    ⟨h₀.queued, hup, hkey, fun cb reply cmd hmem => by simp [h₀.outbox c] at hmem⟩ hG h

/-- The answer to a read that answers nothing at once is given by its callback, on its reply. -/
theorem answered_of_reading (h₀ : Fresh s) (hup : (s.conn c).state.down = false)
    (hkey : itemsKey (s.conn c).state kind = key) (hG : Along (Still c key v) s ls)
    (h : run s ls = some t) {call : CallId} {op : Op} {a : Answer}
    (hstart : ∀ state : StoreState, state.down = false → (op.start state call).answered = [])
    (hcalled : .called c call op ∈ t.log) (ha : .answered c call a ∈ t.log) :
    ∃ u cb reply, Reading u c kind key v ∧ (cb, reply) ∈ (u.conn c).outbox ∧ Awaited cb ∧
      cb.op = op ∧ cb.call = call ∧ (call, a) ∈ (cb.resume (u.conn c).state reply).answered := by
  obtain ⟨ls₁, l, ls₂, u, w, rfl, hu, -, -, hgiven⟩ := step_of_called_answered h₀ h hcalled ha
  have hreading : Reading u c kind key v :=
    reading_run h₀ hup hkey ((Transition.along_append hu).1 hG).1 hu
  rcases hgiven with ⟨-, hans⟩ | ⟨cb, reply, -, hmem, hcb, hop, hcall, hans⟩
  · rw [hstart _ hreading.up] at hans
    cases hans
  · exact ⟨u, cb, reply, hreading, hmem, hcb, hop, hcall, hans⟩

/-- The read of a key answers what is shown of its field. -/
theorem point_read (h₀ : Fresh s) (hup : (s.conn c).state.down = false)
    (hkey : itemsKey (s.conn c).state kind = key) (hobjects : EncodesObjects v)
    (hG : Along (Still c key v) s ls) (h : run s ls = some t) {call : CallId} {field : String}
    {x : Json} (hcalled : .called c call (.getInternal kind field) ∈ t.log)
    (ha : .answered c call (.item x) ∈ t.log) :
    x = Abstract.shown ((fieldOf v field).bind Json.parse) := by
  have hstart : ∀ state : StoreState, state.down = false →
      ((Op.getInternal kind field).start state call).answered = [] :=
    fun state hdown => (getInternal_does_of_up hdown kind field call).answered
  obtain ⟨u, cb, reply, hreading, hmem, hcb, hop, rfl, hans⟩ :=
    answered_of_reading h₀ hup hkey hG h hstart hcalled ha
  cases hcb with
  | getRead kind' field' call' =>
    obtain ⟨rfl, rfl⟩ := Op.getInternal.inj hop
    obtain rfl := hreading.replies _ _ _ hmem (if_pos rfl)
    have hdoes := onHget_getInternal_does (u.conn c).state kind' field' call'
      ((Command.hget key field').read fun _ => v)
    have hitem : replyItem ((Command.hget key field').read fun _ => v) = _ :=
      replyItem_read_hget hobjects.hashlike (hobjects.parses field')
    rw [hitem] at hdoes
    rw [Callback.resume, hdoes.answered] at hans
    obtain ⟨-, rfl⟩ : _ ∧ x = visible (((fieldOf v field').bind Json.parse).getD .null) := by
      simpa using hans
    exact hobjects.visible_eq field'
  | _ => cases hop

/-- The read of the whole hash answers an object with every field but `__proto__`. -/
theorem bulk_read (h₀ : Fresh s) (hup : (s.conn c).state.down = false)
    (hkey : itemsKey (s.conn c).state kind = key) (hobjects : EncodesObjects v)
    (hG : Along (Still c key v) s ls) (h : run s ls = some t) {call : CallId}
    {results : Option (PlainObject Json)}
    (hcalled : .called c call (.getAllInternal kind) ∈ t.log)
    (ha : .answered c call (.items results) ∈ t.log) :
    ∃ o, results = some o ∧ ∀ name, o.own.lookup name =
      if name = "__proto__" then none else (fieldOf v name).bind Json.parse := by
  have hstart : ∀ state : StoreState, state.down = false →
      ((Op.getAllInternal kind).start state call).answered = [] :=
    fun state hdown => (getAllInternal_does_of_up hdown kind call).answered
  obtain ⟨u, cb, reply, hreading, hmem, hcb, hop, rfl, hans⟩ :=
    answered_of_reading h₀ hup hkey hG h hstart hcalled ha
  cases hcb with
  | getAll kind' call' =>
    obtain rfl := Op.getAllInternal.inj hop
    obtain ⟨o, ho, hlookup⟩ :
        ∃ o, replyItems ((Command.hgetall key).read fun _ => v) = .ok (some o) ∧ ∀ name,
          o.own.lookup name = if name = "__proto__" then none else (fieldOf v name).bind Json.parse :=
      replyItems_read_hgetall hobjects.hashlike hobjects.parses
    obtain rfl := hreading.replies _ _ _ hmem (if_pos rfl)
    have hdoes := onHgetall_does kind' call' ((Command.hgetall key).read fun _ => v)
    rw [ho] at hdoes
    rw [Callback.resume, hdoes.answered] at hans
    obtain ⟨-, rfl⟩ : _ ∧ results = some o := by simpa using hans
    exact ⟨o, rfl, hlookup⟩
  | _ => cases hop

/-- For every content of a kind's hash and every run that leaves it as it is, without an error on the
connection: the answers to a read of a key and to a read of everything agree, exactly if the hash has no
field `__proto__`. -/
theorem reads_agree_iff (h₀ : Fresh s) (hup : (s.conn c).state.down = false)
    (hobjects : EncodesObjects v) (hG : Along (Still c (itemsKey (s.conn c).state kind) v) s ls)
    (h : run s ls = some t) {call call' : CallId} {field : String} {x : Json}
    {results : Option (PlainObject Json)}
    (hget : .called c call (.getInternal kind field) ∈ t.log)
    (hitem : .answered c call (.item x) ∈ t.log)
    (hgetAll : .called c call' (.getAllInternal kind) ∈ t.log)
    (hitems : .answered c call' (.items results) ∈ t.log) :
    ReadsAgree v field x results ↔ fieldOf v "__proto__" = none := by
  have hx := point_read h₀ hup rfl hobjects hG h hget hitem
  obtain ⟨o, rfl, hlookup⟩ := bulk_read h₀ hup rfl hobjects hG h hgetAll hitems
  constructor
  · intro hagree
    obtain ⟨o', ho, hfields⟩ := hagree.fields
    obtain rfl := Option.some.inj ho
    cases hf : fieldOf v "__proto__" with
    | none => rfl
    | some text =>
      -- The field has a value, and the object no such property.
      have hproto := (hlookup "__proto__").symm.trans (hfields "__proto__")
      obtain ⟨props, hprops⟩ := hobjects.object "__proto__" text hf
      rw [hf, Option.bind_some, hprops] at hproto
      cases hproto
  · intro hproto
    have hfields : ∀ name, o.own.lookup name = (fieldOf v name).bind Json.parse := by
      intro name
      rw [hlookup]
      split_ifs with hname
      · rw [hname, hproto]
        rfl
      · rfl
    have hstored := hobjects.stored field
    refine ⟨fun props => ?_, fun hnot => ?_, o, rfl, hfields⟩
    · rw [hx, shown_eq_obj_iff hstored, ← hfields]
      simp only [Option.some.injEq, exists_eq_left']
    · rw [hx] at hnot ⊢
      exact shown_eq_null hstored hnot

/-! ## The field `__proto__` -/

/-- A database where the kind `features` has one item, of version 1. -/
def oneItemDb (field : String) : Db :=
  Function.update (fun _ => none) (itemsKey connectedState .features)
    (some (.hash ((∅ : Fields).insert field (Item.ofVersion field 1).text)))

/-- A read of a key, and one of everything. -/
def bothReads (field : String) : List (Label Unit) :=
  [.call () (.getInternal .features field), .serve () .none, .deliver (),
    .call () (.getAllInternal .features), .serve () .none, .deliver ()]

/-- The hash of such a database encodes an object. -/
theorem encodesObjects_oneItem (field : String) :
    EncodesObjects (oneItemDb field (itemsKey connectedState .features)) where
  hashlike := trivial
  object name text htext := by
    rw [oneItemDb, Function.update_self, fieldOf_hash] at htext
    by_cases hname : name = field
    · subst hname
      rw [AList.lookup_insert] at htext
      obtain rfl := Option.some.inj htext
      exact ⟨_, Json.parse_stringify _⟩
    · rw [AList.lookup_insert_ne hname] at htext
      cases htext

/-- The two reads are answered. -/
theorem bothReads_run {field : String}
    (hend : (run (opened (oneItemDb field) fun _ => connectedState) (bothReads field)).map
      (fun t => decide (AllAnswered t)) = some true) :
    ∃ t call call' x results,
      run (opened (oneItemDb field) fun _ => connectedState) (bothReads field) = some t ∧
      .called () call (.getInternal .features field) ∈ t.log ∧ .answered () call (.item x) ∈ t.log ∧
      .called () call' (.getAllInternal .features) ∈ t.log ∧
      .answered () call' (.items results) ∈ t.log := by
  obtain ⟨t, ht, hall⟩ := Option.map_eq_some_iff.1 hend
  have hall : AllAnswered t := of_decide_eq_true hall
  obtain ⟨call, hget⟩ := called_of_mem ht (show .call () (.getInternal .features field) ∈ bothReads field by
    simp [bothReads])
  obtain ⟨call', hgetAll⟩ := called_of_mem ht (show .call () (.getAllInternal .features) ∈ bothReads field by
    simp [bothReads])
  obtain ⟨a, ha⟩ := hall () call _ hget
  obtain ⟨a', ha'⟩ := hall () call' _ hgetAll
  have hmay := mayAnswer_of_answered (opened_fresh _ _) ht hget ha
  have hmay' := mayAnswer_of_answered (opened_fresh _ _) ht hgetAll ha'
  cases a with
  | item x =>
    cases a' with
    | items results => exact ⟨t, call, call', x, results, ht, hget, ha, hgetAll, ha'⟩
    | _ => cases hmay'
  | _ => cases hmay

/-- An item under the key `__proto__`: the read of everything answers an object without it. -/
theorem reads_disagree :
    ∃ (s t : Sys Unit) (v : Option Value) (call call' : CallId) (x : Json)
      (results : Option (PlainObject Json)), Fresh s ∧ (s.conn ()).state.down = false ∧
      EncodesObjects v ∧
      Along (Still () (itemsKey (s.conn ()).state .features) v) s (bothReads "__proto__") ∧
      run s (bothReads "__proto__") = some t ∧
      .called () call (.getInternal .features "__proto__") ∈ t.log ∧
      .answered () call (.item x) ∈ t.log ∧ .called () call' (.getAllInternal .features) ∈ t.log ∧
      .answered () call' (.items results) ∈ t.log ∧ ¬ ReadsAgree v "__proto__" x results := by
  obtain ⟨t, call, call', x, results, ht, hget, hx, hgetAll, hr⟩ :=
    @bothReads_run "__proto__" (by decide +kernel)
  have hno : Along (fun u l => itemsKey connectedState .features ∉ modified u l ∧ Faultless () l)
      (opened (oneItemDb "__proto__") fun _ => connectedState) (bothReads "__proto__") := by
    decide +kernel
  have hG := still_of_not_modified hno
  refine ⟨_, t, _, call, call', x, results, opened_fresh _ _, rfl, encodesObjects_oneItem _, hG, ht,
    hget, hx, hgetAll, hr, fun hagree => ?_⟩
  obtain ⟨o, rfl, hlookup⟩ := bulk_read (opened_fresh _ _) rfl rfl (encodesObjects_oneItem _) hG ht
    hgetAll hr
  obtain ⟨o', ho, hfields⟩ := hagree.fields
  obtain rfl := Option.some.inj ho
  have hproto := (hlookup "__proto__").symm.trans (hfields "__proto__")
  rw [oneItemDb, Function.update_self, fieldOf_hash, AList.lookup_insert, Option.bind_some, Item.text,
    Json.parse_stringify] at hproto
  cases hproto

/-- An item under an ordinary key. -/
theorem reads_agree_iff_ordinary :
    ∃ (t : Sys Unit) (call call' : CallId) (x : Json) (results : Option (PlainObject Json)),
      run (opened (oneItemDb "f") fun _ => connectedState) (bothReads "f") = some t ∧
      .answered () call (.item x) ∈ t.log ∧ .answered () call' (.items results) ∈ t.log ∧
      ReadsAgree (oneItemDb "f" (itemsKey connectedState .features)) "f" x results := by
  obtain ⟨t, call, call', x, results, ht, hget, hx, hgetAll, hr⟩ :=
    @bothReads_run "f" (by decide +kernel)
  have hno : Along (fun u l => itemsKey connectedState .features ∉ modified u l ∧ Faultless () l)
      (opened (oneItemDb "f") fun _ => connectedState) (bothReads "f") := by
    decide +kernel
  have hG := still_of_not_modified hno
  exact ⟨t, call, call', x, results, ht, hx, hr, (reads_agree_iff (opened_fresh _ _) rfl
    (encodesObjects_oneItem "f") hG ht hget hx hgetAll hr).2 (by decide +kernel)⟩

end Sys

end RedisStore
