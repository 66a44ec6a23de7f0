import RedisStore.Store.BigSegment

/-!
# What the code of the stores does

For each function and callback of the stores, the commands that it issues, the calls that it answers
and the exceptions that escape from it. The proofs about runs use these and do not unfold the code.
The read of an upsert has three outcomes, which `replyVerdict` computes from the reply: the upsert
goes on to write, it is rejected because the stored item is not older, or the code throws.
-/

namespace RedisStore

open Redis

/-- What a piece of code does, apart from its lines in the log. -/
structure Js.Does (code : Code Unit) (issued : List Request) (answered : List (CallId × Answer))
    (thrown : List Exn) : Prop where
  issued : code.issued = issued
  answered : code.answered = answered
  thrown : code.thrown = thrown

/-- The one answer of code that is known to give one. -/
theorem Js.Does.eq_answer {code : Code Unit} {issued : List Request} {call call' : CallId}
    {a a' : Answer} {thrown : List Exn} (h : code.Does issued [(call, a)] thrown)
    (ha : (call', a') ∈ code.answered) : a' = a := by
  rw [h.answered] at ha
  exact (Prod.mk.inj (List.mem_singleton.1 ha)).2

/-- And code that gives none. -/
theorem Js.Does.not_answer {code : Code Unit} {issued : List Request} {thrown : List Exn}
    (h : code.Does issued [] thrown) {p : CallId × Answer} (ha : p ∈ code.answered) : False := by
  rw [h.answered] at ha
  cases ha

/-! ## Reads -/

/-- The item that `getInternal` answers, from the value that it read. -/
def visible (item : Json) : Json :=
  if item.truthy && !item.propTruthy "deleted" then item else .null

theorem onGet_getInternal_does (state : StoreState) (call : CallId) (item : Json) :
    (onGet state (.getInternal call) item).Does [] [(call, .item (visible item))] [] := by
  simp only [onGet, visible]
  split_ifs <;> exact ⟨rfl, rfl, rfl⟩

/-- A read while the connection is up, or not yet made, issues its command. -/
theorem getInternal_does_of_up {state : StoreState} (h : state.down = false) (kind : Kind)
    (key : String) (call : CallId) :
    (getInternal state kind key call).Does
      [⟨.hget (itemsKey state kind) key, some (.hget kind key (.getInternal call))⟩] [] [] := by
  unfold getInternal doGet
  rw [h]
  exact ⟨rfl, rfl, rfl⟩

/-- A read while the connection is down answers `null` at once. -/
theorem getInternal_does_of_down {state : StoreState} (h : state.down = true) (kind : Kind)
    (key : String) (call : CallId) :
    (getInternal state kind key call).Does [] [(call, .item .null)] [] := by
  unfold getInternal doGet
  rw [h]
  exact ⟨rfl, rfl, rfl⟩

theorem getAllInternal_does_of_up {state : StoreState} (h : state.down = false) (kind : Kind)
    (call : CallId) :
    (getAllInternal state kind call).Does
      [⟨.hgetall (itemsKey state kind), some (.hgetall kind call)⟩] [] [] := by
  unfold getAllInternal
  rw [h]
  exact ⟨rfl, rfl, rfl⟩

theorem getAllInternal_does_of_down {state : StoreState} (h : state.down = true) (kind : Kind)
    (call : CallId) :
    (getAllInternal state kind call).Does [] [(call, .items none)] [] := by
  unfold getAllInternal
  rw [h]
  exact ⟨rfl, rfl, rfl⟩

/-- The value that the callback of a read works on: `null` for anything but a string. -/
def replyItem : Reply → Except Exn Json
  | .str s => jsonParse s
  | _ => .ok .null

/-- The callback of `getInternal`'s read. -/
theorem onHget_getInternal_does (state : StoreState) (kind : Kind) (key : String) (call : CallId)
    (reply : Reply) :
    match replyItem reply with
    | .ok item => (onHget state kind key (.getInternal call) reply).Does []
        [(call, .item (visible item))] []
    | .error x => (onHget state kind key (.getInternal call) reply).Does [] [] [x] := by
  cases reply with
  | str s =>
    simp only [replyItem, onHget]
    cases jsonParse s with
    | ok item =>
      obtain ⟨h1, h2, h3⟩ := onGet_getInternal_does state call item
      simp only [Js.ofExcept_ok, Js.mk_ok_bind, List.nil_append]
      exact ⟨h1, h2, h3⟩
    | error x => exact ⟨rfl, rfl, rfl⟩
  | _ => exact ⟨rfl, rfl, rfl⟩

/-- The items that a reply to `hgetall` decodes to, or `null` where the read failed. -/
def replyItems : Reply → Except Exn (Option (PlainObject Json))
  | .error => .ok none
  | .object fields => (decodeItems fields).map some
  | _ => .ok (some .empty)

theorem onHgetall_does (kind : Kind) (call : CallId) (reply : Reply) :
    match replyItems reply with
    | .ok results => (onHgetall kind call reply).Does [] [(call, .items results)] []
    | .error x => (onHgetall kind call reply).Does [] [] [x] := by
  cases reply with
  | object fields =>
    simp only [replyItems, onHgetall]
    cases decodeItems fields <;> exact ⟨rfl, rfl, rfl⟩
  | _ => exact ⟨rfl, rfl, rfl⟩

theorem initializedInternal_does (state : StoreState) (call : CallId) :
    (initializedInternal state call).Does
      [⟨.existsKey (initedKey state), some (.initedExists call)⟩] [] [] :=
  ⟨rfl, rfl, rfl⟩

/-- The answer of `initializedInternal`, from the reply to its command. -/
def replyInited : Reply → Bool
  | .int n => n ≠ 0
  | _ => false

theorem onInitedExists_does (call : CallId) (reply : Reply) :
    (onInitedExists call reply).Does [] [(call, .inited (replyInited reply))] [] := by
  cases reply <;> exact ⟨rfl, rfl, rfl⟩

/-! ## Inits -/

theorem initInternal_does_of_ok {state : StoreState} {allData : AllData} {multi : Multi}
    (h : buildInit state allData = .ok multi) (call : CallId) :
    (initInternal state allData call).Does [⟨.exec multi, some (.initExec allData call)⟩] [] [] := by
  unfold initInternal
  rw [h]
  exact ⟨rfl, rfl, rfl⟩

theorem initInternal_does_of_error {state : StoreState} {allData : AllData} {x : Exn}
    (h : buildInit state allData = .error x) (call : CallId) :
    (initInternal state allData call).Does [] [] [x] := by
  unfold initInternal
  rw [h]
  exact ⟨rfl, rfl, rfl⟩

theorem onInitExec_does (call : CallId) (reply : Reply) :
    (onInitExec call reply).Does [] [(call, .done)] [] := by
  unfold onInitExec
  split_ifs <;> exact ⟨rfl, rfl, rfl⟩

/-! ## Upserts -/

/-- The command that reads the item under an upsert's key. -/
def readRequest (state : StoreState) (kind : Kind) (item : Item) (call : CallId) : Request :=
  ⟨.hget (itemsKey state kind) item.key, some (.hget kind item.key (.update kind item [] call))⟩

/-- The transaction that writes an upsert's item. -/
def writeRequest (state : StoreState) (kind : Kind) (item : Item) (call : CallId) : Request :=
  ⟨.exec [.hset (itemsKey state kind) item.key item.text], some (.upsertExec kind item call)⟩

theorem upsertInternal_does_of_up {state : StoreState} (h : state.down = false) (kind : Kind)
    (item : Item) (call : CallId) :
    (upsertInternal state kind item call).Does
      [⟨.watch (itemsKey state kind), none⟩, readRequest state kind item call] [] [] := by
  unfold upsertInternal updateItemWithVersioning doGet
  rw [h]
  exact ⟨rfl, rfl, rfl⟩

/-- While the connection is down the read is skipped, and the upsert goes on as if the key were
absent. -/
theorem upsertInternal_does_of_down {state : StoreState} (h : state.down = true) (kind : Kind)
    (item : Item) (call : CallId) :
    (upsertInternal state kind item call).Does
      [⟨.watch (itemsKey state kind), none⟩, writeRequest state kind item call] [] [] := by
  unfold upsertInternal updateItemWithVersioning doGet
  rw [h]
  exact ⟨rfl, rfl, rfl⟩

/-- An upsert answers nothing before its commands. -/
theorem not_answered_upsertInternal {state : StoreState} {kind : Kind} {item : Item} {call : CallId}
    {p : CallId × Answer} (hp : p ∈ (upsertInternal state kind item call).answered) : False := by
  cases hdown : state.down with
  | false => exact (upsertInternal_does_of_up hdown kind item call).not_answer hp
  | true => exact (upsertInternal_does_of_down hdown kind item call).not_answer hp

/-- What an upsert does with the value that it read. -/
inductive Verdict where
  | write
  | reject (oldItem : Json)
  | fail (x : Exn)

/-- The version check on a parsed value. -/
def Json.verdict (oldItem : Json) (item : Item) : Verdict :=
  if oldItem.truthy then
    match Json.geNumber (oldItem.prop "version") (.ofInt item.version) with
    | .ok true => .reject oldItem
    | .ok false => .write
    | .error x => .fail x
  else .write

/-- The version check on the reply to the read. -/
def replyVerdict (reply : Reply) (item : Item) : Verdict :=
  match replyItem reply with
  | .ok oldItem => oldItem.verdict item
  | .error x => .fail x

/-- The callback of an upsert's read. -/
theorem onHget_update_does (state : StoreState) (kind : Kind) (key : String) (item : Item)
    (call : CallId) (reply : Reply) :
    match replyVerdict reply item with
    | .write => (onHget state kind key (.update kind item [] call) reply).Does
        [writeRequest state kind item call] [] []
    | .reject oldItem => (onHget state kind key (.update kind item [] call) reply).Does []
        [(call, .upserted false oldItem)] []
    | .fail x => (onHget state kind key (.update kind item [] call) reply).Does [] [] [x] := by
  cases reply with
  | str s =>
    simp only [replyVerdict, replyItem, onHget]
    cases jsonParse s with
    | error x => exact ⟨rfl, rfl, rfl⟩
    | ok oldItem =>
      simp only [Js.ofExcept_ok, Js.mk_ok_bind, List.nil_append, onGet, Json.verdict]
      cases oldItem.truthy with
      | false => exact ⟨rfl, rfl, rfl⟩
      | true =>
        simp only [if_true]
        rcases Json.geNumber (oldItem.prop "version") (.ofInt item.version) with x | (_ | _) <;>
          exact ⟨rfl, rfl, rfl⟩
  | _ => exact ⟨rfl, rfl, rfl⟩

/-- The callback of an upsert's transaction, where it was not aborted. -/
theorem onUpsertExec_does {reply : Reply} (h : reply ≠ .nil) (state : StoreState) (kind : Kind)
    (item : Item) (call : CallId) :
    (onUpsertExec state kind item call reply).Does []
      [(call, .upserted (decide (reply = .error)) item.json)] [] := by
  cases reply <;> first | exact absurd rfl h | exact ⟨rfl, rfl, rfl⟩

/-- An aborted transaction starts the upsert again. -/
theorem onUpsertExec_does_of_nil {state : StoreState} {kind : Kind} {item : Item} {call : CallId}
    {issued : List Request} {answered : List (CallId × Answer)} {thrown : List Exn}
    (h : (upsertInternal state kind item call).Does issued answered thrown) :
    (onUpsertExec state kind item call .nil).Does issued answered thrown := by
  obtain ⟨h1, h2, h3⟩ := h
  exact ⟨h1, h2, h3⟩

/-! ## Verdicts and versions -/

/-- A rejected upsert has read the item that it answers. -/
theorem replyVerdict_reject {reply : Reply} {item : Item} {oldItem : Json}
    (h : replyVerdict reply item = .reject oldItem) :
    ∃ text, reply = .str text ∧ Json.parse text = some oldItem ∧ oldItem.truthy = true ∧
      Json.geNumber (oldItem.prop "version") (.ofInt item.version) = .ok true := by
  unfold replyVerdict at h
  -- A check rejects with the value that it has read.
  have key : ∀ j : Json, j.verdict item = .reject oldItem → j = oldItem ∧ j.truthy = true ∧
      Json.geNumber (j.prop "version") (.ofInt item.version) = .ok true := by
    intro j hj
    unfold Json.verdict at hj
    split_ifs at hj with ht
    split at hj <;> simp_all
  cases reply with
  | str text =>
    simp only [replyItem, jsonParse] at h
    cases hp : Json.parse text with
    | none => simp [hp] at h
    | some j =>
      simp only [hp] at h
      obtain ⟨rfl, ht, hge⟩ := key j h
      exact ⟨text, rfl, hp, ht, hge⟩
  | _ => exact absurd (key _ h).2.1 (by decide)

/-- An upsert that read an item goes on to write exactly if the item's version is lower. -/
theorem Json.verdict_of_itemVersion {j : Json} {v : ℤ} (h : j.itemVersion = some v) (item : Item) :
    j.verdict item = if item.version ≤ v then .reject j else .write := by
  rw [Json.verdict, Json.truthy_of_itemVersion h, Json.geNumber_itemVersion h]
  by_cases hv : item.version ≤ v <;> simp [hv]

end RedisStore
