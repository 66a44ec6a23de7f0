import RedisStore.Store.Callback

/-!
# The feature store

`redis_feature_store.js`, function by function. `state` is the value of the shared state when the
code runs. A callback of the source is the function `on…` with the same closure, applied to the
reply. The instrumentation hook of the unit tests is not set in production, so that `prepare` calls
its argument at once.
-/

namespace RedisStore

open Redis

/-- `initedKey` -/
def initedKey (state : StoreState) : Key := state.itemsPrefix ++ "$inited"

/-- `itemsKey` -/
def itemsKey (state : StoreState) (kind : Kind) : Key := state.itemsPrefix ++ kind.namespaceName

/-- The properties that every plain object inherits. -/
def objectPrototype : List String :=
  ["constructor", "__defineGetter__", "__defineSetter__", "hasOwnProperty", "__lookupGetter__",
    "__lookupSetter__", "isPrototypeOf", "propertyIsEnumerable", "toString", "valueOf",
    "__proto__", "toLocaleString"]

/-- `dataKind[kindNamespace].namespace`, as it is appended to a string. An inherited property is an
object without a `namespace`; any other name is not found, and reading `namespace` throws. -/
def dataKindNamespace (kindNamespace : String) : Except Exn String :=
  if kindNamespace = Kind.features.namespaceName then .ok Kind.features.namespaceName
  else if kindNamespace = Kind.segments.namespaceName then .ok Kind.segments.namespaceName
  else if kindNamespace ∈ objectPrototype then .ok "undefined"
  else .error .typeError

/-- `JSON.parse` on a string. -/
def jsonParse (s : String) : Except Exn Json :=
  match Json.parse s with
  | some j => .ok j
  | none => .error .syntaxError

/-- The callback of `upsertInternal`, which `updateItemWithVersioning` calls. -/
def upsertCallback (kind : Kind) (item : Item) (call : CallId) (err : Bool)
    (attemptedWrite : Json) : Code Unit := do
  if err then
    logLine .error ("Error upserting key " ++ item.key ++ " in '" ++ kind.namespaceName ++ "'")
  answer call (.upserted err attemptedWrite)

/-- The function that `getInternal` or `updateItemWithVersioning` passes to `doGet`. -/
def onGet (state : StoreState) : GetCallback → Json → Code Unit
  | .getInternal call, item =>
    if item.truthy && !item.propTruthy "deleted" then answer call (.item item)
    else answer call (.item .null)
  | .update kind newItem multi call, oldItem => do
    let notNewer ←
      if oldItem.truthy then
        Js.ofExcept (Json.geNumber (oldItem.prop "version") (.ofInt newItem.version))
      else pure false
    if notNewer then
      -- `multi.discard()` adds to the local queue, which is dropped: nothing is sent.
      upsertCallback kind newItem call false oldItem
    else
      let multi := Multi.hset multi (itemsKey state kind) newItem.key newItem.text
      issue (.exec multi) (some (.upsertExec kind newItem call))

/-- `doGet` -/
def doGet (state : StoreState) (kind : Kind) (key : String) (cb : GetCallback) : Code Unit := do
  if state.down then
    logLine .warn ("Attempted to fetch key " ++ key ++ " while Redis connection is down")
    onGet state cb .null
  else
    issue (.hget (itemsKey state kind) key) (some (.hget kind key cb))

/-- The callback of `hget` in `doGet`. `JSON.parse(null)` is `null`. -/
def onHget (state : StoreState) (kind : Kind) (key : String) (cb : GetCallback) :
    Reply → Code Unit
  | .error => do
    logLine .error ("Error fetching key " ++ key ++ " from Redis in '" ++ kind.namespaceName ++ "'")
    onGet state cb .null
  | .str s => do
    let item ← Js.ofExcept (jsonParse s)
    onGet state cb item
  | _ => onGet state cb .null

/-- `getInternal` -/
def getInternal (state : StoreState) (kind : Kind) (key : String) (call : CallId) : Code Unit :=
  doGet state kind key (.getInternal call)

/-- `getAllInternal` -/
def getAllInternal (state : StoreState) (kind : Kind) (call : CallId) : Code Unit := do
  if state.down then
    logLine .warn "Attempted to fetch all keys while Redis connection is down"
    answer call (.items none)
  else
    issue (.hgetall (itemsKey state kind)) (some (.hgetall kind call))

/-- The loop of `getAllInternal` over the fields of the hash:
`results[key] = JSON.parse(items[key])`. -/
def decodeItems (items : Fields) : Except Exn (PlainObject Json) :=
  PlainObject.assignAll Json.isPrototype jsonParse items.entries .empty

/-- The callback of `hgetall` in `getAllInternal`. -/
def onHgetall (kind : Kind) (call : CallId) : Reply → Code Unit
  | .error => do
    logLine .error ("Error fetching '" ++ kind.namespaceName ++ "' from Redis")
    answer call (.items none)
  | .object items => do
    let results ← Js.ofExcept (decodeItems items)
    answer call (.items (some results))
  | _ => answer call (.items (some PlainObject.empty))

/-- The inner loop of `initInternal`: `stringified[key] = JSON.stringify(items[key])`. A string is
never a prototype. -/
def stringifyItems (items : AList fun _ : String => JsValue) : Except Exn (PlainObject String) :=
  PlainObject.assignAll (fun _ => false) JsValue.stringify items.entries .empty

/-- The body of the outer loop of `initInternal`. -/
def addKind (state : StoreState) (multi : Multi) (kindNamespace : String)
    (items : AList fun _ : String => JsValue) : Except Exn Multi := do
  let name ← dataKindNamespace kindNamespace
  let baseKey := state.itemsPrefix ++ name
  let multi := multi.del baseKey
  let stringified ← stringifyItems items
  -- Redis does not allow `hmset` with an empty object.
  if 0 < stringified.own.keys.length then return multi.hmset baseKey stringified.own
  else return multi

/-- The transaction that `initInternal` builds. -/
def buildInit (state : StoreState) (allData : AllData) : Except Exn Multi := do
  let multi ← allData.entries.foldlM (fun multi e => addKind state multi e.1 e.2) []
  return multi.set (initedKey state) ""

/-- `initInternal` -/
def initInternal (state : StoreState) (allData : AllData) (call : CallId) : Code Unit := do
  let multi ← Js.ofExcept (buildInit state allData)
  issue (.exec multi) (some (.initExec allData call))

/-- The callback of `exec` in `initInternal`. -/
def onInitExec (call : CallId) (reply : Reply) : Code Unit := do
  if reply = .error then
    logLine .error "Error initializing Redis store"
  answer call .done

/-- `updateItemWithVersioning` -/
def updateItemWithVersioning (state : StoreState) (kind : Kind) (newItem : Item) (call : CallId) :
    Code Unit := do
  issue (.watch (itemsKey state kind)) none
  let multi : Multi := []
  doGet state kind newItem.key (.update kind newItem multi call)

/-- `upsertInternal` -/
def upsertInternal (state : StoreState) (kind : Kind) (item : Item) (call : CallId) : Code Unit :=
  updateItemWithVersioning state kind item call

/-- The callback of `exec` in `updateItemWithVersioning`. -/
def onUpsertExec (state : StoreState) (kind : Kind) (newItem : Item) (call : CallId) :
    Reply → Code Unit
  | .error => upsertCallback kind newItem call true newItem.json
  | .nil => do
    -- The `EXEC` failed because someone modified the watched key.
    logLine .debug "Concurrent modification detected, retrying"
    updateItemWithVersioning state kind newItem call
  | _ => upsertCallback kind newItem call false newItem.json

/-- `initializedInternal` -/
def initializedInternal (state : StoreState) (call : CallId) : Code Unit :=
  issue (.existsKey (initedKey state)) (some (.initedExists call))

/-- The callback of `exists` in `initializedInternal`. -/
def onInitedExists (call : CallId) : Reply → Code Unit
  | .int n => answer call (.inited (n ≠ 0))
  | _ => answer call (.inited false)

end RedisStore
