import RedisStore.Store.Base
import RedisStore.Redis.Server
import RedisStore.Semantics.Effects

/-!
# Items, calls, and callbacks

The data that the stores' code passes around. A function of the source that is passed as a callback
is a constructor here, with the variables that it closes over: `GetCallback` for the argument of
`doGet`, and `Callback` for the functions that are passed to the Redis client.
-/

namespace RedisStore

open Redis

/-- The kinds of `versioned_data_kind`. -/
inductive Kind where
  | features
  | segments
deriving DecidableEq

/-- `kind.namespace` -/
def Kind.namespaceName : Kind → String
  | .features => "features"
  | .segments => "segments"

/-- An item that the SDK upserts: an object with a string `key` and an integer `version`. -/
structure Item where
  /-- The properties. -/
  props : List (String × Json)
  key : String
  version : ℤ
  key_eq : Json.lookup props "key" = some (.str key)
  version_eq : Json.lookup props "version" = some (.num (.ofInt version))

/-- The object. -/
def Item.json (item : Item) : Json := .obj item.props

/-- The text that an upsert stores. -/
def Item.text (item : Item) : String := item.json.stringify

/-- An item's version is the version of its object. -/
@[simp] theorem Item.itemVersion_json (item : Item) : item.json.itemVersion = some item.version := by
  simp [json, Json.itemVersion, Json.prop, item.version_eq]

/-- The object of an item is true. -/
@[simp] theorem Item.truthy_json (item : Item) : item.json.truthy = true := rfl

/-- The item with a key and a version and nothing else. -/
def Item.ofVersion (key : String) (version : ℤ) : Item where
  props := [("key", .str key), ("version", .num (.ofInt version))]
  key := key
  version := version
  key_eq := by simp [Json.lookup, List.lookup_cons]
  version_eq := by simp [Json.lookup]

/-- The argument of `initInternal`: for each namespace, the items by their keys. -/
abbrev AllData := AList fun _ : String => AList fun _ : String => JsValue

/-- The number of a call of an operation, in the order of the calls on its connection. -/
abbrev CallId := ℕ

/-- What the callback of a call is called with, or how its promise is settled. -/
inductive Answer where
  /-- `getInternal`: the item, or `null`. -/
  | item (item : Json)
  /-- `getAllInternal`: the items, or `null`. -/
  | items (results : Option (PlainObject Json))
  /-- `initInternal`: the callback has no argument. -/
  | done
  /-- `upsertInternal`: whether there is an error, and the item. -/
  | upserted (err : Bool) (attemptedWrite : Json)
  /-- `initializedInternal` -/
  | inited (b : Bool)
  /-- `getMetadata`: `lastUpToDate`, where `none` is `undefined` and `some none` is `NaN`. -/
  | metadata (lastUpToDate : Option (Option ℤ))
  /-- `getUserMembership`: the membership, or `null`. -/
  | membership (m : Option (PlainObject Bool))
  /-- The promise is rejected. -/
  | rejected

/-- The multi object of the client library. Its methods only add to a local queue; `exec` sends the
queue. -/
abbrev Multi := List Write

namespace Multi

def del (multi : Multi) (key : Key) : Multi := multi ++ [.del key]

def hmset (multi : Multi) (key : Key) (fields : Fields) : Multi := multi ++ [.hmset key fields]

def hset (multi : Multi) (key : Key) (field value : String) : Multi :=
  multi ++ [.hset key field value]

def set (multi : Multi) (key : Key) (value : String) : Multi := multi ++ [.set key value]

end Multi

/-- The function that `doGet` is called with. -/
inductive GetCallback where
  /-- In `getInternal`. -/
  | getInternal (call : CallId)
  /-- In `updateItemWithVersioning`. -/
  | update (kind : Kind) (newItem : Item) (multi : Multi) (call : CallId)

/-- A function that is passed to the Redis client with a command. -/
inductive Callback where
  /-- In `doGet`. -/
  | hget (kind : Kind) (key : String) (cb : GetCallback)
  /-- In `getAllInternal`. -/
  | hgetall (kind : Kind) (call : CallId)
  /-- In `initInternal`. -/
  | initExec (allData : AllData) (call : CallId)
  /-- In `updateItemWithVersioning`. -/
  | upsertExec (kind : Kind) (newItem : Item) (call : CallId)
  /-- In `initializedInternal`. -/
  | initedExists (call : CallId)
  /-- In `getMetadata`. -/
  | metadataGet (call : CallId)
  /-- In `getUserMembership`, for the first read. -/
  | smembersInclude (userHash : String) (call : CallId)
  /-- In `getUserMembership`, for the second read. -/
  | smembersExclude (userHash : String) (includedRefs : List String) (call : CallId)

/-- A command with its callback, as the client queues it. -/
structure Request where
  cmd : Command
  callback : Option Callback

/-- An effect of the stores' code. -/
inductive Effect where
  | log (line : LogLine)
  /-- A command is handed to the Redis client. -/
  | issue (cmd : Command) (callback : Option Callback)
  /-- The callback of a call is called. -/
  | answer (call : CallId) (answer : Answer)

/-- Code of the stores. -/
abbrev Code := Js Effect Exn

namespace Js

/-- The commands that a piece of code hands to the client, in order. -/
def issued (code : Code Unit) : List Request :=
  code.effects.filterMap fun
    | .issue cmd callback => some ⟨cmd, callback⟩
    | _ => none

/-- The calls that a piece of code answers, in order. -/
def answered (code : Code Unit) : List (CallId × Answer) :=
  code.effects.filterMap fun
    | .answer call a => some (call, a)
    | _ => none

/-- The exception that escapes from a piece of code, if one does. -/
def thrown (code : Code Unit) : List Exn :=
  match code.result with
  | .ok _ => []
  | .error x => [x]

end Js

/-- The code logs a line. -/
def logLine (level : LogLevel) (message : String) : Code Unit := Js.emit (.log ⟨level, message⟩)

/-- The code hands a command to the Redis client. -/
def issue (cmd : Command) (callback : Option Callback) : Code Unit := Js.emit (.issue cmd callback)

/-- The code calls the callback of a call. -/
def answer (call : CallId) (a : Answer) : Code Unit := Js.emit (.answer call a)

end RedisStore
