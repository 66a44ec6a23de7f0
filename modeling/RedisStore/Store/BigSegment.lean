import RedisStore.Store.Feature

/-!
# The big segment store

`redis_big_segment_store.js`. An `await` splits its function: what comes after it is the callback of
the command whose reply it waits for. At the end of the module are the tables of the operations and
of the callbacks of both stores.
-/

namespace RedisStore

open Redis

/-- `keyLastUpToDate` -/
def keyLastUpToDate : String := "big_segments_synchronized_on"

/-- `keyUserInclude` -/
def keyUserInclude : String := "big_segment_include:"

/-- `keyUserExclude` -/
def keyUserExclude : String := "big_segment_exclude:"

/-- `getMetadata` -/
def getMetadata (state : StoreState) (call : CallId) : Code Unit :=
  issue (.get (state.itemsPrefix ++ keyLastUpToDate)) (some (.metadataGet call))

/-- `getMetadata` after its read. -/
def onMetadataGet (call : CallId) : Reply → Code Unit
  | .error => answer call .rejected
  | .str value => answer call (.metadata (if value = "" then none else some (parseInt value)))
  | _ => answer call (.metadata none)

/-- `getUserMembership` -/
def getUserMembership (state : StoreState) (userHash : String) (call : CallId) : Code Unit :=
  issue (.smembers (state.itemsPrefix ++ keyUserInclude ++ userHash))
    (some (.smembersInclude userHash call))

/-- The members of a reply to `smembers`. -/
def refsOf : Reply → List String
  | .members refs => refs
  | _ => []

/-- `getUserMembership` after its first read. -/
def onIncludedRefs (state : StoreState) (userHash : String) (call : CallId) (reply : Reply) :
    Code Unit :=
  if reply = .error then answer call .rejected
  else issue (.smembers (state.itemsPrefix ++ keyUserExclude ++ userHash))
    (some (.smembersExclude userHash (refsOf reply) call))

/-- A loop of `getUserMembership`: each ref is assigned the value. A truth value is never a
prototype. -/
def assignRefs (membership : PlainObject Bool) (refs : List String) (value : Bool) :
    PlainObject Bool :=
  refs.foldl (fun membership ref => membership.assign (fun _ => false) ref value) membership

/-- The membership that the two reads give. -/
def membershipOf (includedRefs excludedRefs : List String) : Option (PlainObject Bool) :=
  if includedRefs = [] ∧ excludedRefs = [] then none
  else some (assignRefs (assignRefs .empty excludedRefs false) includedRefs true)

/-- `getUserMembership` after its second read. -/
def onExcludedRefs (includedRefs : List String) (call : CallId) (reply : Reply) : Code Unit :=
  if reply = .error then answer call .rejected
  else answer call (.membership (membershipOf includedRefs (refsOf reply)))

/-! ## The operations of both stores -/

/-- A call of an operation. -/
inductive Op where
  | getInternal (kind : Kind) (key : String)
  | getAllInternal (kind : Kind)
  | initInternal (allData : AllData)
  | upsertInternal (kind : Kind) (item : Item)
  | initializedInternal
  | getMetadata
  | getUserMembership (userHash : String)

/-- The code of an operation. -/
def Op.start (state : StoreState) (call : CallId) : Op → Code Unit
  | .getInternal kind key => RedisStore.getInternal state kind key call
  | .getAllInternal kind => RedisStore.getAllInternal state kind call
  | .initInternal allData => RedisStore.initInternal state allData call
  | .upsertInternal kind item => RedisStore.upsertInternal state kind item call
  | .initializedInternal => RedisStore.initializedInternal state call
  | .getMetadata => RedisStore.getMetadata state call
  | .getUserMembership userHash => RedisStore.getUserMembership state userHash call

/-- The code of a callback, on the reply to its command. -/
def Callback.resume (state : StoreState) (reply : Reply) : Callback → Code Unit
  | .hget kind key cb => onHget state kind key cb reply
  | .hgetall kind call => onHgetall kind call reply
  | .initExec _ call => onInitExec call reply
  | .upsertExec kind newItem call => onUpsertExec state kind newItem call reply
  | .initedExists call => onInitedExists call reply
  | .metadataGet call => onMetadataGet call reply
  | .smembersInclude userHash call => onIncludedRefs state userHash call reply
  | .smembersExclude _ includedRefs call => onExcludedRefs includedRefs call reply

end RedisStore
