import RedisStore.Json.Coercion

/-!
# The state that both stores share

`redis_base.js`: the prefix of the keys, the client, and the two flags that follow the connection's
events. The flags are there so that an operation can fail at once while the connection is down, when
the client would keep its commands until the next connection.
-/

namespace RedisStore

/-- The levels of the SDK's logger that the stores use. -/
inductive LogLevel where
  | debug
  | info
  | warn
  | error
deriving DecidableEq

/-- A line of the log. The error object that some lines end with is left out. -/
structure LogLine where
  level : LogLevel
  message : String
deriving DecidableEq

/-- `LDRedisOptions`, over the option objects `ρ` of the client library and its client objects
`κ`. A property that is absent is `undefined`. -/
structure Options (ρ κ : Type) where
  redisOpts : Option ρ
  keyPrefix : Option String
  client : Option κ
  cacheTTL : Option JsNumber

/-- `defaultPrefix` -/
def defaultPrefix : String := "launchdarkly"

/-- `options.prefix || defaultPrefix` -/
def effectivePrefix : Option String → String
  | some p => if p = "" then defaultPrefix else p
  | none => defaultPrefix

/-- Where the client of a store comes from. -/
inductive ClientSource (ρ κ : Type) where
  /-- `options.client` -/
  | supplied (client : κ)
  /-- `redis.createClient(options.redisOpts)` -/
  | created (redisOpts : Option ρ)

/-- The fields of `state` other than the client. -/
structure StoreState where
  /-- `state.prefix`, with its colon. -/
  itemsPrefix : String
  connected : Bool
  initialConnect : Bool
  stopClientOnClose : Bool
deriving DecidableEq

/-- `initState`, before any event. -/
def initState {ρ κ : Type} (options : Options ρ κ) : ClientSource ρ κ × StoreState :=
  let itemsPrefix := effectivePrefix options.keyPrefix ++ ":"
  match options.client with
  | some client => (.supplied client, ⟨itemsPrefix, true, !true, false⟩)
  | none => (.created options.redisOpts, ⟨itemsPrefix, false, !false, true⟩)

/-- The events of the client that `initState` listens to. -/
inductive ClientEvent where
  | error (err : String)
  | reconnecting (attempt delay : ℕ)
  | connect
  | ended
deriving DecidableEq

/-- The listeners that `initState` attaches: the state after an event, and what is logged. -/
def StoreState.onEvent (state : StoreState) : ClientEvent → StoreState × List LogLine
  | .error err => (state, [⟨.error, "Redis error - " ++ err⟩])
  | .reconnecting attempt delay =>
    (state, [⟨.info, "Attempting to reconnect to Redis (attempt #" ++ toString attempt ++
      ", delay: " ++ toString delay ++ "ms)"⟩])
  | .connect =>
    ({ state with initialConnect := false, connected := true },
      if !state.initialConnect then [⟨.warn, "Reconnected to Redis"⟩] else [])
  | .ended => ({ state with connected := false }, [])

/-- The test that a read makes before it issues its command: the connection was up and is down. -/
def StoreState.down (state : StoreState) : Bool := !state.connected && !state.initialConnect

/-- No event changes the prefix. -/
@[simp] theorem StoreState.onEvent_itemsPrefix (state : StoreState) (event : ClientEvent) :
    (state.onEvent event).1.itemsPrefix = state.itemsPrefix := by
  cases event <;> rfl

end RedisStore
