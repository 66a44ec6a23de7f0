import RedisStore.Store.Spec

/-!
# Operations while the connection is down

The comment in `initState` states the law that an operation fails at once while the connection is
down, rather than leave its commands to the client library's queue. The two flags that the law needs
follow the connection as far as its events tell (`flags_eq`): a client that was supplied counts as
connected until its first `connect` or `end`. But only `doGet` and `getAllInternal` look at the flags,
so the law holds of the two reads of the feature store alone, and for a supplied client only after one
of these events (`failsFast_iff`).
-/

namespace RedisStore

open Redis

/-- The connection of a client: whether it is up, and whether it has been. -/
structure Link where
  up : Bool
  everUp : Bool
deriving DecidableEq

/-- What an event says about the connection. -/
def Link.onEvent (link : Link) : ClientEvent → Link
  | .connect => ⟨true, true⟩
  | .ended => { link with up := false }
  | _ => link

/-- The connection after some events. -/
def linkAfter (link : Link) (events : List ClientEvent) : Link := events.foldl Link.onEvent link

/-- The stores' state after some events. -/
def stateAfter {ρ κ : Type} (options : Options ρ κ) (events : List ClientEvent) : StoreState :=
  events.foldl (fun state event => (state.onEvent event).1) (initState options).2

/-- Some event tells whether the connection is up. -/
def Told (events : List ClientEvent) : Prop := .connect ∈ events ∨ .ended ∈ events

instance (events : List ClientEvent) : Decidable (Told events) :=
  inferInstanceAs (Decidable (_ ∨ _))

/-- The failure result of an operation. -/
def Op.failure : Op → Answer
  | .getInternal _ _ => .item .null
  | .getAllInternal _ => .items none
  | .initInternal _ => .done
  | .upsertInternal _ item => .upserted true item.json
  | .initializedInternal => .inited false
  | .getMetadata => .rejected
  | .getUserMembership _ => .rejected

/-- A call hands no command to the client and completes at once with its failure result. -/
def FailsFast (state : StoreState) (call : CallId) (op : Op) : Prop :=
  (op.start state call).issued = [] ∧ (op.start state call).answered = [(call, op.failure)]

/-- The operations that look at the flags: the reads of the feature store. -/
def Op.checksLink : Op → Bool
  | .getInternal _ _ => true
  | .getAllInternal _ => true
  | _ => false

variable {ρ κ : Type}

/-- The two flags after some events. The client of the stores' own has never been up before them. -/
theorem flags_eq (options : Options ρ κ) (link : Link)
    (hown : options.client = none → link = ⟨false, false⟩) (events : List ClientEvent) :
    (stateAfter options events).initialConnect =
        (options.client.isNone && !(linkAfter link events).everUp) ∧
      (stateAfter options events).connected =
        if options.client = none ∨ Told events then (linkAfter link events).up else true := by
  induction events using List.reverseRecOn with
  | nil =>
    cases hc : options.client with
    | none =>
      -- The stores' own client has just been created, and counts as connecting.
      obtain rfl := hown hc
      simp [stateAfter, linkAfter, initState, hc]
    | some client => simp [stateAfter, linkAfter, initState, hc, Told]
  | append_singleton events event ih =>
    have hstate : stateAfter options (events ++ [event]) =
        ((stateAfter options events).onEvent event).1 := by
      simp [stateAfter]
    have hlink : linkAfter link (events ++ [event]) = (linkAfter link events).onEvent event := by
      simp [linkAfter]
    -- Only `connect` and `end` say something about the connection, and set the flags.
    obtain ⟨hinitial, hconnected⟩ := ih
    rw [hstate, hlink]
    cases event with
    | error err =>
      have htold : Told (events ++ [.error err]) ↔ Told events := by simp [Told]
      simp only [StoreState.onEvent, Link.onEvent, htold]
      exact ⟨hinitial, hconnected⟩
    | reconnecting attempt delay =>
      have htold : Told (events ++ [.reconnecting attempt delay]) ↔ Told events := by simp [Told]
      simp only [StoreState.onEvent, Link.onEvent, htold]
      exact ⟨hinitial, hconnected⟩
    | connect => simp [StoreState.onEvent, Link.onEvent, Told]
    | ended => simpa [StoreState.onEvent, Link.onEvent, Told] using hinitial

/-- While the connection is down after it has been up, the flags say so exactly if the stores have
been told. -/
theorem down_stateAfter (options : Options ρ κ) (link : Link)
    (hown : options.client = none → link = ⟨false, false⟩) (events : List ClientEvent)
    (hdown : (linkAfter link events).up = false) (hever : (linkAfter link events).everUp = true) :
    (stateAfter options events).down = true ↔ options.client = none ∨ Told events := by
  obtain ⟨hinitial, hconnected⟩ := flags_eq options link hown events
  rw [StoreState.down, hinitial, hconnected, hdown, hever]
  by_cases htold : options.client = none ∨ Told events <;> simp [htold]

/-- An operation that looks at the flags fails fast exactly if they say that the connection is down.
No other operation does. -/
theorem failsFast_start (state : StoreState) (call : CallId) (op : Op) :
    FailsFast state call op ↔ op.checksLink = true ∧ state.down = true := by
  unfold FailsFast
  cases op with
  | getInternal kind key =>
    rw [Op.start]
    cases hd : state.down with
    | false => simp [(getInternal_does_of_up hd kind key call).issued]
    | true =>
      have hdoes := getInternal_does_of_down hd kind key call
      simp [hdoes.issued, hdoes.answered, Op.failure, Op.checksLink]
  | getAllInternal kind =>
    rw [Op.start]
    cases hd : state.down with
    | false => simp [(getAllInternal_does_of_up hd kind call).issued]
    | true =>
      have hdoes := getAllInternal_does_of_down hd kind call
      simp [hdoes.issued, hdoes.answered, Op.failure, Op.checksLink]
  | initInternal allData =>
    rw [Op.start]
    cases hb : buildInit state allData with
    | ok multi => simp [(initInternal_does_of_ok hb call).issued, Op.checksLink]
    | error x => simp [(initInternal_does_of_error hb call).answered, Op.checksLink]
  | upsertInternal kind item =>
    rw [Op.start]
    cases hd : state.down with
    | false => simp [(upsertInternal_does_of_up hd kind item call).issued, Op.checksLink]
    | true => simp [(upsertInternal_does_of_down hd kind item call).issued, Op.checksLink]
  | initializedInternal =>
    rw [Op.start]
    simp [(initializedInternal_does state call).issued, Op.checksLink]
  | getMetadata => simp [Op.start, getMetadata, issue, Js.issued, Op.checksLink]
  | getUserMembership userHash =>
    simp [Op.start, getUserMembership, issue, Js.issued, Op.checksLink]

/-- For both ways of building the state, every history of events after which the connection is down
and has been up, and every operation: the call fails fast exactly if it is a read of the feature
store, and the client is the stores' own or has reported a `connect` or an `end`. -/
theorem failsFast_iff (options : Options ρ κ) (link : Link)
    (hown : options.client = none → link = ⟨false, false⟩) (events : List ClientEvent)
    (hdown : (linkAfter link events).up = false) (hever : (linkAfter link events).everUp = true)
    (call : CallId) (op : Op) :
    FailsFast (stateAfter options events) call op ↔
      op.checksLink = true ∧ (options.client = none ∨ Told events) := by
  rw [failsFast_start, down_stateAfter options link hown events hdown hever]

/-- A read of the feature store on the stores' own client, after the connection was lost. -/
theorem failsFast_iff_own :
    FailsFast (stateAfter (⟨none, none, none, none⟩ : Options Unit Unit) [.connect, .ended]) 0
        (.getAllInternal .features) ↔
      (Op.getAllInternal .features).checksLink = true ∧
        ((none : Option Unit) = none ∨ Told [.connect, .ended]) :=
  failsFast_iff ⟨none, none, none, none⟩ ⟨false, false⟩ (fun _ => rfl) [.connect, .ended] rfl rfl 0
    (.getAllInternal .features)

/-- On a lost connection the other operations hand their commands to the client. -/
theorem initialized_left_hanging :
    (linkAfter ⟨false, false⟩ [.connect, .ended]).up = false ∧
      (linkAfter ⟨false, false⟩ [.connect, .ended]).everUp = true ∧
      ¬ FailsFast (stateAfter (⟨none, none, none, none⟩ : Options Unit Unit) [.connect, .ended]) 0
        .initializedInternal :=
  ⟨rfl, rfl, fun h => by cases h.1⟩

end RedisStore
