import RedisStore.Semantics.Transition
import RedisStore.Store.BigSegment

/-!
# Clients and server together

Any number of connections, indexed by `ι`, to one Redis server. Each connection belongs to one
process and one client object, whose stores share its prefix, flags, and queue. A client hands its
commands to the connection in order (`inbox`); the server takes them from there one at a time, and
its replies wait in order (`outbox`) for the process to run their callbacks. While the connection is
down, commands stay in the inbox, which is then the client library's offline queue. A connection that is
lost takes the commands with it that the server has not executed; the client answers these with errors,
and those whose replies were still on their way.

A step is a call of an operation, the server's execution of a command, the run of a callback, a
change of the connection, or a write by another program. So a run is any interleaving of the
commands of any number of processes, with any number of calls in progress on each connection; the
results about one call at a time restrict the runs.
-/

namespace RedisStore

open Redis

/-- A connection: the stores' shared state, whether it is up, its queues, and its session. -/
structure Conn where
  state : StoreState
  online : Bool
  /-- The commands that the server has not executed. -/
  inbox : List Request
  /-- The replies whose callbacks have not run. -/
  outbox : List (Callback × Reply)
  session : Session

/-- What happens in a run. -/
inductive Event (ι : Type) where
  | called (c : ι) (call : CallId) (op : Op)
  | executed (c : ι) (request : Request) (reply : Reply) (touched : List Key)
  | answered (c : ι) (call : CallId) (a : Answer)
  | threw (c : ι) (x : Exn)
  | lost (c : ι)
  | regained (c : ι)
  | wrote (keys : List Key)

/-- The whole system. -/
structure Sys (ι : Type) where
  db : Db
  conn : ι → Conn
  /-- The number of calls on each connection so far. -/
  calls : ι → CallId
  /-- The history of the run. -/
  log : List (Event ι)

/-- A step of the system. -/
inductive Label (ι : Type) where
  /-- A process calls an operation. -/
  | call (c : ι) (op : Op)
  /-- The server takes the next command of a connection, and fails it as `fault` says. -/
  | serve (c : ι) (fault : Fault)
  /-- A process runs the callback of the next reply. -/
  | deliver (c : ι)
  /-- A connection is lost, when `kept` of the waiting replies have reached the client. -/
  | lose (c : ι) (kept : ℕ)
  /-- A connection is made. -/
  | regain (c : ι)
  /-- Another program replaces what some keys hold, at once. -/
  | foreign (values : List (Key × Option Value))

/-- The connection that a step is about. -/
def Label.conn? {ι : Type} : Label ι → Option ι
  | .call c _ => some c
  | .serve c _ => some c
  | .deliver c => some c
  | .lose c _ => some c
  | .regain c => some c
  | .foreign _ => none

/-- The replies that a lost connection gives the commands that wait for one: an error each. -/
def abandoned (requests : List Request) : List (Callback × Reply) :=
  requests.filterMap fun r => r.callback.map fun cb => (cb, .error)

variable {ι : Type} [DecidableEq ι]

namespace Sys

/-- A change of one connection. -/
def setConn (s : Sys ι) (c : ι) (conn : Conn) : Sys ι :=
  { s with conn := Function.update s.conn c conn }

/-- A line of the history. -/
def record (s : Sys ι) (e : Event ι) : Sys ι := { s with log := s.log ++ [e] }

/-- A run of code in the process of connection `c`: its commands join the inbox, and its answers and
the exception that escapes from it are recorded. -/
def react (c : ι) (s : Sys ι) (code : Code Unit) : Sys ι :=
  { s.setConn c { s.conn c with inbox := (s.conn c).inbox ++ code.issued } with
    log := s.log ++ code.answered.map (fun a => .answered c a.1 a.2) ++
      code.thrown.map (.threw c) }

/-- A modification of keys that connections other than those of `own` see. -/
def touch (s : Sys ι) (own : ι → Bool) (keys : List Key) : Sys ι :=
  { s with conn := fun d =>
      if own d then s.conn d
      else { s.conn d with session := (s.conn d).session.touch keys } }

/-- The server executes a command of connection `c`. -/
def serve (s : Sys ι) (c : ι) (request : Request) (rest : List Request) (fault : Fault) : Sys ι :=
  let o := request.cmd.serve s.db (s.conn c).session fault
  let replies := match request.callback with
    | some cb => [(cb, o.reply)]
    | none => []
  let s' := ({ s with db := o.db }.setConn c
    { s.conn c with inbox := rest, outbox := (s.conn c).outbox ++ replies, session := o.session })
  (s'.touch (· = c) o.touched).record (.executed c request o.reply o.touched)

/-- The next state, if the step is enabled. -/
def step (s : Sys ι) : Label ι → Option (Sys ι)
  | .call c op =>
    let call := s.calls c
    let s' := { s with calls := Function.update s.calls c (call + 1) }.record (.called c call op)
    some (s'.react c (op.start (s.conn c).state call))
  | .serve c fault =>
    match (s.conn c).inbox with
    | [] => none
    | request :: rest => if (s.conn c).online then some (s.serve c request rest fault) else none
  | .deliver c =>
    match (s.conn c).outbox with
    | [] => none
    | (cb, reply) :: rest =>
      some ((s.setConn c { s.conn c with outbox := rest }).react c
        (cb.resume (s.conn c).state reply))
  | .lose c kept =>
    if (s.conn c).online then
      let conn := s.conn c
      let unread := (conn.outbox.drop kept).map fun r => (r.1, Reply.error)
      some ((s.setConn c
        { state := (conn.state.onEvent .ended).1
          online := false
          inbox := []
          outbox := conn.outbox.take kept ++ unread ++ abandoned conn.inbox
          session := .clear }).record (.lost c))
    else none
  | .regain c =>
    if (s.conn c).online then none
    else some ((s.setConn c
      { s.conn c with state := ((s.conn c).state.onEvent .connect).1, online := true }).record
        (.regained c))
  | .foreign values =>
    let keys := values.map Prod.fst
    let db := values.foldl (fun db v => Function.update db v.1 v.2) s.db
    some (({ s with db := db }.touch (fun _ => false) keys).record (.wrote keys))

/-- A run of the system. -/
abbrev run (s : Sys ι) (ls : List (Label ι)) : Option (Sys ι) := Transition.run step s ls

/-- Every step of a run meets a condition. -/
abbrev Along (G : Sys ι → Label ι → Prop) (s : Sys ι) (ls : List (Label ι)) : Prop :=
  Transition.Along step G s ls

/-- A system before any call, with the states of the stores of each connection. -/
def opened (db : Db) (state : ι → StoreState) : Sys ι :=
  ⟨db, fun c => ⟨state c, true, [], [], .clear⟩, fun _ => 0, []⟩

/-- Before any call: nothing is in progress, and nothing is watched. -/
structure Fresh (s : Sys ι) : Prop where
  inbox : ∀ c, (s.conn c).inbox = []
  outbox : ∀ c, (s.conn c).outbox = []
  session : ∀ c, (s.conn c).session = .clear
  log : s.log = []

omit [DecidableEq ι] in
theorem opened_fresh (db : Db) (state : ι → StoreState) : Fresh (opened db state) :=
  ⟨fun _ => rfl, fun _ => rfl, fun _ => rfl, rfl⟩

end Sys

/-! ## Restrictions on runs -/

/-- A step of the stores, without an error and without a lost connection. -/
def Undisturbed {ι : Type} : Label ι → Prop
  | .serve _ fault => fault = .none
  | .lose _ _ => False
  | .foreign _ => False
  | _ => True

instance {ι : Type} : ∀ l : Label ι, Decidable (Undisturbed l)
  | .call _ _ => .isTrue trivial
  | .serve _ fault => inferInstanceAs (Decidable (fault = .none))
  | .deliver _ => .isTrue trivial
  | .lose _ _ => .isFalse id
  | .regain _ => .isTrue trivial
  | .foreign _ => .isFalse id

/-- The step gives connection `c` no error and does not lose it. -/
def Faultless {ι : Type} (c : ι) : Label ι → Prop
  | .serve d fault => d = c → fault = .none
  | .lose d _ => d ≠ c
  | _ => True

instance {ι : Type} [DecidableEq ι] (c : ι) : ∀ l : Label ι, Decidable (Faultless c l)
  | .call _ _ => .isTrue trivial
  | .serve d fault => inferInstanceAs (Decidable (d = c → fault = .none))
  | .deliver _ => .isTrue trivial
  | .lose d _ => inferInstanceAs (Decidable (d ≠ c))
  | .regain _ => .isTrue trivial
  | .foreign _ => .isTrue trivial

theorem Undisturbed.faultless {ι : Type} {l : Label ι} (h : Undisturbed l) (c : ι) :
    Faultless c l := by
  cases l with
  | serve d fault => exact fun _ => h
  | lose d kept => exact absurd h id
  | _ => trivial

/-- The step is none of another program. -/
def NotForeign {ι : Type} : Label ι → Prop
  | .foreign _ => False
  | _ => True

instance {ι : Type} : ∀ l : Label ι, Decidable (NotForeign l)
  | .call _ _ => .isTrue trivial
  | .serve _ _ => .isTrue trivial
  | .deliver _ => .isTrue trivial
  | .lose _ _ => .isTrue trivial
  | .regain _ => .isTrue trivial
  | .foreign _ => .isFalse id

/-- The operations that change the database. -/
def Op.writes : Op → Bool
  | .initInternal _ => true
  | .upsertInternal _ _ => true
  | _ => false

/-! ## Small systems, for runs on fixed inputs -/

/-- The state of stores on a client that is connected. -/
def connectedState : StoreState :=
  (initState (⟨none, none, some (), none⟩ : Options Unit Unit)).2

/-- The text of an item with a key and a version. -/
def sampleText (key : String) (version : ℤ) : String := (Item.ofVersion key version).text

/-- A database where the kind `features` has one item. -/
def sampleDb (key : String) (version : ℤ) : Db :=
  Function.update (fun _ => none) (itemsKey connectedState .features)
    (some (.hash ((∅ : Fields).insert key (sampleText key version))))

/-- The data of an init: one feature. -/
def sampleData (key : String) (version : ℤ) : AllData :=
  (∅ : AllData).insert "features"
    ((∅ : AList fun _ : String => JsValue).insert key (.json (Item.ofVersion key version).json))

end RedisStore
