import Mathlib.Data.List.AList
import Mathlib.Logic.Function.Basic
import Mathlib.Tactic

/-!
# The Redis server

The part of Redis that the stores use: strings, hashes, and sets under string keys, the commands
that read them, and transactions. A client library sends the commands of a transaction between
`MULTI` and `EXEC`, and they have no effect before `EXEC`; so a transaction is one command here,
with its queue. Each connection has a session with the keys that it watches and a flag that a write
to one of them sets. `EXEC` on a flagged session replies nil and does nothing else, and in every
case it ends with no watch and the flag clear.

Replies are as the client library hands them to a callback: a missing hash is nil, and a hash is an
object with one property per field.
-/

namespace RedisStore.Redis

/-- A key of the database. -/
abbrev Key := String

/-- The content of a hash: its fields with their values. -/
abbrev Fields := AList fun _ : String => String

/-- A stored value. Types that no command of the stores reads are not told apart. -/
inductive Value where
  | string (s : String)
  | hash (h : Fields)
  | set (members : List String)
  | other
deriving DecidableEq

/-- The database: what each key holds, if anything. -/
abbrev Db := Key → Option Value

/-- The value of a hash field, if the key holds a hash with that field. -/
def fieldOf : Option Value → String → Option String
  | some (.hash h), field => h.lookup field
  | _, _ => none

@[simp] theorem fieldOf_none (field : String) : fieldOf none field = none := rfl

@[simp] theorem fieldOf_hash (h : Fields) (field : String) :
    fieldOf (some (.hash h)) field = h.lookup field := rfl

/-- The key is missing or holds a hash, so that no hash command is refused. -/
def Hashlike : Option Value → Prop
  | none => True
  | some (.hash _) => True
  | some _ => False

instance : ∀ v, Decidable (Hashlike v)
  | none => .isTrue trivial
  | some (.hash _) => .isTrue trivial
  | some (.string _) => .isFalse id
  | some (.set _) => .isFalse id
  | some .other => .isFalse id

/-- Any other value has no fields. -/
theorem fieldOf_of_not_hashlike {v : Option Value} (h : ¬ Hashlike v) (field : String) :
    fieldOf v field = none := by
  rcases v with _ | (_ | _ | _ | _) <;> first | rfl | exact absurd trivial h

/-! ## Writes -/

/-- A write command, as a transaction queues it. -/
inductive Write where
  | del (key : Key)
  | hmset (key : Key) (fields : Fields)
  | hset (key : Key) (field value : String)
  | set (key : Key) (value : String)
deriving DecidableEq

/-- The key that a write is about. -/
def Write.key : Write → Key
  | .del key => key
  | .hmset key _ => key
  | .hset key _ _ => key
  | .set key _ => key

/-- The reply to a write, or to one command of a transaction. -/
inductive WriteReply where
  | ok
  | int (n : ℕ)
  | error
deriving DecidableEq

/-- What a write does to the value under its key. -/
structure WriteResult where
  /-- The value afterwards. -/
  value : Option Value
  /-- The reply. -/
  reply : WriteReply
  /-- Whether the key counts as modified, for the connections that watch it. -/
  modified : Bool

/-- A write on the value under its key. A hash command on another type is refused. -/
def Write.run : Write → Option Value → WriteResult
  | .del _, none => ⟨none, .int 0, false⟩
  | .del _, some _ => ⟨none, .int 1, true⟩
  | .hmset _ fields, none => ⟨some (.hash fields), .ok, true⟩
  | .hmset _ fields, some (.hash h) => ⟨some (.hash (fields ∪ h)), .ok, true⟩
  | .hmset _ _, some v => ⟨some v, .error, false⟩
  | .hset _ field value, none => ⟨some (.hash ((∅ : Fields).insert field value)), .int 1, true⟩
  | .hset _ field value, some (.hash h) =>
    ⟨some (.hash (h.insert field value)), .int (if field ∈ h then 0 else 1), true⟩
  | .hset _ _ _, some v => ⟨some v, .error, false⟩
  | .set _ value, _ => ⟨some (.string value), .ok, true⟩

/-- A write that does not modify its key leaves the value as it is. -/
theorem Write.run_value_of_not_modified {w : Write} {old : Option Value}
    (h : (w.run old).modified = false) : (w.run old).value = old := by
  cases w <;> rcases old with _ | (_ | _ | _ | _) <;> simp [run] at h ⊢

/-- The fields after `HSET`. -/
theorem fieldOf_hset {old : Option Value} (h : Hashlike old) (key : Key)
    (field value field' : String) :
    fieldOf ((Write.hset key field value).run old).value field' =
      if field' = field then some value else fieldOf old field' := by
  have hinsert : ∀ fields : Fields, (fields.insert field value).lookup field' =
      if field' = field then some value else fields.lookup field' := by
    intro fields
    split_ifs with hf
    · rw [hf, AList.lookup_insert]
    · rw [AList.lookup_insert_ne hf]
  rcases old with _ | (_ | fields | _ | _)
  · exact hinsert ∅
  · exact absurd h id
  · exact hinsert fields
  · exact absurd h id
  · exact absurd h id

/-- `HSET` leaves a missing key or a hash with a hash. -/
theorem hashlike_hset {old : Option Value} (h : Hashlike old) (key : Key) (field value : String) :
    Hashlike ((Write.hset key field value).run old).value := by
  rcases old with _ | (_ | _ | _ | _) <;> trivial

/-- `HSET` on any other value is refused. -/
theorem hset_of_not_hashlike {old : Option Value} (h : ¬ Hashlike old) (key : Key)
    (field value : String) : ((Write.hset key field value).run old).value = old := by
  rcases old with _ | (_ | _ | _ | _) <;> first | rfl | exact absurd trivial h

/-- What the writes of a transaction do, one after the other. -/
structure WritesResult where
  /-- The database afterwards. -/
  db : Db
  /-- The replies, in order. -/
  replies : List WriteReply
  /-- The keys that were modified. -/
  touched : List Key

/-- The writes of a transaction, in order. A refused write does not stop the ones after it. -/
def runWrites : List Write → Db → WritesResult
  | [], db => ⟨db, [], []⟩
  | w :: ws, db =>
    let r := w.run (db w.key)
    let rest := runWrites ws (Function.update db w.key r.value)
    ⟨rest.db, r.reply :: rest.replies, if r.modified then w.key :: rest.touched else rest.touched⟩

/-- Only the keys of the writes are modified. -/
theorem touched_subset (ws : List Write) (db : Db) :
    ∀ k ∈ (runWrites ws db).touched, k ∈ ws.map Write.key := by
  induction ws generalizing db with
  | nil => simp [runWrites]
  | cons w ws ih =>
    intro k hk
    simp only [runWrites] at hk
    rw [List.map_cons, List.mem_cons]
    split_ifs at hk
    · rcases List.mem_cons.mp hk with rfl | hk
      · exact .inl rfl
      · exact .inr (ih _ k hk)
    · exact .inr (ih _ k hk)

/-- A key that is not modified holds what it held. -/
theorem runWrites_db_of_not_touched (ws : List Write) (db : Db) {k : Key}
    (hk : k ∉ (runWrites ws db).touched) : (runWrites ws db).db k = db k := by
  induction ws generalizing db with
  | nil => rfl
  | cons w ws ih =>
    simp only [runWrites] at hk ⊢
    cases hm : (w.run (db w.key)).modified with
    | true =>
      simp only [hm, if_true, List.mem_cons, not_or] at hk
      -- The write modifies its key, which is then not `k`.
      rw [ih _ hk.2, Function.update_of_ne hk.1]
    | false =>
      simp only [hm, Bool.false_eq_true, if_false] at hk
      -- The write does not modify its key, and leaves what it holds.
      rw [ih _ hk, Write.run_value_of_not_modified hm, Function.update_eq_self]

/-- A key of no write holds what it held. -/
theorem runWrites_db_of_not_mem (ws : List Write) (db : Db) {k : Key}
    (hk : k ∉ ws.map Write.key) : (runWrites ws db).db k = db k :=
  runWrites_db_of_not_touched ws db fun h => hk (touched_subset ws db k h)

/-- The writes in two parts. -/
theorem runWrites_append_db (ws ws' : List Write) (db : Db) :
    (runWrites (ws ++ ws') db).db = (runWrites ws' (runWrites ws db).db).db := by
  induction ws generalizing db with
  | nil => rfl
  | cons w ws ih => simp only [List.cons_append, runWrites, ih]

/-- The replies to the writes in two parts. -/
theorem runWrites_append_replies (ws ws' : List Write) (db : Db) :
    (runWrites (ws ++ ws') db).replies =
      (runWrites ws db).replies ++ (runWrites ws' (runWrites ws db).db).replies := by
  induction ws generalizing db with
  | nil => rfl
  | cons w ws ih => simp only [List.cons_append, runWrites, ih]

/-- What the writes leave under a key depends on what was under that key alone. -/
theorem runWrites_db_congr (ws : List Write) {db db' : Db} {k : Key} (h : db k = db' k) :
    (runWrites ws db).db k = (runWrites ws db').db k := by
  induction ws generalizing db db' with
  | nil => exact h
  | cons w ws ih =>
    simp only [runWrites]
    apply ih
    by_cases hk : k = w.key
    · subst hk
      rw [Function.update_self, Function.update_self, h]
    · rw [Function.update_of_ne hk, Function.update_of_ne hk, h]

/-- The replies and the modified keys depend on the keys of the writes alone. -/
theorem runWrites_congr (ws : List Write) {db db' : Db}
    (h : ∀ k ∈ ws.map Write.key, db k = db' k) :
    (runWrites ws db).replies = (runWrites ws db').replies ∧
      (runWrites ws db).touched = (runWrites ws db').touched := by
  induction ws generalizing db db' with
  | nil => exact ⟨rfl, rfl⟩
  | cons w ws ih =>
    have hw : db w.key = db' w.key := h w.key List.mem_cons_self
    have hrest : ∀ k ∈ ws.map Write.key, Function.update db w.key (w.run (db' w.key)).value k =
        Function.update db' w.key (w.run (db' w.key)).value k := by
      intro k hk
      rw [Function.update_apply, Function.update_apply, h k (List.mem_cons_of_mem _ hk)]
    obtain ⟨hreplies, htouched⟩ := ih hrest
    simp only [runWrites, hw]
    exact ⟨by rw [hreplies], by rw [htouched]⟩

/-- The writes of a transaction for a user who lacks the permission for those in `denied`: such a
write is refused, and does not stop the ones after it. -/
def runAllowed (denied : List Write) : List Write → Db → WritesResult
  | [], db => ⟨db, [], []⟩
  | w :: ws, db =>
    if w ∈ denied then
      let rest := runAllowed denied ws db
      ⟨rest.db, .error :: rest.replies, rest.touched⟩
    else
      let r := w.run (db w.key)
      let rest := runAllowed denied ws (Function.update db w.key r.value)
      ⟨rest.db, r.reply :: rest.replies, if r.modified then w.key :: rest.touched else rest.touched⟩

/-- They do what the others do without the refused ones. -/
theorem runAllowed_eq (denied ws : List Write) (db : Db) :
    (runAllowed denied ws db).db = (runWrites (ws.filter (· ∉ denied)) db).db ∧
      (runAllowed denied ws db).touched = (runWrites (ws.filter (· ∉ denied)) db).touched := by
  induction ws generalizing db with
  | nil => exact ⟨rfl, rfl⟩
  | cons w ws ih =>
    by_cases hw : w ∈ denied
    · rw [List.filter_cons_of_neg (by simpa using hw), runAllowed, if_pos hw]
      exact ih db
    · obtain ⟨hdb, htouched⟩ := ih (Function.update db w.key (w.run (db w.key)).value)
      rw [List.filter_cons_of_pos (by simpa using hw), runAllowed, if_neg hw]
      simp only [runWrites, hdb, htouched, and_self]

/-- A refused write is told of by an error among the replies. -/
theorem error_mem_runAllowed {denied ws : List Write} {w : Write} (hw : w ∈ ws)
    (hdenied : w ∈ denied) (db : Db) : .error ∈ (runAllowed denied ws db).replies := by
  induction ws generalizing db with
  | nil => cases hw
  | cons w' ws ih =>
    rw [runAllowed]
    split_ifs with hw'
    · exact List.mem_cons_self
    · rcases List.mem_cons.mp hw with rfl | hw
      · exact absurd hdenied hw'
      · exact List.mem_cons_of_mem _ (ih hw _)

/-- Where no write is refused, they are the writes. -/
theorem runAllowed_of_not_mem {denied ws : List Write} (h : ∀ w ∈ ws, w ∉ denied)
    (db : Db) : runAllowed denied ws db = runWrites ws db := by
  induction ws generalizing db with
  | nil => rfl
  | cons w ws ih =>
    have hws : ∀ w ∈ ws, w ∉ denied := fun w' hw' => h w' (List.mem_cons_of_mem _ hw')
    rw [runAllowed, if_neg (h w List.mem_cons_self)]
    simp only [runWrites, ih hws]

@[simp] theorem runAllowed_nil (ws : List Write) (db : Db) : runAllowed [] ws db = runWrites ws db :=
  runAllowed_of_not_mem (fun _ _ => List.not_mem_nil) db

/-- One write. -/
theorem runAllowed_singleton (denied : List Write) (w : Write) (db : Db) :
    runAllowed denied [w] db = if w ∈ denied then ⟨db, [.error], []⟩ else runWrites [w] db := by
  split_ifs with hdenied
  · simp [runAllowed, hdenied]
  · exact runAllowed_of_not_mem (by simpa using hdenied) db

/-- The writes in two parts. -/
theorem runAllowed_append (denied ws ws' : List Write) (db : Db) :
    (runAllowed denied (ws ++ ws') db).db =
        (runAllowed denied ws' (runAllowed denied ws db).db).db ∧
      (runAllowed denied (ws ++ ws') db).replies = (runAllowed denied ws db).replies ++
        (runAllowed denied ws' (runAllowed denied ws db).db).replies := by
  induction ws generalizing db with
  | nil => exact ⟨rfl, rfl⟩
  | cons w ws ih =>
    rw [List.cons_append, runAllowed, runAllowed]
    split_ifs <;> simp only [ih, List.cons_append, and_self]

/-- Their replies depend on the keys of the writes alone, too. -/
theorem runAllowed_replies_congr (denied ws : List Write) {db db' : Db}
    (h : ∀ k ∈ ws.map Write.key, db k = db' k) :
    (runAllowed denied ws db).replies = (runAllowed denied ws db').replies := by
  induction ws generalizing db db' with
  | nil => rfl
  | cons w ws ih =>
    have htail : ∀ k ∈ ws.map Write.key, db k = db' k := fun k hk => h k (List.mem_cons_of_mem _ hk)
    have hw : db w.key = db' w.key := h w.key List.mem_cons_self
    rw [runAllowed, runAllowed]
    split_ifs
    · simp only [ih htail]
    · have hrest : ∀ k ∈ ws.map Write.key, Function.update db w.key (w.run (db' w.key)).value k =
          Function.update db' w.key (w.run (db' w.key)).value k := by
        intro k hk
        rw [Function.update_apply, Function.update_apply, htail k hk]
      simp only [hw, ih hrest]

/-! ## Sessions -/

/-- What the server keeps for a connection. -/
structure Session where
  /-- The watched keys. -/
  watched : List Key
  /-- Whether a watched key was modified since it was watched. -/
  dirty : Bool
deriving DecidableEq

/-- A session with no watch and the flag clear. -/
def Session.clear : Session := ⟨[], false⟩

/-- A modification of keys by another connection. -/
def Session.touch (keys : List Key) (session : Session) : Session :=
  if keys.any (· ∈ session.watched) then { session with dirty := true } else session

@[simp] theorem Session.touch_watched (keys : List Key) (session : Session) :
    (session.touch keys).watched = session.watched := by
  unfold touch
  split_ifs <;> rfl

@[simp] theorem Session.touch_nil (session : Session) : session.touch [] = session := rfl

/-- The flag after a modification: it stays set, and a watched key sets it. -/
theorem Session.touch_dirty (keys : List Key) (session : Session) :
    (session.touch keys).dirty = true ↔
      session.dirty = true ∨ ∃ k ∈ keys, k ∈ session.watched := by
  unfold touch
  split_ifs with h
  · simpa using Or.inr (by simpa using h)
  · simp only [List.any_eq_true, decide_eq_true_eq] at h
    exact (or_iff_left h).symm

/-- A modification of keys that are not watched changes nothing. -/
theorem Session.touch_of_not_watched {keys : List Key} {session : Session}
    (h : ∀ k ∈ keys, k ∉ session.watched) : session.touch keys = session := by
  rw [touch, if_neg]
  simpa using h

/-- With the flag clear afterwards it was clear before, and no watched key was modified. -/
theorem Session.touch_dirty_eq_false {keys : List Key} {session : Session}
    (h : (session.touch keys).dirty = false) :
    session.dirty = false ∧ ∀ k ∈ keys, k ∉ session.watched := by
  have hiff := (touch_dirty keys session).not
  rw [Bool.not_eq_true, not_or, Bool.not_eq_true] at hiff
  obtain ⟨hdirty, hkeys⟩ := hiff.1 h
  exact ⟨hdirty, fun k hk hw => hkeys ⟨k, hk, hw⟩⟩

/-! ## Commands -/

/-- A command that a client sends. -/
inductive Command where
  | get (key : Key)
  | smembers (key : Key)
  | existsKey (key : Key)
  | hget (key : Key) (field : String)
  | hgetall (key : Key)
  | watch (key : Key)
  | exec (queue : List Write)
deriving DecidableEq

/-- A reply, as the client library hands it to the command's callback. -/
inductive Reply where
  | error
  | nil
  | ok
  | int (n : ℕ)
  | str (s : String)
  | object (fields : Fields)
  | members (ms : List String)
  | replies (rs : List WriteReply)
deriving DecidableEq

/-- The reply to a command that reads one key. -/
def Command.read : Command → Db → Reply
  | .get key, db => match db key with
    | none => .nil
    | some (.string s) => .str s
    | some _ => .error
  | .smembers key, db => match db key with
    | none => .members []
    | some (.set ms) => .members ms
    | some _ => .error
  | .existsKey key, db => .int (if (db key).isSome then 1 else 0)
  | .hget key field, db => match db key with
    | none => .nil
    | some (.hash h) => match h.lookup field with
      | some s => .str s
      | none => .nil
    | some _ => .error
  | .hgetall key, db => match db key with
    | none => .nil
    | some (.hash h) => .object h
    | some _ => .error
  | .watch _, _ => .ok
  | .exec _, _ => .ok

/-- What the server does with a command: the database and the session afterwards, the reply, and the
keys that other connections see modified. -/
structure Outcome where
  db : Db
  session : Session
  reply : Reply
  touched : List Key

/-- The execution of a command. -/
def Command.execute : Command → Db → Session → Outcome
  | .watch key, db, session => ⟨db, { session with watched := key :: session.watched }, .ok, []⟩
  | .exec queue, db, session =>
    if session.dirty then ⟨db, .clear, .nil, []⟩
    else
      let r := runWrites queue db
      ⟨r.db, .clear, .replies r.replies, r.touched⟩
  | cmd, db, session => ⟨db, session, cmd.read db, []⟩

/-- A command that the server answers with an error instead: it has no effect, but a failed `EXEC`
clears the session all the same. -/
def Command.refuse : Command → Db → Session → Outcome
  | .exec _, db, _ => ⟨db, .clear, .error, []⟩
  | _, db, session => ⟨db, session, .error, []⟩

/-- A command of a user who lacks permissions: the writes of a transaction in `denied` are refused one
by one, and any other command itself. -/
def Command.deny (denied : List Write) : Command → Db → Session → Outcome
  | .exec queue, db, session =>
    if session.dirty then ⟨db, .clear, .nil, []⟩
    else
      let r := runAllowed denied queue db
      ⟨r.db, .clear, .replies r.replies, r.touched⟩
  | cmd, db, session => cmd.refuse db session

/-- How the server fails a command. -/
inductive Fault where
  | none
  /-- It answers with an error. -/
  | error
  /-- It refuses these writes of a transaction, and any other command. -/
  | denied (writes : List Write)
deriving DecidableEq

/-- The writes of a transaction that it refuses one by one. -/
def Fault.refused : Fault → List Write
  | .none => []
  | .error => []
  | .denied writes => writes

/-- What the server does with a command. -/
def Command.serve (cmd : Command) (db : Db) (session : Session) : Fault → Outcome
  | .none => cmd.execute db session
  | .error => cmd.refuse db session
  | .denied writes => cmd.deny writes db session

@[simp] theorem Command.execute_watch (key : Key) (db : Db) (session : Session) :
    (watch key).execute db session =
      ⟨db, { session with watched := key :: session.watched }, .ok, []⟩ := rfl

/-- `EXEC` with the flag set. -/
theorem Command.execute_exec_of_dirty (queue : List Write) (db : Db) {session : Session}
    (h : session.dirty = true) : (exec queue).execute db session = ⟨db, .clear, .nil, []⟩ := by
  simp [execute, h]

/-- `EXEC` with the flag clear. -/
theorem Command.execute_exec_of_clean (queue : List Write) (db : Db) {session : Session}
    (h : session.dirty = false) :
    (exec queue).execute db session = ⟨(runWrites queue db).db, .clear,
      .replies (runWrites queue db).replies, (runWrites queue db).touched⟩ := by
  simp [execute, h]

/-- A refused command changes nothing in the database. -/
@[simp] theorem Command.refuse_db (cmd : Command) (db : Db) (session : Session) :
    (cmd.refuse db session).db = db ∧ (cmd.refuse db session).touched = [] ∧
      (cmd.refuse db session).reply = .error := by
  cases cmd <;> exact ⟨rfl, rfl, rfl⟩

/-- The replies that the type of a command allows. -/
def Command.mayReply : Command → Reply → Bool
  | _, .error => true
  | _, .nil => true
  | get _, .str _ => true
  | smembers _, .members _ => true
  | existsKey _, .int _ => true
  | hget _ _, .str _ => true
  | hgetall _, .object _ => true
  | watch _, .ok => true
  | exec _, .replies _ => true
  | _, _ => false

/-- The keys that a command is about. -/
def Command.keys : Command → List Key
  | get key => [key]
  | smembers key => [key]
  | existsKey key => [key]
  | hget key _ => [key]
  | hgetall key => [key]
  | watch key => [key]
  | exec queue => queue.map Write.key

/-- A command modifies its keys alone. -/
theorem Command.touched_subset (cmd : Command) (db : Db) (session : Session) :
    ∀ k ∈ (cmd.execute db session).touched, k ∈ cmd.keys := by
  cases cmd with
  | exec queue =>
    cases h : session.dirty with
    | true => rw [execute_exec_of_dirty queue db h]; simp
    | false =>
      rw [execute_exec_of_clean queue db h]
      exact RedisStore.Redis.touched_subset queue db
  | _ => simp [execute]

/-- The reply to a command and the keys that it modifies depend on its keys alone. -/
theorem Command.execute_congr (cmd : Command) {db db' : Db} (h : ∀ k ∈ cmd.keys, db k = db' k)
    (session : Session) :
    (cmd.execute db session).reply = (cmd.execute db' session).reply ∧
      (cmd.execute db session).session = (cmd.execute db' session).session ∧
      (cmd.execute db session).touched = (cmd.execute db' session).touched := by
  cases cmd with
  | exec queue =>
    obtain ⟨hreplies, htouched⟩ := runWrites_congr queue h
    cases hd : session.dirty with
    | true =>
      rw [execute_exec_of_dirty queue db hd, execute_exec_of_dirty queue db' hd]
      exact ⟨rfl, rfl, rfl⟩
    | false =>
      rw [execute_exec_of_clean queue db hd, execute_exec_of_clean queue db' hd]
      exact ⟨congrArg Reply.replies hreplies, rfl, htouched⟩
  | watch key => exact ⟨rfl, rfl, rfl⟩
  | get key => exact ⟨by simp only [execute, read, h key (by simp [keys])], rfl, rfl⟩
  | smembers key => exact ⟨by simp only [execute, read, h key (by simp [keys])], rfl, rfl⟩
  | existsKey key => exact ⟨by simp only [execute, read, h key (by simp [keys])], rfl, rfl⟩
  | hget key field => exact ⟨by simp only [execute, read, h key (by simp [keys])], rfl, rfl⟩
  | hgetall key => exact ⟨by simp only [execute, read, h key (by simp [keys])], rfl, rfl⟩

/-! ## Commands with faults -/

/-- The reply to a transaction that was executed, with none of its writes refused. -/
def Reply.committed : Reply → Bool
  | .replies rs => decide (.error ∉ rs)
  | _ => false

/-- `EXEC` with the flag set is aborted. -/
theorem Command.serve_exec_of_dirty (queue : List Write) (db : Db) {session : Session} {fault : Fault}
    (h : session.dirty = true) (hfault : fault ≠ .error) :
    (exec queue).serve db session fault = ⟨db, .clear, .nil, []⟩ := by
  cases fault with
  | none => exact execute_exec_of_dirty queue db h
  | error => exact absurd rfl hfault
  | denied writes => simp [serve, deny, h]

/-- With the flag clear it is executed, without the writes that are refused. -/
theorem Command.serve_exec_of_clean (queue : List Write) (db : Db) {session : Session} {fault : Fault}
    (h : session.dirty = false) (hfault : fault ≠ .error) :
    (exec queue).serve db session fault = ⟨(runAllowed fault.refused queue db).db, .clear,
      .replies (runAllowed fault.refused queue db).replies,
      (runAllowed fault.refused queue db).touched⟩ := by
  cases fault with
  | none =>
    rw [Fault.refused, runAllowed_nil]
    exact execute_exec_of_clean queue db h
  | error => exact absurd rfl hfault
  | denied writes => simp [serve, deny, h, Fault.refused]

/-- A transaction does what some of its writes do, whatever the fault. -/
theorem Command.serve_exec (queue : List Write) (db : Db) (session : Session) (fault : Fault) :
    ∃ ws, ws.Sublist queue ∧ ((exec queue).serve db session fault).db = (runWrites ws db).db ∧
      ((exec queue).serve db session fault).touched = (runWrites ws db).touched ∧
      ((exec queue).serve db session fault).session = .clear := by
  have hnone : [].Sublist queue := List.nil_sublist queue
  by_cases hfault : fault = .error
  · subst hfault
    exact ⟨[], hnone, rfl, rfl, rfl⟩
  cases h : session.dirty with
  | true =>
    rw [serve_exec_of_dirty queue db h hfault]
    exact ⟨[], hnone, rfl, rfl, rfl⟩
  | false =>
    rw [serve_exec_of_clean queue db h hfault]
    obtain ⟨hdb, htouched⟩ := runAllowed_eq fault.refused queue db
    exact ⟨_, List.filter_sublist, hdb, htouched, rfl⟩

/-- A command that is not a transaction changes nothing in the database. -/
theorem Command.serve_db {cmd : Command} (h : ∀ queue, cmd ≠ .exec queue) (db : Db)
    (session : Session) (fault : Fault) :
    (cmd.serve db session fault).db = db ∧ (cmd.serve db session fault).touched = [] := by
  cases fault <;> cases cmd <;> first | exact ⟨rfl, rfl⟩ | exact absurd rfl (h _)

/-- A fault of such a command is an error. -/
theorem Command.serve_reply {cmd : Command} (h : ∀ queue, cmd ≠ .exec queue) (db : Db)
    (session : Session) {fault : Fault} (hfault : fault ≠ .none) :
    (cmd.serve db session fault).reply = .error := by
  cases fault with
  | none => exact absurd rfl hfault
  | error => exact (refuse_db cmd db session).2.2
  | denied writes => cases cmd <;> first | rfl | exact absurd rfl (h _)

/-- So without an error there is no fault. -/
theorem Command.fault_eq_none {cmd : Command} (h : ∀ queue, cmd ≠ .exec queue) {db : Db}
    {session : Session} {fault : Fault} (hne : (cmd.serve db session fault).reply ≠ .error) :
    fault = .none := by
  by_contra hfault
  exact hne (serve_reply h db session hfault)

/-- A key that others do not see modified holds what it held. -/
theorem Command.serve_db_of_not_touched (cmd : Command) (db : Db) (session : Session) (fault : Fault)
    {k : Key} (hk : k ∉ (cmd.serve db session fault).touched) :
    (cmd.serve db session fault).db k = db k := by
  cases cmd with
  | exec queue =>
    obtain ⟨ws, -, hdb, htouched, -⟩ := serve_exec queue db session fault
    rw [htouched] at hk
    rw [hdb, runWrites_db_of_not_touched ws db hk]
  | _ => rw [(serve_db (fun queue => Command.noConfusion) db session fault).1]

/-- Only the keys of the command are modified. -/
theorem Command.serve_touched_subset (cmd : Command) (db : Db) (session : Session) (fault : Fault) :
    ∀ k ∈ (cmd.serve db session fault).touched, k ∈ cmd.keys := by
  intro k hk
  cases cmd with
  | exec queue =>
    obtain ⟨ws, hws, -, htouched, -⟩ := serve_exec queue db session fault
    rw [htouched] at hk
    exact (hws.map Write.key).subset (RedisStore.Redis.touched_subset ws db k hk)
  | _ =>
    rw [(serve_db (fun queue => Command.noConfusion) db session fault).2] at hk
    cases hk

/-- A command leaves the watches, ends them, or watches its key. -/
theorem Command.serve_watched (cmd : Command) (db : Db) (session : Session) (fault : Fault) {key : Key}
    (h : key ∈ (cmd.serve db session fault).session.watched) :
    key ∈ session.watched ∨ key ∈ cmd.keys := by
  cases cmd with
  | exec queue =>
    obtain ⟨-, -, -, -, hsession⟩ := serve_exec queue db session fault
    rw [hsession] at h
    cases h
  | watch key' =>
    cases fault with
    | none => exact (List.mem_cons.mp h).symm.imp_right (by simp [keys, ·])
    | error => exact .inl h
    | denied writes => exact .inl h
  | _ => cases fault <;> exact .inl h

/-- The reply and the modified keys depend on the keys of the command alone. -/
theorem Command.serve_congr (cmd : Command) {db db' : Db} (h : ∀ k ∈ cmd.keys, db k = db' k)
    (session : Session) (fault : Fault) :
    (cmd.serve db session fault).reply = (cmd.serve db' session fault).reply ∧
      (cmd.serve db session fault).session = (cmd.serve db' session fault).session ∧
      (cmd.serve db session fault).touched = (cmd.serve db' session fault).touched := by
  by_cases hfault : fault = .error
  · subst hfault
    cases cmd <;> exact ⟨rfl, rfl, rfl⟩
  cases cmd with
  | exec queue =>
    cases hd : session.dirty with
    | true =>
      rw [serve_exec_of_dirty queue db hd hfault, serve_exec_of_dirty queue db' hd hfault]
      exact ⟨rfl, rfl, rfl⟩
    | false =>
      rw [serve_exec_of_clean queue db hd hfault, serve_exec_of_clean queue db' hd hfault]
      refine ⟨congrArg Reply.replies (runAllowed_replies_congr fault.refused queue h), rfl, ?_⟩
      dsimp only
      rw [(runAllowed_eq fault.refused queue db).2, (runAllowed_eq fault.refused queue db').2]
      exact (runWrites_congr _ fun k hk =>
        h k ((List.filter_sublist.map Write.key).subset hk)).2
  | _ =>
    cases fault with
    | none => exact execute_congr _ h session
    | error => exact absurd rfl hfault
    | denied writes => exact ⟨rfl, rfl, rfl⟩

/-- What a command leaves under a key depends on what was under that key alone. -/
theorem Command.serve_db_congr (cmd : Command) {db db' : Db} {k : Key} (h : db k = db' k)
    (session : Session) (fault : Fault) :
    (cmd.serve db session fault).db k = (cmd.serve db' session fault).db k := by
  by_cases hexec : ∃ queue, cmd = .exec queue
  · obtain ⟨queue, rfl⟩ := hexec
    by_cases hfault : fault = .error
    · subst hfault
      exact h
    cases hd : session.dirty with
    | true =>
      rwa [serve_exec_of_dirty queue db hd hfault, serve_exec_of_dirty queue db' hd hfault]
    | false =>
      rw [serve_exec_of_clean queue db hd hfault, serve_exec_of_clean queue db' hd hfault]
      dsimp only
      rw [(runAllowed_eq fault.refused queue db).1, (runAllowed_eq fault.refused queue db').1]
      exact runWrites_db_congr _ h
  · rwa [(serve_db (not_exists.1 hexec) db session fault).1,
      (serve_db (not_exists.1 hexec) db' session fault).1]

end RedisStore.Redis
