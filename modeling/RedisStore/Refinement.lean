import RedisStore.Abstract
import RedisStore.Calls

/-!
# Calls one after the other

A connection whose calls are made one at a time, on a server where nobody else writes its keys, serves
the abstract store: its answers are those that the store gives to its calls, in their order
(`answers_refine`). The relation between the two says where the call in progress stands, and that the
database stands for the store before the call, or, once its transaction was executed, after it
(`Serving`). The watches that rejected upserts leave behind do no harm here: nobody else modifies the
watched keys, so that the flag of the session is never set.

There is one exception. The JavaScript objects that init and `getAll` build have no property
`__proto__`, so that an item with this key is lost on its way.
-/

namespace RedisStore

open Redis

/-- The operations of the feature store; an init is given items, of known kinds. -/
def Op.OfItems : Op → Prop
  | .initInternal allData =>
    (∀ e ∈ allData.entries, ∃ kind : Kind, e.1 = kind.namespaceName) ∧ HasItems allData
  | .getMetadata => False
  | .getUserMembership _ => False
  | _ => True

/-- The operation builds no object with an item under the key `__proto__`. -/
def Op.AvoidsProto (state : StoreState) (db : Db) : Op → Prop
  | .initInternal allData => NoProtoKey allData
  | .getAllInternal kind => fieldOf (db (itemsKey state kind)) "__proto__" = none
  | _ => True

/-- The operation depends on the keys of the kinds alone. -/
theorem Op.AvoidsProto.congr {state : StoreState} {db db' : Db} {op : Op}
    (h : op.AvoidsProto state db)
    (hitems : ∀ kind, db (itemsKey state kind) = db' (itemsKey state kind)) :
    op.AvoidsProto state db' := by
  cases op with
  | getAllInternal kind => exact (congrArg (fieldOf · "__proto__") (hitems kind)).symm.trans h
  | _ => exact h

/-! ## Where a call stands -/

/-- The request of an operation that reads. -/
inductive Reads (state : StoreState) (call : CallId) : Op → Request → Prop
  | get (kind : Kind) (key : String) : Reads state call (.getInternal kind key)
    ⟨.hget (itemsKey state kind) key, some (.hget kind key (.getInternal call))⟩
  | upsert (kind : Kind) (item : Item) :
    Reads state call (.upsertInternal kind item) (readRequest state kind item call)
  | getAll (kind : Kind) : Reads state call (.getAllInternal kind)
    ⟨.hgetall (itemsKey state kind), some (.hgetall kind call)⟩
  | inited : Reads state call .initializedInternal
    ⟨.existsKey (initedKey state), some (.initedExists call)⟩

/-- The transaction of an operation that writes, on a store that admits it. -/
inductive Writes (state : StoreState) (a : Abstract) (call : CallId) : Op → Request → Prop
  | upsert (kind : Kind) (item : Item) (hadmits : a.admits kind item = true) :
    Writes state a call (.upsertInternal kind item) (writeRequest state kind item call)
  | init (allData : AllData) (multi : Multi) (hbuild : buildInit state allData = .ok multi)
    (hitems : HasItems allData) (hproto : NoProtoKey allData) :
    Writes state a call (.initInternal allData) ⟨.exec multi, some (.initExec allData call)⟩

/-- A read has a callback and changes nothing. -/
theorem Reads.execute {state : StoreState} {call : CallId} {op : Op} {r : Request}
    (h : Reads state call op r) (db : Db) (session : Session) :
    (∃ cb, r.callback = some cb) ∧
      r.cmd.execute db session = ⟨db, session, r.cmd.read db, []⟩ := by
  cases h <;> exact ⟨⟨_, rfl⟩, rfl⟩

/-- An executed write does to the database what the operation does to the store. -/
theorem Writes.execute {state : StoreState} {call : CallId} {op : Op} {r : Request} {db : Db}
    (h : Writes state (Abstract.ofDb state db) call op r) (henc : HoldsEncoded state db)
    {session : Session} (hclean : session.dirty = false) :
    (∃ cb, r.callback = some cb) ∧ ∃ db' rs touched,
      r.cmd.execute db session = ⟨db', .clear, .replies rs, touched⟩ ∧ HoldsEncoded state db' ∧
      Abstract.ofDb state db' = (Abstract.ofDb state db).apply op := by
  cases h with
  | upsert kind item hadmits =>
    obtain ⟨henc', hofDb⟩ := ofDb_upsert henc hadmits
    exact ⟨⟨_, rfl⟩, _, _, _, Command.execute_exec_of_clean _ db hclean, henc', hofDb⟩
  | init allData multi hbuild hitems hproto =>
    obtain ⟨henc', hofDb⟩ := ofDb_init henc hbuild hitems hproto
    exact ⟨⟨_, rfl⟩, _, _, _, Command.execute_exec_of_clean _ db hclean, henc', hofDb⟩

/-- Where a call stands on a store that was `a` before it. -/
inductive Doing (state : StoreState) (a : Abstract) (call : CallId) (op : Op) (conn : Conn) (db : Db) :
    Prop
  | asked (watches : List Request) (r : Request)
    (hwatches : ∀ w ∈ watches, ∃ kind, w = ⟨.watch (itemsKey state kind), none⟩)
    (hr : Reads state call op r) (hin : conn.inbox = watches ++ [r]) (hout : conn.outbox = [])
    (hdb : Abstract.ofDb state db = a) (hproto : op.AvoidsProto state db)
  | read (r : Request) (cb : Callback) (db₀ : Db) (hr : Reads state call op r)
    (hcb : r.callback = some cb) (hin : conn.inbox = [])
    (hout : conn.outbox = [(cb, r.cmd.read db₀)]) (hdb : Abstract.ofDb state db = a)
    (hdb₀ : Abstract.ofDb state db₀ = a) (henc : HoldsEncoded state db₀)
    (hproto : op.AvoidsProto state db₀)
  | writing (r : Request) (hr : Writes state a call op r) (hin : conn.inbox = [r])
    (hout : conn.outbox = []) (hdb : Abstract.ofDb state db = a)
  | written (r : Request) (cb : Callback) (rs : List WriteReply) (hr : Writes state a call op r)
    (hcb : r.callback = some cb) (hin : conn.inbox = []) (hout : conn.outbox = [(cb, .replies rs)])
    (hdb : Abstract.ofDb state db = a.apply op)

/-- Where a call stands depends on the queues and on the keys of the store. -/
theorem Doing.congr {state : StoreState} {a : Abstract} {call : CallId} {op : Op} {conn conn' : Conn}
    {db db' : Db} (h : Doing state a call op conn db) (hin : conn'.inbox = conn.inbox)
    (hout : conn'.outbox = conn.outbox) (hofDb : Abstract.ofDb state db' = Abstract.ofDb state db)
    (hitems : ∀ kind, db (itemsKey state kind) = db' (itemsKey state kind)) :
    Doing state a call op conn' db' := by
  cases h with
  | asked watches r hwatches hr hin₀ hout₀ hdb hproto =>
    exact .asked watches r hwatches hr (hin.trans hin₀) (hout.trans hout₀) (hofDb.trans hdb)
      (hproto.congr hitems)
  | read r cb db₀ hr hcb hin₀ hout₀ hdb hdb₀ henc hproto =>
    exact .read r cb db₀ hr hcb (hin.trans hin₀) (hout.trans hout₀) (hofDb.trans hdb) hdb₀ henc hproto
  | writing r hr hin₀ hout₀ hdb =>
    exact .writing r hr (hin.trans hin₀) (hout.trans hout₀) (hofDb.trans hdb)
  | written r cb rs hr hcb hin₀ hout₀ hdb =>
    exact .written r cb rs hr hcb (hin.trans hin₀) (hout.trans hout₀) (hofDb.trans hdb)

/-- A call in progress has a callback that has not run. -/
theorem Doing.callbacks_ne_nil {state : StoreState} {a : Abstract} {call : CallId} {op : Op}
    {conn : Conn} {db : Db} (h : Doing state a call op conn db) : conn.callbacks ≠ [] := by
  -- It is in the inbox with its request, or in the outbox with its reply.
  have hmem : ∃ cb, cb ∈ conn.callbacks := by
    cases h with
    | asked watches r hwatches hr hin hout hdb hproto =>
      obtain ⟨cb, hcb⟩ := (hr.execute db .clear).1
      exact ⟨cb, Conn.mem_callbacks.2 (.inr ⟨r, by simp [hin], hcb⟩)⟩
    | read r cb db₀ hr hcb hin hout =>
      exact ⟨cb, Conn.mem_callbacks.2 (.inl ⟨_, by rw [hout]; exact List.mem_singleton_self _⟩)⟩
    | writing r hr hin hout hdb =>
      obtain ⟨cb, hcb⟩ : ∃ cb, r.callback = some cb := by cases hr <;> exact ⟨_, rfl⟩
      exact ⟨cb, Conn.mem_callbacks.2 (.inr ⟨r, by simp [hin], hcb⟩)⟩
    | written r cb rs hr hcb hin hout =>
      exact ⟨cb, Conn.mem_callbacks.2 (.inl ⟨_, by rw [hout]; exact List.mem_singleton_self _⟩)⟩
  obtain ⟨cb, hcb⟩ := hmem
  exact List.ne_nil_of_mem hcb

namespace Sys

variable {ι : Type} [DecidableEq ι]

/-- The calls on a connection in a history. -/
def callsOf (c : ι) (log : List (Event ι)) : List (CallId × Op) :=
  log.filterMap fun
    | .called d call op => if d = c then some (call, op) else none
    | _ => none

/-- The answers on a connection in a history. -/
def answersOf (c : ι) (log : List (Event ι)) : List (CallId × Answer) :=
  log.filterMap fun
    | .answered d call a => if d = c then some (call, a) else none
    | _ => none

@[simp] theorem callsOf_append (c : ι) (log log' : List (Event ι)) :
    callsOf c (log ++ log') = callsOf c log ++ callsOf c log' := List.filterMap_append

@[simp] theorem answersOf_append (c : ι) (log log' : List (Event ι)) :
    answersOf c (log ++ log') = answersOf c log ++ answersOf c log' := List.filterMap_append

/-- Code records no call, and its answers. -/
@[simp] theorem callsOf_eventsOf (c : ι) (code : Code Unit) : callsOf c (eventsOf c code) = [] := by
  simp [callsOf, eventsOf, List.filterMap_append, List.filterMap_map]

@[simp] theorem answersOf_eventsOf (c : ι) (code : Code Unit) :
    answersOf c (eventsOf c code) = code.answered := by
  simp [answersOf, eventsOf, List.filterMap_append, List.filterMap_map]

/-- The events of other connections are no calls and no answers of this one. -/
theorem callsOf_of_conn {c : ι} {es : List (Event ι)} (h : ∀ e ∈ es, e.conn? ≠ some c) :
    callsOf c es = [] ∧ answersOf c es = [] := by
  constructor
  · refine List.filterMap_eq_nil_iff.2 fun e he => ?_
    split
    · next d call op => exact if_neg fun hd => h _ he (congrArg some hd)
    · rfl
  · refine List.filterMap_eq_nil_iff.2 fun e he => ?_
    split
    · next d call a => exact if_neg fun hd => h _ he (congrArg some hd)
    · rfl

/-- The next call on `c` is made after the callback of the one before; the steps of `c` meet no error,
and other steps modify none of its keys. -/
structure InTurn (c : ι) (s : Sys ι) (l : Label ι) : Prop where
  undisturbed : l.conn? = some c → Undisturbed l
  called : ∀ op, l = .call c op → op.OfItems ∧ (s.conn c).callbacks = []
  others : l.conn? ≠ some c → ∀ k : StoreKey, k.key (s.conn c).state ∉ modified s l

/-- The connection serves the store that was `a₀` at the start. -/
structure Serving (c : ι) (state : StoreState) (a₀ : Abstract) (s : Sys ι) : Prop where
  itemsPrefix : (s.conn c).state.itemsPrefix = state.itemsPrefix
  up : (s.conn c).state.down = false
  clean : (s.conn c).session.dirty = false
  watched : ∀ key ∈ (s.conn c).session.watched, ∃ k : StoreKey, key = k.key state
  encoded : HoldsEncoded state s.db
  /-- No call is in progress, or the last one is. -/
  stage : ∃ b,
    (Abstract.Trace a₀ (callsOf c s.log) (answersOf c s.log) b ∧ (s.conn c).inbox = [] ∧
      (s.conn c).outbox = [] ∧ Abstract.ofDb state s.db = b) ∨
    ∃ calls call op, callsOf c s.log = calls ++ [(call, op)] ∧
      Abstract.Trace a₀ calls (answersOf c s.log) b ∧ Doing state b call op (s.conn c) s.db

variable {s t : Sys ι} {l : Label ι} {c : ι} {state : StoreState} {a₀ : Abstract}

/-- A step of another connection, or of another program, is none of the connection's business. -/
theorem serving_other (hs : Serving c state a₀ s) (hturn : InTurn c s l) (hc : l.conn? ≠ some c)
    (h : step s l = some t) : Serving c state a₀ t := by
  have hkey : ∀ k : StoreKey, t.db (k.key state) = s.db (k.key state) := by
    intro k
    have hmod := hturn.others hc k
    rw [StoreKey.key, hs.itemsPrefix] at hmod
    exact step_db h hmod
  have hconn : t.conn c = s.conn c := by
    rw [step_other h hc, Session.touch_of_not_watched]
    rintro key hkey hw
    obtain ⟨k, rfl⟩ := hs.watched key hw
    refine hturn.others hc k ?_
    rw [StoreKey.key, hs.itemsPrefix]
    exact hkey
  -- Neither the calls nor the answers of the connection change, nor what the database stands for.
  obtain ⟨es, hlog, hes⟩ := step_log_conn h
  obtain ⟨hcalls, hanswers⟩ := callsOf_of_conn fun e he => (hes e he).symm ▸ hc
  have hitems : ∀ kind, s.db (itemsKey state kind) = t.db (itemsKey state kind) :=
    fun kind => (hkey (.items kind)).symm
  have hofDb : Abstract.ofDb state t.db = Abstract.ofDb state s.db :=
    Abstract.ofDb_congr (fun kind => (hitems kind).symm) (hkey .inited)
  refine ⟨hconn ▸ hs.itemsPrefix, hconn ▸ hs.up, hconn ▸ hs.clean, hconn ▸ hs.watched,
    hs.encoded.congr hitems, ?_⟩
  rw [hlog, callsOf_append, answersOf_append, hcalls, hanswers, List.append_nil, List.append_nil,
    hconn, hofDb]
  obtain ⟨b, hidle | ⟨calls, call, op, hcalled, htrace, hdoing⟩⟩ := hs.stage
  · exact ⟨b, .inl hidle⟩
  · exact ⟨b, .inr ⟨calls, call, op, hcalled, htrace, hdoing.congr rfl rfl hofDb hitems⟩⟩

/-- The code of an operation asks for its read, or sends its transaction. -/
theorem start_does {st : StoreState} (hsame : st.itemsPrefix = state.itemsPrefix)
    (hup : st.down = false) {op : Op} (hop : op.OfItems) {db : Db}
    (hproto : op.AvoidsProto state db) (call : CallId) :
    ∃ issued, (op.start st call).Does issued [] [] ∧
      ((∃ watches r, issued = watches ++ [r] ∧
          (∀ w ∈ watches, ∃ kind, w = ⟨.watch (itemsKey state kind), none⟩) ∧
          Reads state call op r) ∨
        ∃ r, issued = [r] ∧ Writes state (Abstract.ofDb state db) call op r) := by
  have hitems : ∀ kind, itemsKey st kind = itemsKey state kind := itemsKey_congr hsame
  cases op with
  | getInternal kind key =>
    refine ⟨_, getInternal_does_of_up hup kind key call, .inl ⟨[], _, rfl, by simp, ?_⟩⟩
    rw [hitems]
    exact .get kind key
  | getAllInternal kind =>
    refine ⟨_, getAllInternal_does_of_up hup kind call, .inl ⟨[], _, rfl, by simp, ?_⟩⟩
    rw [hitems]
    exact .getAll kind
  | initInternal allData =>
    -- Known kinds and items with texts: the loop does not throw.
    obtain ⟨multi, hbuild⟩ : ∃ multi, buildInit st allData = .ok multi := by
      rw [buildInit_isOk]
      intro e he
      obtain ⟨kind, hkind⟩ := hop.1 e he
      refine ⟨⟨_, by rw [hkind]; exact dataKindNamespace_namespaceName kind⟩, ?_⟩
      rw [stringifyItems, PlainObject.assignAll_isOk]
      intro item hitem
      obtain ⟨j, hj, -⟩ := hop.2 e he item hitem
      exact ⟨j.stringify, by rw [hj]; rfl⟩
    refine ⟨_, initInternal_does_of_ok hbuild call, .inr ⟨_, rfl, ?_⟩⟩
    exact .init allData multi (buildInit_congr hsame allData ▸ hbuild) hop.2 hproto
  | upsertInternal kind item =>
    refine ⟨_, upsertInternal_does_of_up hup kind item call,
      .inl ⟨[⟨.watch (itemsKey st kind), none⟩], _, rfl, ?_, ?_⟩⟩
    · intro w hw
      obtain rfl := List.mem_singleton.1 hw
      exact ⟨kind, by rw [hitems]⟩
    · rw [readRequest, hitems]
      exact .upsert kind item
  | initializedInternal =>
    refine ⟨_, initializedInternal_does st call, .inl ⟨[], _, rfl, by simp, ?_⟩⟩
    rw [initedKey, hsame]
    exact .inited
  | getMetadata => exact absurd hop id
  | getUserMembership userHash => exact absurd hop id

/-- A call starts when none is in progress. -/
theorem serving_call (hs : Serving c state a₀ s) {op : Op} (hop : op.OfItems)
    (hidle : (s.conn c).callbacks = []) (hproto : op.AvoidsProto state s.db)
    (h : step s (.call c op) = some t) : Serving c state a₀ t := by
  have hstep := call_step h
  obtain ⟨issued, hdoes, hissued⟩ := start_does hs.itemsPrefix hs.up hop hproto (s.calls c)
  -- No call was in progress: one would have a callback that waits.
  obtain ⟨b, ⟨htrace, hin, hout, hdb⟩ | ⟨_, _, _, -, -, hdoing⟩⟩ := hs.stage
  · have hcalls : callsOf c t.log = callsOf c s.log ++ [(s.calls c, op)] := by
      rw [hstep.log, callsOf_append, ← List.singleton_append, callsOf_append, callsOf_eventsOf]
      simp [callsOf]
    have hanswers : answersOf c t.log = answersOf c s.log := by
      rw [hstep.log, answersOf_append, ← List.singleton_append, answersOf_append,
        answersOf_eventsOf, hdoes.answered]
      simp [answersOf]
    have hinbox : (t.conn c).inbox = issued := by
      rw [hstep.self, hdoes.issued, hin, List.nil_append]
    have houtbox : (t.conn c).outbox = [] := by rw [hstep.self, hout]
    refine ⟨by rw [hstep.self]; exact hs.itemsPrefix, by rw [hstep.self]; exact hs.up,
      by rw [hstep.self]; exact hs.clean, by rw [hstep.self]; exact hs.watched,
      by rw [hstep.db]; exact hs.encoded,
      b, .inr ⟨callsOf c s.log, s.calls c, op, hcalls, by rw [hanswers]; exact htrace, ?_⟩⟩
    rw [hstep.db]
    rcases hissued with ⟨watches, r, rfl, hwatches, hr⟩ | ⟨r, rfl, hr⟩
    · exact .asked watches r hwatches hr hinbox houtbox hdb hproto
    · exact .writing r (hdb ▸ hr) hinbox houtbox hdb
  · exact absurd hidle hdoing.callbacks_ne_nil

/-- The server executes the next command of the call. -/
theorem serving_serve (hs : Serving c state a₀ s) (h : step s (.serve c .none) = some t) :
    Serving c state a₀ t := by
  obtain ⟨request, rest, hstep⟩ := serve_step h
  have hlog : callsOf c t.log = callsOf c s.log ∧ answersOf c t.log = answersOf c s.log := by
    rw [hstep.log, callsOf_append, answersOf_append]
    simp [callsOf, answersOf]
  obtain ⟨hcalls, hanswers⟩ := hlog
  have hout : outcome s c request .none = request.cmd.execute s.db (s.conn c).session := rfl
  -- A command waits, so that a call is in progress.
  obtain ⟨b, ⟨-, hin, -⟩ | ⟨calls, call, op, hcalled, htrace, hdoing⟩⟩ := hs.stage
  · rw [hstep.inbox] at hin
    cases hin
  rw [← hcalls] at hcalled
  rw [← hanswers] at htrace
  cases hdoing with
  | asked watches r hwatches hr hin houtbox hdb hproto =>
    rw [hstep.inbox] at hin
    -- The read is next, or a `WATCH` before it.
    cases watches with
    | nil =>
      obtain ⟨rfl, rfl⟩ := List.cons.inj hin
      obtain ⟨⟨cb, hcb⟩, hexecute⟩ := hr.execute s.db (s.conn c).session
      rw [hexecute] at hout
      have hself := hstep.self
      have hdb' := hstep.db
      rw [hout] at hself hdb'
      refine ⟨by rw [hself]; exact hs.itemsPrefix, by rw [hself]; exact hs.up,
        by rw [hself]; exact hs.clean, by rw [hself]; exact hs.watched, by rw [hdb']; exact hs.encoded,
        b, .inr ⟨calls, call, op, hcalled, htrace, ?_⟩⟩
      refine .read request cb s.db hr hcb (by rw [hself]) ?_ (by rw [hdb']; exact hdb) hdb hs.encoded
        hproto
      rw [hself, houtbox, waiting, hcb]
      rfl
    | cons w ws =>
      obtain ⟨rfl, rfl⟩ := List.cons.inj hin
      obtain ⟨kind, rfl⟩ := hwatches request List.mem_cons_self
      rw [Command.execute_watch] at hout
      have hself := hstep.self
      have hdb' := hstep.db
      rw [hout] at hself hdb'
      refine ⟨by rw [hself]; exact hs.itemsPrefix, by rw [hself]; exact hs.up,
        by rw [hself]; exact hs.clean, ?_, by rw [hdb']; exact hs.encoded,
        b, .inr ⟨calls, call, op, hcalled, htrace, ?_⟩⟩
      · intro key hkey
        rw [hself] at hkey
        rcases List.mem_cons.mp hkey with rfl | hkey
        · exact ⟨.items kind, rfl⟩
        · exact hs.watched key hkey
      · rw [hdb']
        exact .asked ws r (fun w hw => hwatches w (List.mem_cons_of_mem _ hw)) hr
          (by rw [hself]; rfl) (by rw [hself, houtbox]; rfl) hdb hproto
  | read r cb db₀ hr hcb hin =>
    rw [hstep.inbox] at hin
    cases hin
  | writing r hr hin houtbox hdb =>
    rw [hstep.inbox] at hin
    obtain ⟨rfl, rfl⟩ := List.cons.inj hin
    subst hdb
    -- Nobody has modified a watched key, so that the transaction is executed.
    obtain ⟨⟨cb, hcb⟩, db', rs, touched, hexecute, henc, hofDb⟩ := hr.execute hs.encoded hs.clean
    rw [hexecute] at hout
    have hself := hstep.self
    have hdb' := hstep.db
    rw [hout] at hself hdb'
    refine ⟨by rw [hself]; exact hs.itemsPrefix, by rw [hself]; exact hs.up, by rw [hself]; rfl,
      by rw [hself]; simp [Session.clear], by rw [hdb']; exact henc,
      _, .inr ⟨calls, call, op, hcalled, htrace, ?_⟩⟩
    refine .written request cb rs hr hcb (by rw [hself]) ?_ (by rw [hdb']; exact hofDb)
    rw [hself, houtbox, waiting, hcb]
    rfl
  | written r cb rs hr hcb hin =>
    rw [hstep.inbox] at hin
    cases hin

omit [DecidableEq ι] in
/-- The callback of a read answers what the store gives, or goes on to write what it admits. -/
theorem resume_read_does {st : StoreState} (hsame : st.itemsPrefix = state.itemsPrefix) {db : Db}
    (henc : HoldsEncoded state db) {call : CallId} {op : Op} {r : Request}
    (hr : Reads state call op r) (hproto : op.AvoidsProto state db) {cb : Callback}
    (hcb : r.callback = some cb) :
    (∃ ans, (cb.resume st (r.cmd.read db)).Does [] [(call, ans)] [] ∧
      (Abstract.ofDb state db).Gives op ans ∧
      (Abstract.ofDb state db).apply op = Abstract.ofDb state db) ∨
    ∃ w, (cb.resume st (r.cmd.read db)).Does [w] [] [] ∧
      Writes state (Abstract.ofDb state db) call op w := by
  cases hr with
  | get kind key =>
    obtain rfl := Option.some.inj hcb
    have hdoes := onHget_getInternal_does st kind key call
      ((Command.hget (itemsKey state kind) key).read db)
    rw [replyItem_read henc] at hdoes
    exact .inl ⟨_, hdoes, visible_item henc kind key, rfl⟩
  | upsert kind item =>
    obtain rfl := Option.some.inj hcb
    have hdoes := onHget_update_does st kind item.key item call
      ((Command.hget (itemsKey state kind) item.key).read db)
    rw [replyVerdict_read henc] at hdoes
    by_cases hadmits : (Abstract.ofDb state db).admits kind item = true
    · rw [if_pos hadmits] at hdoes
      refine .inr ⟨_, hdoes, ?_⟩
      rw [writeRequest, itemsKey_congr hsame]
      exact .upsert kind item hadmits
    · rw [if_neg hadmits] at hdoes
      have happly : (Abstract.ofDb state db).apply (.upsertInternal kind item) =
          Abstract.ofDb state db := if_neg hadmits
      refine .inl ⟨_, hdoes, ⟨rfl, ?_⟩, happly⟩
      rw [happly]
      -- The rejected upsert answers the item that is stored.
      cases hitem : (Abstract.ofDb state db).items kind item.key with
      | none => exact absurd (by rw [Abstract.admits, hitem]) hadmits
      | some j => rfl
  | getAll kind =>
    obtain rfl := Option.some.inj hcb
    have hdoes := onHgetall_does kind call ((Command.hgetall (itemsKey state kind)).read db)
    obtain ⟨results, hreply, hresults⟩ := replyItems_read henc kind hproto
    rw [hreply] at hdoes
    exact .inl ⟨_, hdoes, hresults, rfl⟩
  | inited =>
    obtain rfl := Option.some.inj hcb
    have hdoes := onInitedExists_does call ((Command.existsKey (initedKey state)).read db)
    refine .inl ⟨_, hdoes, ?_, rfl⟩
    show replyInited ((Command.existsKey (initedKey state)).read db) = (db (initedKey state)).isSome
    rw [Command.read, replyInited]
    cases (db (initedKey state)).isSome <;> rfl

omit [DecidableEq ι] in
/-- The callback of an executed transaction answers what the store gives. -/
theorem resume_written_does (st : StoreState) {a : Abstract} {call : CallId} {op : Op} {r : Request}
    (hr : Writes state a call op r) {cb : Callback} (hcb : r.callback = some cb)
    (rs : List WriteReply) :
    ∃ ans, (cb.resume st (.replies rs)).Does [] [(call, ans)] [] ∧ a.Gives op ans := by
  cases hr with
  | upsert kind item hadmits =>
    obtain rfl := Option.some.inj hcb
    have hdoes := onUpsertExec_does (Reply.noConfusion : Reply.replies rs ≠ .nil) st kind item call
    refine ⟨_, hdoes, rfl, ?_⟩
    rw [Abstract.apply, if_pos hadmits]
    simp
  | init allData multi hbuild hitems hproto =>
    obtain rfl := Option.some.inj hcb
    exact ⟨_, onInitExec_does call (.replies rs), trivial⟩

/-- The callback of the call runs. -/
theorem serving_deliver (hs : Serving c state a₀ s) (h : step s (.deliver c) = some t) :
    Serving c state a₀ t := by
  obtain ⟨cb', reply, rest, hstep⟩ := deliver_step h
  have hcalls : callsOf c t.log = callsOf c s.log := by
    rw [hstep.log, callsOf_append, callsOf_eventsOf, List.append_nil]
  have hanswers : answersOf c t.log =
      answersOf c s.log ++ (cb'.resume (s.conn c).state reply).answered := by
    rw [hstep.log, answersOf_append, answersOf_eventsOf]
  -- Only the queues change, and the history.
  suffices hstage : ∃ b, _ from
    ⟨by rw [hstep.self]; exact hs.itemsPrefix, by rw [hstep.self]; exact hs.up,
      by rw [hstep.self]; exact hs.clean, by rw [hstep.self]; exact hs.watched,
      by rw [hstep.db]; exact hs.encoded, hstage⟩
  rw [hcalls, hanswers, hstep.db]
  obtain ⟨b, ⟨-, -, hout, -⟩ | ⟨calls, call, op, hcalled, htrace, hdoing⟩⟩ := hs.stage
  · rw [hstep.outbox] at hout
    cases hout
  cases hdoing with
  | asked watches r hwatches hr hin hout =>
    rw [hstep.outbox] at hout
    cases hout
  | writing r hr hin hout =>
    rw [hstep.outbox] at hout
    cases hout
  | read r cb db₀ hr hcb hin hout hdb hdb₀ henc hproto =>
    rw [hstep.outbox] at hout
    obtain ⟨hp, rfl⟩ := List.cons.inj hout
    obtain ⟨rfl, rfl⟩ := Prod.mk.inj hp
    subst hdb₀
    -- The store that the read has seen is still the one that the database stands for.
    rcases resume_read_does hs.itemsPrefix henc hr hproto hcb with
      ⟨ans, hdoes, hgives, happly⟩ | ⟨w, hdoes, hw⟩
    · refine ⟨(Abstract.ofDb state db₀).apply op, .inl ⟨?_, ?_, ?_, ?_⟩⟩
      · rw [hcalled, hdoes.answered]
        exact htrace.snoc call hgives
      · rw [hstep.self, hin, hdoes.issued, List.append_nil]
      · rw [hstep.self]
      · rw [hdb, happly]
    · refine ⟨_, .inr ⟨calls, call, op, hcalled, by rw [hdoes.answered, List.append_nil]; exact htrace,
        ?_⟩⟩
      exact .writing w hw (by rw [hstep.self, hin, hdoes.issued, List.nil_append])
        (by rw [hstep.self]) hdb
  | written r cb rs hr hcb hin hout hdb =>
    rw [hstep.outbox] at hout
    obtain ⟨hp, rfl⟩ := List.cons.inj hout
    obtain ⟨rfl, rfl⟩ := Prod.mk.inj hp
    obtain ⟨ans, hdoes, hgives⟩ := resume_written_does (s.conn c).state hr hcb rs
    refine ⟨b.apply op, .inl ⟨?_, ?_, ?_, hdb⟩⟩
    · rw [hcalled, hdoes.answered]
      exact htrace.snoc call hgives
    · rw [hstep.self, hin, hdoes.issued, List.append_nil]
    · rw [hstep.self]

/-- The operation that a step calls on `c` builds no object with an item under `__proto__`. -/
def AvoidsProto (c : ι) (s : Sys ι) (l : Label ι) : Prop :=
  ∀ op, l = .call c op → op.AvoidsProto (s.conn c).state s.db

/-- Every step of such a run keeps the connection serving the store. -/
theorem serving_step (hs : Serving c state a₀ s) (hturn : InTurn c s l) (hproto : AvoidsProto c s l)
    (h : step s l = some t) : Serving c state a₀ t := by
  cases step_conn h c with
  | call op hstep =>
    obtain ⟨hop, hidle⟩ := hturn.called op rfl
    refine serving_call hs hop hidle ?_ h
    have hop' := hproto op rfl
    cases op with
    | getAllInternal kind => rwa [Op.AvoidsProto, itemsKey_congr hs.itemsPrefix] at hop'
    | _ => exact hop'
  | serve request rest fault hstep =>
    obtain rfl : fault = .none := hturn.undisturbed rfl
    exact serving_serve hs h
  | deliver cb reply rest hstep => exact serving_deliver hs h
  | lose kept hstep => exact absurd (hturn.undisturbed rfl) id
  | regain hstep =>
    have hcalls : callsOf c t.log = callsOf c s.log ∧ answersOf c t.log = answersOf c s.log := by
      rw [hstep.log, callsOf_append, answersOf_append]
      simp [callsOf, answersOf]
    refine ⟨by rw [hstep.self, StoreState.onEvent_itemsPrefix]; exact hs.itemsPrefix,
      by rw [hstep.self]; rfl, by rw [hstep.self]; exact hs.clean,
      by rw [hstep.self]; exact hs.watched, by rw [hstep.db]; exact hs.encoded, ?_⟩
    rw [hcalls.1, hcalls.2, hstep.db, hstep.self]
    obtain ⟨b, hidle | ⟨calls, call, op, hcalled, htrace, hdoing⟩⟩ := hs.stage
    · exact ⟨b, .inl hidle⟩
    · exact ⟨b, .inr ⟨calls, call, op, hcalled, htrace, hdoing.congr rfl rfl rfl fun _ => rfl⟩⟩
  | other l hc hstep => exact serving_other hs hturn hc h

/-! ## Whole runs -/

/-- For every run in which the calls on a connection are made one at a time, without errors and
without others who write its keys, from any database whose hashes hold items, where no object is built
with an item under `__proto__`: the answers on the connection are those of the abstract store, in the
order of the calls, of which only the last may be in progress; and where none is, the database stands
for the store. -/
theorem answers_refine {ls : List (Label ι)} (h₀ : Fresh s) (hup : (s.conn c).state.down = false)
    (henc : HoldsEncoded (s.conn c).state s.db) (hturn : Along (InTurn c) s ls)
    (hproto : Along (AvoidsProto c) s ls) (h : run s ls = some t) :
    ∃ calls pending b, callsOf c t.log = calls ++ pending ∧ pending.length ≤ 1 ∧
      Abstract.Trace (Abstract.ofDb (s.conn c).state s.db) calls (answersOf c t.log) b ∧
      (pending = [] → Abstract.ofDb (s.conn c).state t.db = b) := by
  have hstart : Serving c (s.conn c).state (Abstract.ofDb (s.conn c).state s.db) s := by
    refine ⟨rfl, hup, by rw [h₀.session]; rfl, by rw [h₀.session]; simp [Session.clear], henc,
      _, .inl ⟨?_, h₀.inbox c, h₀.outbox c, rfl⟩⟩
    rw [h₀.log]
    exact .nil
  have hserving : Serving c (s.conn c).state (Abstract.ofDb (s.conn c).state s.db) t :=
    Transition.run_invariant (fun _ _ _ hs hl hstep => serving_step hs hl.1 hl.2 hstep) hstart
      (hturn.and hproto) h
  obtain ⟨b, ⟨htrace, -, -, hdb⟩ | ⟨calls, call, op, hcalled, htrace, -⟩⟩ := hserving.stage
  · exact ⟨_, [], b, (List.append_nil _).symm, Nat.zero_le 1, htrace, fun _ => hdb⟩
  · exact ⟨calls, [(call, op)], b, hcalled, le_rfl, htrace, fun hnil => by cases hnil⟩

/-- The calls are made when no callback waits. -/
def calledIdle (s : Sys Unit) : Label Unit → Bool
  | .call _ _ => (s.conn ()).callbacks.isEmpty
  | _ => true

/-- The calls of a run with one connection are made in turn. -/
theorem along_inTurn {s : Sys Unit} {ls : List (Label Unit)}
    (hidle : Along (fun s l => calledIdle s l = true) s ls)
    (hls : ∀ l ∈ ls, l.conn? = some () ∧ Undisturbed l ∧ ∀ op, l = .call () op → op.OfItems) :
    Along (InTurn ()) s ls := by
  refine (hidle.and (Transition.Along.of_forall fun _ => hls)).mono ?_
  rintro s l ⟨hidle, hconn, hundisturbed, hitems⟩
  refine ⟨fun _ => hundisturbed, fun op hl => ⟨hitems op hl, ?_⟩, fun hne => absurd hconn hne⟩
  subst hl
  exact List.isEmpty_iff.1 hidle

/-- An upsert, and then a read of its item. -/
def upsertThenGet : List (Label Unit) :=
  [.call () (.upsertInternal .features (.ofVersion "f" 1)), .serve () .none, .serve () .none,
    .deliver (), .serve () .none, .deliver (), .call () (.getInternal .features "f"),
    .serve () .none, .deliver ()]

/-- The two answers are those of the abstract store. -/
theorem answers_refine_upsertThenGet :
    ∃ t : Sys Unit, run (opened (fun _ => none) fun _ => connectedState) upsertThenGet = some t ∧
      ∃ calls pending b, callsOf () t.log = calls ++ pending ∧ pending.length ≤ 1 ∧
        Abstract.Trace (Abstract.ofDb connectedState fun _ => none) calls (answersOf () t.log) b ∧
        (pending = [] → Abstract.ofDb connectedState t.db = b) := by
  have hsome : (run (opened (fun _ => none) fun _ => connectedState) upsertThenGet).isSome := by
    decide +kernel
  obtain ⟨t, ht⟩ := Option.isSome_iff_exists.1 hsome
  have hidle : Along (fun s l => calledIdle s l = true)
      (opened (fun _ => none) fun _ => connectedState) upsertThenGet := by decide +kernel
  have hturn := along_inTurn hidle
    (by simp [upsertThenGet, Label.conn?, Undisturbed, Op.OfItems])
  have hproto : Along (AvoidsProto ()) (opened (fun _ => none) fun _ => connectedState)
      upsertThenGet := by
    refine Transition.Along.of_forall fun s l hl op hop => ?_
    subst hop
    simp only [upsertThenGet, List.mem_cons, reduceCtorEq, Label.call.injEq, true_and, false_or,
      List.not_mem_nil, or_false] at hl
    rcases hl with rfl | rfl <;> trivial
  have henc : HoldsEncoded connectedState fun _ => none :=
    ⟨fun _ => trivial, fun _ _ _ htext => by cases htext⟩
  exact ⟨t, ht, answers_refine (opened_fresh (fun _ => none) fun _ => connectedState) rfl henc hturn
    hproto ht⟩

/-! ## A lost item -/

/-- The last call of a trace and its answer. -/
theorem trace_concat {a b : Abstract} {calls : List (CallId × Op)}
    {answers : List (CallId × Answer)} {call call' : CallId} {op : Op} {ans : Answer}
    (h : a.Trace (calls ++ [(call, op)]) (answers ++ [(call', ans)]) b) :
    ∃ b', a.Trace calls answers b' ∧ b'.Gives op ans ∧ b = b'.apply op := by
  generalize hcalls : calls ++ [(call, op)] = calls' at h
  generalize hanswers : answers ++ [(call', ans)] = answers' at h
  cases h with
  | nil => simp at hcalls
  | snoc h call'' hans =>
    obtain ⟨rfl, hcall⟩ := List.append_inj' hcalls rfl
    obtain ⟨rfl, hanswer⟩ := List.append_inj' hanswers rfl
    obtain ⟨-, rfl⟩ := Prod.mk.inj (List.cons.inj hcall).1
    obtain ⟨-, rfl⟩ := Prod.mk.inj (List.cons.inj hanswer).1
    exact ⟨_, h, hans, rfl⟩

/-- A trace without calls. -/
theorem trace_nil {a b : Abstract} {answers : List (CallId × Answer)} (h : a.Trace [] answers b) :
    b = a := by
  generalize hcalls : ([] : List (CallId × Op)) = calls at h
  cases h with
  | nil => rfl
  | snoc h call hans => simp at hcalls

/-- Every call of a trace is answered. -/
theorem trace_length {a b : Abstract} {calls : List (CallId × Op)}
    {answers : List (CallId × Answer)} (h : a.Trace calls answers b) :
    calls.length = answers.length := by
  induction h with
  | nil => rfl
  | snoc h call hans ih => simp [ih]

/-- An init with one item, whose key is `__proto__`, and then a read of the item. -/
def initThenGet : List (Label Unit) :=
  [.call () (.initInternal (sampleData "__proto__" 1)), .serve () .none, .deliver (),
    .call () (.getInternal .features "__proto__"), .serve () .none, .deliver ()]

/-- The data of the init holds an item. -/
theorem sampleData_ofItems (key : String) (version : ℤ) :
    (Op.initInternal (sampleData key version)).OfItems := by
  constructor
  · rintro e he
    obtain rfl := List.mem_singleton.1 he
    exact ⟨.features, rfl⟩
  · rintro e he item hitem
    obtain rfl := List.mem_singleton.1 he
    obtain rfl := List.mem_singleton.1 hitem
    exact ⟨_, rfl, by simp⟩

/-- The read answers `null`, and the abstract store has the item. -/
theorem get_lost_proto :
    ∃ t : Sys Unit, run (opened (fun _ => none) fun _ => connectedState) initThenGet = some t ∧
      Along (InTurn ()) (opened (fun _ => none) fun _ => connectedState) initThenGet ∧
      ¬ ∃ calls pending b, callsOf () t.log = calls ++ pending ∧ pending.length ≤ 1 ∧
        Abstract.Trace (Abstract.ofDb connectedState fun _ => none) calls (answersOf () t.log) b ∧
        (pending = [] → Abstract.ofDb connectedState t.db = b) := by
  have hparts : (run (opened (fun _ => none) fun _ => connectedState) initThenGet).map
      (fun t => (callsOf () t.log, answersOf () t.log)) =
      some ([(0, .initInternal (sampleData "__proto__" 1)),
          (1, .getInternal .features "__proto__")], [(0, .done), (1, .item .null)]) := rfl
  have hidle : Along (fun s l => calledIdle s l = true)
      (opened (fun _ => none) fun _ => connectedState) initThenGet := by decide +kernel
  obtain ⟨t, ht, hlog⟩ := Option.map_eq_some_iff.1 hparts
  obtain ⟨hcalls, hanswers⟩ := Prod.mk.inj hlog
  refine ⟨t, ht, along_inTurn hidle ?_, ?_⟩
  · simpa [initThenGet, Label.conn?, Undisturbed, Op.OfItems] using sampleData_ofItems "__proto__" 1
  · rintro ⟨calls, pending, b, hsplit, -, htrace, -⟩
    have hlength := trace_length htrace
    rw [hcalls] at hsplit
    rw [hanswers] at htrace hlength
    -- Both calls are answered, so that none is in progress.
    obtain rfl : pending = [] := by
      have hsum := congrArg List.length hsplit
      rw [List.length_append, hlength] at hsum
      simpa using hsum
    rw [List.append_nil] at hsplit
    subst hsplit
    have htrace₂ : Abstract.Trace _ ([_] ++ [_]) ([_] ++ [_]) b := htrace
    obtain ⟨b₁, htrace₁, hget, -⟩ := trace_concat htrace₂
    have htrace₁ : Abstract.Trace _ ([] ++ [_]) ([] ++ [_]) b₁ := htrace₁
    obtain ⟨b₀, htrace₀, -, rfl⟩ := trace_concat htrace₁
    obtain rfl := trace_nil htrace₀
    cases hget

end Sys

end RedisStore
