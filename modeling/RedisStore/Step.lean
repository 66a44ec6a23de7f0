import RedisStore.System
import RedisStore.Store.Spec

/-!
# One step of the system

What each kind of step changes: one theorem per label, which the invariants use instead of the
definition of `Sys.step`. A step of one connection leaves the others alone, except that an executed
transaction may set the flag of their sessions. So an invariant about one connection has the cases of
`step_conn`: the connection's own steps, and any other.
-/

namespace RedisStore

open Redis

variable {ι : Type}

/-- The connection that an event is about. -/
def Event.conn? {ι : Type} : Event ι → Option ι
  | .called c _ _ => some c
  | .executed c _ _ _ => some c
  | .answered c _ _ => some c
  | .threw c _ => some c
  | .lost c => some c
  | .regained c => some c
  | .wrote _ => none

/-- The events that a run of code in the process of connection `c` records. -/
def eventsOf (c : ι) (code : Code Unit) : List (Event ι) :=
  code.answered.map (fun a => .answered c a.1 a.2) ++ code.thrown.map (.threw c)

/-- The events of code whose effects are known. -/
theorem Js.Does.eventsOf {code : Code Unit} {issued : List Request}
    {answered : List (CallId × Answer)} {thrown : List Exn} (h : code.Does issued answered thrown)
    (c : ι) : eventsOf c code =
      answered.map (fun a => .answered c a.1 a.2) ++ thrown.map (.threw c) := by
  rw [RedisStore.eventsOf, h.answered, h.thrown]

/-- Code records no call. -/
@[simp] theorem not_called_eventsOf (c d : ι) (code : Code Unit) (call : CallId) (op : Op) :
    .called d call op ∉ eventsOf c code := by
  simp [eventsOf]

/-- Code executes no command: the server does. -/
theorem not_executed_eventsOf (c d : ι) (code : Code Unit) (request : Request) (reply : Reply)
    (touched : List Key) : .executed d request reply touched ∉ eventsOf c code := by
  simp [eventsOf]

/-- The answers that code records. -/
theorem answered_mem_eventsOf {c d : ι} {code : Code Unit} {call : CallId} {a : Answer} :
    .answered d call a ∈ eventsOf c code ↔ d = c ∧ (call, a) ∈ code.answered := by
  simp only [eventsOf, List.mem_append, List.mem_map, Event.answered.injEq, reduceCtorEq, and_false,
    exists_false, or_false]
  constructor
  · rintro ⟨⟨call', a'⟩, hmem, rfl, rfl, rfl⟩
    exact ⟨rfl, hmem⟩
  · rintro ⟨rfl, hmem⟩
    exact ⟨(call, a), hmem, rfl, rfl, rfl⟩

/-- A key that is not replaced holds what it held. -/
theorem foldl_update_of_not_mem {values : List (Key × Option Value)} {k : Key}
    (hk : k ∉ values.map Prod.fst) (db : Db) :
    values.foldl (fun db v => Function.update db v.1 v.2) db k = db k := by
  induction values generalizing db with
  | nil => rfl
  | cons v values ih =>
    simp only [List.map_cons, List.mem_cons, not_or] at hk
    rw [List.foldl_cons, ih hk.2, Function.update_of_ne hk.1]

namespace Sys

variable [DecidableEq ι] {s t : Sys ι} {c : ι}

/-- What a call changes. -/
structure CallStep (s t : Sys ι) (c : ι) (op : Op) : Prop where
  db : t.db = s.db
  self : t.conn c = { s.conn c with
    inbox := (s.conn c).inbox ++ (op.start (s.conn c).state (s.calls c)).issued }
  other : ∀ d, d ≠ c → t.conn d = s.conn d
  calls : t.calls = Function.update s.calls c (s.calls c + 1)
  log : t.log = s.log ++
    (.called c (s.calls c) op :: eventsOf c (op.start (s.conn c).state (s.calls c)))

theorem call_step {op : Op} (h : step s (.call c op) = some t) : CallStep s t c op := by
  obtain rfl := Option.some.inj h
  refine ⟨rfl, ?_, fun d hd => ?_, rfl, ?_⟩
  · simp [react, setConn, record]
  · simp [react, setConn, record, hd]
  · simp [react, setConn, record, eventsOf]

/-- What the run of a callback changes. -/
structure DeliverStep (s t : Sys ι) (c : ι) (cb : Callback) (reply : Reply)
    (rest : List (Callback × Reply)) : Prop where
  outbox : (s.conn c).outbox = (cb, reply) :: rest
  db : t.db = s.db
  self : t.conn c = { s.conn c with
    inbox := (s.conn c).inbox ++ (cb.resume (s.conn c).state reply).issued, outbox := rest }
  other : ∀ d, d ≠ c → t.conn d = s.conn d
  calls : t.calls = s.calls
  log : t.log = s.log ++ eventsOf c (cb.resume (s.conn c).state reply)

theorem deliver_step (h : step s (.deliver c) = some t) :
    ∃ cb reply rest, DeliverStep s t c cb reply rest := by
  simp only [step] at h
  split at h
  · cases h
  · next cb reply rest hout =>
    obtain rfl := Option.some.inj h
    refine ⟨cb, reply, rest, hout, rfl, ?_, fun d hd => ?_, rfl, ?_⟩
    · simp [react, setConn]
    · simp [react, setConn, hd]
    · simp [react, setConn, eventsOf]

/-- What the server does with a command of a connection. -/
def outcome (s : Sys ι) (c : ι) (request : Request) (fault : Fault) : Outcome :=
  request.cmd.serve s.db (s.conn c).session fault

/-- The reply that waits for a callback, if the request has one. -/
def waiting (request : Request) (reply : Reply) : List (Callback × Reply) :=
  match request.callback with
  | some cb => [(cb, reply)]
  | none => []

/-- What the execution of a command changes. -/
structure ServeStep (s t : Sys ι) (c : ι) (request : Request) (rest : List Request) (fault : Fault) :
    Prop where
  inbox : (s.conn c).inbox = request :: rest
  online : (s.conn c).online = true
  db : t.db = (outcome s c request fault).db
  self : t.conn c = { s.conn c with
    inbox := rest
    outbox := (s.conn c).outbox ++ waiting request (outcome s c request fault).reply
    session := (outcome s c request fault).session }
  other : ∀ d, d ≠ c → t.conn d = { s.conn d with
    session := (s.conn d).session.touch (outcome s c request fault).touched }
  calls : t.calls = s.calls
  log : t.log = s.log ++
    [.executed c request (outcome s c request fault).reply (outcome s c request fault).touched]

theorem serve_step {fault : Fault} (h : step s (.serve c fault) = some t) :
    ∃ request rest, ServeStep s t c request rest fault := by
  simp only [step] at h
  split at h
  · cases h
  · next request rest hin =>
    split_ifs at h with hon
    obtain rfl := Option.some.inj h
    refine ⟨request, rest, hin, hon, rfl, ?_, fun d hd => ?_, rfl, rfl⟩
    · simp only [serve, record, touch, setConn, decide_true, if_true, Function.update_self]
      rfl
    · simp only [serve, record, touch, setConn, hd, decide_false, Bool.false_eq_true, if_false,
        ne_eq, not_false_iff, Function.update_of_ne]
      rfl

/-- What the loss of a connection changes. -/
structure LoseStep (s t : Sys ι) (c : ι) (kept : ℕ) : Prop where
  online : (s.conn c).online = true
  db : t.db = s.db
  self : t.conn c =
    { state := ((s.conn c).state.onEvent .ended).1
      online := false
      inbox := []
      outbox := (s.conn c).outbox.take kept ++
        ((s.conn c).outbox.drop kept).map (fun r => (r.1, .error)) ++ abandoned (s.conn c).inbox
      session := .clear }
  other : ∀ d, d ≠ c → t.conn d = s.conn d
  calls : t.calls = s.calls
  log : t.log = s.log ++ [.lost c]

theorem lose_step {kept : ℕ} (h : step s (.lose c kept) = some t) : LoseStep s t c kept := by
  simp only [step] at h
  split_ifs at h with hon
  obtain rfl := Option.some.inj h
  refine ⟨hon, rfl, ?_, fun d hd => ?_, rfl, rfl⟩
  · simp [record, setConn]
  · simp [record, setConn, hd]

/-- What a new connection changes. -/
structure RegainStep (s t : Sys ι) (c : ι) : Prop where
  offline : (s.conn c).online = false
  db : t.db = s.db
  self : t.conn c = { s.conn c with
    state := ((s.conn c).state.onEvent .connect).1, online := true }
  other : ∀ d, d ≠ c → t.conn d = s.conn d
  calls : t.calls = s.calls
  log : t.log = s.log ++ [.regained c]

theorem regain_step (h : step s (.regain c) = some t) : RegainStep s t c := by
  simp only [step] at h
  split_ifs at h with hon
  obtain rfl := Option.some.inj h
  refine ⟨by simpa using hon, rfl, ?_, fun d hd => ?_, rfl, rfl⟩
  · simp [record, setConn]
  · simp [record, setConn, hd]

/-- What a write by another program changes. -/
structure ForeignStep (s t : Sys ι) (values : List (Key × Option Value)) : Prop where
  db : ∀ k, k ∉ values.map Prod.fst → t.db k = s.db k
  conn : ∀ d, t.conn d = { s.conn d with
    session := (s.conn d).session.touch (values.map Prod.fst) }
  calls : t.calls = s.calls
  log : t.log = s.log ++ [.wrote (values.map Prod.fst)]

theorem foreign_step {values : List (Key × Option Value)}
    (h : step s (.foreign values) = some t) : ForeignStep s t values := by
  obtain rfl := Option.some.inj h
  exact ⟨fun k hk => foldl_update_of_not_mem hk s.db, fun d => rfl, rfl, rfl⟩

/-- A step that records the execution of a command executes it. -/
theorem serve_of_executed {l : Label ι} (h : step s l = some t) {request : Request} {reply : Reply}
    {touched : List Key} (hlog : t.log = s.log ++ [.executed c request reply touched]) :
    ∃ rest fault, l = .serve c fault ∧ ServeStep s t c request rest fault ∧
      (outcome s c request fault).reply = reply := by
  cases l with
  | call d op =>
    rw [(call_step h).log, List.append_cancel_left_eq] at hlog
    cases (List.cons.inj hlog).1
  | serve d fault =>
    obtain ⟨request', rest, hs⟩ := serve_step h
    have hlog' := hs.log
    rw [hlog, List.append_cancel_left_eq] at hlog'
    obtain ⟨rfl, rfl, rfl, rfl⟩ := Event.executed.inj (List.cons.inj hlog').1
    exact ⟨rest, fault, rfl, hs, rfl⟩
  | deliver d =>
    obtain ⟨cb, reply', rest, hs⟩ := deliver_step h
    rw [hs.log, List.append_cancel_left_eq] at hlog
    -- Code records no commands.
    have hmem : Event.executed c request reply touched ∈
        eventsOf d (cb.resume (s.conn d).state reply') := by rw [hlog]; simp
    simp [eventsOf] at hmem
  | lose d kept =>
    rw [(lose_step h).log, List.append_cancel_left_eq] at hlog
    cases (List.cons.inj hlog).1
  | regain d =>
    rw [(regain_step h).log, List.append_cancel_left_eq] at hlog
    cases (List.cons.inj hlog).1
  | foreign values =>
    rw [(foreign_step h).log, List.append_cancel_left_eq] at hlog
    cases (List.cons.inj hlog).1

/-- The keys that connections other than the one of the step see modified. -/
def modified (s : Sys ι) : Label ι → List Key
  | .serve c fault =>
    match (s.conn c).inbox with
    | request :: _ => (outcome s c request fault).touched
    | [] => []
  | .foreign values => values.map Prod.fst
  | _ => []

omit [DecidableEq ι] in
/-- The outcome of a command changes nothing but the keys that others see modified. -/
theorem outcome_db_of_not_touched {request : Request} {fault : Fault} {k : Key}
    (hk : k ∉ (outcome s c request fault).touched) : (outcome s c request fault).db k = s.db k :=
  Command.serve_db_of_not_touched request.cmd s.db _ fault hk

/-- A step changes nothing in the database but the modified keys. -/
theorem step_db {l : Label ι} (h : step s l = some t) {k : Key} (hk : k ∉ modified s l) :
    t.db k = s.db k := by
  cases l with
  | call c op => rw [(call_step h).db]
  | serve c fault =>
    obtain ⟨request, rest, hs⟩ := serve_step h
    rw [modified, hs.inbox] at hk
    rw [hs.db, outcome_db_of_not_touched hk]
  | deliver c =>
    obtain ⟨cb, reply, rest, hs⟩ := deliver_step h
    rw [hs.db]
  | lose c kept => rw [(lose_step h).db]
  | regain c => rw [(regain_step h).db]
  | foreign values => exact (foreign_step h).db k hk

/-- A step of another connection, or of another program, changes nothing of a connection but the
flag of its session, which is set by a modification of a watched key. -/
theorem step_other {l : Label ι} (h : step s l = some t) {d : ι} (hd : l.conn? ≠ some d) :
    t.conn d = { s.conn d with session := (s.conn d).session.touch (modified s l) } := by
  -- Only `EXEC` and writes by other programs modify keys; any other step leaves the session too.
  have hne : ∀ c, l.conn? = some c → d ≠ c := fun c hc e => hd (by rw [hc, e])
  cases l with
  | call c op => rw [(call_step h).other d (hne c rfl)]; rfl
  | serve c fault =>
    obtain ⟨request, rest, hs⟩ := serve_step h
    rw [hs.other d (hne c rfl), modified, hs.inbox]
  | deliver c =>
    obtain ⟨cb, reply, rest, hs⟩ := deliver_step h
    rw [hs.other d (hne c rfl)]
    rfl
  | lose c kept => rw [(lose_step h).other d (hne c rfl)]; rfl
  | regain c => rw [(regain_step h).other d (hne c rfl)]; rfl
  | foreign values => exact (foreign_step h).conn d

/-- What a step is to a connection: a step of its own, or one that changes nothing of it but the flag of
its session. -/
inductive ConnStep (s t : Sys ι) (c : ι) : Label ι → Prop where
  | call (op : Op) (h : CallStep s t c op) : ConnStep s t c (.call c op)
  | serve (request : Request) (rest : List Request) (fault : Fault)
    (h : ServeStep s t c request rest fault) : ConnStep s t c (.serve c fault)
  | deliver (cb : Callback) (reply : Reply) (rest : List (Callback × Reply))
    (h : DeliverStep s t c cb reply rest) : ConnStep s t c (.deliver c)
  | lose (kept : ℕ) (h : LoseStep s t c kept) : ConnStep s t c (.lose c kept)
  | regain (h : RegainStep s t c) : ConnStep s t c (.regain c)
  | other (l : Label ι) (hl : l.conn? ≠ some c)
    (h : t.conn c = { s.conn c with session := (s.conn c).session.touch (modified s l) }) :
    ConnStep s t c l

/-- Every step is one of these to every connection. -/
theorem step_conn (h : step s l = some t) (c : ι) : ConnStep s t c l := by
  by_cases hc : l.conn? = some c
  · cases l with
    | call d op =>
      obtain rfl : d = c := Option.some.inj hc
      exact .call op (call_step h)
    | serve d fault =>
      obtain rfl : d = c := Option.some.inj hc
      obtain ⟨request, rest, hs⟩ := serve_step h
      exact .serve request rest fault hs
    | deliver d =>
      obtain rfl : d = c := Option.some.inj hc
      obtain ⟨cb, reply, rest, hs⟩ := deliver_step h
      exact .deliver cb reply rest hs
    | lose d kept =>
      obtain rfl : d = c := Option.some.inj hc
      exact .lose kept (lose_step h)
    | regain d =>
      obtain rfl : d = c := Option.some.inj hc
      exact .regain (regain_step h)
    | foreign values => cases hc
  · exact .other l hc (step_other h hc)

/-- A step records events of its own connection alone. -/
theorem step_log_conn (h : step s l = some t) :
    ∃ es, t.log = s.log ++ es ∧ ∀ e ∈ es, e.conn? = l.conn? := by
  have hcode : ∀ (c : ι) (code : Code Unit), ∀ e ∈ eventsOf c code, e.conn? = some c := by
    intro c code e he
    rcases List.mem_append.mp he with he | he
    · obtain ⟨a, -, rfl⟩ := List.mem_map.1 he
      rfl
    · obtain ⟨x, -, rfl⟩ := List.mem_map.1 he
      rfl
  cases l with
  | call c op =>
    refine ⟨_, (call_step h).log, fun e he => ?_⟩
    rcases List.mem_cons.mp he with rfl | he
    · rfl
    · exact hcode c _ e he
  | serve c fault =>
    obtain ⟨_, _, hs⟩ := serve_step h
    exact ⟨_, hs.log, by simp [Event.conn?, Label.conn?]⟩
  | deliver c =>
    obtain ⟨_, _, _, hs⟩ := deliver_step h
    exact ⟨_, hs.log, hcode c _⟩
  | lose c kept => exact ⟨_, (lose_step h).log, by simp [Event.conn?, Label.conn?]⟩
  | regain c => exact ⟨_, (regain_step h).log, by simp [Event.conn?, Label.conn?]⟩
  | foreign values => exact ⟨_, (foreign_step h).log, by simp [Event.conn?, Label.conn?]⟩

/-- Calls are counted upwards. -/
theorem calls_le_of_step {l : Label ι} (h : step s l = some t) (c : ι) : s.calls c ≤ t.calls c := by
  cases l with
  | call d op =>
    rw [(call_step h).calls, Function.update_apply]
    split_ifs with hd
    · rw [hd]
      exact Nat.le_succ _
    · exact le_rfl
  | serve d fault => obtain ⟨_, _, hs⟩ := serve_step h; rw [hs.calls]
  | deliver d => obtain ⟨_, _, _, hs⟩ := deliver_step h; rw [hs.calls]
  | lose d kept => rw [(lose_step h).calls]
  | regain d => rw [(regain_step h).calls]
  | foreign values => rw [(foreign_step h).calls]

/-- No step changes the prefix of a connection's stores. -/
theorem step_itemsPrefix {l : Label ι} (h : step s l = some t) (d : ι) :
    (t.conn d).state.itemsPrefix = (s.conn d).state.itemsPrefix := by
  cases step_conn h d with
  | call op hs => rw [hs.self]
  | serve request rest fault hs => rw [hs.self]
  | deliver cb reply rest hs => rw [hs.self]
  | lose kept hs => rw [hs.self, StoreState.onEvent_itemsPrefix]
  | regain hs => rw [hs.self, StoreState.onEvent_itemsPrefix]
  | other l hd hs => rw [hs]

/-- Only a lost connection becomes down. -/
theorem up_of_step {l : Label ι} (h : step s l = some t) {c : ι} (hl : Faultless c l)
    (hs : (s.conn c).state.down = false) : (t.conn c).state.down = false := by
  cases step_conn h c with
  | call op hstep =>
    rw [hstep.self]
    exact hs
  | serve request rest fault hstep =>
    rw [hstep.self]
    exact hs
  | deliver cb reply rest hstep =>
    rw [hstep.self]
    exact hs
  | lose kept hstep => exact absurd rfl hl
  | regain hstep =>
    rw [hstep.self]
    simp [StoreState.onEvent, StoreState.down]
  | other l hc hstep =>
    rw [hstep]
    exact hs

/-- The prefix of a connection's stores is the same throughout a run. -/
theorem run_itemsPrefix {ls : List (Label ι)} (h : run s ls = some t) (d : ι) :
    (t.conn d).state.itemsPrefix = (s.conn d).state.itemsPrefix :=
  Transition.run_invariant'
    (P := fun u => (u.conn d).state.itemsPrefix = (s.conn d).state.itemsPrefix)
    (fun _ _ _ hu hstep => (step_itemsPrefix hstep d).trans hu) rfl h

end Sys

end RedisStore
