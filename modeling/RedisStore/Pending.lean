import RedisStore.Calls

/-!
# Writes under way

The requests and replies of a connection that belong to its writes, apart from those of reads by
other calls, which may be anywhere in between. A write is under way when it only waits to be
executed: the version check of its upsert has passed, and its transaction is in the inbox, or the
reply to its read in the outbox. The writes under way are executed in this order, which is that of
the reads (`Conn.pending`).
-/

namespace RedisStore

open Redis

/-- A request of a write: a watch, or a request with a write's callback. -/
def Request.writes (r : Request) : Bool :=
  match r.callback with
  | some cb => cb.op.writes
  | none => true

/-- A reply that a write waits for. -/
def replyWrites (p : Callback × Reply) : Bool := p.1.op.writes

/-- The request of a read executes without an effect. -/
theorem Issued.execute_of_not_writes {state : StoreState} {r : Request} (hr : Issued state r)
    (h : r.writes = false) (db : Db) (session : Session) :
    (r.cmd.execute db session).db = db ∧ (r.cmd.execute db session).session = session := by
  cases hr with
  | watch kind => cases h
  | upsertRead kind item call => cases h
  | upsertWrite kind item call => cases h
  | init allData call multi hb => cases h
  | _ => exact ⟨rfl, rfl⟩

/-- The reply to a read is no reply of a write, and conversely. -/
theorem filter_waiting (request : Request) (reply : Reply) :
    (Sys.waiting request reply).filter replyWrites =
      if request.writes then Sys.waiting request reply else [] := by
  unfold Sys.waiting Request.writes
  cases request.callback with
  | none => rfl
  | some cb => cases hcb : cb.op.writes <;> simp [replyWrites, hcb]

/-- What a read issues, at its call, belongs to no write. -/
theorem filter_start {op : Op} (h : op.writes = false) (state : StoreState) (call : CallId) :
    (op.start state call).issued.filter Request.writes = [] := by
  cases op with
  | initInternal allData => cases h
  | upsertInternal kind item => cases h
  | getInternal kind key =>
    rw [Op.start]
    cases hd : state.down with
    | false => rw [(getInternal_does_of_up hd kind key call).issued]; rfl
    | true => rw [(getInternal_does_of_down hd kind key call).issued]; rfl
  | getAllInternal kind =>
    rw [Op.start]
    cases hd : state.down with
    | false => rw [(getAllInternal_does_of_up hd kind call).issued]; rfl
    | true => rw [(getAllInternal_does_of_down hd kind call).issued]; rfl
  | initializedInternal => rfl
  | getMetadata => rfl
  | getUserMembership userHash => rfl

/-- What a read issues, in a callback, belongs to no write. -/
theorem filter_resume {cb : Callback} (hcb : Awaited cb) (h : cb.op.writes = false)
    (state : StoreState) (reply : Reply) :
    (cb.resume state reply).issued.filter Request.writes = [] := by
  cases hcb with
  | upsertRead kind item call => cases h
  | upsertWrite kind item call => cases h
  | init allData call => cases h
  | getRead kind key call =>
    have hdoes := onHget_getInternal_does state kind key call reply
    rw [Callback.resume]
    split at hdoes <;> (rw [hdoes.issued]; rfl)
  | getAll kind call =>
    have hdoes := onHgetall_does kind call reply
    rw [Callback.resume]
    split at hdoes <;> (rw [hdoes.issued]; rfl)
  | inited call => rw [Callback.resume, (onInitedExists_does call reply).issued]; rfl
  | metadata call => cases reply <;> rfl
  | includes userHash call =>
    rw [Callback.resume, onIncludedRefs]
    split_ifs <;> rfl
  | excludes userHash refs call =>
    rw [Callback.resume, onExcludedRefs]
    split_ifs <;> rfl

/-- What a write issues belongs to a write. -/
theorem filter_issued {code : Code Unit} {call : CallId} {op : Op} (h : WorksFor code call op)
    (hop : op.writes = true) : code.issued.filter Request.writes = code.issued := by
  rw [List.filter_eq_self]
  intro r hr
  unfold Request.writes
  cases hcb : r.callback with
  | none => rfl
  | some cb =>
    dsimp only
    rw [(h.issued r hr cb hcb).2, hop]

/-! ## Upserts that have passed their check -/

/-- The upsert whose transaction a request is. -/
def writeOf (r : Request) : Option (Kind × Item) :=
  match r.callback with
  | some (.upsertExec kind item _) => some (kind, item)
  | _ => none

/-- The upsert that a reply lets go on to write. -/
def acceptedOf (p : Callback × Reply) : Option (Kind × Item) :=
  match p.1 with
  | .hget _ _ (.update kind item _ _) =>
    match replyVerdict p.2 item with
    | .write => some (kind, item)
    | _ => none
  | _ => none

/-- The writes that are under way, in the order of their execution. -/
def Conn.pending (conn : Conn) : List (Kind × Item) :=
  conn.inbox.filterMap writeOf ++ conn.outbox.filterMap acceptedOf

/-- A request of a read is no write. -/
theorem filterMap_writeOf {requests : List Request}
    (h : requests.filter Request.writes = []) : requests.filterMap writeOf = [] := by
  rw [List.filter_eq_nil_iff] at h
  rw [List.filterMap_eq_nil_iff]
  intro r hr
  have hw := h r hr
  unfold writeOf
  split
  · next hcb => exact absurd (by simp [Request.writes, hcb, Callback.op, Op.writes]) hw
  · rfl

/-- An upsert at its start is under way to read, and to write only where the read is skipped. -/
theorem filterMap_writeOf_upsert (state : StoreState) (kind : Kind) (item : Item) (call : CallId) :
    (upsertInternal state kind item call).issued.filterMap writeOf =
      if state.down then [(kind, item)] else [] := by
  cases h : state.down with
  | false =>
    rw [(upsertInternal_does_of_up h kind item call).issued]
    rfl
  | true =>
    rw [(upsertInternal_does_of_down h kind item call).issued]
    rfl

/-- The upsert that a call starts with its write, as it skips the read. -/
def Op.skips (state : StoreState) : Op → Option (Kind × Item)
  | .upsertInternal kind item => if state.down then some (kind, item) else none
  | _ => none

/-- A call issues no write but that of an upsert that skips its read. -/
theorem filterMap_writeOf_start (state : StoreState) (call : CallId) (op : Op) :
    (op.start state call).issued.filterMap writeOf = (op.skips state).toList := by
  cases op with
  | initInternal allData =>
    rw [Op.start]
    cases hb : buildInit state allData with
    | ok multi => rw [(initInternal_does_of_ok hb call).issued]; rfl
    | error x => rw [(initInternal_does_of_error hb call).issued]; rfl
  | upsertInternal kind item =>
    rw [Op.start, filterMap_writeOf_upsert, Op.skips]
    split_ifs <;> rfl
  | _ => exact filterMap_writeOf (filter_start rfl state call)

/-- The callback of an upsert's read issues the write that its reply let go on. -/
theorem filterMap_writeOf_update (state : StoreState) (kind : Kind) (item : Item) (call : CallId)
    (reply : Reply) :
    ((Callback.hget kind item.key (.update kind item [] call)).resume state reply).issued.filterMap
        writeOf =
      (acceptedOf (.hget kind item.key (.update kind item [] call), reply)).toList := by
  have hdoes := onHget_update_does state kind item.key item call reply
  rw [Callback.resume]
  unfold acceptedOf
  dsimp only
  split at hdoes
  · next hv => rw [hdoes.issued, hv]; rfl
  · next hv => rw [hdoes.issued, hv]; rfl
  · next hv => rw [hdoes.issued, hv]; rfl

/-- The upsert that is started again by the reply to its aborted transaction, and skips the read. -/
def skipsAgain (state : StoreState) : Callback × Reply → Option (Kind × Item)
  | (.upsertExec kind item _, .nil) => if state.down then some (kind, item) else none
  | _ => none

/-- A callback issues the write that its reply lets go on, or that of an upsert that it starts again
without a read. -/
theorem filterMap_writeOf_resume {cb : Callback} (hcb : Awaited cb) (state : StoreState)
    (reply : Reply) :
    (cb.resume state reply).issued.filterMap writeOf =
      (acceptedOf (cb, reply)).toList ++ (skipsAgain state (cb, reply)).toList := by
  cases hcb with
  | upsertRead kind item call =>
    rw [filterMap_writeOf_update]
    exact (List.append_nil _).symm
  | upsertWrite kind item call =>
    rw [Callback.resume]
    by_cases hnil : reply = .nil
    · subst hnil
      rw [(onUpsertExec_does_of_nil ⟨rfl, rfl, rfl⟩).issued, filterMap_writeOf_upsert, skipsAgain]
      split_ifs <;> rfl
    · rw [(onUpsertExec_does hnil state kind item call).issued]
      cases reply <;> first | rfl | exact absurd rfl hnil
  | init allData call =>
    rw [Callback.resume, (onInitExec_does call reply).issued]
    rfl
  | getRead kind key call => exact filterMap_writeOf (filter_resume (.getRead kind key call) rfl _ _)
  | getAll kind call => exact filterMap_writeOf (filter_resume (.getAll kind call) rfl _ _)
  | inited call => exact filterMap_writeOf (filter_resume (.inited call) rfl _ _)
  | metadata call => exact filterMap_writeOf (filter_resume (.metadata call) rfl _ _)
  | includes userHash call => exact filterMap_writeOf (filter_resume (.includes userHash call) rfl _ _)
  | excludes userHash refs call =>
    exact filterMap_writeOf (filter_resume (.excludes userHash refs call) rfl _ _)

end RedisStore
