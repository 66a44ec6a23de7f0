import RedisStore.Pending
import RedisStore.Version

/-!
# The phases of a write

Where a connection that writes one item or data set at a time is in its current write, and what is
known there (`Phase`). An upsert watches the key, reads the item, checks the version, and commits;
from the read on, its key is watched, and as long as the flag is clear the check still holds of what
the key holds now. The phase is read off the queues without the requests and replies of reads by
other calls. In runs without errors and lost connections, every step keeps every connection in a
phase (`phase_step`).
-/

namespace RedisStore

open Redis

/-- The progress of the write of a connection, by its requests that the server has not executed and
its replies that wait. -/
inductive Phase (state : StoreState) (db : Db) (session : Session) :
    List Request → List (Callback × Reply) → Prop where
  | idle : Phase state db session [] []
  | watch (kind : Kind) (item : Item) (call : CallId) :
    Phase state db session
      [⟨.watch (itemsKey state kind), none⟩, readRequest state kind item call] []
  | read (kind : Kind) (item : Item) (call : CallId)
    (hwatched : itemsKey state kind ∈ session.watched) :
    Phase state db session [readRequest state kind item call] []
  | check (kind : Kind) (item : Item) (call : CallId) (reply : Reply)
    (hwatched : itemsKey state kind ∈ session.watched)
    (hread : session.dirty = false → replyVerdict reply item = .write →
      Admits (db (itemsKey state kind)) item) :
    Phase state db session [] [(.hget kind item.key (.update kind item [] call), reply)]
  | commit (kind : Kind) (item : Item) (call : CallId)
    (hwatched : itemsKey state kind ∈ session.watched)
    (hadmits : session.dirty = false → Admits (db (itemsKey state kind)) item) :
    Phase state db session [writeRequest state kind item call] []
  | committed (kind : Kind) (item : Item) (call : CallId) (reply : Reply) :
    Phase state db session [] [(.upsertExec kind item call, reply)]
  | init (allData : AllData) (call : CallId) (multi : Multi) :
    Phase state db session [⟨.exec multi, some (.initExec allData call)⟩] []
  | inited (allData : AllData) (call : CallId) (reply : Reply) :
    Phase state db session [] [(.initExec allData call, reply)]

namespace Phase

variable {state : StoreState} {db : Db} {session : Session} {i : List Request}
  {o : List (Callback × Reply)}

/-- What is known of a watched key while the flag is clear is kept by modifications of keys: either
they spare the key, or they set the flag. -/
theorem current_touch {P : Option Value → Prop} {key : Key} (hwatched : key ∈ session.watched)
    (hP : session.dirty = false → P (db key)) {keys : List Key} {db' : Db}
    (hdb : ∀ k, k ∉ keys → db' k = db k) :
    (session.touch keys).dirty = false → P (db' key) := by
  intro hdirty
  obtain ⟨hclean, hkeys⟩ := Session.touch_dirty_eq_false hdirty
  rw [hdb key fun hk => hkeys key hk hwatched]
  exact hP hclean

/-- A step of another connection. -/
theorem touch (h : Phase state db session i o) {keys : List Key} {db' : Db}
    (hdb : ∀ k, k ∉ keys → db' k = db k) : Phase state db' (session.touch keys) i o := by
  -- A modification sets the flag at most; the watches stay.
  have hw : ∀ {key : Key}, key ∈ session.watched → key ∈ (session.touch keys).watched :=
    fun h => by rwa [Session.touch_watched]
  cases h with
  | idle => exact .idle
  | watch kind item call => exact .watch kind item call
  | read kind item call hwatched => exact .read kind item call (hw hwatched)
  | check kind item call reply hwatched hread =>
    refine .check kind item call reply (hw hwatched) ?_
    exact current_touch (P := fun v => replyVerdict reply item = .write → Admits v item) hwatched
      hread hdb
  | commit kind item call hwatched hadmits =>
    exact .commit kind item call (hw hwatched)
      (current_touch (P := fun v => Admits v item) hwatched hadmits hdb)
  | committed kind item call reply => exact .committed kind item call reply
  | init allData call multi => exact .init allData call multi
  | inited allData call reply => exact .inited allData call reply

/-- The first attempt of an upsert, or a retry. -/
theorem upsert (hup : state.down = false) (kind : Kind) (item : Item) (call : CallId) :
    Phase state db session (upsertInternal state kind item call).issued [] := by
  rw [(upsertInternal_does_of_up hup kind item call).issued]
  exact .watch kind item call

/-- The server executes the next request of the write. -/
theorem serve {request : Request} (h : Phase state db session (request :: i) o) {out : Outcome}
    (hout : out = request.cmd.execute db session) :
    Phase state out.db out.session i (o ++ Sys.waiting request out.reply) := by
  cases h with
  | watch kind item call =>
    subst hout
    exact .read kind item call List.mem_cons_self
  | read kind item call hwatched =>
    subst hout
    exact .check kind item call _ hwatched fun _ hverdict => admits_of_write hverdict
  | commit kind item call hwatched hadmits => exact .committed kind item call _
  | init allData call multi => exact .inited allData call _

/-- The callback of the write's reply runs. -/
theorem deliver (hup : state.down = false) {cb : Callback} {reply : Reply}
    (h : Phase state db session i ((cb, reply) :: o)) :
    Phase state db session (i ++ (cb.resume state reply).issued) o := by
  cases h with
  | check kind item call _ hwatched hread =>
    have hdoes := onHget_update_does state kind item.key item call reply
    rw [Callback.resume]
    split at hdoes
    · next hverdict =>
      rw [hdoes.issued]
      exact .commit kind item call hwatched fun hclean => hread hclean hverdict
    · rw [hdoes.issued]
      exact .idle
    · rw [hdoes.issued]
      exact .idle
  | committed kind item call _ =>
    rw [Callback.resume]
    by_cases hnil : reply = .nil
    · subst hnil
      rw [(onUpsertExec_does_of_nil ⟨rfl, rfl, rfl⟩).issued]
      exact Phase.upsert hup kind item call
    · rw [(onUpsertExec_does hnil state kind item call).issued]
      exact .idle
  | inited allData call _ =>
    rw [Callback.resume, (onInitExec_does call reply).issued]
    exact .idle

/-- A connection is made. -/
theorem regain (h : Phase state db session i o) :
    Phase (state.onEvent .connect).1 db session i o := by
  cases h with
  | idle => exact .idle
  | watch kind item call => exact .watch kind item call
  | read kind item call hwatched => exact .read kind item call hwatched
  | check kind item call reply hwatched hread => exact .check kind item call reply hwatched hread
  | commit kind item call hwatched hadmits => exact .commit kind item call hwatched hadmits
  | committed kind item call reply => exact .committed kind item call reply
  | init allData call multi => exact .init allData call multi
  | inited allData call reply => exact .inited allData call reply

/-- An upsert that commits with the flag clear finds no item of its version or a higher one. -/
theorem admits {kind : Kind} {item : Item} {call : CallId}
    (h : Phase state db session (writeRequest state kind item call :: i) o)
    (hclean : session.dirty = false) : Admits (db (itemsKey state kind)) item := by
  -- Of the phases with a transaction in the inbox, the callback tells which one it is.
  generalize hr : writeRequest state kind item call = r at h
  have hcb := congrArg Request.callback hr
  cases h with
  | commit kind' item' call' _ hadmits =>
    obtain ⟨rfl, rfl, rfl⟩ : kind = kind' ∧ item = item' ∧ call = call' := by
      simpa [writeRequest] using hcb
    exact hadmits hclean
  | _ => cases hcb

end Phase

/-- The connection is in a phase of its write. -/
def Conn.InPhase (db : Db) (conn : Conn) : Prop :=
  Phase conn.state db conn.session (conn.inbox.filter Request.writes)
    (conn.outbox.filter replyWrites)

/-- A connection that is not writing is idle. -/
theorem Conn.InPhase.idle_of_not_writing {db : Db} {conn : Conn} (h : conn.InPhase db)
    (hw : conn.writing = false) :
    conn.inbox.filter Request.writes = [] ∧ conn.outbox.filter replyWrites = [] := by
  have hnone : ∀ cb ∈ conn.callbacks, cb.op.writes = false := by
    simpa [Conn.writing] using hw
  have hout : conn.outbox.filter replyWrites = [] := by
    rw [List.filter_eq_nil_iff]
    intro p hp
    rw [replyWrites, hnone p.1 (Conn.mem_callbacks.2 (.inl ⟨p.2, hp⟩))]
    exact Bool.false_ne_true
  have hin : ∀ r ∈ conn.inbox.filter Request.writes, r.callback = none := by
    intro r hr
    obtain ⟨hr, hwrites⟩ := List.mem_filter.1 hr
    cases hcb : r.callback with
    | none => rfl
    | some cb =>
      have hcbw := hnone cb (Conn.mem_callbacks.2 (.inr ⟨r, hr, hcb⟩))
      simp [Request.writes, hcb, hcbw] at hwrites
  refine ⟨?_, hout⟩
  unfold InPhase at h
  generalize conn.inbox.filter Request.writes = i at h hin
  generalize conn.outbox.filter replyWrites = o at h
  -- Every phase but the idle one has a callback.
  cases h with
  | idle => rfl
  | watch kind item call => cases hin (readRequest conn.state kind item call) (by simp)
  | read kind item call _ => cases hin (readRequest conn.state kind item call) (by simp)
  | commit kind item call _ _ => cases hin (writeRequest conn.state kind item call) (by simp)
  | init allData call multi => cases hin _ (List.mem_singleton_self _)
  | _ => rfl


/-! ## The phases of a run -/

namespace Sys

variable {ι : Type} [DecidableEq ι] {s t : Sys ι} {l : Label ι}

/-- A call leaves the phase of its connection, or starts the phases of its write. -/
theorem inPhase_of_call {d : ι} {op : Op} (hd : (s.conn d).InPhase s.db)
    (hup : (s.conn d).state.down = false) (hone : op.writes = true → (s.conn d).writing = false)
    (hstep : CallStep s t d op) : (t.conn d).InPhase t.db := by
  have hidle := hd.idle_of_not_writing
  rw [hstep.db, hstep.self]
  unfold Conn.InPhase at hd ⊢
  dsimp only
  rw [List.filter_append]
  cases hw : op.writes with
  | false =>
    rw [filter_start hw, List.append_nil]
    exact hd
  | true =>
    -- A write is called only when the connection is idle.
    obtain ⟨hin, hout⟩ := hidle (hone hw)
    rw [hin, hout, List.nil_append, filter_issued (start_worksFor _ _ op) hw]
    cases op with
    | initInternal allData =>
      rw [Op.start]
      cases hb : buildInit (s.conn d).state allData with
      | ok multi =>
        rw [(initInternal_does_of_ok hb _).issued]
        exact .init allData _ multi
      | error x =>
        rw [(initInternal_does_of_error hb _).issued]
        exact .idle
    | upsertInternal kind item => exact Phase.upsert hup kind item _
    | _ => cases hw

omit [DecidableEq ι] in
/-- A command brings its connection into the next phase, if it is one of the write. -/
theorem inPhase_of_serve {d : ι} {request : Request} {rest : List Request}
    (hd : (s.conn d).InPhase s.db) (hq : (s.conn d).Queued)
    (hstep : ServeStep s t d request rest .none) : (t.conn d).InPhase t.db := by
  rw [hstep.db, hstep.self]
  unfold Conn.InPhase at hd ⊢
  dsimp only
  rw [hstep.inbox] at hd
  rw [List.filter_append, filter_waiting]
  cases hw : request.writes with
  | false =>
    -- A read by another call is executed without an effect on what the write knows.
    rw [List.filter_cons_of_neg (by simp [hw])] at hd
    have hissued := hq.inbox request (by rw [hstep.inbox]; simp)
    obtain ⟨hdb, hsession⟩ := hissued.execute_of_not_writes hw s.db (s.conn d).session
    have hout : outcome s d request .none = request.cmd.execute s.db (s.conn d).session := rfl
    rw [hout, hdb, hsession]
    simpa using hd
  | true =>
    rw [List.filter_cons_of_pos hw] at hd
    exact hd.serve rfl

omit [DecidableEq ι] in
/-- So does a callback. -/
theorem inPhase_of_deliver {d : ι} {cb : Callback} {reply : Reply}
    {rest : List (Callback × Reply)} (hd : (s.conn d).InPhase s.db) (hq : (s.conn d).Queued)
    (hup : (s.conn d).state.down = false) (hstep : DeliverStep s t d cb reply rest) :
    (t.conn d).InPhase t.db := by
  rw [hstep.db, hstep.self]
  unfold Conn.InPhase at hd ⊢
  dsimp only
  have hcb : Awaited cb := hq.outbox (cb, reply) (by rw [hstep.outbox]; simp)
  rw [hstep.outbox] at hd
  rw [List.filter_append]
  cases hw : cb.op.writes with
  | false =>
    rw [List.filter_cons_of_neg (by simp [replyWrites, hw])] at hd
    rw [filter_resume hcb hw, List.append_nil]
    exact hd
  | true =>
    rw [List.filter_cons_of_pos (by exact hw)] at hd
    rw [filter_issued (resume_worksFor hcb reply) hw]
    exact hd.deliver hup

/-- A step without an error and without a lost connection keeps every connection in a phase. -/
theorem phase_step (hq : ∀ c, (s.conn c).Queued) (hs : ∀ c, (s.conn c).InPhase s.db)
    (hup : ∀ c, (s.conn c).state.down = false) (hone : OneWriteAtATime s l) (hl : Undisturbed l)
    (h : step s l = some t) (d : ι) : (t.conn d).InPhase t.db := by
  have hd := hs d
  cases step_conn h d with
  | call op hstep => exact inPhase_of_call hd (hup d) hone hstep
  | serve request rest fault hstep =>
    obtain rfl : fault = .none := hl
    exact inPhase_of_serve hd (hq d) hstep
  | deliver cb reply rest hstep => exact inPhase_of_deliver hd (hq d) (hup d) hstep
  | lose kept hstep => exact absurd hl id
  | regain hstep =>
    rw [hstep.db, hstep.self]
    exact hd.regain
  | other l hld hstep =>
    rw [hstep]
    exact Phase.touch hd fun k hk => step_db h hk

omit [DecidableEq ι] in
/-- Before any call every connection is idle. -/
theorem Fresh.inPhase (h : Fresh s) (c : ι) : (s.conn c).InPhase s.db := by
  unfold Conn.InPhase
  rw [h.inbox c, h.outbox c]
  exact .idle

omit [DecidableEq ι] in
/-- An upsert's transaction that is executed with the flag clear finds no item of its version or a
higher one. -/
theorem admits_of_inPhase {c : ι} (hs : (s.conn c).InPhase s.db) {kind : Kind} {item : Item}
    {call : CallId} {rest : List Request}
    (hin : (s.conn c).inbox = writeRequest (s.conn c).state kind item call :: rest)
    (hclean : (s.conn c).session.dirty = false) :
    Admits (s.db (itemsKey (s.conn c).state kind)) item := by
  unfold Conn.InPhase at hs
  rw [hin, List.filter_cons_of_pos rfl] at hs
  exact hs.admits hclean

end Sys

end RedisStore
