import RedisStore.Commit
import RedisStore.Pending
import RedisStore.Version

/-!
# Failed reads of a single connection

Errors and lost connections, with calls that overlap in any way. Nothing else writes, so that a
version check is right when it is made, and two things can make it wrong or leave it out. A failed
read counts as an absent item, so that the upsert goes on to write without a check, and it replaces
newer items (`failed_read_replaces_newer`). And the transaction of another call may be executed
between the check and the write. If neither happens where it matters, no upsert replaces an item of
its version or a higher one (`single_upsert_version_safe`).
-/

namespace RedisStore

open Redis

variable {ι : Type}

/-- The connection and the upsert whose read fails at a step, if one does: its attempt starts, or
starts again, while the connection is down, or the reply to its read is an error. -/
def readFails (s : Sys ι) : Label ι → Option (ι × Kind × Item)
  | .call c (.upsertInternal kind item) =>
    if (s.conn c).state.down then some (c, kind, item) else none
  | .deliver c =>
    match (s.conn c).outbox with
    | (.upsertExec kind item _, .nil) :: _ =>
      if (s.conn c).state.down then some (c, kind, item) else none
    | (.hget _ _ (.update kind item _ _), .error) :: _ => some (c, kind, item)
    | _ => none
  | _ => none

/-- Where a read of an upsert fails, no item of its version or a higher one is stored. -/
def FailedReadsHarmless (s : Sys ι) (l : Label ι) : Prop :=
  ∀ r ∈ readFails s l, Admits (s.db (itemsKey (s.conn r.1).state r.2.1)) r.2.2

/-- The writes under way, without those of upserts whose read has failed and which do not know yet. -/
def Conn.checked (conn : Conn) : List (Kind × Item) :=
  conn.inbox.filterMap writeOf ++ (conn.outbox.filter fun p => p.2 ≠ .error).filterMap acceptedOf

/-- The transaction that is the next command of a connection, with the writes under way behind it. -/
def Conn.nextTransaction (conn : Conn) : Option (Multi × List (Kind × Item)) :=
  match conn.inbox with
  | ⟨.exec multi, _⟩ :: rest => some (multi, { conn with inbox := rest }.checked)
  | _ => none

/-- The server executes no transaction that stores a version under the key of a write under way
behind it, unless that write is of a higher version. -/
def NoneOvertaken (s : Sys ι) : Label ι → Prop
  | .serve c fault => fault ≠ .error → ∀ next ∈ (s.conn c).nextTransaction, ∀ p ∈ next.2,
      ∀ w ∈ next.1, w ∉ fault.refused →
        ∀ v ∈ w.versionAt (itemsKey (s.conn c).state p.1) p.2.key, v < p.2.version
  | _ => True

instance (s : Sys ι) (l : Label ι) : Decidable (FailedReadsHarmless s l) :=
  inferInstanceAs (Decidable (∀ r ∈ readFails s l, _))

instance (s : Sys ι) : ∀ l, Decidable (NoneOvertaken s l)
  | .serve c fault => inferInstanceAs (Decidable (fault ≠ .error →
      ∀ next ∈ (s.conn c).nextTransaction, ∀ p ∈ next.2, ∀ w ∈ next.1, w ∉ fault.refused →
        ∀ v ∈ w.versionAt (itemsKey (s.conn c).state p.1) p.2.key, v < p.2.version))
  | .call _ _ => .isTrue trivial
  | .deliver _ => .isTrue trivial
  | .lose _ _ => .isTrue trivial
  | .regain _ => .isTrue trivial
  | .foreign _ => .isTrue trivial

/-- A write under way is in the inbox, or its read's reply is in the outbox. -/
theorem Conn.mem_checked {conn : Conn} {p : Kind × Item} :
    p ∈ conn.checked ↔ (∃ r ∈ conn.inbox, writeOf r = some p) ∨
      ∃ q ∈ conn.outbox, q.2 ≠ .error ∧ acceptedOf q = some p := by
  simp only [checked, List.mem_append, List.mem_filterMap, List.mem_filter, decide_eq_true_eq,
    and_assoc]

/-- A reply that lets an upsert go on to write belongs to its read. -/
theorem acceptedOf_eq_some {kind : Kind} {key : String} {cb : GetCallback} {reply : Reply}
    {p : Kind × Item} (h : acceptedOf (.hget kind key cb, reply) = some p) :
    (∃ multi call, cb = .update p.1 p.2 multi call) ∧ replyVerdict reply p.2 = .write := by
  cases cb with
  | getInternal call => cases h
  | update kind' item multi call =>
    unfold acceptedOf at h
    dsimp only at h
    split at h
    · next hverdict =>
      obtain rfl := Option.some.inj h
      exact ⟨⟨multi, call, rfl⟩, hverdict⟩
    · cases h

/-- The server's reply to the read of an upsert lets it go on only if no item of its version or a
higher one is stored. -/
theorem Issued.admits_of_accepted {state : StoreState} {request : Request}
    (hr : Issued state request) {cb : Callback} (hcb : request.callback = some cb) {db : Db}
    {session : Session} {fault : Fault} {p : Kind × Item}
    (hne : (request.cmd.serve db session fault).reply ≠ .error)
    (h : acceptedOf (cb, (request.cmd.serve db session fault).reply) = some p) :
    Admits ((request.cmd.serve db session fault).db (itemsKey state p.1)) p.2 := by
  cases hr with
  | upsertRead kind item call =>
    obtain rfl := Option.some.inj hcb
    obtain rfl := Command.fault_eq_none (fun queue => Command.noConfusion) hne
    obtain ⟨⟨multi, call', hupdate⟩, hverdict⟩ := acceptedOf_eq_some h
    injection hupdate with hkind hitem
    subst hkind hitem
    exact admits_of_write hverdict
  | _ => cases hcb <;> cases h

/-- A callback that issues a write without the value of its read is where a read fails. -/
theorem readFails_deliver {s : Sys ι} {c : ι} {cb : Callback} {reply : Reply}
    {rest : List (Callback × Reply)} (hout : (s.conn c).outbox = (cb, reply) :: rest)
    {p : Kind × Item} (h : skipsAgain (s.conn c).state (cb, reply) = some p ∨
      reply = .error ∧ acceptedOf (cb, reply) = some p) :
    readFails s (.deliver c) = some (c, p) := by
  rcases h with h | ⟨rfl, h⟩
  · unfold skipsAgain at h
    split at h
    · next kind item call heq =>
      obtain ⟨rfl, rfl⟩ := Prod.mk.inj heq
      split_ifs at h with hdown
      obtain rfl := Option.some.inj h
      simp [readFails, hout, hdown]
    · cases h
  · cases cb with
    | hget kind key cb =>
      obtain ⟨⟨multi, call, rfl⟩, -⟩ := acceptedOf_eq_some h
      simp [readFails, hout]
    | _ => cases h

namespace Sys

variable {s t u : Sys Unit} {l : Label Unit}

/-- The writes under way of a single connection find no item of their version or a higher one. -/
structure Checked (s : Sys Unit) : Prop where
  queued : ∀ c, (s.conn c).Queued
  admits : ∀ p ∈ (s.conn ()).checked, Admits (s.db (itemsKey (s.conn ()).state p.1)) p.2

/-- What a command leaves under the key of a write that was under way behind it: what was there, or
what it wrote. -/
theorem Checked.behind (hs : Checked s) {c : Unit} {request : Request} {rest : List Request}
    {fault : Fault} (hovertaken : NoneOvertaken s (.serve c fault))
    (hstep : ServeStep s t c request rest fault) {p : Kind × Item}
    (hp : p ∈ { s.conn c with inbox := rest }.checked) :
    Admits (t.db (itemsKey (s.conn c).state p.1)) p.2 := by
  intro v hv
  have hp' : p ∈ (s.conn c).checked := by
    refine Conn.mem_checked.2 ((Conn.mem_checked.1 hp).imp_left ?_)
    rintro ⟨r, hr, hrp⟩
    exact ⟨r, by rw [hstep.inbox]; exact List.mem_cons_of_mem _ hr, hrp⟩
  rw [hstep.db] at hv
  rcases storedVersion_serve hv with hv | ⟨hfault, queue, hqueue, w, hw, hallowed, hwv⟩
  · exact hs.admits p hp' v hv
  · have hnext : (s.conn c).nextTransaction =
        some (queue, { s.conn c with inbox := rest }.checked) := by
      obtain ⟨cmd, cb⟩ := request
      obtain rfl : cmd = .exec queue := hqueue
      rw [Conn.nextTransaction, hstep.inbox]
    exact hovertaken hfault _ hnext p hp w hw hallowed v hwv

/-- A command leaves this, or is the read of an upsert whose write is under way from then on. -/
theorem Checked.serve (hs : Checked s) {c : Unit} {request : Request} {rest : List Request}
    {fault : Fault} (hovertaken : NoneOvertaken s (.serve c fault))
    (hstep : ServeStep s t c request rest fault) {p : Kind × Item} (hp : p ∈ (t.conn c).checked) :
    Admits (t.db (itemsKey (s.conn c).state p.1)) p.2 := by
  rw [hstep.self, Conn.mem_checked] at hp
  rcases hp with hin | ⟨q, hq, hne, hqp⟩
  · exact hs.behind hovertaken hstep (Conn.mem_checked.2 (.inl hin))
  rcases List.mem_append.mp hq with hq | hq
  · exact hs.behind hovertaken hstep (Conn.mem_checked.2 (.inr ⟨q, hq, hne, hqp⟩))
  -- The command is the read of an upsert, and its reply passes the check.
  obtain ⟨cb, reply⟩ := q
  obtain ⟨hcb, rfl⟩ := mem_waiting.1 hq
  have hissued := (hs.queued c).inbox request (by rw [hstep.inbox]; exact List.mem_cons_self)
  rw [hstep.db]
  exact hissued.admits_of_accepted hcb hne hqp

/-- A callback leaves this, or issues the write that its read admits, or one after a failed read. -/
theorem Checked.deliver (hs : Checked s) {c : Unit} {cb : Callback} {reply : Reply}
    {rest : List (Callback × Reply)} (hfails : FailedReadsHarmless s (.deliver c))
    (hstep : DeliverStep s t c cb reply rest) {p : Kind × Item} (hp : p ∈ (t.conn c).checked) :
    Admits (t.db (itemsKey (s.conn c).state p.1)) p.2 := by
  have hmem : (cb, reply) ∈ (s.conn c).outbox := by rw [hstep.outbox]; exact List.mem_cons_self
  rw [hstep.db]
  rw [hstep.self, Conn.mem_checked] at hp
  rcases hp with ⟨r, hr, hrp⟩ | ⟨q, hq, hqp⟩
  · rcases List.mem_append.mp hr with hr | hr
    · exact hs.admits p (Conn.mem_checked.2 (.inl ⟨r, hr, hrp⟩))
    · have hissued := List.mem_filterMap.2 ⟨r, hr, hrp⟩
      rw [filterMap_writeOf_resume ((hs.queued c).outbox _ hmem), List.mem_append,
        Option.mem_toList, Option.mem_toList] at hissued
      rcases hissued with haccepted | hskips
      · by_cases herror : reply = .error
        · exact hfails ((), p) (readFails_deliver hstep.outbox (.inr ⟨herror, haccepted⟩))
        · -- The write was under way before, by the reply to its read.
          exact hs.admits p (Conn.mem_checked.2 (.inr ⟨_, hmem, herror, haccepted⟩))
      · exact hfails ((), p) (readFails_deliver hstep.outbox (.inl hskips))
  · refine hs.admits p (Conn.mem_checked.2 (.inr ⟨q, ?_, hqp⟩))
    rw [hstep.outbox]
    exact List.mem_cons_of_mem _ hq

end Sys

end RedisStore
