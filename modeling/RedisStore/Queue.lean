import RedisStore.Step
import RedisStore.Store.Keys

/-!
# What is in the queues

Two invariants of every run, whatever its calls, faults, and lost connections. Each command in a
connection's inbox is one that the stores' code issues, with the callback that the code passes with
it (`Issued`), and each reply waits for such a callback. And each callback in a queue belongs to a
call of the run (`Callback.call`, `Callback.op`), whose number no other call has.
-/

namespace RedisStore

open Redis

/-- The requests that the code of the stores makes. -/
inductive Issued (state : StoreState) : Request → Prop where
  | watch (kind : Kind) : Issued state ⟨.watch (itemsKey state kind), none⟩
  | getRead (kind : Kind) (key : String) (call : CallId) :
    Issued state ⟨.hget (itemsKey state kind) key, some (.hget kind key (.getInternal call))⟩
  | upsertRead (kind : Kind) (item : Item) (call : CallId) :
    Issued state (readRequest state kind item call)
  | upsertWrite (kind : Kind) (item : Item) (call : CallId) :
    Issued state (writeRequest state kind item call)
  | getAll (kind : Kind) (call : CallId) :
    Issued state ⟨.hgetall (itemsKey state kind), some (.hgetall kind call)⟩
  | init (allData : AllData) (call : CallId) (multi : Multi)
    (h : buildInit state allData = .ok multi) :
    Issued state ⟨.exec multi, some (.initExec allData call)⟩
  | inited (call : CallId) :
    Issued state ⟨.existsKey (initedKey state), some (.initedExists call)⟩
  | metadata (call : CallId) :
    Issued state ⟨.get (state.itemsPrefix ++ keyLastUpToDate), some (.metadataGet call)⟩
  | includes (userHash : String) (call : CallId) :
    Issued state ⟨.smembers (state.itemsPrefix ++ keyUserInclude ++ userHash),
      some (.smembersInclude userHash call)⟩
  | excludes (userHash : String) (refs : List String) (call : CallId) :
    Issued state ⟨.smembers (state.itemsPrefix ++ keyUserExclude ++ userHash),
      some (.smembersExclude userHash refs call)⟩

/-- The callbacks that the code of the stores passes with a command. -/
inductive Awaited : Callback → Prop where
  | getRead (kind : Kind) (key : String) (call : CallId) :
    Awaited (.hget kind key (.getInternal call))
  | upsertRead (kind : Kind) (item : Item) (call : CallId) :
    Awaited (.hget kind item.key (.update kind item [] call))
  | upsertWrite (kind : Kind) (item : Item) (call : CallId) : Awaited (.upsertExec kind item call)
  | getAll (kind : Kind) (call : CallId) : Awaited (.hgetall kind call)
  | init (allData : AllData) (call : CallId) : Awaited (.initExec allData call)
  | inited (call : CallId) : Awaited (.initedExists call)
  | metadata (call : CallId) : Awaited (.metadataGet call)
  | includes (userHash : String) (call : CallId) : Awaited (.smembersInclude userHash call)
  | excludes (userHash : String) (refs : List String) (call : CallId) :
    Awaited (.smembersExclude userHash refs call)

/-- The callback of an upsert's read determines the upsert. -/
theorem Callback.update_inj {kind kind' : Kind} {item item' : Item} {call call' : CallId}
    (h : (.hget kind item.key (.update kind item [] call) : Callback) =
      .hget kind' item'.key (.update kind' item' [] call')) :
    kind = kind' ∧ item = item' ∧ call = call' := by
  injection h with _ _ hcb
  injection hcb with hkind hitem _ hcall
  exact ⟨hkind, hitem, hcall⟩

/-- The callback of such a request is such a callback. -/
theorem Issued.awaited {state : StoreState} {r : Request} (hr : Issued state r) {cb : Callback}
    (hcb : r.callback = some cb) : Awaited cb := by
  cases hr with
  | watch kind => cases hcb
  | getRead kind key call => cases hcb; exact .getRead kind key call
  | upsertRead kind item call => cases hcb; exact .upsertRead kind item call
  | upsertWrite kind item call => cases hcb; exact .upsertWrite kind item call
  | getAll kind call => cases hcb; exact .getAll kind call
  | init allData call multi hb => cases hcb; exact .init allData call
  | inited call => cases hcb; exact .inited call
  | metadata call => cases hcb; exact .metadata call
  | includes userHash call => cases hcb; exact .includes userHash call
  | excludes userHash refs call => cases hcb; exact .excludes userHash refs call

/-- The callback of an upsert's read is passed with that read. -/
theorem Issued.eq_readRequest {state : StoreState} {r : Request} (hr : Issued state r) {kind : Kind}
    {item : Item} {call : CallId}
    (hcb : r.callback = some (.hget kind item.key (.update kind item [] call))) :
    r = readRequest state kind item call := by
  cases hr with
  | upsertRead kind' item' call' =>
    obtain ⟨rfl, rfl, rfl⟩ := Callback.update_inj (Option.some.inj hcb)
    rfl
  | _ => cases hcb

/-- That of its transaction is passed with the transaction. -/
theorem Issued.eq_writeRequest {state : StoreState} {r : Request} (hr : Issued state r) {kind : Kind}
    {item : Item} {call : CallId} (hcb : r.callback = some (.upsertExec kind item call)) :
    r = writeRequest state kind item call := by
  cases hr with
  | upsertWrite kind' item' call' =>
    cases hcb
    rfl
  | _ => cases hcb

/-- The transaction of an init depends on the prefix alone. -/
theorem buildInit_congr {state state' : StoreState} (h : state.itemsPrefix = state'.itemsPrefix)
    (allData : AllData) : buildInit state allData = buildInit state' allData := by
  have hadd : addKind state = addKind state' := by
    funext multi name items
    simp only [addKind, h]
  simp only [buildInit, hadd, initedKey, h]

/-- The requests depend on the prefix alone. -/
theorem Issued.congr {state state' : StoreState} (h : state.itemsPrefix = state'.itemsPrefix)
    {r : Request} (hr : Issued state r) : Issued state' r := by
  have hitems : ∀ kind, itemsKey state kind = itemsKey state' kind := itemsKey_congr h
  cases hr with
  | watch kind => rw [hitems]; exact .watch kind
  | getRead kind key call => rw [hitems]; exact .getRead kind key call
  | upsertRead kind item call =>
    rw [readRequest, hitems]
    exact .upsertRead kind item call
  | upsertWrite kind item call =>
    rw [writeRequest, hitems]
    exact .upsertWrite kind item call
  | getAll kind call => rw [hitems]; exact .getAll kind call
  | init allData call multi hb => exact .init allData call multi (buildInit_congr h allData ▸ hb)
  | inited call => rw [initedKey, h]; exact .inited call
  | metadata call => rw [h]; exact .metadata call
  | includes userHash call => rw [h]; exact .includes userHash call
  | excludes userHash refs call => rw [h]; exact .excludes userHash refs call

/-- An upsert, at its call or its retry, issues such requests. -/
theorem upsertInternal_issued (state : StoreState) (kind : Kind) (item : Item) (call : CallId) :
    ∀ r ∈ (upsertInternal state kind item call).issued, Issued state r := by
  cases h : state.down with
  | false =>
    rw [(upsertInternal_does_of_up h kind item call).issued]
    simp [Issued.watch, Issued.upsertRead]
  | true =>
    rw [(upsertInternal_does_of_down h kind item call).issued]
    simp [Issued.watch, Issued.upsertWrite]

/-- The operations issue such requests. -/
theorem start_issued (state : StoreState) (call : CallId) (op : Op) :
    ∀ r ∈ (op.start state call).issued, Issued state r := by
  cases op with
  | getInternal kind key =>
    rw [Op.start]
    cases h : state.down with
    | false => rw [(getInternal_does_of_up h kind key call).issued]; simp [Issued.getRead]
    | true => rw [(getInternal_does_of_down h kind key call).issued]; simp
  | getAllInternal kind =>
    rw [Op.start]
    cases h : state.down with
    | false => rw [(getAllInternal_does_of_up h kind call).issued]; simp [Issued.getAll]
    | true => rw [(getAllInternal_does_of_down h kind call).issued]; simp
  | initInternal allData =>
    rw [Op.start]
    cases h : buildInit state allData with
    | ok multi =>
      rw [(initInternal_does_of_ok h call).issued]
      simpa using Issued.init allData call multi h
    | error x => rw [(initInternal_does_of_error h call).issued]; simp
  | upsertInternal kind item => exact upsertInternal_issued state kind item call
  | initializedInternal =>
    rw [Op.start, (initializedInternal_does state call).issued]
    simpa using Issued.inited call
  | getMetadata => simpa [Op.start, getMetadata, issue, Js.issued] using Issued.metadata call
  | getUserMembership userHash =>
    simpa [Op.start, getUserMembership, issue, Js.issued] using Issued.includes userHash call

/-- The callbacks issue such requests. -/
theorem resume_issued {state : StoreState} {cb : Callback} (hcb : Awaited cb) (reply : Reply) :
    ∀ r ∈ (cb.resume state reply).issued, Issued state r := by
  cases hcb with
  | getRead kind key call =>
    have h := onHget_getInternal_does state kind key call reply
    rw [Callback.resume]
    split at h <;> simp [h.issued]
  | upsertRead kind item call =>
    have h := onHget_update_does state kind item.key item call reply
    rw [Callback.resume]
    split at h
    · rw [h.issued]
      simpa using Issued.upsertWrite kind item call
    all_goals simp [h.issued]
  -- An aborted transaction starts the upsert again.
  | upsertWrite kind item call =>
    rw [Callback.resume]
    by_cases hnil : reply = .nil
    · subst hnil
      rw [(onUpsertExec_does_of_nil ⟨rfl, rfl, rfl⟩).issued]
      exact upsertInternal_issued state kind item call
    · rw [(onUpsertExec_does hnil state kind item call).issued]
      simp
  | getAll kind call =>
    have h := onHgetall_does kind call reply
    rw [Callback.resume]
    split at h <;> simp [h.issued]
  | init allData call =>
    rw [Callback.resume, (onInitExec_does call reply).issued]
    simp
  | inited call =>
    rw [Callback.resume, (onInitedExists_does call reply).issued]
    simp
  | metadata call =>
    cases reply <;> simp [Callback.resume, onMetadataGet, answer, Js.issued]
  | includes userHash call =>
    rw [Callback.resume, onIncludedRefs]
    split_ifs
    · simp [answer, Js.issued]
    · simpa [issue, Js.issued] using Issued.excludes userHash (refsOf reply) call
  | excludes userHash refs call =>
    rw [Callback.resume, onExcludedRefs]
    split_ifs <;> simp [answer, Js.issued]

/-! ## The calls that callbacks belong to -/

/-- The call that a callback belongs to. -/
def Callback.call : Callback → CallId
  | .hget _ _ (.getInternal call) => call
  | .hget _ _ (.update _ _ _ call) => call
  | .hgetall _ call => call
  | .initExec _ call => call
  | .upsertExec _ _ call => call
  | .initedExists call => call
  | .metadataGet call => call
  | .smembersInclude _ call => call
  | .smembersExclude _ _ call => call

/-- The operation that was called. -/
def Callback.op : Callback → Op
  | .hget kind key (.getInternal _) => .getInternal kind key
  | .hget _ _ (.update kind item _ _) => .upsertInternal kind item
  | .hgetall kind _ => .getAllInternal kind
  | .initExec allData _ => .initInternal allData
  | .upsertExec kind item _ => .upsertInternal kind item
  | .initedExists _ => .initializedInternal
  | .metadataGet _ => .getMetadata
  | .smembersInclude userHash _ => .getUserMembership userHash
  | .smembersExclude userHash _ _ => .getUserMembership userHash

/-- A piece of code that works for one call: the callbacks that it passes belong to the call, and it
answers no other. -/
structure WorksFor (code : Code Unit) (call : CallId) (op : Op) : Prop where
  issued : ∀ r ∈ code.issued, ∀ cb, r.callback = some cb → cb.call = call ∧ cb.op = op
  answered : ∀ a ∈ code.answered, a.1 = call

/-- Code whose effects are known works for a call if those effects are for it. -/
theorem Js.Does.worksFor {code : Code Unit} {issued : List Request}
    {answered : List (CallId × Answer)} {thrown : List Exn} (h : code.Does issued answered thrown)
    {call : CallId} {op : Op}
    (hi : ∀ r ∈ issued, ∀ cb, r.callback = some cb → cb.call = call ∧ cb.op = op)
    (ha : ∀ a ∈ answered, a.1 = call) : WorksFor code call op :=
  ⟨by rwa [h.issued], by rwa [h.answered]⟩

theorem upsertInternal_worksFor (state : StoreState) (kind : Kind) (item : Item) (call : CallId) :
    WorksFor (upsertInternal state kind item call) call (.upsertInternal kind item) := by
  cases h : state.down with
  | false =>
    apply (upsertInternal_does_of_up h kind item call).worksFor <;>
      simp [readRequest, Callback.call, Callback.op]
  | true =>
    apply (upsertInternal_does_of_down h kind item call).worksFor <;>
      simp [writeRequest, Callback.call, Callback.op]

/-- The code of an operation works for its call. -/
theorem start_worksFor (state : StoreState) (call : CallId) (op : Op) :
    WorksFor (op.start state call) call op := by
  cases op with
  | getInternal kind key =>
    cases h : state.down with
    | false =>
      apply (getInternal_does_of_up h kind key call).worksFor <;>
        simp [Callback.call, Callback.op]
    | true => apply (getInternal_does_of_down h kind key call).worksFor <;> simp
  | getAllInternal kind =>
    cases h : state.down with
    | false =>
      apply (getAllInternal_does_of_up h kind call).worksFor <;> simp [Callback.call, Callback.op]
    | true => apply (getAllInternal_does_of_down h kind call).worksFor <;> simp
  | initInternal allData =>
    cases h : buildInit state allData with
    | ok multi =>
      apply (initInternal_does_of_ok h call).worksFor <;> simp [Callback.call, Callback.op]
    | error x => apply (initInternal_does_of_error h call).worksFor <;> simp
  | upsertInternal kind item => exact upsertInternal_worksFor state kind item call
  | initializedInternal =>
    apply (initializedInternal_does state call).worksFor <;> simp [Callback.call, Callback.op]
  | getMetadata =>
    constructor <;> simp [Op.start, getMetadata, issue, Js.issued, Js.answered, Callback.call,
      Callback.op]
  | getUserMembership userHash =>
    constructor <;> simp [Op.start, getUserMembership, issue, Js.issued, Js.answered,
      Callback.call, Callback.op]

/-- The code of a callback works for the call that the callback belongs to. -/
theorem resume_worksFor {state : StoreState} {cb : Callback} (hcb : Awaited cb)
    (reply : Reply) : WorksFor (cb.resume state reply) cb.call cb.op := by
  cases hcb with
  | getRead kind key call =>
    have h := onHget_getInternal_does state kind key call reply
    split at h <;> (apply h.worksFor <;> simp [Callback.call])
  | upsertRead kind item call =>
    have h := onHget_update_does state kind item.key item call reply
    split at h <;> (apply h.worksFor <;> simp [writeRequest, Callback.call, Callback.op])
  | upsertWrite kind item call =>
    by_cases hnil : reply = .nil
    · subst hnil
      have hw := upsertInternal_worksFor state kind item call
      have hd : (onUpsertExec state kind item call .nil).Does _ _ _ :=
        onUpsertExec_does_of_nil ⟨rfl, rfl, rfl⟩
      exact hd.worksFor hw.issued hw.answered
    · apply (onUpsertExec_does hnil state kind item call).worksFor <;> simp [Callback.call]
  | getAll kind call =>
    have h := onHgetall_does kind call reply
    split at h <;> (apply h.worksFor <;> simp [Callback.call])
  | init allData call =>
    apply (onInitExec_does call reply).worksFor <;> simp [Callback.call]
  | inited call =>
    apply (onInitedExists_does call reply).worksFor <;> simp [Callback.call]
  | metadata call =>
    constructor <;> cases reply <;>
      simp [Callback.resume, onMetadataGet, answer, Js.issued, Js.answered, Callback.call]
  | includes userHash call =>
    constructor <;> rw [Callback.resume, onIncludedRefs] <;> split_ifs <;>
      simp [answer, issue, Js.issued, Js.answered, Callback.call, Callback.op]
  | excludes userHash refs call =>
    constructor <;> rw [Callback.resume, onExcludedRefs] <;> split_ifs <;>
      simp [answer, Js.issued, Js.answered, Callback.call]

/-! ## The queues of a run -/

/-- The queues of a connection hold what the stores' code put there. -/
structure Conn.Queued (conn : Conn) : Prop where
  inbox : ∀ r ∈ conn.inbox, Issued conn.state r
  outbox : ∀ p ∈ conn.outbox, Awaited p.1

namespace Sys

/-- A callback that waits for its reply came with its request. -/
theorem mem_waiting {request : Request} {reply : Reply} {p : Callback × Reply} :
    p ∈ waiting request reply ↔ request.callback = some p.1 ∧ p.2 = reply := by
  obtain ⟨cb, r⟩ := p
  unfold waiting
  cases request.callback with
  | none => simp
  | some cb' => simp [eq_comm]

/-- A lost connection answers requests that were in the inbox. -/
theorem mem_abandoned {requests : List Request} {p : Callback × Reply} :
    p ∈ abandoned requests ↔ p.2 = .error ∧ ∃ r ∈ requests, r.callback = some p.1 := by
  obtain ⟨cb, reply⟩ := p
  simp only [abandoned, List.mem_filterMap, Option.map_eq_some_iff, Prod.mk.injEq]
  constructor
  · rintro ⟨r, hr, cb', hcb, rfl, rfl⟩
    exact ⟨rfl, r, hr, hcb⟩
  · rintro ⟨rfl, r, hr, hcb⟩
    exact ⟨r, hr, cb, hcb, rfl, rfl⟩

variable {ι : Type}

/-- Before any call the queues are empty. -/
theorem Fresh.queued {s : Sys ι} (h : Fresh s) (c : ι) : (s.conn c).Queued :=
  ⟨fun r hr => by simp [h.inbox c] at hr, fun p hp => by simp [h.outbox c] at hp⟩

variable [DecidableEq ι] {s t : Sys ι} {l : Label ι}

/-- A step of a connection puts nothing else in its queues. -/
theorem queued_step (hs : ∀ c, (s.conn c).Queued) (h : step s l = some t) (d : ι) :
    (t.conn d).Queued := by
  obtain ⟨hin, hout⟩ := hs d
  cases step_conn h d with
  | call op hstep =>
    rw [hstep.self]
    refine ⟨fun r hr => ?_, hout⟩
    rcases List.mem_append.mp hr with hr | hr
    · exact hin r hr
    · exact start_issued _ _ _ r hr
  | serve request rest fault hstep =>
    rw [hstep.inbox] at hin
    rw [hstep.self]
    refine ⟨fun r hr => hin r (List.mem_cons_of_mem _ hr), fun p hp => ?_⟩
    rcases List.mem_append.mp hp with hp | hp
    · exact hout p hp
    · exact (hin request List.mem_cons_self).awaited (mem_waiting.1 hp).1
  | deliver cb reply rest hstep =>
    rw [hstep.outbox] at hout
    rw [hstep.self]
    refine ⟨fun r hr => ?_, fun p hp => hout p (List.mem_cons_of_mem _ hp)⟩
    rcases List.mem_append.mp hr with hr | hr
    · exact hin r hr
    · exact resume_issued (hout (cb, reply) List.mem_cons_self) reply r hr
  | lose kept hstep =>
    rw [hstep.self]
    refine ⟨fun r hr => absurd hr List.not_mem_nil, fun p hp => ?_⟩
    -- A reply that waits after the loss was read before, or is the error for one that was not, or for a
    -- request.
    simp only [List.append_assoc, List.mem_append, List.mem_map] at hp
    rcases hp with hp | ⟨q, hq, rfl⟩ | hp
    · exact hout p (List.mem_of_mem_take hp)
    · exact hout q (List.mem_of_mem_drop hq)
    · obtain ⟨-, r, hr, hcb⟩ := mem_abandoned.1 hp
      exact (hin r hr).awaited hcb
  | regain hstep =>
    rw [hstep.self]
    exact ⟨fun r hr => (hin r hr).congr (StoreState.onEvent_itemsPrefix _ _).symm, hout⟩
  | other l hd hstep =>
    rw [hstep]
    exact ⟨hin, hout⟩

/-- The queues of a run hold what the stores' code put there. -/
theorem queued_run {ls : List (Label ι)} (h₀ : Fresh s) (h : run s ls = some t) (c : ι) :
    (t.conn c).Queued :=
  Transition.run_invariant' (P := fun u => ∀ c, (u.conn c).Queued)
    (fun _ _ _ hs hstep => queued_step hs hstep) h₀.queued h c

end Sys

end RedisStore
