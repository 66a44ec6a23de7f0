import RedisStore.Answers
import RedisStore.FailFast
import RedisStore.Version

/-!
# Reads see one state

An operation that reads with one command answers what the database holds when the server executes it, at
one instant between the call and the answer, whatever other connections and other programs write
meanwhile (`reads_atomic`). Otherwise it answers its failure, and then its connection was down at the
call, or it was given an error or lost before the answer. For the metadata of the big segments this makes
the text that is stored and the number that is answered a round trip (`metadata_synchronized`).
-/

namespace RedisStore

open Redis

/-! ## What a read shows -/

/-- The operation reads with one command. -/
def Op.reads : Op → Bool
  | .getInternal _ _ => true
  | .getAllInternal _ => true
  | .initializedInternal => true
  | .getMetadata => true
  | _ => false

/-- The key of the metadata. -/
def metadataKey (state : StoreState) : Key := state.itemsPrefix ++ keyLastUpToDate

/-- The number is that of the text, if the text has a safe integer or none. A larger one is rounded. -/
def IsNumberOf (value : String) (x : Option ℤ) : Prop :=
  (∀ n ∈ parseInt value, n.natAbs < 2 ^ 53) → x = parseInt value

/-- The answer is what the database holds: the item of the field, every field of the hash but `__proto__`
with its item, whether the marker is there, or the number of the text. A value of another type is a
failure. -/
def Op.Sees (state : StoreState) (db : Db) : Op → Answer → Prop
  | .getInternal kind key, a =>
    match fieldOf (db (itemsKey state kind)) key with
    | some text => ∃ j, Json.parse text = some j ∧ a = .item (visible j)
    | none => a = .item .null
  | .getAllInternal kind, .items (some results) => Hashlike (db (itemsKey state kind)) ∧
    ∀ name, results.own.lookup name =
      if name = "__proto__" then none else (fieldOf (db (itemsKey state kind)) name).bind Json.parse
  | .getAllInternal kind, .items none => ¬ Hashlike (db (itemsKey state kind))
  | .initializedInternal, a => a = .inited (db (initedKey state)).isSome
  | .getMetadata, a =>
    match db (metadataKey state) with
    | none => a = .metadata none
    | some (.string value) =>
      if value = "" then a = .metadata none else ∃ x, a = .metadata (some x) ∧ IsNumberOf value x
    | some _ => a = .rejected
  | _, _ => False

/-- The callback of `getInternal` answers the value that its reply decodes to. -/
theorem answered_onHget {state : StoreState} {kind : Kind} {key : String} {call call' : CallId}
    {reply : Reply} {a : Answer}
    (ha : (call', a) ∈ (onHget state kind key (.getInternal call) reply).answered) :
    ∃ item, replyItem reply = .ok item ∧ a = .item (visible item) := by
  have hdoes := onHget_getInternal_does state kind key call reply
  cases hitem : replyItem reply with
  | ok item =>
    rw [hitem] at hdoes
    exact ⟨item, rfl, hdoes.eq_answer ha⟩
  | error x =>
    rw [hitem] at hdoes
    exact (hdoes.not_answer ha).elim

/-- That of `getAllInternal` answers the items. -/
theorem answered_onHgetall {kind : Kind} {call call' : CallId} {reply : Reply} {a : Answer}
    (ha : (call', a) ∈ (onHgetall kind call reply).answered) :
    ∃ results, replyItems reply = .ok results ∧ a = .items results := by
  have hdoes := onHgetall_does kind call reply
  cases hitems : replyItems reply with
  | ok results =>
    rw [hitems] at hdoes
    exact ⟨results, rfl, hdoes.eq_answer ha⟩
  | error x =>
    rw [hitems] at hdoes
    exact (hdoes.not_answer ha).elim

/-- A read of a hash fails on a value of another type. -/
theorem read_of_not_hashlike {db : Db} {key : Key} (h : ¬ Hashlike (db key)) :
    (∀ field, (Command.hget key field).read db = .error) ∧
      (Command.hgetall key).read db = .error := by
  unfold Command.read
  dsimp only
  generalize db key = value at h
  rcases value with _ | (_ | _ | _ | _)
  · exact absurd trivial h
  · exact ⟨fun _ => rfl, rfl⟩
  · exact absurd trivial h
  · exact ⟨fun _ => rfl, rfl⟩
  · exact ⟨fun _ => rfl, rfl⟩

/-- Where the whole hash is read, every field is. -/
theorem parses_of_replyItems {db : Db} {key : Key} (hlike : Hashlike (db key))
    {results : Option (PlainObject Json)}
    (h : replyItems ((Command.hgetall key).read db) = .ok results) (field text : String)
    (htext : fieldOf (db key) field = some text) : (Json.parse text).isSome := by
  unfold Command.read at h
  dsimp only at h
  generalize db key = value at h hlike htext
  rcases value with _ | (_ | fields | _ | _)
  · cases htext
  · exact absurd hlike id
  · cases hdecode : decodeItems fields with
    | error x =>
      simp [replyItems, hdecode, Except.map] at h
    | ok decoded =>
      obtain ⟨j, hj⟩ := (PlainObject.assignAll_isOk _ _ _ _).1 ⟨decoded, hdecode⟩ ⟨field, text⟩
        (AList.mem_lookup_iff.1 htext)
      unfold jsonParse at hj
      cases hparse : Json.parse text with
      | none =>
        rw [hparse] at hj
        cases hj
      | some j' => rfl
  · exact absurd hlike id
  · exact absurd hlike id

/-- What `HGET` reads decodes to the item of the field. -/
theorem sees_of_hget {state : StoreState} {db : Db} {kind : Kind} {key : String} {item : Json}
    (h : replyItem ((Command.hget (itemsKey state kind) key).read db) = .ok item) :
    (Op.getInternal kind key).Sees state db (.item (visible item)) := by
  unfold Op.Sees
  dsimp only
  by_cases hlike : Hashlike (db (itemsKey state kind))
  · rw [read_hget hlike] at h
    cases hfield : fieldOf (db (itemsKey state kind)) key with
    | none =>
      rw [hfield] at h
      obtain rfl := Except.ok.inj h
      rfl
    | some text =>
      rw [hfield] at h
      have hdecoded : jsonParse text = .ok item := h
      unfold jsonParse at hdecoded
      cases hparse : Json.parse text with
      | none =>
        rw [hparse] at hdecoded
        cases hdecoded
      | some j =>
        rw [hparse] at hdecoded
        obtain rfl := Except.ok.inj hdecoded
        exact ⟨j, hparse, rfl⟩
  · rw [(read_of_not_hashlike hlike).1] at h
    obtain rfl := Except.ok.inj h
    rw [fieldOf_of_not_hashlike hlike]
    rfl

/-- What `HGETALL` reads decodes to the items of all fields. -/
theorem sees_of_hgetall {state : StoreState} {db : Db} {kind : Kind}
    {results : Option (PlainObject Json)}
    (h : replyItems ((Command.hgetall (itemsKey state kind)).read db) = .ok results) :
    (Op.getAllInternal kind).Sees state db (.items results) := by
  by_cases hlike : Hashlike (db (itemsKey state kind))
  · obtain ⟨results', hread, hlookup⟩ := replyItems_read_hgetall hlike (parses_of_replyItems hlike h)
    obtain rfl := Except.ok.inj (hread.symm.trans h)
    exact ⟨hlike, hlookup⟩
  · rw [(read_of_not_hashlike hlike).2] at h
    obtain rfl := Except.ok.inj h
    exact hlike

/-- What `GET` of the metadata reads is its number. -/
theorem sees_of_get {state st : StoreState} {db : Db} {call call' : CallId} {a : Answer}
    (ha : (call', a) ∈ ((Callback.metadataGet call).resume st
      ((Command.get (metadataKey state)).read db)).answered) :
    Op.getMetadata.Sees state db a := by
  have hans : (call', a) ∈
      (onMetadataGet call ((Command.get (metadataKey state)).read db)).answered := ha
  unfold Op.Sees
  dsimp only
  unfold Command.read at hans
  dsimp only at hans
  generalize db (metadataKey state) = value at hans
  rcases value with _ | (value | _ | _ | _)
  case some.string =>
    obtain rfl := (Prod.mk.inj (List.mem_singleton.1 hans)).2
    dsimp only
    split_ifs with hempty
    · rfl
    · exact ⟨parseInt value, rfl, fun _ => rfl⟩
  all_goals exact (Prod.mk.inj (List.mem_singleton.1 hans)).2

/-- The callback of a transaction is not that of a read. -/
theorem Issued.not_reads_of_exec {state : StoreState} {r : Request} (hr : Issued state r)
    {queue : List Write} (hqueue : r.cmd = .exec queue) {cb : Callback} (hcb : r.callback = some cb) :
    cb.op.reads = false := by
  cases hr with
  | upsertWrite kind item call => cases hcb; rfl
  | init allData call multi hbuild => cases hcb; rfl
  | _ => cases hqueue

/-- The callback of a read answers what the server has read. -/
theorem sees_of_served {state st : StoreState} {r : Request} (hr : Issued state r) {cb : Callback}
    (hcb : r.callback = some cb) (hop : cb.op.reads = true) {db : Db} {session : Session}
    {call : CallId} {a : Answer}
    (ha : (call, a) ∈ (cb.resume st (r.cmd.execute db session).reply).answered) :
    cb.op.Sees state db a := by
  cases hr with
  | watch kind => cases hcb
  | getRead kind key call' =>
    obtain rfl := Option.some.inj hcb
    obtain ⟨item, hitem, rfl⟩ := answered_onHget ha
    exact sees_of_hget hitem
  | upsertRead kind item call' =>
    obtain rfl := Option.some.inj hcb
    cases hop
  | upsertWrite kind item call' =>
    obtain rfl := Option.some.inj hcb
    cases hop
  | getAll kind call' =>
    obtain rfl := Option.some.inj hcb
    obtain ⟨results, hitems, rfl⟩ := answered_onHgetall ha
    exact sees_of_hgetall hitems
  | init allData call' multi hbuild =>
    obtain rfl := Option.some.inj hcb
    cases hop
  | inited call' =>
    obtain rfl := Option.some.inj hcb
    have hdoes := onInitedExists_does call' ((Command.existsKey (initedKey state)).read db)
    show a = .inited (db (initedKey state)).isSome
    rw [hdoes.eq_answer ha, Command.read, replyInited]
    cases (db (initedKey state)).isSome <;> rfl
  | metadata call' =>
    obtain rfl := Option.some.inj hcb
    exact sees_of_get ha
  | includes userHash call' =>
    obtain rfl := Option.some.inj hcb
    cases hop
  | excludes userHash refs call' =>
    obtain rfl := Option.some.inj hcb
    cases hop

/-- On an error it answers the failure. -/
theorem failure_of_error {state : StoreState} {cb : Callback} (hcb : Awaited cb)
    (hop : cb.op.reads = true) {call : CallId} {a : Answer}
    (ha : (call, a) ∈ (cb.resume state .error).answered) : a = cb.op.failure := by
  cases hcb with
  | getRead kind key call' => exact (onHget_getInternal_does state kind key call' .error).eq_answer ha
  | getAll kind call' => exact (onHgetall_does kind call' .error).eq_answer ha
  | inited call' => exact (onInitedExists_does call' .error).eq_answer ha
  | metadata call' => exact (Prod.mk.inj (List.mem_singleton.1 ha)).2
  | _ => cases hop

/-- At its call it answers the failure, and only if the connection is down. -/
theorem failure_of_start {state : StoreState} {op : Op} (hop : op.reads = true) {call call' : CallId}
    {a : Answer} (ha : (call', a) ∈ (op.start state call).answered) :
    state.down = true ∧ a = op.failure := by
  cases op with
  | getInternal kind key =>
    cases hdown : state.down with
    | false => exact ((getInternal_does_of_up hdown kind key call).not_answer ha).elim
    | true => exact ⟨rfl, (getInternal_does_of_down hdown kind key call).eq_answer ha⟩
  | getAllInternal kind =>
    cases hdown : state.down with
    | false => exact ((getAllInternal_does_of_up hdown kind call).not_answer ha).elim
    | true => exact ⟨rfl, (getAllInternal_does_of_down hdown kind call).eq_answer ha⟩
  | initializedInternal => exact ((initializedInternal_does state call).not_answer ha).elim
  | getMetadata => cases ha
  | _ => cases hop

/-! ## Where a reply comes from -/

namespace Sys

variable {ι : Type} [DecidableEq ι] {s t : Sys ι} {ls : List (Label ι)} {c : ι} {call : CallId}
  {op : Op} {a : Answer}

/-- Each reply is what the server has read, or the error of a fault or of a lost connection, while the
call was in progress. -/
theorem origin_of_outbox (h₀ : Fresh s) (h : run s ls = some t) {cb : Callback} {reply : Reply}
    (hmem : (cb, reply) ∈ (t.conn c).outbox) :
    ∃ ls₁ l ls₂ u, ls = ls₁ ++ l :: ls₂ ∧ run s ls₁ = some u ∧ InProgress u c cb.call ∧
      ((reply = .error ∧ ¬ Faultless c l) ∨
        ∃ fault request, Issued (u.conn c).state request ∧ request.callback = some cb ∧
          (outcome u c request fault).reply = reply ∧
          (fault = .none ∨ fault ≠ .error ∧ ∃ queue, request.cmd = .exec queue)) := by
  obtain ⟨ls₁, l, ls₂, u, v, hls, hu, hnu, huv, hv, -⟩ := Transition.exists_step_of_run
    (P := fun u : Sys ι => (cb, reply) ∈ (u.conn c).outbox) (by simp [h₀.outbox c]) hmem h
  have horigin := (outbox_of_step huv hv).resolve_left hnu
  have hpending : cb ∈ (u.conn c).callbacks := by
    rcases passed_of_step huv (Conn.mem_callbacks.2 (.inl ⟨reply, hv⟩)) with
      hold | ⟨op', rfl, -⟩ | ⟨cb', reply', rest, rfl, -, -⟩
    · exact hold
    -- Neither a call nor a callback gives a reply.
    · rcases horigin with ⟨-, hfault⟩ | ⟨_, _, _, hserve, -⟩
      · exact absurd trivial hfault
      · cases hserve
    · rcases horigin with ⟨-, hfault⟩ | ⟨_, _, _, hserve, -⟩
      · exact absurd trivial hfault
      · cases hserve
  refine ⟨ls₁, l, ls₂, u, hls, hu, inProgress_of_callback h₀ hu hpending, ?_⟩
  rcases horigin with hfault | ⟨fault, request, rest, -, hstep, hcb, hreply, hexec⟩
  · exact .inl hfault
  · have hin : request ∈ (u.conn c).inbox := by
      rw [hstep.inbox]
      exact List.mem_cons_self
    exact .inr ⟨fault, request, (queued_run h₀ hu c).inbox request hin, hcb, hreply, hexec⟩

/-- The answer of a read is given by the call itself, or at a fault while the call is in progress, or it
is what the server has read meanwhile. -/
theorem origin_of_answered (h₀ : Fresh s) (h : run s ls = some t) (hop : op.reads = true)
    (hcalled : .called c call op ∈ t.log) (ha : .answered c call a ∈ t.log) :
    ∃ ls₁ l ls₂ u, ls = ls₁ ++ l :: ls₂ ∧ run s ls₁ = some u ∧
      ((l = .call c op ∧ u.calls c = call ∧ (call, a) ∈ (op.start (u.conn c).state call).answered) ∨
        (¬ Faultless c l ∧ InProgress u c call ∧ a = op.failure) ∨
        (InProgress u c call ∧ op.Sees (u.conn c).state u.db a)) := by
  have hrecorded : Called t := called_run h₀ h
  obtain ⟨ls₁, l, ls₂, u, v, rfl, hu, huv, hvt, hgiven⟩ := step_of_answered h₀ h ha
  rcases hgiven with ⟨op', rfl, rfl, hans⟩ | ⟨cb, reply, rest, rfl, hout, rfl, hans⟩
  · -- The call itself answers.
    have hmade : .called c (u.calls c) op' ∈ v.log := by
      rw [(call_step huv).log]
      simp
    obtain rfl : op' = op := hrecorded.unique c _ _ _ (mem_log_of_run hvt hmade) hcalled
    exact ⟨ls₁, _, ls₂, u, rfl, hu, .inl ⟨rfl, rfl, hans⟩⟩
  · -- Its callback answers, on a reply from the server or on an error.
    have hmem : (cb, reply) ∈ (u.conn c).outbox := by
      rw [hout]
      exact List.mem_cons_self
    have hcb : Awaited cb := (queued_run h₀ hu c).outbox _ hmem
    obtain rfl : cb.op = op := op_of_callback (called_run h₀ hu) hrecorded
      (Transition.run_cons_eq_some.2 ⟨v, huv, hvt⟩) (Conn.mem_callbacks.2 (.inl ⟨reply, hmem⟩)) hcalled
    obtain ⟨ls₃, l, ls₄, w, rfl, hw, hprogress, horigin⟩ := origin_of_outbox h₀ hu hmem
    refine ⟨ls₃, l, ls₄ ++ .deliver c :: ls₂, w, ?_, hw, .inr ?_⟩
    · rw [List.append_assoc, List.cons_append]
    rcases horigin with ⟨rfl, hfault⟩ | ⟨fault, request, hissued, hrcb, hreply, hexec⟩
    · exact .inl ⟨hfault, hprogress, failure_of_error hcb hop hans⟩
    · -- A read is no transaction.
      obtain rfl := hexec.resolve_right fun ⟨_, queue, hqueue⟩ => by
        rw [hissued.not_reads_of_exec hqueue hrcb] at hop
        cases hop
      rw [← hreply] at hans
      exact .inr ⟨hprogress, sees_of_served hissued hrcb hop hans⟩

/-- The call met a fault: its connection was down when it was made, or got an error or was lost while it
was in progress. -/
def MeetsFault (s : Sys ι) (ls : List (Label ι)) (c : ι) (call : CallId) (op : Op) : Prop :=
  ∃ ls₁ l ls₂ u, ls = ls₁ ++ l :: ls₂ ∧ run s ls₁ = some u ∧
    ((l = .call c op ∧ u.calls c = call ∧ (u.conn c).state.down = true) ∨
      (¬ Faultless c l ∧ InProgress u c call))

/-- In every run of any number of connections, whatever others write and however calls overlap: the
answer of an operation that reads with one command is what the database holds in a state between the call
and the answer, or it is the operation's failure and the call met a fault. -/
theorem reads_atomic (h₀ : Fresh s) (h : run s ls = some t) (hop : op.reads = true)
    (hcalled : .called c call op ∈ t.log) (ha : .answered c call a ∈ t.log) :
    (∃ ls₁ ls₂ u, ls = ls₁ ++ ls₂ ∧ run s ls₁ = some u ∧ InProgress u c call ∧
        op.Sees (u.conn c).state u.db a) ∨
      (a = op.failure ∧ MeetsFault s ls c call op) := by
  obtain ⟨ls₁, l, ls₂, u, hls, hu, hdown | hfault | hsees⟩ :=
    origin_of_answered h₀ h hop hcalled ha
  · obtain ⟨hl, hnumber, hans⟩ := hdown
    obtain ⟨hdown, hfailure⟩ := failure_of_start hop hans
    exact .inr ⟨hfailure, ls₁, l, ls₂, u, hls, hu, .inl ⟨hl, hnumber, hdown⟩⟩
  · obtain ⟨hfault, hprogress, hfailure⟩ := hfault
    exact .inr ⟨hfailure, ls₁, l, ls₂, u, hls, hu, .inr ⟨hfault, hprogress⟩⟩
  · exact .inl ⟨ls₁, l :: ls₂, u, hls, hu, hsees⟩

/-- A read of an item that another program stores after the call and removes before the answer. -/
def fleetingItem : List (Label Unit) :=
  [.call () (.getInternal .features "f"),
    .foreign [(itemsKey connectedState .features, sampleDb "f" 1 (itemsKey connectedState .features))],
    .serve () .none, .foreign [(itemsKey connectedState .features, none)], .deliver ()]

/-- It is answered with the item of a state in between. -/
theorem reads_atomic_fleeting :
    ∃ (t : Sys Unit) (a : Answer),
      run (opened (fun _ => none) fun _ => connectedState) fleetingItem = some t ∧
      .answered () 0 a ∈ t.log ∧
      ((∃ ls₁ ls₂ u, fleetingItem = ls₁ ++ ls₂ ∧
          run (opened (fun _ => none) fun _ => connectedState) ls₁ = some u ∧ InProgress u () 0 ∧
          (Op.getInternal .features "f").Sees (u.conn ()).state u.db a) ∨
        (a = .item .null ∧ MeetsFault (opened (fun _ => none) fun _ => connectedState) fleetingItem () 0
          (.getInternal .features "f"))) := by
  have hend : (run (opened (fun _ => none) fun _ => connectedState) fleetingItem).map
      (fun t => answersTo () 0 t.log) = some 1 := by decide +kernel
  obtain ⟨t, ht, hanswers⟩ := Option.map_eq_some_iff.1 hend
  obtain ⟨a, ha⟩ := exists_answered (hanswers ▸ Nat.one_pos : 0 < answersTo () 0 t.log)
  have hcalled : .called () 0 (.getInternal .features "f") ∈ t.log := by
    obtain ⟨u, hu, hrest⟩ := Transition.run_cons_eq_some.1 ht
    exact mem_log_of_run hrest (by rw [(call_step hu).log]; simp [opened])
  exact ⟨t, a, ht, ha, reads_atomic (opened_fresh _ _) ht rfl hcalled ha⟩

end Sys

/-! ## The metadata of the big segments -/

/-- A safe integer: a number that is exact, and whose text is its digits. -/
abbrev Timestamp := {n : ℤ // n.natAbs < 2 ^ 53}

/-- What `setMetadata` of the tests stores:
`lastUpToDate ? lastUpToDate.toString() : ''`. -/
def metadataText : Option Timestamp → String
  | some n => if n.val ≠ 0 then toString n.val else ""
  | none => ""

/-- What `getMetadata` makes of the text of the key. -/
theorem metadata_of_text {lastUpToDate : Option Timestamp} {a : Answer}
    (h : if metadataText lastUpToDate = "" then a = .metadata none
      else ∃ x, a = .metadata (some x) ∧ IsNumberOf (metadataText lastUpToDate) x) :
    a = .metadata (lastUpToDate.bind fun n => if n.val = 0 then none else some (some n.val)) := by
  unfold metadataText at h
  cases lastUpToDate with
  | none => exact h
  | some n =>
    by_cases hzero : n.val = 0
    · simpa [hzero] using h
    · have htext : toString n.val ≠ "" := by
        intro hempty
        have hread := parseInt_toString n.val
        rw [hempty] at hread
        cases hread
      simp only [ne_eq, hzero, not_false_iff, if_true, htext, if_false] at h
      obtain ⟨x, rfl, hx⟩ := h
      -- The integer is a safe one.
      have hsafe : ∀ i ∈ parseInt (toString n.val), i.natAbs < 2 ^ 53 := by
        rw [parseInt_toString]
        rintro i hi
        obtain rfl := Option.mem_some.1 hi
        exact n.property
      rw [hx hsafe, parseInt_toString, Option.bind_some, if_neg hzero]

namespace Sys

variable {ι : Type} [DecidableEq ι] {s t : Sys ι} {ls : List (Label ι)} {c : ι} {call : CallId}
  {a : Answer}

/-- The database holds this metadata for the connection: its text, or, where there is none, no key. -/
def HoldsMetadata (s : Sys ι) (c : ι) (lastUpToDate : Option Timestamp) : Prop :=
  s.db (metadataKey (s.conn c).state) = some (.string (metadataText lastUpToDate)) ∨
    lastUpToDate = none ∧ s.db (metadataKey (s.conn c).state) = none

/-- In every run where, while a call of `getMetadata` is in progress, the database holds what
`setMetadata` stores, and where the connection meets no fault: the answer is the number that was stored in
a state between the call and the answer, `undefined` for none and for zero. -/
theorem metadata_synchronized (h₀ : Fresh s) (h : run s ls = some t)
    (hcalled : .called c call .getMetadata ∈ t.log) (ha : .answered c call a ∈ t.log)
    (hfault : ∀ l ∈ ls, Faultless c l) (hholds : Along (fun u _ => InProgress u c call →
      ∃ lastUpToDate, HoldsMetadata u c lastUpToDate) s ls) :
    ∃ ls₁ ls₂ u lastUpToDate, ls = ls₁ ++ ls₂ ∧ run s ls₁ = some u ∧ InProgress u c call ∧
      HoldsMetadata u c lastUpToDate ∧
      a = .metadata (lastUpToDate.bind fun n => if n.val = 0 then none else some (some n.val)) := by
  obtain ⟨ls₁, l, ls₂, u, rfl, hu, ⟨-, -, hans⟩ | ⟨hl, -⟩ | ⟨hprogress, hsees⟩⟩ :=
    origin_of_answered h₀ h rfl hcalled ha
  · cases hans
  · exact absurd (hfault l (by simp)) hl
  · obtain ⟨lastUpToDate, hheld⟩ := ((Transition.along_append hu).1 hholds).2.1 hprogress
    refine ⟨ls₁, l :: ls₂, u, lastUpToDate, rfl, hu, hprogress, hheld, ?_⟩
    unfold Op.Sees at hsees
    rcases hheld with htext | ⟨rfl, hnone⟩
    · rw [htext] at hsees
      exact metadata_of_text hsees
    · rw [hnone] at hsees
      exact hsees

/-- A database with metadata. -/
def metadataDb : Db := Function.update (fun _ => none) (metadataKey connectedState)
  (some (.string (metadataText (some ⟨1700000000000, by decide⟩))))

/-- A call of `getMetadata`, with its command and its callback. -/
def readMetadata : List (Label Unit) := [.call () .getMetadata, .serve () .none, .deliver ()]

/-- The number that is stored is the answer. -/
theorem metadata_synchronized_stored :
    ∃ (t : Sys Unit) (a : Answer),
      run (opened metadataDb fun _ => connectedState) readMetadata = some t ∧
      .answered () 0 a ∈ t.log ∧ ∃ (u : Sys Unit) (lastUpToDate : Option Timestamp),
        HoldsMetadata u () lastUpToDate ∧
        a = .metadata (lastUpToDate.bind fun n => if n.val = 0 then none else some (some n.val)) := by
  have hend : (run (opened metadataDb fun _ => connectedState) readMetadata).map
      (fun t => answersTo () 0 t.log) = some 1 := by decide +kernel
  obtain ⟨t, ht, hanswers⟩ := Option.map_eq_some_iff.1 hend
  obtain ⟨a, ha⟩ := exists_answered (hanswers ▸ Nat.one_pos : 0 < answersTo () 0 t.log)
  have hcalled : .called () 0 .getMetadata ∈ t.log := by
    obtain ⟨u, hu, hrest⟩ := Transition.run_cons_eq_some.1 ht
    exact mem_log_of_run hrest (by rw [(call_step hu).log]; simp [opened])
  have hkept : Along (fun u _ => u.db (metadataKey (u.conn ()).state) =
      some (.string (metadataText (some ⟨1700000000000, by decide⟩))))
      (opened metadataDb fun _ => connectedState) readMetadata := by decide +kernel
  have hfault : ∀ l ∈ readMetadata, Faultless () l := by decide
  obtain ⟨_, _, u, lastUpToDate, -, -, -, hheld, hans⟩ := metadata_synchronized (opened_fresh _ _) ht
    hcalled ha hfault (hkept.mono fun u _ hu _ => ⟨_, .inl hu⟩)
  exact ⟨t, a, ht, ha, u, lastUpToDate, hheld, hans⟩

end Sys

end RedisStore
