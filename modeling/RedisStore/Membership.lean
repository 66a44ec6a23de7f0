import RedisStore.Answers
import RedisStore.Semantics.Contents

/-!
# Memberships

`getUserMembership` reads the user's include set and then the exclude set, each with a command of its
own. So a membership is made of the include set of one state and the exclude set of a later one, both
between the call and its answer (`membership_two_reads`). It is that of a single state exactly if this
state has the include set that the first read found, and outside of it the exclude set that the second
one found. A write by another program that moves a segment from one set to the other, between the two
reads, gives a membership that the user never had (`membership_torn`).
-/

namespace RedisStore

open Redis Marks

/-! ## The two sets of a user -/

/-- The key of a user's include set. -/
def includeKey (state : StoreState) (userHash : String) : Key :=
  state.itemsPrefix ++ keyUserInclude ++ userHash

/-- The key of a user's exclude set. -/
def excludeKey (state : StoreState) (userHash : String) : Key :=
  state.itemsPrefix ++ keyUserExclude ++ userHash

/-- The members of the set under a key; a missing set has none. -/
def Redis.membersAt (db : Db) (key : Key) : Set String :=
  {ref | ∃ refs, db key = some (.set refs) ∧ ref ∈ refs}

/-- The reply to a read of a set lists its members. -/
theorem mem_refsOf_read {db : Db} {key : Key} (h : (Command.smembers key).read db ≠ .error)
    (ref : String) : ref ∈ refsOf ((Command.smembers key).read db) ↔ ref ∈ membersAt db key := by
  have hmem : ref ∈ membersAt db key ↔ ∃ refs, db key = some (.set refs) ∧ ref ∈ refs := Iff.rfl
  rw [hmem]
  simp only [Command.read] at h ⊢
  rcases hv : db key with _ | (_ | _ | refs | _)
  · simp [refsOf]
  · simp [hv] at h
  · simp [hv] at h
  · simp [refsOf]
  · simp [hv] at h

/-! ## The code's map -/

/-- The own properties after the refs of a list were assigned. -/
theorem lookup_assignRefs (m : PlainObject Bool) (refs : List String) (value : Bool)
    {name : String} (hproto : "__proto__" ∉ refs) :
    (assignRefs m refs value).own.lookup name =
      if name ∈ refs then some value else m.own.lookup name := by
  unfold assignRefs
  induction refs generalizing m with
  | nil => simp
  | cons ref refs ih =>
    rw [List.mem_cons, not_or] at hproto
    rw [List.foldl_cons, ih _ hproto.2, PlainObject.lookup_assign, if_neg (Ne.symm hproto.1)]
    by_cases hname : name = ref
    · simp [hname]
    · simp [hname]

/-- The own properties of a membership. -/
def ownProps (m : Option (PlainObject Bool)) : Option (String → Option Bool) :=
  m.map fun o name => o.own.lookup name

/-- The membership that the code makes of two lists marks the included refs and the excluded ones. -/
theorem ownProps_membershipOf {includedRefs excludedRefs : List String}
    (hinc : "__proto__" ∉ includedRefs) (hexc : "__proto__" ∉ excludedRefs) :
    ownProps (membershipOf includedRefs excludedRefs) =
      marked {ref | ref ∈ includedRefs} {ref | ref ∈ excludedRefs} := by
  have hempty : ∀ refs : List String, {ref | ref ∈ refs} = (∅ : Set String) ↔ refs = [] := by
    intro refs
    rw [Set.eq_empty_iff_forall_notMem, List.eq_nil_iff_forall_not_mem]
    rfl
  unfold ownProps membershipOf marked
  simp only [hempty]
  split_ifs with h
  · rfl
  · rw [Option.map_some]
    congr 1
    funext name
    rw [lookup_assignRefs _ _ _ hinc, lookup_assignRefs _ _ _ hexc]
    unfold marks
    congr

/-! ## The reads of a run -/

namespace Sys

variable {ι : Type} {s t : Sys ι}

/-- The refs in the include set of a user, as the stores of a connection name it. -/
def included (s : Sys ι) (c : ι) (userHash : String) : Set String :=
  membersAt s.db (includeKey (s.conn c).state userHash)

/-- The refs in the exclude set. -/
def excluded (s : Sys ι) (c : ι) (userHash : String) : Set String :=
  membersAt s.db (excludeKey (s.conn c).state userHash)

/-- The membership of a user in a state: no membership where both sets are empty, and otherwise the
refs of both sets, `true` for those of the include set. -/
noncomputable def membership (s : Sys ι) (c : ι) (userHash : String) :
    Option (String → Option Bool) :=
  marked (s.included c userHash) (s.excluded c userHash)

/-- No ref of the user is `__proto__`. -/
def OrdinaryRefs (s : Sys ι) (c : ι) (userHash : String) : Prop :=
  "__proto__" ∉ s.included c userHash ∪ s.excluded c userHash

end Sys

/-- Only the callback of the first read passes the callback of the second, with the refs of its
reply. -/
theorem smembersExclude_passed {cb : Callback} (hcb : Awaited cb) {state : StoreState}
    {reply : Reply} {userHash : String} {refs : List String} {call : CallId}
    (h : .smembersExclude userHash refs call ∈ (cb.resume state reply).passed) :
    cb = .smembersInclude userHash call ∧ reply ≠ .error ∧ refs = refsOf reply := by
  obtain ⟨hcall, hop⟩ := (resume_worksFor hcb reply).passed h
  cases hcb with
  | includes userHash' call' =>
    obtain rfl : userHash = userHash' := by simpa [Callback.op] using hop
    obtain rfl : call = call' := hcall
    rw [Callback.resume, onIncludedRefs] at h
    split_ifs at h with herror
    · simp [Js.passed, Js.issued, answer] at h
    · exact ⟨rfl, herror, by simpa [Js.passed, Js.issued, issue] using h⟩
  | excludes userHash' refs' call' =>
    rw [Callback.resume, onExcludedRefs] at h
    split_ifs at h <;> simp [Js.passed, Js.issued, answer] at h
  | _ => cases hop

/-- The call passes the callback of the first read alone. -/
theorem smembersExclude_not_started (state : StoreState) (call call' : CallId) (op : Op)
    (userHash : String) (refs : List String) :
    .smembersExclude userHash refs call ∉ (op.start state call').passed := by
  intro h
  obtain ⟨-, rfl⟩ := (start_worksFor _ _ op).passed h
  simp [Callback.op, Op.start, getUserMembership, Js.passed, Js.issued, issue] at h

/-- A membership is the answer of the second read's callback alone. -/
theorem membership_answered {cb : Callback} (hcb : Awaited cb) {state : StoreState} {reply : Reply}
    {call : CallId} {m : Option (PlainObject Bool)}
    (h : (call, .membership m) ∈ (cb.resume state reply).answered) :
    ∃ userHash refs, cb = .smembersExclude userHash refs call ∧ reply ≠ .error ∧
      m = membershipOf refs (refsOf reply) := by
  have hmay := resume_mayAnswer hcb state reply _ h
  cases hcb with
  | includes userHash call' =>
    rw [Callback.resume, onIncludedRefs] at h
    split_ifs at h <;> simp [answer, issue, Js.answered] at h
  | excludes userHash refs call' =>
    rw [Callback.resume, onExcludedRefs] at h
    split_ifs at h with herror
    · simp [answer, Js.answered] at h
    · obtain ⟨rfl, rfl⟩ : call = call' ∧ m = membershipOf refs (refsOf reply) := by
        simpa [answer, Js.answered] using h
      exact ⟨userHash, refs, rfl, herror, rfl⟩
  | _ => cases hmay

/-- No call is answered with a membership at once. -/
theorem membership_not_started (state : StoreState) (call call' : CallId) (op : Op)
    (m : Option (PlainObject Bool)) : (call, .membership m) ∉ (op.start state call').answered := by
  intro h
  have hmay := start_mayAnswer state call' op _ h
  cases op with
  | getUserMembership userHash => cases h
  | _ => cases hmay

/-- A failed read rejects the promise, and nothing is left of the call. -/
theorem membership_rejected {cb : Callback} (hcb : Awaited cb) {userHash : String}
    (hop : cb.op = .getUserMembership userHash) (state : StoreState) :
    (cb.resume state .error).Does [] [(cb.call, .rejected)] [] := by
  cases hcb with
  | includes userHash' call => exact ⟨rfl, rfl, rfl⟩
  | excludes userHash' refs call => exact ⟨rfl, rfl, rfl⟩
  | _ => cases hop

namespace Sys

variable {ι : Type} [DecidableEq ι] {s t : Sys ι} {c : ι} {userHash : String} {call : CallId}
  {ls : List (Label ι)}

/-- The first read found the include set of the state in which it was executed. -/
theorem include_of_outbox (h₀ : Fresh s) (h : run s ls = some t) {reply : Reply}
    (hmem : (.smembersInclude userHash call, reply) ∈ (t.conn c).outbox) (hreply : reply ≠ .error) :
    ∃ ls₁ ls₂ v, ls = ls₁ ++ .serve c .none :: ls₂ ∧ run s ls₁ = some v ∧
      run v (.serve c .none :: ls₂) = some t ∧ InProgress v c call ∧
      {ref | ref ∈ refsOf reply} = v.included c userHash := by
  obtain ⟨ls₁, ls₂, v, fault, request, hls, hv, hvt, hwaits, hissued, hcb, hr, hfault⟩ :=
    executed_of_outbox h₀ h hmem hreply
  cases hissued with
  | includes userHash' call' =>
    cases hcb
    obtain rfl | ⟨-, queue, hqueue⟩ := hfault
    · refine ⟨ls₁, ls₂, v, hls, hv, hvt, inProgress_of_callback h₀ hv hwaits, ?_⟩
      subst hr
      exact Set.ext fun ref => mem_refsOf_read hreply ref
    · cases hqueue
  | _ => cases hcb

/-- The second read found the exclude set of the state in which it was executed. -/
theorem exclude_of_outbox (h₀ : Fresh s) (h : run s ls = some t) {refs : List String} {reply : Reply}
    (hmem : (.smembersExclude userHash refs call, reply) ∈ (t.conn c).outbox)
    (hreply : reply ≠ .error) :
    ∃ ls₁ ls₂ w, ls = ls₁ ++ .serve c .none :: ls₂ ∧ run s ls₁ = some w ∧
      run w (.serve c .none :: ls₂) = some t ∧ InProgress w c call ∧
      .smembersExclude userHash refs call ∈ (w.conn c).callbacks ∧
      {ref | ref ∈ refsOf reply} = w.excluded c userHash := by
  obtain ⟨ls₁, ls₂, w, fault, request, hls, hw, hwt, hwaits, hissued, hcb, hr, hfault⟩ :=
    executed_of_outbox h₀ h hmem hreply
  cases hissued with
  | excludes userHash' refs' call' =>
    cases hcb
    obtain rfl | ⟨-, queue, hqueue⟩ := hfault
    · refine ⟨ls₁, ls₂, w, hls, hw, hwt, inProgress_of_callback h₀ hw hwaits, hwaits, ?_⟩
      subst hr
      exact Set.ext fun ref => mem_refsOf_read hreply ref
    · cases hqueue
  | _ => cases hcb

/-- While the second read is under way, its callback holds what the first one found, in a state
before. -/
theorem include_of_exclude (h₀ : Fresh s) (h : run s ls = some t) {refs : List String}
    (hmem : .smembersExclude userHash refs call ∈ (t.conn c).callbacks) :
    ∃ ls₁ ls₂ v, ls = ls₁ ++ .serve c .none :: ls₂ ∧ run s ls₁ = some v ∧
      run v (.serve c .none :: ls₂) = some t ∧ InProgress v c call ∧
      {ref | ref ∈ refs} = v.included c userHash := by
  have hnone : .smembersExclude userHash refs call ∉ (s.conn c).callbacks := by
    simp [Conn.callbacks, h₀.inbox c, h₀.outbox c]
  -- The callback appears when that of the first read runs.
  obtain ⟨ls₁, l, ls₂, u, v, rfl, hu, hnu, huv, hv, hvt⟩ := Transition.exists_step_of_run
    (P := fun u : Sys ι => .smembersExclude userHash refs call ∈ (u.conn c).callbacks) hnone hmem h
  rcases (passed_of_step huv hv).resolve_left hnu with ⟨op, -, hstart⟩ | ⟨cb, reply, rest, rfl, hout, hpassed⟩
  · exact absurd hstart (smembersExclude_not_started _ _ _ op userHash refs)
  · have hcb : (cb, reply) ∈ (u.conn c).outbox := by
      rw [hout]
      exact List.mem_cons_self
    obtain ⟨rfl, hreply, rfl⟩ :=
      smembersExclude_passed ((queued_run h₀ hu c).outbox _ hcb) hpassed
    obtain ⟨ls₃, ls₄, w, rfl, hw, hwu, hprogress, hrefs⟩ := include_of_outbox h₀ hu hcb hreply
    refine ⟨ls₃, ls₄ ++ .deliver c :: ls₂, w, by simp, hw, ?_, hprogress, hrefs⟩
    exact Transition.run_append_eq_some.2 ⟨u, hwu, Transition.run_cons_eq_some.2 ⟨v, huv, hvt⟩⟩

/-- The callback of a read of the call was run on an error. -/
def ReadFails (s t : Sys ι) (ls : List (Label ι)) (c : ι) (call : CallId) : Prop :=
  ∃ ls₁ ls₂ u v cb rest, ls = ls₁ ++ .deliver c :: ls₂ ∧ run s ls₁ = some u ∧
    (u.conn c).outbox = (cb, .error) :: rest ∧ cb.call = call ∧ step u (.deliver c) = some v ∧
    run v ls₂ = some t

/-- A membership is made of the include set of one state and the exclude set of a later one. -/
theorem membership_of_states (h₀ : Fresh s) (h : run s ls = some t)
    (hcalled : .called c call (.getUserMembership userHash) ∈ t.log)
    (hrefs : Along (fun u _ => OrdinaryRefs u c userHash) s ls) {m : Option (PlainObject Bool)}
    (hm : .answered c call (.membership m) ∈ t.log) :
    ∃ ls₁ ls₂ ls₃ v w, ls = ls₁ ++ (ls₂ ++ ls₃) ∧ run s ls₁ = some v ∧ run v ls₂ = some w ∧
      run w ls₃ = some t ∧ InProgress v c call ∧ InProgress w c call ∧
      ownProps m = marked (v.included c userHash) (w.excluded c userHash) := by
  obtain ⟨ls₀, l, ls₄, u, x, rfl, hu, hux, hxt, hgiven⟩ := step_of_called_answered h₀ h hcalled hm
  obtain ⟨cb, reply, rfl, hmem, hcb, hop, -, hanswer⟩ := hgiven.resolve_left fun ⟨_, hbad⟩ =>
    membership_not_started _ _ _ _ m hbad
  obtain ⟨userHash', refs, rfl, hreply, rfl⟩ := membership_answered hcb hanswer
  obtain rfl : userHash = userHash' := (Op.getUserMembership.inj hop).symm
  obtain ⟨ls₁, ls₂, w, rfl, hw, hwu, hwp, hwaits, hexcluded⟩ := exclude_of_outbox h₀ hu hmem hreply
  obtain ⟨ls₅, ls₆, v, rfl, hv, hvw, hvp, hincluded⟩ := include_of_exclude h₀ hw hwaits
  have hvord : OrdinaryRefs v c userHash := by
    rw [List.append_assoc, List.append_assoc] at hrefs
    exact ((Transition.along_append hv).1 hrefs).2.1
  have hword : OrdinaryRefs w c userHash := by
    rw [List.append_assoc] at hrefs
    exact ((Transition.along_append hw).1 hrefs).2.1
  refine ⟨ls₅, .serve c .none :: ls₆, .serve c .none :: ls₂ ++ .deliver c :: ls₄, v, w, by simp, hv,
    hvw, ?_, hvp, hwp, ?_⟩
  · exact Transition.run_append_eq_some.2
      ⟨u, hwu, Transition.run_cons_eq_some.2 ⟨x, hux, hxt⟩⟩
  · have hinc : "__proto__" ∉ refs := by
      intro hbad
      have hmem' : "__proto__" ∈ {ref | ref ∈ refs} := hbad
      rw [hincluded] at hmem'
      exact hvord (.inl hmem')
    have hexc : "__proto__" ∉ refsOf reply := by
      intro hbad
      have hmem' : "__proto__" ∈ {ref | ref ∈ refsOf reply} := hbad
      rw [hexcluded] at hmem'
      exact hword (.inr hmem')
    rw [ownProps_membershipOf hinc hexc, hincluded, hexcluded]

/-- A failed read rejects the call, which is answered with no membership. -/
theorem rejected_of_readFails (h₀ : Fresh s) (h : run s ls = some t)
    (hcalled : .called c call (.getUserMembership userHash) ∈ t.log)
    (hfails : ReadFails s t ls c call) :
    .answered c call .rejected ∈ t.log ∧ ∀ m, .answered c call (.membership m) ∉ t.log := by
  obtain ⟨ls₁, ls₂, u, v, cb, rest, -, hu, hout, rfl, huv, hvt⟩ := hfails
  have hmem : (cb, .error) ∈ (u.conn c).outbox := by
    rw [hout]
    exact List.mem_cons_self
  have hop : cb.op = .getUserMembership userHash := by
    have hut : run u (.deliver c :: _) = some t := Transition.run_cons_eq_some.2 ⟨v, huv, hvt⟩
    exact op_of_callback (called_run h₀ hu) (called_run h₀ h) hut
      (Conn.mem_callbacks.2 (.inl ⟨_, hmem⟩)) hcalled
  obtain ⟨cb', reply, rest', hs⟩ := deliver_step huv
  obtain ⟨hhead, -⟩ := List.cons.inj (hout.symm.trans hs.outbox)
  obtain ⟨rfl, rfl⟩ := Prod.mk.inj hhead
  have hrejected : .answered c cb.call .rejected ∈ t.log := by
    refine mem_log_of_run hvt ?_
    rw [hs.log, List.mem_append]
    refine .inr (answered_mem_eventsOf.2 ⟨rfl, ?_⟩)
    rw [(membership_rejected ((queued_run h₀ hu c).outbox _ hmem) hop _).answered]
    exact List.mem_cons_self
  refine ⟨hrejected, fun m hm => ?_⟩
  cases (answered_once h₀ h).answer_unique hrejected hm

/-- In every run with a call of `getUserMembership`, through updates of the two sets by others, faults,
and lost connections: a membership that the call is answered with is made of the include set in a
state `v` and the exclude set in a state `w` not before it, both between the call and the answer; it is
the membership of a single state exactly if that state has the include set of `v` and, outside of it,
the exclude set of `w`; and if a read fails, the promise is rejected and there is no membership. -/
theorem membership_two_reads (h₀ : Fresh s) (h : run s ls = some t)
    (hcalled : .called c call (.getUserMembership userHash) ∈ t.log)
    (hrefs : Along (fun u _ => OrdinaryRefs u c userHash) s ls) :
    (∀ m, .answered c call (.membership m) ∈ t.log →
      ∃ ls₁ ls₂ ls₃ v w, ls = ls₁ ++ (ls₂ ++ ls₃) ∧ run s ls₁ = some v ∧ run v ls₂ = some w ∧
        run w ls₃ = some t ∧ InProgress v c call ∧ InProgress w c call ∧
        ownProps m = marked (v.included c userHash) (w.excluded c userHash) ∧
        ∀ x : Sys ι, ownProps m = x.membership c userHash ↔
          x.included c userHash = v.included c userHash ∧
            x.excluded c userHash \ x.included c userHash =
              w.excluded c userHash \ v.included c userHash) ∧
    (ReadFails s t ls c call →
      .answered c call .rejected ∈ t.log ∧ ∀ m, .answered c call (.membership m) ∉ t.log) := by
  refine ⟨fun m hm => ?_, rejected_of_readFails h₀ h hcalled⟩
  obtain ⟨ls₁, ls₂, ls₃, v, w, hls, hv, hvw, hwt, hvp, hwp, hprops⟩ :=
    membership_of_states h₀ h hcalled hrefs hm
  refine ⟨ls₁, ls₂, ls₃, v, w, hls, hv, hvw, hwt, hvp, hwp, hprops, fun x => ?_⟩
  calc ownProps m = x.membership c userHash
      ↔ x.membership c userHash = marked (v.included c userHash) (w.excluded c userHash) := by
        rw [hprops, eq_comm]
    _ ↔ _ := marked_eq_iff

/-! ## A moved segment -/

/-- A database with the two sets of the user `u`. -/
def setsDb (include? exclude? : Option Value) : Db :=
  Function.update (Function.update (fun _ => none) (includeKey connectedState "u") include?)
    (excludeKey connectedState "u") exclude?

/-- Between the two reads, another program moves the segment `a` from the exclude set to the include
set. -/
def movedSegment : List (Label Unit) :=
  [.call () (.getUserMembership "u"), .serve () .none, .deliver (),
    .foreign [(includeKey connectedState "u", some (.set ["a"])),
      (excludeKey connectedState "u", none)],
    .serve () .none, .deliver ()]

/-- One of the two sets of the user `u` is `{a}`, and the other one is missing. -/
def OneSegment (s : Sys Unit) : Prop :=
  (s.conn ()).state = connectedState ∧
    (s.db (includeKey connectedState "u") = some (.set ["a"]) ∧
        s.db (excludeKey connectedState "u") = none ∨
      s.db (includeKey connectedState "u") = none ∧
        s.db (excludeKey connectedState "u") = some (.set ["a"]))

instance (s : Sys Unit) : Decidable (OneSegment s) := inferInstanceAs (Decidable (_ ∧ _))

/-- A missing set has no members. -/
theorem membersAt_none {db : Db} {key : Key} (h : db key = none) : membersAt db key = ∅ := by
  rw [Set.eq_empty_iff_forall_notMem]
  rintro ref ⟨refs, hrefs, -⟩
  rw [h] at hrefs
  cases hrefs

/-- The members of a set. -/
theorem mem_membersAt {db : Db} {key : Key} {refs : List String} (h : db key = some (.set refs))
    (ref : String) : ref ∈ membersAt db key ↔ ref ∈ refs := by
  constructor
  · rintro ⟨refs', hrefs, href⟩
    rw [h] at hrefs
    cases hrefs
    exact href
  · exact fun href => ⟨refs, h, href⟩

/-- Such a state has a membership, and the user no ref `__proto__`. -/
theorem OneSegment.membership {s : Sys Unit} (h : OneSegment s) :
    s.membership () "u" ≠ none ∧ OrdinaryRefs s () "u" := by
  obtain ⟨hstate, hsets⟩ := h
  unfold Sys.membership OrdinaryRefs included excluded
  rw [Ne, marked_eq_none, hstate, Set.mem_union]
  rcases hsets with ⟨hinc, hexc⟩ | ⟨hinc, hexc⟩
  · rw [membersAt_none hexc, mem_membersAt hinc, Set.eq_empty_iff_forall_notMem]
    refine ⟨fun hnone => hnone.1 "a" ((mem_membersAt hinc "a").2 (by decide)), ?_⟩
    simp
  · rw [membersAt_none hinc, mem_membersAt hexc, Set.eq_empty_iff_forall_notMem]
    refine ⟨fun hnone => ?_, by simp⟩
    have hmem := (mem_membersAt hexc "a").2 (by decide)
    rw [hnone.2] at hmem
    cases hmem

/-- The entries of the membership that the last event of a history answers the call with. -/
def lastMembership (log : List (Event Unit)) :
    Option (CallId × Option (List (Sigma fun _ : String => Bool))) :=
  match log.getLast? with
  | some (.answered _ call (.membership m)) => some (call, m.map fun o => o.own.entries)
  | _ => none

theorem answered_of_lastMembership {log : List (Event Unit)} {call : CallId}
    {entries : Option (List (Sigma fun _ : String => Bool))}
    (h : lastMembership log = some (call, entries)) :
    ∃ m, .answered () call (.membership m) ∈ log ∧ m.map (fun o => o.own.entries) = entries := by
  unfold lastMembership at h
  split at h
  · next call' m hlast =>
    obtain ⟨rfl, rfl⟩ := Prod.mk.inj (Option.some.inj h)
    exact ⟨m, List.mem_of_getLast? hlast, rfl⟩
  · cases h

/-- A call that is answered with no membership, while the user has one in every state of the run. -/
theorem membership_torn :
    ∃ (s t : Sys Unit) (m : Option (PlainObject Bool)), Fresh s ∧ run s movedSegment = some t ∧
      .called () 0 (.getUserMembership "u") ∈ t.log ∧ .answered () 0 (.membership m) ∈ t.log ∧
      Along (fun u _ => OrdinaryRefs u () "u" ∧ ownProps m ≠ u.membership () "u") s movedSegment ∧
      ownProps m ≠ t.membership () "u" := by
  have halong : Along (fun u _ => OneSegment u)
      (opened (setsDb none (some (.set ["a"]))) fun _ => connectedState) movedSegment := by
    decide +kernel
  have hend : (run (opened (setsDb none (some (.set ["a"]))) fun _ => connectedState)
      movedSegment).map (fun t => lastMembership t.log) = some (some (0, none)) := by decide +kernel
  have hone : ∀ t ∈ run (opened (setsDb none (some (.set ["a"]))) fun _ => connectedState)
      movedSegment, OneSegment t := by decide +kernel
  obtain ⟨t, ht, hlast⟩ := Option.map_eq_some_iff.1 hend
  obtain ⟨m, hm, hentries⟩ := answered_of_lastMembership hlast
  obtain rfl : m = none := by simpa using hentries
  have hnone : ∀ u : Sys Unit, OneSegment u → ownProps none ≠ u.membership () "u" :=
    fun u hu => hu.membership.1.symm
  refine ⟨_, t, none, opened_fresh _ _, ht, ?_, hm, ?_, hnone t (hone t ht)⟩
  · obtain ⟨u, hu, hrest⟩ := Transition.run_cons_eq_some.1 ht
    exact mem_log_of_run hrest (by rw [(call_step hu).log]; simp [opened])
  · exact halong.mono fun u _ hu => ⟨hu.membership.2, hnone u hu⟩

/-- A user with one excluded segment: the membership is that of both sets. -/
theorem membership_two_reads_excluded :
    ∃ (t : Sys Unit) (m : Option (PlainObject Bool)),
      .answered () 0 (.membership m) ∈ t.log ∧
      m.map (fun o => o.own.entries) = some [⟨"a", false⟩] ∧
      ∃ v w : Sys Unit, InProgress v () 0 ∧ InProgress w () 0 ∧
        ownProps m = marked (v.included () "u") (w.excluded () "u") := by
  have halong : Along (fun u _ => OneSegment u)
      (opened (setsDb none (some (.set ["a"]))) fun _ => connectedState)
      [.call () (.getUserMembership "u"), .serve () .none, .deliver (), .serve () .none,
        .deliver ()] := by
    decide +kernel
  have hend : (run (opened (setsDb none (some (.set ["a"]))) fun _ => connectedState)
      [.call () (.getUserMembership "u"), .serve () .none, .deliver (), .serve () .none,
        .deliver ()]).map (fun t => lastMembership t.log) =
        some (some (0, some [⟨"a", false⟩])) := by decide +kernel
  obtain ⟨t, ht, hlast⟩ := Option.map_eq_some_iff.1 hend
  obtain ⟨m, hm, hentries⟩ := answered_of_lastMembership hlast
  have hcalled : .called () 0 (.getUserMembership "u") ∈ t.log := by
    obtain ⟨u, hu, hrest⟩ := Transition.run_cons_eq_some.1 ht
    exact mem_log_of_run hrest (by rw [(call_step hu).log]; simp [opened])
  obtain ⟨_, _, _, v, w, -, -, -, -, hv, hw, hprops, -⟩ :=
    (membership_two_reads (opened_fresh _ _) ht hcalled
      (halong.mono fun u _ hu => hu.membership.2)).1 m hm
  exact ⟨t, m, hm, hentries, v, w, hv, hw, hprops⟩

end Sys

end RedisStore
