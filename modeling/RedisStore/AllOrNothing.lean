import RedisStore.Semantics.Contents
import RedisStore.Commit
import RedisStore.Answers
import RedisStore.Init
import RedisStore.Version

/-!
# Inits are all or nothing

The commits of a run, in their order, are a history of edits: an upsert puts a text in its field, and
an init replaces the maps of the kinds that its data names. At every instant of every run each kind's
hash holds what this history says, whatever the interleaving and however the inits end (`Tracks`). An
init that is not committed is in no history, and no other step changes the database. What `EXISTS`
says of the init marker follows (`init_all_or_nothing`). The one exception is an item with the key
`__proto__`, which a committed init leaves out.
-/

namespace RedisStore

open Redis Contents

/-- The edit that an event commits. -/
def Event.edit? {ι : Type} : Event ι → Option (Edit Kind String String)
  | .executed _ ⟨.exec _, some (.upsertExec kind item _)⟩ reply _ =>
    if reply.committed then some (.put kind item.key item.text) else none
  | .executed _ ⟨.exec _, some (.initExec allData _)⟩ reply _ =>
    if reply.committed then some (.replace (initTexts allData)) else none
  | _ => none

/-- The event is the commit of an init. -/
def Event.commitsInit {ι : Type} : Event ι → Bool
  | .executed _ ⟨.exec _, some (.initExec _ _)⟩ reply _ => reply.committed
  | _ => false

/-- Only a transaction that was executed, with no write refused, is an edit. -/
theorem Event.no_edit {ι : Type} {e : Event ι}
    (h : ∀ c request reply touched, e = .executed c request reply touched → reply.committed = false) :
    e.edit? = none ∧ e.commitsInit = false := by
  unfold edit? commitsInit
  constructor
  · split
    · next reply _ => rw [h _ _ reply _ rfl]; rfl
    · next reply _ => rw [h _ _ reply _ rfl]; rfl
    · rfl
  · split
    · next reply _ => exact h _ _ reply _ rfl
    · rfl

namespace Sys

variable {ι : Type}

/-- The transaction of an init that is the next command of an inbox, with the data of the init. -/
def nextInit : List Request → Option (Multi × AllData)
  | ⟨.exec multi, some (.initExec allData _)⟩ :: _ => some (multi, allData)
  | _ => none

/-- If the step executes the transaction of an init, no item in its data has the key `__proto__`, and no
write of it is refused. -/
def CommitsWhole (s : Sys ι) : Label ι → Prop
  | .serve c fault => fault ≠ .error → (s.conn c).session.dirty = false →
      ∀ p ∈ nextInit (s.conn c).inbox, NoProtoKey p.2 ∧ ∀ w ∈ p.1, w ∉ fault.refused
  | _ => True

instance (s : Sys ι) : ∀ l, Decidable (CommitsWhole s l)
  | .serve c fault => inferInstanceAs (Decidable (fault ≠ .error →
      (s.conn c).session.dirty = false → ∀ p ∈ nextInit (s.conn c).inbox,
        NoProtoKey p.2 ∧ ∀ w ∈ p.1, w ∉ fault.refused))
  | .call _ _ => .isTrue trivial
  | .deliver _ => .isTrue trivial
  | .lose _ _ => .isTrue trivial
  | .regain _ => .isTrue trivial
  | .foreign _ => .isTrue trivial

variable [DecidableEq ι] {s t : Sys ι} {l : Label ι} {state : StoreState} {db₀ : Db}

/-- A step that commits nothing adds no edit to the history. -/
theorem log_of_noCommit (h : step s l = some t) (hno : NoCommit s t) :
    ∃ es, t.log = s.log ++ es ∧ ∀ e ∈ es, e.edit? = none ∧ e.commitsInit = false := by
  -- What the stores' code records are answers and exceptions.
  have hcode : ∀ (c : ι) (code : Code Unit), ∀ e ∈ eventsOf c code,
      e.edit? = none ∧ e.commitsInit = false := by
    intro c code e he
    rcases List.mem_append.mp he with he | he
    · obtain ⟨a, -, rfl⟩ := List.mem_map.1 he
      exact ⟨rfl, rfl⟩
    · obtain ⟨x, -, rfl⟩ := List.mem_map.1 he
      exact ⟨rfl, rfl⟩
  cases l with
  | call c op =>
    refine ⟨_, (call_step h).log, fun e he => ?_⟩
    rcases List.mem_cons.mp he with rfl | he
    · exact ⟨rfl, rfl⟩
    · exact hcode c _ e he
  | serve c fault =>
    obtain ⟨request, rest, hs⟩ := serve_step h
    refine ⟨_, hs.log, fun e he => ?_⟩
    obtain rfl := List.mem_singleton.1 he
    refine Event.no_edit fun c' request' reply touched heq => ?_
    cases reply with
    | replies rs => exact absurd (by rw [hs.log, heq]) (hno c' request' rs touched)
    | _ => rfl
  | deliver c =>
    obtain ⟨_, _, _, hs⟩ := deliver_step h
    exact ⟨_, hs.log, hcode c _⟩
  | lose c kept =>
    exact ⟨_, (lose_step h).log, fun e he => by obtain rfl := List.mem_singleton.1 he; exact ⟨rfl, rfl⟩⟩
  | regain c =>
    exact ⟨_, (regain_step h).log, fun e he => by
      obtain rfl := List.mem_singleton.1 he; exact ⟨rfl, rfl⟩⟩
  | foreign values =>
    exact ⟨_, (foreign_step h).log, fun e he => by
      obtain rfl := List.mem_singleton.1 he; exact ⟨rfl, rfl⟩⟩

/-- The database holds what the history of commits says, from the start `db₀`. -/
structure Tracks (state : StoreState) (db₀ : Db) (s : Sys ι) : Prop where
  queued : ∀ c, (s.conn c).Queued
  itemsPrefix : ∀ c, (s.conn c).state.itemsPrefix = state.itemsPrefix
  hashlike : ∀ kind, Hashlike (s.db (itemsKey state kind))
  content : ∀ kind field, fieldOf (s.db (itemsKey state kind)) field =
    after (fun kind => fieldOf (db₀ (itemsKey state kind))) (s.log.filterMap Event.edit?) kind field
  inited : (s.db (initedKey state)).isSome = true ↔
    (db₀ (initedKey state)).isSome = true ∨ ∃ e ∈ s.log, e.commitsInit = true

/-- A step that commits nothing. -/
theorem Tracks.unchanged (hs : Tracks state db₀ s) (h : step s l = some t) {es : List (Event ι)}
    (hlog : t.log = s.log ++ es) (hes : ∀ e ∈ es, e.edit? = none ∧ e.commitsInit = false)
    (hdb : t.db = s.db) : Tracks state db₀ t := by
  have hedits : t.log.filterMap Event.edit? = s.log.filterMap Event.edit? := by
    rw [hlog, List.filterMap_append, List.filterMap_eq_nil_iff.2 fun e he => (hes e he).1,
      List.append_nil]
  have hinits : (∃ e ∈ t.log, e.commitsInit = true) ↔ ∃ e ∈ s.log, e.commitsInit = true := by
    rw [hlog]
    constructor
    · rintro ⟨e, he, hc⟩
      rcases List.mem_append.mp he with he | he
      · exact ⟨e, he, hc⟩
      · rw [(hes e he).2] at hc
        cases hc
    · rintro ⟨e, he, hc⟩
      exact ⟨e, List.mem_append_left _ he, hc⟩
  refine ⟨queued_step hs.queued h, fun c => (step_itemsPrefix h c).trans (hs.itemsPrefix c), ?_, ?_, ?_⟩
  · rw [hdb]
    exact hs.hashlike
  · rw [hdb, hedits]
    exact hs.content
  · rw [hdb, hs.inited, hinits]

/-- A step that commits an upsert puts the text in its field. -/
theorem Tracks.put (hs : Tracks state db₀ s) (h : step s l = some t) {c : ι} {kind : Kind}
    {item : Item} {call : CallId} {reply : Reply} {touched : List Key} (hreply : reply.committed = true)
    (hdb : t.db = (runWrites [.hset (itemsKey (s.conn c).state kind) item.key item.text] s.db).db)
    (hlog : t.log = s.log ++
      [.executed c (writeRequest (s.conn c).state kind item call) reply touched]) :
    Tracks state db₀ t := by
  rw [itemsKey_congr (hs.itemsPrefix c) kind] at hdb
  have hedits : t.log.filterMap Event.edit? =
      s.log.filterMap Event.edit? ++ [.put kind item.key item.text] := by
    rw [hlog, List.filterMap_append]
    simp [writeRequest, Event.edit?, hreply]
  refine ⟨queued_step hs.queued h, fun c => (step_itemsPrefix h c).trans (hs.itemsPrefix c),
    fun kind' => ?_, fun kind' field => ?_, ?_⟩
  · rw [hdb, runWrites_hset]
    by_cases hk : kind' = kind
    · subst hk
      rw [Function.update_self]
      exact hashlike_hset (hs.hashlike kind') _ _ _
    · rw [Function.update_of_ne (mt itemsKey_inj.1 hk)]
      exact hs.hashlike kind'
  · rw [hdb, fieldOf_runWrites_hset (hs.hashlike kind), hedits, after_concat, apply_put, ← hs.content]
    simp only [itemsKey_inj]
  · -- The marker is under a key of its own.
    rw [hdb, runWrites_hset, Function.update_of_ne (itemsKey_ne_initedKey state state kind).symm,
      hs.inited, hlog]
    simp [writeRequest, Event.commitsInit]

/-- A step that commits an init replaces the maps of the kinds that its data names, and sets the
marker. -/
theorem Tracks.replace (hs : Tracks state db₀ s) (h : step s l = some t) {c : ι} {allData : AllData}
    {call : CallId} {multi : Multi} {reply : Reply} {touched : List Key}
    (hreply : reply.committed = true) (hproto : NoProtoKey allData)
    (hbuild : buildInit (s.conn c).state allData = .ok multi)
    (hdb : t.db = (runWrites multi s.db).db)
    (hlog : t.log = s.log ++
      [.executed c ⟨.exec multi, some (.initExec allData call)⟩ reply touched]) :
    Tracks state db₀ t := by
  rw [buildInit_congr (hs.itemsPrefix c)] at hbuild
  have hedits : t.log.filterMap Event.edit? =
      s.log.filterMap Event.edit? ++ [.replace (initTexts allData)] := by
    rw [hlog, List.filterMap_append]
    simp [Event.edit?, hreply]
  have hfield := fun kind => fieldOf_buildInit hproto hbuild (hs.hashlike kind)
  refine ⟨queued_step hs.queued h, fun c => (step_itemsPrefix h c).trans (hs.itemsPrefix c),
    fun kind => ?_, fun kind field => ?_, ?_⟩
  · rw [hdb]
    exact (hfield kind).1
  · rw [hdb, (hfield kind).2, hedits, after_concat, apply_replace, funext (hs.content kind)]
  · rw [hdb, (runWrites_buildInit hbuild s.db).2.1, hlog]
    simp [Event.commitsInit, hreply]

/-- What a step of the stores does where the kinds' keys are missing or hold hashes: it commits nothing and
changes nothing, or it commits an upsert or an init. -/
inductive WholeChange (s t : Sys ι) : Prop where
  | nothing {es : List (Event ι)} (hlog : t.log = s.log ++ es)
    (hes : ∀ e ∈ es, e.edit? = none ∧ e.commitsInit = false) (hdb : t.db = s.db)
  | upsert {c : ι} {kind : Kind} {item : Item} {call : CallId} {reply : Reply} {touched : List Key}
    (hreply : reply.committed = true)
    (hdb : t.db = (runWrites [.hset (itemsKey (s.conn c).state kind) item.key item.text] s.db).db)
    (hlog : t.log = s.log ++
      [.executed c (writeRequest (s.conn c).state kind item call) reply touched])
  | init {c : ι} {allData : AllData} {call : CallId} {multi : Multi} {reply : Reply}
    {touched : List Key} (hreply : reply.committed = true) (hproto : NoProtoKey allData)
    (hbuild : buildInit (s.conn c).state allData = .ok multi)
    (hdb : t.db = (runWrites multi s.db).db)
    (hlog : t.log = s.log ++ [.executed c ⟨.exec multi, some (.initExec allData call)⟩ reply touched])

/-- If no init is executed in part, each step does one of the three. -/
theorem Tracks.wholeChange (hs : Tracks state db₀ s) (hl : NotForeign l) (hwhole : CommitsWhole s l)
    (h : step s l = some t) : WholeChange s t := by
  have hforeign : ∀ values, l ≠ .foreign values := by
    rintro values rfl
    exact hl
  cases change_of_step hs.queued h hforeign with
  | none hno hdb =>
    obtain ⟨es, hlog, hes⟩ := log_of_noCommit h hno
    exact .nothing hlog hes hdb
  | upsert c fault kind item call rest hserve hfault hin hclean hdb hlog =>
    rw [runAllowed_singleton] at hdb hlog
    split_ifs at hdb hlog
    · -- The write is refused.
      refine .nothing hlog (fun e he => ?_) hdb
      obtain rfl := List.mem_singleton.1 he
      exact ⟨rfl, rfl⟩
    · refine .upsert ((committed_runWrites_hset _ _ _ _).2 ?_) hdb hlog
      rw [itemsKey_congr (hs.itemsPrefix c) kind]
      exact hs.hashlike kind
  | init c fault allData call multi rest hserve hfault hin hclean hbuild hdb hlog =>
    subst hserve
    rw [CommitsWhole, hin] at hwhole
    obtain ⟨hproto, hallowed⟩ := hwhole hfault hclean (multi, allData) rfl
    rw [runAllowed_of_not_mem hallowed] at hdb
    exact .init ((committed_runAllowed_buildInit hbuild s.db _).2 hallowed) hproto hbuild hdb hlog

/-- A step of the stores keeps the database in line with the history. -/
theorem tracks_step (hs : Tracks state db₀ s) (hl : NotForeign l) (hwhole : CommitsWhole s l)
    (h : step s l = some t) : Tracks state db₀ t := by
  cases hs.wholeChange hl hwhole h with
  | nothing hlog hes hdb => exact hs.unchanged h hlog hes hdb
  | upsert hreply hdb hlog => exact hs.put h hreply hdb hlog
  | init hreply hproto hbuild hdb hlog => exact hs.replace h hreply hproto hbuild hdb hlog

omit [DecidableEq ι] in
/-- At the start. -/
theorem Fresh.tracks (h₀ : Fresh s) (hsame : ∀ c, (s.conn c).state.itemsPrefix = state.itemsPrefix)
    (hhash : ∀ kind, Hashlike (s.db (itemsKey state kind))) : Tracks state s.db s where
  queued := h₀.queued
  itemsPrefix := hsame
  hashlike := hhash
  content kind field := by rw [h₀.log]; rfl
  inited := by simp [h₀.log]

/-! ## The init marker -/

/-- No call answers at once whether the store is initialized. -/
theorem inited_notMem_start (state : StoreState) (call call' : CallId) (op : Op) (b : Bool) :
    (call', .inited b) ∉ (op.start state call).answered := by
  intro h
  have hmay := start_mayAnswer state call op _ h
  cases op with
  | initializedInternal => exact (initializedInternal_does state call).not_answer h
  | _ => cases hmay

/-- Only the callback of `EXISTS` answers whether the store is initialized, with what its reply
says. -/
theorem eq_initedExists_of_answered {state : StoreState} {cb : Callback} (hcb : Awaited cb)
    {reply : Reply} {call : CallId} {b : Bool}
    (h : (call, .inited b) ∈ (cb.resume state reply).answered) :
    cb = .initedExists call ∧ b = replyInited reply := by
  have hmay := resume_mayAnswer hcb state reply _ h
  cases hcb with
  | inited call' =>
    rw [Callback.resume, (onInitedExists_does call' reply).answered] at h
    simp only [List.mem_singleton, Prod.mk.injEq, Answer.inited.injEq] at h
    exact ⟨by rw [h.1], h.2⟩
  | _ => cases hmay

/-- Where an answer of `initializedInternal` comes from: the reply of its `EXISTS` to the callback,
which is an error, or says whether the marker was there when the server executed the command. -/
theorem inited_of_answered {ls : List (Label ι)} (h₀ : Fresh s) (h : run s ls = some t) {c : ι}
    {call : CallId} {b : Bool} (hans : .answered c call (.inited b) ∈ t.log) :
    ∃ ls₁ ls₂ u reply rest, ls = ls₁ ++ .deliver c :: ls₂ ∧ run s ls₁ = some u ∧
      (u.conn c).outbox = (.initedExists call, reply) :: rest ∧ b = replyInited reply ∧
      (reply ≠ .error → ∃ ls₃ ls₄ w, ls₁ = ls₃ ++ .serve c .none :: ls₄ ∧ run s ls₃ = some w ∧
        (∃ request rest', (w.conn c).inbox = request :: rest' ∧
          request.callback = some (.initedExists call)) ∧
        b = (w.db (initedKey (w.conn c).state)).isSome) := by
  -- The step that records the answer runs the callback of `EXISTS`.
  obtain ⟨ls₁, l, ls₂, u, v, rfl, hu, hnu, huv, hv, -⟩ := Transition.exists_step_of_run
    (P := fun u : Sys ι => .answered c call (.inited b) ∈ u.log) (by simp [h₀.log]) hans h
  have hq := queued_run h₀ hu
  rcases (answered_of_step hq huv hv).resolve_left hnu with
    ⟨op, -, -, hmem⟩ | ⟨cb, reply, rest, rfl, hout, -, hmem⟩
  · exact absurd hmem (inited_notMem_start _ _ _ op b)
  have hin : (cb, reply) ∈ (u.conn c).outbox := by rw [hout]; exact List.mem_cons_self
  obtain ⟨rfl, rfl⟩ := eq_initedExists_of_answered ((hq c).outbox _ hin) hmem
  refine ⟨ls₁, ls₂, u, reply, rest, rfl, hu, hout, rfl, fun hreply => ?_⟩
  -- Its reply, if it is no error, comes from the execution of the command.
  obtain ⟨ls₃, ls₄, ls₅, u', v', w, x, fault, request, rest', rfl, hu', -, huv', hw, -, -, hserve, hcb,
    hr, hfault⟩ := served_of_outbox h₀ hu hin hreply
  have hrun : run s (ls₃ ++ .call c .initializedInternal :: ls₄) = some w :=
    Transition.run_append_eq_some.2 ⟨u', hu', Transition.run_cons_eq_some.2 ⟨v', huv', hw⟩⟩
  -- The command is `EXISTS`, and its reply says whether the marker was there.
  have hissued := (queued_run h₀ hrun c).inbox request (by rw [hserve.inbox]; simp)
  cases hissued with
  | inited call' =>
    obtain rfl := hfault.resolve_right fun ⟨_, queue, hqueue⟩ => by cases hqueue
    refine ⟨ls₃ ++ .call c .initializedInternal :: ls₄, ls₅, w, ?_, hrun,
      ⟨_, rest', hserve.inbox, hcb⟩, ?_⟩
    · rw [List.append_assoc]
      rfl
    · rw [← hr]
      simp only [outcome, Command.serve, Command.execute, Command.read, replyInited]
      cases (w.db (initedKey (w.conn c).state)).isSome <;> rfl
  | _ => cases hcb

/-! ## Whole runs -/

/-- For every run of any number of stores on one prefix, whose kinds' keys are missing or hold hashes
at the start and which no other program writes, where no executed init has an item with the key
`__proto__` or a write that the server refuses. At its end, and so at every instant, each kind's hash is
what the commits so far make of the start; a step that commits nothing changes nothing; the init marker
is there exactly if it was at the start or an init has been committed; and that is what
`initializedInternal` answers, unless its command failed. -/
theorem init_all_or_nothing {ls : List (Label ι)} (h₀ : Fresh s)
    (hsame : ∀ c, (s.conn c).state.itemsPrefix = state.itemsPrefix)
    (hhash : ∀ kind, Hashlike (s.db (itemsKey state kind)))
    (hforeign : ∀ l ∈ ls, NotForeign l) (hwhole : Along CommitsWhole s ls)
    (h : run s ls = some t) :
    (∀ kind, Hashlike (t.db (itemsKey state kind)) ∧ ∀ field,
      fieldOf (t.db (itemsKey state kind)) field =
        after (fun kind => fieldOf (s.db (itemsKey state kind))) (t.log.filterMap Event.edit?) kind
          field) ∧
    (∀ ls₁ l ls₂ u v, ls = ls₁ ++ l :: ls₂ → run s ls₁ = some u → step u l = some v →
      v.db = u.db ∨ ∃ e, v.log = u.log ++ [e] ∧ e.edit?.isSome = true) ∧
    ((t.db (initedKey state)).isSome = true ↔
      (s.db (initedKey state)).isSome = true ∨ ∃ e ∈ t.log, e.commitsInit = true) ∧
    ∀ c call b, .answered c call (.inited b) ∈ t.log →
      ∃ ls₁ ls₂ u reply rest, ls = ls₁ ++ .deliver c :: ls₂ ∧ run s ls₁ = some u ∧
        (u.conn c).outbox = (.initedExists call, reply) :: rest ∧ b = replyInited reply ∧
        (reply ≠ .error → ∃ ls₃ ls₄ w, ls₁ = ls₃ ++ .serve c .none :: ls₄ ∧ run s ls₃ = some w ∧
          (∃ request rest', (w.conn c).inbox = request :: rest' ∧
            request.callback = some (.initedExists call)) ∧
          (b = true ↔ (s.db (initedKey state)).isSome = true ∨
            ∃ e ∈ w.log, e.commitsInit = true)) := by
  -- The invariant holds at every instant of the run.
  have htracks : ∀ {ls' ls'' : List (Label ι)} {u : Sys ι}, ls = ls' ++ ls'' →
      run s ls' = some u → Tracks state s.db u := by
    rintro ls' ls'' u rfl hu
    have halong := ((Transition.along_append hu).1 hwhole).1
    have hnot : Along (fun _ l => NotForeign l) s ls' := Transition.Along.of_forall
      fun _ l hl => hforeign l (List.mem_append_left _ hl)
    exact Transition.run_invariant
      (fun _ _ _ hs hl hstep => tracks_step hs hl.1 hl.2 hstep) (h₀.tracks hsame hhash)
      (hnot.and halong) hu
  have ht := htracks (List.append_nil ls).symm h
  refine ⟨fun kind => ⟨ht.hashlike kind, ht.content kind⟩, ?_, ht.inited, ?_⟩
  · rintro ls₁ l ls₂ u v rfl hu huv
    have hu' : Tracks state s.db u := htracks rfl hu
    cases hu'.wholeChange (hforeign l (by simp)) ((Transition.along_append hu).1 hwhole).2.1 huv with
    | nothing hlog hes hdb => exact .inl hdb
    | upsert hreply hdb hlog => exact .inr ⟨_, hlog, by simp [writeRequest, Event.edit?, hreply]⟩
    | init hreply hproto hbuild hdb hlog => exact .inr ⟨_, hlog, by simp [Event.edit?, hreply]⟩
  · intro c call b hans
    obtain ⟨ls₁, ls₂, u, reply, rest, rfl, hu, hout, hb, hserved⟩ := inited_of_answered h₀ h hans
    refine ⟨ls₁, ls₂, u, reply, rest, rfl, hu, hout, hb, fun hreply => ?_⟩
    obtain ⟨ls₃, ls₄, w, rfl, hw, hrequest, hbw⟩ := hserved hreply
    have hwt : Tracks state s.db w := htracks (List.append_assoc _ _ _) hw
    refine ⟨ls₃, ls₄, w, rfl, hw, hrequest, ?_⟩
    rw [hbw, initedKey, hwt.itemsPrefix c]
    exact hwt.inited

/-- An init of one connection between the read and the write of an upsert of another, which is then
aborted. -/
def initBetween : List (Label Bool) :=
  [.call false (.upsertInternal .features (.ofVersion "f" 2)), .serve false .none, .serve false .none,
    .call true (.initInternal (sampleData "f" 1)), .serve true .none, .deliver false,
    .serve false .none]

/-- The hash is the init's. -/
theorem init_all_or_nothing_between :
    ∃ t : Sys Bool, run (opened (sampleDb "f" 0) fun _ => connectedState) initBetween = some t ∧
      ∀ field, fieldOf (t.db (itemsKey connectedState .features)) field =
        after (fun kind => fieldOf (sampleDb "f" 0 (itemsKey connectedState kind)))
          (t.log.filterMap Event.edit?) .features field := by
  have hsome : (run (opened (sampleDb "f" 0) fun _ => connectedState) initBetween).isSome := by
    decide +kernel
  obtain ⟨t, ht⟩ := Option.isSome_iff_exists.1 hsome
  have hwhole : Along CommitsWhole (opened (sampleDb "f" 0) fun _ => connectedState) initBetween := by
    decide +kernel
  have hhash : ∀ kind, Hashlike (sampleDb "f" 0 (itemsKey connectedState kind)) := by
    intro kind
    cases kind <;> decide +kernel
  have hall := @init_all_or_nothing Bool _ (opened (sampleDb "f" 0) fun _ => connectedState) t
    connectedState initBetween (opened_fresh _ _) (fun _ => rfl) hhash
    (by simp [initBetween, NotForeign]) hwhole ht
  exact ⟨t, ht, (hall.1 .features).2⟩

/-- The init is committed, and its only item is not there. -/
theorem init_drops_proto :
    ∃ t : Sys Unit, run (opened (fun _ => none) fun _ => connectedState)
        [.call () (.initInternal (sampleData "__proto__" 1)), .serve () .none] = some t ∧
      (∃ e ∈ t.log, e.commitsInit = true) ∧
      fieldOf (t.db (itemsKey connectedState .features)) "__proto__" ≠
        after (fun kind => fieldOf ((fun _ => none : Db) (itemsKey connectedState kind)))
          (t.log.filterMap Event.edit?) .features "__proto__" := by
  have hend : ((run (opened (fun _ => none) fun _ => connectedState)
      [.call () (.initInternal (sampleData "__proto__" 1)), .serve () .none]).map fun t : Sys Unit =>
        (t.log.any Event.commitsInit, decide (fieldOf (t.db (itemsKey connectedState .features))
          "__proto__" = after (fun kind => fieldOf ((fun _ => none : Db)
            (itemsKey connectedState kind))) (t.log.filterMap Event.edit?) .features
              "__proto__"))) = some (true, false) := by decide +kernel
  obtain ⟨t, ht, hparts⟩ := Option.map_eq_some_iff.1 hend
  obtain ⟨hcommit, hfield⟩ := Prod.mk.inj hparts
  exact ⟨t, ht, List.any_eq_true.1 hcommit, of_decide_eq_false hfield⟩

end Sys

end RedisStore
