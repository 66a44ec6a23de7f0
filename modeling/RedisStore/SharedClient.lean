import RedisStore.Pending
import RedisStore.UpsertSet

/-!
# Overlapping upserts on one client

Calls on one client share its connection, and so its watches. An upsert's transaction ends the
watches of all others in progress, and its own write breaks none of theirs: no transaction is ever
aborted, and an upsert that has read before another's write overwrites it. So the end is right as
long as the writes that are under way when an upsert reads are none of a higher version
(`OverlapOrdered`, `shared_upserts_max`), and otherwise an update is lost (`shared_update_lost`).
-/

namespace RedisStore

open Redis Versioned

/-- The upsert whose read the server executes at a step. -/
def nextRead {ι : Type} (s : Sys ι) : Label ι → Option (ι × Kind × Item)
  | .serve c _ =>
    match (s.conn c).inbox with
    | ⟨_, some (.hget _ _ (.update kind item _ _))⟩ :: _ => some (c, kind, item)
    | _ => none
  | _ => none

/-- When an upsert reads that will pass its check, no write of a higher version is under way for its
key. -/
def OverlapOrdered {ι : Type} (s : Sys ι) (l : Label ι) : Prop :=
  ∀ r ∈ nextRead s l, Admits (s.db (itemsKey (s.conn r.1).state r.2.1)) r.2.2 →
    ∀ p ∈ (s.conn r.1).pending, p.1 = r.2.1 → p.2.key = r.2.2.key → p.2.version ≤ r.2.2.version

instance {ι : Type} (s : Sys ι) (l : Label ι) : Decidable (OverlapOrdered s l) :=
  match h : nextRead s l with
  | none => .isTrue fun r hr => by rw [h] at hr; cases hr
  | some r => decidable_of_iff
    (Admits (s.db (itemsKey (s.conn r.1).state r.2.1)) r.2.2 →
      ∀ p ∈ (s.conn r.1).pending, p.1 = r.2.1 → p.2.key = r.2.2.key →
        p.2.version ≤ r.2.2.version) (by simp [OverlapOrdered, h])

namespace Sys

variable {s t : Sys Unit} {l : Label Unit} {U : Kind → Item → Prop} {state : StoreState} {db₀ : Db}

/-- The writes under way are in order: each is of at least the version stored under its key, and of
at least that of the writes before it for the same key. -/
structure Chained (state : StoreState) (s : Sys Unit) : Prop where
  clean : (s.conn ()).session.dirty = false
  sorted : (s.conn ()).pending.Pairwise fun p q =>
    p.1 = q.1 → p.2.key = q.2.key → p.2.version ≤ q.2.version
  above : ∀ p ∈ (s.conn ()).pending, ∀ v,
    storedVersion (s.db (itemsKey state p.1)) p.2.key = some v → v ≤ p.2.version

/-- A step that leaves the database, the flag, and the writes under way. -/
theorem Chained.congr (hs : Chained state s) (hdb : t.db = s.db)
    (hdirty : (t.conn ()).session.dirty = (s.conn ()).session.dirty)
    (hpending : (t.conn ()).pending = (s.conn ()).pending) :
    Chained state t ∧ Grows s t state := by
  refine ⟨⟨by rw [hdirty, hs.clean], by rw [hpending]; exact hs.sorted, ?_⟩, ?_⟩
  · rw [hpending, hdb]
    exact hs.above
  · intro kind field v hv
    rwa [hdb]

/-- The execution of the next write under way: the ones behind it are of at least its version. -/
theorem Chained.commit (hu : Upserting U state db₀ s) (hs : Chained state s) {kind : Kind}
    {item : Item} {pending : List (Kind × Item)}
    (hpending : (s.conn ()).pending = (kind, item) :: pending)
    (hclean : (t.conn ()).session.dirty = false) (hpending' : (t.conn ()).pending = pending)
    (hdb : t.db =
      (runWrites [.hset (itemsKey (s.conn ()).state kind) item.key item.text] s.db).db) :
    Chained state t ∧ Grows s t state := by
  have hfield := hu.fieldOf_of_commit hdb
  have hsorted := hs.sorted
  have habove := hs.above
  rw [hpending, List.pairwise_cons] at hsorted
  rw [hpending] at habove
  -- A field holds the new text, or what it held.
  have hversion : ∀ kind' field v, storedVersion (t.db (itemsKey state kind')) field = some v →
      (kind' = kind ∧ field = item.key ∧ v = item.version) ∨
        storedVersion (s.db (itemsKey state kind')) field = some v := by
    intro kind' field v hv
    rw [storedVersion, hfield] at hv
    split_ifs at hv with hk
    · rw [Option.bind_some, textVersion_text] at hv
      exact .inl ⟨hk.1, hk.2, (Option.some.inj hv).symm⟩
    · exact .inr hv
  refine ⟨⟨hclean, by rw [hpending']; exact hsorted.2, fun p hp v hv => ?_⟩, ?_⟩
  · rw [hpending'] at hp
    rcases hversion _ _ v hv with ⟨hkind, hkey, rfl⟩ | hold
    · exact hsorted.1 p hp hkind.symm hkey.symm
    · exact habove p (List.mem_cons_of_mem _ hp) v hold
  · rintro kind' field v ⟨w, hw, hvw⟩
    rw [hfield]
    split_ifs with hk
    · obtain ⟨rfl, rfl⟩ := hk
      exact ⟨item.version, by simp, hvw.trans (habove _ List.mem_cons_self w hw)⟩
    · exact ⟨w, hw, hvw⟩

/-- A read that passes its check joins the writes under way. -/
theorem Chained.accept (hu : Upserting U state db₀ s) (hs : Chained state s) (kind : Kind)
    (item : Item) (call : CallId) (hdb : t.db = s.db)
    (hclean : (t.conn ()).session.dirty = (s.conn ()).session.dirty) {reply : Reply}
    (hreply : reply = (Command.hget (itemsKey (s.conn ()).state kind) item.key).read s.db)
    (hordered : Admits (s.db (itemsKey (s.conn ()).state kind)) item →
      ∀ p ∈ (s.conn ()).pending, p.1 = kind → p.2.key = item.key → p.2.version ≤ item.version)
    (hpending : (t.conn ()).pending = (s.conn ()).pending ++
      (acceptedOf (.hget kind item.key (.update kind item [] call), reply)).toList) :
    Chained state t ∧ Grows s t state := by
  unfold acceptedOf at hpending
  dsimp only at hpending
  split at hpending
  · next hverdict =>
    rw [hreply] at hverdict
    have hadmits := admits_of_write hverdict
    refine ⟨⟨by rw [hclean, hs.clean], ?_, ?_⟩, fun kind' field v hv => by rwa [hdb]⟩
    · rw [hpending, List.pairwise_append]
      refine ⟨hs.sorted, List.pairwise_singleton _ _, fun p hp q hq => ?_⟩
      obtain rfl := List.mem_singleton.1 hq
      exact hordered hadmits p hp
    · intro p hp v hv
      rw [hdb] at hv
      rw [hpending] at hp
      rcases List.mem_append.mp hp with hp | hp
      · exact hs.above p hp v hv
      · obtain rfl := List.mem_singleton.1 hp
        rw [← itemsKey_congr (hu.itemsPrefix ())] at hv
        exact (hadmits v hv).le
  · exact hs.congr hdb hclean (by rw [hpending]; exact List.append_nil _)

/-- The execution of a command: a read joins the writes under way, and a transaction leaves them. -/
theorem Chained.serve (hu : Upserting U state db₀ s) (hs : Chained state s) {request : Request}
    {rest : List Request} (hordered : OverlapOrdered s (.serve () .none))
    (hstep : ServeStep s t () request rest .none) : Chained state t ∧ Grows s t state := by
  have hself := hstep.self
  -- What a command does to the writes under way, by what it is and what it replies.
  have hpending : (t.conn ()).pending = rest.filterMap writeOf ++
      ((s.conn ()).outbox.filterMap acceptedOf ++
        (waiting request (outcome s () request .none).reply).filterMap acceptedOf) := by
    rw [hself, Conn.pending, List.filterMap_append]
  have hpending₀ : (s.conn ()).pending = (writeOf request).toList ++ (rest.filterMap writeOf ++
      (s.conn ()).outbox.filterMap acceptedOf) := by
    rw [Conn.pending, hstep.inbox, List.filterMap_cons]
    cases writeOf request <;> rfl
  have hin : request ∈ (s.conn ()).inbox := by rw [hstep.inbox]; exact List.mem_cons_self
  have hissued := (hu.queued ()).inbox request hin
  cases hissued with
  | upsertWrite kind item call =>
    have hout : outcome s () (writeRequest (s.conn ()).state kind item call) .none = _ :=
      Command.execute_exec_of_clean _ s.db hs.clean
    -- The transaction is the first of the writes under way.
    refine hs.commit hu hpending₀ (by rw [hself, hout]; rfl) ?_ (by rw [hstep.db, hout])
    rw [hpending]
    exact (List.append_assoc _ _ _).symm.trans (List.append_nil _)
  | upsertRead kind item call =>
    have haccepted : ∀ p : Callback × Reply, [p].filterMap acceptedOf = (acceptedOf p).toList :=
      fun p => by rw [List.filterMap_cons]; cases acceptedOf p <;> rfl
    -- The read joins the writes under way as the last one, if it passes its check.
    have hnext : ((), kind, item) ∈ nextRead s (.serve () .none) := by
      simp [nextRead, hstep.inbox, readRequest]
    refine hs.accept hu kind item call hstep.db (by rw [hself]; rfl) rfl (hordered _ hnext) ?_
    rw [hpending, hpending₀, ← haccepted, List.append_assoc, List.append_assoc]
    rfl
  | init allData call multi hb => exact absurd (hu.from_of_request hin rfl) id
  | _ =>
    refine hs.congr hstep.db (by rw [hself]; rfl) ?_
    rw [hpending, hpending₀]
    exact congrArg _ (List.append_nil _)

/-- The run of a callback moves its write, if there is one, from the outbox to the end of the inbox. -/
theorem Chained.deliver (hu : Upserting U state db₀ s) (hs : Chained state s) {cb : Callback}
    {reply : Reply} {rest : List (Callback × Reply)} (hstep : DeliverStep s t () cb reply rest) :
    Chained state t ∧ Grows s t state := by
  have hself := hstep.self
  have hin : (cb, reply) ∈ (s.conn ()).outbox := by rw [hstep.outbox]; exact List.mem_cons_self
  refine hs.congr hstep.db (by rw [hself]) ?_
  have hissued : (cb.resume (s.conn ()).state reply).issued.filterMap writeOf =
      (acceptedOf (cb, reply)).toList := by
    have hskips : skipsAgain (s.conn ()).state (cb, reply) = none := by
      unfold skipsAgain
      split <;> simp [hu.up ()]
    rw [filterMap_writeOf_resume ((hu.queued ()).outbox _ hin), hskips, Option.toList_none,
      List.append_nil]
  rw [hself, Conn.pending, Conn.pending, hstep.outbox, List.filterMap_append, List.filterMap_cons]
  dsimp only
  rw [hissued, List.append_assoc]
  cases acceptedOf (cb, reply) <;> rfl

/-- Every step of an overlapping run keeps the writes under way in order. -/
theorem chained_step (hu : Upserting U state db₀ s) (hs : Chained state s) (hl : Undisturbed l)
    (hfrom : CallsFrom U l) (hordered : OverlapOrdered s l) (h : step s l = some t) :
    Chained state t ∧ Grows s t state := by
  cases l with
  | call c op =>
    have hstep := call_step h
    refine hs.congr hstep.db (by rw [hstep.self]) ?_
    rw [hstep.self]
    -- The connection is up, so that no upsert skips its read.
    have hissued : (op.start (s.conn ()).state (s.calls ())).issued.filterMap writeOf = [] := by
      rw [filterMap_writeOf_start]
      cases op <;> simp [Op.skips, hu.up ()]
    rw [Conn.pending, Conn.pending, List.filterMap_append]
    dsimp only
    rw [hissued, List.append_nil]
  | serve c fault =>
    obtain rfl : fault = .none := hl
    obtain ⟨request, rest, hstep⟩ := serve_step h
    exact hs.serve hu hordered hstep
  | deliver c =>
    obtain ⟨cb, reply, rest, hstep⟩ := deliver_step h
    exact hs.deliver hu hstep
  | lose c kept => exact absurd hl id
  | regain c =>
    have hstep := regain_step h
    exact hs.congr hstep.db (by rw [hstep.self]) (by rw [hstep.self]; rfl)
  | foreign values => exact absurd hl id

/-- For every run that executes the upserts of `U` on one connection to their callbacks, overlapping
in any way: if no upsert reads while a write of a higher version is under way for its key, the
version stored in each field is the greatest of the one stored before and those upserted for it. -/
theorem shared_upserts_max {ls : List (Label Unit)} (h : UpsertRun U state s t ls)
    (hordered : Along OverlapOrdered s ls) (hhash : ∀ kind, Hashlike (s.db (itemsKey state kind)))
    (hstart : Comparable U state s.db)
    (kind : Kind) (field : String) (v : ℤ) :
    storedVersion (t.db (itemsKey state kind)) field = some v ↔
      IsGreatest ({w | storedVersion (s.db (itemsKey state kind)) field = some w} ∪
        {w | ∃ item, U kind item ∧ item.key = field ∧ item.version = w}) v := by
  -- Nothing is under way at the start.
  have hchained : Chained state s := by
    have hpending : (s.conn ()).pending = [] := by
      rw [Conn.pending, h.fresh.inbox, h.fresh.outbox]
      rfl
    exact ⟨by rw [h.fresh.session]; rfl, by rw [hpending]; exact List.Pairwise.nil,
      by rw [hpending]; exact fun p hp => absurd hp List.not_mem_nil⟩
  obtain ⟨ht, -⟩ := Transition.run_invariant
    (P := fun u : Sys Unit => Upserting U state s.db u ∧ Chained state u)
    (fun u l v hu hl hstep =>
      have hnext := chained_step hu.1 hu.2 hl.2.1 hl.2.2 hl.1 hstep
      ⟨upserting_step hstart hu.1 hl.2.1 hl.2.2 hnext.2 hstep, hnext.1⟩)
    ⟨h.upserting hhash, hchained⟩ (hordered.and h.along) h.run
  -- The versions of the texts that are written are those of the items.
  have hset : {w | ∃ text ∈ textsOf U kind field, textVersion text = some w} =
      {w | ∃ item, U kind item ∧ item.key = field ∧ item.version = w} := by
    ext w
    constructor
    · rintro ⟨text, ⟨item, hU, hkey, rfl⟩, hw⟩
      rw [textVersion_text] at hw
      exact ⟨item, hU, hkey, Option.some.inj hw⟩
    · rintro ⟨item, hU, hkey, rfl⟩
      exact ⟨item.text, ⟨item, hU, hkey, rfl⟩, textVersion_text item⟩
  rw [← hset]
  exact (h.highest ht kind field).isGreatest_iff v

/-- Two overlapping upserts, the lower version first: the second one reads while the first one's
write is under way. -/
def overlappingUpserts (first second : ℤ) : List (Label Unit) :=
  [.call () (.upsertInternal .features (.ofVersion "f" first)),
    .call () (.upsertInternal .features (.ofVersion "f" second)),
    .serve () .none, .serve () .none, .serve () .none, .serve () .none, .deliver (), .deliver (),
    .serve () .none, .serve () .none, .deliver (), .deliver ()]

/-- A complete run of two overlapping upserts. -/
theorem overlappingUpserts_run (first second : ℤ)
    (h : (first = 1 ∧ second = 2) ∨ (first = 2 ∧ second = 1)) {t : Sys Unit}
    (ht : run (opened (sampleDb "f" 0) fun _ => connectedState) (overlappingUpserts first second) =
      some t) (hanswered : AllAnswered t) :
    UpsertRun twoUpserts connectedState (opened (sampleDb "f" 0) fun _ => connectedState) t
      (overlappingUpserts first second) := by
  refine upsertRun_of_labels () () ?_ ht ?_ ?_ hanswered <;>
    rcases h with ⟨rfl, rfl⟩ | ⟨rfl, rfl⟩ <;>
    simp [overlappingUpserts, Undisturbed, CallsFrom, Op.From, twoUpserts]

/-- The lower version first: the higher one is stored. -/
theorem shared_upserts_max_ordered :
    ∃ t : Sys Unit, run (opened (sampleDb "f" 0) fun _ => connectedState) (overlappingUpserts 1 2) =
        some t ∧
      (storedVersion (t.db (itemsKey connectedState .features)) "f" = some 2 ↔
        IsGreatest ({w | storedVersion (sampleDb "f" 0 (itemsKey connectedState .features)) "f" =
            some w} ∪
          {w | ∃ item, twoUpserts .features item ∧ item.key = "f" ∧ item.version = w}) 2) := by
  have hanswered : ((run (opened (sampleDb "f" 0) fun _ => connectedState)
      (overlappingUpserts 1 2)).map fun t => decide (AllAnswered t)) = some true := by
    decide +kernel
  obtain ⟨t, ht, hans⟩ := Option.map_eq_some_iff.1 hanswered
  exact ⟨t, ht, shared_upserts_max
    (overlappingUpserts_run 1 2 (.inl ⟨rfl, rfl⟩) ht (of_decide_eq_true hans))
    (by decide +kernel) hashlike_sampleDb comparable_sampleDb .features "f" 2⟩

/-- The higher version first: it is overwritten by the lower one, and every call is answered without
an error. -/
theorem shared_update_lost :
    ∃ t : Sys Unit,
      UpsertRun twoUpserts connectedState (opened (sampleDb "f" 0) fun _ => connectedState) t
        (overlappingUpserts 2 1) ∧
      twoUpserts .features (.ofVersion "f" 2) ∧
      storedVersion (t.db (itemsKey connectedState .features)) "f" = some 1 := by
  have hlost : ((run (opened (sampleDb "f" 0) fun _ => connectedState)
      (overlappingUpserts 2 1)).map fun t =>
        (decide (AllAnswered t), storedVersion (t.db (itemsKey connectedState .features)) "f")) =
      some (true, some 1) := by decide +kernel
  obtain ⟨t, ht, hans⟩ := Option.map_eq_some_iff.1 hlost
  obtain ⟨hanswered, hversion⟩ := Prod.mk.inj hans
  exact ⟨t, overlappingUpserts_run 2 1 (.inr ⟨rfl, rfl⟩) ht (of_decide_eq_true hanswered),
    ⟨rfl, .inr rfl⟩, hversion⟩

end Sys

end RedisStore
