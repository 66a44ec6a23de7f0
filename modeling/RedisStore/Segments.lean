import RedisStore.AtomicReads
import RedisStore.Initialized
import RedisStore.Isolation
import RedisStore.Membership
import RedisStore.Written

/-!
# The two stores in one database

The feature store writes under the keys of its data, and the big segment store writes nothing. None of
these keys is one of the big segments, whatever the prefixes (`key_eq_iff`). So no init and no upsert, on
any connection, changes what a user's segments or their metadata are (`segments_kept`).
-/

namespace RedisStore

open Redis

/-! ## What the feature store writes -/

/-- A command of the stores changes keys of data alone. -/
theorem Issued.serve_eq {state : StoreState} {r : Request} (hr : Issued state r) {key : Key}
    (hkey : ∀ k : StoreKey, k.ofData = true → key ≠ k.key state) (db : Db) (session : Session)
    (fault : Fault) : (r.cmd.serve db session fault).db key = db key := by
  cases hr with
  | upsertWrite kind item call =>
    refine Command.serve_db_of_not_touched _ db session fault fun hmem => ?_
    exact hkey (.items kind) rfl
      (List.mem_singleton.1 (Command.serve_touched_subset _ db session fault _ hmem))
  | init allData call multi hbuild =>
    refine Command.serve_db_of_not_touched _ db session fault fun hmem => ?_
    obtain ⟨w, hw, hwkey⟩ := List.mem_map.1 (Command.serve_touched_subset _ db session fault _ hmem)
    obtain ⟨k, hk, hwk⟩ := buildInit_keys hbuild hw
    exact hkey k hk (hwkey.symm.trans hwk)
  | _ => rw [(Command.serve_db (fun queue => Command.noConfusion) db session fault).1]

namespace Sys

variable {ι : Type} [DecidableEq ι] {s t : Sys ι} {l : Label ι} {ls : List (Label ι)} {c : ι}

/-- The key is none of the data of any store. -/
def NotData (s : Sys ι) (key : Key) : Prop :=
  ∀ c, ∀ k : StoreKey, k.ofData = true → key ≠ k.key (s.conn c).state

/-- A step changes keys of data alone, unless another program writes. -/
theorem eq_of_step (hq : ∀ c, (s.conn c).Queued) {key : Key} (hkey : NotData s key)
    (hl : LeavesKey key l) (h : step s l = some t) : t.db key = s.db key := by
  rcases db_of_step h with hdb | ⟨c, fault, request, hmem, hdb⟩ | ⟨values, rfl, hdb⟩
  · rw [hdb]
  · rw [hdb]
    exact ((hq c).inbox request hmem).serve_eq (hkey c) s.db _ fault
  · refine (hdb key).resolve_right ?_
    rintro ⟨v, hv, hvkey, -⟩
    exact hl v hv hvkey

/-! ## The keys of the big segments -/

/-- The keys under which a connection's stores read a user's segments and the metadata. -/
def segmentKeys (state : StoreState) (userHash : String) : List Key :=
  [includeKey state userHash, excludeKey state userHash, metadataKey state]

omit [DecidableEq ι] in
/-- They are none of the data of any store, also of one whose prefix extends the other's. -/
theorem notData_of_mem_segmentKeys
    (hprefixes : ∀ c, ∃ keyPrefix, (s.conn c).state.itemsPrefix = keyPrefix ++ ":") (userHash : UserHash)
    {key : Key} (hkey : key ∈ segmentKeys (s.conn c).state userHash.text) : NotData s key := by
  obtain ⟨k, hk, rfl⟩ : ∃ k : StoreKey, k.ofData = false ∧ key = k.key (s.conn c).state := by
    unfold segmentKeys at hkey
    simp only [List.mem_cons, List.not_mem_nil, or_false] at hkey
    rcases hkey with rfl | rfl | rfl
    · exact ⟨.userInclude userHash, rfl, String.append_assoc⟩
    · exact ⟨.userExclude userHash, rfl, String.append_assoc⟩
    · exact ⟨.lastUpToDate, rfl, rfl⟩
  intro d k' hk' heq
  obtain ⟨p, hp⟩ := hprefixes c
  obtain ⟨q, hq⟩ := hprefixes d
  obtain ⟨-, rfl⟩ := (key_eq_iff hp hq k k').1 heq
  rw [hk] at hk'
  cases hk'

/-- What the state `s` has under the keys of the big segments is what `u` has. -/
structure SegmentsKept (s : Sys ι) (c : ι) (userHash : String) (u : Sys ι) : Prop where
  queued : ∀ d, (u.conn d).Queued
  itemsPrefix : ∀ d, (u.conn d).state.itemsPrefix = (s.conn d).state.itemsPrefix
  db : ∀ key ∈ segmentKeys (s.conn c).state userHash, u.db key = s.db key

/-- Every step keeps it, unless another program writes there. -/
theorem segmentsKept_step {u v : Sys ι} {userHash : UserHash}
    (hprefixes : ∀ c, ∃ keyPrefix, (s.conn c).state.itemsPrefix = keyPrefix ++ ":")
    (hu : SegmentsKept s c userHash.text u)
    (hl : ∀ key ∈ segmentKeys (s.conn c).state userHash.text, LeavesKey key l)
    (h : step u l = some v) : SegmentsKept s c userHash.text v where
  queued := queued_step hu.queued h
  itemsPrefix d := (step_itemsPrefix h d).trans (hu.itemsPrefix d)
  db key hkey := by
    refine (eq_of_step hu.queued (fun d k hk => ?_) (hl key hkey) h).trans (hu.db key hkey)
    have hnot := notData_of_mem_segmentKeys hprefixes userHash hkey d k hk
    rw [StoreKey.key] at hnot ⊢
    rw [hu.itemsPrefix d]
    exact hnot

omit [DecidableEq ι] in
/-- The user's segments are the same, then. -/
theorem SegmentsKept.sets {u : Sys ι} {userHash : String} (hu : SegmentsKept s c userHash u) :
    u.included c userHash = s.included c userHash ∧ u.excluded c userHash = s.excluded c userHash := by
  unfold included excluded includeKey excludeKey membersAt
  rw [hu.itemsPrefix c]
  have hinclude := hu.db (includeKey (s.conn c).state userHash) (by simp [segmentKeys])
  have hexclude := hu.db (excludeKey (s.conn c).state userHash) (by simp [segmentKeys])
  unfold includeKey at hinclude
  unfold excludeKey at hexclude
  rw [hinclude, hexclude]
  exact ⟨rfl, rfl⟩

section Runs

variable {userHash : UserHash}
  (hprefixes : ∀ c, ∃ keyPrefix, (s.conn c).state.itemsPrefix = keyPrefix ++ ":") (h₀ : Fresh s)
  (hls : ∀ l ∈ ls, ∀ key ∈ segmentKeys (s.conn c).state userHash.text, LeavesKey key l)

include hprefixes h₀ hls

/-- So the big segments are kept in every state of a run. -/
theorem segmentsKept_along : Along (fun u _ => SegmentsKept s c userHash.text u) s ls :=
  Transition.Along.of_invariant (fun _ _ _ hu hl hstep => segmentsKept_step hprefixes hu hl hstep)
    ⟨h₀.queued, fun _ => rfl, fun _ _ => rfl⟩ (Transition.Along.of_forall fun _ => hls)

theorem segmentsKept_run (h : run s ls = some t) : SegmentsKept s c userHash.text t :=
  Transition.run_invariant (fun _ _ _ hu hl hstep => segmentsKept_step hprefixes hu hl hstep)
    ⟨h₀.queued, fun _ => rfl, fun _ _ => rfl⟩ (Transition.Along.of_forall fun _ => hls) h

/-- A membership is made of the two sets as they were at the start. -/
theorem membership_of_kept (h : run s ls = some t) (hrefs : OrdinaryRefs s c userHash.text)
    {call : CallId} {m : Option (PlainObject Bool)}
    (hcalled : .called c call (.getUserMembership userHash.text) ∈ t.log)
    (hm : .answered c call (.membership m) ∈ t.log) : ownProps m = s.membership c userHash.text := by
  have hordinary : Along (fun u _ => OrdinaryRefs u c userHash.text) s ls := by
    refine (segmentsKept_along hprefixes h₀ hls).mono fun u _ hu => ?_
    unfold OrdinaryRefs
    rw [hu.sets.1, hu.sets.2]
    exact hrefs
  obtain ⟨ls₁, ls₂, ls₃, v, w, rfl, hv, hvw, -, -, -, hprops⟩ :=
    membership_of_states h₀ h hcalled hordinary hm
  have hkeptv : SegmentsKept s c userHash.text v :=
    segmentsKept_run hprefixes h₀ (fun l hl => hls l (by simp [hl])) hv
  have hkeptw : SegmentsKept s c userHash.text w := by
    refine segmentsKept_run hprefixes h₀ (fun l hl => hls l ?_)
      (Transition.run_append_eq_some.2 ⟨v, hv, hvw⟩)
    rw [← List.append_assoc]
    exact List.mem_append_left _ hl
  rw [hprops, hkeptv.sets.1, hkeptw.sets.2]
  rfl

/-- The number of the metadata is that of the text at the start. -/
theorem metadata_of_kept (h : run s ls = some t) {call : CallId} {lastUpToDate : Option (Option ℤ)}
    (hcalled : .called c call .getMetadata ∈ t.log)
    (ha : .answered c call (.metadata lastUpToDate) ∈ t.log) :
    Op.getMetadata.Sees (s.conn c).state s.db (.metadata lastUpToDate) := by
  obtain ⟨ls₁, l, ls₂, u, rfl, hu, ⟨-, -, hans⟩ | ⟨-, -, hfailed⟩ | ⟨-, hsees⟩⟩ :=
    origin_of_answered h₀ h rfl hcalled ha
  · cases (failure_of_start rfl hans).2
  · cases hfailed
  · have hkept : SegmentsKept s c userHash.text u :=
      segmentsKept_run hprefixes h₀ (fun l hl => hls l (by simp [hl])) hu
    have hkey := hkept.db (metadataKey (s.conn c).state) (by simp [segmentKeys])
    unfold Op.Sees metadataKey at hsees ⊢
    unfold metadataKey at hkey
    dsimp only at hsees ⊢
    rw [hkept.itemsPrefix c, hkey] at hsees
    exact hsees

end Runs

/-- In every run of any number of connections of stores with any prefixes, whatever inits and upserts are
called, and whatever faults, lost connections and aborts there are: as long as no other program writes a
user's segments or the metadata, they are what they were; each membership that a call of
`getUserMembership` is answered with is that of the user at the start, and each number that a call of
`getMetadata` is answered with is that of the text at the start. -/
theorem segments_kept {ρ κ : Type} (options : ι → Options ρ κ) (h₀ : Fresh s)
    (hstate : ∀ c, (s.conn c).state.itemsPrefix = (initState (options c)).2.itemsPrefix)
    (userHash : UserHash)
    (hls : ∀ l ∈ ls, ∀ key ∈ segmentKeys (s.conn c).state userHash.text, LeavesKey key l)
    (h : run s ls = some t) :
    (∀ key ∈ segmentKeys (s.conn c).state userHash.text, t.db key = s.db key) ∧
      (OrdinaryRefs s c userHash.text → ∀ call m,
        .called c call (.getUserMembership userHash.text) ∈ t.log →
        .answered c call (.membership m) ∈ t.log → ownProps m = s.membership c userHash.text) ∧
      ∀ call lastUpToDate, .called c call .getMetadata ∈ t.log →
        .answered c call (.metadata lastUpToDate) ∈ t.log →
        Op.getMetadata.Sees (s.conn c).state s.db (.metadata lastUpToDate) := by
  have hprefixes : ∀ c, ∃ keyPrefix, (s.conn c).state.itemsPrefix = keyPrefix ++ ":" := fun c =>
    ⟨_, (hstate c).trans (initState_itemsPrefix (options c))⟩
  exact ⟨(segmentsKept_run hprefixes h₀ hls h).db,
    fun hrefs _ _ hcalled hm => membership_of_kept hprefixes h₀ hls h hrefs hcalled hm,
    fun _ _ hcalled ha => metadata_of_kept hprefixes h₀ hls h hcalled ha⟩

/-- A user hash. -/
def sampleHash : UserHash where
  text := String.ofList (List.replicate 44 'A')
  length_eq := by rw [String.length_ofList, List.length_replicate]
  base64 c hc := by
    rw [String.toList_ofList] at hc
    obtain rfl := List.eq_of_mem_replicate hc
    exact .inl (by decide)

/-- A database with a segment that includes the user, for stores with the prefix `a`. -/
def sharedDb : Db := Function.update (fun _ => none)
  (includeKey (initState (nestedOptions false)).2 sampleHash.text) (some (.set ["segment"]))

/-- The event answers a call with a membership. -/
def isMembership : Event ι → Bool
  | .answered _ _ (.membership _) => true
  | _ => false

/-- A read of the membership, with inits of this store and of one whose prefix extends its own. -/
def sharedLabels : List (Label Bool) :=
  [.call false (.getUserMembership sampleHash.text), .call false (.initInternal (sampleData "f" 1)),
    .call true (.initInternal (sampleData "f" 1)), .serve true .none, .serve false .none,
    .deliver false, .serve false .none, .serve false .none, .deliver false, .deliver false]

/-- No ref of the user is `__proto__`. -/
theorem ordinaryRefs_shared : OrdinaryRefs (opened sharedDb fun c => (initState (nestedOptions c)).2)
    false sampleHash.text := by
  rintro (⟨refs, hrefs, hmem⟩ | ⟨refs, hrefs, hmem⟩)
  · have hinclude : sharedDb (includeKey (initState (nestedOptions false)).2 sampleHash.text) =
        some (.set ["segment"]) := Function.update_self ..
    cases hinclude.symm.trans hrefs
    exact absurd hmem (by decide)
  · have hexclude : sharedDb (excludeKey (initState (nestedOptions false)).2 sampleHash.text) =
        none := Function.update_of_ne (by decide) ..
    cases hexclude.symm.trans hrefs

/-- The membership is the one that the user had. -/
theorem segments_kept_shared :
    ∃ (t : Sys Bool) (m : Option (PlainObject Bool)),
      run (opened sharedDb fun c => (initState (nestedOptions c)).2) sharedLabels = some t ∧
      .answered false 0 (.membership m) ∈ t.log ∧
      ownProps m = (opened sharedDb fun c => (initState (nestedOptions c)).2).membership false
        sampleHash.text := by
  have hend : (run (opened sharedDb fun c => (initState (nestedOptions c)).2) sharedLabels).any
      (fun t => t.log.any fun e => e.answers false 0 && isMembership e) := by decide +kernel
  obtain ⟨t, ht, hany⟩ := (Option.any_eq_true _ _).1 hend
  obtain ⟨e, he, hanswers⟩ := List.any_eq_true.1 hany
  obtain ⟨m, rfl⟩ : ∃ m, e = .answered false 0 (.membership m) := by
    obtain ⟨hcall, hmembership⟩ := Bool.and_eq_true_iff.1 hanswers
    unfold isMembership at hmembership
    split at hmembership
    · next d call m =>
      obtain ⟨rfl, rfl⟩ : d = false ∧ call = 0 := by simpa [Event.answers] using hcall
      exact ⟨m, rfl⟩
    · cases hmembership
  have hcalled : .called false 0 (.getUserMembership sampleHash.text) ∈ t.log := by
    obtain ⟨u, hu, hrest⟩ := Transition.run_cons_eq_some.1 ht
    exact mem_log_of_run hrest (by rw [(call_step hu).log]; simp [opened])
  have hls : ∀ l ∈ sharedLabels, ∀ key ∈ segmentKeys (initState (nestedOptions false)).2
      sampleHash.text, LeavesKey key l := by
    simp [sharedLabels, LeavesKey]
  exact ⟨t, m, ht, he, (segments_kept nestedOptions (opened_fresh _ _) (fun _ => rfl) sampleHash hls
    ht).2.1 ordinaryRefs_shared 0 m hcalled he⟩

end Sys

end RedisStore
