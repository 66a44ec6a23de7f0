import RedisStore.Commit
import RedisStore.Phase

/-!
# Versions only grow

What the version check and the watch give together. With any number of connections, each with one
write at a time, and without errors or lost connections, an upsert that takes effect replaces no item
of its version or a higher one (`upsert_version_safe`): a check on an outdated read is caught by the
watch.
-/

namespace RedisStore

open Redis

namespace Sys

variable {ι : Type} [DecidableEq ι] {s t u : Sys ι} {l : Label ι}

/-- What holds throughout a run without errors and lost connections. -/
structure Orderly (s : Sys ι) : Prop where
  queued : ∀ c, (s.conn c).Queued
  up : ∀ c, (s.conn c).state.down = false
  phase : ∀ c, (s.conn c).InPhase s.db

theorem orderly_step (hs : Orderly s) (hone : OneWriteAtATime s l) (hl : Undisturbed l)
    (h : step s l = some t) : Orderly t where
  queued := queued_step hs.queued h
  up c := up_of_step h (hl.faultless c) (hs.up c)
  phase := phase_step hs.queued hs.phase hs.up hone hl h

theorem orderly_run {ls : List (Label ι)} (h₀ : Fresh s) (hup : ∀ c, (s.conn c).state.down = false)
    (hG : Along (fun u l => OneWriteAtATime u l ∧ Undisturbed l) s ls) (h : run s ls = some t) :
    Orderly t :=
  Transition.run_invariant (fun _ _ _ hs hl hstep => orderly_step hs hl.1 hl.2 hstep)
    ⟨h₀.queued, hup, fun c => h₀.inPhase c⟩ hG h

/-- An upsert that takes effect in such a run finds no item of its version or a higher one. -/
theorem Orderly.admits (hs : Orderly s) (h : step s l = some t) {c : ι} {kind : Kind} {item : Item}
    (hc : UpsertCommits s t c kind item) : Admits (s.db (itemsKey (s.conn c).state kind)) item := by
  obtain ⟨call, rest, hin, hclean⟩ := hc.change hs.queued h
  exact admits_of_inPhase (hs.phase c) hin hclean

/-- A step that commits no init replaces no item but by a newer one. -/
theorem Orderly.version_grows (hs : Orderly s) (hl : Undisturbed l) (h : step s l = some t)
    (hinit : ∀ c allData, ¬ InitCommits s t c allData) {key : Key} {field : String} {v : ℤ}
    (hv : storedVersion (s.db key) field = some v) :
    fieldOf (t.db key) field = fieldOf (s.db key) field ∨
      ∃ v', storedVersion (t.db key) field = some v' ∧ v < v' := by
  have hforeign : ∀ values, l ≠ .foreign values := by
    rintro values rfl
    exact hl
  -- A version changes by the commit of an upsert alone, which the invariant admits.
  cases change_of_step hs.queued h hforeign with
  | none hno hdb => exact .inl (by rw [hdb])
  | upsert c fault kind item call rest hserve hfault hin hclean hdb hlog =>
    subst hserve
    obtain rfl : fault = .none := hl
    rw [hdb, Fault.refused, runAllowed_nil]
    exact storedVersion_runWrites_hset (admits_of_inPhase (hs.phase c) hin hclean) hv
  | init c fault allData call multi rest hserve hfault hin hclean hbuild hdb hlog =>
    exact absurd ⟨multi, call, _, _, hlog⟩ (hinit c allData)

/-- In every run of any number of connections, each with one write at a time, without errors and lost
connections: an upsert that takes effect finds no item of its version or a higher one under its key,
and a step that does not commit an init leaves every item or replaces it by a newer one. -/
theorem upsert_version_safe {ls : List (Label ι)} (h₀ : Fresh s)
    (hup : ∀ c, (s.conn c).state.down = false)
    (hG : Along (fun u l => OneWriteAtATime u l ∧ Undisturbed l) s (ls ++ [l]))
    (h : run s ls = some t) (hstep : step t l = some u) :
    (∀ c kind item, UpsertCommits t u c kind item →
      ∀ v, storedVersion (t.db (itemsKey (t.conn c).state kind)) item.key = some v →
        v < item.version) ∧
    ((∀ c allData, ¬ InitCommits t u c allData) →
      ∀ key field v, storedVersion (t.db key) field = some v →
        fieldOf (u.db key) field = fieldOf (t.db key) field ∨
          ∃ v', storedVersion (u.db key) field = some v' ∧ v < v') := by
  obtain ⟨hls, hl, -⟩ := (Transition.along_append h).1 hG
  have ht := orderly_run h₀ hup hls h
  exact ⟨fun c kind item hc => ht.admits hstep hc,
    fun hinit key field v hv => ht.version_grows hl.2 hstep hinit hv⟩

/-- Two connections that upsert the same key, up to the transaction of the second. -/
def upsertTwice : List (Label Bool) :=
  [.call false (.upsertInternal .features (.ofVersion "f" 1)), .serve false .none,
    .serve false .none, .deliver false, .serve false .none, .deliver false,
    .call true (.upsertInternal .features (.ofVersion "f" 2)), .serve true .none,
    .serve true .none, .deliver true]

/-- The second upsert finds the first one's item and replaces it. -/
theorem upsert_version_safe_twice :
    ∃ (t u : Sys Bool) (item : Item),
      run (opened (fun _ => none) fun _ => connectedState) upsertTwice = some t ∧
      step t (.serve true .none) = some u ∧ item.key = "f" ∧ item.version = 2 ∧
      UpsertCommits t u true .features item ∧
      ∀ v, storedVersion (t.db (itemsKey (t.conn true).state .features)) item.key = some v →
        v < item.version := by
  have hlast : (run (opened (fun _ => none) fun _ => connectedState)
      (upsertTwice ++ [.serve true .none])).map (fun u =>
        (u.log.getLast?.bind Event.upsertCommit).map fun r => (r.1, r.2.1, r.2.2.key, r.2.2.version)) =
      some (some (true, .features, "f", 2)) := by decide +kernel
  obtain ⟨u, hu, hlast⟩ := Option.map_eq_some_iff.1 hlast
  obtain ⟨⟨d, kind, item⟩, hcommit, heq⟩ := Option.map_eq_some_iff.1 hlast
  obtain ⟨rfl, rfl, hkey, hversion⟩ : d = true ∧ kind = .features ∧ item.key = "f" ∧
      item.version = 2 := by simpa using heq
  obtain ⟨t, ht, hstep⟩ := Transition.run_concat_eq_some.1 hu
  have hc := upsertCommits_of_getLast hstep hcommit
  exact ⟨t, u, item, ht, hstep, hkey, hversion, hc,
    (upsert_version_safe (opened_fresh _ _) (fun _ => rfl) (by decide +kernel) ht hstep).1 true
      .features item hc⟩

end Sys

end RedisStore
