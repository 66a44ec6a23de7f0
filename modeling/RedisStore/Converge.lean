import RedisStore.Upsert
import RedisStore.UpsertSet

/-!
# Upserts in any order

On any number of connections, each with one write at a time, stored versions never decrease
(`Orderly.version_grows`). So two runs that execute the same set of upserts to their callbacks end
alike, whatever the order of the calls and the interleaving of the commands (`upserts_converge`).
-/

namespace RedisStore

open Redis Versioned

namespace Sys

variable {ι : Type} [DecidableEq ι] {s t : Sys ι} {l : Label ι} {U : Kind → Item → Prop}
  {state : StoreState} {db₀ : Db}

/-- With one write at a time no stored version decreases. -/
theorem Upserting.grows_of_orderly (hs : Upserting U state db₀ s) (ho : Orderly s)
    (hl : Undisturbed l) (h : step s l = some t) : Grows s t state := by
  rintro kind field v ⟨w, hw, hvw⟩
  -- A field keeps its text, or gets one of a higher version.
  rcases ho.version_grows hl h (hs.not_initCommits h) hw with hsame | ⟨w', hw', hlt⟩
  · exact ⟨w, by rw [hsame, hw], hvw⟩
  · exact ⟨w', hw', hvw.trans hlt.le⟩

/-- What holds at the end of a complete run with one write at a time. -/
theorem UpsertRun.upserting_end {ls : List (Label ι)} (h : UpsertRun U state s t ls)
    (hone : Along OneWriteAtATime s ls) (hhash : ∀ kind, Hashlike (s.db (itemsKey state kind)))
    (hstart : Comparable U state s.db) : Upserting U state s.db t :=
  (Transition.run_invariant (P := fun u => Orderly u ∧ Upserting U state s.db u)
    (fun _ _ _ hu hl hstep => ⟨orderly_step hu.1 hl.1 hl.2.1 hstep,
      upserting_step hstart hu.2 hl.2.1 hl.2.2 (hu.2.grows_of_orderly hu.1 hl.2.1 hstep) hstep⟩)
    ⟨⟨h.fresh.queued, h.up, h.fresh.inPhase⟩, h.upserting hhash⟩ (hone.and h.along) h.run).2

/-- Any two runs that execute the same upserts to their callbacks, whose versions for one key differ
from each other and from the stored one, end with the same content of every kind: in each field the
item of the highest version among the stored one and those upserted, and none in any other. -/
theorem upserts_converge {κ : Type} [DecidableEq κ] {s' t' : Sys κ} {ls : List (Label ι)}
    {ls' : List (Label κ)} (h : UpsertRun U state s t ls) (h' : UpsertRun U state s' t' ls')
    (hone : Along OneWriteAtATime s ls) (hone' : Along OneWriteAtATime s' ls')
    (hdb : ∀ kind, s'.db (itemsKey state kind) = s.db (itemsKey state kind))
    (hhash : ∀ kind, Hashlike (s.db (itemsKey state kind)))
    (hstart : Comparable U state s.db)
    (hdistinct : ∀ kind item item', U kind item → U kind item' → item.key = item'.key →
      item.version = item'.version → item = item')
    (hstored : ∀ kind item, U kind item →
      storedVersion (s.db (itemsKey state kind)) item.key ≠ some item.version)
    (kind : Kind) (field : String) :
    fieldOf (t.db (itemsKey state kind)) field = fieldOf (t'.db (itemsKey state kind)) field ∧
      Highest textVersion (fieldOf (s.db (itemsKey state kind)) field) (textsOf U kind field)
        (fieldOf (t.db (itemsKey state kind)) field) := by
  -- Both ends are the highest of the same stored and written texts, and there is only one.
  have hhigh := h.highest (h.upserting_end hone hhash hstart) kind field
  have hhigh' := h'.highest (h'.upserting_end hone' (fun kind => by rw [hdb]; exact hhash kind)
    fun kind item hU text => by rw [hdb]; exact hstart kind item hU text) kind field
  rw [hdb] at hhigh'
  refine ⟨hhigh.unique hhigh' exists_version_of_mem_textsOf ?_ ?_, hhigh⟩
  · rintro text ⟨item, hU, hkey, rfl⟩ text' ⟨item', hU', hkey', rfl⟩ hversion
    rw [textVersion_text, textVersion_text] at hversion
    rw [hdistinct kind item item' hU hU' (hkey.trans hkey'.symm) (Option.some.inj hversion)]
  · rintro text ⟨item, hU, rfl, rfl⟩
    rw [textVersion_text]
    exact hstored kind item hU

/-- An upsert of one connection, up to its callback: written. -/
def writtenUpsert (c : Bool) (version : ℤ) : List (Label Bool) :=
  [.call c (.upsertInternal .features (.ofVersion "f" version)), .serve c .none, .serve c .none,
    .deliver c, .serve c .none, .deliver c]

/-- The same, rejected. -/
def rejectedUpsert (c : Bool) (version : ℤ) : List (Label Bool) :=
  [.call c (.upsertInternal .features (.ofVersion "f" version)), .serve c .none, .serve c .none,
    .deliver c]

/-- The lower version first or the higher one first: the field is the same. -/
theorem upserts_converge_two :
    ∃ t t' : Sys Bool,
      run (opened (sampleDb "f" 0) fun _ => connectedState)
        (writtenUpsert false 1 ++ writtenUpsert true 2) = some t ∧
      run (opened (sampleDb "f" 0) fun _ => connectedState)
        (writtenUpsert true 2 ++ rejectedUpsert false 1) = some t' ∧
      fieldOf (t.db (itemsKey connectedState .features)) "f" =
        fieldOf (t'.db (itemsKey connectedState .features)) "f" := by
  have hlow : ((run (opened (sampleDb "f" 0) fun _ => connectedState)
      (writtenUpsert false 1 ++ writtenUpsert true 2)).map fun t => decide (AllAnswered t)) =
      some true := by decide +kernel
  have hhigh : ((run (opened (sampleDb "f" 0) fun _ => connectedState)
      (writtenUpsert true 2 ++ rejectedUpsert false 1)).map fun t => decide (AllAnswered t)) =
      some true := by decide +kernel
  obtain ⟨t, ht, hans⟩ := Option.map_eq_some_iff.1 hlow
  obtain ⟨t', ht', hans'⟩ := Option.map_eq_some_iff.1 hhigh
  have h := upsertRun_of_labels false true
    (by simp [writtenUpsert, Undisturbed, CallsFrom, Op.From, twoUpserts]) ht
    (by simp [writtenUpsert]) (by simp [writtenUpsert]) (of_decide_eq_true hans)
  have h' := upsertRun_of_labels false true
    (by simp [writtenUpsert, rejectedUpsert, Undisturbed, CallsFrom, Op.From, twoUpserts]) ht'
    (by simp [rejectedUpsert]) (by simp [writtenUpsert]) (of_decide_eq_true hans')
  have hzero : storedVersion (sampleDb "f" 0 (itemsKey connectedState .features)) "f" = some 0 := by
    decide +kernel
  refine ⟨t, t', ht, ht', (upserts_converge h h' (by decide +kernel) (by decide +kernel)
    (fun _ => rfl) hashlike_sampleDb comparable_sampleDb ?_ ?_ .features "f").1⟩
  · rintro kind item item' ⟨-, rfl | rfl⟩ ⟨-, rfl | rfl⟩ - hv
    · rfl
    · exact absurd hv (by decide)
    · exact absurd hv (by decide)
    · rfl
  · rintro kind item ⟨rfl, rfl | rfl⟩ hstored
    · exact absurd (hzero.symm.trans hstored) (by decide)
    · exact absurd (hzero.symm.trans hstored) (by decide)

end Sys

end RedisStore
