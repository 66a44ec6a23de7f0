import RedisStore.Linearization

/-!
# What a client has seen stays seen

In runs in order without an init, an item gives way only to one of a higher version at the points of the
calls, so that a call that is made after the answer to another one finds the very item that that one has
shown or a newer one, on whichever connections the two are: reads are monotonic, an upsert's callback is
followed by reads of its item or a newer one, and a deleted item stays deleted until a newer version is
upserted (`sessions_monotonic`).
-/

namespace RedisStore

open Redis Linear

/-- The item is stored under the key, or one of a version above `v`. -/
def Abstract.Since (a : Abstract) (kind : Kind) (key : String) (j : Json) (v : ℤ) : Prop :=
  ∃ j' w, a.items kind key = some j' ∧ j'.itemVersion = some w ∧ (j' = j ∨ v < w)

/-- The answer shows the item under the key. -/
def Op.Shows (kind : Kind) (key : String) (j : Json) : Op → Answer → Prop
  | .getInternal kind' key', .item item => kind' = kind ∧ key' = key ∧ item = j
  | .getAllInternal kind', .items (some results) =>
    kind' = kind ∧ results.own.lookup key = some j
  | .upsertInternal kind' item, .upserted _ stored =>
    kind' = kind ∧ item.key = key ∧ stored = j
  | _, _ => False

/-- A call that shows an item with a version leaves the store with it. -/
theorem Abstract.since_of_shows {a : Abstract} {op : Op} {ans : Answer} {kind : Kind} {key : String}
    {j : Json} {v : ℤ} (hgives : a.Gives op ans) (hshows : op.Shows kind key j ans)
    (hv : j.itemVersion = some v) : (a.apply op).Since kind key j v := by
  cases op with
  | getInternal kind' key' =>
    cases ans with
    | item item =>
      obtain ⟨rfl, rfl, rfl⟩ := hshows
      have hshown : item = Abstract.shown (a.items kind' key') := hgives
      cases hitem : a.items kind' key' with
      | none =>
        rw [hitem] at hshown
        subst hshown
        cases hv
      | some stored =>
        rw [hitem, Abstract.shown] at hshown
        split_ifs at hshown
        · subst hshown
          cases hv
        · subst hshown
          exact ⟨item, v, hitem, hv, .inl rfl⟩
    | _ => exact absurd hshows id
  | getAllInternal kind' =>
    cases ans with
    | items results =>
      cases results with
      | none => exact absurd hshows id
      | some results =>
        obtain ⟨rfl, hj⟩ := hshows
        exact ⟨j, v, (hgives key).symm.trans hj, hv, .inl rfl⟩
    | _ => exact absurd hshows id
  | upsertInternal kind' item =>
    cases ans with
    | upserted err stored =>
      obtain ⟨rfl, rfl, rfl⟩ := hshows
      exact ⟨stored, v, hgives.2, hv, .inl rfl⟩
    | _ => exact absurd hshows id
  | _ => cases ans <;> exact absurd hshows id

/-- Only an init may replace an item by one of the same or a lower version. -/
theorem Abstract.Since.apply {a : Abstract} {kind : Kind} {key : String} {j : Json} {v : ℤ}
    (hv : j.itemVersion = some v) (h : a.Since kind key j v) {op : Op}
    (hop : ∀ allData, op ≠ .initInternal allData) : (a.apply op).Since kind key j v := by
  obtain ⟨j', w, hitem, hw, hnewer⟩ := h
  cases op with
  | initInternal allData => exact absurd rfl (hop allData)
  | upsertInternal kind' item =>
    rw [Abstract.apply]
    split_ifs with hadmits
    · unfold Abstract.Since
      simp only [Contents.apply_put]
      by_cases hkey : kind = kind' ∧ key = item.key
      · -- The item replaces one of a lower version.
        obtain ⟨rfl, rfl⟩ := hkey
        rw [Abstract.admits, hitem] at hadmits
        have hlt : w < item.version := by simpa [hw] using hadmits
        have hle : v ≤ w := by
          rcases hnewer with rfl | hlt'
          · exact le_of_eq (Option.some.inj (hv.symm.trans hw))
          · exact le_of_lt hlt'
        exact ⟨item.json, item.version, if_pos ⟨rfl, rfl⟩, item.itemVersion_json, .inr (by omega)⟩
      · exact ⟨j', w, by rw [if_neg hkey]; exact hitem, hw, hnewer⟩
    · exact ⟨j', w, hitem, hw, hnewer⟩
  | _ => exact ⟨j', w, hitem, hw, hnewer⟩

namespace Sys

variable {ι : Type} [DecidableEq ι] {s t : Sys ι} {state : StoreState} {ls : List (Label ι)}

/-- The point of an answered call. -/
theorem Following.mem_points {a₀ : Abstract} (hs : Following state a₀ s) {c : ι} {call : CallId}
    {op : Op} {a : Answer} (hcalled : .called c call op ∈ s.log) (ha : .answered c call a ∈ s.log) :
    ((c, call), op, a) ∈ s.log.filterMap Event.point := by
  obtain ⟨op', hmem⟩ := hs.follows.answered _ ha (c, call) a rfl
  obtain ⟨e, he, hmade⟩ := hs.follows.made _ hmem
  cases e with
  | called d call' op'' =>
    obtain ⟨hk, rfl⟩ := Prod.mk.inj (Option.some.inj hmade)
    obtain ⟨rfl, rfl⟩ := Prod.mk.inj hk
    obtain rfl := hs.called.unique d call' _ _ hcalled he
    exact hmem
  | _ => cases hmade

/-- In every run in order without an init, of any number of connections with one prefix: a call that is
made after the answer to another call has shown an item under a key, be they on one connection or on two,
is answered from a store with this item there or one of a higher version. So `getInternal` answers such an
item, or `null` where it is deleted; it is among the items of `getAllInternal`; and an upsert of the key is
answered with such an item. -/
theorem sessions_monotonic (h₀ : Fresh s) (hup : ∀ c, (s.conn c).state.down = false)
    (hsame : ∀ c, (s.conn c).state.itemsPrefix = state.itemsPrefix) (henc : HoldsEncoded state s.db)
    (hproto : ∀ kind, fieldOf (s.db (itemsKey state kind)) "__proto__" = none)
    (horder : Along InOrder s ls) (hinit : ∀ c allData, .call c (.initInternal allData) ∉ ls)
    (h : run s ls = some t) {c c' : ι} {call call' : CallId} {op op' : Op} {a a' : Answer} {kind : Kind}
    {key : String} {j : Json} {v : ℤ} (hop : .called c call op ∈ t.log) (hshows : op.Shows kind key j a)
    (hv : j.itemVersion = some v) (hbefore : [.answered c call a, .called c' call' op'].Sublist t.log)
    (hans : .answered c' call' a' ∈ t.log) :
    (op' = .getInternal kind key → ∃ j' w, j'.itemVersion = some w ∧ (j' = j ∨ v < w) ∧
        a' = .item (Abstract.shown (some j'))) ∧
      (op' = .getAllInternal kind → ∃ results j' w, a' = .items (some results) ∧
        results.own.lookup key = some j' ∧ j'.itemVersion = some w ∧ (j' = j ∨ v < w)) ∧
      ∀ item, op' = .upsertInternal kind item → item.key = key →
        ∃ j' w, a' = .upserted false j' ∧ j'.itemVersion = some w ∧ (j' = j ∨ v < w) := by
  have ht := following_run h₀ hup hsame henc hproto horder h
  have hlinear := ht.follows.linearizes
  have hanswered : .answered c call a ∈ t.log := hbefore.subset (by simp)
  have hcalled' : .called c' call' op' ∈ t.log := hbefore.subset (by simp)
  have hkeep : ∀ x ∈ t.log.filterMap Event.point, ∀ b : Abstract, b.Since kind key j v →
      (b.apply x.2.1).Since kind key j v := by
    intro x hx b hb
    refine hb.apply hv fun allData hxop => ?_
    obtain ⟨e, he, hmade⟩ := ht.follows.made x hx
    cases e with
    | called d call'' op'' =>
      obtain ⟨-, rfl⟩ := Prod.mk.inj (Option.some.inj hmade)
      rw [hxop] at he
      exact hinit d allData (mem_of_called h₀ h he)
    | _ => cases hmade
  -- The later call has its point in a state that still has the item or a newer one.
  obtain ⟨b, hb, hgives⟩ := hlinear.finds (I := fun b : Abstract => b.Since kind key j v)
    hkeep hbefore rfl rfl (ht.mem_points hop hanswered) (ht.mem_points hcalled' hans)
    fun b hgives => Abstract.since_of_shows hgives hshows hv
  refine ⟨?_, ?_, ?_⟩
  · rintro rfl
    obtain ⟨j', w, hitem, hw, hnewer⟩ := hb
    cases a' with
    | item item =>
      have hshown : item = Abstract.shown (b.items kind key) := hgives
      exact ⟨j', w, hw, hnewer, by rw [hshown, hitem]⟩
    | _ => exact absurd hgives id
  · rintro rfl
    obtain ⟨j', w, hitem, hw, hnewer⟩ := hb
    cases a' with
    | items results =>
      cases results with
      | none => exact absurd hgives id
      | some results => exact ⟨results, j', w, rfl, (hgives key).trans hitem, hw, hnewer⟩
    | _ => exact absurd hgives id
  · rintro item rfl rfl
    cases a' with
    | upserted err stored =>
      obtain ⟨rfl, hstored⟩ := hgives
      have hnot : ∀ allData, Op.upsertInternal kind item ≠ .initInternal allData :=
        fun _ => Op.noConfusion
      obtain ⟨j', w, hitem, hw, hnewer⟩ := hb.apply hv hnot
      obtain rfl := Option.some.inj (hstored.symm.trans hitem)
      exact ⟨stored, w, rfl, hw, hnewer⟩
    | _ => exact absurd hgives id

/-- An upsert on one connection, and a read of its key on another after it. -/
def upsertThenRead : List (Label Bool) :=
  [.call false (.upsertInternal .features (.ofVersion "f" 1)), .serve false .none, .serve false .none,
    .deliver false, .serve false .none, .deliver false, .call true (.getInternal .features "f"),
    .serve true .none, .deliver true]

/-- Whose call an event makes, or, if that is an upsert, answers with an item of which version. -/
def brief {ι : Type} : Event ι → Option (ι × CallId × Option ℤ)
  | .called c call _ => some (c, call, none)
  | .answered c call (.upserted _ j) => j.itemVersion.map fun v => (c, call, some v)
  | _ => none

/-- The event is a call. -/
theorem brief_eq_call {ι : Type} {e : Event ι} {c : ι} {call : CallId}
    (h : brief e = some (c, call, none)) : ∃ op, e = .called c call op := by
  unfold brief at h
  split at h <;> simp_all

/-- The event is the answer of an upsert. -/
theorem brief_eq_upserted {ι : Type} {e : Event ι} {c : ι} {call : CallId} {v : ℤ}
    (h : brief e = some (c, call, some v)) :
    ∃ err j, Json.itemVersion j = some v ∧ e = .answered c call (.upserted err j) := by
  unfold brief at h
  split at h
  · cases h
  · next d call' err j =>
    obtain ⟨w, hw, heq⟩ := Option.map_eq_some_iff.1 h
    simp only [Prod.mk.injEq, Option.some.injEq] at heq
    obtain ⟨rfl, rfl, rfl⟩ := heq
    exact ⟨err, j, hw, rfl⟩
  · cases h

/-- The read finds an item of the upsert's version, or a higher one. -/
theorem sessions_monotonic_upsertThenRead :
    ∃ t : Sys Bool, run (opened (fun _ => none) fun _ => connectedState) upsertThenRead = some t ∧
      ∃ a' j w, .answered true 0 a' ∈ t.log ∧ Json.itemVersion j = some w ∧ 1 ≤ w ∧
        a' = .item (Abstract.shown (some j)) := by
  have hend : (run (opened (fun _ => none) fun _ => connectedState) upsertThenRead).map
      (fun t => (t.log.filter fun e => (brief e).isSome).map brief) = some
        [some (false, 0, none), some (false, 0, some 1), some (true, 0, none)] := by decide +kernel
  obtain ⟨t, ht, hlog⟩ := Option.map_eq_some_iff.1 hend
  have hanswer : (run (opened (fun _ => none) fun _ => connectedState) upsertThenRead).map
      (fun t => answersTo true 0 t.log) = some 1 := by decide +kernel
  rw [ht, Option.map_some, Option.some_inj] at hanswer
  -- The calls, and the answer of the upsert between them.
  have hsub := List.filter_sublist (p := fun e => (brief e).isSome) (l := t.log)
  obtain ⟨e₁, es, hes, h₁, hlog⟩ := List.map_eq_cons_iff.1 hlog
  obtain ⟨e₂, es, rfl, h₂, hlog⟩ := List.map_eq_cons_iff.1 hlog
  obtain ⟨e₃, es, rfl, h₃, hlog⟩ := List.map_eq_cons_iff.1 hlog
  obtain rfl := List.map_eq_nil_iff.1 hlog
  obtain ⟨op, rfl⟩ := brief_eq_call h₁
  obtain ⟨err, j₀, hj₀, rfl⟩ := brief_eq_upserted h₂
  obtain ⟨op', rfl⟩ := brief_eq_call h₃
  rw [hes] at hsub
  have hcalled : Event.called false 0 op ∈ t.log := hsub.subset List.mem_cons_self
  have hbefore : [Event.answered false 0 (.upserted err j₀), .called true 0 op'].Sublist t.log :=
    (List.sublist_cons_self _ _).trans hsub
  have hcalled' : Event.called true 0 op' ∈ t.log := hbefore.subset (by simp)
  have hop := mem_of_called (opened_fresh _ _) ht hcalled
  have hop' := mem_of_called (opened_fresh _ _) ht hcalled'
  obtain rfl : op = .upsertInternal .features (.ofVersion "f" 1) := by simpa [upsertThenRead] using hop
  obtain rfl : op' = .getInternal .features "f" := by simpa [upsertThenRead] using hop'
  obtain ⟨a', ha'⟩ := exists_answered (hanswer ▸ Nat.one_pos : 0 < answersTo true 0 t.log)
  -- The run is in order.
  have hone : Along (fun s l => OneWriteAtATime s l ∧ InitsCommit s l)
      (opened (fun _ => none) fun _ => connectedState) upsertThenRead := by decide +kernel
  have hlabels : ∀ l ∈ upsertThenRead, Undisturbed l ∧
      ∀ c op, l = .call c op → op.OfItems ∧ op.NoProto := by
    simp [upsertThenRead, Undisturbed, Op.OfItems, Op.NoProto, Item.ofVersion]
  have horder : Along InOrder (opened (fun _ => none) fun _ => connectedState) upsertThenRead := by
    refine (hone.and (Transition.Along.of_forall fun _ => hlabels)).mono ?_
    rintro s l ⟨⟨hone, hinits⟩, hundisturbed, hcalled⟩
    exact ⟨hundisturbed, hone, hcalled, hinits⟩
  have hshows : Op.Shows .features "f" j₀ (.upsertInternal .features (.ofVersion "f" 1))
      (.upserted err j₀) := ⟨rfl, rfl, rfl⟩
  obtain ⟨j, w, hw, hnewer, ha⟩ := (sessions_monotonic (opened_fresh _ _) (fun _ => rfl) (fun _ => rfl)
    (holdsEncoded_empty _) (fun _ => rfl) horder (by simp [upsertThenRead]) ht hcalled hshows hj₀ hbefore
    ha').1 rfl
  have hle : 1 ≤ w := by
    rcases hnewer with rfl | hlt
    · exact le_of_eq (Option.some.inj (hj₀.symm.trans hw))
    · omega
  exact ⟨t, ht, a', j, w, ha', hw, hle, ha⟩

end Sys

end RedisStore
