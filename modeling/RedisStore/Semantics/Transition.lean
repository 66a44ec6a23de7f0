import Mathlib.Data.List.Basic
import Mathlib.Data.Option.Basic

/-!
# Runs of a labelled transition system

A system is a partial step function on states, `step s l = none` when the label `l` is not enabled
in the state `s`. A run follows a list of labels. The rules for safety: an invariant kept by every step
holds at the end of every run (`run_invariant`), where the steps may be restricted to those that meet a
condition (`Along`); a property that appears during a run appears at one step of it
(`exists_step_of_run`); and a relation between the states of two systems is kept by a run and its
projection (`run_filter`), which is the unwinding rule for noninterference.

The rules for a potential count the steps of a run that have a property (`countAlong`). If the steps of
one kind take from the potential, and a step of another kind adds `k` to it at most, then a run has at most
`k` times as many steps of the first kind as of the second, with what the potential held at the start
(`countAlong_add_le_mul`). And an infinite run (`Follows`) in which from some point on no step adds to the
potential, and which takes from it again and again until a goal is reached, reaches the goal
(`eventually_of_potential`).
-/

namespace RedisStore.Transition

variable {σ τ ℓ : Type*} {step : σ → ℓ → Option σ} {s t u : σ} {l : ℓ} {ls ls₁ ls₂ : List ℓ}

/-- The state after the labels of a list, if each is enabled in its turn. -/
def run (step : σ → ℓ → Option σ) (s : σ) (ls : List ℓ) : Option σ := ls.foldlM step s

@[simp] theorem run_nil : run step s [] = some s := rfl

theorem run_cons : run step s (l :: ls) = (step s l).bind fun t => run step t ls := rfl

/-- A run that starts with `l` takes the step `l` first. -/
theorem run_cons_eq_some :
    run step s (l :: ls) = some u ↔ ∃ t, step s l = some t ∧ run step t ls = some u := by
  rw [run_cons, Option.bind_eq_some_iff]

/-- A run over two lists is a run over each in turn. -/
theorem run_append_eq_some :
    run step s (ls₁ ++ ls₂) = some u ↔ ∃ t, run step s ls₁ = some t ∧ run step t ls₂ = some u := by
  rw [run, List.foldlM_append]
  exact Option.bind_eq_some_iff

/-- A run that ends with `l` takes the step `l` last. -/
theorem run_concat_eq_some :
    run step s (ls ++ [l]) = some u ↔ ∃ t, run step s ls = some t ∧ step t l = some u := by
  rw [run_append_eq_some]
  simp [run_cons]

/-- Every step that the run takes meets the condition `G` on the state before it and its label. -/
def Along (step : σ → ℓ → Option σ) (G : σ → ℓ → Prop) : σ → List ℓ → Prop
  | _, [] => True
  | s, l :: ls => G s l ∧ ∀ t, step s l = some t → Along step G t ls

/-- A condition along a run is checked by taking the run. -/
instance decidableAlong {G : σ → ℓ → Prop} [∀ s l, Decidable (G s l)] :
    ∀ s ls, Decidable (Along step G s ls)
  | _, [] => .isTrue trivial
  | s, l :: ls =>
    match h : step s l with
    | none => decidable_of_iff (G s l) (by simp [Along, h])
    | some t =>
      have := decidableAlong (G := G) t ls
      decidable_of_iff (G s l ∧ Along step G t ls) (by simp [Along, h])

/-- A condition that holds of every step holds along every run. -/
theorem Along.of_forall {G : σ → ℓ → Prop} (h : ∀ s, ∀ l ∈ ls, G s l) : Along step G s ls := by
  induction ls generalizing s with
  | nil => trivial
  | cons l ls ih => exact ⟨h s l (by simp), fun t _ => ih fun s l hl => h s l (by simp [hl])⟩

/-- A condition along a run may be weakened. -/
theorem Along.mono {G H : σ → ℓ → Prop} (h : ∀ s l, G s l → H s l) (hG : Along step G s ls) :
    Along step H s ls := by
  induction ls generalizing s with
  | nil => trivial
  | cons l ls ih => exact ⟨h _ _ hG.1, fun t ht => ih (hG.2 t ht)⟩

/-- Two conditions along a run. -/
theorem Along.and {G H : σ → ℓ → Prop} (hG : Along step G s ls) (hH : Along step H s ls) :
    Along step (fun s l => G s l ∧ H s l) s ls := by
  induction ls generalizing s with
  | nil => trivial
  | cons l ls ih => exact ⟨⟨hG.1, hH.1⟩, fun t ht => ih (hG.2 t ht) (hH.2 t ht)⟩

/-- A condition along a run over two lists holds along each part. -/
theorem along_append {G : σ → ℓ → Prop} (hrun : run step s ls₁ = some t) :
    Along step G s (ls₁ ++ ls₂) ↔ Along step G s ls₁ ∧ Along step G t ls₂ := by
  induction ls₁ generalizing s with
  | nil =>
    obtain rfl : s = t := by simpa using hrun
    simp [Along]
  | cons l ls ih =>
    obtain ⟨u, hu, hrest⟩ := run_cons_eq_some.1 hrun
    simp only [List.cons_append, Along, hu, Option.some.injEq, forall_eq', ih hrest, and_assoc]

/-- An invariant kept by every step that meets the condition holds at the end of a run whose steps
all meet it. -/
theorem run_invariant {P : σ → Prop} {G : σ → ℓ → Prop}
    (hstep : ∀ s l t, P s → G s l → step s l = some t → P t) (hs : P s) (hG : Along step G s ls)
    (hrun : run step s ls = some t) : P t := by
  induction ls generalizing s with
  | nil =>
    obtain rfl : s = t := by simpa using hrun
    exact hs
  | cons l ls ih =>
    obtain ⟨u, hu, hrest⟩ := run_cons_eq_some.1 hrun
    exact ih (hstep s l u hs hG.1 hu) (hG.2 u hu) hrest

/-- It holds along the run, too. -/
theorem Along.of_invariant {P : σ → Prop} {G : σ → ℓ → Prop}
    (hstep : ∀ s l t, P s → G s l → step s l = some t → P t) (hs : P s) (hG : Along step G s ls) :
    Along step (fun s _ => P s) s ls := by
  induction ls generalizing s with
  | nil => trivial
  | cons l ls ih => exact ⟨hs, fun t ht => ih (hstep s l t hs hG.1 ht) (hG.2 t ht)⟩

/-- An invariant kept by every step holds at the end of every run. -/
theorem run_invariant' {P : σ → Prop} (hstep : ∀ s l t, P s → step s l = some t → P t) (hs : P s)
    (hrun : run step s ls = some t) : P t :=
  run_invariant (G := fun _ _ => True) (fun s l t hP _ h => hstep s l t hP h) hs
    (Along.of_forall fun _ _ _ => trivial) hrun

/-- A property that a run ends with and did not start with appears at one of its steps, and holds
from there on. -/
theorem exists_step_of_run {P : σ → Prop} (hs : ¬ P s) (ht : P t) (hrun : run step s ls = some t) :
    ∃ ls₁ l ls₂ u v, ls = ls₁ ++ l :: ls₂ ∧ run step s ls₁ = some u ∧ ¬ P u ∧
      step u l = some v ∧ P v ∧ run step v ls₂ = some t := by
  induction ls generalizing s with
  | nil =>
    obtain rfl : s = t := by simpa using hrun
    exact absurd ht hs
  | cons l ls ih =>
    obtain ⟨v, hv, hrest⟩ := run_cons_eq_some.1 hrun
    by_cases hP : P v
    · exact ⟨[], l, ls, s, v, rfl, rfl, hs, hv, hP, hrest⟩
    · obtain ⟨ls₁, l', ls₂, u, w, rfl, hu, hnu, hw, hPw, hrest'⟩ := ih hP hrest
      exact ⟨l :: ls₁, l', ls₂, u, w, rfl, run_cons_eq_some.2 ⟨v, hv, hu⟩, hnu, hw, hPw, hrest'⟩

/-- The unwinding rule. A step with a label that is `mine` is matched by the same step of the other
system, any other step by none; then a run is matched by its own labels alone. -/
theorem run_filter {step' : τ → ℓ → Option τ} {R : σ → τ → Prop} {G : σ → ℓ → Prop}
    {mine : ℓ → Bool}
    (hmine : ∀ s l t u, R s u → G s l → mine l = true → step s l = some t →
      ∃ v, step' u l = some v ∧ R t v)
    (hother : ∀ s l t u, R s u → G s l → mine l = false → step s l = some t → R t u)
    {u : τ} (hR : R s u) (hG : Along step G s ls) (hrun : run step s ls = some t) :
    ∃ v, run step' u (ls.filter mine) = some v ∧ R t v := by
  induction ls generalizing s u with
  | nil =>
    obtain rfl : s = t := by simpa using hrun
    exact ⟨u, rfl, hR⟩
  | cons l ls ih =>
    obtain ⟨w, hw, hrest⟩ := run_cons_eq_some.1 hrun
    cases hm : mine l with
    | true =>
      obtain ⟨v, hv, hRv⟩ := hmine s l w u hR hG.1 hm hw
      obtain ⟨x, hx, hRx⟩ := ih hRv (hG.2 w hw) hrest
      exact ⟨x, by rw [List.filter_cons_of_pos hm, run_cons_eq_some]; exact ⟨v, hv, hx⟩, hRx⟩
    | false =>
      obtain ⟨x, hx, hRx⟩ := ih (hother s l w u hR hG.1 hm hw) (hG.2 w hw) hrest
      exact ⟨x, by rw [List.filter_cons_of_neg (by simp [hm])]; exact hx, hRx⟩

/-! ## Counting steps -/

variable {p q : σ → ℓ → Bool}

/-- The number of steps that a run takes with a property of the state before it and its label. -/
def countAlong (step : σ → ℓ → Option σ) (p : σ → ℓ → Bool) : σ → List ℓ → ℕ
  | _, [] => 0
  | s, l :: ls => (p s l).toNat +
    match step s l with
    | some t => countAlong step p t ls
    | none => 0

@[simp] theorem countAlong_nil : countAlong step p s [] = 0 := rfl

/-- The first step and the rest. -/
theorem countAlong_cons (h : step s l = some t) :
    countAlong step p s (l :: ls) = (p s l).toNat + countAlong step p t ls := by
  rw [countAlong, h]

/-- A run over two lists. -/
theorem countAlong_append (hrun : run step s ls₁ = some t) :
    countAlong step p s (ls₁ ++ ls₂) = countAlong step p s ls₁ + countAlong step p t ls₂ := by
  induction ls₁ generalizing s with
  | nil =>
    obtain rfl : s = t := by simpa using hrun
    rw [List.nil_append, countAlong_nil, Nat.zero_add]
  | cons l ls ih =>
    obtain ⟨u, hu, hrest⟩ := run_cons_eq_some.1 hrun
    rw [List.cons_append, countAlong_cons hu, countAlong_cons hu, ih hrest, Nat.add_assoc]

/-- The charging rule, with a potential `Φ` and an invariant `I` of the states: a step of the second kind
pays for `k` steps of the first. -/
theorem countAlong_add_le_mul {I : σ → Prop} {Φ : σ → ℕ} {k : ℕ}
    (hI : ∀ s l t, I s → step s l = some t → I t)
    (hΦ : ∀ s l t, I s → step s l = some t → (p s l).toNat + Φ t ≤ k * (q s l).toNat + Φ s)
    (hs : I s) (hrun : run step s ls = some t) :
    countAlong step p s ls + Φ t ≤ k * countAlong step q s ls + Φ s := by
  induction ls generalizing s with
  | nil =>
    obtain rfl : s = t := by simpa using hrun
    rw [countAlong_nil, countAlong_nil]
    omega
  | cons l ls ih =>
    obtain ⟨u, hu, hrest⟩ := run_cons_eq_some.1 hrun
    have hone := hΦ s l u hs hu
    have hmore := ih (hI s l u hs hu) hrest
    rw [countAlong_cons hu, countAlong_cons hu, Nat.mul_add]
    omega

/-- Where it pays for one. -/
theorem countAlong_add_le {I : σ → Prop} {Φ : σ → ℕ}
    (hI : ∀ s l t, I s → step s l = some t → I t)
    (hΦ : ∀ s l t, I s → step s l = some t → (p s l).toNat + Φ t ≤ (q s l).toNat + Φ s) (hs : I s)
    (hrun : run step s ls = some t) :
    countAlong step p s ls + Φ t ≤ countAlong step q s ls + Φ s := by
  have hmul := countAlong_add_le_mul (k := 1) hI (fun s l t hI' hstep => by
    rw [Nat.one_mul]
    exact hΦ s l t hI' hstep) hs hrun
  rwa [Nat.one_mul] at hmul

/-! ## Infinite runs -/

/-- The infinite sequence of states follows the labels. -/
def Follows (step : σ → ℓ → Option σ) (states : ℕ → σ) (labels : ℕ → ℓ) : Prop :=
  ∀ n, step (states n) (labels n) = some (states (n + 1))

variable {states : ℕ → σ} {labels : ℕ → ℓ}

/-- Every state of an infinite run is reached by a finite one from the first. -/
theorem Follows.run (h : Follows step states labels) (n : ℕ) :
    Transition.run step (states 0) ((List.range n).map labels) = some (states n) := by
  induction n with
  | zero => rfl
  | succ n ih =>
    rw [List.range_succ, List.map_append, List.map_singleton, run_concat_eq_some]
    exact ⟨states n, ih, h n⟩

/-- The states that follow the labels from a state, as long as each label is enabled. -/
def follow (step : σ → ℓ → Option σ) (s : σ) (labels : ℕ → ℓ) : ℕ → σ
  | 0 => s
  | n + 1 => (step (follow step s labels n) (labels n)).getD (follow step s labels n)

/-- If each label is enabled they are an infinite run. -/
theorem follows_follow (h : ∀ n, (step (follow step s labels n) (labels n)).isSome) :
    Follows step (follow step s labels) labels := by
  intro n
  obtain ⟨t, ht⟩ := Option.isSome_iff_exists.1 (h n)
  rw [follow, ht]
  rfl

/-- An infinite run from which the potential is taken until the goal is reached, and never added to,
reaches the goal. -/
theorem eventually_of_potential {P : σ → Prop} {Φ : σ → ℕ} {n₀ : ℕ}
    (hle : ∀ n, n₀ ≤ n → Φ (states (n + 1)) ≤ Φ (states n))
    (hlt : ∀ n, n₀ ≤ n → (∀ m, n ≤ m → ¬ P (states m)) →
      ∃ m, n ≤ m ∧ Φ (states (m + 1)) < Φ (states m)) :
    ∃ n, n₀ ≤ n ∧ P (states n) := by
  by_contra hnever
  have hno : ∀ m, n₀ ≤ m → ¬ P (states m) := by
    intro m hm hgoal
    exact hnever ⟨m, hm, hgoal⟩
  -- From there on the potential sinks below every bound.
  have hanti : ∀ n k, n₀ ≤ n → Φ (states (n + k)) ≤ Φ (states n) := by
    intro n k hn
    induction k with
    | zero => exact Nat.le_refl _
    | succ k ih =>
      have hone := hle (n + k) (by omega)
      exact Nat.le_trans hone ih
  have hsink : ∀ d, ∃ n, n₀ ≤ n ∧ Φ (states n) + d ≤ Φ (states n₀) := by
    intro d
    induction d with
    | zero => exact ⟨n₀, Nat.le_refl _, Nat.le_refl _⟩
    | succ d ih =>
      obtain ⟨n, hn, hd⟩ := ih
      obtain ⟨m, hm, hless⟩ := hlt n hn fun m hm => hno m (by omega)
      have hbefore : Φ (states m) ≤ Φ (states n) := by
        have hsum : n + (m - n) = m := by omega
        rw [← hsum]
        exact hanti n (m - n) hn
      exact ⟨m + 1, by omega, by omega⟩
  obtain ⟨n, -, hn⟩ := hsink (Φ (states n₀) + 1)
  omega

end RedisStore.Transition
