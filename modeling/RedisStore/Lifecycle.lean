import RedisStore.Semantics.Transition
import RedisStore.Store.Base

/-!
# The stores of a process and their clients

A process builds stores, on clients that it supplies or on clients that the stores create; an event of a
client goes to the listeners of every store on it; and `close` quits the client of a store that created
it. Over any such history a `close` never takes the client away from another store, and it never quits a
client that the process has supplied (`quits_eq`). Two stores on one client with the same prefix are in the
same state from the first `connect` or `end` on that both have heard (`stores_agree`), as the model of a
connection has it, with one state for all its stores.
-/

namespace RedisStore

/-- A client object of a process: one that it supplies, or one that a store has created, by its number. -/
inductive ClientRef (κ : Type) where
  | supplied (client : κ)
  | created (number : ℕ)
deriving DecidableEq

/-- A store that has been built: its client, and its state. -/
structure BuiltStore (κ : Type) where
  client : ClientRef κ
  state : StoreState

/-- `close`: whether it calls `client.quit()`. -/
def close (state : StoreState) : Bool := state.stopClientOnClose

/-- A process: its stores in the order in which they were built, how many clients the stores have created,
and the clients that have been told to quit. -/
structure Process (κ : Type) where
  stores : List (BuiltStore κ)
  clients : ℕ
  quits : List (ClientRef κ)

/-- What a process does. -/
inductive Action (ρ κ : Type) where
  /-- A store of either type is built: `initState` is called. -/
  | build (options : Options ρ κ)
  /-- A client reports an event. -/
  | event (client : ClientRef κ) (event : ClientEvent)
  /-- `close` of a store, by its place in the order. -/
  | close (store : ℕ)

/-- The action closes this store. -/
def Action.closes {ρ κ : Type} (store : ℕ) : Action ρ κ → Bool
  | .close i => i = store
  | _ => false

/-- The event tells whether the connection is up. -/
def ClientEvent.tells : ClientEvent → Bool
  | .connect => true
  | .ended => true
  | _ => false

namespace Process

variable {ρ κ : Type} [DecidableEq κ]

/-- The listeners of a store, on an event of a client. -/
def hear (client : ClientRef κ) (event : ClientEvent) (store : BuiltStore κ) : BuiltStore κ :=
  if store.client = client then { store with state := (store.state.onEvent event).1 } else store

/-- The next state, if the store to be closed exists. -/
def step (p : Process κ) : Action ρ κ → Option (Process κ)
  | .build options =>
    match initState options with
    | (.supplied client, state) => some { p with stores := p.stores ++ [⟨.supplied client, state⟩] }
    | (.created _, state) =>
      some { p with stores := p.stores ++ [⟨.created p.clients, state⟩], clients := p.clients + 1 }
  | .event client event => some { p with stores := p.stores.map (hear client event) }
  | .close i =>
    match p.stores[i]? with
    | none => none
    | some store => some (if close store.state then { p with quits := p.quits ++ [store.client] } else p)

/-- A run of the process. -/
abbrev run (p : Process κ) (as : List (Action ρ κ)) : Option (Process κ) := Transition.run step p as

/-- A process without stores. -/
def start : Process κ := ⟨[], 0, []⟩

/-! ## Who quits a client -/

@[simp] theorem hear_client (client : ClientRef κ) (event : ClientEvent) (store : BuiltStore κ) :
    (hear client event store).client = store.client := by
  unfold hear
  split_ifs <;> rfl

@[simp] theorem hear_stopClientOnClose (client : ClientRef κ) (event : ClientEvent)
    (store : BuiltStore κ) :
    (hear client event store).state.stopClientOnClose = store.state.stopClientOnClose := by
  unfold hear
  split_ifs
  · cases event <;> rfl
  · rfl

/-- A store on a client that was supplied does not stop it and has never waited for its first connection;
a store on another client stops it, and the client has been created. -/
def Owns (clients : ℕ) (store : BuiltStore κ) : Prop :=
  match store.client with
  | .supplied _ => store.state.stopClientOnClose = false ∧ store.state.initialConnect = false
  | .created n => store.state.stopClientOnClose = true ∧ n < clients

/-- What holds of a process after some actions. -/
structure Tidy (as : List (Action ρ κ)) (p : Process κ) : Prop where
  owns : ∀ store ∈ p.stores, Owns p.clients store
  /-- A client that a store has created is used by this store alone. -/
  alone : ∀ (i j : ℕ) (a b : BuiltStore κ), p.stores[i]? = some a → p.stores[j]? = some b →
    a.client = b.client → a.state.stopClientOnClose = true → i = j
  /-- A store that does not exist has not been closed. -/
  unbuilt : ∀ i, p.stores.length ≤ i → as.countP (Action.closes i) = 0
  /-- The clients that have been told to quit were created by stores. -/
  quitters : ∀ client ∈ p.quits, ∃ n < p.clients, client = .created n
  /-- As often as the store was closed. -/
  quits : ∀ (i : ℕ) (a : BuiltStore κ), p.stores[i]? = some a → p.quits.count a.client =
    if a.state.stopClientOnClose then as.countP (Action.closes i) else 0

variable {as : List (Action ρ κ)} {p q : Process κ}

omit [DecidableEq κ] in
/-- A store that stops its client has created it. -/
theorem Owns.created {clients : ℕ} {store : BuiltStore κ} (h : Owns clients store)
    (hstop : store.state.stopClientOnClose = true) : ∃ n < clients, store.client = .created n := by
  unfold Owns at h
  cases hclient : store.client with
  | supplied client =>
    rw [hclient] at h
    exact absurd (h.1.symm.trans hstop) (by simp)
  | created n =>
    rw [hclient] at h
    exact ⟨n, h.2, rfl⟩

omit [DecidableEq κ] in
theorem Owns.mono {m n : ℕ} {store : BuiltStore κ} (h : Owns m store) (hmn : m ≤ n) : Owns n store := by
  unfold Owns at h ⊢
  cases hclient : store.client with
  | supplied client =>
    rw [hclient] at h
    exact h
  | created k =>
    rw [hclient] at h
    exact ⟨h.1, lt_of_lt_of_le h.2 hmn⟩

omit [DecidableEq κ] in
/-- A store in a list with one more at its end. -/
theorem getElem?_built {stores : List (BuiltStore κ)} {x a : BuiltStore κ} {i : ℕ}
    (h : (stores ++ [x])[i]? = some a) : stores[i]? = some a ∨ i = stores.length ∧ a = x := by
  rcases lt_trichotomy i stores.length with hlt | rfl | hgt
  · rw [List.getElem?_append_left hlt] at h
    exact .inl h
  · rw [List.getElem?_concat_length] at h
    exact .inr ⟨rfl, (Option.some.inj h).symm⟩
  · rw [List.getElem?_eq_none (by simpa using hgt)] at h
    cases h

/-- A new store is on a client that was supplied or is new. -/
theorem Tidy.build (h : Tidy as p) {a : Action ρ κ} (ha : ∀ i, a.closes i = false) {n : ℕ}
    (hn : p.clients ≤ n) {x : BuiltStore κ} (hx : Owns n x)
    (hnew : ∀ k, x.client = .created k → p.clients ≤ k) :
    Tidy (as ++ [a]) { p with stores := p.stores ++ [x], clients := n } := by
  -- No older store owns the client of the new one.
  have hother : ∀ (i : ℕ) (b : BuiltStore κ), p.stores[i]? = some b → b.client = x.client →
      b.state.stopClientOnClose = true ∨ x.state.stopClientOnClose = true → False := by
    intro i b hb hclient hstop
    have hb' : Owns p.clients b := h.owns b (List.mem_of_getElem? hb)
    have hcreated : ∃ k < p.clients, x.client = .created k := by
      rcases hstop with hstop | hstop
      · rw [← hclient]
        exact hb'.created hstop
      · obtain ⟨k, -, hk⟩ := hx.created hstop
        unfold Owns at hb'
        rw [hclient, hk] at hb'
        exact ⟨k, hb'.2, hk⟩
    obtain ⟨k, hlt, hk⟩ := hcreated
    exact absurd (hnew k hk) (not_le.2 hlt)
  have hcount : ∀ i, (as ++ [a]).countP (Action.closes i) = as.countP (Action.closes i) := by
    intro i
    rw [List.countP_append, List.countP_singleton, ha i]
    rfl
  constructor
  · intro store hstore
    rcases List.mem_append.1 hstore with hold | hsame
    · exact (h.owns store hold).mono hn
    · rw [List.mem_singleton.1 hsame]
      exact hx
  · intro i j b c hb hc hclient hstop
    rcases getElem?_built hb with hb' | ⟨hi, rfl⟩ <;> rcases getElem?_built hc with hc' | ⟨hj, hnew'⟩
    · exact h.alone i j b c hb' hc' hclient hstop
    · rw [hnew'] at hclient
      exact (hother i b hb' hclient (.inl hstop)).elim
    · exact (hother j c hc' hclient.symm (.inr hstop)).elim
    · rw [hi, hj]
  · intro i hi
    rw [hcount]
    exact h.unbuilt i (by simp at hi; omega)
  · intro client hclient
    obtain ⟨k, hlt, hk⟩ := h.quitters client hclient
    exact ⟨k, lt_of_lt_of_le hlt hn, hk⟩
  · intro i b hb
    rw [hcount]
    rcases getElem?_built hb with hb | ⟨rfl, rfl⟩
    · exact h.quits i b hb
    · -- The client of the new store has not been told to quit, and the store has not been closed.
      have hzero : p.quits.count b.client = 0 := by
        rw [List.count_eq_zero]
        intro hmem
        obtain ⟨k, hlt, hk⟩ := h.quitters _ hmem
        exact absurd (hnew k hk) (not_le.2 hlt)
      rw [h.unbuilt _ le_rfl]
      simpa using hzero

/-- An event leaves the clients and who owns them. -/
theorem Tidy.event (h : Tidy as p) {a : Action ρ κ} (ha : ∀ i, a.closes i = false)
    (client : ClientRef κ) (event : ClientEvent) :
    Tidy (as ++ [a]) { p with stores := p.stores.map (hear client event) } := by
  have hcount : ∀ i, (as ++ [a]).countP (Action.closes i) = as.countP (Action.closes i) := by
    intro i
    rw [List.countP_append, List.countP_singleton, ha i]
    rfl
  have hwas : ∀ {i : ℕ} {b : BuiltStore κ}, (p.stores.map (hear client event))[i]? = some b →
      ∃ b', p.stores[i]? = some b' ∧ hear client event b' = b := by
    intro i b hb
    rw [List.getElem?_map] at hb
    exact Option.map_eq_some_iff.1 hb
  constructor
  · intro store hstore
    obtain ⟨store', hstore', rfl⟩ := List.mem_map.1 hstore
    have hown := h.owns store' hstore'
    unfold Owns at hown ⊢
    rw [hear_client, hear_stopClientOnClose]
    cases hclient : store'.client with
    | supplied k =>
      rw [hclient] at hown
      refine ⟨hown.1, ?_⟩
      unfold hear
      split_ifs
      · cases event <;> first | exact hown.2 | rfl
      · exact hown.2
    | created n =>
      rw [hclient] at hown
      exact hown
  · intro i j b c hb hc hclient hstop
    obtain ⟨b', hb', rfl⟩ := hwas hb
    obtain ⟨c', hc', rfl⟩ := hwas hc
    rw [hear_client, hear_client] at hclient
    rw [hear_stopClientOnClose] at hstop
    exact h.alone i j b' c' hb' hc' hclient hstop
  · intro i hi
    rw [hcount]
    exact h.unbuilt i (by simpa using hi)
  · exact h.quitters
  · intro i b hb
    obtain ⟨b', hb', rfl⟩ := hwas hb
    rw [hcount, hear_client, hear_stopClientOnClose]
    exact h.quits i b' hb'

omit [DecidableEq κ] in
/-- A close is one close of its store, and none of another. -/
theorem countP_close (as : List (Action ρ κ)) (i j : ℕ) :
    (as ++ [(.close i : Action ρ κ)]).countP (Action.closes j) =
      as.countP (Action.closes j) + if i = j then 1 else 0 := by
  rw [List.countP_append, List.countP_singleton]
  simp [Action.closes]

/-- A close tells the client of the store to quit if the store has created it. -/
theorem Tidy.close (h : Tidy as p) {i : ℕ} {store : BuiltStore κ} (hstore : p.stores[i]? = some store) :
    Tidy (as ++ [(.close i : Action ρ κ)]) (if RedisStore.close store.state
      then { p with quits := p.quits ++ [store.client] } else p) := by
  have hlt : i < p.stores.length := (List.getElem?_eq_some_iff.1 hstore).1
  have hunbuilt : ∀ j, p.stores.length ≤ j →
      (as ++ [(.close i : Action ρ κ)]).countP (Action.closes j) = 0 := by
    intro j hj
    have hne : i ≠ j := by omega
    rw [countP_close, h.unbuilt j hj, if_neg hne]
  cases hstop : RedisStore.close store.state with
  | false =>
    rw [if_neg Bool.false_ne_true]
    refine ⟨h.owns, h.alone, hunbuilt, h.quitters, fun j a ha => ?_⟩
    -- The store that is closed does not count.
    have hquits := h.quits j a ha
    by_cases hij : i = j
    · obtain rfl : store = a := Option.some.inj (hstore.symm.trans (by rw [hij]; exact ha))
      have hnot : store.state.stopClientOnClose = false := hstop
      rw [hnot] at hquits ⊢
      exact hquits
    · rw [countP_close, if_neg hij]
      exact hquits
  | true =>
    obtain ⟨n, hn, hcreated⟩ := (h.owns store (List.mem_of_getElem? hstore)).created hstop
    rw [if_pos rfl]
    refine ⟨h.owns, h.alone, hunbuilt, fun client hclient => ?_, fun j a ha => ?_⟩
    · rcases List.mem_append.1 hclient with hold | hnew
      · exact h.quitters client hold
      · exact ⟨n, hn, (List.mem_singleton.1 hnew).trans hcreated⟩
    · have hquits := h.quits j a ha
      rw [countP_close, List.count_append, hquits]
      by_cases hij : i = j
      · obtain rfl : store = a := Option.some.inj (hstore.symm.trans (by rw [hij]; exact ha))
        have hown : store.state.stopClientOnClose = true := hstop
        simp [hown, hij]
      · -- The client of another store is another one.
        have hne : store.client ≠ a.client := fun hsame => hij (h.alone i j store a hstore ha hsame hstop)
        simp [hij, hne]

theorem tidy_step (h : Tidy as p) {a : Action ρ κ} (hpq : step p a = some q) : Tidy (as ++ [a]) q := by
  cases a with
  | build options =>
    have ha : ∀ i, (Action.build options : Action ρ κ).closes i = false := fun _ => rfl
    unfold step at hpq
    cases hclient : options.client with
    | some client =>
      simp only [initState, hclient, Option.some_inj] at hpq
      subst hpq
      exact h.build ha le_rfl ⟨rfl, rfl⟩ fun k hk => by cases hk
    | none =>
      simp only [initState, hclient, Option.some_inj] at hpq
      subst hpq
      refine h.build ha (Nat.le_succ _) ⟨rfl, Nat.lt_succ_self _⟩ fun k hk => ?_
      obtain rfl := ClientRef.created.inj hk
      exact le_rfl
  | event client event =>
    obtain rfl := Option.some.inj hpq
    exact h.event (fun _ => rfl) client event
  | close i =>
    unfold step at hpq
    dsimp only at hpq
    cases hstore : p.stores[i]? with
    | none =>
      rw [hstore] at hpq
      cases hpq
    | some store =>
      rw [hstore] at hpq
      obtain rfl := Option.some.inj hpq
      exact h.close hstore

theorem tidy_run (h : run start as = some p) : Tidy as p := by
  induction as using List.reverseRecOn generalizing p with
  | nil =>
    obtain rfl := Option.some.inj h
    constructor
    · intro store hstore
      cases hstore
    · intro i j a b ha
      cases ha
    · intro i _
      rfl
    · intro client hclient
      cases hclient
    · intro i a ha
      cases ha
  | append_singleton as a ih =>
    obtain ⟨q, hq, hqp⟩ := Transition.run_concat_eq_some.1 h
    exact tidy_step (ih hq) hqp

/-- In every history of a process that builds stores, closes them and reports events: a client that the
process supplied is never told to quit; the client of a store that has created it is told so exactly as
often as this store is closed; and no other store is on it. -/
theorem quits_eq (h : run start as = some p) {i : ℕ} {store : BuiltStore κ}
    (hstore : p.stores[i]? = some store) :
    (∀ client, .supplied client ∉ p.quits) ∧
      p.quits.count store.client =
        (if store.state.stopClientOnClose then as.countP (Action.closes i) else 0) ∧
      (store.client ∈ p.quits → ∀ j other, p.stores[j]? = some other →
        other.client = store.client → j = i) := by
  have htidy : Tidy as p := tidy_run h
  refine ⟨fun client hmem => ?_, htidy.quits i store hstore, fun hmem j other hother hclient => ?_⟩
  · obtain ⟨n, -, hcreated⟩ := htidy.quitters _ hmem
    cases hcreated
  · -- A client that was told to quit belongs to the store.
    have hstop : store.state.stopClientOnClose = true := by
      by_contra hnot
      have hzero := htidy.quits i store hstore
      rw [if_neg hnot] at hzero
      exact absurd (List.count_pos_iff.2 hmem) (by omega)
    exact (htidy.alone i j store other hstore hother hclient.symm hstop).symm

/-- A store on its own client between two on a client of the process, where all three are closed. -/
def threeClosed : List (Action Unit Unit) :=
  [.build ⟨none, none, some (), none⟩, .build ⟨none, none, none, none⟩,
    .build ⟨none, none, some (), none⟩, .close 0, .close 1, .close 2]

/-- The client of the second store is told to quit, once. -/
theorem quits_eq_three :
    ∃ (p : Process Unit) (store : BuiltStore Unit), run start threeClosed = some p ∧
      p.stores[1]? = some store ∧ (∀ client, .supplied client ∉ p.quits) ∧
      p.quits.count store.client =
        (if store.state.stopClientOnClose then threeClosed.countP (Action.closes 1) else 0) ∧
      (store.client ∈ p.quits → ∀ j other, p.stores[j]? = some other →
        other.client = store.client → j = 1) :=
  ⟨_, _, rfl, rfl, quits_eq (show run start threeClosed = some _ from rfl) rfl⟩

/-! ## Stores on one client -/

/-- A step leaves a store as it is, or its listeners run. -/
theorem stores_of_step {a : Action ρ κ} (hpq : step p a = some q) :
    ∃ f : BuiltStore κ → BuiltStore κ, (f = id ∨ ∃ client event, a = .event client event ∧
        f = hear client event) ∧
      ∀ (i : ℕ) (x : BuiltStore κ), p.stores[i]? = some x → q.stores[i]? = some (f x) := by
  have hbuilt : ∀ (i : ℕ) (x y : BuiltStore κ), p.stores[i]? = some x →
      (p.stores ++ [y])[i]? = some (id x) := by
    intro i x y hx
    rw [List.getElem?_append_left (List.getElem?_eq_some_iff.1 hx).1]
    exact hx
  cases a with
  | build options =>
    refine ⟨id, .inl rfl, fun i x hx => ?_⟩
    unfold step at hpq
    cases hclient : options.client with
    | some client =>
      simp only [initState, hclient, Option.some_inj] at hpq
      subst hpq
      exact hbuilt i x _ hx
    | none =>
      simp only [initState, hclient, Option.some_inj] at hpq
      subst hpq
      exact hbuilt i x _ hx
  | event client event =>
    obtain rfl := Option.some.inj hpq
    refine ⟨hear client event, .inr ⟨client, event, rfl, rfl⟩, fun i x hx => ?_⟩
    show (p.stores.map (hear client event))[i]? = _
    rw [List.getElem?_map, hx]
    rfl
  | close i =>
    refine ⟨id, .inl rfl, fun j x hx => ?_⟩
    unfold step at hpq
    dsimp only at hpq
    split at hpq
    · cases hpq
    · obtain rfl := Option.some.inj hpq
      split_ifs <;> exact hx

/-- Two stores that are supplied with one client and have one prefix are in one state after an event that
tells whether the connection is up. -/
theorem hear_eq {clients : ℕ} {x y : BuiltStore κ} (hx : Owns clients x)
    (hy : Owns clients y) {k : κ} (hxk : x.client = .supplied k) (hyk : y.client = .supplied k)
    (hkeys : x.state.itemsPrefix = y.state.itemsPrefix) {event : ClientEvent}
    (htells : event.tells = true) : hear (.supplied k) event x = hear (.supplied k) event y := by
  unfold Owns at hx hy
  rw [hxk] at hx
  rw [hyk] at hy
  obtain ⟨client, state⟩ := x
  obtain ⟨client', state'⟩ := y
  obtain ⟨itemsPrefix, connected, initialConnect, stopClientOnClose⟩ := state
  obtain ⟨itemsPrefix', connected', initialConnect', stopClientOnClose'⟩ := state'
  dsimp only at hx hy hxk hyk hkeys
  obtain ⟨rfl, rfl⟩ := hx
  obtain ⟨rfl, rfl⟩ := hy
  subst hxk hyk hkeys
  unfold hear
  rw [if_pos rfl, if_pos rfl]
  cases event with
  | connect => rfl
  | ended => rfl
  | _ => cases htells

/-- Two stores, by their places, are on the client and have one prefix. -/
def Share (p : Process κ) (client : ClientRef κ) (i j : ℕ) : Prop :=
  ∃ x y, p.stores[i]? = some x ∧ p.stores[j]? = some y ∧ x.client = client ∧ y.client = client ∧
    x.state.itemsPrefix = y.state.itemsPrefix

/-- Stores keep their client and their prefix. -/
theorem share_run {client : ClientRef κ} {i j : ℕ} (hp : Share p client i j)
    (h : run p as = some q) : Share q client i j := by
  refine Transition.run_invariant' (P := fun p : Process κ => Share p client i j) ?_ hp h
  intro w l w' hw hstep
  obtain ⟨x, y, hx, hy, hxc, hyc, hsame⟩ := hw
  obtain ⟨f, hf, hstores⟩ := stores_of_step hstep
  refine ⟨f x, f y, hstores i x hx, hstores j y hy, ?_⟩
  rcases hf with rfl | ⟨client', event, -, rfl⟩
  · exact ⟨hxc, hyc, hsame⟩
  · refine ⟨(hear_client client' event x).trans hxc, (hear_client client' event y).trans hyc, ?_⟩
    unfold hear
    rw [hxc, hyc]
    split_ifs
    · simpa using hsame
    · exact hsame

/-- Such stores are the same after an event that tells whether the connection is up. -/
theorem Tidy.same_heard (h : Tidy as p) {client : ClientRef κ} {i j : ℕ} (hp : Share p client i j)
    {event : ClientEvent} (htells : event.tells = true) :
    ∃ z, (p.stores.map (hear client event))[i]? = some z ∧
      (p.stores.map (hear client event))[j]? = some z := by
  obtain ⟨x, y, hx, hy, hxc, hyc, hsame⟩ := hp
  have hheard : ∀ (k : ℕ) (z : BuiltStore κ), p.stores[k]? = some z →
      (p.stores.map (hear client event))[k]? = some (hear client event z) := by
    intro k z hz
    rw [List.getElem?_map, hz]
    rfl
  refine ⟨hear client event x, hheard i x hx, (hheard j y hy).trans (congrArg some ?_)⟩
  have hox : Owns p.clients x := h.owns x (List.mem_of_getElem? hx)
  have hoy : Owns p.clients y := h.owns y (List.mem_of_getElem? hy)
  cases client with
  | supplied k => exact (hear_eq hox hoy hxc hyc hsame htells).symm
  | created n =>
    -- A client that a store has created has no other store.
    have hstop : x.state.stopClientOnClose = true := by
      unfold Owns at hox
      rw [hxc] at hox
      exact hox.1
    obtain rfl := h.alone i j x y hx hy (hxc.trans hyc.symm) hstop
    rw [Option.some.inj (hx.symm.trans hy)]

/-- Stores that are the same stay so. -/
theorem same_run {i j : ℕ} (hp : ∃ z, p.stores[i]? = some z ∧ p.stores[j]? = some z)
    (h : run p as = some q) : ∃ z, q.stores[i]? = some z ∧ q.stores[j]? = some z := by
  refine Transition.run_invariant' (P := fun p : Process κ => ∃ z, p.stores[i]? = some z ∧
    p.stores[j]? = some z) ?_ hp h
  intro w l w' hw hstep
  obtain ⟨z, hzi, hzj⟩ := hw
  obtain ⟨f, -, hstores⟩ := stores_of_step hstep
  exact ⟨f z, hstores i z hzi, hstores j z hzj⟩

/-- In every history of a process: two stores on one client that have the same prefix are in the same state
at every time after an event of the client that both have heard and that tells whether the connection is
up. -/
theorem stores_agree {as' : List (Action ρ κ)} {s t : Process κ} (hs : run start as = some s)
    (ht : run s as' = some t) {i j : ℕ} {a b : BuiltStore κ} (ha : s.stores[i]? = some a)
    (hb : s.stores[j]? = some b) (hclient : a.client = b.client)
    (hkeys : a.state.itemsPrefix = b.state.itemsPrefix) {event : ClientEvent}
    (htells : event.tells = true) (hheard : .event a.client event ∈ as') :
    ∃ x, t.stores[i]? = some x ∧ t.stores[j]? = some x := by
  obtain ⟨as₁, as₂, rfl⟩ := List.append_of_mem hheard
  obtain ⟨u, hu, hrest⟩ := Transition.run_append_eq_some.1 ht
  obtain ⟨v, hv, hvt⟩ := Transition.run_cons_eq_some.1 hrest
  have hshare : Share u a.client i j :=
    share_run ⟨a, b, ha, hb, rfl, hclient.symm, hkeys⟩ hu
  have htidy : Tidy (as ++ as₁) u := tidy_run (Transition.run_append_eq_some.2 ⟨s, hs, hu⟩)
  have hsame := htidy.same_heard hshare htells
  obtain rfl := Option.some.inj hv
  exact same_run hsame hvt

/-- A store that is built while the connection of the process's client is down, as an older one knows. -/
def builtWhileDown : List (Action Unit Unit) :=
  [.build ⟨none, none, some (), none⟩, .event (.supplied ()) .ended, .build ⟨none, none, some (), none⟩]

/-- The connection is made again. -/
def madeAgain : List (Action Unit Unit) := [.event (.supplied ()) .connect]

/-- The two differ before, and agree after it. -/
theorem stores_agree_reconnected :
    ∃ s t : Process Unit, run start builtWhileDown = some s ∧ run s madeAgain = some t ∧
      (s.stores[0]?.map fun a => a.state.connected) ≠ (s.stores[1]?.map fun b => b.state.connected) ∧
      ∃ x, t.stores[0]? = some x ∧ t.stores[1]? = some x :=
  have htells : ClientEvent.connect.tells = true := rfl
  ⟨_, _, rfl, rfl, by decide,
    stores_agree (show run start builtWhileDown = some _ from rfl)
      (show run _ madeAgain = some _ from rfl) (i := 0) (j := 1) rfl rfl rfl rfl htells
      (by simp [madeAgain])⟩

end Process

end RedisStore
