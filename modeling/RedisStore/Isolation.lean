import RedisStore.Calls
import RedisStore.Init

/-!
# Stores with different prefixes

A connection's commands are about keys with its prefix, and so are its watches (`Confined`). Keys with
different prefixes differ (`key_eq_iff`), so what happens on the connections with some prefixes is the
same with the steps of the other connections left out (`prefixes_isolate`).
-/

namespace RedisStore

open Redis

/-- The user hash of a call is of the form that the SDK passes. -/
def Op.Hashed : Op → Prop
  | .getUserMembership userHash => ∃ h : UserHash, h.text = userHash
  | _ => True

/-- The user hash of the call that a step makes is of this form. -/
def Label.Hashed {ι : Type} : Label ι → Prop
  | .call _ op => op.Hashed
  | _ => True

/-- The keys of a request are keys of the store. -/
theorem Issued.keys {state : StoreState} {r : Request} (hr : Issued state r)
    (hhash : ∀ cb, r.callback = some cb → cb.op.Hashed) :
    ∀ key ∈ r.cmd.keys, ∃ k : StoreKey, key = k.key state := by
  intro key hkey
  cases hr with
  | watch kind => exact ⟨.items kind, List.mem_singleton.1 hkey⟩
  | getRead kind field call => exact ⟨.items kind, List.mem_singleton.1 hkey⟩
  | upsertRead kind item call => exact ⟨.items kind, List.mem_singleton.1 hkey⟩
  | upsertWrite kind item call => exact ⟨.items kind, List.mem_singleton.1 hkey⟩
  | getAll kind call => exact ⟨.items kind, List.mem_singleton.1 hkey⟩
  | init allData call multi hb =>
    obtain ⟨w, hw, rfl⟩ := List.mem_map.1 hkey
    obtain ⟨k, -, hk⟩ := buildInit_keys hb hw
    exact ⟨k, hk⟩
  | inited call => exact ⟨.inited, List.mem_singleton.1 hkey⟩
  | metadata call => exact ⟨.lastUpToDate, List.mem_singleton.1 hkey⟩
  | includes userHash call =>
    obtain ⟨h, rfl⟩ := hhash _ rfl
    exact ⟨.userInclude h, (List.mem_singleton.1 hkey).trans String.append_assoc⟩
  | excludes userHash refs call =>
    obtain ⟨h, rfl⟩ := hhash _ rfl
    exact ⟨.userExclude h, (List.mem_singleton.1 hkey).trans String.append_assoc⟩

namespace Sys

variable {ι : Type}

/-- Commands and watches of each connection are about its own keys. -/
structure Confined (s : Sys ι) : Prop where
  queued : ∀ c, (s.conn c).Queued
  called : Called s
  hashed : ∀ c call op, .called c call op ∈ s.log → op.Hashed
  watched : ∀ c, ∀ key ∈ (s.conn c).session.watched, ∃ k : StoreKey, key = k.key (s.conn c).state

/-- The keys of a command in an inbox. -/
theorem Confined.keys {s : Sys ι} (hs : Confined s) {c : ι} {r : Request}
    (hr : r ∈ (s.conn c).inbox) : ∀ key ∈ r.cmd.keys, ∃ k : StoreKey, key = k.key (s.conn c).state :=
  ((hs.queued c).inbox r hr).keys fun cb hcb => hs.hashed c cb.call cb.op
    (hs.called.pending c cb (Conn.mem_callbacks.2 (.inr ⟨r, hr, hcb⟩)))

variable [DecidableEq ι] {s t u : Sys ι} {l : Label ι}

/-- A step counts calls on its own connection alone. -/
theorem step_calls (h : step s l = some t) {d : ι} (hd : l.conn? ≠ some d) :
    t.calls d = s.calls d := by
  cases l with
  | call c op =>
    rw [(call_step h).calls, Function.update_of_ne fun hdc => hd (congrArg some hdc.symm)]
  | serve c fault => obtain ⟨_, _, hs⟩ := serve_step h; rw [hs.calls]
  | deliver c => obtain ⟨_, _, _, hs⟩ := deliver_step h; rw [hs.calls]
  | lose c kept => rw [(lose_step h).calls]
  | regain c => rw [(regain_step h).calls]
  | foreign values => rw [(foreign_step h).calls]

omit [DecidableEq ι] in
/-- The keys that a step of a connection modifies are its own. -/
theorem Confined.modified (hs : Confined s) {c : ι} (hc : l.conn? = some c) :
    ∀ key ∈ modified s l, ∃ k : StoreKey, key = k.key (s.conn c).state := by
  cases l with
  | serve d fault =>
    obtain rfl : d = c := Option.some.inj hc
    rw [Sys.modified]
    split
    · next request rest hin =>
      intro key hkey
      exact hs.keys (by rw [hin]; exact List.mem_cons_self) key
        (request.cmd.serve_touched_subset s.db (s.conn d).session fault key hkey)
    · simp
  | foreign values => cases hc
  | _ => simp [Sys.modified]

/-- A step keeps commands and watches about the connections' own keys. -/
theorem confined_step (hs : Confined s) (hl : l.Hashed) (h : step s l = some t) : Confined t where
  queued := queued_step hs.queued h
  called := called_step hs.queued hs.called h
  hashed c call op hc := by
    rcases called_of_step h hc with hc | ⟨rfl, -⟩
    · exact hs.hashed c call op hc
    · exact hl
  watched c key hkey := by
    have hstate : ∀ k : StoreKey, k.key (t.conn c).state = k.key (s.conn c).state := fun k => by
      rw [StoreKey.key, StoreKey.key, step_itemsPrefix h c]
    have hold : key ∈ (s.conn c).session.watched → ∃ k : StoreKey, key = k.key (t.conn c).state := by
      intro hw
      obtain ⟨k, hk⟩ := hs.watched c key hw
      exact ⟨k, by rw [hstate, hk]⟩
    cases step_conn h c with
    | call op hstep =>
      rw [hstep.self] at hkey
      exact hold hkey
    | serve request rest fault hstep =>
      rw [hstep.self] at hkey
      rcases request.cmd.serve_watched s.db _ fault hkey with hw | hk
      · exact hold hw
      · obtain ⟨k, hk⟩ := hs.keys (by rw [hstep.inbox]; exact List.mem_cons_self) key hk
        exact ⟨k, by rw [hstate, hk]⟩
    | deliver cb reply rest hstep =>
      rw [hstep.self] at hkey
      exact hold hkey
    | lose kept hstep =>
      rw [hstep.self] at hkey
      cases hkey
    | regain hstep =>
      rw [hstep.self] at hkey
      exact hold hkey
    | other l hc hstep =>
      rw [hstep, Session.touch_watched] at hkey
      exact hold hkey

/-! ## Two systems -/

/-- The systems agree on the connections of `mine`: on their state, what their keys hold, and what
has happened on them. -/
structure Agree (mine : ι → Bool) (s u : Sys ι) : Prop where
  conn : ∀ d, mine d = true → s.conn d = u.conn d
  calls : ∀ d, mine d = true → s.calls d = u.calls d
  db : ∀ d, mine d = true → ∀ k : StoreKey,
    s.db (k.key (s.conn d).state) = u.db (k.key (s.conn d).state)
  log : ∀ d, mine d = true →
    s.log.filter (·.conn? = some d) = u.log.filter (·.conn? = some d)

/-- The keys of the connections of `mine` are no keys of the others. -/
def Apart (mine : ι → Bool) (s : Sys ι) : Prop :=
  ∀ c d, mine c = false → mine d = true → ∀ k k' : StoreKey,
    k.key (s.conn c).state ≠ k'.key (s.conn d).state

variable {mine : ι → Bool} {u v : Sys ι}

/-- No step changes a key of the stores. -/
theorem step_key (h : step s l = some t) (d : ι) (k : StoreKey) :
    k.key (t.conn d).state = k.key (s.conn d).state := by
  rw [StoreKey.key, StoreKey.key, step_itemsPrefix h d]

/-- Keys stay apart. -/
theorem Apart.of_step (hs : Apart mine s) (h : step s l = some t) : Apart mine t := by
  intro c d hc hd k k'
  rw [step_key h, step_key h]
  exact hs c d hc hd k k'

/-- Two systems agree after steps that change the same things and record the same events. -/
theorem Agree.extend (hu : Agree mine s u) (h : step s l = some t)
    (hconn : ∀ d, mine d = true → t.conn d = v.conn d)
    (hcalls : ∀ d, mine d = true → t.calls d = v.calls d)
    (hdb : ∀ d, mine d = true → ∀ k : StoreKey,
      t.db (k.key (s.conn d).state) = v.db (k.key (s.conn d).state))
    {es : List (Event ι)} (hlog : t.log = s.log ++ es) (hlog' : v.log = u.log ++ es) :
    Agree mine t v where
  conn := hconn
  calls := hcalls
  db d hd k := by rw [step_key h]; exact hdb d hd k
  log d hd := by rw [hlog, hlog', List.filter_append, List.filter_append, hu.log d hd]

/-- Whether a step of a connection is enabled depends on that connection alone. -/
theorem step_isSome_congr {c : ι} (hc : l.conn? = some c) (hconn : s.conn c = u.conn c) :
    (step s l).isSome = (step u l).isSome := by
  cases l with
  | call d op => rfl
  | serve d fault =>
    obtain rfl : d = c := Option.some.inj hc
    simp only [step, hconn]
    split
    · rfl
    · split_ifs <;> rfl
  | deliver d =>
    obtain rfl : d = c := Option.some.inj hc
    simp only [step, hconn]
    split <;> rfl
  | lose d kept =>
    obtain rfl : d = c := Option.some.inj hc
    simp only [step, hconn]
    split_ifs <;> rfl
  | regain d =>
    obtain rfl : d = c := Option.some.inj hc
    simp only [step, hconn]
    split_ifs <;> rfl
  | foreign values => cases hc

/-- The server does the same with a command of a connection in both systems. -/
theorem Agree.outcome_congr (hs : Confined s) (hu : Agree mine s u) {c : ι} (hc : mine c = true)
    {r : Request} (hr : r ∈ (s.conn c).inbox) (fault : Fault) :
    (outcome s c r fault).reply = (outcome u c r fault).reply ∧
      (outcome s c r fault).session = (outcome u c r fault).session ∧
      (outcome s c r fault).touched = (outcome u c r fault).touched ∧
      ∀ key, s.db key = u.db key → (outcome s c r fault).db key = (outcome u c r fault).db key := by
  -- The command is about keys of the connection, where the databases agree.
  have hdb : ∀ key ∈ r.cmd.keys, s.db key = u.db key := by
    intro key hkey
    obtain ⟨k, rfl⟩ := hs.keys hr key hkey
    exact hu.db c hc k
  rw [outcome, outcome, ← hu.conn c hc]
  obtain ⟨hreply, hsession, htouched⟩ := r.cmd.serve_congr hdb (s.conn c).session fault
  exact ⟨hreply, hsession, htouched, fun key h => r.cmd.serve_db_congr h _ fault⟩

/-- What another program replaces does not depend on what was there. -/
theorem foreign_db_congr (values : List (Key × Option Value)) {db db' : Db} {key : Key}
    (h : db key = db' key) :
    values.foldl (fun db v => Function.update db v.1 v.2) db key =
      values.foldl (fun db v => Function.update db v.1 v.2) db' key := by
  induction values generalizing db db' with
  | nil => exact h
  | cons value values ih =>
    apply ih
    simp only [Function.update_apply, h]

/-- The connections of `mine` stay the same, if one of them does and the others do not change. -/
theorem Agree.conn_of_other (hu : Agree mine s u) {c : ι} (hself : t.conn c = v.conn c)
    (ht : ∀ d, d ≠ c → t.conn d = s.conn d) (hv : ∀ d, d ≠ c → v.conn d = u.conn d) (d : ι)
    (hd : mine d = true) : t.conn d = v.conn d := by
  by_cases hdc : d = c
  · rw [hdc, hself]
  · rw [ht d hdc, hv d hdc, hu.conn d hd]

/-- The server executes the same command in both systems. -/
theorem Agree.serve (hs : Confined s) (hu : Agree mine s u) {c : ι} (hc : mine c = true)
    {request request' : Request} {rest rest' : List Request} {fault : Fault}
    (h : step s (.serve c fault) = some t) (ht : ServeStep s t c request rest fault)
    (hv : ServeStep u v c request' rest' fault) : Agree mine t v := by
  obtain ⟨rfl, rfl⟩ : request = request' ∧ rest = rest' := by
    have hin := hv.inbox
    rw [← hu.conn c hc, ht.inbox] at hin
    exact List.cons.inj hin
  -- The server takes the same command in both systems, and does the same with it.
  obtain ⟨hreply, hsession, htouched, hdb⟩ := hu.outcome_congr hs hc
    (by rw [ht.inbox]; exact List.mem_cons_self) fault
  -- The other connections of `mine` see the same keys modified.
  refine hu.extend h (fun e he => ?_) (fun e he => ?_) (fun e he k => ?_) ht.log ?_
  · by_cases hec : e = c
    · subst hec
      rw [ht.self, hv.self, hreply, hsession, hu.conn e he]
    · rw [ht.other e hec, hv.other e hec, hu.conn e he, htouched]
  · rw [ht.calls, hv.calls, hu.calls e he]
  · rw [ht.db, hv.db, hdb _ (hu.db e he k)]
  · rw [hv.log, hreply, htouched]

/-- The same callback runs on the same reply. -/
theorem Agree.deliver (hu : Agree mine s u) {c : ι} (hc : mine c = true) {cb cb' : Callback}
    {reply reply' : Reply} {rest rest' : List (Callback × Reply)} (h : step s (.deliver c) = some t)
    (ht : DeliverStep s t c cb reply rest) (hv : DeliverStep u v c cb' reply' rest') :
    Agree mine t v := by
  obtain ⟨hp, rfl⟩ : (cb, reply) = (cb', reply') ∧ rest = rest' := by
    have hout := hv.outbox
    rw [← hu.conn c hc, ht.outbox] at hout
    exact List.cons.inj hout
  -- The same callback runs on the same reply.
  obtain ⟨rfl, rfl⟩ := Prod.mk.inj hp
  refine hu.extend h (hu.conn_of_other ?_ ht.other hv.other) (fun e he => ?_) (fun e he k => ?_)
    ht.log ?_
  · rw [ht.self, hv.self, hu.conn c hc]
  · rw [ht.calls, hv.calls, hu.calls e he]
  · rw [ht.db, hv.db, hu.db e he]
  · rw [hv.log, hu.conn c hc]

/-- A step of a connection of `mine` is a step of the other system too. -/
theorem agree_mine (hs : Confined s) (hu : Agree mine s u) {c : ι} (hl : l.conn? = some c)
    (hc : mine c = true) (h : step s l = some t) : ∃ v, step u l = some v ∧ Agree mine t v := by
  have hconn := hu.conn c hc
  have hsome : (step u l).isSome := by rw [← step_isSome_congr hl hconn, h]; rfl
  obtain ⟨v, hv⟩ := Option.isSome_iff_exists.1 hsome
  refine ⟨v, hv, ?_⟩
  cases l with
  | call d op =>
    obtain rfl : d = c := Option.some.inj hl
    have ht := call_step h
    have hv' := call_step hv
    have hcall := hu.calls d hc
    refine hu.extend h (hu.conn_of_other ?_ ht.other hv'.other) (fun e he => ?_)
      (fun e he k => ?_) ht.log ?_
    · rw [ht.self, hv'.self, hconn, hcall]
    · rw [ht.calls, hv'.calls, Function.update_apply, Function.update_apply, hcall, hu.calls e he]
    · rw [ht.db, hv'.db, hu.db e he]
    · rw [hv'.log, hconn, hcall]
  | serve d fault =>
    obtain rfl : d = c := Option.some.inj hl
    obtain ⟨request, rest, ht⟩ := serve_step h
    obtain ⟨request', rest', hv'⟩ := serve_step hv
    exact hu.serve hs hc h ht hv'
  | deliver d =>
    obtain rfl : d = c := Option.some.inj hl
    obtain ⟨cb, reply, rest, ht⟩ := deliver_step h
    obtain ⟨cb', reply', rest', hv'⟩ := deliver_step hv
    exact hu.deliver hc h ht hv'
  | lose d kept =>
    obtain rfl : d = c := Option.some.inj hl
    have ht := lose_step h
    have hv' := lose_step hv
    refine hu.extend h (hu.conn_of_other ?_ ht.other hv'.other) (fun e he => ?_)
      (fun e he k => ?_) ht.log hv'.log
    · rw [ht.self, hv'.self, hconn]
    · rw [ht.calls, hv'.calls, hu.calls e he]
    · rw [ht.db, hv'.db, hu.db e he]
  | regain d =>
    obtain rfl : d = c := Option.some.inj hl
    have ht := regain_step h
    have hv' := regain_step hv
    refine hu.extend h (hu.conn_of_other ?_ ht.other hv'.other) (fun e he => ?_)
      (fun e he k => ?_) ht.log hv'.log
    · rw [ht.self, hv'.self, hconn]
    · rw [ht.calls, hv'.calls, hu.calls e he]
    · rw [ht.db, hv'.db, hu.db e he]
  | foreign values => cases hl

/-- So is a write by another program. -/
theorem agree_foreign (hu : Agree mine s u) {values : List (Key × Option Value)}
    (h : step s (.foreign values) = some t) :
    ∃ v, step u (.foreign values) = some v ∧ Agree mine t v := by
  refine ⟨_, rfl, ?_⟩
  have ht := foreign_step h
  have hv : ForeignStep u _ values := foreign_step rfl
  refine hu.extend h (fun d hd => ?_) (fun d hd => ?_) (fun d hd k => ?_) ht.log hv.log
  · rw [ht.conn, hv.conn, hu.conn d hd]
  · rw [ht.calls, hv.calls, hu.calls d hd]
  · obtain rfl := Option.some.inj h
    exact foreign_db_congr values (hu.db d hd k)

/-- A step of another connection changes nothing that the systems agree on. -/
theorem agree_other (hs : Confined s) (happart : Apart mine s) (hu : Agree mine s u) {c : ι}
    (hl : l.conn? = some c) (hc : mine c = false) (h : step s l = some t) : Agree mine t u := by
  have hne : ∀ d, mine d = true → l.conn? ≠ some d := by
    rintro d hd hld
    rw [hl] at hld
    rw [Option.some.inj hld, hd] at hc
    cases hc
  -- What the step modifies are keys of `c`, and these are apart from those of `mine`.
  have hmodified : ∀ d, mine d = true → ∀ k : StoreKey, k.key (s.conn d).state ∉ modified s l := by
    intro d hd k hmem
    obtain ⟨k', hk'⟩ := hs.modified hl _ hmem
    exact happart c d hc hd k' k hk'.symm
  refine ⟨fun d hd => ?_, fun d hd => ?_, fun d hd k => ?_, fun d hd => ?_⟩
  · have hwatched : ∀ key ∈ modified s l, key ∉ (s.conn d).session.watched := by
      intro key hkey hw
      obtain ⟨k, rfl⟩ := hs.watched d key hw
      exact hmodified d hd k hkey
    rw [step_other h (hne d hd), Session.touch_of_not_watched hwatched, ← hu.conn d hd]
  · rw [step_calls h (hne d hd), hu.calls d hd]
  · rw [step_key h, step_db h (hmodified d hd k), hu.db d hd k]
  · obtain ⟨es, hlog, hes⟩ := step_log_conn h
    have hnil : es.filter (·.conn? = some d) = [] := by
      rw [List.filter_eq_nil_iff]
      intro e he hbad
      exact hne d hd ((hes e he).symm.trans (of_decide_eq_true hbad))
    rw [hlog, List.filter_append, hnil, List.append_nil, hu.log d hd]

/-- The prefix of stores that were built from options. -/
theorem initState_itemsPrefix {ρ κ : Type} (options : Options ρ κ) :
    (initState options).2.itemsPrefix = effectivePrefix options.keyPrefix ++ ":" := by
  unfold initState
  split <;> rfl

/-- For every run of any number of connections, in two groups whose effective prefixes differ: keys
that the stores build are equal only for one prefix and one use, the commands of a connection are
about such keys, and what happens on the connections of one group, to every reply and every answer,
is what happens with the steps of the other group left out. -/
theorem prefixes_isolate {ρ κ : Type} (options : ι → Options ρ κ) (mine : ι → Bool)
    (hdiffer : ∀ c d, mine c = false → mine d = true →
      effectivePrefix (options c).keyPrefix ≠ effectivePrefix (options d).keyPrefix)
    (h₀ : Fresh s)
    (hstate : ∀ c, (s.conn c).state.itemsPrefix = (initState (options c)).2.itemsPrefix)
    {ls : List (Label ι)} (hls : ∀ l ∈ ls, l.Hashed) (h : run s ls = some t) :
    (∀ (o o' : Options ρ κ) (k k' : StoreKey), k.key (initState o).2 = k'.key (initState o').2 ↔
      effectivePrefix o.keyPrefix = effectivePrefix o'.keyPrefix ∧ k = k') ∧
    (∀ c, ∀ r ∈ (t.conn c).inbox, ∀ key ∈ r.cmd.keys,
      ∃ k : StoreKey, key = k.key (initState (options c)).2) ∧
    ∃ v, run s (ls.filter fun l => l.conn?.all mine) = some v ∧
      ∀ c, mine c = true →
        t.log.filter (·.conn? = some c) = v.log.filter (·.conn? = some c) := by
  have hhashed : Along (fun _ l => l.Hashed) s ls := Transition.Along.of_forall fun _ => hls
  have hconfined₀ : Confined s :=
    { queued := h₀.queued
      called := h₀.called
      hashed := fun c call op hc => by simp [h₀.log] at hc
      watched := fun c key hkey => by simp [h₀.session c, Session.clear] at hkey }
  have happart₀ : Apart mine s := by
    intro c d hc hd k k' hkk
    have hp := fun e => (hstate e).trans (initState_itemsPrefix (options e))
    exact hdiffer c d hc hd ((key_eq_iff (hp c) (hp d) k k').1 hkk).1
  refine ⟨fun o o' => key_eq_iff (initState_itemsPrefix o) (initState_itemsPrefix o'), ?_, ?_⟩
  · intro c r hr key hkey
    have hconfined : Confined t :=
      Transition.run_invariant (fun _ _ _ hs hl hstep => confined_step hs hl hstep) hconfined₀
        hhashed h
    obtain ⟨k, rfl⟩ := hconfined.keys hr key hkey
    exact ⟨k, by rw [StoreKey.key, StoreKey.key, run_itemsPrefix h, hstate]⟩
  · -- The two runs are related by `Agree`, along with the invariants of the whole one.
    have hstart : Confined s ∧ Apart mine s ∧ Agree mine s s :=
      ⟨hconfined₀, happart₀, fun _ _ => rfl, fun _ _ => rfl, fun _ _ _ => rfl, fun _ _ => rfl⟩
    have hmine : ∀ s l t u, (Confined s ∧ Apart mine s ∧ Agree mine s u) → l.Hashed →
        l.conn?.all mine = true → step s l = some t →
        ∃ v, step u l = some v ∧ Confined t ∧ Apart mine t ∧ Agree mine t v := by
      rintro s l t u ⟨hs, happart, hu⟩ hl hm hstep
      have hkept := And.intro (confined_step hs hl hstep) (happart.of_step hstep)
      cases hc : l.conn? with
      | none =>
        cases l with
        | foreign values =>
          obtain ⟨w, hw, htw⟩ := agree_foreign hu hstep
          exact ⟨w, hw, hkept.1, hkept.2, htw⟩
        | _ => cases hc
      | some c =>
        rw [hc, Option.all_some] at hm
        obtain ⟨w, hw, htw⟩ := agree_mine hs hu hc hm hstep
        exact ⟨w, hw, hkept.1, hkept.2, htw⟩
    have hother : ∀ s l t u, (Confined s ∧ Apart mine s ∧ Agree mine s u) → l.Hashed →
        l.conn?.all mine = false → step s l = some t →
        Confined t ∧ Apart mine t ∧ Agree mine t u := by
      rintro s l t u ⟨hs, happart, hu⟩ hl hm hstep
      refine ⟨confined_step hs hl hstep, happart.of_step hstep, ?_⟩
      cases hc : l.conn? with
      | none => simp [hc] at hm
      | some c =>
        rw [hc, Option.all_some] at hm
        exact agree_other hs happart hu hc hm hstep
    obtain ⟨v, hv, -, -, hagree⟩ := Transition.run_filter hmine hother hstart hhashed h
    exact ⟨v, hv, hagree.log⟩

/-- Two stores, one of whose prefixes extends the other's through a reserved word. -/
def nestedOptions (c : Bool) : Options Unit Unit :=
  ⟨none, some (if c then "a:big_segment_include" else "a"), some (), none⟩

/-- An init of the one between the question of the other and its answer. -/
def nestedLabels : List (Label Bool) :=
  [.call true .initializedInternal, .call false (.initInternal (sampleData "f" 1)),
    .serve false .none, .serve true .none, .deliver true]

/-- The store with the longer prefix is answered as if it were alone. -/
theorem prefixes_isolate_nested :
    ∃ t v : Sys Bool,
      run (opened (fun _ => none) fun c => (initState (nestedOptions c)).2) nestedLabels = some t ∧
      run (opened (fun _ => none) fun c => (initState (nestedOptions c)).2)
        (nestedLabels.filter fun l => l.conn?.all id) = some v ∧
      t.log.filter (·.conn? = some true) = v.log.filter (·.conn? = some true) := by
  have hsome : (run (opened (fun _ => none) fun c => (initState (nestedOptions c)).2)
      nestedLabels).isSome := by decide +kernel
  obtain ⟨t, ht⟩ := Option.isSome_iff_exists.1 hsome
  obtain ⟨-, -, v, hv, hlog⟩ := prefixes_isolate nestedOptions id
    (by rintro (_ | _) (_ | _) hc hd <;> first | (cases hc; done) | (cases hd; done) | decide)
    (opened_fresh _ _) (fun _ => rfl) (by simp [nestedLabels, Label.Hashed, Op.Hashed]) ht
  exact ⟨t, v, ht, hv, hlog true rfl⟩

end Sys

end RedisStore
