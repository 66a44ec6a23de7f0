import RedisStore.AnswerOrder
import RedisStore.AtomicReads
import RedisStore.Sessions
import RedisStore.Written

/-!
# Where items come from

No item is out of thin air. In every run, whatever the faults, the aborts, the lost connections, and the
calls that overlap, an item that an answer shows is exactly one that an upsert or an init was given under
this key, by a store with the same prefix, before the answer; or the database held its text at the start,
or another program has put it there (`items_given`).
-/

namespace RedisStore

open Redis

/-! ## What an answer shows -/

/-- An item that a read shows is in the field of its key. -/
theorem field_of_sees {state : StoreState} {db : Db} {op : Op} {a : Answer} (hsees : op.Sees state db a)
    {kind : Kind} {key : String} {j : Json} (hshows : op.Shows kind key j a) (hj : j ≠ .null) :
    ∃ text, fieldOf (db (itemsKey state kind)) key = some text ∧ Json.parse text = some j := by
  cases op with
  | getInternal kind' key' =>
    cases a with
    | item item =>
      obtain ⟨rfl, rfl, rfl⟩ := hshows
      unfold Op.Sees at hsees
      dsimp only at hsees
      cases hfield : fieldOf (db (itemsKey state kind')) key' with
      | none =>
        rw [hfield] at hsees
        exact absurd (Answer.item.inj hsees) hj
      | some text =>
        rw [hfield] at hsees
        obtain ⟨stored, hparse, hvisible⟩ := hsees
        have hsame : item = visible stored := Answer.item.inj hvisible
        unfold visible at hsame
        split_ifs at hsame
        · exact ⟨text, rfl, hparse.trans (congrArg some hsame.symm)⟩
        · exact absurd hsame hj
    | _ => exact absurd hshows id
  | getAllInternal kind' =>
    cases a with
    | items results =>
      cases results with
      | none => exact absurd hshows id
      | some results =>
        obtain ⟨rfl, hlookup⟩ := hshows
        have hall := hsees.2 key
        rw [hlookup] at hall
        split_ifs at hall
        exact Option.bind_eq_some_iff.1 hall.symm
    | _ => exact absurd hshows id
  | _ => cases a <;> first | exact absurd hshows id | exact absurd hsees id

/-- The failure of a read shows nothing. -/
theorem not_shows_failure {op : Op} (hop : op.reads = true) {kind : Kind} {key : String} {j : Json}
    (hj : j ≠ .null) : ¬ op.Shows kind key j op.failure := by
  intro hshows
  cases op with
  | getInternal kind' key' => exact hj hshows.2.2.symm
  | upsertInternal kind' item => cases hop
  | _ => exact hshows

/-- A text that the server reads for `HGET` is in the field. -/
theorem field_of_served {state : StoreState} {r : Request} (hr : Issued state r) {kind : Kind}
    {key : String} {cb : GetCallback} (hcb : r.callback = some (.hget kind key cb)) {db : Db}
    {session : Session} {fault : Fault} {text : String}
    (hreply : (r.cmd.serve db session fault).reply = .str text) :
    fieldOf (db (itemsKey state kind)) key = some text := by
  have hne : (r.cmd.serve db session fault).reply ≠ .error := by
    rw [hreply]
    exact Reply.noConfusion
  have hread : ∀ k : Key, (Command.hget k key).read db = .str text → fieldOf (db k) key = some text := by
    intro k hk
    by_cases hlike : Hashlike (db k)
    · rw [read_hget hlike] at hk
      cases hfield : fieldOf (db k) key with
      | none =>
        rw [hfield] at hk
        cases hk
      | some text' =>
        rw [hfield] at hk
        rw [Reply.str.inj hk]
    · rw [(read_of_not_hashlike hlike).1] at hk
      cases hk
  cases hr with
  | getRead kind' key' call =>
    obtain ⟨rfl, rfl, -⟩ := Callback.hget.inj (Option.some.inj hcb)
    obtain rfl := Command.fault_eq_none (fun queue => Command.noConfusion) hne
    exact hread _ hreply
  | upsertRead kind' item call =>
    obtain ⟨rfl, rfl, -⟩ := Callback.hget.inj (Option.some.inj hcb)
    obtain rfl := Command.fault_eq_none (fun queue => Command.noConfusion) hne
    exact hread _ hreply
  | _ => cases hcb

/-- An upsert answers with its own item, or with the one that it has read. -/
theorem shown_of_upsert {cb : Callback} (hcb : Awaited cb) {kind : Kind} {item : Item}
    (hop : cb.op = .upsertInternal kind item) {state : StoreState} {reply : Reply} {call : CallId}
    {a : Answer} (ha : (call, a) ∈ (cb.resume state reply).answered) :
    (∃ err, a = .upserted err item.json) ∨
      ∃ oldItem text, a = .upserted false oldItem ∧ reply = .str text ∧
        Json.parse text = some oldItem ∧ ∃ get, cb = .hget kind item.key get := by
  cases hcb with
  | upsertRead kind' item' call' =>
    obtain ⟨rfl, rfl⟩ := Op.upsertInternal.inj hop
    have hdoes := onHget_update_does state kind' item'.key item' call' reply
    cases hverdict : replyVerdict reply item' with
    | write =>
      rw [hverdict] at hdoes
      exact (hdoes.not_answer ha).elim
    | fail x =>
      rw [hverdict] at hdoes
      exact (hdoes.not_answer ha).elim
    | reject oldItem =>
      rw [hverdict] at hdoes
      obtain ⟨text, hreply, hparse, -⟩ := replyVerdict_reject hverdict
      exact .inr ⟨oldItem, text, hdoes.eq_answer ha, hreply, hparse, _, rfl⟩
  | upsertWrite kind' item' call' =>
    obtain ⟨rfl, rfl⟩ := Op.upsertInternal.inj hop
    by_cases hnil : reply = .nil
    · subst hnil
      exact (not_answered_upsertInternal ha).elim
    · exact .inl ⟨_, (onUpsertExec_does hnil state kind' item' call').eq_answer ha⟩
  | _ => cases hop

namespace Sys

variable {ι : Type} [DecidableEq ι] {s t u : Sys ι} {ls : List (Label ι)} {c : ι} {call : CallId}
  {op : Op} {a : Answer} {state : StoreState} {kind : Kind} {key : String} {j : Json}

/-! ## The texts of a run -/

/-- Every text in a hash of a kind was there at the start, or another program has put it there, or it is
that of an item that a call has been given. -/
def Accounted (state : StoreState) (db : Db) (ls : List (Label ι)) (s : Sys ι) : Prop :=
  ∀ kind field text, fieldOf (s.db (itemsKey state kind)) field = some text →
    fieldOf (db (itemsKey state kind)) field = some text ∨
      (∃ l ∈ ls, PutByOthers (itemsKey state kind) field text l) ∨
      ∃ j, Given s state kind field j ∧ text = j.stringify

/-- A call goes on having been given its items. -/
theorem Given.of_run (h : Given u state kind key j) (hrun : run u ls = some t) :
    Given t state kind key j := by
  obtain ⟨d, call, op, hcalled, hsame, hputs⟩ := h
  exact ⟨d, call, op, mem_log_of_run hrun hcalled, (run_itemsPrefix hrun d).trans hsame, hputs⟩

theorem accounted_run (h₀ : Fresh s) (h : run s ls = some t) (state : StoreState) :
    Accounted state s.db ls t := by
  induction ls using List.reverseRecOn generalizing t with
  | nil =>
    obtain rfl := Option.some.inj h
    exact fun kind field text htext => .inl htext
  | append_singleton ls l ih =>
    obtain ⟨u, hu, hut⟩ := Transition.run_concat_eq_some.1 h
    have hrun : run u [l] = some t := Transition.run_cons_eq_some.2 ⟨t, hut, rfl⟩
    intro kind field text htext
    rcases text_of_step (queued_run h₀ hu) (called_run h₀ hu) hut htext with hold | hothers | hgiven
    · rcases ih hu kind field text hold with hstart | hothers | hgiven
      · exact .inl hstart
      · obtain ⟨l', hl', hput⟩ := hothers
        exact .inr (.inl ⟨l', List.mem_append_left _ hl', hput⟩)
      · obtain ⟨j, hgiven, hj⟩ := hgiven
        exact .inr (.inr ⟨j, hgiven.of_run hrun, hj⟩)
    · exact .inr (.inl ⟨l, by simp, hothers⟩)
    · obtain ⟨j, hgiven, hj⟩ := hgiven
      exact .inr (.inr ⟨j, hgiven.of_run hrun, hj⟩)

/-! ## The items of the answers -/

/-- An answer that shows an item shows the call's own, or one that the database holds while the call is in
progress. -/
theorem instant_of_shows (h₀ : Fresh s) (h : run s ls = some t) (hcalled : .called c call op ∈ t.log)
    (ha : .answered c call a ∈ t.log) (hshows : op.Shows kind key j a) (hj : j ≠ .null) :
    ∃ ls₁ ls₂ u, ls = ls₁ ++ ls₂ ∧ run s ls₁ = some u ∧ run u ls₂ = some t ∧ InProgress u c call ∧
      (op.Puts kind key j ∨ ∃ text,
        fieldOf (u.db (itemsKey (u.conn c).state kind)) key = some text ∧ Json.parse text = some j) := by
  by_cases hreads : op.reads = true
  · obtain ⟨ls₁, l, ls₂, u, rfl, hu, ⟨-, -, hans⟩ | ⟨-, -, rfl⟩ | ⟨hprogress, hsees⟩⟩ :=
      origin_of_answered h₀ h hreads hcalled ha
    · rw [(failure_of_start hreads hans).2] at hshows
      exact absurd hshows (not_shows_failure hreads hj)
    · exact absurd hshows (not_shows_failure hreads hj)
    · obtain ⟨w, hw, hwt⟩ := Transition.run_append_eq_some.1 h
      obtain rfl := Option.some.inj (hw.symm.trans hu)
      exact ⟨ls₁, l :: ls₂, w, rfl, hw, hwt, hprogress, .inr (field_of_sees hsees hshows hj)⟩
  · cases op with
    | upsertInternal kind' item =>
      obtain ⟨ls₁, l, ls₂, u, v, rfl, hu, huv, hvt, hgiven⟩ :=
        step_of_called_answered h₀ h hcalled ha
      rcases hgiven with ⟨rfl, hans⟩ | ⟨cb, reply, rfl, hmem, hcb, hop, rfl, hans⟩
      · exact (not_answered_upsertInternal hans).elim
      · rcases shown_of_upsert hcb hop hans with ⟨err, rfl⟩ | ⟨oldItem, text, rfl, rfl, hparse, get, hget⟩
        · obtain ⟨rfl, rfl, rfl⟩ := hshows
          exact ⟨ls₁, _, u, rfl, hu, Transition.run_cons_eq_some.2 ⟨v, huv, hvt⟩,
            inProgress_of_callback h₀ hu (Conn.mem_callbacks.2 (.inl ⟨reply, hmem⟩)),
            .inl ⟨rfl, rfl, rfl⟩⟩
        · -- The item that it has read was in the database when the server read it.
          obtain ⟨rfl, rfl, rfl⟩ := hshows
          obtain ⟨ls₃, l', ls₄, w, rfl, hw, hprogress,
              ⟨herror, -⟩ | ⟨fault, request, hissued, hrequest, hserved, -⟩⟩ := origin_of_outbox h₀ hu hmem
          · cases herror
          · obtain ⟨w', hw', hwt⟩ := Transition.run_append_eq_some.1
              (show run s (ls₃ ++ (l' :: ls₄ ++ .deliver c :: ls₂)) = some t by
                rw [← List.append_assoc]
                exact h)
            obtain rfl := Option.some.inj (hw'.symm.trans hw)
            rw [hget] at hrequest
            exact ⟨ls₃, _, w', by rw [List.append_assoc], hw', hwt, hprogress,
              .inr ⟨text, field_of_served hissued hrequest hserved, hparse⟩⟩
    | getInternal kind' key' => exact absurd rfl hreads
    | getAllInternal kind' => exact absurd rfl hreads
    | _ => cases a <;> exact absurd hshows id

/-- An event of a run comes before the ones after it. -/
theorem sublist_of_run {ls' : List (Label ι)} (h : run u ls' = some t) {e e' : Event ι}
    (he : e ∈ u.log) (hnot : e' ∉ u.log) (he' : e' ∈ t.log) : [e, e'].Sublist t.log := by
  obtain ⟨es, hes⟩ := run_log h
  rw [hes] at he' ⊢
  have hnew : e' ∈ es := (List.mem_append.1 he').resolve_left hnot
  exact (List.singleton_sublist.2 he).append (List.singleton_sublist.2 hnew)

/-- In every run of any number of connections, whatever the faults, aborts, lost connections and
overlapping calls: an item that an answer shows under a key is exactly one that some upsert or init was
given for this key before the answer, on a connection with the same prefix; or it is read from a text that
the database held at the start or that another program has put there. -/
theorem items_given (h₀ : Fresh s) (h : run s ls = some t) (hcalled : .called c call op ∈ t.log)
    (ha : .answered c call a ∈ t.log) (hshows : op.Shows kind key j a) (hj : j ≠ .null) :
    (∃ d call' op', [.called d call' op', .answered c call a].Sublist t.log ∧
        (s.conn d).state.itemsPrefix = (s.conn c).state.itemsPrefix ∧ op'.Puts kind key j) ∨
      ∃ text, Json.parse text = some j ∧
        (fieldOf (s.db (itemsKey (s.conn c).state kind)) key = some text ∨
          ∃ l ∈ ls, PutByOthers (itemsKey (s.conn c).state kind) key text l) := by
  obtain ⟨ls₁, ls₂, u, rfl, hu, hut, hprogress, hfrom⟩ :=
    instant_of_shows h₀ h hcalled ha hshows hj
  have hbefore : ∀ {d : ι} {call' : CallId} {op' : Op}, .called d call' op' ∈ u.log →
      [.called d call' op', .answered c call a].Sublist t.log := fun hmem =>
    sublist_of_run hut hmem (hprogress.2 a) ha
  rcases hfrom with hputs | ⟨text, htext, hparse⟩
  · -- The call's own item.
    obtain ⟨op', hop'⟩ := hprogress.1
    obtain rfl : op' = op := (called_run h₀ h).unique c call _ _ (mem_log_of_run hut hop') hcalled
    exact .inl ⟨c, call, op', hbefore hop', rfl, hputs⟩
  · rw [itemsKey_congr (run_itemsPrefix hu c)] at htext
    rcases accounted_run h₀ hu (s.conn c).state kind key text htext with hstart | hothers | hgiven
    · exact .inr ⟨text, hparse, .inl hstart⟩
    · obtain ⟨l, hl, hput⟩ := hothers
      exact .inr ⟨text, hparse, .inr ⟨l, List.mem_append_left _ hl, hput⟩⟩
    · obtain ⟨j', ⟨d, call', op', hmem, hsame, hputs⟩, rfl⟩ := hgiven
      -- The text of an item is read back as the item.
      obtain rfl := Option.some.inj ((Json.parse_stringify j').symm.trans hparse)
      exact .inl ⟨d, call', op', hbefore hmem, (run_itemsPrefix hu d).symm.trans hsame, hputs⟩

/-- An upsert whose connection is lost when its transaction has been executed, and a read on another one. -/
def readOfLostUpsert : List (Label Bool) :=
  [.call false (.upsertInternal .features (.ofVersion "f" 1)), .serve false .none, .serve false .none,
    .deliver false, .serve false .none, .lose false 0, .call true (.getInternal .features "f"),
    .serve true .none, .deliver true]

/-- The version of the item in the answer to the read. -/
def readVersion : Event Bool → Option ℤ
  | .answered true 0 (.item j) => j.itemVersion
  | _ => none

/-- The item that is read has been given to a call before, or was put there by others. -/
theorem items_given_lost :
    ∃ (t : Sys Bool) (j : Json), run (opened (fun _ => none) fun _ => connectedState) readOfLostUpsert =
        some t ∧ j.itemVersion = some 1 ∧
      ((∃ d call' op', [.called d call' op', .answered true 0 (.item j)].Sublist t.log ∧
          op'.Puts .features "f" j) ∨
        ∃ text, Json.parse text = some j ∧ ∃ l ∈ readOfLostUpsert,
          PutByOthers (itemsKey connectedState .features) "f" text l) := by
  have hend : (run (opened (fun _ => none) fun _ => connectedState) readOfLostUpsert).map
      (fun t => t.log.filterMap readVersion) = some [1] := by decide +kernel
  obtain ⟨t, ht, hversions⟩ := Option.map_eq_some_iff.1 hend
  obtain ⟨e, he, hversion⟩ := List.mem_filterMap.1
    (show (1 : ℤ) ∈ t.log.filterMap readVersion by rw [hversions]; exact List.mem_singleton.2 rfl)
  obtain ⟨j, rfl, hj⟩ : ∃ j, e = .answered true 0 (.item j) ∧ j.itemVersion = some 1 := by
    unfold readVersion at hversion
    split at hversion
    · exact ⟨_, rfl, hversion⟩
    · cases hversion
  obtain ⟨op, hcalled⟩ := (called_run (opened_fresh _ _) ht).answered true 0 _ he
  have hop := mem_of_called (opened_fresh _ _) ht hcalled
  obtain rfl : op = .getInternal .features "f" := by simpa [readOfLostUpsert] using hop
  have hnull : j ≠ .null := by
    rintro rfl
    cases hj
  have hshows : (Op.getInternal .features "f").Shows .features "f" j (.item j) := ⟨rfl, rfl, rfl⟩
  refine ⟨t, j, ht, hj, ?_⟩
  rcases items_given (opened_fresh _ _) ht hcalled he hshows hnull with hgiven | ⟨text, hparse, hfrom⟩
  · obtain ⟨d, call', op', hbefore, -, hputs⟩ := hgiven
    exact .inl ⟨d, call', op', hbefore, hputs⟩
  · exact .inr ⟨text, hparse, hfrom.resolve_left fun hstart => by cases hstart⟩

end Sys

end RedisStore
