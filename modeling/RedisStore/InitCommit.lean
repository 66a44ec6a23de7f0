import RedisStore.Init
import RedisStore.Watch

/-!
# Lost inits

The callback of `initInternal` is called without an error also when its transaction was aborted: the
callback of `exec` looks at `err` alone, and an aborted `EXEC` replies nil without one. An init
watches nothing, but a rejected upsert of the same connection leaves its watch behind, because
`multi.discard()` only empties a queue of the client library. So an init is lost exactly if a key
that the connection watched since its last `EXEC` was modified by another in the meantime
(`init_committed_iff`).
-/

namespace RedisStore

open Redis

namespace Sys

variable {ι : Type} [DecidableEq ι] {s t : Sys ι}

/-- For every reply to an init's transaction that is no error, the transaction was executed between
the call and the callback, at a step of the server, and it was committed and its data was in the database
after that step, exactly if the watches of the connection held before it, no item has the key
`__proto__`, and the server refused none of its writes. -/
theorem init_committed_iff {ls : List (Label ι)} (h₀ : Fresh s) (h : run s ls = some t) {c : ι}
    {allData : AllData} {call : CallId} {reply : Reply}
    (hmem : (.initExec allData call, reply) ∈ (t.conn c).outbox) (hreply : reply ≠ .error) :
    ∃ ls₁ ls₂ ls₃ u v w x fault multi,
      ls = ls₁ ++ .call c (.initInternal allData) :: (ls₂ ++ .serve c fault :: ls₃) ∧
      run s ls₁ = some u ∧ u.calls c = call ∧ step u (.call c (.initInternal allData)) = some v ∧
      run v ls₂ = some w ∧ step w (.serve c fault) = some x ∧ run x ls₃ = some t ∧
      (∃ touched, x.log = w.log ++
        [.executed c ⟨.exec multi, some (.initExec allData call)⟩ reply touched]) ∧
      (reply.committed = true ∧ Holds x.db (x.conn c).state allData ↔
        WatchesHold c w.log ∧ NoProtoKey allData ∧ ∀ write ∈ multi, write ∉ fault.refused) := by
  obtain ⟨ls₁, ls₂, ls₃, u, v, w, x, fault, request, rest, hls, hu, hcall, huv, hw, hstep, hxt, hwx,
    hcb, hr, -⟩ := served_of_outbox h₀ h hmem hreply
  have hrun : run s (ls₁ ++ .call c (.initInternal allData) :: ls₂) = some w :=
    Transition.run_append_eq_some.2 ⟨u, hu, Transition.run_cons_eq_some.2 ⟨v, huv, hw⟩⟩
  -- The callback is the one of an init, so its command is the transaction that the init built.
  obtain ⟨multi, hbuild, rfl⟩ : ∃ multi, buildInit (w.conn c).state allData = .ok multi ∧
      request = ⟨.exec multi, some (.initExec allData call)⟩ := by
    have hissued := (queued_run h₀ hrun c).inbox request (by rw [hwx.inbox]; simp)
    cases hissued with
    | init allData' call' multi hb =>
      cases hcb
      exact ⟨multi, hb, rfl⟩
    | _ => cases hcb
  refine ⟨ls₁, ls₂, ls₃, u, v, w, x, fault, multi, hls, hu, hcall, huv, hw, hstep, hxt,
    ⟨(outcome w c _ fault).touched, by rw [hwx.log, hr]⟩, ?_⟩
  have hfault : fault ≠ .error := by
    rintro rfl
    exact hreply hr.symm
  -- Whether the transaction is executed is the flag's matter, and what it leaves is that of the data.
  have hstate : (x.conn c).state = (w.conn c).state := by rw [hwx.self]
  rw [← dirty_eq_false_iff h₀ hrun c, hstate, hwx.db]
  cases hdirty : (w.conn c).session.dirty with
  | true =>
    -- The transaction is aborted.
    have hout : outcome w c ⟨.exec multi, some (.initExec allData call)⟩ fault =
        ⟨w.db, .clear, .nil, []⟩ := Command.serve_exec_of_dirty multi w.db hdirty hfault
    rw [hout] at hr
    simp [← hr, Reply.committed]
  | false =>
    have hout : outcome w c ⟨.exec multi, some (.initExec allData call)⟩ fault = _ :=
      Command.serve_exec_of_clean multi w.db hdirty hfault
    rw [hout] at hr ⊢
    rw [← hr, committed_runAllowed_buildInit hbuild]
    simp only [true_and]
    refine (and_congr_right fun hallowed => ?_).trans and_comm
    rw [runAllowed_of_not_mem hallowed]
    exact holds_runWrites_buildInit hbuild w.db

/-! ## A lost init -/

/-- The reply that comes next on a connection, where it is for an init. -/
def nextInitReply (conn : Conn) : Option (CallId × Reply) :=
  match conn.outbox with
  | (.initExec _ call, reply) :: _ => some (call, reply)
  | _ => none

theorem mem_outbox_of_nextInitReply {conn : Conn} {call : CallId} {reply : Reply}
    (h : nextInitReply conn = some (call, reply)) :
    ∃ allData, (.initExec allData call, reply) ∈ conn.outbox := by
  unfold nextInitReply at h
  split at h
  · next allData call' reply' rest hout =>
    obtain ⟨rfl, rfl⟩ := Prod.mk.inj (Option.some.inj h)
    exact ⟨allData, by simp [hout]⟩
  · cases h

/-- The first process upserts an old version and is rejected; the second upserts a new one; the
transaction of the first one's init is then aborted. -/
def lostInit : List (Label Bool) :=
  [.call false (.upsertInternal .features (.ofVersion "f" 1)), .serve false .none,
    .serve false .none, .deliver false,
    .call true (.upsertInternal .features (.ofVersion "f" 6)), .serve true .none, .serve true .none,
    .deliver true, .serve true .none, .deliver true,
    .call false (.initInternal (sampleData "g" 1)), .serve false .none]

/-- An init whose callback is called without an error, while no state up to the callback has the
init marker. -/
theorem init_lost :
    ∃ (s t : Sys Bool) (ls : List (Label Bool)) (allData : AllData) (call : CallId) (reply : Reply),
      Fresh s ∧ run s ls = some t ∧ (.initExec allData call, reply) ∈ (t.conn false).outbox ∧
      reply ≠ .error ∧
      Along (fun u l => OneWriteAtATime u l ∧ ¬ Holds u.db (u.conn false).state allData) s
        (ls ++ [.deliver false]) := by
  have hreply : (run (opened (sampleDb "f" 5) fun _ => connectedState) lostInit).map
      (fun t => nextInitReply (t.conn false)) = some (some (1, .nil)) := by decide +kernel
  obtain ⟨t, ht, hnext⟩ := Option.map_eq_some_iff.1 hreply
  obtain ⟨allData, hmem⟩ := mem_outbox_of_nextInitReply hnext
  have halong : Along (fun u l => OneWriteAtATime u l ∧
      u.db (initedKey (u.conn false).state) = none)
      (opened (sampleDb "f" 5) fun _ => connectedState) (lostInit ++ [.deliver false]) := by
    decide +kernel
  refine ⟨_, t, lostInit, allData, 1, .nil, opened_fresh _ _, ht, hmem, by decide, ?_⟩
  -- The marker is missing throughout, so that no state holds the data.
  refine halong.mono fun u l hu => ⟨hu.1, fun hholds => ?_⟩
  have hinited := hholds.inited
  rw [hu.2] at hinited
  cases hinited

/-- An init on its own is committed. -/
theorem init_committed_iff_single :
    ∃ (w x : Sys Unit) (fault : Fault) (multi : Multi), step w (.serve () fault) = some x ∧
      ((Reply.replies [.int 0, .ok, .ok]).committed = true ∧
          Holds x.db (x.conn ()).state (sampleData "f" 1) ↔
        WatchesHold () w.log ∧ NoProtoKey (sampleData "f" 1) ∧
          ∀ write ∈ multi, write ∉ fault.refused) := by
  have hrun : run (opened (fun _ => none) fun _ => connectedState)
    [.call () (.initInternal (sampleData "f" 1)), .serve () .none] = some _ := rfl
  obtain ⟨_, _, _, _, _, w, x, fault, multi, -, -, -, -, -, hstep, -, -, hiff⟩ :=
    @init_committed_iff Unit _ _ _ _ (opened_fresh _ _) hrun () (sampleData "f" 1) 0
      (.replies [.int 0, .ok, .ok]) (List.mem_singleton_self _) (by decide)
  exact ⟨w, x, fault, multi, hstep, hiff⟩

end Sys

end RedisStore
