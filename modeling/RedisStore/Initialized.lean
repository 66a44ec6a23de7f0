import RedisStore.AnswerOrder
import RedisStore.AtomicReads
import RedisStore.Written

/-!
# What `initializedInternal` tells

The marker `$inited` is there exactly when it was there at the start or an init with its prefix has
been executed, its `SET` of the marker not refused, whatever else is written, aborted or lost
(`marked_run`). So a call of `initializedInternal` tells, for an instant while it is in progress, whether
an init has set the marker, or its command has failed (`initialized_tells`); and once an init has set it
every later call is told so.
-/

namespace RedisStore

open Redis

/-! ## The marker -/

/-- No name of an init gives the key of a marker. -/
theorem append_ne_initedKey (state st : StoreState) {ns name : String}
    (hname : dataKindNamespace ns = .ok name) : st.itemsPrefix ++ name ≠ initedKey state := by
  intro h
  have hends := congrArg (fun key : String => key.toList.reverse.take 3) h
  unfold dataKindNamespace at hname
  split_ifs at hname <;> obtain rfl := Except.ok.inj hname <;>
    simp [initedKey, Kind.namespaceName] at hends

/-- Two markers are under one key only with one prefix. -/
theorem initedKey_inj {state st : StoreState} :
    initedKey st = initedKey state ↔ st.itemsPrefix = state.itemsPrefix :=
  String.append_left_inj _

/-- The marker after an init is there if it was, or if the init is for its prefix and the last of its
writes, that of the marker, is not refused. -/
theorem isSome_buildInit {state st : StoreState} {allData : AllData} {multi : Multi}
    (h : buildInit st allData = .ok multi) (denied : List Write) (db : Db) :
    ((runAllowed denied multi db).db (initedKey state)).isSome ↔
      (db (initedKey state)).isSome ∨ st.itemsPrefix = state.itemsPrefix ∧
        (runAllowed denied multi db).replies.getLast? = some .ok := by
  obtain ⟨ws, rfl, hws⟩ := buildInit_eq_concat h
  -- The writes for the names are about other keys.
  have hkept : (runAllowed denied ws db).db (initedKey state) = db (initedKey state) := by
    rw [(runAllowed_eq denied ws db).1]
    refine runWrites_db_of_not_mem _ _ fun hmem => ?_
    obtain ⟨w, hw, hwkey⟩ := List.mem_map.1 hmem
    obtain ⟨e, -, name, hname, rfl | ⟨stringified, -, rfl⟩⟩ := hws w (List.mem_filter.1 hw).1 <;>
      exact append_ne_initedKey state st hname hwkey
  obtain ⟨hdb, hreplies⟩ := runAllowed_append denied ws [.set (initedKey st) ""] db
  rw [hdb, hreplies, List.getLast?_append, runAllowed_singleton]
  split_ifs with hdenied
  · simp [hkept]
  · by_cases hsame : st.itemsPrefix = state.itemsPrefix
    · simp [runWrites, hsame, initedKey_inj.2 hsame, Write.key, Write.run]
    · have hne : initedKey state ≠ initedKey st := fun heq => hsame (initedKey_inj.1 heq.symm)
      simp [runWrites, hsame, hkept, Write.key, hne]

/-- The marker after a command is there if it was, or if the command is the transaction of an init for its
prefix and is executed with the write of the marker. -/
theorem Issued.isSome_serve {state st : StoreState} {r : Request} (hr : Issued st r) (db : Db)
    (session : Session) (fault : Fault) :
    ((r.cmd.serve db session fault).db (initedKey state)).isSome ↔
      (db (initedKey state)).isSome ∨ st.itemsPrefix = state.itemsPrefix ∧
        ∃ replies allData call, (r.cmd.serve db session fault).reply = .replies replies ∧
          replies.getLast? = some .ok ∧ r.callback = some (.initExec allData call) := by
  cases hr with
  | upsertWrite kind item call =>
    have hkept : ((writeRequest st kind item call).cmd.serve db session fault).db (initedKey state) =
        db (initedKey state) := by
      refine Command.serve_db_of_not_touched _ db session fault fun hmem => ?_
      have hkey : initedKey state = itemsKey st kind :=
        List.mem_singleton.1 (Command.serve_touched_subset _ db session fault _ hmem)
      exact itemsKey_ne_initedKey st state kind hkey.symm
    rw [hkept]
    simp [writeRequest]
  | init allData call multi hbuild =>
    dsimp only
    by_cases hfault : fault = .error
    · subst hfault
      simp [Command.serve, Command.refuse]
    cases hdirty : session.dirty with
    | true => simp [Command.serve_exec_of_dirty multi db hdirty hfault]
    | false =>
      simp only [Command.serve_exec_of_clean multi db hdirty hfault]
      rw [isSome_buildInit hbuild]
      simp
  | _ =>
    rw [(Command.serve_db (by simp [readRequest]) db session fault).1]
    simp [readRequest]

namespace Sys

variable {ι : Type} [DecidableEq ι] {s t u : Sys ι} {l : Label ι} {ls : List (Label ι)} {c : ι}
  {call : CallId} {state : StoreState}

/-- The event is the execution of an init, on a connection with the prefix, whose last write, that of the
marker, is not refused. -/
def CommitsInit (s : Sys ι) (state : StoreState) (e : Event ι) : Prop :=
  ∃ d request replies touched allData call, e = .executed d request (.replies replies) touched ∧
    replies.getLast? = some .ok ∧ request.callback = some (.initExec allData call) ∧
    (s.conn d).state.itemsPrefix = state.itemsPrefix

/-- The marker is there exactly if it was at the start or an init has set it. -/
def Marked (state : StoreState) (db : Db) (s : Sys ι) : Prop :=
  (s.db (initedKey state)).isSome ↔
    (db (initedKey state)).isSome ∨ ∃ e ∈ s.log, CommitsInit s state e

/-- The step is none of another program that writes the key. -/
def LeavesKey (key : Key) : Label ι → Prop
  | .foreign values => ∀ v ∈ values, v.1 ≠ key
  | _ => True

/-- A step that commits no init adds no commit. -/
theorem exists_commitsInit_of_step (h : step s l = some t) {es : List (Event ι)}
    (hes : t.log = s.log ++ es) :
    (∃ e ∈ t.log, CommitsInit t state e) ↔
      (∃ e ∈ s.log, CommitsInit s state e) ∨ ∃ e ∈ es, CommitsInit s state e := by
  have hsame : ∀ e, CommitsInit t state e ↔ CommitsInit s state e := by
    intro e
    unfold CommitsInit
    simp only [step_itemsPrefix h]
  simp only [hsame, hes, List.mem_append, or_and_right, exists_or]

/-- A step that leaves the marker and executes no transaction keeps this. -/
theorem Marked.keep {db : Db} (hs : Marked state db s) (h : step s l = some t) {es : List (Event ι)}
    (hes : t.log = s.log ++ es) (hdb : t.db (initedKey state) = s.db (initedKey state))
    (hnot : ∀ e ∈ es, ∀ d request replies touched,
      e ≠ .executed d request (.replies replies) touched) : Marked state db t := by
  have hnone : ¬ ∃ e ∈ es, CommitsInit s state e := by
    rintro ⟨e, he, d, request, replies, touched, _, _, heq, -⟩
    exact hnot e he d request replies touched heq
  unfold Marked at hs ⊢
  rw [hdb, exists_commitsInit_of_step h hes, or_iff_left hnone]
  exact hs

theorem marked_step {db : Db} (hq : ∀ c, (s.conn c).Queued) (hs : Marked state db s)
    (hl : LeavesKey (initedKey state) l) (h : step s l = some t) : Marked state db t := by
  cases l with
  | call c op =>
    refine hs.keep h (call_step h).log (by rw [(call_step h).db]) ?_
    rintro e he d request replies touched rfl
    obtain heq | he := List.mem_cons.1 he
    · cases heq
    · exact not_executed_eventsOf _ _ _ _ _ _ he
  | serve c fault =>
    obtain ⟨request, rest, hstep⟩ := serve_step h
    have hissued : Issued (s.conn c).state request := by
      refine (hq c).inbox request ?_
      rw [hstep.inbox]
      exact List.mem_cons_self
    -- The marker and the execution of an init come together.
    unfold Marked at hs ⊢
    rw [exists_commitsInit_of_step h hstep.log, hstep.db, outcome, hissued.isSome_serve, hs, or_assoc]
    refine or_congr_right (or_congr_right ⟨?_, ?_⟩)
    · rintro ⟨hsame, replies, allData, call, hreply, hlast, hcb⟩
      exact ⟨_, List.mem_singleton.2 rfl, c, request, replies, _, allData, call, by rw [hreply], hlast,
        hcb, hsame⟩
    · rintro ⟨e, he, d, request', replies, touched, allData, call, rfl, hlast, hcb, hsame⟩
      obtain ⟨rfl, rfl, hreply, -⟩ := Event.executed.inj (List.mem_singleton.1 he)
      exact ⟨hsame, replies, allData, call, hreply.symm, hlast, hcb⟩
  | deliver c =>
    obtain ⟨cb, reply, rest, hstep⟩ := deliver_step h
    refine hs.keep h hstep.log (by rw [hstep.db]) ?_
    rintro e he d request replies touched rfl
    exact not_executed_eventsOf _ _ _ _ _ _ he
  | lose c kept => exact hs.keep h (lose_step h).log (by rw [(lose_step h).db]) (by simp)
  | regain c => exact hs.keep h (regain_step h).log (by rw [(regain_step h).db]) (by simp)
  | foreign values =>
    have hstep := Option.some.inj h
    refine hs.keep h (by rw [← hstep]; rfl) ?_ (by simp)
    rw [← hstep]
    refine (foldl_update_eq values s.db (initedKey state)).resolve_right ?_
    rintro ⟨v, hv, hkey, -⟩
    exact hl v hv hkey

theorem marked_run (h₀ : Fresh s) (hls : ∀ l ∈ ls, LeavesKey (initedKey state) l)
    (h : run s ls = some t) : Marked state s.db t := by
  refine (Transition.run_invariant (P := fun u : Sys ι => (∀ c, (u.conn c).Queued) ∧ Marked state s.db u)
    (fun u l v hu hl hstep => ⟨queued_step hu.1 hstep, marked_step hu.1 hu.2 hl hstep⟩)
    ⟨h₀.queued, ?_⟩ (Transition.Along.of_forall fun _ => hls) h).2
  unfold Marked
  simp [h₀.log]

/-- In every run of any number of connections where other programs do not write the marker, whatever the
faults, aborts, lost connections and overlapping calls: the answer of `initializedInternal` tells whether,
at an instant while the call is in progress, the marker was there from the start or an init had been
executed on a connection with the prefix, its `SET` of the marker not refused; or the answer is `false`
and the call met a fault. -/
theorem initialized_tells (h₀ : Fresh s) (h : run s ls = some t)
    (hls : ∀ l ∈ ls, LeavesKey (initedKey (s.conn c).state) l)
    (hcalled : .called c call .initializedInternal ∈ t.log) {b : Bool}
    (ha : .answered c call (.inited b) ∈ t.log) :
    (∃ ls₁ ls₂ u, ls = ls₁ ++ ls₂ ∧ run s ls₁ = some u ∧ InProgress u c call ∧
        (b = true ↔ (s.db (initedKey (s.conn c).state)).isSome ∨
          ∃ e ∈ u.log, CommitsInit u (s.conn c).state e)) ∨
      (b = false ∧ MeetsFault s ls c call .initializedInternal) := by
  have hreads : Op.initializedInternal.reads = true := rfl
  obtain ⟨ls₁, l, ls₂, u, rfl, hu, hstart | hfault | hsees⟩ :=
    origin_of_answered h₀ h hreads hcalled ha
  · obtain ⟨-, -, hans⟩ := hstart
    exact ((initializedInternal_does _ _).not_answer hans).elim
  · obtain ⟨hl, hprogress, hfailure⟩ := hfault
    exact .inr ⟨Answer.inited.inj hfailure, ls₁, l, ls₂, u, rfl, hu, .inr ⟨hl, hprogress⟩⟩
  · obtain ⟨hprogress, hsees⟩ := hsees
    have hmarked : Marked (s.conn c).state s.db u :=
      marked_run h₀ (fun l' hl' => hls l' (List.mem_append_left _ hl')) hu
    have hb : b = (u.db (initedKey (u.conn c).state)).isSome := Answer.inited.inj hsees
    rw [initedKey_inj.2 (run_itemsPrefix hu c)] at hb
    refine .inl ⟨ls₁, l :: ls₂, u, rfl, hu, hprogress, ?_⟩
    rw [hb]
    exact hmarked

/-- A call that overlaps an init on another connection, and is served after its commit. -/
def overlapsInit : List (Label Bool) :=
  [.call true (.initInternal (sampleData "f" 1)), .call false .initializedInternal, .serve true .none,
    .lose true 0, .serve false .none, .deliver false]

/-- Whether the call is told that the store is initialized. -/
def toldInited : Event Bool → Option Bool
  | .answered false 0 (.inited b) => some b
  | _ => none

/-- The call is told of the commit. -/
theorem initialized_tells_overlapping :
    ∃ t : Sys Bool, run (opened (fun _ => none) fun _ => connectedState) overlapsInit = some t ∧
      .answered false 0 (.inited true) ∈ t.log ∧ ∃ u : Sys Bool, InProgress u false 0 ∧
        ∃ e ∈ u.log, CommitsInit u connectedState e := by
  have hend : (run (opened (fun _ => none) fun _ => connectedState) overlapsInit).map
      (fun t => t.log.filterMap toldInited) = some [true] := by decide +kernel
  obtain ⟨t, ht, htold⟩ := Option.map_eq_some_iff.1 hend
  obtain ⟨e, he, hinited⟩ := List.mem_filterMap.1
    (show true ∈ t.log.filterMap toldInited by rw [htold]; exact List.mem_singleton.2 rfl)
  obtain rfl : e = .answered false 0 (.inited true) := by
    unfold toldInited at hinited
    split at hinited
    · rw [Option.some.inj hinited]
    · cases hinited
  obtain ⟨op, hcalled⟩ := (called_run (opened_fresh _ _) ht).answered false 0 _ he
  have hop := mem_of_called (opened_fresh _ _) ht hcalled
  obtain rfl : op = .initializedInternal := by simpa [overlapsInit] using hop
  have hls : ∀ l ∈ overlapsInit, LeavesKey (initedKey connectedState) l := by
    simp [overlapsInit, LeavesKey]
  rcases initialized_tells (opened_fresh _ _) ht hls hcalled he with htells | ⟨hfalse, -⟩
  · obtain ⟨_, _, u, -, -, hprogress, hiff⟩ := htells
    exact ⟨t, ht, he, u, hprogress, (hiff.1 rfl).resolve_left (by simp [opened])⟩
  · cases hfalse

end Sys

end RedisStore
