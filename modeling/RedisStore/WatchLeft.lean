import RedisStore.Watch

/-!
# The watch that an upsert leaves

Each attempt of an upsert starts with a `WATCH`. An `EXEC` releases it on the server, also one that
is aborted or answered with an error; but an attempt that the version check rejects sends nothing
more, since `multi.discard()` only empties the queue of the client's transaction object. So when the
callback of an upsert is called, its connection is free of the watch exactly if the upsert was not
rejected, or the `WATCH` itself was refused (`upsert_unwatched_iff`). `Attempt` is where an upsert
stands that has its connection for itself, with what the session watches there.
-/

namespace RedisStore

open Redis

/-- The callback is that of an upsert's read, and its version check rejects the upsert. -/
def Callback.rejects : Callback → Reply → Bool
  | .hget _ _ (.update _ item _ _), reply =>
    match replyVerdict reply item with
    | .reject _ => true
    | _ => false
  | _, _ => false

/-! ## The last `WATCH` -/

section

variable {ι : Type} [DecidableEq ι]

/-- The reply to a `WATCH` of connection `c`. -/
def Event.watchReply (c : ι) : Event ι → Option Reply
  | .executed d ⟨.watch _, _⟩ reply _ => if d = c then some reply else none
  | _ => none

/-- The reply to the last `WATCH` of connection `c`. -/
def lastWatch (c : ι) (log : List (Event ι)) : Option Reply :=
  (log.filterMap (Event.watchReply c)).getLast?

theorem lastWatch_concat (c : ι) (log : List (Event ι)) (e : Event ι) :
    lastWatch c (log ++ [e]) = (e.watchReply c).or (lastWatch c log) := by
  unfold lastWatch
  rw [List.filterMap_append, List.getLast?_append]
  cases h : e.watchReply c <;> simp [h]

/-- Other events leave it. -/
theorem lastWatch_append {c : ι} {es : List (Event ι)} (h : ∀ e ∈ es, e.watchReply c = none)
    (log : List (Event ι)) : lastWatch c (log ++ es) = lastWatch c log := by
  unfold lastWatch
  rw [List.filterMap_append, List.filterMap_eq_nil_iff.2 h, List.append_nil]

/-- An event of another connection is no `WATCH` of `c`. -/
theorem watchReply_of_conn {c : ι} {e : Event ι} (h : e.conn? ≠ some c) : e.watchReply c = none := by
  unfold Event.watchReply
  split
  · next d _ _ _ _ =>
    rw [if_neg fun hd => h (congrArg some hd)]
  · rfl

/-- Code executes no commands. -/
theorem watchReply_eventsOf (c d : ι) (code : Code Unit) :
    ∀ e ∈ eventsOf d code, e.watchReply c = none := by
  intro e he
  rcases List.mem_append.1 he with he | he
  · obtain ⟨a, -, rfl⟩ := List.mem_map.1 he
    rfl
  · obtain ⟨x, -, rfl⟩ := List.mem_map.1 he
    rfl

end

/-! ## An upsert with its connection for itself -/

/-- What the session watches after the `WATCH` of an attempt, by the reply to it. -/
def Watching (key : Key) (last : Option Reply) (session : Session) : Prop :=
  if last = some .error then session = .clear else session.watched = [key]

/-- Where an upsert stands, by the requests that the server has not executed and the replies that
wait, when there are no others. -/
inductive Attempt (state : StoreState) (kind : Kind) (item : Item) (call : CallId)
    (last : Option Reply) (session : Session) : List Request → List (Callback × Reply) → Prop where
  | watch (next : Request)
    (hnext : next = readRequest state kind item call ∨ next = writeRequest state kind item call)
    (hclear : session = .clear) :
    Attempt state kind item call last session [⟨.watch (itemsKey state kind), none⟩, next] []
  | read (hwatching : Watching (itemsKey state kind) last session) :
    Attempt state kind item call last session [readRequest state kind item call] []
  | check (reply : Reply) (hwatching : Watching (itemsKey state kind) last session) :
    Attempt state kind item call last session []
      [(.hget kind item.key (.update kind item [] call), reply)]
  | write : Attempt state kind item call last session [writeRequest state kind item call] []
  | written (reply : Reply) (hclear : session = .clear) :
    Attempt state kind item call last session [] [(.upsertExec kind item call, reply)]
  | ended : Attempt state kind item call last session [] []

namespace Attempt

variable {state : StoreState} {kind : Kind} {item : Item} {call : CallId} {last : Option Reply}
  {session : Session} {i : List Request} {o : List (Callback × Reply)}

/-- A modification of keys by others. -/
theorem touch (h : Attempt state kind item call last session i o) (keys : List Key) :
    Attempt state kind item call last (session.touch keys) i o := by
  -- Without a watch there is no flag to set.
  have hclear : session = .clear → session.touch keys = .clear := by
    rintro rfl
    exact Session.touch_of_not_watched fun _ _ => List.not_mem_nil
  have hwatching : Watching (itemsKey state kind) last session →
      Watching (itemsKey state kind) last (session.touch keys) := by
    unfold Watching
    split_ifs
    · exact hclear
    · intro hw
      rw [Session.touch_watched, hw]
  cases h with
  | watch next hnext h => exact .watch next hnext (hclear h)
  | read h => exact .read (hwatching h)
  | check reply h => exact .check reply (hwatching h)
  | write => exact .write
  | written reply h => exact .written reply (hclear h)
  | ended => exact .ended

/-- The first attempt, or the next one after an abort. -/
theorem start (hclear : session = .clear) :
    Attempt state kind item call last session (upsertInternal state kind item call).issued [] := by
  cases hdown : state.down with
  | false =>
    rw [(upsertInternal_does_of_up hdown kind item call).issued]
    exact .watch _ (.inl rfl) hclear
  | true =>
    rw [(upsertInternal_does_of_down hdown kind item call).issued]
    exact .watch _ (.inr rfl) hclear

/-- The server executes the next command, or answers it with an error. -/
theorem serve {ι : Type} [DecidableEq ι] {c : ι} {request : Request}
    (h : Attempt state kind item call last session (request :: i) o) (db : Db) (fault : Fault)
    {out : Outcome} (hout : out = request.cmd.serve db session fault) :
    Attempt state kind item call
      ((Event.watchReply c (.executed c request out.reply out.touched)).or last) out.session i
      (o ++ Sys.waiting request out.reply) := by
  subst hout
  cases h with
  | watch next hnext hclear =>
    subst hclear
    have hwatching : Watching (itemsKey state kind)
        ((Event.watchReply c (.executed c ⟨.watch (itemsKey state kind), none⟩
          ((Command.watch (itemsKey state kind)).serve db .clear fault).reply
          ((Command.watch (itemsKey state kind)).serve db .clear fault).touched)).or last)
        ((Command.watch (itemsKey state kind)).serve db .clear fault).session := by
      cases fault <;>
        simp [Watching, Event.watchReply, Command.serve, Command.deny, Command.refuse, Session.clear]
    rcases hnext with rfl | rfl
    · exact .read hwatching
    · exact .write
  | read hwatching => cases fault <;> exact .check _ hwatching
  | write =>
    obtain ⟨-, -, -, -, hsession⟩ := Command.serve_exec
      [.hset (itemsKey state kind) item.key item.text] db session fault
    exact .written _ hsession

/-- The callback of the reply runs. -/
theorem deliver {cb : Callback} {reply : Reply}
    (h : Attempt state kind item call last session i ((cb, reply) :: o)) :
    Attempt state kind item call last session (i ++ (cb.resume state reply).issued) o := by
  cases h with
  | check _ hwatching =>
    have hdoes := onHget_update_does state kind item.key item call reply
    rw [Callback.resume]
    split at hdoes
    · rw [hdoes.issued]
      exact .write
    · rw [hdoes.issued]
      exact .ended
    · rw [hdoes.issued]
      exact .ended
  | written _ hclear =>
    rw [Callback.resume]
    by_cases hnil : reply = .nil
    · subst hnil
      rw [(onUpsertExec_does_of_nil ⟨rfl, rfl, rfl⟩).issued]
      exact start hclear
    · rw [(onUpsertExec_does hnil state kind item call).issued]
      exact .ended

/-- A connection is made. -/
theorem regain (h : Attempt state kind item call last session i o) :
    Attempt (state.onEvent .connect).1 kind item call last session i o := by
  cases h with
  | watch next hnext hclear => exact .watch next hnext hclear
  | read hwatching => exact .read hwatching
  | check reply hwatching => exact .check reply hwatching
  | write => exact .write
  | written reply hclear => exact .written reply hclear
  | ended => exact .ended

/-- Where the callback of the call is called, the session is clear unless the upsert is rejected, and
its `WATCH` was not refused. -/
theorem clear_iff {cb : Callback} {reply : Reply} {a : CallId × Answer}
    (h : Attempt state kind item call last session i ((cb, reply) :: o))
    (ha : a ∈ (cb.resume state reply).answered) :
    session = .clear ↔ (cb.rejects reply = true → last = some .error) := by
  cases h with
  | check _ hwatching =>
    have hdoes := onHget_update_does state kind item.key item call reply
    rw [Callback.resume] at ha
    split at hdoes
    · simp [hdoes.answered] at ha
    · next oldItem hverdict =>
      have hrejects : Callback.rejects (.hget kind item.key (.update kind item [] call)) reply = true := by
        simp [Callback.rejects, hverdict]
      unfold Watching at hwatching
      split_ifs at hwatching with hlast
      · exact iff_of_true hwatching fun _ => hlast
      · refine iff_of_false (fun hclear => ?_) fun himp => hlast (himp hrejects)
        rw [hclear] at hwatching
        cases hwatching
    · simp [hdoes.answered] at ha
  | written _ hclear => exact iff_of_true hclear fun hrejects => by cases hrejects

end Attempt

/-! ## Runs -/

/-- The connection is used by no other operation, and is not lost. -/
def Alone {ι : Type} (c : ι) : Label ι → Prop
  | .call d _ => d ≠ c
  | .lose d _ => d ≠ c
  | _ => True

namespace Sys

variable {ι : Type} [DecidableEq ι] {s t u v : Sys ι} {l : Label ι} {c : ι} {kind : Kind}
  {item : Item} {call : CallId}

/-- Where the upsert of a connection stands. -/
def Attempting (s : Sys ι) (c : ι) (kind : Kind) (item : Item) (call : CallId) : Prop :=
  Attempt (s.conn c).state kind item call (lastWatch c s.log) (s.conn c).session (s.conn c).inbox
    (s.conn c).outbox

/-- It goes on with every step. -/
theorem attempting_step (hs : Attempting s c kind item call) (hl : Alone c l)
    (h : step s l = some t) : Attempting t c kind item call := by
  unfold Attempting at hs ⊢
  cases step_conn h c with
  | call op hstep => exact absurd rfl hl
  | serve request rest fault hstep =>
    rw [hstep.inbox] at hs
    rw [hstep.log, lastWatch_concat, hstep.self]
    exact hs.serve s.db fault rfl
  | deliver cb reply rest hstep =>
    rw [hstep.outbox] at hs
    rw [hstep.log, lastWatch_append (watchReply_eventsOf c c _), hstep.self]
    exact hs.deliver
  | lose kept hstep => exact absurd rfl hl
  | regain hstep =>
    rw [hstep.log, lastWatch_concat, hstep.self]
    exact hs.regain
  | other l hc hstep =>
    obtain ⟨es, hes, hconn⟩ := step_log_conn h
    rw [hes, lastWatch_append fun e he => watchReply_of_conn ((hconn e he).trans_ne hc), hstep]
    exact hs.touch (modified s l)

/-- A connection without a watch has its flag clear. -/
theorem session_clear_of_watched {ls : List (Label ι)} (h₀ : Fresh s) (h : run s ls = some t)
    (hwatched : (t.conn c).session.watched = []) : (t.conn c).session = .clear := by
  have hholds : WatchesHold c t.log := by
    refine List.pairwise_of_forall_mem_list fun e he e' _ key hkey _ => ?_
    have hmem := mem_watched_sessionOf.2 ⟨e, he, hkey⟩
    rw [← session_run h₀ h c, hwatched] at hmem
    cases hmem
  have hdirty := (dirty_eq_false_iff h₀ h c).2 hholds
  generalize (t.conn c).session = session at hwatched hdirty
  obtain ⟨watched, dirty⟩ := session
  subst hwatched hdirty
  rfl

/-- In every run, for an upsert that is called on an idle connection without a watch and has it for
itself: when its callback is called, the connection watches nothing and its flag is clear, exactly if
the version check has not rejected the upsert, or the server has refused its last `WATCH`. -/
theorem upsert_unwatched_iff {ls₀ ls : List (Label ι)} (h₀ : Fresh s) (hu : run s ls₀ = some u)
    (hin : (u.conn c).inbox = []) (hout : (u.conn c).outbox = [])
    (hwatched : (u.conn c).session.watched = [])
    (hcall : step u (.call c (.upsertInternal kind item)) = some v) (halone : ∀ l ∈ ls, Alone c l)
    (h : run v ls = some t) {cb : Callback} {reply : Reply} {rest : List (Callback × Reply)}
    (hnext : (t.conn c).outbox = (cb, reply) :: rest) {call : CallId} {a : Answer}
    (ha : (call, a) ∈ (cb.resume (t.conn c).state reply).answered) :
    (t.conn c).session = .clear ↔ (cb.rejects reply = true → lastWatch c t.log = some .error) := by
  have hv : Attempting v c kind item (u.calls c) := by
    have hstep := call_step hcall
    unfold Attempting
    rw [hstep.self]
    dsimp only
    rw [hin, hout, List.nil_append]
    exact Attempt.start (session_clear_of_watched h₀ hu hwatched)
  have ht : Attempting t c kind item (u.calls c) :=
    Transition.run_invariant (P := fun w => Attempting w c kind item (u.calls c))
      (G := fun _ l => Alone c l) (fun _ _ _ hs hl hstep => attempting_step hs hl hstep) hv
      (Transition.Along.of_forall fun _ l hl => halone l hl) h
  unfold Attempting at ht
  rw [hnext] at ht
  exact ht.clear_iff ha

/-! ## A rejected upsert -/

/-- A rejected upsert answers the item that it read. -/
theorem answered_of_reject {reply : Reply} {oldItem : Json}
    (h : replyVerdict reply item = .reject oldItem) (state : StoreState) (kind : Kind)
    (call : CallId) : (call, .upserted false oldItem) ∈
      (Callback.resume state reply (.hget kind item.key (.update kind item [] call))).answered := by
  have hdoes := onHget_update_does state kind item.key item call reply
  rw [h] at hdoes
  rw [Callback.resume, hdoes.answered]
  exact List.mem_singleton_self _

/-- The server executes the first two commands of an upsert, and the callback of its read comes
next. -/
def firstRead : List (Label Unit) := [.serve () .none, .serve () .none]

/-- An upsert of `f` of version 1 up to there, where a text is stored: the connection watches the
key. -/
theorem firstRead_run (text : String) :
    ∃ v t : Sys Unit, step (opened (Function.update (fun _ => none)
          (itemsKey connectedState .features) (some (.hash ((∅ : Fields).insert "f" text))))
          fun _ => connectedState) (.call () (.upsertInternal .features (.ofVersion "f" 1))) = some v ∧
      run v firstRead = some t ∧ (t.conn ()).state = connectedState ∧
      (t.conn ()).outbox =
        [(.hget .features "f" (.update .features (.ofVersion "f" 1) [] 0), .str text)] ∧
      (t.conn ()).session.watched = [itemsKey connectedState .features] :=
  ⟨_, _, rfl, rfl, rfl, rfl, rfl⟩

/-- An upsert of version 1 where version 5 is stored: when its callback is called, the connection still
watches the key. -/
theorem rejected_upsert_watches :
    ∃ (s v t : Sys Unit) (item : Item) (cb : Callback) (reply : Reply) (a : Answer),
      Fresh s ∧ step s (.call () (.upsertInternal .features item)) = some v ∧
      (∀ l ∈ firstRead, Alone () l) ∧ run v firstRead = some t ∧
      (t.conn ()).outbox = [(cb, reply)] ∧ (0, a) ∈ (cb.resume (t.conn ()).state reply).answered ∧
      (t.conn ()).session.watched = [itemsKey connectedState .features] := by
  obtain ⟨v, t, hcall, hrun, hstate, hout, hwatched⟩ := firstRead_run (sampleText "f" 5)
  have hverdict : replyVerdict (.str (sampleText "f" 5)) (.ofVersion "f" 1) =
      .reject (Item.ofVersion "f" 5).json := by
    have hver : (Item.ofVersion "f" 5).json.itemVersion = some 5 := Item.itemVersion_json _
    have hold : (Item.ofVersion "f" 1).version ≤ 5 := by decide
    simp [replyVerdict, replyItem, jsonParse, sampleText, Item.text, Json.verdict_of_itemVersion hver,
      hold]
  have hans : (0, .upserted false (Item.ofVersion "f" 5).json) ∈ (Callback.resume (t.conn ()).state
      (.str (sampleText "f" 5))
      (.hget .features "f" (.update .features (.ofVersion "f" 1) [] 0))).answered :=
    answered_of_reject hverdict _ _ _
  have halone : ∀ l ∈ firstRead, Alone () l := by simp [firstRead, Alone]
  exact ⟨_, v, t, .ofVersion "f" 1, _, _, _, opened_fresh _ _, hcall, halone, hrun, hout, hans,
    hwatched⟩

/-- An upsert on an empty database is not rejected. -/
theorem upsert_unwatched_iff_written :
    ∃ v t : Sys Unit, step (opened (fun _ => none) fun _ => connectedState)
        (.call () (.upsertInternal .features (.ofVersion "f" 1))) = some v ∧
      run v (firstRead ++ [.deliver (), .serve () .none]) = some t ∧
      (t.conn ()).session = .clear := by
  have hrun : ∃ v t : Sys Unit, step (opened (fun _ => none) fun _ => connectedState)
        (.call () (.upsertInternal .features (.ofVersion "f" 1))) = some v ∧
      run v (firstRead ++ [.deliver (), .serve () .none]) = some t ∧
      (t.conn ()).outbox = [(.upsertExec .features (.ofVersion "f" 1) 0, .replies [.int 1])] :=
    ⟨_, _, rfl, rfl, rfl⟩
  obtain ⟨v, t, hcall, hrun, hout⟩ := hrun
  refine ⟨v, t, hcall, hrun, ?_⟩
  have hidle : run (opened (fun _ => none) fun _ : Unit => connectedState) [] = some _ := rfl
  exact (upsert_unwatched_iff (opened_fresh _ _) hidle rfl rfl rfl hcall (by simp [firstRead, Alone])
    hrun hout (List.mem_singleton_self _)).2 fun hrejects => by cases hrejects

end Sys

end RedisStore
