import RedisStore.AtomicReads

/-!
# What the stores write in the log

The operations of the feature store report an error twice: by their answer, and by a line in the log. The
two agree in every run. Code that is given an error, or that is to read while the connection is down, writes
one line, and its answer, if it gives one, is the failure of its operation; any other answer comes without a
line, and is what its callback makes of a reply of the server that is no error (`failures_logged`). The
reply to an aborted init, or to a transaction with a write that was refused, is no error, and nothing is
written about it. And a line other than the one about a retry has a cause: the connection is down when it is
written, or the call met an error, a lost connection, or a key that holds no hash (`alarms_warranted`).
-/

namespace RedisStore

open Redis

/-- The lines that a piece of code writes, in order. -/
def Js.logged (code : Code Unit) : List LogLine :=
  code.effects.filterMap fun
    | .log line => some line
    | _ => none

/-! ## The lines -/

/-- `doGet` on a connection that is down. -/
def fetchDown (key : String) : LogLine :=
  ⟨.warn, "Attempted to fetch key " ++ key ++ " while Redis connection is down"⟩

/-- `doGet` on an error. -/
def fetchFailed (kind : Kind) (key : String) : LogLine :=
  ⟨.error, "Error fetching key " ++ key ++ " from Redis in '" ++ kind.namespaceName ++ "'"⟩

/-- `getAllInternal` on a connection that is down. -/
def fetchAllDown : LogLine := ⟨.warn, "Attempted to fetch all keys while Redis connection is down"⟩

/-- `getAllInternal` on an error. -/
def fetchAllFailed (kind : Kind) : LogLine :=
  ⟨.error, "Error fetching '" ++ kind.namespaceName ++ "' from Redis"⟩

/-- `initInternal` on an error. -/
def initFailed : LogLine := ⟨.error, "Error initializing Redis store"⟩

/-- `upsertInternal` on an error. -/
def upsertFailed (kind : Kind) (item : Item) : LogLine :=
  ⟨.error, "Error upserting key " ++ item.key ++ " in '" ++ kind.namespaceName ++ "'"⟩

/-- `updateItemWithVersioning` on an aborted transaction. -/
def retrying : LogLine := ⟨.debug, "Concurrent modification detected, retrying"⟩

/-- The lines with which an operation reports that something failed. -/
def Op.alarms : Op → List LogLine
  | .getInternal kind key => [fetchDown key, fetchFailed kind key]
  | .getAllInternal kind => [fetchAllDown, fetchAllFailed kind]
  | .initInternal _ => [initFailed]
  | .upsertInternal kind item =>
    [fetchDown item.key, fetchFailed kind item.key, upsertFailed kind item]
  | _ => []

/-- The kind whose hash an operation reads. -/
def Op.kindRead : Op → Option Kind
  | .getInternal kind _ => some kind
  | .getAllInternal kind => some kind
  | .upsertInternal kind _ => some kind
  | _ => none

/-! ## What the code writes -/

/-- Code that starts with a value that may be an exception writes what the rest writes. -/
theorem Js.logged_ofExcept_bind {α : Type} (r : Except Exn α) (f : α → Code Unit) :
    (Js.ofExcept r >>= f).logged = [] ∨ ∃ a, r = .ok a ∧ (Js.ofExcept r >>= f).logged = (f a).logged := by
  rcases Js.ofExcept_bind r f with ⟨x, -, heq⟩ | ⟨a, ha, heq⟩
  · exact .inl (by rw [heq]; rfl)
  · exact .inr ⟨a, ha, by rw [heq]⟩

/-- The function that is passed to `doGet` writes nothing. -/
theorem logged_onGet (state : StoreState) (cb : GetCallback) (item : Json) :
    (onGet state cb item).logged = [] := by
  cases cb with
  | getInternal call =>
    unfold onGet
    dsimp only
    split_ifs <;> rfl
  | update kind newItem multi call =>
    -- The version check may throw; neither of its outcomes writes a line.
    have hwrites : ∀ notNewer : Bool, (if notNewer then upsertCallback kind newItem call false item
        else issue (.exec (multi.hset (itemsKey state kind) newItem.key newItem.text))
          (some (.upsertExec kind newItem call))).logged = [] := by
      intro notNewer
      cases notNewer <;> rfl
    unfold onGet
    dsimp only
    by_cases htrue : item.truthy
    · rw [if_pos htrue]
      rcases Js.logged_ofExcept_bind (Json.geNumber (item.prop "version") (.ofInt newItem.version))
        _ with hnone | ⟨notNewer, -, heq⟩
      · exact hnone
      · exact heq.trans (hwrites notNewer)
    · rw [if_neg htrue]
      exact hwrites false

theorem logged_getInternal (state : StoreState) (kind : Kind) (key : String) (call : CallId) :
    (getInternal state kind key call).logged = if state.down then [fetchDown key] else [] := by
  unfold getInternal doGet
  cases state.down <;> rfl

theorem logged_getAllInternal (state : StoreState) (kind : Kind) (call : CallId) :
    (getAllInternal state kind call).logged = if state.down then [fetchAllDown] else [] := by
  unfold getAllInternal
  cases state.down <;> rfl

theorem logged_upsertInternal (state : StoreState) (kind : Kind) (item : Item) (call : CallId) :
    (upsertInternal state kind item call).logged =
      if state.down then [fetchDown item.key] else [] := by
  unfold upsertInternal updateItemWithVersioning doGet
  cases state.down <;> rfl

theorem logged_initInternal (state : StoreState) (allData : AllData) (call : CallId) :
    (initInternal state allData call).logged = [] := by
  unfold initInternal
  cases buildInit state allData <;> rfl

/-- A call writes a line only where it finds the connection down, and it is one of its own. -/
theorem logged_start {op : Op} {state : StoreState} {call : CallId} {line : LogLine}
    (hline : line ∈ (op.start state call).logged) : state.down = true ∧ line ∈ op.alarms := by
  have hdown : ∀ {line' : LogLine}, line ∈ (if state.down then [line'] else []) →
      state.down = true ∧ line = line' := by
    intro line' hmem
    split_ifs at hmem with hstate
    · exact ⟨hstate, List.mem_singleton.1 hmem⟩
    · cases hmem
  cases op with
  | getInternal kind key =>
    rw [Op.start, logged_getInternal] at hline
    obtain ⟨hstate, rfl⟩ := hdown hline
    exact ⟨hstate, by simp [Op.alarms]⟩
  | getAllInternal kind =>
    rw [Op.start, logged_getAllInternal] at hline
    obtain ⟨hstate, rfl⟩ := hdown hline
    exact ⟨hstate, by simp [Op.alarms]⟩
  | initInternal allData =>
    rw [Op.start, logged_initInternal] at hline
    cases hline
  | upsertInternal kind item =>
    rw [Op.start, logged_upsertInternal] at hline
    obtain ⟨hstate, rfl⟩ := hdown hline
    exact ⟨hstate, by simp [Op.alarms]⟩
  | _ => cases hline

/-- A callback writes one line on an error, of the lines of its operation, if there are any. -/
theorem logged_error {cb : Callback} (hcb : Awaited cb) (state : StoreState) :
    ((cb.resume state .error).logged = [] ∧ cb.op.alarms = []) ∨
      ∃ line ∈ cb.op.alarms, (cb.resume state .error).logged = [line] := by
  cases hcb with
  | getRead kind key call => exact .inr ⟨fetchFailed kind key, by simp [Callback.op, Op.alarms], rfl⟩
  | upsertRead kind item call =>
    exact .inr ⟨fetchFailed kind item.key, by simp [Callback.op, Op.alarms], rfl⟩
  | upsertWrite kind item call =>
    exact .inr ⟨upsertFailed kind item, by simp [Callback.op, Op.alarms], rfl⟩
  | getAll kind call => exact .inr ⟨fetchAllFailed kind, by simp [Callback.op, Op.alarms], rfl⟩
  | init allData call => exact .inr ⟨initFailed, by simp [Callback.op, Op.alarms], rfl⟩
  | _ => exact .inl ⟨rfl, rfl⟩

/-- On any other reply it writes nothing, unless it starts an upsert again. -/
theorem logged_resume {cb : Callback} {reply : Reply} (hreply : reply ≠ .error) (state : StoreState) :
    (cb.resume state reply).logged = [] ∨
      ∃ kind item call, cb = .upsertExec kind item call ∧ reply = .nil ∧
        (cb.resume state reply).logged =
          retrying :: (upsertInternal state kind item call).logged := by
  cases cb with
  | hget kind key cb =>
    left
    cases reply with
    | error => exact absurd rfl hreply
    | str text =>
      rcases Js.logged_ofExcept_bind (jsonParse text) (onGet state cb) with hnone | ⟨item, -, heq⟩
      · exact hnone
      · exact heq.trans (logged_onGet state cb item)
    | _ => exact logged_onGet state cb .null
  | hgetall kind call =>
    left
    cases reply with
    | error => exact absurd rfl hreply
    | object fields =>
      rcases Js.logged_ofExcept_bind (decodeItems fields) (fun results =>
        answer call (.items (some results))) with hnone | ⟨results, -, heq⟩
      · exact hnone
      · exact heq
    | _ => rfl
  | initExec allData call =>
    left
    show (onInitExec call reply).logged = []
    unfold onInitExec
    rw [if_neg hreply]
    rfl
  | upsertExec kind item call =>
    cases reply with
    | error => exact absurd rfl hreply
    | nil => exact .inr ⟨kind, item, call, rfl, rfl, rfl⟩
    | _ => exact .inl rfl
  | smembersInclude userHash call =>
    left
    show (onIncludedRefs state userHash call reply).logged = []
    unfold onIncludedRefs
    rw [if_neg hreply]
    rfl
  | smembersExclude userHash refs call =>
    left
    show (onExcludedRefs refs call reply).logged = []
    unfold onExcludedRefs
    rw [if_neg hreply]
    rfl
  | _ => cases reply <;> exact .inl rfl

/-- An operation that is to read while the connection is down writes one line, and its answer is the
failure. -/
theorem logged_start_of_down {op : Op} (hop : op.kindRead.isSome) {state : StoreState}
    (hdown : state.down = true) (call : CallId) :
    (∃ line ∈ op.alarms, (op.start state call).logged = [line]) ∧
      ∀ call' a, (call', a) ∈ (op.start state call).answered → a = op.failure := by
  cases op with
  | getInternal kind key =>
    refine ⟨⟨fetchDown key, by simp [Op.alarms], ?_⟩, fun call' a ha => (failure_of_start rfl ha).2⟩
    rw [Op.start, logged_getInternal, if_pos hdown]
  | getAllInternal kind =>
    refine ⟨⟨fetchAllDown, by simp [Op.alarms], ?_⟩, fun call' a ha => (failure_of_start rfl ha).2⟩
    rw [Op.start, logged_getAllInternal, if_pos hdown]
  | upsertInternal kind item =>
    -- It has no answer yet, and goes on to write.
    refine ⟨⟨fetchDown item.key, by simp [Op.alarms], ?_⟩, fun call' a ha =>
      (not_answered_upsertInternal ha).elim⟩
    rw [Op.start, logged_upsertInternal, if_pos hdown]
  | _ => cases hop

/-- No operation with lines answers at its call, unless it is to read while the connection is down. -/
theorem down_of_answered_start {op : Op} (hop : op.alarms ≠ []) {state : StoreState}
    {call call' : CallId} {a : Answer} (ha : (call', a) ∈ (op.start state call).answered) :
    op.kindRead.isSome ∧ state.down = true := by
  cases op with
  | getInternal kind key => exact ⟨rfl, (failure_of_start rfl ha).1⟩
  | getAllInternal kind => exact ⟨rfl, (failure_of_start rfl ha).1⟩
  | initInternal allData =>
    cases hbuild : buildInit state allData with
    | ok multi => exact ((initInternal_does_of_ok hbuild call).not_answer ha).elim
    | error x => exact ((initInternal_does_of_error hbuild call).not_answer ha).elim
  | upsertInternal kind item => exact (not_answered_upsertInternal ha).elim
  | _ => exact absurd rfl hop

/-- An answer on an error is the failure. -/
theorem failure_of_answered_error {cb : Callback} (hcb : Awaited cb) (hop : cb.op.alarms ≠ [])
    {state : StoreState} {call : CallId} {a : Answer}
    (ha : (call, a) ∈ (cb.resume state .error).answered) : a = cb.op.failure := by
  cases hcb with
  | getRead kind key call' => exact failure_of_error (.getRead kind key call') rfl ha
  | upsertRead kind item call' =>
    exact ((onHget_update_does state kind item.key item call' .error).not_answer ha).elim
  | upsertWrite kind item call' =>
    exact (onUpsertExec_does (by simp) state kind item call').eq_answer ha
  | getAll kind call' => exact failure_of_error (.getAll kind call') rfl ha
  | init allData call' => exact (onInitExec_does call' .error).eq_answer ha
  | _ => exact absurd rfl hop

/-- What a callback answers on a reply that is no error: the item, the stored item that keeps an upsert
from writing, the items, the end of an init, or the item that an executed upsert was given. -/
def Callback.Says (reply : Reply) : Callback → Answer → Prop
  | .hget _ _ (.getInternal _), a => ∃ item, replyItem reply = .ok item ∧ a = .item (visible item)
  | .hget _ _ (.update _ newItem _ _), a =>
    ∃ oldItem, replyVerdict reply newItem = .reject oldItem ∧ a = .upserted false oldItem
  | .hgetall _ _, a => ∃ results, replyItems reply = .ok results ∧ a = .items results
  | .initExec _ _, a => a = .done
  | .upsertExec _ newItem _, a => reply ≠ .nil ∧ a = .upserted false newItem.json
  | _, _ => False

/-- Such an answer is what its callback makes of the reply. -/
theorem says_of_answered {cb : Callback} (hcb : Awaited cb) (hop : cb.op.alarms ≠ [])
    {state : StoreState} {reply : Reply} (hreply : reply ≠ .error) {call : CallId} {a : Answer}
    (ha : (call, a) ∈ (cb.resume state reply).answered) : cb.Says reply a := by
  cases hcb with
  | getRead kind key call' => exact answered_onHget ha
  | upsertRead kind item call' =>
    have hdoes := onHget_update_does state kind item.key item call' reply
    cases hverdict : replyVerdict reply item with
    | write =>
      rw [hverdict] at hdoes
      exact (hdoes.not_answer ha).elim
    | reject oldItem =>
      rw [hverdict] at hdoes
      exact ⟨oldItem, hverdict, hdoes.eq_answer ha⟩
    | fail x =>
      rw [hverdict] at hdoes
      exact (hdoes.not_answer ha).elim
  | upsertWrite kind item call' =>
    by_cases hnil : reply = .nil
    · -- After an abort the upsert starts again.
      subst hnil
      have hagain : (call, a) ∈ (upsertInternal state kind item call').answered := ha
      exact (not_answered_upsertInternal hagain).elim
    · refine ⟨hnil, ?_⟩
      have hanswer := (onUpsertExec_does hnil state kind item call').eq_answer ha
      rwa [decide_eq_false hreply] at hanswer
  | getAll kind call' => exact answered_onHgetall ha
  | init allData call' => exact (onInitExec_does call' reply).eq_answer ha
  | _ => exact absurd rfl hop

/-! ## Failures are logged -/

namespace Sys

variable {ι : Type} [DecidableEq ι] {s t u v : Sys ι} {ls : List (Label ι)} {c : ι} {call : CallId}
  {op : Op} {a : Answer}

/-- The code that a step runs in the process of its connection. -/
def code (s : Sys ι) : Label ι → Option (Code Unit)
  | .call c op => some (op.start (s.conn c).state (s.calls c))
  | .deliver c => (s.conn c).outbox.head?.map fun p => p.1.resume (s.conn c).state p.2
  | _ => none

/-- A reply that is no error has come from the server. -/
theorem recorded_of_outbox (h₀ : Fresh s) (h : run s ls = some t) {cb : Callback} {reply : Reply}
    (hmem : (cb, reply) ∈ (t.conn c).outbox) (hreply : reply ≠ .error) :
    ∃ request touched, .executed c request reply touched ∈ t.log ∧ request.callback = some cb := by
  obtain ⟨_, _, _, _, _, w, x, fault, request, rest, -, -, -, -, -, -, hxt, hs, hcb, hr, -⟩ :=
    served_of_outbox h₀ h hmem hreply
  refine ⟨request, (outcome w c request fault).touched, mem_log_of_run hxt ?_, hcb⟩
  rw [hs.log, ← hr]
  exact List.mem_append_right _ (List.mem_singleton.2 rfl)

/-- A step at which a call fails: an operation is to read while the connection is down, or a callback of
the call is given an error. -/
def Fails (s : Sys ι) (c : ι) (call : CallId) (op : Op) : Label ι → Prop
  | .call d op' => d = c ∧ op' = op ∧ s.calls c = call ∧ op.kindRead.isSome ∧
    (s.conn c).state.down = true
  | .deliver d => d = c ∧ ∃ cb rest, (s.conn c).outbox = (cb, .error) :: rest ∧ cb.call = call
  | _ => False

/-- A step that answers by a reply of the server that is no error. -/
def Tells (s : Sys ι) (c : ι) (call : CallId) (a : Answer) : Label ι → Prop
  | .deliver d => d = c ∧ ∃ cb reply rest, (s.conn c).outbox = (cb, reply) :: rest ∧
    cb.call = call ∧ reply ≠ .error ∧ cb.Says reply a ∧
    ∃ request touched, .executed c request reply touched ∈ s.log ∧ request.callback = some cb
  | _ => False

omit [DecidableEq ι] in
/-- The code of a step that runs a callback. -/
theorem code_deliver {cb : Callback} {reply : Reply} {rest : List (Callback × Reply)}
    (hout : (s.conn c).outbox = (cb, reply) :: rest) :
    s.code (.deliver c) = some (cb.resume (s.conn c).state reply) := by
  simp [code, hout]

/-- In every run, whatever the faults, lost connections and overlapping calls, for each call of an
operation that reports its failures: a step at which it fails writes exactly one line in the log, a report
of this operation, and answers nothing but the operation's failure; and each of its answers is given at
such a step, or with no line, and then it is what its callback makes of the reply to a command that the
server has executed. -/
theorem failures_logged (h₀ : Fresh s) (h : run s ls = some t) (hop : op.alarms ≠ [])
    (hcalled : .called c call op ∈ t.log) :
    (∀ ls₁ l ls₂ u, ls = ls₁ ++ l :: ls₂ → run s ls₁ = some u → Fails u c call op l →
      ∃ code, u.code l = some code ∧ (∃ line ∈ op.alarms, code.logged = [line]) ∧
        ∀ a, (call, a) ∈ code.answered → a = op.failure) ∧
    ∀ a, .answered c call a ∈ t.log → ∃ ls₁ l ls₂ u code, ls = ls₁ ++ l :: ls₂ ∧
      run s ls₁ = some u ∧ u.code l = some code ∧ (call, a) ∈ code.answered ∧
      (Fails u c call op l ∨ Tells u c call a l ∧ code.logged = []) := by
  have hrecorded : Called t := called_run h₀ h
  constructor
  · rintro ls₁ l ls₂ u rfl hu hfails
    obtain ⟨u', hu', hrest⟩ := Transition.run_append_eq_some.1 h
    obtain rfl : u = u' := Option.some.inj (hu.symm.trans hu')
    cases l with
    | call d op' =>
      obtain ⟨rfl, rfl, rfl, hread, hdown⟩ := hfails
      obtain ⟨hline, hfailure⟩ := logged_start_of_down hread hdown (u.calls d)
      exact ⟨_, rfl, hline, fun a ha => hfailure _ a ha⟩
    | deliver d =>
      obtain ⟨rfl, cb, rest, hout, rfl⟩ := hfails
      have hmem : (cb, Reply.error) ∈ (u.conn d).outbox := by
        rw [hout]
        exact List.mem_cons_self
      have hcb : Awaited cb := (queued_run h₀ hu d).outbox _ hmem
      obtain rfl : cb.op = op := op_of_callback (called_run h₀ hu) hrecorded hrest
        (Conn.mem_callbacks.2 (.inl ⟨_, hmem⟩)) hcalled
      exact ⟨_, code_deliver hout,
        (logged_error hcb (u.conn d).state).resolve_left fun hnone => hop hnone.2,
        fun a ha => failure_of_answered_error hcb hop ha⟩
    | _ => exact hfails.elim
  · intro a ha
    obtain ⟨ls₁, l, ls₂, u, v, rfl, hu, huv, hvt, hgiven⟩ := step_of_answered h₀ h ha
    rcases hgiven with ⟨op', rfl, rfl, hans⟩ | ⟨cb, reply, rest, rfl, hout, rfl, hans⟩
    · -- The call itself answers.
      have hmade : .called c (u.calls c) op' ∈ v.log := by
        rw [(call_step huv).log]
        simp
      obtain rfl : op' = op := hrecorded.unique c _ _ _ (mem_log_of_run hvt hmade) hcalled
      obtain ⟨hread, hdown⟩ := down_of_answered_start hop hans
      exact ⟨ls₁, _, ls₂, u, _, rfl, hu, rfl, hans, .inl ⟨rfl, rfl, rfl, hread, hdown⟩⟩
    · -- A callback answers, on an error or on a reply of the server.
      have hmem : (cb, reply) ∈ (u.conn c).outbox := by
        rw [hout]
        exact List.mem_cons_self
      have hcb : Awaited cb := (queued_run h₀ hu c).outbox _ hmem
      obtain rfl : cb.op = op := op_of_callback (called_run h₀ hu) hrecorded
        (Transition.run_cons_eq_some.2 ⟨v, huv, hvt⟩) (Conn.mem_callbacks.2 (.inl ⟨reply, hmem⟩))
        hcalled
      refine ⟨ls₁, _, ls₂, u, _, rfl, hu, code_deliver hout, hans, ?_⟩
      by_cases hreply : reply = .error
      · subst hreply
        exact .inl ⟨rfl, cb, rest, hout, rfl⟩
      · refine .inr ⟨⟨rfl, cb, reply, rest, hout, rfl, hreply, says_of_answered hcb hop hreply hans,
          recorded_of_outbox h₀ hu hmem hreply⟩, ?_⟩
        rcases logged_resume hreply (u.conn c).state with
          hnone | ⟨kind, item, call', hupsert, hnil, -⟩
        · exact hnone
        · -- An upsert that starts again does not answer.
          subst hupsert hnil
          exact (not_answered_upsertInternal hans).elim

/-- An upsert whose transaction is answered with an error. -/
def refusedUpsert : List (Label Unit) :=
  [.call () (.upsertInternal .features (.ofVersion "f" 1)), .serve () .none, .serve () .none,
    .deliver (), .serve () .error, .deliver ()]

/-- Its last step writes one line, and the answer is given at a step that fails or tells. -/
theorem failures_logged_refused :
    ∃ (t : Sys Unit) (a : Answer),
      run (opened (fun _ => none) fun _ => connectedState) refusedUpsert = some t ∧
      .answered () 0 a ∈ t.log ∧
      (∃ (u : Sys Unit) (code : Code Unit), Fails u () 0 (.upsertInternal .features (.ofVersion "f" 1))
          (.deliver ()) ∧ u.code (.deliver ()) = some code ∧
        (∃ line ∈ (Op.upsertInternal .features (.ofVersion "f" 1)).alarms, code.logged = [line]) ∧
        ∀ a, (0, a) ∈ code.answered →
          a = (Op.upsertInternal .features (.ofVersion "f" 1)).failure) ∧
      ∃ (l : Label Unit) (u : Sys Unit) (code : Code Unit), u.code l = some code ∧
        (0, a) ∈ code.answered ∧ (Fails u () 0 (.upsertInternal .features (.ofVersion "f" 1)) l ∨
          Tells u () 0 a l ∧ code.logged = []) := by
  -- The state before the last step.
  have hbefore : (run (opened (fun _ => none) fun _ => connectedState) (refusedUpsert.take 5)).map
      (fun u => ((u.conn ()).outbox.map fun p => (p.1.call, p.2), (step u (.deliver ())).map
        fun t => answersTo () 0 t.log)) = some ([(0, .error)], some 1) := by decide +kernel
  obtain ⟨u, hu, hboth⟩ := Option.map_eq_some_iff.1 hbefore
  obtain ⟨houtbox, hanswers⟩ := Prod.mk.inj hboth
  obtain ⟨t, ht, hcount⟩ := Option.map_eq_some_iff.1 hanswers
  have hrun : run (opened (fun _ => none) fun _ => connectedState) refusedUpsert = some t :=
    Transition.run_append_eq_some.2 ⟨u, hu, Transition.run_cons_eq_some.2 ⟨t, ht, rfl⟩⟩
  obtain ⟨a, ha⟩ := exists_answered (hcount ▸ Nat.one_pos : 0 < answersTo () 0 t.log)
  have hcalled : .called () 0 (.upsertInternal .features (.ofVersion "f" 1)) ∈ t.log := by
    obtain ⟨v, hv, hrest⟩ := Transition.run_cons_eq_some.1 hrun
    exact mem_log_of_run hrest (by rw [(call_step hv).log]; simp [opened])
  obtain ⟨⟨cb, reply⟩, hcb, hpair⟩ := List.map_eq_singleton_iff.1 houtbox
  obtain ⟨hcall, rfl⟩ := Prod.mk.inj hpair
  have hfails : Fails u () 0 (.upsertInternal .features (.ofVersion "f" 1)) (.deliver ()) :=
    ⟨rfl, cb, [], hcb, hcall⟩
  obtain ⟨hfailing, hanswered⟩ := failures_logged (opened_fresh _ _) hrun (by decide) hcalled
  obtain ⟨code, hcode, hlogged⟩ := hfailing _ _ [] u rfl hu hfails
  obtain ⟨_, l, _, v, code', -, -, hcode', hans, hgiven⟩ := hanswered a ha
  exact ⟨t, a, hrun, ha, ⟨u, code, hfails, hcode, hlogged⟩, l, v, code', hcode', hans, hgiven⟩

/-! ## Lines have causes -/

/-- While the call is in progress, its connection gets an error or is lost, or the key of the kind that it
reads holds no hash. -/
def Disturbed (s : Sys ι) (ls : List (Label ι)) (c : ι) (call : CallId) (op : Op) : Prop :=
  ∃ ls₁ l ls₂ u, ls = ls₁ ++ l :: ls₂ ∧ run s ls₁ = some u ∧ InProgress u c call ∧
    (¬ Faultless c l ∨
      ∃ kind, op.kindRead = some kind ∧ ¬ Hashlike (u.db (itemsKey (u.conn c).state kind)))

omit [DecidableEq ι] in
/-- The server itself answers a command of such an operation with an error only where the key of its kind
holds no hash. -/
theorem not_hashlike_of_error {state : StoreState} {r : Request} (hr : Issued state r) {cb : Callback}
    (hcb : r.callback = some cb) (hop : cb.op.alarms ≠ []) {db : Db} {session : Session} {fault : Fault}
    (hfault : fault = .none ∨ fault ≠ .error ∧ ∃ queue, r.cmd = .exec queue)
    (herror : (r.cmd.serve db session fault).reply = .error) :
    ∃ kind, cb.op.kindRead = some kind ∧ ¬ Hashlike (db (itemsKey state kind)) := by
  have hhget : ∀ kind key, (Command.hget (itemsKey state kind) key).read db = .error →
      ¬ Hashlike (db (itemsKey state kind)) := by
    intro kind key hread hlike
    rw [read_hget hlike] at hread
    cases hfield : fieldOf (db (itemsKey state kind)) key <;> rw [hfield] at hread <;> cases hread
  -- A transaction is aborted or executed.
  have hexec : ∀ queue, r.cmd ≠ .exec queue := by
    intro queue hcmd
    have hne : fault ≠ .error := by
      rcases hfault with rfl | ⟨hne, -⟩
      · exact Fault.noConfusion
      · exact hne
    rw [hcmd] at herror
    cases hdirty : session.dirty with
    | true => simp [Command.serve_exec_of_dirty queue db hdirty hne] at herror
    | false => simp [Command.serve_exec_of_clean queue db hdirty hne] at herror
  obtain rfl : fault = .none := hfault.resolve_right fun hdenied => by
    obtain ⟨queue, hcmd⟩ := hdenied.2
    exact hexec queue hcmd
  cases hr with
  | watch kind => cases hcb
  | getRead kind key call =>
    obtain rfl := Option.some.inj hcb
    exact ⟨kind, rfl, hhget kind key herror⟩
  | upsertRead kind item call =>
    obtain rfl := Option.some.inj hcb
    exact ⟨kind, rfl, hhget kind item.key herror⟩
  | upsertWrite kind item call => exact absurd rfl (hexec _)
  | getAll kind call =>
    obtain rfl := Option.some.inj hcb
    refine ⟨kind, rfl, fun hlike => ?_⟩
    have hread : (Command.hgetall (itemsKey state kind)).read db = .error := herror
    unfold Command.read at hread
    dsimp only at hread
    generalize db (itemsKey state kind) = value at hread hlike
    rcases value with _ | (_ | _ | _ | _) <;> first | exact hlike | cases hread
  | init allData call multi hbuild => exact absurd rfl (hexec _)
  | _ =>
    obtain rfl := Option.some.inj hcb
    exact absurd rfl hop

/-- In every run, a line that the code of a connection's operations writes, other than the one about a
retry, is a report of a call on that connection; and the connection is down when the line is written, or
the call was disturbed. -/
theorem alarms_warranted (h₀ : Fresh s) (h : run s ls = some u) {l : Label ι} (huv : step u l = some v)
    (hl : l.conn? = some c) {code : Code Unit} (hcode : u.code l = some code) {line : LogLine}
    (hline : line ∈ code.logged) (halarm : line ≠ retrying) :
    ∃ call op, .called c call op ∈ v.log ∧ line ∈ op.alarms ∧
      ((u.conn c).state.down = true ∨ Disturbed s ls c call op) := by
  cases l with
  | call d op =>
    obtain rfl := Option.some.inj hl
    obtain rfl := Option.some.inj hcode
    obtain ⟨hdown, hown⟩ := logged_start hline
    refine ⟨u.calls d, op, ?_, hown, .inl hdown⟩
    rw [(call_step huv).log]
    simp
  | deliver d =>
    obtain rfl := Option.some.inj hl
    obtain ⟨⟨cb, reply⟩, hhead, rfl⟩ := Option.map_eq_some_iff.1 hcode
    have hmem : (cb, reply) ∈ (u.conn d).outbox := List.mem_of_head? hhead
    have hcb : Awaited cb := (queued_run h₀ h d).outbox _ hmem
    have hcalled : .called d cb.call cb.op ∈ v.log :=
      mem_log_of_step huv ((called_run h₀ h).pending d cb (Conn.mem_callbacks.2 (.inl ⟨reply, hmem⟩)))
    refine ⟨cb.call, cb.op, hcalled, ?_⟩
    by_cases hreply : reply = .error
    · subst hreply
      have hline' : line ∈ (cb.resume (u.conn d).state .error).logged := hline
      rcases logged_error hcb (u.conn d).state with ⟨hnone, -⟩ | ⟨own, hown, hone⟩
      · rw [hnone] at hline'
        cases hline'
      · rw [hone, List.mem_singleton] at hline'
        subst hline'
        refine ⟨hown, .inr ?_⟩
        obtain ⟨ls₁, l, ls₂, w, hls, hw, hprogress,
            ⟨-, hfault⟩ | ⟨fault, request, hissued, hrequest, hserved, hnone⟩⟩ :=
          origin_of_outbox h₀ h hmem
        · exact ⟨ls₁, l, ls₂, w, hls, hw, hprogress, .inl hfault⟩
        · exact ⟨ls₁, l, ls₂, w, hls, hw, hprogress,
            .inr (not_hashlike_of_error hissued hrequest (List.ne_nil_of_mem hown) hnone hserved)⟩
    · have hline' : line ∈ (cb.resume (u.conn d).state reply).logged := hline
      rcases logged_resume hreply (u.conn d).state with hnone | ⟨kind, item, call, hupsert, -, hagain⟩
      · rw [hnone] at hline'
        cases hline'
      · -- An upsert that starts again may find the connection down.
        subst hupsert
        rw [hagain] at hline'
        have hstarted : line ∈ ((Op.upsertInternal kind item).start (u.conn d).state call).logged :=
          (List.mem_cons.1 hline').resolve_left halarm
        obtain ⟨hdown, hown⟩ := logged_start hstarted
        exact ⟨hown, .inl hdown⟩
  | _ => cases hcode

/-- A read of all features where another program has stored a text under the key of the features. -/
def readOfText : List (Label Unit) :=
  [.foreign [(itemsKey connectedState .features, some (.string "text"))],
    .call () (.getAllInternal .features), .serve () .none]

/-- The callback of the read writes a line, and the key held no hash. -/
theorem alarms_warranted_text :
    ∃ (u v : Sys Unit) (code : Code Unit),
      run (opened (fun _ => none) fun _ => connectedState) readOfText = some u ∧
      step u (.deliver ()) = some v ∧ u.code (.deliver ()) = some code ∧
      fetchAllFailed .features ∈ code.logged ∧ ∃ call op, .called () call op ∈ v.log ∧
        fetchAllFailed .features ∈ op.alarms ∧ ((u.conn ()).state.down = true ∨
          Disturbed (opened (fun _ => none) fun _ => connectedState) readOfText () call op) := by
  have hend : (run (opened (fun _ => none) fun _ => connectedState) readOfText).map (fun u =>
      ((u.code (.deliver ())).map Js.logged, (step u (.deliver ())).isSome)) =
      some (some [fetchAllFailed .features], true) := by decide +kernel
  obtain ⟨u, hu, hboth⟩ := Option.map_eq_some_iff.1 hend
  obtain ⟨hlogged, hstep⟩ := Prod.mk.inj hboth
  obtain ⟨code, hcode, hlines⟩ := Option.map_eq_some_iff.1 hlogged
  obtain ⟨v, hv⟩ := Option.isSome_iff_exists.1 hstep
  have hline : fetchAllFailed .features ∈ code.logged := by simp [hlines]
  exact ⟨u, v, code, hu, hv, hcode, hline,
    alarms_warranted (opened_fresh _ _) hu hv rfl hcode hline (by decide)⟩

end Sys

end RedisStore
