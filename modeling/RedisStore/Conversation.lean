import RedisStore.Semantics.Transition
import RedisStore.Queue
import RedisStore.Init

/-!
# The conversation of one call

A call of the feature store with any sequence of replies to its commands, each in any state of the
connection. At most one command with a callback waits at a time, and its callback asks again, answers
the call, or throws (`Turn`). So the call is answered once and no exception escapes exactly if no
reply makes a callback throw (`answeredOnce_iff`). A callback throws on a hash value that is no JSON
text, and the callback of an upsert's read also on a version that has no number.
-/

namespace RedisStore

open Redis

/-- What has happened for a call: the commands that wait for their replies, the answers, and the
exceptions that have escaped. -/
structure Talk where
  waiting : List Request
  answers : List (CallId × Answer)
  thrown : List Exn

namespace Talk

/-- A run of the stores' code. -/
def react (t : Talk) (code : Code Unit) : Talk :=
  ⟨t.waiting ++ code.issued, t.answers ++ code.answered, t.thrown ++ code.thrown⟩

/-- The call of an operation. -/
def ask (state : StoreState) (call : CallId) (op : Op) : Talk :=
  react ⟨[], [], []⟩ (op.start state call)

/-- A reply to the first command that waits, of the command's type, in a state of the connection. The
command's callback is called once. -/
def hear (t : Talk) (r : StoreState × Reply) : Option Talk :=
  match t.waiting with
  | [] => none
  | request :: rest =>
    if request.cmd.mayReply r.2 then
      match request.callback with
      | some cb => some (react { t with waiting := rest } (cb.resume r.1 r.2))
      | none => some { t with waiting := rest }
    else none

/-- The call is never answered twice; and once no command waits, it has been answered and no
exception has escaped. -/
def AnsweredOnce (t : Talk) : Prop :=
  t.answers.length ≤ 1 ∧ (t.waiting = [] → t.answers.length = 1 ∧ t.thrown = [])

instance (t : Talk) : Decidable t.AnsweredOnce := inferInstanceAs (Decidable (_ ∧ _))

end Talk

/-! ## What the callbacks can read -/

/-- A text that `JSON.parse` accepts. -/
def isJson (s : String) : Bool := (Json.parse s).isSome

/-- A text whose value an upsert can compare versions with: it is not true, or its `version` can be
converted to a number. -/
def isComparable (s : String) : Bool :=
  match Json.parse s with
  | some j => !j.truthy || (j.prop "version").all Json.hasText
  | none => false

/-- The texts in a reply are ones that the callbacks of the operation can read. -/
def Op.canRead : Op → Reply → Bool
  | .getInternal _ _, .str s => isJson s
  | .getAllInternal _, .object fields => fields.entries.all fun e => isJson e.2
  | .upsertInternal _ _, .str s => isComparable s
  | _, _ => true

theorem isOk_jsonParse (s : String) : (jsonParse s).isOk = isJson s := by
  unfold jsonParse isJson
  cases Json.parse s <;> rfl

/-- The callback of `getInternal` throws where it cannot read. -/
theorem canRead_getInternal (kind : Kind) (key : String) (reply : Reply) :
    (Op.getInternal kind key).canRead reply = (replyItem reply).isOk := by
  cases reply with
  | str s => exact (isOk_jsonParse s).symm
  | _ => rfl

/-- The callback of `getAllInternal` throws where it cannot read. -/
theorem canRead_getAllInternal (kind : Kind) (reply : Reply) :
    (Op.getAllInternal kind).canRead reply = (replyItems reply).isOk := by
  -- The loop throws where one of its conversions does.
  have hisOk : ∀ {α : Type} (e : Except Exn α), e.isOk = true ↔ ∃ a, e = .ok a := by
    intro α e
    cases e <;> simp [Except.isOk, Except.toBool]
  cases reply with
  | object fields =>
    have hmap : (replyItems (.object fields)).isOk = (decodeItems fields).isOk := by
      rw [replyItems]
      cases decodeItems fields <;> rfl
    rw [hmap, Bool.eq_iff_iff, hisOk, decodeItems, PlainObject.assignAll_isOk, Op.canRead,
      List.all_eq_true]
    exact forall₂_congr fun e _ => by rw [← hisOk, isOk_jsonParse]
  | _ => rfl

/-- The callback of an upsert's read throws where it cannot compare versions. -/
theorem canRead_upsertInternal (kind : Kind) (item : Item) (reply : Reply) :
    (Op.upsertInternal kind item).canRead reply =
      match replyVerdict reply item with
      | .fail _ => false
      | _ => true := by
  cases reply with
  | str s =>
    simp only [Op.canRead, isComparable, replyVerdict, replyItem, jsonParse]
    cases Json.parse s with
    | none => rfl
    | some j =>
      cases ht : j.truthy with
      | false => simp [Json.verdict, ht]
      | true =>
        -- The check compares the versions, and throws where the stored one has no number.
        have hge := Json.geNumber_isOk (j.prop "version") (.ofInt item.version)
        have hall : (j.prop "version").all Json.hasText = true ↔
            ∃ r, Json.geNumber (j.prop "version") (.ofInt item.version) = .ok r := by
          rw [hge, Option.all_eq_true]
          rfl
        simp only [Json.verdict, ht, if_true, Bool.not_true, Bool.false_or]
        rcases hv : Json.geNumber (j.prop "version") (.ofInt item.version) with x | (_ | _)
        · rw [hv] at hall
          simpa using mt hall.1 (by simp)
        · exact hall.2 ⟨_, hv⟩
        · exact hall.2 ⟨_, hv⟩
  | _ => rfl

/-! ## Turns -/

/-- The operations of the feature store; an init is given items that JSON can express, of known
kinds. -/
def Op.Covered : Op → Prop
  | .initInternal allData => ∀ e ∈ allData.entries, (∃ kind : Kind, e.1 = kind.namespaceName) ∧
      ∀ item ∈ e.2.entries, ∃ j, item.2 = .json j
  | .getMetadata => False
  | .getUserMembership _ => False
  | _ => True

/-- Any number of `WATCH`es, and a request with a callback for the operation. -/
structure Asking (op : Op) (requests : List Request) where
  watches : List Request
  last : Request
  callback : Callback
  state : StoreState
  eq : requests = watches ++ [last]
  watch : ∀ w ∈ watches, ∃ key, w = ⟨.watch key, none⟩
  last_callback : last.callback = some callback
  op_eq : callback.op = op
  issued : Issued state last

/-- What a run of code does for a call: it asks, or it answers the call, or it throws. -/
inductive Turn (op : Op) (call : CallId) (code : Code Unit) : Bool → Prop
  | asks (requests : List Request) (h : code.Does requests [] [])
    (hasking : Nonempty (Asking op requests)) : Turn op call code true
  | answers (a : Answer) (h : code.Does [] [(call, a)] []) : Turn op call code true
  | throws (x : Exn) (h : code.Does [] [] [x]) : Turn op call code false

/-- A single request asks. -/
theorem asking_singleton {op : Op} {state : StoreState} {r : Request} {cb : Callback}
    (hr : Issued state r) (hcb : r.callback = some cb) (hop : cb.op = op) :
    Nonempty (Asking op [r]) :=
  ⟨⟨[], r, cb, state, rfl, by simp, hcb, hop, hr⟩⟩

/-- So does a request after a `WATCH`. -/
theorem asking_watch {op : Op} {state : StoreState} {r : Request} {cb : Callback} (kind : Kind)
    (hr : Issued state r) (hcb : r.callback = some cb) (hop : cb.op = op) :
    Nonempty (Asking op [⟨.watch (itemsKey state kind), none⟩, r]) :=
  ⟨⟨[⟨.watch (itemsKey state kind), none⟩], r, cb, state, rfl, by simp, hcb, hop, hr⟩⟩

/-- An upsert asks first, at its call and at each retry. -/
theorem upsertInternal_turn (state : StoreState) (kind : Kind) (item : Item) (call : CallId) :
    Turn (.upsertInternal kind item) call (upsertInternal state kind item call) true := by
  cases h : state.down with
  | false =>
    exact .asks _ (upsertInternal_does_of_up h kind item call)
      (asking_watch kind (.upsertRead kind item call) rfl rfl)
  | true =>
    exact .asks _ (upsertInternal_does_of_down h kind item call)
      (asking_watch kind (.upsertWrite kind item call) rfl rfl)

/-- An operation starts with a question or an answer. -/
theorem start_turn {op : Op} (hop : op.Covered) (state : StoreState) (call : CallId) :
    Turn op call (op.start state call) true := by
  cases op with
  | getInternal kind key =>
    cases h : state.down with
    | false =>
      exact .asks _ (getInternal_does_of_up h kind key call)
        (asking_singleton (.getRead kind key call) rfl rfl)
    | true => exact .answers _ (getInternal_does_of_down h kind key call)
  | getAllInternal kind =>
    cases h : state.down with
    | false =>
      exact .asks _ (getAllInternal_does_of_up h kind call)
        (asking_singleton (.getAll kind call) rfl rfl)
    | true => exact .answers _ (getAllInternal_does_of_down h kind call)
  | initInternal allData =>
    obtain ⟨multi, hb⟩ : ∃ multi, buildInit state allData = .ok multi := by
      rw [buildInit_isOk]
      intro e he
      obtain ⟨⟨kind, hkind⟩, hitems⟩ := hop e he
      refine ⟨⟨kind.namespaceName, by rw [hkind]; exact dataKindNamespace_namespaceName kind⟩, ?_⟩
      rw [stringifyItems, PlainObject.assignAll_isOk]
      intro item hitem
      obtain ⟨j, hj⟩ := hitems item hitem
      exact ⟨j.stringify, by rw [hj]; rfl⟩
    exact .asks _ (initInternal_does_of_ok hb call)
      (asking_singleton (.init allData call multi hb) rfl rfl)
  | upsertInternal kind item => exact upsertInternal_turn state kind item call
  | initializedInternal =>
    exact .asks _ (initializedInternal_does state call) (asking_singleton (.inited call) rfl rfl)
  | getMetadata => exact absurd hop id
  | getUserMembership userHash => exact absurd hop id

/-- A callback takes its turn, and throws exactly if it cannot read the reply. -/
theorem resume_turn {state' : StoreState} {r : Request} (hr : Issued state' r) {cb : Callback}
    (hcb : r.callback = some cb) (hop : cb.op.Covered) (state : StoreState) {reply : Reply}
    (hreply : r.cmd.mayReply reply = true) :
    Turn cb.op cb.call (cb.resume state reply) (cb.op.canRead reply) := by
  cases hr with
  | watch kind => cases hcb
  | getRead kind key call =>
    obtain rfl := Option.some.inj hcb
    have h := onHget_getInternal_does state kind key call reply
    rw [Callback.op, canRead_getInternal]
    cases hitem : replyItem reply with
    | ok item => exact .answers _ (by rw [hitem] at h; exact h)
    | error x => exact .throws x (by rw [hitem] at h; exact h)
  | upsertRead kind item call =>
    obtain rfl := Option.some.inj hcb
    have h := onHget_update_does state kind item.key item call reply
    rw [Callback.op, canRead_upsertInternal]
    cases hv : replyVerdict reply item with
    | write =>
      exact .asks _ (by rw [hv] at h; exact h)
        (asking_singleton (.upsertWrite kind item call) rfl rfl)
    | reject oldItem => exact .answers _ (by rw [hv] at h; exact h)
    | fail x => exact .throws x (by rw [hv] at h; exact h)
  | upsertWrite kind item call =>
    obtain rfl := Option.some.inj hcb
    -- The replies to `EXEC` have no text.
    have htrue : (Op.upsertInternal kind item).canRead reply = true := by
      cases reply <;> first | rfl | cases hreply
    rw [Callback.op, htrue]
    by_cases hnil : reply = .nil
    · subst hnil
      cases upsertInternal_turn state kind item call with
      | asks requests h hasking => exact .asks requests (onUpsertExec_does_of_nil h) hasking
      | answers a h => exact .answers a (onUpsertExec_does_of_nil h)
    · exact .answers _ (onUpsertExec_does hnil state kind item call)
  | getAll kind call =>
    obtain rfl := Option.some.inj hcb
    have h := onHgetall_does kind call reply
    rw [Callback.op, canRead_getAllInternal]
    cases hitems : replyItems reply with
    | ok results => exact .answers _ (by rw [hitems] at h; exact h)
    | error x => exact .throws x (by rw [hitems] at h; exact h)
  | init allData call multi hb =>
    obtain rfl := Option.some.inj hcb
    exact .answers _ (onInitExec_does call reply)
  | inited call =>
    obtain rfl := Option.some.inj hcb
    exact .answers _ (onInitedExists_does call reply)
  | metadata call =>
    obtain rfl := Option.some.inj hcb
    exact absurd hop id
  | includes userHash call =>
    obtain rfl := Option.some.inj hcb
    exact absurd hop id
  | excludes userHash refs call =>
    obtain rfl := Option.some.inj hcb
    exact absurd hop id

/-! ## Whole conversations -/

namespace Talk

/-- Where a conversation stands, and whether every reply so far could be read. -/
inductive Stage (op : Op) (t : Talk) : Bool → Prop
  | asking (hwaiting : Nonempty (Asking op t.waiting)) (hanswers : t.answers = [])
    (hthrown : t.thrown = []) : Stage op t true
  | answered (a : CallId × Answer) (hwaiting : t.waiting = []) (hanswers : t.answers = [a])
    (hthrown : t.thrown = []) : Stage op t true
  | threw (x : Exn) (hwaiting : t.waiting = []) (hanswers : t.answers = []) (hthrown : t.thrown = [x]) :
    Stage op t false

/-- A turn of the code when nothing waits and nothing has happened. -/
theorem stage_react {op : Op} {call : CallId} {code : Code Unit} {ok : Bool}
    (h : Turn op call code ok) : Stage op (react ⟨[], [], []⟩ code) ok := by
  cases h with
  | asks requests h hasking =>
    exact .asking (by rw [react, h.issued]; exact hasking) h.answered h.thrown
  | answers a h => exact .answered (call, a) h.issued h.answered h.thrown
  | throws x h => exact .threw x h.issued h.answered h.thrown

/-- A reply takes the conversation from one stage to the next. -/
theorem stage_hear {op : Op} (hop : op.Covered) {t t' : Talk} {r : StoreState × Reply} {ok : Bool}
    (hs : Stage op t ok) (h : hear t r = some t') : Stage op t' (op.canRead r.2) := by
  -- A reply is for a command that waits.
  have hnil : t.waiting ≠ [] := by
    intro hnil
    simp [hear, hnil] at h
  cases hs with
  | answered a hwaiting => exact absurd hwaiting hnil
  | threw x hwaiting => exact absurd hwaiting hnil
  | asking hwaiting hanswers hthrown =>
    obtain ⟨waiting, answers, thrown⟩ := t
    obtain ⟨watches, last, cb, state, heq, hwatches, hlast, rfl, hissued⟩ := hwaiting
    obtain rfl : waiting = watches ++ [last] := heq
    obtain rfl : answers = [] := hanswers
    obtain rfl : thrown = [] := hthrown
    -- The reply is that of a `WATCH`, which has no callback, or of the last command.
    cases watches with
    | nil =>
      simp only [hear, List.nil_append, hlast] at h
      split_ifs at h with hreply
      obtain rfl := Option.some.inj h
      exact stage_react (resume_turn hissued hlast hop r.1 hreply)
    | cons w ws =>
      obtain ⟨key, rfl⟩ := hwatches w List.mem_cons_self
      simp only [hear, List.cons_append] at h
      split_ifs at h with hreply
      obtain rfl := Option.some.inj h
      -- The replies to `WATCH` have no text.
      have htrue : cb.op.canRead r.2 = true := by
        obtain ⟨state', reply⟩ := r
        cases reply <;> first | (cases hreply; done) | (cases cb.op <;> rfl)
      rw [htrue]
      exact .asking ⟨⟨ws, last, cb, state, rfl, fun w hw => hwatches w (List.mem_cons_of_mem _ hw),
        hlast, rfl, hissued⟩⟩ rfl rfl

/-- A conversation goes on while every reply can be read. -/
theorem stage_run {op : Op} (hop : op.Covered) {t t' : Talk} (hs : Stage op t true)
    {replies : List (StoreState × Reply)} (h : Transition.run hear t replies = some t') :
    Stage op t' (replies.all fun r => op.canRead r.2) := by
  induction replies generalizing t with
  | nil =>
    obtain rfl : t = t' := by simpa using h
    exact hs
  | cons r replies ih =>
    obtain ⟨u, hu, hrest⟩ := Transition.run_cons_eq_some.1 h
    have hstage := stage_hear hop hs hu
    rw [List.all_cons]
    cases hread : op.canRead r.2 with
    | true =>
      rw [hread] at hstage
      exact ih hstage hrest
    | false =>
      rw [hread] at hstage
      cases hstage with
      | threw x hwaiting hanswers hthrown =>
        -- Nothing waits for a further reply.
        cases replies with
        | nil =>
          obtain rfl : u = t' := by simpa using hrest
          exact .threw x hwaiting hanswers hthrown
        | cons r' replies =>
          obtain ⟨v, hv, -⟩ := Transition.run_cons_eq_some.1 hrest
          simp [hear, hwaiting] at hv

/-- A call is answered once at every stage but the one after an exception. -/
theorem answeredOnce_of_stage {op : Op} {t : Talk} {ok : Bool} (h : Stage op t ok) :
    t.AnsweredOnce ↔ ok = true := by
  unfold AnsweredOnce
  cases h with
  | asking hwaiting hanswers hthrown =>
    obtain ⟨watches, last, -, -, heq, -⟩ := hwaiting
    simp [hanswers, heq]
  | answered a hwaiting hanswers hthrown => simp [hwaiting, hanswers, hthrown]
  | threw x hwaiting hanswers hthrown => simp [hwaiting, hanswers]

/-- For every call of the feature store's operations, in every state of the connection, and every
sequence of replies to its commands: the call is answered exactly once, with no exception, exactly if
the hash values in the replies can be read. -/
theorem answeredOnce_iff {op : Op} (hop : op.Covered) (state : StoreState) (call : CallId)
    {replies : List (StoreState × Reply)} {t : Talk}
    (h : Transition.run hear (ask state call op) replies = some t) :
    t.AnsweredOnce ↔ ∀ r ∈ replies, op.canRead r.2 = true := by
  rw [answeredOnce_of_stage (stage_run hop (stage_react (start_turn hop state call)) h),
    List.all_eq_true]

/-- An upsert that is retried once. -/
theorem answeredOnce_iff_retried :
    ∃ t, Transition.run hear (ask connectedState 0 (.upsertInternal .features (.ofVersion "f" 1)))
        [(connectedState, .ok), (connectedState, .nil), (connectedState, .nil), (connectedState, .ok),
          (connectedState, .error), (connectedState, .replies [.int 1])] = some t ∧
      t.AnsweredOnce := by
  have hsome : (Transition.run hear
      (ask connectedState 0 (.upsertInternal .features (.ofVersion "f" 1)))
      [(connectedState, .ok), (connectedState, .nil), (connectedState, .nil), (connectedState, .ok),
        (connectedState, .error), (connectedState, .replies [.int 1])]).isSome := by decide +kernel
  obtain ⟨t, ht⟩ := Option.isSome_iff_exists.1 hsome
  exact ⟨t, ht, (@answeredOnce_iff (.upsertInternal .features (.ofVersion "f" 1)) trivial
    connectedState 0 _ t ht).2 (by simp [Op.canRead])⟩

/-- A hash value that another program wrote, and that is no JSON text: the read is never answered. -/
theorem get_unanswered :
    ∃ t, Transition.run hear (ask connectedState 0 (.getInternal .features "f"))
        [(connectedState, .str "not json")] = some t ∧
      t.waiting.length = 0 ∧ t.answers.length = 0 ∧ t.thrown = [.syntaxError] ∧
      ¬ t.AnsweredOnce := by
  have hend : ((Transition.run hear (ask connectedState 0 (.getInternal .features "f"))
      [(connectedState, .str "not json")]).map fun t =>
        (t.waiting.length, t.answers.length, t.thrown, decide t.AnsweredOnce)) =
          some (0, 0, [.syntaxError], false) := by decide +kernel
  obtain ⟨t, ht, hparts⟩ := Option.map_eq_some_iff.1 hend
  obtain ⟨hwaiting, hanswers, hthrown, honce⟩ : t.waiting.length = 0 ∧ t.answers.length = 0 ∧
      t.thrown = [.syntaxError] ∧ decide t.AnsweredOnce = false := by simpa using hparts
  exact ⟨t, ht, hwaiting, hanswers, hthrown, of_decide_eq_false honce⟩

end Talk

end RedisStore
