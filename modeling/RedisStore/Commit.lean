import RedisStore.Queue

/-!
# Commits

The stores change the database only by the transactions of upserts and inits, when the server
executes them with the flag of their connection clear. `change_of_step` says for each step of the
stores which of the three it is: no change, the commit of an upsert, or the commit of an init.
-/

namespace RedisStore

open Redis

/-- Only a transaction is answered with the replies of its commands. -/
theorem Redis.Command.execute_reply_ne_replies {cmd : Command} (h : ∀ queue, cmd ≠ .exec queue)
    (db : Db) (session : Session) (rs : List WriteReply) :
    (cmd.execute db session).reply ≠ .replies rs := by
  intro hr
  cases cmd with
  | get key => simp only [execute, read] at hr; split at hr <;> cases hr
  | smembers key => simp only [execute, read] at hr; split at hr <;> cases hr
  | existsKey key => cases hr
  | hget key field =>
    simp only [execute, read] at hr
    split at hr
    · cases hr
    · split at hr <;> cases hr
    · cases hr
  | hgetall key => simp only [execute, read] at hr; split at hr <;> cases hr
  | watch key => cases hr
  | exec queue => exact h queue rfl

/-- The connection and the upsert whose transaction an event executes, if it does. -/
def Event.upsertCommit {ι : Type} : Event ι → Option (ι × Kind × Item)
  | .executed c ⟨.exec _, some (.upsertExec kind item _)⟩ (.replies _) _ => some (c, kind, item)
  | _ => none

namespace Sys

variable {ι : Type}

/-- The step from `s` to `t` executes the transaction of an upsert. -/
def UpsertCommits (s t : Sys ι) (c : ι) (kind : Kind) (item : Item) : Prop :=
  ∃ queue call rs touched, t.log = s.log ++
    [.executed c ⟨.exec queue, some (.upsertExec kind item call)⟩ (.replies rs) touched]

/-- The step from `s` to `t` executes the transaction of an init. -/
def InitCommits (s t : Sys ι) (c : ι) (allData : AllData) : Prop :=
  ∃ queue call rs touched, t.log = s.log ++
    [.executed c ⟨.exec queue, some (.initExec allData call)⟩ (.replies rs) touched]

/-- The step from `s` to `t` executes no transaction. -/
def NoCommit (s t : Sys ι) : Prop :=
  ∀ c request rs touched, t.log ≠ s.log ++ [.executed c request (.replies rs) touched]

/-- What a step of the stores does to the database. The server may refuse single writes of a
transaction that it executes. -/
inductive Change (s t : Sys ι) (l : Label ι) : Prop where
  | none (hno : NoCommit s t) (hdb : t.db = s.db)
  | upsert (c : ι) (fault : Fault) (kind : Kind) (item : Item) (call : CallId) (rest : List Request)
    (hl : l = .serve c fault) (hfault : fault ≠ .error)
    (hin : (s.conn c).inbox = writeRequest (s.conn c).state kind item call :: rest)
    (hclean : (s.conn c).session.dirty = false)
    (hdb : t.db = (runAllowed fault.refused
      [.hset (itemsKey (s.conn c).state kind) item.key item.text] s.db).db)
    (hlog : t.log = s.log ++ [.executed c (writeRequest (s.conn c).state kind item call)
      (.replies (runAllowed fault.refused
        [.hset (itemsKey (s.conn c).state kind) item.key item.text] s.db).replies)
      (runAllowed fault.refused
        [.hset (itemsKey (s.conn c).state kind) item.key item.text] s.db).touched])
  | init (c : ι) (fault : Fault) (allData : AllData) (call : CallId) (multi : Multi)
    (rest : List Request) (hl : l = .serve c fault) (hfault : fault ≠ .error)
    (hin : (s.conn c).inbox = ⟨.exec multi, some (.initExec allData call)⟩ :: rest)
    (hclean : (s.conn c).session.dirty = false)
    (hbuild : buildInit (s.conn c).state allData = .ok multi)
    (hdb : t.db = (runAllowed fault.refused multi s.db).db)
    (hlog : t.log = s.log ++ [.executed c ⟨.exec multi, some (.initExec allData call)⟩
      (.replies (runAllowed fault.refused multi s.db).replies)
      (runAllowed fault.refused multi s.db).touched])

variable [DecidableEq ι] {s t : Sys ι} {l : Label ι}

/-- Each step of the stores makes one of the three changes. -/
theorem change_of_step (hq : ∀ c, (s.conn c).Queued) (h : step s l = some t)
    (hl : ∀ values, l ≠ .foreign values) : Change s t l := by
  -- Only the server executes transactions.
  have hserve : (∀ c fault, l ≠ .serve c fault) → NoCommit s t := by
    intro hno c request rs touched hlog
    obtain ⟨rest, fault, rfl, -⟩ := serve_of_executed h hlog
    exact hno c fault rfl
  cases l with
  | call c op => exact .none (hserve (by simp)) (call_step h).db
  | deliver c =>
    obtain ⟨cb, reply, rest, hs⟩ := deliver_step h
    exact .none (hserve (by simp)) hs.db
  | lose c kept => exact .none (hserve (by simp)) (lose_step h).db
  | regain c => exact .none (hserve (by simp)) (regain_step h).db
  | foreign values => exact absurd rfl (hl values)
  | serve c fault =>
    obtain ⟨request, rest, hs⟩ := serve_step h
    -- A command whose reply is not that of an executed transaction is no commit.
    have hreply : (∀ rs, (outcome s c request fault).reply ≠ .replies rs) → NoCommit s t := by
      intro hno c' request' rs touched hlog
      rw [hs.log, List.append_cancel_left_eq] at hlog
      obtain ⟨-, -, hr, -⟩ := Event.executed.inj (List.cons.inj hlog).1
      exact hno rs hr
    have hissued := (hq c).inbox request (by rw [hs.inbox]; simp)
    -- Any other command changes nothing.
    have hread : (∀ queue, request.cmd ≠ .exec queue) → Change s t (.serve c fault) := by
      intro hne
      refine .none (hreply fun rs => ?_) ?_
      · by_cases hfault : fault = .none
        · subst hfault
          exact Command.execute_reply_ne_replies hne s.db _ rs
        · rw [outcome, Command.serve_reply hne s.db _ hfault]
          exact Reply.noConfusion
      · rw [hs.db, outcome, (Command.serve_db hne s.db _ fault).1]
    -- A transaction is executed only with the flag clear, and if it is not refused as a whole.
    have hexec : ∀ queue cb, request = ⟨.exec queue, cb⟩ →
        (fault ≠ .error → (s.conn c).session.dirty = false →
          outcome s c ⟨.exec queue, cb⟩ fault = ⟨(runAllowed fault.refused queue s.db).db, .clear,
            .replies (runAllowed fault.refused queue s.db).replies,
            (runAllowed fault.refused queue s.db).touched⟩ → Change s t (.serve c fault)) →
        Change s t (.serve c fault) := by
      rintro queue cb rfl hcommit
      by_cases hfault : fault = .error
      · subst hfault
        exact .none (hreply fun rs => Reply.noConfusion) hs.db
      cases hdirty : (s.conn c).session.dirty with
      | true =>
        have hout : outcome s c ⟨.exec queue, cb⟩ fault = _ :=
          Command.serve_exec_of_dirty queue s.db hdirty hfault
        exact .none (hreply fun rs => by rw [hout]; exact Reply.noConfusion) (by rw [hs.db, hout])
      | false =>
        exact hcommit hfault hdirty (Command.serve_exec_of_clean queue s.db hdirty hfault)
    cases hissued with
    | upsertWrite kind item call =>
      refine hexec _ _ rfl fun hfault hclean hout => ?_
      exact .upsert c fault kind item call rest rfl hfault hs.inbox hclean
        (by rw [hs.db, writeRequest, hout]) (by rw [hs.log, writeRequest, hout])
    | init allData call multi hb =>
      refine hexec _ _ rfl fun hfault hclean hout => ?_
      exact .init c fault allData call multi rest rfl hfault hs.inbox hclean hb (by rw [hs.db, hout])
        (by rw [hs.log, hout])
    | _ => exact hread fun queue hq => by cases hq

/-- A step that executes an upsert's transaction is such a change. -/
theorem UpsertCommits.change {c : ι} {kind : Kind} {item : Item} (hc : UpsertCommits s t c kind item)
    (hq : ∀ c, (s.conn c).Queued) (h : step s l = some t) :
    ∃ call rest, (s.conn c).inbox = writeRequest (s.conn c).state kind item call :: rest ∧
      (s.conn c).session.dirty = false := by
  obtain ⟨queue, call, rs, touched, hlog⟩ := hc
  have hl : ∀ values, l ≠ .foreign values := by
    rintro values rfl
    obtain ⟨_, _, hbad, -⟩ := serve_of_executed h hlog
    cases hbad
  cases change_of_step hq h hl with
  | none hno hdb => exact absurd hlog (hno c _ rs touched)
  | upsert c' fault kind' item' call' rest hl hfault hin hclean hdb hlog' =>
    rw [hlog, List.append_cancel_left_eq] at hlog'
    obtain ⟨rfl, hr, -, -⟩ := Event.executed.inj (List.cons.inj hlog').1
    obtain ⟨rfl, rfl, rfl⟩ : kind = kind' ∧ item = item' ∧ call = call' := by
      simpa [writeRequest] using congrArg Request.callback hr
    exact ⟨call, rest, hin, hclean⟩
  | init c' fault allData call' multi rest hl hfault hin hclean hbuild hdb hlog' =>
    rw [hlog, List.append_cancel_left_eq] at hlog'
    obtain ⟨-, hr, -, -⟩ := Event.executed.inj (List.cons.inj hlog').1
    cases congrArg Request.callback hr

/-- A step of the server whose event executes an upsert's transaction. -/
theorem upsertCommits_of_getLast {c d : ι} {fault : Fault} (h : step s (.serve c fault) = some t)
    {kind : Kind} {item : Item}
    (hlast : t.log.getLast?.bind Event.upsertCommit = some (d, kind, item)) :
    UpsertCommits s t d kind item := by
  obtain ⟨request, rest, hs⟩ := serve_step h
  rw [hs.log, List.getLast?_append, List.getLast?_singleton, Option.some_or, Option.bind_some] at hlast
  unfold Event.upsertCommit at hlast
  split at hlast
  · next e c' queue kind' item' call rs touched he =>
    obtain ⟨rfl, rfl, rfl⟩ : c' = d ∧ kind' = kind ∧ item' = item := by simpa using hlast
    exact ⟨queue, call, rs, touched, by rw [hs.log, he]⟩
  · cases hlast

end Sys

end RedisStore
