import RedisStore.Store.Base

/-!
# The two calling forms

`RedisFeatureStore` takes an options object, or the older list of arguments, whose first one holds the
options of the client library. It tells the forms apart by the truth values of the later arguments, and
without any by whether the first argument has a property of the options object. So it guesses wrong
where an argument is given but false (a `cacheTTL` of zero, an empty prefix), where the library's own
options have a `prefix`, and where an options object comes with a logger. The forms agree exactly
outside of these cases (`calling_forms_agree_iff`).
-/

namespace RedisStore

/-- The truth value of a number. -/
def JsNumber.truthy : JsNumber → Bool
  | .nan => false
  | .infinity _ => true
  | .finite d => d.value ≠ 0

/-- The truth value of an argument that is a number or `undefined`. -/
def numberTruthy : Option JsNumber → Bool
  | some n => n.truthy
  | none => false

/-- The truth value of an argument that is a string or `undefined`. -/
def stringTruthy : Option String → Bool
  | some s => s ≠ ""
  | none => false

/-- `ClientOpts`, the options of the client library. Of their properties, `prefix` is one that the
options object of a store has too; `β` stands for the others. -/
structure ClientOpts (β : Type) where
  keyPrefix : Option String
  rest : β

/-- The first argument, where it is not `undefined`. -/
inductive FirstArg (β κ : Type) where
  | clientOpts (r : ClientOpts β)
  | ldOptions (o : Options (ClientOpts β) κ)

variable {β κ ν : Type}

/-- The properties that are read from the first argument where it is taken for the options. -/
def FirstArg.asOptions : FirstArg β κ → Options (FirstArg β κ) κ
  | .clientOpts r => ⟨none, r.keyPrefix, none, none⟩
  | .ldOptions o => ⟨o.redisOpts.map .clientOpts, o.keyPrefix, o.client, o.cacheTTL⟩

/-- `{}` -/
def noOptions {ρ κ : Type} : Options ρ κ := ⟨none, none, none, none⟩

/-- All four properties are `undefined`. -/
def Options.unset {ρ κ : Type} (options : Options ρ κ) : Bool :=
  options.redisOpts.isNone && options.cacheTTL.isNone && options.keyPrefix.isNone &&
    options.client.isNone

/-- `cacheTTL || prefix || logger || client`. A logger or a client is an object, and true. -/
def anyTruthy (cacheTTL : Option JsNumber) (keyPrefix : Option String) (logger : Option ν)
    (client : Option κ) : Bool :=
  numberTruthy cacheTTL || stringTruthy keyPrefix || logger.isSome || client.isSome

/-- A number is true unless it is zero or `NaN`. -/
theorem JsNumber.truthy_iff {n : JsNumber} :
    n.truthy = true ↔ n ≠ .nan ∧ ∀ d, n = .finite d → d.value ≠ 0 := by
  cases n <;> simp [truthy]

/-- One of the arguments is true exactly if the time is a number other than zero and `NaN`, the prefix is
not empty, or a logger or a client is given. -/
theorem anyTruthy_iff {cacheTTL : Option JsNumber} {keyPrefix : Option String} {logger : Option ν}
    {client : Option κ} :
    anyTruthy cacheTTL keyPrefix logger client = true ↔
      (∃ n, cacheTTL = some n ∧ n ≠ .nan ∧ ∀ d, n = .finite d → d.value ≠ 0) ∨
        (∃ p, keyPrefix = some p ∧ p ≠ "") ∨ logger ≠ none ∨ client ≠ none := by
  have htime : numberTruthy cacheTTL = true ↔
      ∃ n, cacheTTL = some n ∧ n ≠ .nan ∧ ∀ d, n = .finite d → d.value ≠ 0 := by
    cases cacheTTL with
    | none => simp [numberTruthy]
    | some n =>
      rw [numberTruthy, JsNumber.truthy_iff]
      simp
  have hprefix : stringTruthy keyPrefix = true ↔ ∃ p, keyPrefix = some p ∧ p ≠ "" := by
    cases keyPrefix <;> simp [stringTruthy]
  unfold anyTruthy
  rw [Bool.or_eq_true, Bool.or_eq_true, Bool.or_eq_true, htime, hprefix, Option.isSome_iff_ne_none,
    Option.isSome_iff_ne_none, or_assoc, or_assoc]

/-- The options that `RedisFeatureStore` makes of its arguments. -/
def resolveOptions (redisOpts : Option (FirstArg β κ)) (cacheTTL : Option JsNumber)
    (keyPrefix : Option String) (logger : Option ν) (client : Option κ) :
    Options (FirstArg β κ) κ :=
  if anyTruthy cacheTTL keyPrefix logger client then
    -- convert from older syntax
    ⟨redisOpts, keyPrefix, client, cacheTTL⟩
  else
    -- first parameter could be either options (newer syntax) or redisOpts
    let options := (redisOpts.map FirstArg.asOptions).getD noOptions
    if options.unset then ⟨redisOpts, none, none, none⟩ else options

/-- A caching wrapper: the options and the logger that `initState` of its store gets, and the time that
the wrapper gets. -/
structure CachingStoreWrapper (β κ ν : Type) where
  options : Options (FirstArg β κ) κ
  logger : ν
  cacheTTL : Option JsNumber

/-- `RedisFeatureStore`, applied to the SDK's configuration with its logger. -/
def redisFeatureStore (redisOpts : Option (FirstArg β κ)) (cacheTTL : Option JsNumber)
    (keyPrefix : Option String) (logger : Option ν) (client : Option κ) (configLogger : ν) :
    CachingStoreWrapper β κ ν :=
  let options := resolveOptions redisOpts cacheTTL keyPrefix logger client
  ⟨options, logger.getD configLogger, options.cacheTTL⟩

theorem Options.unset_iff {ρ κ : Type} {options : Options ρ κ} :
    options.unset = true ↔ options = noOptions := by
  obtain ⟨redisOpts, keyPrefix, client, cacheTTL⟩ := options
  simp only [unset, noOptions, Bool.and_eq_true, Option.isNone_iff_eq_none, Options.mk.injEq]
  tauto

/-- Two stores get the same options, and their wrappers the same time. -/
def CachingStoreWrapper.SameOptions (w w' : CachingStoreWrapper β κ ν) : Prop :=
  w.options = w'.options ∧ w.cacheTTL = w'.cacheTTL

/-! ## What the forms resolve to -/

/-- The options of the client library with such an argument. -/
theorem resolveOptions_of_truthy {redisOpts : Option (FirstArg β κ)} {cacheTTL : Option JsNumber}
    {keyPrefix : Option String} {logger : Option ν} {client : Option κ}
    (h : anyTruthy cacheTTL keyPrefix logger client = true) :
    resolveOptions redisOpts cacheTTL keyPrefix logger client =
      ⟨redisOpts, keyPrefix, client, cacheTTL⟩ :=
  if_pos h

/-- Without one, a prefix among them is taken for that of the store, and the rest of them is
dropped. -/
theorem resolveOptions_clientOpts {cacheTTL : Option JsNumber} {keyPrefix : Option String}
    {logger : Option ν} {client : Option κ}
    (h : anyTruthy cacheTTL keyPrefix logger client = false) (r : ClientOpts β) :
    resolveOptions (some (.clientOpts r)) cacheTTL keyPrefix logger client =
      if r.keyPrefix.isNone then ⟨some (.clientOpts r), none, none, none⟩
      else ⟨none, r.keyPrefix, none, none⟩ := by
  unfold resolveOptions
  rw [if_neg (Bool.eq_false_iff.1 h)]
  cases hprefix : r.keyPrefix <;> simp [FirstArg.asOptions, Options.unset, hprefix]

/-- An options object on its own. -/
theorem resolveOptions_ldOptions (o : Options (ClientOpts β) κ) :
    resolveOptions (some (.ldOptions o)) none none (none : Option ν) none =
      if o.unset then ⟨some (.ldOptions o), none, none, none⟩ else (FirstArg.ldOptions o).asOptions := by
  have hunset : (FirstArg.ldOptions o).asOptions.unset = o.unset := by
    simp [FirstArg.asOptions, Options.unset]
  have hnone : anyTruthy none none (none : Option ν) (none : Option κ) = false := rfl
  unfold resolveOptions
  rw [if_neg (Bool.eq_false_iff.1 hnone)]
  dsimp only
  rw [Option.map_some, Option.getD_some, hunset]

/-! ## When they agree -/

/-- The older form against the newer one. -/
theorem older_sameOptions_iff (r : ClientOpts β) (cacheTTL : Option JsNumber)
    (keyPrefix : Option String) (logger : Option ν) (client : Option κ) (configLogger : ν) :
    (redisFeatureStore (some (.clientOpts r)) cacheTTL keyPrefix logger client
        configLogger).SameOptions
      (redisFeatureStore (some (.ldOptions ⟨some r, keyPrefix, client, cacheTTL⟩)) none none none none
        configLogger) ↔
      anyTruthy cacheTTL keyPrefix logger client = true ∨
        cacheTTL = none ∧ keyPrefix = none ∧ r.keyPrefix = none := by
  -- The newer form hands on what it is given.
  have hnewer : resolveOptions (some (.ldOptions ⟨some r, keyPrefix, client, cacheTTL⟩)) none none
      (none : Option ν) none = ⟨some (.clientOpts r), keyPrefix, client, cacheTTL⟩ :=
    resolveOptions_ldOptions _
  unfold CachingStoreWrapper.SameOptions redisFeatureStore
  dsimp only
  rw [hnewer]
  cases hany : anyTruthy cacheTTL keyPrefix logger client with
  | true => simp [resolveOptions_of_truthy hany]
  | false =>
    have hclient : client = none := by
      by_contra hsome
      have htrue : anyTruthy cacheTTL keyPrefix logger client = true :=
        anyTruthy_iff.2 (.inr (.inr (.inr hsome)))
      exact Bool.false_ne_true (hany.symm.trans htrue)
    rw [resolveOptions_clientOpts hany, hclient]
    cases hprefix : r.keyPrefix with
    | none =>
      constructor
      · rintro ⟨hoptions, hcacheTTL⟩
        obtain ⟨-, hkeyPrefix, -, -⟩ := Options.mk.inj hoptions
        exact .inr ⟨hcacheTTL.symm, hkeyPrefix.symm, rfl⟩
      · rintro (hbad | ⟨rfl, rfl, -⟩)
        · cases hbad
        · exact ⟨rfl, rfl⟩
    | some p => simp

/-- An options object with a logger against the object alone. -/
theorem withLogger_sameOptions_iff (o : Options (ClientOpts β) κ) (logger configLogger : ν) :
    (redisFeatureStore (some (.ldOptions o)) none none (some logger) none configLogger).SameOptions
      (redisFeatureStore (some (.ldOptions o)) none none none none configLogger) ↔
      o = noOptions := by
  -- With the logger, the object is taken for the client library's options.
  have hlogger : resolveOptions (some (.ldOptions o)) none none (some logger) none =
      ⟨some (.ldOptions o), none, none, none⟩ := resolveOptions_of_truthy rfl
  unfold CachingStoreWrapper.SameOptions redisFeatureStore
  dsimp only
  rw [hlogger, resolveOptions_ldOptions, ← Options.unset_iff]
  cases hunset : o.unset with
  | true => exact iff_of_true ⟨rfl, rfl⟩ rfl
  | false =>
    refine iff_of_false (fun hsame => ?_) Bool.false_ne_true
    have hredisOpts : some (.ldOptions o) = o.redisOpts.map FirstArg.clientOpts :=
      (Options.mk.inj hsame.1).1
    cases hopts : o.redisOpts <;> rw [hopts] at hredisOpts <;> cases hredisOpts

/-- For all arguments: the older form resolves to the same as the newer one exactly if one of the later
arguments is true, or neither the time nor the prefix nor a prefix of the client library is given; and an
options object with a logger to the same as without exactly if none of its properties is set. -/
theorem calling_forms_agree_iff (r : ClientOpts β) (cacheTTL : Option JsNumber)
    (keyPrefix : Option String) (logger : Option ν) (client : Option κ)
    (o : Options (ClientOpts β) κ) (ownLogger configLogger : ν) :
    ((redisFeatureStore (some (.clientOpts r)) cacheTTL keyPrefix logger client
          configLogger).SameOptions
        (redisFeatureStore (some (.ldOptions ⟨some r, keyPrefix, client, cacheTTL⟩)) none none none
          none configLogger) ↔
      anyTruthy cacheTTL keyPrefix logger client = true ∨
        cacheTTL = none ∧ keyPrefix = none ∧ r.keyPrefix = none) ∧
    ((redisFeatureStore (some (.ldOptions o)) none none (some ownLogger) none
          configLogger).SameOptions
        (redisFeatureStore (some (.ldOptions o)) none none none none configLogger) ↔
      o = noOptions) :=
  ⟨older_sameOptions_iff r cacheTTL keyPrefix logger client configLogger,
    withLogger_sameOptions_iff o ownLogger configLogger⟩

/-- The forms differ for a time of zero, for options of the client library with a prefix, and for an
options object with a logger. -/
theorem calling_forms_disagree :
    ¬ (redisFeatureStore (some (.clientOpts ⟨none, "redishost"⟩)) (some (.finite (.ofInt 0))) none
          (none : Option Unit) (none : Option Unit) ()).SameOptions
        (redisFeatureStore (some (.ldOptions ⟨some ⟨none, "redishost"⟩, none, none,
          some (.finite (.ofInt 0))⟩)) none none none none ()) ∧
      ¬ (redisFeatureStore (some (.clientOpts ⟨some "redis:", "redishost"⟩)) none none
          (none : Option Unit) (none : Option Unit) ()).SameOptions
        (redisFeatureStore (some (.ldOptions ⟨some ⟨some "redis:", "redishost"⟩, none, none, none⟩))
          none none none none ()) ∧
      ¬ (redisFeatureStore (some (.ldOptions ⟨some ⟨none, "redishost"⟩, some "app1", none, none⟩))
          none none (some ()) (none : Option Unit) ()).SameOptions
        (redisFeatureStore (some (.ldOptions ⟨some ⟨none, "redishost"⟩, some "app1", none, none⟩))
          none none none none ()) := by
  refine ⟨?_, ?_, ?_⟩
  · rw [older_sameOptions_iff]
    rintro (htruthy | ⟨hcacheTTL, -⟩)
    · simp [anyTruthy_iff] at htruthy
    · cases hcacheTTL
  · rw [older_sameOptions_iff]
    rintro (htruthy | ⟨-, -, hprefix⟩)
    · cases htruthy
    · cases hprefix
  · rw [withLogger_sameOptions_iff]
    intro hunset
    cases hunset

end RedisStore
