import Mathlib.Tactic.TypeStar

/-!
# Synchronous code with effects

JavaScript runs a function or a callback to its end before it runs another. What such a run does is
the list of its effects in order and how it ends: with a value, or with an exception, which skips
what comes after it and keeps the effects that came before.
-/

namespace RedisStore

/-- What a synchronous piece of code does: its effects, and its value or exception. -/
structure Js (ε χ α : Type) where
  /-- The effects, in order. -/
  effects : List ε
  /-- The value, or the exception that escapes. -/
  result : Except χ α

namespace Js

variable {ε χ α β : Type}

/-- Code with one effect. -/
def emit (e : ε) : Js ε χ Unit := ⟨[e], .ok ()⟩

/-- Code with no effect, whose value or exception is known. -/
def ofExcept (r : Except χ α) : Js ε χ α := ⟨[], r⟩

instance : Monad (Js ε χ) where
  pure a := ⟨[], .ok a⟩
  bind m f := match m.result with
    | .ok a => ⟨m.effects ++ (f a).effects, (f a).result⟩
    | .error x => ⟨m.effects, .error x⟩

@[simp] theorem pure_eq (a : α) : (pure a : Js ε χ α) = ⟨[], .ok a⟩ := rfl

@[simp] theorem emit_eq (e : ε) : (emit e : Js ε χ Unit) = ⟨[e], .ok ()⟩ := rfl

@[simp] theorem mk_ok_bind (es : List ε) (a : α) (f : α → Js ε χ β) :
    ((⟨es, .ok a⟩ : Js ε χ α) >>= f) = ⟨es ++ (f a).effects, (f a).result⟩ := rfl

@[simp] theorem mk_error_bind (es : List ε) (x : χ) (f : α → Js ε χ β) :
    ((⟨es, .error x⟩ : Js ε χ α) >>= f) = ⟨es, .error x⟩ := rfl

@[simp] theorem ofExcept_ok (a : α) : (ofExcept (.ok a) : Js ε χ α) = ⟨[], .ok a⟩ := rfl

@[simp] theorem ofExcept_error (x : χ) : (ofExcept (.error x) : Js ε χ α) = ⟨[], .error x⟩ := rfl

/-- Code that starts with a value that may be an exception is what follows on the value, or ends with the
exception and has no effect. -/
theorem ofExcept_bind (r : Except χ α) (f : α → Js ε χ β) :
    (∃ x, r = .error x ∧ ofExcept r >>= f = ⟨[], .error x⟩) ∨
      ∃ a, r = .ok a ∧ ofExcept r >>= f = f a := by
  cases r with
  | ok a => exact .inr ⟨a, rfl, rfl⟩
  | error x => exact .inl ⟨x, rfl, rfl⟩

end Js

end RedisStore
