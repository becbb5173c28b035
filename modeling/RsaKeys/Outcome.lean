import Mathlib.Tactic

/-!
# Errors and outcomes

Every modelled function of the library returns an `Outcome`: a value, one of the typed errors of
the crate, an abort (a Rust panic: a failed `unwrap`, `expect` or `assert!`, or an arithmetic
overflow of a debug build), or, for the uncapped retry loop of key generation only, no result
within the number of rounds allowed. Functions that cannot panic return `Except Error` and are
lifted into `Outcome` where they are called with `?`.
-/

namespace RsaKeys

/-- Modelled from the spec: `crate::errors::Error` (src/errors.rs is not under src/). The kinds
of the taxonomy of the spec (§7) that the modelled code returns, the `NoInverse`-class failure of
the private-exponent derivations (§4.2), and two the spec does not name: the failure of factor
recovery and a value too long for the length it is padded to. -/
inductive Error where
  | nprimesTooSmall
  | tooFewPrimes
  | invalidPrime
  | invalidModulus
  | invalidExponent
  | modulusTooLarge
  | publicExponentTooSmall
  | publicExponentTooLarge
  | noInverse
  | recoveryFailed
  | invalidPadLen
  deriving DecidableEq, Repr

/-- The result of running library code. -/
inductive Outcome (α : Type) where
  /-- The code returned this value (`Ok` for a `Result`). -/
  | ok (value : α)
  /-- The code returned a typed error (`Err`). -/
  | err (error : Error)
  /-- The code panicked. -/
  | abort
  /-- The retry loop of key generation did not finish within the rounds allowed. -/
  | outOfFuel
  deriving DecidableEq, Repr

namespace Outcome

variable {α β : Type}

/-- Sequencing: the first failure is the result. -/
def bind : Outcome α → (α → Outcome β) → Outcome β
  | ok value, next => next value
  | err error, _ => err error
  | abort, _ => abort
  | outOfFuel, _ => outOfFuel

instance : Monad Outcome where
  pure := ok
  bind := bind

instance : MonadExceptOf Error Outcome where
  throw := err
  tryCatch
    | err error, handler => handler error
    | result, _ => result

/-- `?` on a function that returns a `Result` and cannot panic. -/
def ofExcept : Except Error α → Outcome α
  | .ok value => ok value
  | .error error => err error

instance : MonadLift (Except Error) Outcome where
  monadLift := ofExcept

instance : LawfulMonad Outcome :=
  LawfulMonad.mk' Outcome (fun x => by cases x <;> rfl) (fun _ _ => rfl)
    (fun x _ _ => by cases x <;> rfl)

@[simp] theorem pure_eq (value : α) : (pure value : Outcome α) = ok value := rfl

@[simp] theorem throw_eq (error : Error) : (throw error : Outcome α) = err error := rfl

@[simp] theorem ok_bind (value : α) (next : α → Outcome β) : (ok value >>= next) = next value :=
  rfl

@[simp] theorem err_bind (error : Error) (next : α → Outcome β) :
    (err error >>= next) = err error := rfl

@[simp] theorem abort_bind (next : α → Outcome β) : (abort >>= next) = abort := rfl

@[simp] theorem outOfFuel_bind (next : α → Outcome β) : (outOfFuel >>= next) = outOfFuel := rfl

@[simp] theorem liftExcept_eq (result : Except Error α) :
    (liftM result : Outcome α) = ofExcept result := rfl

@[simp] theorem monadLift_eq (result : Except Error α) :
    (monadLift result : Outcome α) = ofExcept result := rfl

@[simp] theorem ofExcept_ok (value : α) : ofExcept (.ok value : Except Error α) = ok value := rfl

@[simp] theorem ofExcept_error (error : Error) :
    ofExcept (.error error : Except Error α) = err error := rfl

/-- Inversion of a successful sequence: both halves succeeded. -/
theorem bind_eq_ok {first : Outcome α} {next : α → Outcome β} {result : β} :
    (first >>= next) = ok result ↔ ∃ value, first = ok value ∧ next value = ok result := by
  cases first <;> simp

theorem bind_eq_err {first : Outcome α} {next : α → Outcome β} {error : Error} :
    (first >>= next) = err error ↔
      first = err error ∨ ∃ value, first = ok value ∧ next value = err error := by
  cases first <;> simp

@[simp] theorem ofExcept_eq_ok {result : Except Error α} {value : α} :
    ofExcept result = ok value ↔ result = .ok value := by
  cases result <;> simp [ofExcept]

end Outcome

/-- `Option::ok_or_else(..)?`: the error given when `None`. -/
def okOr {α : Type} : Option α → Error → Outcome α
  | some value, _ => .ok value
  | none, error => .err error

@[simp] theorem okOr_some {α : Type} (value : α) (error : Error) :
    okOr (some value) error = .ok value := rfl

@[simp] theorem okOr_none {α : Type} (error : Error) : okOr (none : Option α) error = .err error :=
  rfl

@[simp] theorem okOr_eq_ok {α : Type} {option : Option α} {error : Error} {value : α} :
    okOr option error = .ok value ↔ option = some value := by
  cases option <;> simp [okOr]

/-- `Option::unwrap`, `CtOption::unwrap` and `Option::expect`: panic on `None`. -/
def unwrap {α : Type} : Option α → Outcome α
  | some value => .ok value
  | none => .abort

@[simp] theorem unwrap_some {α : Type} (value : α) : unwrap (some value) = .ok value := rfl

@[simp] theorem unwrap_none {α : Type} : unwrap (none : Option α) = .abort := rfl

@[simp] theorem unwrap_eq_ok {α : Type} {option : Option α} {value : α} :
    unwrap option = .ok value ↔ option = some value := by
  cases option <;> simp [unwrap]

end RsaKeys
