import RsaKeys.Convert

/-!
# The public key

`RsaPublicKey` holds the modulus, the public exponent and the reduction context of the modulus.
Its constructors differ only in what they check first: `new_with_max_size` runs
`check_public_with_max_size`, `new_unchecked` checks nothing, and every one of them builds the
reduction context with an `unwrap`, which panics on an even modulus.
-/

namespace RsaKeys

/-- `RsaPublicKey`. -/
structure RsaPublicKey where
  /-- The modulus (a `NonZero<BoxedUint>`). -/
  n : BoxedUint
  /-- The public exponent. -/
  e : UInt64
  /-- The reduction context of `n`. -/
  nParams : BoxedResidueParams
  deriving DecidableEq

namespace RsaPublicKey

/-- `MIN_PUB_EXPONENT`. -/
def minPubExponent : Nat := 2

/-- `MAX_PUB_EXPONENT`. -/
def maxPubExponent : Nat := 2 ^ 33 - 1

/-- `MAX_SIZE`: the largest modulus `new` accepts, in bits. -/
def maxSize : Nat := 4096

end RsaPublicKey

/-- `check_public_with_max_size`: the well-formedness checks of a public key, in the order of the
source, each with its error. -/
def checkPublicWithMaxSize (n e maxSize : Nat) : Except Error Unit :=
  if maxSize < bitLength n then .error .modulusTooLarge
  else match toU64 e with
  | none => .error .publicExponentTooLarge
  | some eu64 =>
      if n ≤ e ∨ n % 2 = 0 then .error .invalidModulus
      else if e % 2 = 0 then .error .invalidExponent
      else if eu64.toNat < RsaPublicKey.minPubExponent then .error .publicExponentTooSmall
      else if RsaPublicKey.maxPubExponent < eu64.toNat then .error .publicExponentTooLarge
      else .ok ()

/-- `check_public`: the checks with the default `MAX_SIZE`, on the key's `n` and `e` as
`BigUint`s. -/
def checkPublic (key : RsaPublicKey) : Except Error Unit :=
  checkPublicWithMaxSize (toBiguint key.n) key.e.toNat RsaPublicKey.maxSize

namespace RsaPublicKey

/-- `RsaPublicKey::new_with_max_size`. -/
def newWithMaxSize (n e maxSize : Nat) : Outcome RsaPublicKey := do
  checkPublicWithMaxSize n e maxSize
  let e ← unwrap (toU64 e)
  let rawN ← toUint n
  let nParams ← unwrap (BoxedResidueParams.new rawN)
  let n ← unwrap (NonZero.new rawN)
  pure ⟨n.get, e, nParams⟩

/-- `RsaPublicKey::new`. -/
def new (n e : Nat) : Outcome RsaPublicKey := newWithMaxSize n e maxSize

/-- `RsaPublicKey::new_unchecked`. -/
def newUnchecked (n e : Nat) : Outcome RsaPublicKey := do
  let rawN ← toUint n
  let nParams ← unwrap (BoxedResidueParams.new rawN)
  let n ← unwrap (NonZero.new rawN)
  let e ← unwrap (toU64 e)
  pure ⟨n.get, e, nParams⟩

end RsaPublicKey

/-- `PartialEq for RsaPublicKey`: the modulus and the exponent. crypto-bigint compares integers by
value, whatever their precision; the reduction context is not compared. -/
def RsaPublicKey.eq (a b : RsaPublicKey) : Bool := a.n.val == b.n.val && a.e == b.e

/-- The conditions `check_public_with_max_size` checks, as one proposition. -/
@[mk_iff] structure PublicWellFormed (n e maxSize : Nat) : Prop where
  size_le : bitLength n ≤ maxSize
  e_lt : e < n
  n_odd : n % 2 = 1
  e_odd : e % 2 = 1
  e_ge : RsaPublicKey.minPubExponent ≤ e
  e_le : e ≤ RsaPublicKey.maxPubExponent

/-- A well-formed exponent fits the `u64` that `to_u64` converts it to. -/
theorem PublicWellFormed.e_lt_two_pow {n e maxSize : Nat}
    (wellFormed : PublicWellFormed n e maxSize) : e < 2 ^ 64 :=
  lt_of_le_of_lt wellFormed.e_le (by decide)

/-- `check_public_with_max_size` accepts exactly the well-formed keys. -/
theorem checkPublicWithMaxSize_eq_ok_iff {n e maxSize : Nat} :
    checkPublicWithMaxSize n e maxSize = .ok () ↔ PublicWellFormed n e maxSize := by
  rw [publicWellFormed_iff, checkPublicWithMaxSize]
  simp only [RsaPublicKey.minPubExponent, RsaPublicKey.maxPubExponent]
  rcases le_or_lt (2 ^ 64) e with large | small
  · rw [toU64_eq_none_iff.mpr large]
    split_ifs <;> simp only [reduceCtorEq, false_iff] <;> omega
  · rw [toU64_eq small]
    simp only [toNat_ofNat_of_lt small]
    split_ifs <;> simp only [reduceCtorEq, false_iff, true_iff] <;> omega

namespace RsaPublicKey

/-! ## What `new_with_max_size` returns -/

/-- A key that `check_public_with_max_size` rejects is rejected with the check's error. -/
theorem newWithMaxSize_of_rejected {n e maxSize : Nat} {error : Error}
    (rejected : checkPublicWithMaxSize n e maxSize = .error error) :
    newWithMaxSize n e maxSize = .err error := by
  simp only [newWithMaxSize, rejected, Outcome.monadLift_eq, Outcome.ofExcept_error,
    Outcome.err_bind]

/-- A well-formed key of at most `2 ^ 32 - 64` bits is built, with exactly its `n` and `e`. -/
theorem newWithMaxSize_of_wellFormed {n e maxSize : Nat}
    (wellFormed : PublicWellFormed n e maxSize) (small : bitLength n ≤ 2 ^ 32 - 64) :
    ∃ key, newWithMaxSize n e maxSize = .ok key ∧ key.n.val = n ∧ key.e.toNat = e := by
  have eSmall := wellFormed.e_lt_two_pow
  obtain ⟨rawN, converted, value, -⟩ := toUint_of_narrow small
  have odd : rawN.val % 2 = 1 := value ▸ wellFormed.n_odd
  refine ⟨⟨rawN, UInt64.ofNat e, ⟨rawN, odd⟩⟩, ?_, value, toNat_ofNat_of_lt eSmall⟩
  simp only [newWithMaxSize, checkPublicWithMaxSize_eq_ok_iff.mpr wellFormed,
    Outcome.monadLift_eq, Outcome.ofExcept_ok, Outcome.ok_bind, toU64_eq eSmall, unwrap_some,
    converted, BoxedResidueParams.new_of_odd odd,
    NonZero.new_of_ne_zero (show rawN.val ≠ 0 by omega)]
  rfl

/-- A well-formed key of more than `2 ^ 32 - 64` bits panics in `to_uint`. -/
theorem newWithMaxSize_of_wide {n e maxSize : Nat} (wellFormed : PublicWellFormed n e maxSize)
    (wide : 2 ^ 32 - 64 < bitLength n) : newWithMaxSize n e maxSize = .abort := by
  simp only [newWithMaxSize, checkPublicWithMaxSize_eq_ok_iff.mpr wellFormed,
    Outcome.monadLift_eq, Outcome.ofExcept_ok, Outcome.ok_bind, toU64_eq wellFormed.e_lt_two_pow,
    unwrap_some, toUint_abort wide, Outcome.abort_bind]

/-- For every `max_size` up to `2 ^ 32 - 64`, `new_with_max_size` builds a well-formed key with
exactly its `n` and `e` and rejects every other with the error of its check. -/
theorem newWithMaxSize_outcome {n e maxSize : Nat} (bound : maxSize ≤ 2 ^ 32 - 64) :
    (PublicWellFormed n e maxSize →
      ∃ key, newWithMaxSize n e maxSize = .ok key ∧ key.n.val = n ∧ key.e.toNat = e) ∧
    (¬ PublicWellFormed n e maxSize → ∃ error, checkPublicWithMaxSize n e maxSize = .error error ∧
      newWithMaxSize n e maxSize = .err error) := by
  refine ⟨fun wellFormed =>
    newWithMaxSize_of_wellFormed wellFormed (wellFormed.size_le.trans bound), fun malformed => ?_⟩
  cases checked : checkPublicWithMaxSize n e maxSize with
  | error error => exact ⟨error, rfl, newWithMaxSize_of_rejected checked⟩
  | ok _ => exact absurd (checkPublicWithMaxSize_eq_ok_iff.mp checked) malformed

theorem newWithMaxSize_outcome_at_max_size :
    (∃ key, newWithMaxSize 55 3 maxSize = .ok key ∧ key.n.val = 55 ∧ key.e.toNat = 3) ∧
    ∃ error, checkPublicWithMaxSize 56 3 maxSize = .error error ∧
      newWithMaxSize 56 3 maxSize = .err error :=
  ⟨(newWithMaxSize_outcome (by decide)).1 (checkPublicWithMaxSize_eq_ok_iff.mp rfl),
    (newWithMaxSize_outcome (by decide)).2 fun wellFormed => absurd wellFormed.n_odd (by decide)⟩

/-- `new_unchecked` builds the key of exactly `n` and `e` when `n` is odd, `e` fits a `u64` and
`n` has at most `2 ^ 32 - 64` bits, and panics otherwise. -/
theorem newUnchecked_outcome (n e : Nat) :
    (n % 2 = 1 ∧ e < 2 ^ 64 ∧ bitLength n ≤ 2 ^ 32 - 64 →
      ∃ key, newUnchecked n e = .ok key ∧ key.n.val = n ∧ key.e.toNat = e) ∧
    (¬ (n % 2 = 1 ∧ e < 2 ^ 64 ∧ bitLength n ≤ 2 ^ 32 - 64) → newUnchecked n e = .abort) := by
  by_cases size : bitLength n ≤ 2 ^ 32 - 64
  swap
  · exact ⟨fun ⟨_, _, small⟩ => absurd small size, fun _ => by
      rw [newUnchecked, toUint_abort (by omega), Outcome.abort_bind]⟩
  obtain ⟨rawN, converted, value, -⟩ := toUint_of_narrow size
  subst value
  refine ⟨fun ⟨odd, eSmall, _⟩ => ?_, fun bad => ?_⟩
  · refine ⟨⟨rawN, UInt64.ofNat e, ⟨rawN, odd⟩⟩, ?_, rfl, toNat_ofNat_of_lt eSmall⟩
    simp only [newUnchecked, converted, Outcome.ok_bind, BoxedResidueParams.new_of_odd odd,
      unwrap_some, NonZero.new_of_ne_zero (show rawN.val ≠ 0 by omega), toU64_eq eSmall]
    rfl
  · by_cases odd : rawN.val % 2 = 1
    · simp only [newUnchecked, converted, Outcome.ok_bind, BoxedResidueParams.new_of_odd odd,
        unwrap_some, NonZero.new_of_ne_zero (show rawN.val ≠ 0 by omega),
        toU64_eq_none_iff.mpr (show 2 ^ 64 ≤ e by omega), unwrap_none, Outcome.abort_bind]
    · simp [newUnchecked, converted,
        BoxedResidueParams.new_eq_none_iff.mpr (show rawN.val % 2 = 0 by omega)]

theorem newUnchecked_outcome_on_small_moduli :
    (∃ key, newUnchecked 55 3 = .ok key ∧ key.n.val = 55 ∧ key.e.toNat = 3) ∧
      newUnchecked 56 3 = .abort :=
  ⟨(newUnchecked_outcome 55 3).1 (by decide), (newUnchecked_outcome 56 3).2 (by decide)⟩

/-- The all-ones modulus of `k ≥ 3` bits, with `e = 3`, passes the checks at `max_size = k`. -/
theorem publicWellFormed_two_pow_sub_one {k : Nat} (large : 3 ≤ k) :
    PublicWellFormed (2 ^ k - 1) 3 k := by
  obtain ⟨k, rfl⟩ : ∃ j, k = j + 3 := ⟨k - 3, by omega⟩
  have : 1 ≤ 2 ^ k := Nat.one_le_two_pow
  refine ⟨(bitLength_two_pow_sub_one _).le, ?_, ?_, rfl, by decide, by decide⟩ <;>
    rw [pow_add] <;> omega

/-- The modulus `2 ^ (2 ^ 32) - 1` with `e = 3` and `max_size = 2 ^ 32` passes every check, and
`new_with_max_size` then panics in `to_uint` instead of returning a key or a typed error. -/
theorem newWithMaxSize_aborts_on_wide_modulus :
    newWithMaxSize (2 ^ 2 ^ 32 - 1) 3 (2 ^ 32) = .abort :=
  newWithMaxSize_of_wide (publicWellFormed_two_pow_sub_one (by norm_num))
    (by rw [bitLength_two_pow_sub_one]; norm_num)

end RsaPublicKey

end RsaKeys
