import RsaKeys.Bignum.Natural

/-!
# Fixed-precision integers

crypto-bigint's `BoxedUint` stores a value in a fixed number of 64-bit limbs (`Limb::BITS` on a
64-bit target); its precision is part of the value and every operation states what precision its
result has. The structure carries the bound of the value, so no operation can produce a value
that does not fit its limbs. Only what the library uses is modelled: precision changes (`widen`,
`shorten`), the wrapping operations, the variable-time remainder, big-endian encoding, and the
Montgomery residues with their parameters (only the residue they stand for, not the Montgomery
form). Assertions of the library are panics, as in a debug build.
-/

namespace RsaKeys

/-- crypto-bigint's `BoxedUint`. -/
structure BoxedUint where
  /-- Number of 64-bit limbs. -/
  nlimbs : Nat
  /-- The integer stored. -/
  val : Nat
  val_lt : val < 2 ^ (64 * nlimbs)
  deriving DecidableEq

namespace BoxedUint

/-- `bits_precision`: the width of the limbs. -/
def bitsPrecision (x : BoxedUint) : Nat := 64 * x.nlimbs

/-- Limbs of an integer of at least `bits` bits of precision (rounded up to whole limbs). -/
def limbsFor (bits : Nat) : Nat := (bits + 63) / 64

/-- The low limbs of `val`: what a wrapping operation keeps. -/
def truncate (nlimbs val : Nat) : BoxedUint :=
  ⟨nlimbs, val % 2 ^ (64 * nlimbs), Nat.mod_lt _ (Nat.two_pow_pos _)⟩

/-- `BoxedUint::one_with_precision`. -/
def oneWithPrecision (bits : Nat) : BoxedUint := truncate (limbsFor bits) 1

/-- `BoxedUint::one()`: one limb. -/
def one : BoxedUint := oneWithPrecision 64

/-- `BoxedUint::from(u64)`: one limb. -/
def ofU64 (value : UInt64) : BoxedUint := ⟨1, value.toNat, value.toNat_lt_size⟩

/-- `bits`: the bit length of the value. -/
def bits (x : BoxedUint) : Nat := bitLength x.val

theorem val_lt_pow_of_le {x : BoxedUint} {bits : Nat} (le : x.bitsPrecision ≤ bits) :
    x.val < 2 ^ (64 * limbsFor bits) :=
  lt_of_lt_of_le x.val_lt
    (Nat.pow_le_pow_right (by norm_num) (by unfold bitsPrecision at le; unfold limbsFor; omega))

/-- A non-zero value has a limb. -/
theorem one_le_nlimbs {x : BoxedUint} (nonzero : x.val ≠ 0) : 1 ≤ x.nlimbs := by
  rcases Nat.eq_zero_or_pos x.nlimbs with none | some
  · have := x.val_lt
    simp only [none, Nat.mul_zero, pow_zero, Nat.lt_one_iff] at this
    exact absurd this nonzero
  · exact some

/-- `widen`: the same value in more limbs; asserts that the precision does not shrink. -/
def widen (x : BoxedUint) (bits : Nat) : Outcome BoxedUint :=
  if le : x.bitsPrecision ≤ bits then .ok ⟨limbsFor bits, x.val, val_lt_pow_of_le le⟩
  else .abort

/-- `shorten`: the low limbs only; asserts that the precision does not grow. -/
def shorten (x : BoxedUint) (bits : Nat) : Outcome BoxedUint :=
  if bits ≤ x.bitsPrecision then .ok (truncate (limbsFor bits) x.val) else .abort

/-- `wrapping_mul`: the product, wrapped to the width of `self`. -/
def wrappingMul (x y : BoxedUint) : BoxedUint := truncate x.nlimbs (x.val * y.val)

/-- `wrapping_sub`: the difference modulo the wider of the two widths. -/
def wrappingSub (x y : BoxedUint) : BoxedUint :=
  let nlimbs := max x.nlimbs y.nlimbs
  truncate nlimbs (x.val + (2 ^ (64 * nlimbs) - y.val))

/-- `to_be_bytes`: every limb, most significant byte first. -/
def toBeBytes (x : BoxedUint) : List UInt8 := beBytes (8 * x.nlimbs) x.val

/-- `BoxedUint::zero()`: zero in one limb. -/
def zero : BoxedUint := ⟨1, 0, Nat.two_pow_pos _⟩

/-- A value of at most `bits` bits fits the limbs of that precision. -/
theorem lt_two_pow_limbsFor {value bits : Nat} (fits : bitLength value ≤ bits) :
    value < 2 ^ (64 * limbsFor bits) :=
  lt_of_lt_of_le (bitLength_le_iff.mp fits)
    (Nat.pow_le_pow_right (by norm_num) (by unfold limbsFor; omega))

/-- `from_be_slice`: the big-endian value of the bytes, in the limbs of the precision rounded up
to whole limbs. More bytes than the precision rounded up to whole bytes, or a value wider than
the precision, is a decode error (`None`); no bytes at no precision are `zero()`. -/
def fromBeSlice (bytes : List UInt8) (bitsPrecision : Nat) : Option BoxedUint :=
  if bytes.isEmpty ∧ bitsPrecision = 0 then some zero
  else if bytes.length ≤ (bitsPrecision + 7) / 8 then
    if fits : bitLength (beValue bytes) ≤ bitsPrecision then
      some ⟨limbsFor bitsPrecision, beValue bytes, lt_two_pow_limbsFor fits⟩
    else none
  else none

@[simp] theorem val_truncate (nlimbs val : Nat) :
    (truncate nlimbs val).val = val % 2 ^ (64 * nlimbs) := rfl

@[simp] theorem nlimbs_truncate (nlimbs val : Nat) : (truncate nlimbs val).nlimbs = nlimbs := rfl

@[simp] theorem val_wrappingMul (x y : BoxedUint) :
    (x.wrappingMul y).val = x.val * y.val % 2 ^ (64 * x.nlimbs) := rfl

@[simp] theorem nlimbs_wrappingMul (x y : BoxedUint) : (x.wrappingMul y).nlimbs = x.nlimbs := rfl

@[simp] theorem nlimbs_wrappingSub (x y : BoxedUint) :
    (x.wrappingSub y).nlimbs = max x.nlimbs y.nlimbs := rfl

/-- Subtracting a smaller value does not wrap. -/
theorem val_wrappingSub_of_le {x y : BoxedUint} (le : y.val ≤ x.val) :
    (x.wrappingSub y).val = x.val - y.val := by
  have below : x.val < 2 ^ (64 * max x.nlimbs y.nlimbs) :=
    lt_of_lt_of_le x.val_lt (Nat.pow_le_pow_right (by norm_num) (by omega))
  have bound : y.val < 2 ^ (64 * max x.nlimbs y.nlimbs) := lt_of_le_of_lt le below
  simp only [wrappingSub, val_truncate]
  rw [show x.val + (2 ^ (64 * max x.nlimbs y.nlimbs) - y.val) =
      (x.val - y.val) + 2 ^ (64 * max x.nlimbs y.nlimbs) by omega, Nat.add_mod_right,
    Nat.mod_eq_of_lt (by omega)]

@[simp] theorem val_one : one.val = 1 := rfl

@[simp] theorem nlimbs_one : one.nlimbs = 1 := rfl

@[simp] theorem val_ofU64 (value : UInt64) : (ofU64 value).val = value.toNat := rfl

@[simp] theorem nlimbs_ofU64 (value : UInt64) : (ofU64 value).nlimbs = 1 := rfl

/-- `x - 1` by `wrapping_sub` keeps the limbs of an `x` of at least one limb. -/
theorem nlimbs_wrappingSub_one {x : BoxedUint} (wide : 1 ≤ x.nlimbs) :
    (x.wrappingSub one).nlimbs = x.nlimbs := by
  rw [nlimbs_wrappingSub, nlimbs_one]
  omega

/-- `x - 1` by `wrapping_sub`, for a positive `x`. -/
theorem val_wrappingSub_one {x : BoxedUint} (positive : 0 < x.val) :
    (x.wrappingSub one).val = x.val - 1 := by
  rw [val_wrappingSub_of_le (by rw [val_one]; omega), val_one]

theorem widen_eq {x : BoxedUint} {bits : Nat} (le : x.bitsPrecision ≤ bits) :
    x.widen bits = .ok ⟨limbsFor bits, x.val, val_lt_pow_of_le le⟩ := by
  simp [widen, le]

theorem widen_eq_ok {x y : BoxedUint} {bits : Nat} (widened : x.widen bits = .ok y) :
    y.val = x.val ∧ y.nlimbs = limbsFor bits ∧ x.bitsPrecision ≤ bits := by
  unfold widen at widened
  split_ifs at widened with le
  cases widened
  exact ⟨rfl, rfl, le⟩

@[simp] theorem limbsFor_mul_sixty_four (nlimbs : Nat) : limbsFor (64 * nlimbs) = nlimbs := by
  unfold limbsFor
  omega

@[simp] theorem val_toBeBytes (x : BoxedUint) : beValue x.toBeBytes = x.val := by
  rw [toBeBytes, beValue_beBytes, Nat.mod_eq_of_lt]
  calc x.val < 2 ^ (64 * x.nlimbs) := x.val_lt
    _ = 256 ^ (8 * x.nlimbs) := by rw [pow_mul, pow_mul]; norm_num

/-- Bytes no wider than the precision decode to their big-endian value, in the limbs of the
precision, and in one limb at no precision. -/
theorem fromBeSlice_of_fits {bytes : List UInt8} {bits : Nat} (fits : bytes.length * 8 ≤ bits) :
    ∃ x, fromBeSlice bytes bits = some x ∧ x.val = beValue bytes ∧
      x.nlimbs = max 1 (limbsFor bits) := by
  by_cases empty : bytes.isEmpty ∧ bits = 0
  · obtain ⟨empty, rfl⟩ := empty
    rw [List.isEmpty_iff.mp empty]
    exact ⟨zero, rfl, rfl, rfl⟩
  have value : bitLength (beValue bytes) ≤ bits :=
    bitLength_le_iff.mpr (calc beValue bytes < 256 ^ bytes.length := beValue_lt bytes
      _ = 2 ^ (bytes.length * 8) := by rw [pow_mul']; norm_num
      _ ≤ 2 ^ bits := Nat.pow_le_pow_right (by norm_num) fits)
  have positive : 0 < bits := Nat.pos_of_ne_zero fun zero =>
    empty ⟨List.isEmpty_iff.mpr (List.eq_nil_of_length_eq_zero (by omega)), zero⟩
  refine ⟨⟨limbsFor bits, beValue bytes, lt_two_pow_limbsFor value⟩, ?_, rfl,
    show limbsFor bits = _ by unfold limbsFor; omega⟩
  rw [fromBeSlice, if_neg empty, if_pos (by omega), dif_pos value]

/-- `from_be_slice` refuses more bytes than the precision rounded up to whole bytes. -/
theorem fromBeSlice_of_long {bytes : List UInt8} {bits : Nat}
    (long : (bits + 7) / 8 < bytes.length) :
    fromBeSlice bytes bits = none := by
  have nonempty : ¬ (bytes.isEmpty ∧ bits = 0) := fun ⟨empty, _⟩ => by
    rw [List.isEmpty_iff.mp empty] at long
    cases long
  rw [fromBeSlice, if_neg nonempty, if_neg (by omega)]

/-- Whatever `from_be_slice` decodes is the big-endian value of the bytes. -/
theorem val_of_fromBeSlice {bytes : List UInt8} {bitsPrecision : Nat} {x : BoxedUint}
    (decoded : fromBeSlice bytes bitsPrecision = some x) : x.val = beValue bytes := by
  unfold fromBeSlice at decoded
  split_ifs at decoded with empty <;> cases decoded
  · simp [List.isEmpty_iff.mp empty.1, zero, beValue]
  · rfl

end BoxedUint

/-- crypto-bigint's `NonZero<BoxedUint>`. -/
structure NonZero where
  /-- The wrapped integer. -/
  get : BoxedUint
  get_ne_zero : get.val ≠ 0
  deriving DecidableEq

/-- `NonZero::new`: `None` for zero. -/
def NonZero.new (x : BoxedUint) : Option NonZero :=
  if h : x.val = 0 then none else some ⟨x, h⟩

theorem NonZero.new_of_ne_zero {x : BoxedUint} (h : x.val ≠ 0) : NonZero.new x = some ⟨x, h⟩ := by
  simp [NonZero.new, h]

@[simp] theorem NonZero.new_eq_none_iff {x : BoxedUint} : NonZero.new x = none ↔ x.val = 0 := by
  unfold NonZero.new
  split_ifs with h <;> simp [h]

theorem NonZero.get_of_new {x : BoxedUint} {y : NonZero} (wrapped : NonZero.new x = some y) :
    y.get = x := by
  unfold NonZero.new at wrapped
  split_ifs at wrapped
  cases wrapped
  rfl

namespace BoxedUint

/-- `rem_vartime`: the remainder, in the precision of `self`; the precisions must agree. -/
def remVartime (x : BoxedUint) (modulus : NonZero) : Outcome BoxedUint :=
  if x.nlimbs = modulus.get.nlimbs then
    .ok ⟨x.nlimbs, x.val % modulus.get.val, lt_of_le_of_lt (Nat.mod_le _ _) x.val_lt⟩
  else .abort

theorem remVartime_eq {x : BoxedUint} {modulus : NonZero} (same : x.nlimbs = modulus.get.nlimbs) :
    x.remVartime modulus =
      .ok ⟨x.nlimbs, x.val % modulus.get.val, lt_of_le_of_lt (Nat.mod_le _ _) x.val_lt⟩ := by
  simp [remVartime, same]

theorem val_of_remVartime {x r : BoxedUint} {modulus : NonZero}
    (done : x.remVartime modulus = .ok r) : r.val = x.val % modulus.get.val := by
  unfold remVartime at done
  split_ifs at done
  cases done
  rfl

/-- crypto-bigint's `inv_mod`: the inverse of `x` below `modulus`, at the precision of the
modulus; `None` when there is none. -/
def invMod (x modulus : BoxedUint) : Option BoxedUint :=
  match found : modInverse x.val modulus.val with
  | none => none
  | some inverse =>
      if positive : 0 < modulus.val then
        some ⟨modulus.nlimbs, inverse, (modInverse_lt found positive).trans modulus.val_lt⟩
      else none

/-- Modulo a positive number, `inv_mod` computes `modInverse`. -/
theorem invMod_map_val {x modulus : BoxedUint} (positive : 0 < modulus.val) :
    (x.invMod modulus).map val = modInverse x.val modulus.val := by
  unfold invMod
  split <;> simp_all

end BoxedUint

/-- crypto-bigint's `BoxedResidueParams`: the context of an odd modulus. -/
structure BoxedResidueParams where
  /-- The modulus. -/
  modulus : BoxedUint
  modulus_odd : modulus.val % 2 = 1
  deriving DecidableEq

namespace BoxedResidueParams

/-- `BoxedResidueParams::new`: `None` unless the modulus is odd. -/
def new (modulus : BoxedUint) : Option BoxedResidueParams :=
  if h : modulus.val % 2 = 1 then some ⟨modulus, h⟩ else none

/-- `bits_precision`: that of the modulus. -/
def bitsPrecision (params : BoxedResidueParams) : Nat := params.modulus.bitsPrecision

theorem modulus_pos (params : BoxedResidueParams) : 0 < params.modulus.val := by
  have := params.modulus_odd
  omega

theorem new_of_odd {modulus : BoxedUint} (odd : modulus.val % 2 = 1) :
    new modulus = some ⟨modulus, odd⟩ := by
  simp [new, odd]

theorem modulus_of_new {modulus : BoxedUint} {params : BoxedResidueParams}
    (built : new modulus = some params) : params.modulus = modulus := by
  unfold new at built
  split_ifs at built
  cases built
  rfl

@[simp] theorem new_eq_none_iff {modulus : BoxedUint} : new modulus = none ↔ modulus.val % 2 = 0 := by
  unfold new
  split_ifs with h
  · simp only [reduceCtorEq, false_iff]
    omega
  · simp only [true_iff]
    omega

end BoxedResidueParams

/-- crypto-bigint's `BoxedResidue`: an integer modulo the modulus of its parameters, kept as the
least non-negative residue (`retrieve` returns it). -/
structure BoxedResidue where
  /-- The modulus context. -/
  params : BoxedResidueParams
  /-- The residue. -/
  value : Nat
  value_lt : value < params.modulus.val
  deriving DecidableEq

namespace BoxedResidue

/-- `BoxedResidue::new`: the residue of `integer`; the precisions must agree. -/
def new (integer : BoxedUint) (params : BoxedResidueParams) : Outcome BoxedResidue :=
  if integer.nlimbs = params.modulus.nlimbs then
    .ok ⟨params, integer.val % params.modulus.val, Nat.mod_lt _ params.modulus_pos⟩
  else .abort

/-- `retrieve`: the residue as an integer of the precision of the modulus. -/
def retrieve (residue : BoxedResidue) : BoxedUint :=
  ⟨residue.params.modulus.nlimbs, residue.value,
    lt_trans residue.value_lt residue.params.modulus.val_lt⟩

/-- `invert`: the inverse residue, `None` when the residue is not a unit. -/
def invert (residue : BoxedResidue) : Option BoxedResidue :=
  match found : modInverse residue.value residue.params.modulus.val with
  | none => none
  | some inverse => some ⟨residue.params, inverse, modInverse_lt found residue.params.modulus_pos⟩

theorem new_eq {integer : BoxedUint} {params : BoxedResidueParams}
    (same : integer.nlimbs = params.modulus.nlimbs) :
    new integer params =
      .ok ⟨params, integer.val % params.modulus.val, Nat.mod_lt _ params.modulus_pos⟩ := by
  simp [new, same]

theorem new_eq_ok {integer : BoxedUint} {params : BoxedResidueParams} {residue : BoxedResidue}
    (done : new integer params = .ok residue) :
    residue.params = params ∧ residue.value = integer.val % params.modulus.val := by
  unfold new at done
  split_ifs at done
  cases done
  exact ⟨rfl, rfl⟩

theorem invert_eq_none_iff {residue : BoxedResidue} :
    residue.invert = none ↔ ¬ Nat.Coprime residue.value residue.params.modulus.val := by
  rw [← modInverse_eq_none_iff]
  unfold invert
  split <;> simp_all

theorem invert_eq_some {residue inverse : BoxedResidue} (inverted : residue.invert = some inverse) :
    inverse.params = residue.params ∧
      modInverse residue.value residue.params.modulus.val = some inverse.value := by
  unfold invert at inverted
  split at inverted
  · cases inverted
  · cases inverted
    exact ⟨rfl, by assumption⟩

end BoxedResidue

end RsaKeys
