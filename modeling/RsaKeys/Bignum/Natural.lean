import Mathlib.Data.Int.GCD
import Mathlib.Data.Nat.ModEq
import Mathlib.Data.UInt
import Mathlib.Tactic.Ring
import RsaKeys.Outcome

/-!
# Unbounded integers

num-bigint's `BigUint` is a natural number. This file gives the three operations the library
uses on it beyond arithmetic: the bit length (`bits`), the minimal big-endian byte string
(`to_bytes_be` / `from_bytes_be`), and the modular inverse (`mod_inverse`, and crypto-bigint's
`invert` on residues). All three recurse structurally, on a step count or a width, so that the
kernel evaluates them on numerals.
-/

namespace RsaKeys

/-! ## Bit length -/

/-- Halve until zero, counting the halvings; `fuel` only bounds the recursion. -/
def bitsAux : Nat → Nat → Nat
  | 0, _ => 0
  | fuel + 1, x => if x = 0 then 0 else bitsAux fuel (x / 2) + 1

/-- `BigUint::bits` and `BoxedUint::bits`: the number of significant bits, `0` for zero. -/
def bitLength (x : Nat) : Nat := bitsAux x x

theorem bitsAux_le_iff {fuel x : Nat} (enough : x ≤ fuel) (k : Nat) :
    bitsAux fuel x ≤ k ↔ x < 2 ^ k := by
  induction fuel generalizing x k with
  | zero =>
      obtain rfl : x = 0 := by omega
      simp [bitsAux]
  | succ fuel ih =>
      by_cases zero : x = 0
      · simp [bitsAux, zero]
      · rw [bitsAux, if_neg zero]
        cases k with
        | zero => simp; omega
        | succ k =>
            rw [Nat.add_le_add_iff_right, ih (by omega), pow_succ, Nat.div_lt_iff_lt_mul (by norm_num)]

/-- The defining property of the bit length. -/
theorem bitLength_le_iff {x k : Nat} : bitLength x ≤ k ↔ x < 2 ^ k :=
  bitsAux_le_iff le_rfl k

theorem lt_bitLength_iff {x k : Nat} : k < bitLength x ↔ 2 ^ k ≤ x := by
  rw [← not_le, bitLength_le_iff, not_lt]

theorem lt_two_pow_bitLength (x : Nat) : x < 2 ^ bitLength x :=
  bitLength_le_iff.mp le_rfl

theorem bitLength_eq_succ_iff {x b : Nat} : bitLength x = b + 1 ↔ 2 ^ b ≤ x ∧ x < 2 ^ (b + 1) := by
  rw [← lt_bitLength_iff, ← bitLength_le_iff]
  omega

@[simp] theorem bitLength_zero : bitLength 0 = 0 := rfl

/-! ## Big-endian bytes -/

/-- One step of `BigUint::from_bytes_be`: shift in the next byte. -/
def beStep (acc : Nat) (byte : UInt8) : Nat := 256 * acc + byte.toNat

/-- `BigUint::from_bytes_be`: the big-endian value of a byte string. -/
def beValue (bytes : List UInt8) : Nat := bytes.foldl beStep 0

/-- The `width` low bytes of `x`, most significant first. -/
def beBytes : Nat → Nat → List UInt8
  | 0, _ => []
  | width + 1, x => beBytes width (x / 256) ++ [UInt8.ofNat (x % 256)]

/-- Number of bytes of `BigUint::to_bytes_be`: one for zero, else the bytes of the bit length. -/
def byteLength (x : Nat) : Nat := max 1 ((bitLength x + 7) / 8)

/-- `BigUint::to_bytes_be`: the minimal big-endian encoding, `[0]` for zero. -/
def toBytesBe (x : Nat) : List UInt8 := beBytes (byteLength x) x

theorem foldl_beStep (acc : Nat) (bytes : List UInt8) :
    bytes.foldl beStep acc = acc * 256 ^ bytes.length + beValue bytes := by
  induction bytes generalizing acc with
  | nil => simp [beValue]
  | cons byte bytes ih =>
      have head : beValue (byte :: bytes) = beStep 0 byte * 256 ^ bytes.length + beValue bytes :=
        ih (beStep 0 byte)
      rw [List.foldl_cons, ih, head, List.length_cons]
      simp only [beStep]
      ring

@[simp] theorem beValue_nil : beValue [] = 0 := rfl

theorem beValue_append (front back : List UInt8) :
    beValue (front ++ back) = beValue front * 256 ^ back.length + beValue back := by
  rw [beValue, List.foldl_append, foldl_beStep]
  rfl

@[simp] theorem beValue_append_singleton (bytes : List UInt8) (byte : UInt8) :
    beValue (bytes ++ [byte]) = 256 * beValue bytes + byte.toNat := by
  rw [beValue_append]
  simp [beValue, beStep, Nat.mul_comm]

theorem beValue_lt (bytes : List UInt8) : beValue bytes < 256 ^ bytes.length := by
  induction bytes using List.reverseRecOn with
  | nil => simp
  | append_singleton bytes byte ih =>
      have byte_lt : byte.toNat < 256 := byte.toNat_lt_size
      simp only [beValue_append_singleton, List.length_append, List.length_singleton, pow_succ]
      omega

@[simp] theorem beValue_replicate_zero (count : Nat) : beValue (List.replicate count 0) = 0 := by
  induction count with
  | zero => rfl
  | succ count ih => rw [List.replicate_succ', beValue_append_singleton, ih]; rfl

/-- Leading zero bytes do not change the value. -/
theorem beValue_zeros_append (count : Nat) (bytes : List UInt8) :
    beValue (List.replicate count 0 ++ bytes) = beValue bytes := by
  simp [beValue_append]

@[simp] theorem length_beBytes (width x : Nat) : (beBytes width x).length = width := by
  induction width generalizing x with
  | zero => rfl
  | succ width ih => simp [beBytes, ih]

theorem beValue_beBytes (width x : Nat) : beValue (beBytes width x) = x % 256 ^ width := by
  induction width generalizing x with
  | zero => simp [beBytes, Nat.mod_one]
  | succ width ih =>
      have low : (UInt8.ofNat (x % 256)).toNat = x % 256 := Nat.mod_mod x 256
      rw [beBytes, beValue_append_singleton, ih, low, pow_succ', Nat.mod_mul]
      ring

theorem bitLength_two_pow_sub_one (k : Nat) : bitLength (2 ^ k - 1) = k := by
  rcases k with _ | k
  · rfl
  · have : 1 ≤ 2 ^ k := Nat.one_le_two_pow
    rw [bitLength_eq_succ_iff, pow_succ]
    omega

theorem byteLength_pos (x : Nat) : 0 < byteLength x := by
  simp [byteLength]

theorem lt_pow_byteLength (x : Nat) : x < 256 ^ byteLength x := by
  calc x < 2 ^ bitLength x := lt_two_pow_bitLength x
    _ ≤ 2 ^ (8 * byteLength x) := Nat.pow_le_pow_right (by norm_num) (by simp [byteLength]; omega)
    _ = 256 ^ byteLength x := by rw [pow_mul]; norm_num

@[simp] theorem length_toBytesBe (x : Nat) : (toBytesBe x).length = byteLength x :=
  length_beBytes _ _

/-- `BigUint::from_bytes_be` inverts `BigUint::to_bytes_be`. -/
@[simp] theorem beValue_toBytesBe (x : Nat) : beValue (toBytesBe x) = x := by
  rw [toBytesBe, beValue_beBytes, Nat.mod_eq_of_lt (lt_pow_byteLength x)]

/-! ## Modular inverse -/

/-- Extended Euclid on the remainders `r, r'` with their coefficients `s, s'` of the number being
inverted: returns the last non-zero remainder and its coefficient. `fuel` bounds the steps. -/
def xgcdAux : Nat → Nat → Nat → Int → Int → Nat × Int
  | 0, r, _, s, _ => (r, s)
  | fuel + 1, r, r', s, s' =>
      if r' = 0 then (r, s) else xgcdAux fuel r' (r % r') s' (s - ((r / r' : Nat) : Int) * s')

/-- The inverse of `a` modulo `m` when `gcd a m = 1`: the value of num-bigint's `mod_inverse`
and crypto-bigint's `invert`, reduced below the modulus. -/
def modInverse (a m : Nat) : Option Nat :=
  let bezout := xgcdAux (m + 1) a m 1 0
  if bezout.1 = 1 then some (bezout.2 % (m : Int)).toNat else none

/-- Euclid's invariant: each remainder is its coefficient times `a`, modulo `m`, and the
remainders keep the gcd. -/
theorem xgcdAux_spec (a m : Nat) {fuel r r' : Nat} {s s' : Int} (enough : r' < fuel)
    (hs : (r : Int) ≡ s * a [ZMOD m]) (hs' : (r' : Int) ≡ s' * a [ZMOD m]) :
    (xgcdAux fuel r r' s s').1 = Nat.gcd r r' ∧
      ((xgcdAux fuel r r' s s').1 : Int) ≡ (xgcdAux fuel r r' s s').2 * a [ZMOD m] := by
  induction fuel generalizing r r' s s' with
  | zero => omega
  | succ fuel ih =>
      rw [xgcdAux]
      split_ifs with zero
      · subst zero
        simpa using hs
      · have step : ((r % r' : Nat) : Int) ≡ (s - ((r / r' : Nat) : Int) * s') * a [ZMOD m] := by
          have split : ((r % r' : Nat) : Int) = r - ((r / r' : Nat) : Int) * r' := by
            push_cast
            rw [Int.emod_def]
            ring
          rw [split, sub_mul, mul_assoc]
          exact Int.ModEq.sub hs (Int.ModEq.mul_left _ hs')
        obtain ⟨gcd_eq, modeq⟩ := ih (Nat.lt_of_lt_of_le (Nat.mod_lt r (by omega)) (by omega))
          hs' step
        refine ⟨?_, modeq⟩
        rw [gcd_eq, Nat.gcd_comm r r', Nat.gcd_rec r' r, Nat.gcd_comm]

theorem xgcdAux_start (a m : Nat) :
    (xgcdAux (m + 1) a m 1 0).1 = Nat.gcd a m ∧
      ((xgcdAux (m + 1) a m 1 0).1 : Int) ≡ (xgcdAux (m + 1) a m 1 0).2 * a [ZMOD m] :=
  xgcdAux_spec a m (Nat.lt_succ_self m) (by simp [Int.ModEq]) (by simp [Int.ModEq])

/-- The inverse exists exactly for a unit. -/
theorem modInverse_isSome_iff {a m : Nat} : (modInverse a m).isSome ↔ Nat.Coprime a m := by
  simp only [modInverse, Nat.Coprime, ← (xgcdAux_start a m).1]
  split_ifs with one <;> simp [one]

theorem modInverse_eq_none_iff {a m : Nat} : modInverse a m = none ↔ ¬ Nat.Coprime a m := by
  rw [← modInverse_isSome_iff, Option.not_isSome_iff_eq_none]

/-- The inverse inverts. -/
theorem mul_modInverse {a m x : Nat} (found : modInverse a m = some x) : a * x ≡ 1 [MOD m] := by
  obtain ⟨-, modeq⟩ := xgcdAux_start a m
  simp only [modInverse] at found
  split_ifs at found with one
  obtain rfl := Option.some.inj found
  rw [one, Nat.cast_one] at modeq
  set s := (xgcdAux (m + 1) a m 1 0).2
  have nonneg : 0 ≤ s % (m : Int) := by
    rcases Nat.eq_zero_or_pos m with rfl | positive
    · have unit : (1 : Int) = s * a := by simpa [Int.ModEq] using modeq
      have : 0 ≤ (a : Int) := Int.natCast_nonneg a
      simp only [Nat.cast_zero, Int.emod_zero]
      nlinarith
    · exact Int.emod_nonneg _ (by omega)
  rw [← Int.natCast_modEq_iff, Nat.cast_mul, Nat.cast_one, Int.toNat_of_nonneg nonneg]
  calc (a : Int) * (s % m) ≡ a * s [ZMOD m] := Int.ModEq.mul_left _ (Int.mod_modEq s m)
    _ = s * a := mul_comm _ _
    _ ≡ 1 [ZMOD m] := modeq.symm

theorem modInverse_lt {a m x : Nat} (found : modInverse a m = some x) (positive : 0 < m) :
    x < m := by
  simp only [modInverse] at found
  split_ifs at found
  obtain rfl := Option.some.inj found
  have := Int.emod_lt_of_pos (xgcdAux (m + 1) a m 1 0).2 (by omega : (0 : Int) < m)
  omega

/-- A number with an inverse modulo `m` is a unit modulo `m`. -/
theorem coprime_of_mul_modEq_one {a m x : Nat} (inverts : a * x ≡ 1 [MOD m]) : Nat.Coprime a m :=
  Nat.Coprime.coprime_mul_right (by simpa [Nat.Coprime] using inverts.gcd_eq)

/-- Below a positive modulus the inverse is unique: `modInverse` finds exactly the number below
`m` that inverts `a`. -/
theorem modInverse_eq_some_iff {a m x : Nat} (positive : 0 < m) :
    modInverse a m = some x ↔ a * x ≡ 1 [MOD m] ∧ x < m := by
  refine ⟨fun found => ⟨mul_modInverse found, modInverse_lt found positive⟩,
    fun ⟨inverts, below⟩ => ?_⟩
  obtain ⟨y, found⟩ := Option.isSome_iff_exists.mp
    (modInverse_isSome_iff.mpr (coprime_of_mul_modEq_one inverts))
  have same : y ≡ x [MOD m] := calc
    y = y * 1 := (mul_one y).symm
    _ ≡ y * (a * x) [MOD m] := inverts.symm.mul_left y
    _ = a * y * x := by ring
    _ ≡ 1 * x [MOD m] := (mul_modInverse found).mul_right x
    _ = x := one_mul x
  rw [found, same.eq_of_lt_of_lt (modInverse_lt found positive) below]

end RsaKeys
