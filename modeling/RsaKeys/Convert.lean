import RsaKeys.Bignum.BoxedUint

/-!
# Conversions between the two integer types

The public constructors take num-bigint `BigUint`s and store crypto-bigint `BoxedUint`s. This
file models the adapters of `key.rs`: `needed_bits` (the ladder of precisions), `inner_to_uint`
(pad the big-endian bytes to whole limbs and decode them), `to_uint` (at least the ladder
precision), `to_uint_exact` (exactly a given precision, panicking when the value needs more) and
`to_biguint`, and `reduce`, which brings an integer of any precision to a residue.
-/

namespace RsaKeys

open BoxedUint

/-- `as u32`: the low 32 bits. -/
def asU32 (x : Nat) : Nat := x % 2 ^ 32

/-- `u32` multiplication; an overflow panics. -/
def checkedMulU32 (x y : Nat) : Outcome Nat :=
  if x * y < 2 ^ 32 then .ok (x * y) else .abort

/-- `BigUint::to_u64`. -/
def toU64 (x : Nat) : Option UInt64 :=
  if x < 2 ^ 64 then some (UInt64.ofNat x) else none

/-- `needed_bits`: the smallest rung of the ladder of precisions that holds the bit length. -/
def neededBits (n : Nat) : Nat :=
  let nBits := bitLength n
  if nBits ≤ 64 then 64
  else if nBits ≤ 128 then 128
  else if nBits ≤ 256 then 256
  else if nBits ≤ 512 then 512
  else if nBits ≤ 1024 then 1024
  else if nBits ≤ 2048 then 2048
  else if nBits ≤ 4096 then 4096
  else if nBits ≤ 8192 then 8192
  else 16384

/-- `to_biguint`: decode the big-endian bytes of every limb. -/
def toBiguint (uint : BoxedUint) : Nat := beValue uint.toBeBytes

/-- `inner_to_uint`: pad the big-endian bytes with leading zeros to whole limbs and decode them
at the precision of the padded bytes. -/
def innerToUint (bigUint : Nat) : Outcome BoxedUint := do
  let bytes := toBytesBe bigUint
  let rem := bytes.length % 8
  let padCount := if rem = 0 then 0 else 8 - rem
  let paddedBytes := List.replicate padCount 0 ++ bytes
  let bitsPrecision ← checkedMulU32 (asU32 paddedBytes.length) 8
  unwrap (BoxedUint.fromBeSlice paddedBytes bitsPrecision)

/-- `to_uint_exact`: exactly `nbits` of precision; a value that needs more panics. -/
def toUintExact (bigUint : Nat) (nbits : Nat) : Outcome BoxedUint := do
  let res ← innerToUint bigUint
  match compare res.bitsPrecision nbits with
  | .eq => pure res
  | .gt => .abort
  | .lt => res.widen nbits

/-- `to_uint`: at least the precision `needed_bits` chooses. -/
def toUint (bigUint : Nat) : Outcome BoxedUint := do
  let nbits := neededBits bigUint
  let res ← innerToUint bigUint
  if res.bitsPrecision < nbits then res.widen nbits else pure res

/-- `reduce`: bring `n` to the precision of the modulus, reduce it, and make it a residue. -/
def reduce (n : BoxedUint) (p : BoxedResidueParams) : Outcome BoxedResidue := do
  let bitsPrecision := p.modulus.bitsPrecision
  let modulus ← unwrap (NonZero.new p.modulus)
  let n ← match compare n.bitsPrecision bitsPrecision with
    | .lt => n.widen bitsPrecision
    | .eq => pure n
    | .gt => n.shorten bitsPrecision
  let nReduced ← (← n.remVartime modulus).widen p.bitsPrecision
  BoxedResidue.new nReduced p

/-! ## Specifications -/

@[simp] theorem toBiguint_eq (uint : BoxedUint) : toBiguint uint = uint.val :=
  val_toBeBytes uint

theorem toU64_eq {x : Nat} (small : x < 2 ^ 64) : toU64 x = some (UInt64.ofNat x) := by
  unfold toU64
  rw [if_pos small]

@[simp] theorem toNat_ofNat_of_lt {x : Nat} (small : x < 2 ^ 64) : (UInt64.ofNat x).toNat = x :=
  Nat.mod_eq_of_lt small

theorem toU64_eq_none_iff {x : Nat} : toU64 x = none ↔ 2 ^ 64 ≤ x := by
  unfold toU64
  split_ifs with h <;> simp <;> omega

/-- Limbs `inner_to_uint` decodes into: the bytes of the value, rounded up to whole limbs. -/
def innerLimbs (x : Nat) : Nat := (byteLength x + 7) / 8

theorem innerLimbs_pos (x : Nat) : 0 < innerLimbs x := by
  have := byteLength_pos x
  unfold innerLimbs
  omega

/-- A value of at most `64·k` bits takes at most `k` limbs. -/
theorem innerLimbs_le {x k : Nat} (one : 1 ≤ k) (bits : bitLength x ≤ 64 * k) :
    innerLimbs x ≤ k := by
  simp only [innerLimbs, byteLength]
  omega

theorem bitLength_le_innerLimbs (x : Nat) : bitLength x ≤ 64 * innerLimbs x := by
  simp only [innerLimbs, byteLength]
  omega

/-- The zeros `inner_to_uint` pads with round the bytes up to whole limbs. -/
theorem length_padded (x : Nat) :
    (if byteLength x % 8 = 0 then 0 else 8 - byteLength x % 8) + byteLength x =
      8 * innerLimbs x := by
  unfold innerLimbs; split_ifs <;> omega

/-- What `inner_to_uint` returns, as long as the padded bit count fits a `u32`. -/
theorem innerToUint_eq {x : Nat} (small : 64 * innerLimbs x < 2 ^ 32) :
    ∃ res, innerToUint x = .ok res ∧ res.val = x ∧ res.nlimbs = innerLimbs x := by
  have positive := innerLimbs_pos x
  have padded := length_padded x
  have bits : asU32 (8 * innerLimbs x) * 8 = 64 * innerLimbs x := by
    unfold asU32; rw [Nat.mod_eq_of_lt (by omega)]; ring
  obtain ⟨res, decoded, value, limbs⟩ := @fromBeSlice_of_fits
    (List.replicate (if byteLength x % 8 = 0 then 0 else 8 - byteLength x % 8) 0 ++
      toBytesBe x) (64 * innerLimbs x)
    (by simp only [List.length_append, List.length_replicate, length_toBytesBe, padded]; omega)
  refine ⟨res, ?_, by rw [value, beValue_zeros_append, beValue_toBytesBe],
    by rw [limbs, limbsFor_mul_sixty_four]; omega⟩
  simp only [innerToUint, List.length_append, List.length_replicate, length_toBytesBe, padded,
    checkedMulU32, bits, small, if_true, Outcome.ok_bind, decoded, unwrap_some]

/-- `inner_to_uint` panics once the padded bit count reaches `2 ^ 32`: the `u32` multiplication
overflows, or the cast has wrapped the length and `from_be_slice` refuses the bytes. -/
theorem innerToUint_abort {x : Nat} (wide : 2 ^ 32 ≤ 64 * innerLimbs x) :
    innerToUint x = .abort := by
  have length : (List.replicate (if byteLength x % 8 = 0 then 0 else 8 - byteLength x % 8) 0 ++
      toBytesBe x).length = 8 * innerLimbs x := by
    simp only [List.length_append, List.length_replicate, length_toBytesBe, length_padded]
  simp only [innerToUint, length_toBytesBe]
  rw [length]
  generalize List.replicate _ 0 ++ toBytesBe x = bytes at length ⊢
  unfold checkedMulU32
  split_ifs with fits
  · rw [Outcome.ok_bind, fromBeSlice_of_long (by rw [length]; omega), unwrap_none]
  · rfl

/-- `to_uint_exact` at a precision of whole limbs that holds the value. -/
theorem toUintExact_eq {x limbs : Nat} (fits : innerLimbs x ≤ limbs)
    (small : 64 * innerLimbs x < 2 ^ 32) :
    ∃ res, toUintExact x (64 * limbs) = .ok res ∧ res.val = x ∧ res.nlimbs = limbs := by
  obtain ⟨res, inner, value, nlimbs⟩ := innerToUint_eq small
  simp only [toUintExact, inner, Outcome.ok_bind, bitsPrecision, nlimbs]
  rcases Nat.lt_or_eq_of_le fits with lt | rfl
  · rw [compare_lt_iff_lt.mpr (by omega)]
    exact ⟨_, widen_eq (by rw [bitsPrecision, nlimbs]; omega), value, by simp⟩
  · rw [compare_eq_iff_eq.mpr rfl]
    exact ⟨res, rfl, value, nlimbs⟩

/-- `to_uint_exact` panics on a value wider than the precision asked for. -/
theorem toUintExact_abort {x limbs : Nat} (wide : limbs < innerLimbs x)
    (small : 64 * innerLimbs x < 2 ^ 32) : toUintExact x (64 * limbs) = .abort := by
  obtain ⟨res, inner, -, nlimbs⟩ := innerToUint_eq small
  simp only [toUintExact, inner, Outcome.ok_bind, bitsPrecision, nlimbs]
  rw [compare_gt_iff_gt.mpr (by omega)]

/-- Whatever `inner_to_uint` returns holds the value it was given. -/
theorem val_of_innerToUint {x : Nat} {res : BoxedUint} (inner : innerToUint x = .ok res) :
    res.val = x := by
  obtain ⟨bits, -, decoded⟩ := Outcome.bind_eq_ok.mp inner
  rw [val_of_fromBeSlice (unwrap_eq_ok.mp decoded), beValue_zeros_append, beValue_toBytesBe]

/-- Whatever `to_uint_exact` returns at a precision of whole limbs holds the value, in exactly
those limbs. -/
theorem toUintExact_eq_ok {x limbs : Nat} {res : BoxedUint}
    (exact : toUintExact x (64 * limbs) = .ok res) : res.val = x ∧ res.nlimbs = limbs := by
  obtain ⟨inner, decoded, fitted⟩ := Outcome.bind_eq_ok.mp exact
  have value := val_of_innerToUint decoded
  split at fitted
  · rename_i same
    cases fitted
    have precision := compare_eq_iff_eq.mp same
    exact ⟨value, by unfold bitsPrecision at precision; omega⟩
  · cases fitted
  · obtain ⟨widened, limbs, -⟩ := widen_eq_ok fitted
    exact ⟨widened.trans value, by simpa using limbs⟩

/-- `to_uint_exact` returns a value below `2 ^ (64·k)` in exactly `k` limbs, when `64·k` fits a
`u32`. -/
theorem toUintExact_of_lt {x k : Nat} (positive : 0 < k) (small : 64 * k < 2 ^ 32)
    (below : x < 2 ^ (64 * k)) :
    ∃ res, toUintExact x (64 * k) = .ok res ∧ res.val = x ∧ res.nlimbs = k :=
  have limbs := innerLimbs_le positive (bitLength_le_iff.mpr below)
  toUintExact_eq limbs (by omega)

/-- `to_uint_exact` panics on a value of `2 ^ (64·k)` or more. -/
theorem toUintExact_of_le {x k : Nat} (above : 2 ^ (64 * k) ≤ x) :
    toUintExact x (64 * k) = .abort := by
  have wide : k < innerLimbs x := by
    have := bitLength_le_innerLimbs x
    have := lt_bitLength_iff.mpr above
    omega
  by_cases fits : 64 * innerLimbs x < 2 ^ 32
  · exact toUintExact_abort wide fits
  · rw [toUintExact, innerToUint_abort (by omega), Outcome.abort_bind]

/-- `to_uint_exact` at a `u32` precision of whole limbs returns every value below `2 ^ nbits` at
exactly that precision, and panics on every value from `2 ^ nbits` on. -/
theorem toUintExact_outcome {x nbits : Nat} (positive : 0 < nbits) (multiple : nbits % 64 = 0)
    (small : nbits < 2 ^ 32) :
    (x < 2 ^ nbits →
      ∃ res, toUintExact x nbits = .ok res ∧ toBiguint res = x ∧ res.bitsPrecision = nbits) ∧
    (2 ^ nbits ≤ x → toUintExact x nbits = .abort) := by
  obtain ⟨k, rfl⟩ : ∃ k, nbits = 64 * k := ⟨nbits / 64, by omega⟩
  refine ⟨fun below => ?_, toUintExact_of_le⟩
  obtain ⟨res, exact, value, nlimbs⟩ := toUintExact_of_lt (by omega) small below
  exact ⟨res, exact, by rw [toBiguint_eq, value], by rw [bitsPrecision, nlimbs]⟩

theorem toUintExact_outcome_at_one_limb :
    (∃ res, toUintExact 27 64 = .ok res ∧ toBiguint res = 27 ∧ res.bitsPrecision = 64) ∧
      toUintExact (2 ^ 64) 64 = .abort :=
  ⟨(toUintExact_outcome (by decide) (by decide) (by decide)).1 (by decide),
    (toUintExact_outcome (by decide) (by decide) (by decide)).2 le_rfl⟩

/-- What holds of both branches of an if-then-else holds of the whole. -/
theorem ite_of_branches {c : Prop} [Decidable c] {a b : Nat} (P : Nat → Prop) (yes : P a)
    (no : P b) : P (if c then a else b) := by
  split <;> assumption

/-- Every rung of the ladder is a positive multiple of a limb. -/
theorem neededBits_rung (x : Nat) : 64 ≤ neededBits x ∧ neededBits x % 64 = 0 := by
  dsimp only [neededBits]
  repeat' apply ite_of_branches (fun r => 64 ≤ r ∧ r % 64 = 0)
  all_goals decide

theorem neededBits_le (x : Nat) : neededBits x ≤ 16384 := by
  dsimp only [neededBits]
  repeat' apply ite_of_branches (fun r => r ≤ 16384)
  all_goals decide

/-- One rung of the ladder holds a bit length it is chosen for, and passes a longer one on. -/
theorem le_ite_rung {b r rest : Nat} (next : ¬ b ≤ r → b ≤ rest) :
    b ≤ if b ≤ r then r else rest := by
  split
  · assumption
  · exact next ‹_›

/-- Up to `16384` bits the ladder holds the value. -/
theorem neededBits_of_small {x : Nat} (small : bitLength x ≤ 16384) :
    bitLength x ≤ neededBits x := by
  dsimp only [neededBits]
  repeat' apply le_ite_rung; intro
  exact small

/-- Beyond `16384` bits the ladder stops at its top rung. -/
theorem neededBits_of_wide {x : Nat} (wide : 16384 < bitLength x) : neededBits x = 16384 := by
  dsimp only [neededBits]
  iterate 8 rw [if_neg (by omega)]

/-- Limbs `to_uint` stores a value in: the larger of the decoded limbs and the ladder rung. -/
def uintLimbs (x : Nat) : Nat := max (innerLimbs x) (neededBits x / 64)

/-- What `to_uint` returns. -/
theorem toUint_eq {x : Nat} (small : 64 * innerLimbs x < 2 ^ 32) :
    ∃ res, toUint x = .ok res ∧ res.val = x ∧ res.nlimbs = uintLimbs x := by
  obtain ⟨res, inner, value, nlimbs⟩ := innerToUint_eq small
  have rung := (neededBits_rung x).2
  simp only [toUint, inner, Outcome.ok_bind, bitsPrecision, nlimbs]
  split_ifs with lt
  · refine ⟨_, widen_eq (by rw [bitsPrecision, nlimbs]; omega), value, ?_⟩
    simp only [uintLimbs, limbsFor]
    omega
  · exact ⟨res, rfl, value, by simp only [uintLimbs]; omega⟩

/-- `to_uint` converts every value of at most `2 ^ 32 - 64` bits. -/
theorem toUint_of_narrow {x : Nat} (size : bitLength x ≤ 2 ^ 32 - 64) :
    ∃ res, toUint x = .ok res ∧ res.val = x ∧ res.nlimbs = uintLimbs x :=
  toUint_eq (by simp only [innerLimbs, byteLength]; omega)

/-- `to_uint` panics on a value of more than `2 ^ 32 - 64` bits, in `inner_to_uint`. -/
theorem toUint_abort {x : Nat} (wide : 2 ^ 32 - 64 < bitLength x) : toUint x = .abort := by
  have limbs : 2 ^ 32 ≤ 64 * innerLimbs x := by
    simp only [innerLimbs, byteLength]
    omega
  simp only [toUint, innerToUint_abort limbs, Outcome.abort_bind]

/-- `to_uint` panics on `2 ^ (2 ^ 32) - 1`, a value of `2 ^ 32` bits. -/
theorem toUint_aborts_on_wide_value : toUint (2 ^ 2 ^ 32 - 1) = .abort :=
  toUint_abort (by rw [bitLength_two_pow_sub_one]; norm_num)

theorem one_le_uintLimbs (x : Nat) : 1 ≤ uintLimbs x := by
  have := (neededBits_rung x).1
  simp only [uintLimbs]
  omega

theorem bitLength_le_uintLimbs (x : Nat) : bitLength x ≤ 64 * uintLimbs x :=
  (bitLength_le_innerLimbs x).trans (Nat.mul_le_mul_left 64 (le_max_left _ _))

theorem lt_two_pow_uintLimbs (x : Nat) : x < 2 ^ (64 * uintLimbs x) :=
  lt_of_lt_of_le (lt_two_pow_bitLength x)
    (Nat.pow_le_pow_right (by norm_num) (bitLength_le_uintLimbs x))

/-- A value below `2 ^ (64 * uintLimbs n)`, for an `n` that `to_uint` converts, fits those limbs,
and its padded bit count fits a `u32`. -/
theorem fits_uintLimbs {n x : Nat} (size : bitLength n ≤ 2 ^ 32 - 64)
    (below : x < 2 ^ (64 * uintLimbs n)) :
    innerLimbs x ≤ uintLimbs n ∧ 64 * innerLimbs x < 2 ^ 32 := by
  have limbs : innerLimbs x ≤ uintLimbs n :=
    innerLimbs_le (one_le_uintLimbs n) (bitLength_le_iff.mpr below)
  have nLimbs : innerLimbs n ≤ 2 ^ 26 - 1 := innerLimbs_le (by norm_num) (by omega)
  have rung := neededBits_le n
  refine ⟨limbs, ?_⟩
  simp only [uintLimbs] at limbs
  omega

/-- Up to `16384` bits `to_uint` stores a value at the rung of the ladder. -/
theorem uintLimbs_of_small {x : Nat} (small : bitLength x ≤ 16384) :
    64 * uintLimbs x = neededBits x := by
  have := neededBits_of_small small
  have := neededBits_rung x
  simp only [uintLimbs, innerLimbs, byteLength]
  omega

/-- Beyond `16384` bits `to_uint` stores a value in the whole limbs of its bit length. -/
theorem uintLimbs_of_wide {x : Nat} (wide : 16384 < bitLength x) :
    64 * uintLimbs x = 64 * ((bitLength x + 63) / 64) := by
  have := neededBits_of_wide wide
  simp only [uintLimbs, innerLimbs, byteLength]
  omega

/-- Whatever `to_uint` returns holds the value it was given, in at least one limb. -/
theorem toUint_eq_ok {x : Nat} {res : BoxedUint} (converted : toUint x = .ok res) :
    res.val = x ∧ 1 ≤ res.nlimbs := by
  obtain ⟨inner, decoded, widened⟩ := Outcome.bind_eq_ok.mp converted
  have value := val_of_innerToUint decoded
  have rung := (neededBits_rung x).1
  split_ifs at widened with narrow
  · obtain ⟨same, limbs, -⟩ := widen_eq_ok widened
    exact ⟨same.trans value, by rw [limbs, limbsFor]; omega⟩
  · cases widened
    exact ⟨value, by unfold bitsPrecision at narrow; omega⟩

/-- `to_uint` returns a value of at most `2 ^ 32 - 64` bits at the rung of the ladder up to
`16384` bits and in whole limbs beyond, and panics on a wider value. -/
theorem toUint_outcome (x : Nat) :
    (bitLength x ≤ 2 ^ 32 - 64 → ∃ res, toUint x = .ok res ∧ toBiguint res = x ∧
      res.bitsPrecision =
        if bitLength x ≤ 16384 then neededBits x else 64 * ((bitLength x + 63) / 64)) ∧
    (2 ^ 32 - 64 < bitLength x → toUint x = .abort) := by
  refine ⟨fun size => ?_, toUint_abort⟩
  obtain ⟨res, converted, value, nlimbs⟩ := toUint_of_narrow size
  refine ⟨res, converted, by rw [toBiguint_eq, value], ?_⟩
  rw [bitsPrecision, nlimbs]
  split_ifs with ladder
  · exact uintLimbs_of_small ladder
  · exact uintLimbs_of_wide (not_le.mp ladder)

theorem toUint_outcome_at_fifty_five :
    ∃ res, toUint 55 = .ok res ∧ toBiguint res = 55 ∧ res.bitsPrecision = 64 := by
  obtain ⟨res, converted, value, precision⟩ := (toUint_outcome 55).1 (by decide)
  exact ⟨res, converted, value, precision.trans (by decide)⟩

/-- Within the `u32` precision, `to_uint` converts every value of at most `2 ^ 32 - 64` bits at a
precision of whole limbs that holds it, the ladder's rung up to `16384` bits, and `to_uint_exact`
at a precision of whole limbs panics exactly on the values that do not fit it. -/
theorem conversions_round_trip_within_u32_precision (x : Nat) :
    (bitLength x ≤ 2 ^ 32 - 64 → ∃ res, toUint x = .ok res ∧ res.bitsPrecision % 64 = 0 ∧
      max 64 (bitLength x) ≤ res.bitsPrecision ∧
      (bitLength x ≤ 16384 → res.bitsPrecision = neededBits x) ∧ toBiguint res = x) ∧
    ∀ nbits, 0 < nbits → nbits % 64 = 0 → nbits < 2 ^ 32 →
      (toUintExact x nbits = .abort ↔ 2 ^ nbits ≤ x) ∧
      (x < 2 ^ nbits → ∃ res, toUintExact x nbits = .ok res ∧ res.bitsPrecision = nbits ∧
        toBiguint res = x) := by
  refine ⟨fun size => ?_, fun nbits positive multiple small => ?_⟩
  · obtain ⟨res, converted, value, nlimbs⟩ := toUint_of_narrow size
    have rung := neededBits_rung x
    have holds := bitLength_le_uintLimbs x
    refine ⟨res, converted, by simp [bitsPrecision], ?_, fun ladder => ?_,
      by rw [toBiguint_eq, value]⟩
    · simp only [bitsPrecision, nlimbs, uintLimbs] at holds ⊢
      omega
    · rw [bitsPrecision, nlimbs, uintLimbs_of_small ladder]
  obtain ⟨k, rfl⟩ : ∃ k, nbits = 64 * k := ⟨nbits / 64, by omega⟩
  by_cases below : x < 2 ^ (64 * k)
  · obtain ⟨res, exact, value, nlimbs⟩ := toUintExact_of_lt (by omega) small below
    refine ⟨⟨fun aborted => (nomatch exact.symm.trans aborted),
      fun above => absurd below (not_lt.mpr above)⟩,
      fun _ => ⟨res, exact, by rw [bitsPrecision, nlimbs], by rw [toBiguint_eq, value]⟩⟩
  · exact ⟨iff_of_true (toUintExact_of_le (not_lt.mp below)) (not_lt.mp below),
      fun lt => absurd lt below⟩

theorem conversions_round_trip_within_u32_precision_at_fifty_five :
    (∃ res, toUint 55 = .ok res ∧ res.bitsPrecision % 64 = 0 ∧
      max 64 (bitLength 55) ≤ res.bitsPrecision ∧
      (bitLength 55 ≤ 16384 → res.bitsPrecision = neededBits 55) ∧ toBiguint res = 55) ∧
    (toUintExact 55 64 = .abort ↔ 2 ^ 64 ≤ 55) ∧
      (55 < 2 ^ 64 → ∃ res, toUintExact 55 64 = .ok res ∧ res.bitsPrecision = 64 ∧
        toBiguint res = 55) :=
  ⟨(conversions_round_trip_within_u32_precision 55).1 (by decide),
    (conversions_round_trip_within_u32_precision 55).2 64 (by decide) (by decide) (by decide)⟩

theorem toNat_of_toU64 {x : Nat} {u : UInt64} (converted : toU64 x = some u) : u.toNat = x := by
  unfold toU64 at converted
  split_ifs at converted with small
  cases converted
  exact toNat_ofNat_of_lt small

/-- `to_uint_exact` over a list, as `from_components` maps it over the primes. -/
theorem mapM_toUintExact_eq_ok {xs : List Nat} {limbs : Nat} {res : List BoxedUint}
    (converted : xs.mapM (toUintExact · (64 * limbs)) = .ok res) :
    res.map BoxedUint.val = xs ∧ ∀ r ∈ res, r.nlimbs = limbs := by
  induction xs generalizing res with
  | nil => cases converted; simp
  | cons x xs ih =>
      rw [List.mapM_cons] at converted
      obtain ⟨r, head, converted⟩ := Outcome.bind_eq_ok.mp converted
      obtain ⟨rs, tail, converted⟩ := Outcome.bind_eq_ok.mp converted
      cases converted
      obtain ⟨value, limbs⟩ := toUintExact_eq_ok head
      obtain ⟨values, allLimbs⟩ := ih tail
      exact ⟨by simp [value, values], by simpa [limbs] using allLimbs⟩

/-- `to_uint_exact` over a list of values that each fit the precision. -/
theorem mapM_toUintExact_of_fits {xs : List Nat} {limbs : Nat}
    (fits : ∀ x ∈ xs, innerLimbs x ≤ limbs ∧ 64 * innerLimbs x < 2 ^ 32) :
    ∃ res, xs.mapM (toUintExact · (64 * limbs)) = .ok res := by
  induction xs with
  | nil => exact ⟨[], rfl⟩
  | cons x xs ih =>
      obtain ⟨r, head, -⟩ := toUintExact_eq (fits x (by simp)).1 (fits x (by simp)).2
      obtain ⟨rs, tail⟩ := ih fun y member => fits y (List.mem_cons_of_mem _ member)
      exact ⟨r :: rs, by rw [List.mapM_cons, head, Outcome.ok_bind, tail, Outcome.ok_bind]; rfl⟩

/-- `reduce` never panics on an odd modulus, and what it reduces is `n` truncated to the
precision of the modulus: when `n` is wider, its high limbs are lost by `shorten`. -/
theorem reduce_eq (n : BoxedUint) (p : BoxedResidueParams) :
    ∃ residue, reduce n p = .ok residue ∧ residue.params = p ∧
      residue.value = n.val % 2 ^ p.bitsPrecision % p.modulus.val := by
  have positive := p.modulus_pos
  have ne : p.modulus.val ≠ 0 := by omega
  have limbs : limbsFor p.modulus.bitsPrecision = p.modulus.nlimbs := limbsFor_mul_sixty_four _
  -- what follows the change of precision, for any `m` in the limbs of the modulus
  have tail : ∀ m : BoxedUint, m.nlimbs = p.modulus.nlimbs →
      m.val = n.val % 2 ^ p.bitsPrecision → ∃ residue,
        (m.remVartime ⟨p.modulus, ne⟩ >>= fun reduced =>
          reduced.widen p.bitsPrecision >>= fun nReduced => BoxedResidue.new nReduced p) =
          .ok residue ∧ residue.params = p ∧
        residue.value = n.val % 2 ^ p.bitsPrecision % p.modulus.val := by
    intro m mLimbs mVal
    rw [@remVartime_eq m ⟨p.modulus, ne⟩ mLimbs, Outcome.ok_bind,
      widen_eq (by simp [bitsPrecision, BoxedResidueParams.bitsPrecision, mLimbs]),
      Outcome.ok_bind, BoxedResidue.new_eq (by simp [BoxedResidueParams.bitsPrecision, limbs])]
    exact ⟨_, rfl, rfl, by simp [mVal, Nat.mod_eq_of_lt (Nat.mod_lt _ positive)]⟩
  rw [reduce, NonZero.new_of_ne_zero ne, unwrap_some, Outcome.ok_bind]
  dsimp only
  split
  next lt =>
    have lt := compare_lt_iff_lt.mp lt
    rw [widen_eq lt.le, Outcome.ok_bind]
    exact tail _ limbs (Nat.mod_eq_of_lt (lt_of_lt_of_le n.val_lt
      (Nat.pow_le_pow_right (by norm_num) lt.le))).symm
  next eq =>
    have eq := compare_eq_iff_eq.mp eq
    rw [Outcome.pure_eq, Outcome.ok_bind]
    exact tail n (by unfold bitsPrecision at eq; omega)
      (Nat.mod_eq_of_lt (lt_of_lt_of_le n.val_lt (le_of_eq (congrArg _ eq)))).symm
  next gt =>
    have gt := compare_gt_iff_gt.mp gt
    rw [shorten, if_pos gt.le, Outcome.ok_bind]
    exact tail _ (by rw [nlimbs_truncate, limbs]) (by rw [val_truncate, limbs]; rfl)

/-- A two-limb `2 ^ 64` reduced modulo a one-limb `3`: the `shorten` keeps the low limb, `0`,
so the residue retrieved is `0` and not `2 ^ 64 mod 3 = 1`. -/
theorem reduce_truncates_wide_value :
    ∃ residue, reduce ⟨2, 2 ^ 64, by norm_num⟩ ⟨⟨1, 3, by norm_num⟩, by norm_num⟩ = .ok residue ∧
      residue.retrieve.val = 0 ∧ 2 ^ 64 % 3 = 1 :=
  ⟨_, rfl, rfl, rfl⟩

end RsaKeys
