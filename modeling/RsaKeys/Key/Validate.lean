import RsaKeys.Key.Private

/-!
# What the validator checks

On a key whose components share the precision of `n` (every key `from_components` builds),
`validate` succeeds exactly when the public checks pass, no prime is zero, the product of the
primes is `n` modulo `2 ^ precision`, and `d·e ≡ 1 (mod p - 1)` holds exactly for every prime,
none of which is `1`. The product is checked only modulo the precision, and a prime `1` is not
rejected but reaches an `unwrap` of zero.
-/

namespace RsaKeys

open BoxedUint

namespace RsaPrivateKey

/-- The product loop multiplies modulo the precision of `m` and rejects a zero prime. -/
theorem productLoop_eq_ok {m result : BoxedUint} {primes : List BoxedUint}
    (done : productLoop m primes = .ok result) :
    (∀ p ∈ primes, p.val ≠ 0) ∧ result.nlimbs = m.nlimbs ∧
      result.val = m.val * (primes.map BoxedUint.val).prod % 2 ^ (64 * m.nlimbs) := by
  induction primes generalizing m with
  | nil =>
      simp only [productLoop, Except.ok.injEq] at done
      subst done
      simp [Nat.mod_eq_of_lt m.val_lt]
  | cons prime primes ih =>
      rw [productLoop] at done
      split_ifs at done with zero
      obtain ⟨nonzero, limbs, value⟩ := ih done
      refine ⟨?_, limbs, ?_⟩
      · simpa [Nat.pos_iff_ne_zero.mp (not_lt.mp zero)] using nonzero
      · rw [value, nlimbs_wrappingMul, val_wrappingMul, Nat.mod_mul_mod, List.map_cons,
          List.prod_cons, Nat.mul_assoc]

theorem productLoop_of_ne_zero (m : BoxedUint) {primes : List BoxedUint}
    (nonzero : ∀ p ∈ primes, p.val ≠ 0) : ∃ result, productLoop m primes = .ok result := by
  induction primes generalizing m with
  | nil => exact ⟨m, rfl⟩
  | cons prime primes ih =>
      rw [productLoop, if_neg (by simpa [Nat.pos_iff_ne_zero] using nonzero prime (by simp))]
      exact ih _ fun p member => nonzero p (List.mem_cons_of_mem _ member)

theorem productLoop_of_zero (m : BoxedUint) {primes : List BoxedUint}
    (zero : ∃ p ∈ primes, p.val = 0) : productLoop m primes = .error .invalidPrime := by
  induction primes generalizing m with
  | nil => simp at zero
  | cons prime primes ih =>
      rw [productLoop]
      split_ifs with lt
      · rfl
      · obtain ⟨p, member, isZero⟩ := zero
        rcases List.mem_cons.mp member with rfl | member
        · omega
        · exact ih _ ⟨p, member, isZero⟩

/-- One step of the congruence loop, on a non-zero prime no wider than `d`: a prime `1` panics,
a failed congruence is `InvalidExponent`, and otherwise the loop goes on. -/
theorem congruenceLoop_cons {d de prime : BoxedUint} {primes : List BoxedUint}
    (oneLimb : 1 ≤ d.nlimbs) (sameLimbs : de.nlimbs = d.nlimbs)
    (narrow : prime.nlimbs ≤ d.nlimbs) (nonzero : prime.val ≠ 0) :
    congruenceLoop d de (prime :: primes) =
      if prime.val = 1 then .abort
      else if de.val % (prime.val - 1) ≠ 1 then .err .invalidExponent
      else congruenceLoop d de primes := by
  obtain ⟨w, widened⟩ : ∃ w, prime.widen d.bitsPrecision = .ok w :=
    ⟨_, widen_eq (by simp [bitsPrecision, narrow])⟩
  obtain ⟨wVal, wLimbs, -⟩ := widen_eq_ok widened
  have wWide : 1 ≤ w.nlimbs := by rw [wLimbs, bitsPrecision, limbsFor_mul_sixty_four]; exact oneLimb
  rw [congruenceLoop, widened, Outcome.ok_bind]
  by_cases one : prime.val = 1
  · rw [NonZero.new_eq_none_iff.mpr (by rw [val_wrappingSub_one (by omega), wVal]; omega),
      unwrap_none, Outcome.abort_bind, if_pos one]
  · rw [NonZero.new_of_ne_zero (by rw [val_wrappingSub_one (by omega), wVal]; omega), unwrap_some,
      Outcome.ok_bind, remVartime_eq (sameLimbs.trans (by rw [nlimbs_wrappingSub_one wWide, wLimbs,
        bitsPrecision, limbsFor_mul_sixty_four])), Outcome.ok_bind, if_neg one]
    simp only [val_wrappingSub_one (show 0 < w.val by omega), wVal]

/-- The congruence loop on primes no wider than `d`: it succeeds exactly when no prime is `1` and
`de` is `1` modulo every `prime - 1`. -/
theorem congruenceLoop_eq_ok_iff {d de : BoxedUint} {primes : List BoxedUint}
    (oneLimb : 1 ≤ d.nlimbs) (sameLimbs : de.nlimbs = d.nlimbs)
    (narrow : ∀ p ∈ primes, p.nlimbs ≤ d.nlimbs) (nonzero : ∀ p ∈ primes, p.val ≠ 0) :
    congruenceLoop d de primes = .ok () ↔
      ∀ p ∈ primes, p.val ≠ 1 ∧ de.val % (p.val - 1) = 1 := by
  induction primes with
  | nil => simp [congruenceLoop]
  | cons prime primes ih =>
      rw [congruenceLoop_cons oneLimb sameLimbs (narrow prime (by simp)) (nonzero prime (by simp)),
        List.forall_mem_cons, ← ih (fun p member => narrow p (List.mem_cons_of_mem _ member))
          (fun p member => nonzero p (List.mem_cons_of_mem _ member))]
      split_ifs with one fails
      · simp [one]
      · simp [fails]
      · simp [one, not_not.mp fails]

/-- `d` widened to twice its precision times a 64-bit `e` does not wrap. -/
theorem val_mul_lt_double {d : BoxedUint} (oneLimb : 1 ≤ d.nlimbs) (e : UInt64) :
    d.val * e.toNat < 2 ^ (64 * limbsFor (2 * d.bitsPrecision)) := by
  have limbs : limbsFor (2 * d.bitsPrecision) = d.nlimbs + d.nlimbs := by
    simp [limbsFor, bitsPrecision]; omega
  have small : e.toNat < 2 ^ (64 * d.nlimbs) :=
    calc e.toNat < 2 ^ 64 := e.toNat_lt_size
      _ ≤ 2 ^ (64 * d.nlimbs) := Nat.pow_le_pow_right (by norm_num) (by omega)
  rw [limbs, Nat.mul_add, pow_add]
  exact Nat.mul_lt_mul'' d.val_lt small

/-- What `validate` reduces to: a typed error when the public checks, the zero-prime check or the
product check fails, and otherwise its congruence loop, on `d` widened to twice its precision and
`de = d·e` computed exactly. -/
theorem validate_cases {key : RsaPrivateKey} (sized : key.WellSized) :
    (¬ (PublicWellFormed key.n.val key.e.toNat RsaPublicKey.maxSize ∧
        (∀ p ∈ key.primes, p.val ≠ 0) ∧
        key.primeValues.prod % 2 ^ (64 * key.n.nlimbs) = key.n.val) →
      ∃ error, key.validate = .err error) ∧
    (PublicWellFormed key.n.val key.e.toNat RsaPublicKey.maxSize →
      (∀ p ∈ key.primes, p.val ≠ 0) →
      key.primeValues.prod % 2 ^ (64 * key.n.nlimbs) = key.n.val →
      ∃ d de : BoxedUint, key.validate = congruenceLoop d de key.primes ∧ 1 ≤ d.nlimbs ∧
        de.nlimbs = d.nlimbs ∧ (∀ p ∈ key.primes, p.nlimbs ≤ d.nlimbs) ∧
        de.val = key.d.val * key.e.toNat) := by
  have oneLimb := sized.one_le
  have start : (oneWithPrecision key.n.bitsPrecision).val = 1 := by
    simp [oneWithPrecision, bitsPrecision]; omega
  have startLimbs : (oneWithPrecision key.n.bitsPrecision).nlimbs = key.n.nlimbs := by
    simp [oneWithPrecision, bitsPrecision]
  have publicEq : checkPublicWithMaxSize key.pubkeyComponents.n.val key.pubkeyComponents.e.toNat
      RsaPublicKey.maxSize = checkPublicWithMaxSize key.n.val key.e.toNat RsaPublicKey.maxSize := rfl
  rw [validate, checkPublic, toBiguint_eq, publicEq]
  by_cases wf : PublicWellFormed key.n.val key.e.toNat RsaPublicKey.maxSize
  swap
  · refine ⟨fun _ => ?_, fun public => absurd public wf⟩
    cases public : checkPublicWithMaxSize key.n.val key.e.toNat RsaPublicKey.maxSize with
    | error error => exact ⟨error, by simp [public]⟩
    | ok _ => exact absurd (checkPublicWithMaxSize_eq_ok_iff.mp public) wf
  rw [checkPublicWithMaxSize_eq_ok_iff.mpr wf]
  by_cases zero : ∃ p ∈ key.primes, p.val = 0
  · obtain ⟨p, member, isZero⟩ := zero
    exact ⟨fun _ => ⟨.invalidPrime, by simp [productLoop_of_zero _ ⟨p, member, isZero⟩]⟩,
      fun _ nonzero => absurd isZero (nonzero p member)⟩
  have nonzero : ∀ p ∈ key.primes, p.val ≠ 0 := fun p member isZero => zero ⟨p, member, isZero⟩
  obtain ⟨m, product⟩ := productLoop_of_ne_zero (oneWithPrecision _) nonzero
  obtain ⟨-, -, mVal⟩ := productLoop_eq_ok product
  rw [start, startLimbs, one_mul] at mVal
  simp only [Outcome.monadLift_eq, Outcome.ofExcept_ok, Outcome.ok_bind, product, mVal]
  split_ifs with differs
  · exact ⟨fun _ => ⟨_, rfl⟩, fun _ _ same => absurd same differs⟩
  have dLimbs := sized.d_nlimbs
  rw [widen_eq (by simp [bitsPrecision]; omega), Outcome.ok_bind]
  refine ⟨fun failed => absurd ⟨wf, nonzero, not_not.mp differs⟩ failed, fun _ _ _ =>
    ⟨_, _, rfl, by simp [limbsFor, bitsPrecision]; omega, by simp,
      fun p member => by simp [limbsFor, bitsPrecision, sized.primes_nlimbs p member]; omega, ?_⟩⟩
  simp only [val_wrappingMul, val_ofU64, nlimbs_truncate]
  exact Nat.mod_eq_of_lt (val_mul_lt_double (by omega) _)

/-- On a well-sized key, `validate` succeeds exactly when its checks pass: the public checks, no
zero prime, the product modulo `2 ^ precision`, and `d·e ≡ 1` modulo `p - 1` for each `p ≠ 1`. -/
theorem validate_eq_ok_iff {key : RsaPrivateKey} (sized : key.WellSized) :
    key.validate = .ok () ↔
      PublicWellFormed key.n.val key.e.toNat RsaPublicKey.maxSize ∧
      (∀ p ∈ key.primes, p.val ≠ 0) ∧
      key.primeValues.prod % 2 ^ (64 * key.n.nlimbs) = key.n.val ∧
      ∀ p ∈ key.primes, p.val ≠ 1 ∧ key.d.val * key.e.toNat % (p.val - 1) = 1 := by
  by_cases checks : PublicWellFormed key.n.val key.e.toNat RsaPublicKey.maxSize ∧
      (∀ p ∈ key.primes, p.val ≠ 0) ∧ key.primeValues.prod % 2 ^ (64 * key.n.nlimbs) = key.n.val
  · obtain ⟨wf, nonzero, product⟩ := checks
    obtain ⟨d, de, loop, oneLimb, sameLimbs, narrow, value⟩ :=
      (validate_cases sized).2 wf nonzero product
    rw [loop, congruenceLoop_eq_ok_iff oneLimb sameLimbs narrow nonzero, value]
    exact ⟨fun holds => ⟨wf, nonzero, product, holds⟩, fun accepted => accepted.2.2.2⟩
  · obtain ⟨error, failed⟩ := (validate_cases sized).1 checks
    rw [failed]
    exact iff_of_false (by simp) fun ⟨wf, nonzero, product, _⟩ => checks ⟨wf, nonzero, product⟩

end RsaPrivateKey

end RsaKeys
