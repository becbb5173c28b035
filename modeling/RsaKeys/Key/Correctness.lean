import Mathlib.Data.Nat.ChineseRemainder
import Mathlib.FieldTheory.Finite.Basic
import RsaKeys.Key.Construct

/-!
# Decryption inverts encryption

`validate` checks `d·e ≡ 1 (mod p - 1)` at every prime, with `d` widened so that `d·e` is exact.
For a key whose primes are distinct primes multiplying to `n`, that is enough for textbook RSA
to round-trip every message below `n`: Fermat's little theorem gives the congruence at each prime,
messages the prime divides included, and the Chinese remainder theorem lifts it to `n`.

The product is where `validate` is weaker than that hypothesis: it compares `Π primes` with `n`
only modulo `2 ^ precision`, and it lets a prime `1` reach an `unwrap` of zero.
-/

namespace RsaKeys

/-- Fermat at one prime: an exponent that is `1` modulo `p - 1` fixes every residue modulo `p`. -/
theorem pow_modEq_self {p a k : Nat} (prime : p.Prime) (one : k % (p - 1) = 1) :
    a ^ k ≡ a [MOD p] := by
  have split : (p - 1) * (k / (p - 1)) + 1 = k := by
    have := Nat.div_add_mod k (p - 1)
    rwa [one] at this
  by_cases divides : p ∣ a
  · have positive : k ≠ 0 := by omega
    exact ((Nat.modEq_zero_iff_dvd.mpr (dvd_pow divides positive)).trans
      (Nat.modEq_zero_iff_dvd.mpr divides).symm)
  · have fermat : a ^ (p - 1) ≡ 1 [MOD p] := by
      rw [← Nat.totient_prime prime]
      exact Nat.ModEq.pow_totient ((Nat.Prime.coprime_iff_not_dvd prime).mpr divides).symm
    calc a ^ k = (a ^ (p - 1)) ^ (k / (p - 1)) * a := by rw [← pow_mul, ← pow_succ, split]
      _ ≡ 1 ^ (k / (p - 1)) * a [MOD p] := (fermat.pow _).mul_right _
      _ = a := by rw [one_pow, one_mul]

namespace RsaPrivateKey

/-- Decryption inverts encryption on every message below `n` for a validated key of distinct
primes multiplying to `n`. -/
theorem validate_decrypt_encrypt {n e d : Nat} {primes : List Nat} {key : RsaPrivateKey}
    (built : fromComponents n e d primes = .ok key) (prime : ∀ p ∈ key.primeValues, p.Prime)
    (distinct : key.primeValues.Nodup) (product : key.primeValues.prod = key.n.val)
    (valid : key.validate = .ok ()) {m : Nat} (below : m < key.n.val) :
    (m ^ key.e.toNat % key.n.val) ^ key.d.val % key.n.val = m := by
  obtain ⟨-, -, -, congruent⟩ := (validate_eq_ok_iff (fromComponents_eq_ok built).1).mp valid
  have coprime : key.primeValues.Pairwise Nat.Coprime :=
    distinct.pairwise_of_forall_ne fun p pMember q qMember differ =>
      (Nat.coprime_primes (prime p pMember) (prime q qMember)).mpr differ
  have atPrimes : ∀ p ∈ key.primeValues, m ^ (key.e.toNat * key.d.val) ≡ m [MOD p] := by
    intro p member
    obtain ⟨b, bMember, rfl⟩ := List.mem_map.mp member
    exact pow_modEq_self (prime _ member) (by rw [mul_comm]; exact (congruent b bMember).2)
  have atProduct : m ^ (key.e.toNat * key.d.val) ≡ m [MOD key.n.val] :=
    product ▸ (Nat.modEq_list_prod_iff coprime).mpr fun i => atPrimes _ (List.get_mem _ _ _)
  calc (m ^ key.e.toNat % key.n.val) ^ key.d.val % key.n.val
      = m ^ (key.e.toNat * key.d.val) % key.n.val := by rw [← Nat.pow_mod, ← pow_mul]
    _ = m % key.n.val := atProduct
    _ = m := Nat.mod_eq_of_lt below

theorem validate_decrypt_encrypt_on_fifty_five :
    ∃ key, fromComponents 55 3 27 [5, 11] = .ok key ∧
      (2 ^ key.e.toNat % key.n.val) ^ key.d.val % key.n.val = 2 :=
  ⟨_, rfl, @validate_decrypt_encrypt 55 3 27 [5, 11] _ rfl
    (show ∀ p ∈ [5, 11], p.Prime by norm_num) (by decide) (by decide) (by decide) 2
    (by decide)⟩

/-! ## What `validate` does not check -/

/-- Three primes whose product exceeds `2 ^ 64` by a 51-bit `n`: `from_components` builds the key
at one limb, and `validate` accepts it, although the primes multiply to `n + 2 ^ 64`. -/
theorem validate_accepts_wrapped_product :
    ∃ key, fromComponents 1655708903595337 3 43924711516611567 [2642291, 2642333, 2642351] =
      .ok key ∧ key.validate = .ok () ∧ key.primeValues.prod ≠ key.n.val ∧
      ∀ p ∈ key.primeValues, p.Prime :=
  ⟨_, rfl, by decide, by decide,
    show ∀ p ∈ [2642291, 2642333, 2642351], p.Prime by norm_num⟩

/-- A prime `1` after the first two passes `from_components` and the product check, and
`validate` then unwraps `NonZero::new(0)` and panics. -/
theorem validate_aborts_on_prime_one :
    ∃ key, fromComponents 55 3 27 [5, 11, 1] = .ok key ∧ key.validate = .abort :=
  ⟨_, rfl, by decide⟩

end RsaPrivateKey

end RsaKeys
