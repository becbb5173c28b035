import Mathlib.Algebra.Order.BigOperators.GroupWithZero.List
import RsaKeys.Bignum.Natural

/-!
# Component algebra

The pure functions of `algorithms/rsa.rs` that the key constructors and the generator call: the
modulus of a list of primes, the private exponent as the inverse of `e` modulo
`λ = lcm(p_i - 1)`, and two-prime factor recovery. That file is not part of the sources, so each
is modelled from the spec (§4.2), on unbounded integers.
-/

namespace RsaKeys

/-- Modelled from the spec: `compute_modulus` (src/algorithms/rsa.rs is not under src/):
`n = Π primes`; it never fails. -/
def computeModulus (primes : List Nat) : Nat := primes.prod

/-- `λ = lcm(p_i - 1)` over all primes. -/
def exponentLcm (primes : List Nat) : Nat := (primes.map (· - 1)).foldr Nat.lcm 1

/-- Modelled from the spec: `compute_private_exponent_euler_totient` (src/algorithms/rsa.rs is
not under src/): `λ = lcm(p_i - 1)` over all primes, `d = e⁻¹ mod λ`; a `NoInverse`-class error
when `e` is not coprime to `λ`. -/
def computePrivateExponentEulerTotient (primes : List Nat) (e : Nat) : Except Error Nat :=
  match modInverse e (exponentLcm primes) with
  | some d => .ok d
  | none => .error .noInverse

/-- Modelled from the spec: `compute_private_exponent_carmicheal` (src/algorithms/rsa.rs is not
under src/): the two-prime Carmichael variant, `d = e⁻¹ mod lcm(p - 1, q - 1)`. -/
def computePrivateExponentCarmicheal (p q e : Nat) : Except Error Nat :=
  match modInverse e (Nat.lcm (p - 1) (q - 1)) with
  | some d => .ok d
  | none => .error .noInverse

/-- A factor `p` of `n` that `(e, d)` is a key pair for, together with `n / p`. -/
def recoversWith (n e d p : Nat) : Bool :=
  1 < p && n % p = 0 && d * e % Nat.lcm (p - 1) (n / p - 1) = 1

/-- Modelled from the spec: `recover_primes` (src/algorithms/rsa.rs is not under src/): requires
`e ∈ [2^16, 2^256)`, and recovers exactly two factors of `n` from `(n, e, d)`, failing when there
are none; the factors are those of the least `p` that the key pair `(e, d)` fits. -/
def recoverPrimes (n e d : Nat) : Except Error (Nat × Nat) :=
  if e < 2 ^ 16 ∨ 2 ^ 256 ≤ e then .error .recoveryFailed
  else
    match (List.range n).find? (recoversWith n e d) with
    | some p => .ok (p, n / p)
    | none => .error .recoveryFailed

/-- The nested loop that makes sure a list of primes is pairwise unequal (`from_primes` and the
generator): for each entry `prime1`, whether it equals an entry before it. `earlier` holds the
entries already passed. -/
def repeatsEarlier : List Nat → List Nat → Bool
  | _, [] => false
  | earlier, prime1 :: rest => earlier.contains prime1 || repeatsEarlier (earlier ++ [prime1]) rest

/-! ## Specifications -/

theorem repeatsEarlier_eq_false_iff (earlier rest : List Nat) :
    repeatsEarlier earlier rest = false ↔ rest.Nodup ∧ ∀ x ∈ rest, x ∉ earlier := by
  induction rest generalizing earlier with
  | nil => simp [repeatsEarlier]
  | cons prime1 rest ih =>
      simp only [repeatsEarlier, Bool.or_eq_false_iff, ih, List.nodup_cons, List.forall_mem_cons,
        List.contains, List.elem_eq_mem, decide_eq_false_iff_not, List.mem_append,
        List.mem_singleton, not_or]
      constructor
      · rintro ⟨fresh, nodup, later⟩
        exact ⟨⟨fun member => (later prime1 member).2 rfl, nodup⟩, fresh,
          fun x member => (later x member).1⟩
      · rintro ⟨⟨notLater, nodup⟩, fresh, later⟩
        exact ⟨fresh, nodup, fun x member => ⟨later x member, fun same => notLater (same ▸ member)⟩⟩

/-- The loop accepts exactly the lists without repetition. -/
theorem repeatsEarlier_nil_eq_false_iff (primes : List Nat) :
    repeatsEarlier [] primes = false ↔ primes.Nodup := by
  simp [repeatsEarlier_eq_false_iff]

theorem dvd_exponentLcm {primes : List Nat} {p : Nat} (member : p ∈ primes) :
    p - 1 ∣ exponentLcm primes := by
  induction primes with
  | nil => cases member
  | cons head tail ih =>
      simp only [exponentLcm, List.map_cons, List.foldr_cons] at ih ⊢
      rcases List.mem_cons.mp member with rfl | member
      · exact Nat.dvd_lcm_left _ _
      · exact (ih member).trans (Nat.dvd_lcm_right _ _)

theorem exponentLcm_dvd_prod (primes : List Nat) :
    exponentLcm primes ∣ (primes.map (· - 1)).prod := by
  induction primes with
  | nil => simp [exponentLcm]
  | cons head tail ih =>
      simp only [exponentLcm, List.map_cons, List.foldr_cons, List.prod_cons] at ih ⊢
      exact Nat.lcm_dvd (Nat.dvd_mul_right _ _) (ih.trans (Nat.dvd_mul_left _ _))

theorem exponentLcm_pos {primes : List Nat} (large : ∀ p ∈ primes, 2 ≤ p) :
    0 < exponentLcm primes :=
  Nat.pos_of_dvd_of_pos (exponentLcm_dvd_prod primes)
    (List.prod_pos (by simpa using fun p member => large p member))

theorem exponentLcm_le_prod {primes : List Nat} (large : ∀ p ∈ primes, 2 ≤ p) :
    exponentLcm primes ≤ primes.prod := by
  refine le_trans (Nat.le_of_dvd (List.prod_pos (by simpa using fun p member => large p member))
    (exponentLcm_dvd_prod primes)) ?_
  induction primes with
  | nil => simp
  | cons head tail ih =>
      simp only [List.map_cons, List.prod_cons]
      exact Nat.mul_le_mul (Nat.sub_le _ _) (ih fun p member => large p (List.mem_cons_of_mem _ member))

/-- What a derived exponent satisfies: it inverts `e` modulo `λ` and lies below `λ`. -/
theorem computePrivateExponentEulerTotient_eq_ok {primes : List Nat} {e d : Nat}
    (derived : computePrivateExponentEulerTotient primes e = .ok d) :
    e * d ≡ 1 [MOD exponentLcm primes] ∧ (0 < exponentLcm primes → d < exponentLcm primes) := by
  unfold computePrivateExponentEulerTotient at derived
  split at derived
  · rename_i found
    cases derived
    exact ⟨mul_modInverse found, modInverse_lt found⟩
  · cases derived

theorem computePrivateExponentEulerTotient_of_coprime {primes : List Nat} {e : Nat}
    (coprime : Nat.Coprime e (exponentLcm primes)) :
    ∃ d, computePrivateExponentEulerTotient primes e = .ok d := by
  obtain ⟨d, found⟩ := Option.isSome_iff_exists.mp (modInverse_isSome_iff.mpr coprime)
  exact ⟨d, by simp [computePrivateExponentEulerTotient, found]⟩

theorem computePrivateExponentEulerTotient_of_not_coprime {primes : List Nat} {e : Nat}
    (shared : ¬ Nat.Coprime e (exponentLcm primes)) :
    computePrivateExponentEulerTotient primes e = .error .noInverse := by
  simp [computePrivateExponentEulerTotient, modInverse_eq_none_iff.mpr shared]

/-- A derived exponent exists only for an `e` coprime to `λ`. -/
theorem coprime_of_computePrivateExponentEulerTotient {primes : List Nat} {e d : Nat}
    (derived : computePrivateExponentEulerTotient primes e = .ok d) :
    Nat.Coprime e (exponentLcm primes) := by
  by_contra shared
  rw [computePrivateExponentEulerTotient_of_not_coprime shared] at derived
  cases derived

/-- `λ` of odd numbers is even, so an even `e` has no inverse modulo it. -/
theorem not_coprime_exponentLcm_of_even {primes : List Nat} {e : Nat}
    (odd : ∀ p ∈ primes, p % 2 = 1) (nonempty : primes ≠ []) (even : e % 2 = 0) :
    ¬ Nat.Coprime e (exponentLcm primes) := by
  obtain ⟨p, member⟩ := List.exists_mem_of_ne_nil primes nonempty
  have two : 2 ∣ exponentLcm primes :=
    (Nat.dvd_of_mod_eq_zero (by have := odd p member; omega)).trans (dvd_exponentLcm member)
  intro coprime
  have := Nat.odd_iff.mp (Nat.coprime_two_right.mp (coprime.coprime_dvd_right two))
  omega

/-- The Carmichael variant is the Euler-totient one on the list `[p, q]`. -/
theorem computePrivateExponentCarmicheal_eq (p q e : Nat) :
    computePrivateExponentCarmicheal p q e = computePrivateExponentEulerTotient [p, q] e := by
  simp [computePrivateExponentCarmicheal, computePrivateExponentEulerTotient, exponentLcm]

end RsaKeys
