import RsaKeys.Generate.Multiprime
import RsaKeys.Key.Construct

/-!
# Generating a private key

`RsaPrivateKey::new_with_exp` generates two primes and hands the components to
`from_components`; `new` does so with the default exponent `65537`. Neither validates the key.
A generated key always has the exact product and the per-prime congruences that `validate`
checks, so it validates exactly when its public part passes `check_public`: for `65537`, not when
`n ≤ 65537`, which sizes of up to seventeen bits allow, nor beyond `MAX_SIZE`.
-/

namespace RsaKeys

namespace RsaPrivateKey

variable {σ : Type}

/-- `RsaPrivateKey::new_with_exp`: two primes, then `from_components` on the components. -/
def newWithExp (source : PrimeSource σ) (rng : σ) (bitSize exp fuel : Nat) :
    Outcome RsaPrivateKey := do
  let components ← generateMultiPrimeKeyWithExp source rng 2 bitSize exp fuel
  fromComponents components.n components.e components.d components.primes

/-- `RsaPrivateKey::new`: the default exponent `EXP`. -/
def new (source : PrimeSource σ) (rng : σ) (bitSize fuel : Nat) : Outcome RsaPrivateKey :=
  newWithExp source rng bitSize exp fuel

/-- With a sound source, a key `new_with_exp` returns has `bit_size` bits and validates exactly
when its public part does. -/
theorem newWithExp_validate_iff {source : PrimeSource σ} (sound : source.Sound) {rng : σ}
    {bitSize exp fuel : Nat} {key : RsaPrivateKey}
    (generated : newWithExp source rng bitSize exp fuel = .ok key) :
    bitLength key.n.val = bitSize ∧
      (key.validate = .ok () ↔ PublicWellFormed key.n.val key.e.toNat RsaPublicKey.maxSize) := by
  obtain ⟨c, components, built⟩ := Outcome.bind_eq_ok.mp generated
  obtain ⟨_, _, primes, _, -, drawn, accepted⟩ := generate_eq_ok components
  obtain ⟨-, long, n, e, same, derived⟩ := acceptRound_eq_some accepted
  rw [n, same] at built
  obtain ⟨nVal, -, valid⟩ := validate_eq_ok_iff_public built
    (by rw [length_of_drawPrimes drawn]) (Candidate.odd_of_forall₂ (candidates_of_drawPrimes sound drawn))
    (e ▸ (computePrivateExponentEulerTotient_eq_ok derived).1)
  exact ⟨by rw [nVal]; exact long, valid⟩

/-- With a sound source and `bit_size` at most `2 ^ 32 - 64`, `from_components` builds the key
of the generated components, valid exactly when its public part is, or fails with
`InvalidExponent` on a wider exponent. -/
theorem fromComponents_accepts_generated {source : PrimeSource σ} (sound : source.Sound)
    {rng : σ} {nprimes bitSize exp fuel : Nat} {c : Components}
    (generated : generateMultiPrimeKeyWithExp source rng nprimes bitSize exp fuel = .ok c)
    (size : bitSize ≤ 2 ^ 32 - 64) :
    (exp < 2 ^ 64 → ∃ key, fromComponents c.n c.e c.d c.primes = .ok key ∧ key.n.val = c.n ∧
      key.e.toNat = exp ∧ key.d.val = c.d ∧ key.primeValues = c.primes ∧
      (key.validate = .ok () ↔ PublicWellFormed c.n exp RsaPublicKey.maxSize)) ∧
    (2 ^ 64 ≤ exp → fromComponents c.n c.e c.d c.primes = .err .invalidExponent) := by
  have many : 2 ≤ nprimes := by
    by_contra few
    simp [generateMultiPrimeKeyWithExp, not_le.mp few] at generated
  obtain ⟨_, _, primes, _, -, drawn, accepted⟩ := generate_eq_ok generated
  obtain ⟨-, long, n, e, same, derived⟩ := acceptRound_eq_some accepted
  obtain ⟨inverse, below⟩ := computePrivateExponentEulerTotient_eq_ok derived
  have odd := Candidate.odd_of_forall₂ (candidates_of_drawPrimes sound drawn)
  have two : 2 ≤ primes.length := by rw [length_of_drawPrimes drawn]; exact many
  rw [n, e, same, computeModulus]
  rw [computeModulus] at long
  have nSize : bitLength primes.prod ≤ 2 ^ 32 - 64 := long ▸ size
  refine ⟨fun eSmall => ?_, fun eLarge => ?_⟩
  · have large : ∀ p ∈ primes, 2 ≤ p := fun p member => by have := (odd p member).2; omega
    obtain ⟨dFits, fit⟩ := fits_of_primes large (below (exponentLcm_pos large))
    obtain ⟨p, q, rest, rfl⟩ : ∃ p q rest, primes = p :: q :: rest :=
      match primes, two with
      | p :: q :: rest, _ => ⟨p, q, rest, rfl⟩
    have pOdd := odd p (List.mem_cons_self _ _)
    have qOdd := odd q (List.mem_cons_of_mem _ (List.mem_cons_self _ _))
    obtain ⟨key, built, -⟩ := fromComponents_of_odd nSize eSmall dFits fit
      (prod_mod_two_of_odd fun x member => (odd x member).1) pOdd.1 (by omega) qOdd.1 (by omega)
    obtain ⟨nVal, -, valid⟩ := validate_eq_ok_iff_public built two odd inverse
    obtain ⟨-, -, eVal, dVal, -, given | ⟨none, -⟩⟩ := fromComponents_eq_ok built
    · exact ⟨key, built, nVal, eVal, dVal, given.2, by rw [valid, nVal, eVal]⟩
    · cases none
  · obtain ⟨nU, nConv, -⟩ := toUint_of_narrow nSize
    rw [fromComponents, nConv, Outcome.ok_bind, toU64_eq_none_iff.mpr eLarge, okOr_none,
      Outcome.err_bind]

theorem fromComponents_accepts_generated_at_sixteen :
    ∃ c, generateMultiPrimeKeyWithExp exampleSource true 2 16 65537 1 = .ok c ∧
      ∃ key, fromComponents c.n c.e c.d c.primes = .ok key ∧ key.n.val = c.n ∧
        key.e.toNat = 65537 ∧ key.d.val = c.d ∧ key.primeValues = c.primes ∧
        (key.validate = .ok () ↔ PublicWellFormed c.n 65537 RsaPublicKey.maxSize) := by
  have guard : ¬ (16 < 64 ∧ primeCountEstimate 2 16 < 2) := by
    norm_num [primeCountEstimate, ln2]
  obtain ⟨c, generated⟩ :
      ∃ c, generateMultiPrimeKeyWithExp exampleSource true 2 16 65537 1 = .ok c :=
    ⟨_, (generate_eq_loop le_rfl guard).trans rfl⟩
  exact ⟨c, generated,
    (fromComponents_accepts_generated exampleSource_sound generated (by decide)).1 (by decide)⟩

/-- The key the example source gives at sixteen bits: the primes `193` and `197`. -/
theorem newWithExp_exampleSource_sixteen :
    newWithExp exampleSource true 16 65537 1 = fromComponents 38021 65537 5633 [193, 197] := by
  have guard : ¬ (16 < 64 ∧ primeCountEstimate 2 16 < 2) := by
    norm_num [primeCountEstimate, ln2]
  rw [newWithExp, generate_eq_loop le_rfl guard]
  rfl

theorem newWithExp_validate_iff_at_sixteen :
    ∃ key, newWithExp exampleSource true 16 65537 1 = .ok key ∧ bitLength key.n.val = 16 ∧
      (key.validate = .ok () ↔ PublicWellFormed key.n.val key.e.toNat RsaPublicKey.maxSize) := by
  obtain ⟨key, generated⟩ : ∃ key, newWithExp exampleSource true 16 65537 1 = .ok key :=
    ⟨_, newWithExp_exampleSource_sixteen.trans rfl⟩
  exact ⟨key, generated, newWithExp_validate_iff exampleSource_sound generated⟩

/-- At sixteen bits a sound source may give `193` and `197`: both guards pass, `new` returns the
key of `n = 38021`, and `validate` rejects it, the default `e = 65537` not being below `n`. -/
theorem new_returns_key_validate_rejects :
    exampleSource.Sound ∧ ∃ key, new exampleSource true 16 1 = .ok key ∧
      bitLength key.n.val = 16 ∧ key.validate = .err .invalidModulus :=
  ⟨exampleSource_sound, _, newWithExp_exampleSource_sixteen.trans rfl, by decide, by decide⟩

end RsaPrivateKey

end RsaKeys
