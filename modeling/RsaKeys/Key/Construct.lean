import Mathlib.Data.Nat.GCD.BigOperators
import Mathlib.Data.Nat.Prime.Basic
import RsaKeys.Key.Cache
import RsaKeys.Key.Validate

/-!
# Building a key from its components

`from_components` converts its integers to the precision of `n` and hands them to
`from_components_new`, which recovers two primes when none are given (and then validates the
key), and always ends with `precompute`, whose error it ignores. A successful build is a
well-sized key with exactly the given `n`, `e`, `d` and primes, in order; this file proves that,
says when the cache is filled, and shows what `from_primes` and `from_p_q` build.
-/

namespace RsaKeys

open BoxedUint

namespace RsaPrivateKey

/-! ## The cache -/

/-- On a key whose first two primes are odd, above one, coprime and in the precision of `d`,
`precompute` fills the cache. -/
theorem precompute_of_coprime {key : RsaPrivateKey} {p q : BoxedUint} {rest : List BoxedUint}
    (empty : key.precomputed = none) (primes : key.primes = p :: q :: rest)
    (pOdd : p.val % 2 = 1) (qOdd : q.val % 2 = 1) (pLarge : 1 < p.val) (qLarge : 1 < q.val)
    (pLimbs : p.nlimbs = key.d.nlimbs) (qLimbs : q.nlimbs = key.d.nlimbs)
    (coprime : Nat.Coprime q.val p.val) :
    ∃ values, key.precompute = .ok (.ok (), { key with precomputed := some values }) := by
  obtain ⟨result, key', done, filled⟩ :=
    precompute_of_odd empty primes pOdd qOdd pLarge qLarge pLimbs qLimbs
  rcases precompute_cases done with ⟨cached, -⟩ | ⟨-, -, rfl⟩ | ⟨-, rfl, -, -, -, values, -, -, rfl⟩
  · simp [empty] at cached
  · simp only [empty, Option.isSome_none, Bool.false_eq_true, false_iff] at filled
    exact absurd coprime filled
  · exact ⟨values, done⟩

/-! ## `from_components` -/

/-- The given primes when there are at least two; with none, two recovered primes in the limbs
asked for, to be validated. -/
theorem choosePrimes_eq_ok {n d : BoxedUint} {e : UInt64} {limbs : Nat}
    {primes chosen : List BoxedUint} {check : Bool}
    (choice : choosePrimes n e d (64 * limbs) primes = .ok (chosen, check)) :
    2 ≤ primes.length ∧ chosen = primes ∧ check = false ∨
      primes = [] ∧ check = true ∧ ∀ p ∈ chosen, p.nlimbs = limbs := by
  unfold choosePrimes at choice
  split_ifs at choice with few given
  · obtain ⟨_, -, choice⟩ := Outcome.bind_eq_ok.mp choice
    obtain ⟨p, pExact, choice⟩ := Outcome.bind_eq_ok.mp choice
    obtain ⟨q, qExact, choice⟩ := Outcome.bind_eq_ok.mp choice
    cases choice
    have none : primes = [] := by simpa using given
    subst none
    refine .inr ⟨rfl, rfl, ?_⟩
    simp only [List.nil_append, List.mem_cons, List.mem_singleton, List.not_mem_nil, or_false]
    rintro r (rfl | rfl)
    · exact (toUintExact_eq_ok pExact).2
    · exact (toUintExact_eq_ok qExact).2
  · cases choice
    exact .inl ⟨not_lt.mp few, rfl, rfl⟩

/-- What `from_components_new` returns: the given `n`, `e` and `d` with an odd `n`, and either
the given primes (at least two), or, when none were given, recovered primes in the precision of
`n` and a key that validates. -/
theorem fromComponentsNew_eq_ok {n d : BoxedUint} {e : UInt64} {primes : List BoxedUint}
    {key : RsaPrivateKey} (built : fromComponentsNew n e d primes = .ok key) :
    key.n = n ∧ key.e = e ∧ key.d = d ∧ n.val % 2 = 1 ∧
      (2 ≤ primes.length ∧ key.primes = primes ∨
        primes = [] ∧ key.validate = .ok () ∧ ∀ p ∈ key.primes, p.nlimbs = n.nlimbs) := by
  obtain ⟨nParams, params, built⟩ := Outcome.bind_eq_ok.mp built
  obtain ⟨nC, nonzero, built⟩ := Outcome.bind_eq_ok.mp built
  obtain ⟨⟨chosen, check⟩, choice, built⟩ := Outcome.bind_eq_ok.mp built
  obtain ⟨_, validated, built⟩ := Outcome.bind_eq_ok.mp built
  obtain ⟨⟨_, k⟩, precomputed, built⟩ := Outcome.bind_eq_ok.mp built
  cases built
  have wrapped := NonZero.get_of_new (unwrap_eq_ok.mp nonzero)
  subst wrapped
  rw [precompute_eq_ok precomputed]
  refine ⟨rfl, rfl, rfl,
    BoxedResidueParams.modulus_of_new (unwrap_eq_ok.mp params) ▸ nParams.modulus_odd, ?_⟩
  rcases choosePrimes_eq_ok choice with ⟨many, rfl, -⟩ | ⟨none, rfl, limbs⟩
  · exact .inl ⟨many, rfl⟩
  · exact .inr ⟨none, validated, limbs⟩

/-- A key `from_components` builds is well sized, holds exactly the given odd `n`, `e` and `d`,
and holds the given primes in order, or validates when none were given. -/
theorem fromComponents_eq_ok {n e d : Nat} {primes : List Nat} {key : RsaPrivateKey}
    (built : fromComponents n e d primes = .ok key) :
    key.WellSized ∧ key.n.val = n ∧ key.e.toNat = e ∧ key.d.val = d ∧ n % 2 = 1 ∧
      (2 ≤ primes.length ∧ key.primeValues = primes ∨ primes = [] ∧ key.validate = .ok ()) := by
  obtain ⟨nU, nConv, built⟩ := Outcome.bind_eq_ok.mp built
  obtain ⟨eU, eConv, built⟩ := Outcome.bind_eq_ok.mp built
  obtain ⟨dU, dConv, built⟩ := Outcome.bind_eq_ok.mp built
  obtain ⟨ps, psConv, built⟩ := Outcome.bind_eq_ok.mp built
  obtain ⟨nVal, nWide⟩ := toUint_eq_ok nConv
  obtain ⟨dVal, dLimbs⟩ := toUintExact_eq_ok dConv
  obtain ⟨psVals, psLimbs⟩ := mapM_toUintExact_eq_ok psConv
  have eVal : eU.toNat = e := toNat_of_toU64 (okOr_eq_ok.mp eConv)
  obtain ⟨rfl, rfl, rfl, odd, given | recovered⟩ := fromComponentsNew_eq_ok built
  · refine ⟨⟨nWide, dLimbs, by simpa [given.2] using psLimbs⟩, nVal, eVal, dVal, nVal ▸ odd,
      .inl ⟨by simpa [← psVals] using given.1, by rw [primeValues, given.2, psVals]⟩⟩
  · obtain ⟨none, validates, limbs⟩ := recovered
    subst none
    refine ⟨⟨nWide, dLimbs, limbs⟩, nVal, eVal, dVal, nVal ▸ odd, .inr ⟨?_, validates⟩⟩
    simpa using psVals.symm

/-- An even modulus is not a typed error: the `unwrap` of its reduction context panics, although
`d` and both primes are below `n`. -/
theorem fromComponents_even_modulus_aborts : fromComponents 6 5 5 [2, 3] = .abort := by
  decide

/-- With at least two primes and an odd `n`, `from_components_new` is `precompute` on the key
with an empty cache. -/
theorem fromComponentsNew_eq_precompute {n d : BoxedUint} {e : UInt64} {primes : List BoxedUint}
    (odd : n.val % 2 = 1) (many : 2 ≤ primes.length) :
    fromComponentsNew n e d primes =
      ((⟨⟨n, e, ⟨n, odd⟩⟩, d, primes, none⟩ : RsaPrivateKey).precompute >>= fun done =>
        pure done.2) := by
  simp only [fromComponentsNew, BoxedResidueParams.new_of_odd odd,
    NonZero.new_of_ne_zero (show n.val ≠ 0 by omega), unwrap_some, Outcome.ok_bind, choosePrimes,
    if_neg (not_lt.mpr many), Outcome.pure_eq, Bool.false_eq_true, if_false]

/-- With at least two primes and an odd `n`, `from_components_new` returns the key `precompute`
returns. -/
theorem fromComponentsNew_of_many {n d : BoxedUint} {e : UInt64} {primes : List BoxedUint}
    {result : Except Error Unit} {key : RsaPrivateKey} (odd : n.val % 2 = 1)
    (many : 2 ≤ primes.length)
    (precomputed :
      (⟨⟨n, e, ⟨n, odd⟩⟩, d, primes, none⟩ : RsaPrivateKey).precompute = .ok (result, key)) :
    fromComponentsNew n e d primes = .ok key := by
  rw [fromComponentsNew_eq_precompute odd many, precomputed]
  rfl

/-- An even `n` panics in the `unwrap` of its reduction context. -/
theorem fromComponentsNew_of_even {n d : BoxedUint} {e : UInt64} {primes : List BoxedUint}
    (even : n.val % 2 = 0) : fromComponentsNew n e d primes = .abort := by
  simp [fromComponentsNew, BoxedResidueParams.new_eq_none_iff.mpr even]

theorem prod_mod_two_of_odd {primes : List Nat} (odd : ∀ p ∈ primes, p % 2 = 1) :
    primes.prod % 2 = 1 :=
  Nat.odd_iff.mp <| Nat.coprime_two_right.mp <| Nat.coprime_list_prod_left_iff.mpr
    fun x member => Nat.coprime_two_right.mpr (Nat.odd_iff.mpr (odd x member))

/-- Components whose conversions succeed: `n` of at most `2 ^ 32 - 64` bits, a `u64` exponent,
and `d` and the primes in the precision `to_uint` gives `n`. `from_components` is then
`from_components_new` on the converted values. -/
theorem fromComponents_eq_new {n e d : Nat} {primes : List Nat}
    (size : bitLength n ≤ 2 ^ 32 - 64) (eSmall : e < 2 ^ 64)
    (dFits : d < 2 ^ (64 * uintLimbs n)) (fit : ∀ x ∈ primes, x < 2 ^ (64 * uintLimbs n)) :
    ∃ nU dU ps, fromComponents n e d primes = fromComponentsNew nU (UInt64.ofNat e) dU ps ∧
      nU.val = n ∧ dU.val = d ∧ ps.map BoxedUint.val = primes ∧ dU.nlimbs = nU.nlimbs ∧
      ∀ p ∈ ps, p.nlimbs = nU.nlimbs := by
  obtain ⟨nU, nConv, nVal, nLimbs⟩ := toUint_of_narrow size
  obtain ⟨dU, dConv, dVal, dLimbs⟩ :=
    toUintExact_eq (fits_uintLimbs size dFits).1 (fits_uintLimbs size dFits).2
  obtain ⟨ps, psConv⟩ := @mapM_toUintExact_of_fits _ (uintLimbs n)
    fun x member => fits_uintLimbs size (fit x member)
  obtain ⟨psVals, psLimbs⟩ := mapM_toUintExact_eq_ok psConv
  refine ⟨nU, dU, ps, ?_, nVal, dVal, psVals, dLimbs.trans nLimbs.symm,
    fun p member => (psLimbs p member).trans nLimbs.symm⟩
  rw [fromComponents, nConv, Outcome.ok_bind, toU64_eq eSmall, okOr_some, Outcome.ok_bind,
    bitsPrecision, nLimbs, dConv, Outcome.ok_bind, psConv, Outcome.ok_bind]

/-- Numbers of at least two, and a `d` below their `λ`, fit the precision `to_uint` gives their
product. -/
theorem fits_of_primes {primes : List Nat} {d : Nat} (large : ∀ p ∈ primes, 2 ≤ p)
    (below : d < exponentLcm primes) :
    d < 2 ^ (64 * uintLimbs primes.prod) ∧ ∀ x ∈ primes, x < 2 ^ (64 * uintLimbs primes.prod) := by
  have positive : 0 < primes.prod :=
    List.prod_pos fun x member => by have := large x member; omega
  have fits : ∀ x ≤ primes.prod, x < 2 ^ (64 * uintLimbs primes.prod) :=
    fun x le => lt_of_le_of_lt le (lt_two_pow_uintLimbs _)
  exact ⟨fits d (below.le.trans (exponentLcm_le_prod large)),
    fun x member => fits x (Nat.le_of_dvd positive (List.dvd_prod member))⟩

/-- Converted primes whose values start with two. -/
theorem eq_cons_cons_of_map {ps : List BoxedUint} {p q : Nat} {rest : List Nat}
    (values : ps.map BoxedUint.val = p :: q :: rest) :
    ∃ pU qU restU, ps = pU :: qU :: restU ∧ pU.val = p ∧ qU.val = q := by
  rcases ps with _ | ⟨pU, _ | ⟨qU, restU⟩⟩ <;> simp only [List.map_nil, List.map_cons,
    List.cons.injEq, reduceCtorEq, false_and, and_false] at values
  exact ⟨pU, qU, restU, rfl, values.1, values.2.1⟩

/-- Components that convert, with an odd `n` and first two primes odd and above one, build a
key, whose cache is filled exactly when the second prime is a unit modulo the first. -/
theorem fromComponents_of_odd {n e d p q : Nat} {rest : List Nat}
    (size : bitLength n ≤ 2 ^ 32 - 64) (eSmall : e < 2 ^ 64)
    (dFits : d < 2 ^ (64 * uintLimbs n)) (fit : ∀ x ∈ p :: q :: rest, x < 2 ^ (64 * uintLimbs n))
    (nOdd : n % 2 = 1) (pOdd : p % 2 = 1) (pLarge : 1 < p) (qOdd : q % 2 = 1) (qLarge : 1 < q) :
    ∃ key, fromComponents n e d (p :: q :: rest) = .ok key ∧
      (key.precomputed.isSome ↔ Nat.Coprime q p) := by
  obtain ⟨nU, dU, ps, converted, rfl, -, psVals, dLimbs, psLimbs⟩ :=
    fromComponents_eq_new size eSmall dFits fit
  obtain ⟨pU, qU, restU, rfl, rfl, rfl⟩ := eq_cons_cons_of_map psVals
  have empty : (⟨⟨nU, UInt64.ofNat e, ⟨nU, nOdd⟩⟩, dU, pU :: qU :: restU, none⟩ :
      RsaPrivateKey).precomputed = none := rfl
  obtain ⟨_, key, done, filled⟩ := precompute_of_odd empty rfl pOdd qOdd pLarge qLarge
    ((psLimbs pU (by simp)).trans dLimbs.symm) ((psLimbs qU (by simp)).trans dLimbs.symm)
  exact ⟨key, converted.trans (fromComponentsNew_of_many nOdd (by simp) done), filled⟩

/-- On components that convert, `from_components` builds the key of exactly those components,
with its cache filled exactly when `q` is a unit modulo `p`, when `n`, `p` and `q` are odd and
`p, q > 1`, and panics otherwise. -/
theorem fromComponents_outcome {n e d p q : Nat} {rest : List Nat}
    (size : bitLength n ≤ 2 ^ 32 - 64) (eSmall : e < 2 ^ 64)
    (dFits : d < 2 ^ (64 * uintLimbs n)) (fit : ∀ x ∈ p :: q :: rest, x < 2 ^ (64 * uintLimbs n)) :
    (n % 2 = 1 ∧ p % 2 = 1 ∧ 1 < p ∧ q % 2 = 1 ∧ 1 < q →
      ∃ key, fromComponents n e d (p :: q :: rest) = .ok key ∧ key.n.val = n ∧
        key.e.toNat = e ∧ key.d.val = d ∧ key.primeValues = p :: q :: rest ∧
        (key.precomputed.isSome ↔ Nat.Coprime q p)) ∧
    (¬ (n % 2 = 1 ∧ p % 2 = 1 ∧ 1 < p ∧ q % 2 = 1 ∧ 1 < q) →
      fromComponents n e d (p :: q :: rest) = .abort) := by
  refine ⟨fun ⟨nOdd, pOdd, pLarge, qOdd, qLarge⟩ => ?_, fun bad => ?_⟩
  · obtain ⟨key, built, filled⟩ :=
      fromComponents_of_odd size eSmall dFits fit nOdd pOdd pLarge qOdd qLarge
    obtain ⟨-, nVal, eVal, dVal, -, given | ⟨none, -⟩⟩ := fromComponents_eq_ok built
    · exact ⟨key, built, nVal, eVal, dVal, given.2, filled⟩
    · cases none
  obtain ⟨nU, dU, ps, converted, rfl, -, psVals, dLimbs, psLimbs⟩ :=
    fromComponents_eq_new size eSmall dFits fit
  obtain ⟨pU, qU, restU, rfl, rfl, rfl⟩ := eq_cons_cons_of_map psVals
  rw [converted]
  by_cases nOdd : nU.val % 2 = 1
  · have empty : (⟨⟨nU, UInt64.ofNat e, ⟨nU, nOdd⟩⟩, dU, pU :: qU :: restU, none⟩ :
        RsaPrivateKey).precomputed = none := rfl
    rw [fromComponentsNew_eq_precompute nOdd (by simp), (precompute_eq_abort_iff empty rfl
      ((psLimbs pU (by simp)).trans dLimbs.symm) ((psLimbs qU (by simp)).trans dLimbs.symm)).mpr
      (by omega)]
    rfl
  · exact fromComponentsNew_of_even (by omega)

theorem fromComponents_outcome_on_small_keys :
    (∃ key, fromComponents 55 3 27 [5, 11] = .ok key ∧ key.n.val = 55 ∧ key.e.toNat = 3 ∧
      key.d.val = 27 ∧ key.primeValues = [5, 11] ∧ (key.precomputed.isSome ↔ Nat.Coprime 11 5)) ∧
    fromComponents 55 3 27 [5, 1] = .abort :=
  ⟨(fromComponents_outcome (by decide) (by decide) (by decide) (by decide)).1 (by decide),
    (fromComponents_outcome (by decide) (by decide) (by decide) (by decide)).2 (by decide)⟩

/-- Components of at most `MAX_SIZE` bits, with a `u64` exponent and `d` and every prime at most
`n`, convert: `from_components` is `from_components_new` on the converted values, the primes in
the limbs of `d`. -/
theorem fromComponents_of_fits {n e d : Nat} {primes : List Nat}
    (size : bitLength n ≤ RsaPublicKey.maxSize) (eSmall : e < 2 ^ 64) (dSmall : d ≤ n)
    (le : ∀ p ∈ primes, p ≤ n) :
    ∃ nU dU ps, fromComponents n e d primes = fromComponentsNew nU (UInt64.ofNat e) dU ps ∧
      nU.val = n ∧ ps.map BoxedUint.val = primes ∧ ∀ p ∈ ps, p.nlimbs = dU.nlimbs := by
  have below : ∀ x ≤ n, x < 2 ^ (64 * uintLimbs n) :=
    fun x le => lt_of_le_of_lt le (lt_two_pow_uintLimbs n)
  obtain ⟨nU, dU, ps, converted, nVal, -, psVals, dLimbs, psLimbs⟩ :=
    fromComponents_eq_new (size.trans (by decide)) eSmall (below d dSmall)
      fun x member => below x (le x member)
  exact ⟨nU, dU, ps, converted, nVal, psVals, fun p member => (psLimbs p member).trans dLimbs.symm⟩

/-- `from_components` on distinct odd primes whose product fits `MAX_SIZE`, with a `u64`
exponent and a private exponent below the product, builds a key and fills its cache. -/
theorem fromComponents_of_primes {primes : List Nat} {e d : Nat} (two : 2 ≤ primes.length)
    (prime : ∀ p ∈ primes, p.Prime) (odd : ∀ p ∈ primes, p % 2 = 1) (distinct : primes.Nodup)
    (size : bitLength primes.prod ≤ RsaPublicKey.maxSize) (eSmall : e < 2 ^ 64)
    (dSmall : d ≤ primes.prod) :
    ∃ key, fromComponents primes.prod e d primes = .ok key ∧ key.precomputed.isSome := by
  obtain ⟨p, q, rest, rfl⟩ : ∃ p q rest, primes = p :: q :: rest :=
    match primes, two with
    | p :: q :: rest, _ => ⟨p, q, rest, rfl⟩
  have positive : 0 < (p :: q :: rest).prod := List.prod_pos fun x member => (prime x member).pos
  obtain ⟨nU, dU, ps, converted, nVal, psVals, psLimbs⟩ := fromComponents_of_fits size eSmall
    dSmall fun x member => Nat.le_of_dvd positive (List.dvd_prod member)
  have nOdd : nU.val % 2 = 1 := nVal ▸ prod_mod_two_of_odd odd
  obtain ⟨pU, qU, restU, rfl⟩ : ∃ pU qU restU, ps = pU :: qU :: restU :=
    match ps, psVals with
    | pU :: qU :: restU, _ => ⟨pU, qU, restU, rfl⟩
  simp only [List.map_cons, List.cons.injEq] at psVals
  obtain ⟨rfl, rfl, -⟩ := psVals
  have pPrime := prime _ (List.mem_cons_self _ _)
  have qPrime := prime _ (List.mem_cons_of_mem _ (List.mem_cons_self _ _))
  have coprime : Nat.Coprime qU.val pU.val :=
    (Nat.coprime_primes qPrime pPrime).mpr fun same => by simp_all
  obtain ⟨values, precomputed⟩ := precompute_of_coprime
    (show (⟨⟨nU, UInt64.ofNat e, ⟨nU, nOdd⟩⟩, dU, pU :: qU :: restU, none⟩ :
      RsaPrivateKey).precomputed = none from rfl) rfl
    (odd _ (List.mem_cons_self _ _)) (odd _ (List.mem_cons_of_mem _ (List.mem_cons_self _ _)))
    pPrime.one_lt qPrime.one_lt (psLimbs pU (by simp)) (psLimbs qU (by simp)) coprime
  exact ⟨_, converted.trans (fromComponentsNew_of_many nOdd (by simp) precomputed), rfl⟩

/-- On a key that `from_components` built from odd primes of at least three, with a `d` that
inverts `e` modulo their `λ`, the per-prime and product checks of `validate` pass, so it accepts
exactly when the public checks do. -/
theorem validate_eq_ok_iff_public {primes : List Nat} {e d : Nat} {key : RsaPrivateKey}
    (built : fromComponents primes.prod e d primes = .ok key) (two : 2 ≤ primes.length)
    (odd : ∀ p ∈ primes, p % 2 = 1 ∧ 3 ≤ p) (inverse : e * d ≡ 1 [MOD exponentLcm primes]) :
    key.n.val = primes.prod ∧ key.primeValues = primes ∧
      (key.validate = .ok () ↔ PublicWellFormed key.n.val key.e.toNat RsaPublicKey.maxSize) := by
  obtain ⟨sized, nVal, eVal, dVal, -, given | ⟨none, -⟩⟩ := fromComponents_eq_ok built
  swap
  · subst none
    simp at two
  have three : ∀ p ∈ key.primes, 3 ≤ p.val :=
    fun p member => (odd _ (given.2 ▸ List.mem_map_of_mem _ member)).2
  have product : key.primeValues.prod % 2 ^ (64 * key.n.nlimbs) = key.n.val := by
    rw [given.2, ← nVal]
    exact Nat.mod_eq_of_lt key.n.val_lt
  have congruent : ∀ p ∈ key.primes, p.val ≠ 1 ∧ key.d.val * key.e.toNat % (p.val - 1) = 1 := by
    intro p member
    have := three p member
    refine ⟨by omega, ?_⟩
    rw [dVal, eVal, mul_comm]
    exact Eq.trans (Nat.ModEq.of_dvd
      (dvd_exponentLcm (given.2 ▸ List.mem_map_of_mem BoxedUint.val member)) inverse)
      (Nat.mod_eq_of_lt (show 1 < p.val - 1 by omega))
  refine ⟨nVal, given.2, ?_⟩
  rw [validate_eq_ok_iff sized]
  exact ⟨fun accepted => accepted.1, fun public =>
    ⟨public, fun p member => by have := three p member; omega, product, congruent⟩⟩

/-- `from_primes` on distinct odd primes and an admissible exponent invertible modulo `λ`. -/
theorem fromPrimes_of_nodup {primes : List Nat} {e : Nat} (two : 2 ≤ primes.length)
    (prime : ∀ p ∈ primes, p.Prime) (odd : ∀ p ∈ primes, p % 2 = 1) (distinct : primes.Nodup)
    (public : PublicWellFormed primes.prod e RsaPublicKey.maxSize)
    (coprime : Nat.Coprime e (exponentLcm primes)) :
    ∃ key, fromPrimes primes e = .ok key ∧ key.n.val = primes.prod ∧ key.primeValues = primes ∧
      key.precomputed.isSome ∧ key.validate = .ok () := by
  obtain ⟨d, derived⟩ := computePrivateExponentEulerTotient_of_coprime coprime
  obtain ⟨inverse, below⟩ := computePrivateExponentEulerTotient_eq_ok derived
  have large : ∀ p ∈ primes, 2 ≤ p := fun p member => (prime p member).two_le
  have dSmall : d ≤ primes.prod :=
    (below (exponentLcm_pos large)).le.trans (exponentLcm_le_prod large)
  have eSmall := public.e_lt_two_pow
  obtain ⟨key, built, cached⟩ :=
    fromComponents_of_primes two prime odd distinct public.size_le eSmall dSmall
  have unfolded : fromPrimes primes e = fromComponents primes.prod e d primes := by
    simp [fromPrimes, not_lt.mpr two, (repeatsEarlier_nil_eq_false_iff primes).mpr distinct,
      computeModulus, derived]
  obtain ⟨nVal, values, valid⟩ := validate_eq_ok_iff_public built two
    (fun p member => ⟨odd p member, by have := (prime p member).two_le; have := odd p member; omega⟩)
    inverse
  have eVal : key.e.toNat = e := (fromComponents_eq_ok built).2.2.1
  exact ⟨key, unfolded.trans built, nVal, values, cached, valid.mpr (nVal ▸ eVal ▸ public)⟩

/-- `from_primes` rejects a repeated prime. -/
theorem fromPrimes_of_duplicate {primes : List Nat} {e : Nat} (two : 2 ≤ primes.length)
    (repeated : ¬ primes.Nodup) : fromPrimes primes e = .err .invalidPrime := by
  have found : repeatsEarlier [] primes = true := by
    simpa only [Bool.not_eq_false] using mt (repeatsEarlier_nil_eq_false_iff primes).mp repeated
  simp [fromPrimes, not_lt.mpr two, found]

/-- `from_primes` panics on distinct numbers of at least two among which is `2`, with a `u64`
exponent invertible modulo their `λ`. -/
theorem fromPrimes_aborts_with_prime_two {primes : List Nat} {e : Nat} (two : 2 ≤ primes.length)
    (distinct : primes.Nodup) (large : ∀ p ∈ primes, 2 ≤ p) (even : 2 ∈ primes)
    (eSmall : e < 2 ^ 64) (coprime : Nat.Coprime e (exponentLcm primes)) :
    fromPrimes primes e = .abort := by
  obtain ⟨d, derived⟩ := computePrivateExponentEulerTotient_of_coprime coprime
  obtain ⟨-, below⟩ := computePrivateExponentEulerTotient_eq_ok derived
  have unfolded : fromPrimes primes e = fromComponents primes.prod e d primes := by
    simp [fromPrimes, not_lt.mpr two, (repeatsEarlier_nil_eq_false_iff primes).mpr distinct,
      computeModulus, derived]
  rw [unfolded]
  by_cases size : bitLength primes.prod ≤ 2 ^ 32 - 64
  · obtain ⟨dFits, fit⟩ := fits_of_primes large (below (exponentLcm_pos large))
    obtain ⟨nU, dU, ps, converted, nVal, -⟩ := fromComponents_eq_new size eSmall dFits fit
    have nEven : nU.val % 2 = 0 := nVal ▸ Nat.mod_eq_zero_of_dvd (List.dvd_prod even)
    rw [converted, fromComponentsNew_of_even nEven]
  · rw [fromComponents, toUint_abort (by omega), Outcome.abort_bind]

theorem fromPrimes_aborts_with_prime_two_and_three : fromPrimes [2, 3] 5 = .abort :=
  fromPrimes_aborts_with_prime_two (by decide) (by decide) (by decide) (by decide) (by decide)
    (by decide)

/-- `from_p_q` on two distinct odd primes is `from_primes` on the list of the two, without the
check of the length. -/
theorem fromPQ_eq {p q e : Nat} (distinct : p ≠ q) :
    fromPQ p q e = fromPrimes [p, q] e := by
  simp [fromPQ, fromPrimes, distinct, distinct.symm, repeatsEarlier,
    computePrivateExponentCarmicheal_eq]

/-- `from_primes` and `from_p_q` build a validating key of exactly the given distinct odd primes
for every exponent the public checks accept that is invertible modulo `λ`, and `from_primes`
rejects every list with a repeated prime. -/
theorem fromPrimes_builds_valid_keys :
    (∀ (primes : List Nat) (e : Nat), 2 ≤ primes.length → (∀ p ∈ primes, p.Prime ∧ p % 2 = 1) →
      primes.Nodup → bitLength primes.prod ≤ 4096 → e % 2 = 1 → 3 ≤ e → e ≤ 2 ^ 33 - 1 →
      e < primes.prod → Nat.Coprime e (exponentLcm primes) →
      ∃ key, fromPrimes primes e = .ok key ∧ key.n.val = primes.prod ∧
        key.primeValues = primes ∧ key.precomputed.isSome ∧ key.validate = .ok ()) ∧
    (∀ p q e : Nat, p ≠ q → p.Prime → q.Prime → p % 2 = 1 → q % 2 = 1 →
      bitLength (p * q) ≤ 4096 → e % 2 = 1 → 3 ≤ e → e ≤ 2 ^ 33 - 1 → e < p * q →
      Nat.Coprime e (Nat.lcm (p - 1) (q - 1)) →
      ∃ key, fromPQ p q e = .ok key ∧ key.n.val = p * q ∧ key.primeValues = [p, q] ∧
        key.precomputed.isSome ∧ key.validate = .ok ()) ∧
    (∀ (primes : List Nat) (e : Nat), 2 ≤ primes.length → ¬ primes.Nodup →
      fromPrimes primes e = .err .invalidPrime) := by
  refine ⟨fun primes e two prime distinct size eOdd eLarge eSmall below coprime => ?_,
    fun p q e distinct pPrime qPrime pOdd qOdd size eOdd eLarge eSmall below coprime => ?_,
    fun _ _ two repeated => fromPrimes_of_duplicate two repeated⟩
  · have odd : ∀ p ∈ primes, p % 2 = 1 := fun p member => (prime p member).2
    exact fromPrimes_of_nodup two (fun p member => (prime p member).1) odd distinct
      ⟨size, below, prod_mod_two_of_odd odd, eOdd, by unfold RsaPublicKey.minPubExponent; omega,
        eSmall⟩ coprime
  · rw [fromPQ_eq distinct]
    have odd : ∀ x ∈ [p, q], x % 2 = 1 := by simp [pOdd, qOdd]
    simpa using fromPrimes_of_nodup (by simp) (by simp [pPrime, qPrime]) odd (by simp [distinct])
      ⟨by simpa using size, by simpa using below, prod_mod_two_of_odd odd, eOdd,
        by unfold RsaPublicKey.minPubExponent; omega, eSmall⟩
      (by simpa [exponentLcm] using coprime)

theorem fromPrimes_builds_valid_keys_on_five_eleven :
    (∃ key, fromPrimes [5, 11] 3 = .ok key ∧ key.n.val = [5, 11].prod ∧
      key.primeValues = [5, 11] ∧ key.precomputed.isSome ∧ key.validate = .ok ()) ∧
    (∃ key, fromPQ 11 5 3 = .ok key ∧ key.n.val = 11 * 5 ∧ key.primeValues = [11, 5] ∧
      key.precomputed.isSome ∧ key.validate = .ok ()) ∧
    fromPrimes [5, 11, 5] 3 = .err .invalidPrime :=
  ⟨fromPrimes_builds_valid_keys.1 [5, 11] 3 (by decide) (by norm_num) (by decide) (by decide)
      (by decide) (by decide) (by decide) (by decide) (by decide),
    fromPrimes_builds_valid_keys.2.1 11 5 3 (by decide) (by norm_num) (by norm_num) (by decide)
      (by decide) (by decide) (by decide) (by decide) (by decide) (by decide) (by decide),
    fromPrimes_builds_valid_keys.2.2 [5, 11, 5] 3 (by decide) (by decide)⟩

end RsaPrivateKey

end RsaKeys
