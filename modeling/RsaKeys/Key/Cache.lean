import RsaKeys.Key.Private

/-!
# The cache of CRT values

`precompute` fills the cache of a key from its first two primes `p` and `q`: `d mod (p - 1)`,
`d mod (q - 1)`, `q⁻¹ mod p` and the reduction contexts of `p` and `q`. `clear_precomputed`
empties it. This file says once everything a call of `precompute` can do (`precompute_cases`),
and derives from it that along every sequence of the two calls on a key that `from_components`
built, a present cache holds exactly those values of the key's own `d` and primes, that the calls
change nothing else, and that `crt_coefficient`, which computes `q⁻¹ mod p` afresh, agrees with
the cached inverse.
-/

namespace RsaKeys

open BoxedUint

/-- What the cache of a key with private exponent `d` and first primes `p` and `q` holds:
`d mod (p - 1)`, `d mod (q - 1)`, a residue modulo `p` inverting `q`, and the contexts of `p`
and `q`. -/
structure PrecomputedValues.Describes (values : PrecomputedValues) (d p q : BoxedUint) : Prop where
  dp_val : values.dp.val = d.val % (p.val - 1)
  dq_val : values.dq.val = d.val % (q.val - 1)
  qinv_modulus : values.qinv.params.modulus = p
  qinv_mul : values.qinv.value * q.val ≡ 1 [MOD p.val]
  pParams_modulus : values.pParams.modulus = p
  qParams_modulus : values.qParams.modulus = q

namespace RsaPrivateKey

/-- The cache invariant: a present cache holds the CRT values of the key's own `d` and first two
primes. -/
def CacheValid (key : RsaPrivateKey) : Prop :=
  ∀ values, key.precomputed = some values →
    ∃ p q rest, key.primes = p :: q :: rest ∧ values.Describes key.d p q

theorem cacheValid_of_none {key : RsaPrivateKey} (empty : key.precomputed = none) :
    key.CacheValid := by
  intro values present
  rw [empty] at present
  cases present

/-- The first two primes, as `precompute` indexes them. -/
theorem primes_eq_cons_cons {primes : List BoxedUint} {p q : BoxedUint}
    (first : primes[0]? = some p) (second : primes[1]? = some q) :
    ∃ rest, primes = p :: q :: rest := by
  rcases primes with _ | ⟨a, _ | ⟨b, rest⟩⟩
  · simp at first
  · simp at second
  · simp only [List.getElem?_cons_zero, List.getElem?_cons_succ, Option.some.injEq] at first second
    exact ⟨rest, by rw [first, second]⟩

/-- `precompute` leaves a key with a cache as it is, and on an empty cache either fails with
`InvalidPrime` leaving the key as it is or fills the cache with the CRT values alone. -/
theorem precompute_cases {key key' : RsaPrivateKey} {result : Except Error Unit}
    (done : key.precompute = .ok (result, key')) :
    key.precomputed.isSome ∧ result = .ok () ∧ key' = key ∨
      key.precomputed = none ∧ result = .error .invalidPrime ∧ key' = key ∨
      key.precomputed = none ∧ result = .ok () ∧ ∃ p q rest values,
        key.primes = p :: q :: rest ∧ values.Describes key.d p q ∧
          key' = { key with precomputed := some values } := by
  unfold precompute at done
  split_ifs at done with cached
  · cases done
    exact .inl ⟨cached, rfl, rfl⟩
  have empty : key.precomputed = none := Option.not_isSome_iff_eq_none.mp cached
  obtain ⟨p, first, done⟩ := Outcome.bind_eq_ok.mp done
  obtain ⟨q, second, done⟩ := Outcome.bind_eq_ok.mp done
  obtain ⟨pParams, pBuilt, done⟩ := Outcome.bind_eq_ok.mp done
  obtain ⟨qParams, qBuilt, done⟩ := Outcome.bind_eq_ok.mp done
  obtain ⟨x, xBuilt, done⟩ := Outcome.bind_eq_ok.mp done
  obtain ⟨dp, dpDone, done⟩ := Outcome.bind_eq_ok.mp done
  obtain ⟨y, yBuilt, done⟩ := Outcome.bind_eq_ok.mp done
  obtain ⟨dq, dqDone, done⟩ := Outcome.bind_eq_ok.mp done
  obtain ⟨residue, residueBuilt, done⟩ := Outcome.bind_eq_ok.mp done
  split at done
  · cases done
    exact .inr (.inl ⟨empty, rfl, rfl⟩)
  rename_i inverse inverted
  cases done
  obtain ⟨rest, primes⟩ := primes_eq_cons_cons (unwrap_eq_ok.mp first) (unwrap_eq_ok.mp second)
  have pModulus := BoxedResidueParams.modulus_of_new (unwrap_eq_ok.mp pBuilt)
  have qModulus := BoxedResidueParams.modulus_of_new (unwrap_eq_ok.mp qBuilt)
  obtain ⟨residueParams, residueValue⟩ := BoxedResidue.new_eq_ok residueBuilt
  obtain ⟨inverseParams, found⟩ := BoxedResidue.invert_eq_some inverted
  rw [residueParams, pModulus, residueValue, pModulus] at found
  refine .inr (.inr ⟨empty, rfl, p, q, rest, _, primes, ⟨?_, ?_, ?_, ?_, pModulus, qModulus⟩, rfl⟩)
  · rw [val_of_remVartime dpDone, NonZero.get_of_new (unwrap_eq_ok.mp xBuilt),
      val_wrappingSub_one (pModulus ▸ pParams.modulus_pos)]
  · rw [val_of_remVartime dqDone, NonZero.get_of_new (unwrap_eq_ok.mp yBuilt),
      val_wrappingSub_one (qModulus ▸ qParams.modulus_pos)]
  · rw [inverseParams, residueParams, pModulus]
  · calc inverse.value * q.val = q.val * inverse.value := Nat.mul_comm _ _
      _ ≡ q.val % p.val * inverse.value [MOD p.val] := (Nat.mod_modEq _ _).symm.mul_right _
      _ ≡ 1 [MOD p.val] := mul_modInverse found

/-- `precompute` changes the cache only. -/
theorem precompute_eq_ok {key key' : RsaPrivateKey} {result : Except Error Unit}
    (done : key.precompute = .ok (result, key')) :
    key' = { key with precomputed := key'.precomputed } := by
  rcases precompute_cases done with ⟨-, -, rfl⟩ | ⟨-, -, rfl⟩ | ⟨-, -, -, -, -, -, -, -, rfl⟩ <;> rfl

/-- A `precompute` that returns on an empty cache has found two primes, both odd and above one. -/
theorem primes_of_precompute {key key' : RsaPrivateKey} {result : Except Error Unit}
    (empty : key.precomputed = none) (done : key.precompute = .ok (result, key')) :
    ∃ p q rest, key.primes = p :: q :: rest ∧
      p.val % 2 = 1 ∧ 1 < p.val ∧ q.val % 2 = 1 ∧ 1 < q.val := by
  simp only [precompute, empty, Option.isSome_none, Bool.false_eq_true, if_false] at done
  obtain ⟨p, first, done⟩ := Outcome.bind_eq_ok.mp done
  obtain ⟨q, second, done⟩ := Outcome.bind_eq_ok.mp done
  obtain ⟨pParams, pBuilt, done⟩ := Outcome.bind_eq_ok.mp done
  obtain ⟨qParams, qBuilt, done⟩ := Outcome.bind_eq_ok.mp done
  obtain ⟨x, xBuilt, done⟩ := Outcome.bind_eq_ok.mp done
  obtain ⟨_, -, done⟩ := Outcome.bind_eq_ok.mp done
  obtain ⟨y, yBuilt, -⟩ := Outcome.bind_eq_ok.mp done
  obtain ⟨rest, primes⟩ := primes_eq_cons_cons (unwrap_eq_ok.mp first) (unwrap_eq_ok.mp second)
  have pOdd := BoxedResidueParams.modulus_of_new (unwrap_eq_ok.mp pBuilt) ▸ pParams.modulus_odd
  have qOdd := BoxedResidueParams.modulus_of_new (unwrap_eq_ok.mp qBuilt) ▸ qParams.modulus_odd
  have pMinus := NonZero.get_of_new (unwrap_eq_ok.mp xBuilt) ▸ x.get_ne_zero
  have qMinus := NonZero.get_of_new (unwrap_eq_ok.mp yBuilt) ▸ y.get_ne_zero
  rw [val_wrappingSub_one (by omega)] at pMinus qMinus
  exact ⟨p, q, rest, primes, pOdd, by omega, qOdd, by omega⟩

/-- On a key with an empty cache whose first two primes are odd, above one and in the precision
of `d`, `precompute` returns, and fills the cache exactly when `q` is a unit modulo `p`. -/
theorem precompute_of_odd {key : RsaPrivateKey} {p q : BoxedUint} {rest : List BoxedUint}
    (empty : key.precomputed = none) (primes : key.primes = p :: q :: rest)
    (pOdd : p.val % 2 = 1) (qOdd : q.val % 2 = 1) (pLarge : 1 < p.val) (qLarge : 1 < q.val)
    (pLimbs : p.nlimbs = key.d.nlimbs) (qLimbs : q.nlimbs = key.d.nlimbs) :
    ∃ result key', key.precompute = .ok (result, key') ∧
      (key'.precomputed.isSome ↔ Nat.Coprime q.val p.val) := by
  have unit : Nat.Coprime (q.val % p.val) p.val ↔ Nat.Coprime q.val p.val := by
    rw [Nat.Coprime, Nat.Coprime, ← Nat.gcd_rec, Nat.gcd_comm]
  have pMinus := val_wrappingSub_one (show 0 < p.val by omega)
  have qMinus := val_wrappingSub_one (show 0 < q.val by omega)
  have pWide := one_le_nlimbs (show p.val ≠ 0 by omega)
  have qWide := one_le_nlimbs (show q.val ≠ 0 by omega)
  simp only [precompute, empty, Option.isSome_none, Bool.false_eq_true, if_false, primes,
    List.getElem?_cons_zero, List.getElem?_cons_succ, unwrap_some, Outcome.ok_bind,
    BoxedResidueParams.new_of_odd pOdd, BoxedResidueParams.new_of_odd qOdd,
    NonZero.new_of_ne_zero (show (p.wrappingSub BoxedUint.one).val ≠ 0 by omega),
    NonZero.new_of_ne_zero (show (q.wrappingSub BoxedUint.one).val ≠ 0 by omega)]
  rw [remVartime_eq ((nlimbs_wrappingSub_one pWide).trans pLimbs).symm, Outcome.ok_bind,
    remVartime_eq ((nlimbs_wrappingSub_one qWide).trans qLimbs).symm, Outcome.ok_bind,
    BoxedResidue.new_eq (qLimbs.trans pLimbs.symm), Outcome.ok_bind]
  split
  next inverted =>
    refine ⟨_, _, rfl, ?_⟩
    simpa [empty, ← unit] using BoxedResidue.invert_eq_none_iff.mp inverted
  next inverted =>
    refine ⟨_, _, rfl, ?_⟩
    simp only [Option.isSome_some, true_iff, ← unit, ← modInverse_isSome_iff]
    rw [(BoxedResidue.invert_eq_some inverted).2]
    rfl

/-- On a key with an empty cache and its first two primes in the precision of `d`, `precompute`
panics exactly when one of the two is even or one. -/
theorem precompute_eq_abort_iff {key : RsaPrivateKey} {p q : BoxedUint} {rest : List BoxedUint}
    (empty : key.precomputed = none) (primes : key.primes = p :: q :: rest)
    (pLimbs : p.nlimbs = key.d.nlimbs) (qLimbs : q.nlimbs = key.d.nlimbs) :
    key.precompute = .abort ↔ ¬ (p.val % 2 = 1 ∧ 1 < p.val ∧ q.val % 2 = 1 ∧ 1 < q.val) := by
  refine ⟨fun aborted ⟨pOdd, pLarge, qOdd, qLarge⟩ => ?_, fun bad => ?_⟩
  · obtain ⟨_, _, done, -⟩ := precompute_of_odd empty primes pOdd qOdd pLarge qLarge pLimbs qLimbs
    rw [aborted] at done
    cases done
  simp only [precompute, empty, Option.isSome_none, Bool.false_eq_true, if_false, primes,
    List.getElem?_cons_zero, List.getElem?_cons_succ, unwrap_some, Outcome.ok_bind]
  by_cases pOdd : p.val % 2 = 1
  swap
  · rw [BoxedResidueParams.new_eq_none_iff.mpr (by omega), unwrap_none, Outcome.abort_bind]
  rw [BoxedResidueParams.new_of_odd pOdd, unwrap_some, Outcome.ok_bind]
  by_cases qOdd : q.val % 2 = 1
  swap
  · rw [BoxedResidueParams.new_eq_none_iff.mpr (by omega), unwrap_none, Outcome.abort_bind]
  rw [BoxedResidueParams.new_of_odd qOdd, unwrap_some, Outcome.ok_bind]
  have pMinus := val_wrappingSub_one (show 0 < p.val by omega)
  by_cases pLarge : 1 < p.val
  swap
  · rw [NonZero.new_eq_none_iff.mpr (by omega), unwrap_none, Outcome.abort_bind]
  have qMinus := val_wrappingSub_one (show 0 < q.val by omega)
  have pWide := one_le_nlimbs (show p.val ≠ 0 by omega)
  rw [NonZero.new_of_ne_zero (show (p.wrappingSub BoxedUint.one).val ≠ 0 by omega), unwrap_some,
    Outcome.ok_bind, remVartime_eq ((nlimbs_wrappingSub_one pWide).trans pLimbs).symm,
    Outcome.ok_bind, NonZero.new_eq_none_iff.mpr (by omega),    unwrap_none, Outcome.abort_bind]

/-- `precompute` keeps the cache invariant. -/
theorem CacheValid.precompute {key key' : RsaPrivateKey} {result : Except Error Unit}
    (valid : key.CacheValid) (done : key.precompute = .ok (result, key')) : key'.CacheValid := by
  rcases precompute_cases done with ⟨-, -, rfl⟩ | ⟨-, -, rfl⟩ | ⟨-, -, p, q, rest, values, primes,
    describes, rfl⟩
  · exact valid
  · exact valid
  · rintro _ ⟨⟩
    exact ⟨p, q, rest, primes, describes⟩

/-- `clear_precomputed` keeps the cache invariant. -/
theorem CacheValid.clearPrecomputed (key : RsaPrivateKey) : key.clearPrecomputed.CacheValid :=
  cacheValid_of_none rfl

end RsaPrivateKey

/-- A call a caller can make on the cache of a key. -/
inductive CacheCall
  /-- `precompute()`, whose `Result` the caller may drop. -/
  | precompute
  /-- `clear_precomputed()`. -/
  | clearPrecomputed
  deriving DecidableEq

/-- The key after a sequence of calls on its cache; a panic ends the sequence. -/
def runCacheCalls : RsaPrivateKey → List CacheCall → Outcome RsaPrivateKey
  | key, [] => .ok key
  | key, .precompute :: calls => do
      let (_, key) ← key.precompute
      runCacheCalls key calls
  | key, .clearPrecomputed :: calls => runCacheCalls key.clearPrecomputed calls

namespace RsaPrivateKey

/-- Every sequence of calls keeps the cache invariant. -/
theorem CacheValid.runCacheCalls {key key' : RsaPrivateKey} (valid : key.CacheValid)
    {calls : List CacheCall} (ran : runCacheCalls key calls = .ok key') : key'.CacheValid := by
  induction calls generalizing key with
  | nil =>
      cases ran
      exact valid
  | cons call calls ih =>
      cases call with
      | precompute =>
          obtain ⟨⟨_, next⟩, done, ran⟩ := Outcome.bind_eq_ok.mp ran
          exact ih (valid.precompute done) ran
      | clearPrecomputed => exact ih (CacheValid.clearPrecomputed key) ran

/-- Calls on the cache change the cache only. -/
theorem runCacheCalls_eq_ok {key key' : RsaPrivateKey} {calls : List CacheCall}
    (ran : runCacheCalls key calls = .ok key') :
    key' = { key with precomputed := key'.precomputed } := by
  induction calls generalizing key with
  | nil =>
      cases ran
      rfl
  | cons call calls ih =>
      cases call with
      | precompute =>
          obtain ⟨⟨_, next⟩, done, ran⟩ := Outcome.bind_eq_ok.mp ran
          rw [ih ran, precompute_eq_ok done]
      | clearPrecomputed =>
          rw [ih ran]
          rfl

/-- Every sequence of cache calls leaves the key equal to itself as `PartialEq` compares keys,
with the same `validate` and `crt_coefficient`. -/
theorem runCacheCalls_keeps_key {key key' : RsaPrivateKey} {calls : List CacheCall}
    (ran : runCacheCalls key calls = .ok key') :
    key'.eq key = true ∧ key'.validate = key.validate ∧
      key'.crtCoefficient = key.crtCoefficient := by
  rw [runCacheCalls_eq_ok ran]
  exact ⟨by simp [eq, RsaPublicKey.eq], rfl, rfl⟩

theorem runCacheCalls_keeps_key_on_small_key :
    ∃ key key', fromComponents 55 3 27 [5, 11] = .ok key ∧
      runCacheCalls key [.clearPrecomputed, .precompute] = .ok key' ∧
      key'.eq key = true ∧ key'.validate = key.validate ∧
        key'.crtCoefficient = key.crtCoefficient :=
  ⟨_, _, rfl, rfl,
    runCacheCalls_keeps_key (show runCacheCalls _ [.clearPrecomputed, .precompute] = .ok _ from rfl)⟩

/-- A key that `from_components` builds is `precompute` on a key with an empty cache. -/
theorem precompute_of_fromComponents {n e d : Nat} {primes : List Nat} {key : RsaPrivateKey}
    (built : fromComponents n e d primes = .ok key) :
    ∃ (start : RsaPrivateKey) (result : Except Error Unit),
      start.precomputed = none ∧ start.precompute = .ok (result, key) := by
  iterate 6 obtain ⟨_, -, built⟩ := Outcome.bind_eq_ok.mp built
  obtain ⟨⟨_, _⟩, -, built⟩ := Outcome.bind_eq_ok.mp built
  obtain ⟨_, -, built⟩ := Outcome.bind_eq_ok.mp built
  obtain ⟨⟨result, _⟩, precomputed, built⟩ := Outcome.bind_eq_ok.mp built
  cases built
  exact ⟨_, result, rfl, precomputed⟩

/-- Along every sequence of cache calls on a key `from_components` built, a present cache holds
the CRT values of `d` and the first two primes, and a `precompute` that fails or finds a cache
leaves the key as it is. -/
theorem precompute_keeps_crt_values :
    (∀ {n e d : Nat} {primes : List Nat} {key key' : RsaPrivateKey} {calls : List CacheCall},
      fromComponents n e d primes = .ok key → runCacheCalls key calls = .ok key' →
        key'.CacheValid) ∧
    (∀ {key key' : RsaPrivateKey} {error : Error},
      key.precompute = .ok (.error error, key') → error = .invalidPrime ∧ key' = key) ∧
    ∀ key : RsaPrivateKey, key.precomputed.isSome → key.precompute = .ok (.ok (), key) := by
  refine ⟨fun built ran => ?_, fun failed => ?_, fun key cached => ?_⟩
  · obtain ⟨start, _, empty, done⟩ := precompute_of_fromComponents built
    exact ((cacheValid_of_none empty).precompute done).runCacheCalls ran
  · rcases precompute_cases failed with ⟨-, ⟨⟩, -⟩ | ⟨-, ⟨⟩, rfl⟩ | ⟨-, ⟨⟩, -⟩
    exact ⟨rfl, rfl⟩
  · simp [precompute, cached]

theorem precompute_keeps_crt_values_on_small_keys :
    (∃ key key', fromComponents 55 3 27 [5, 11] = .ok key ∧
      runCacheCalls key [.clearPrecomputed, .precompute, .precompute] = .ok key' ∧
      key'.precomputed.isSome ∧ key'.CacheValid ∧ key'.precompute = .ok (.ok (), key')) ∧
    ∃ key, fromComponents 9 5 5 [3, 3] = .ok key ∧
      key.precompute = .ok (.error .invalidPrime, key) :=
  ⟨⟨_, _, rfl, rfl, rfl,
    precompute_keeps_crt_values.1 (show fromComponents 55 3 27 [5, 11] = .ok _ from rfl)
      (show runCacheCalls _ [.clearPrecomputed, .precompute, .precompute] = .ok _ from rfl),
    precompute_keeps_crt_values.2.2 _ rfl⟩, _, rfl, rfl⟩

/-! ## The CRT coefficient -/

/-- `crt_coefficient` on a key whose first prime is positive is `modInverse`. -/
theorem crtCoefficient_eq {key : RsaPrivateKey} {p q : BoxedUint} {rest : List BoxedUint}
    (primes : key.primes = p :: q :: rest) (positive : 0 < p.val) :
    key.crtCoefficient = .ok (modInverse q.val p.val) := by
  simp only [crtCoefficient, primes, List.getElem?_cons_zero, List.getElem?_cons_succ, unwrap_some,
    Outcome.ok_bind, Outcome.pure_eq]
  rw [show toBiguint = BoxedUint.val from funext toBiguint_eq, BoxedUint.invMod_map_val positive]

/-- On a key with the cache invariant, a cached `qinv` is what `crt_coefficient` computes: both
are the inverse of `q` below `p`, which is unique. -/
theorem crtCoefficient_of_cacheValid {key : RsaPrivateKey} {residue : BoxedResidue}
    (valid : key.CacheValid) (cached : key.qinv = some residue) :
    key.crtCoefficient = .ok (some (toBiguint residue.retrieve)) := by
  obtain ⟨values, present, rfl⟩ := Option.map_eq_some'.mp cached
  obtain ⟨p, q, rest, primes, describes⟩ := valid values present
  have positive : 0 < p.val := describes.qinv_modulus ▸ values.qinv.params.modulus_pos
  rw [crtCoefficient_eq primes positive, (modInverse_eq_some_iff positive).mpr
    ⟨by rw [mul_comm]; exact describes.qinv_mul, describes.qinv_modulus ▸ values.qinv.value_lt⟩,
    toBiguint_eq]
  rfl

/-- Along every sequence of cache calls on a key `from_components` built, `crt_coefficient`
returns, and returns the value of the cached `qinv` whenever there is one. -/
theorem crtCoefficient_agrees_with_qinv {n e d : Nat} {primes : List Nat}
    {key key' : RsaPrivateKey} {calls : List CacheCall}
    (built : fromComponents n e d primes = .ok key) (ran : runCacheCalls key calls = .ok key') :
    (∃ coefficient, key'.crtCoefficient = .ok coefficient) ∧
      ∀ residue, key'.qinv = some residue →
        key'.crtCoefficient = .ok (some (toBiguint residue.retrieve)) := by
  obtain ⟨start, _, empty, done⟩ := precompute_of_fromComponents built
  obtain ⟨p, q, rest, primes, pOdd, -⟩ := primes_of_precompute empty done
  have kept : key'.primes = p :: q :: rest := by
    rw [runCacheCalls_eq_ok ran, precompute_eq_ok done]
    exact primes
  exact ⟨⟨_, crtCoefficient_eq kept (by omega)⟩, fun _ cached => crtCoefficient_of_cacheValid
    (((cacheValid_of_none empty).precompute done).runCacheCalls ran) cached⟩

theorem crtCoefficient_agrees_with_qinv_on_small_key :
    ∃ key residue, fromComponents 55 3 27 [5, 11] = .ok key ∧ key.qinv = some residue ∧
      key.crtCoefficient = .ok (some (toBiguint residue.retrieve)) :=
  ⟨_, _, rfl, rfl, (crtCoefficient_agrees_with_qinv
    (show fromComponents 55 3 27 [5, 11] = .ok _ from rfl)
    (show runCacheCalls _ [] = .ok _ from rfl)).2 _ rfl⟩

end RsaPrivateKey

end RsaKeys
