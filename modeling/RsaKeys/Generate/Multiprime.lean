import Mathlib.Algebra.Order.Field.Rat
import Mathlib.Tactic.NormNum.Prime
import RsaKeys.Algebra

/-!
# Multi-prime key generation

`generate_multi_prime_key_with_exp` checks two guards and then runs an uncapped retry loop. A
round draws `nprimes` primes from the prime source, splitting the bit budget among the primes
still to draw, and is rejected when two primes are equal, when the product misses `bit_size`
bits, or when `exp` has no inverse modulo `λ`. The source lives outside the crate and is modelled
by its promise, in two halves: the shape of what it draws (`PrimeSource.Sound`) and that what it
draws is prime (`PrimeSource.DrawsPrimesAt`); each result assumes only the half it uses. The loop
is run for a number of rounds, `fuel`; running out of it is `outOfFuel`, where the code keeps
looping.
-/

namespace RsaKeys

/-! ## The prime source -/

/-- Modelled from the spec: the Prime Candidate Source (crypto-primes' `sieve_and_find` behind
`generate_prime_with_rng`, outside the crate): from the random state and a bit length, a probable
prime of that length with its two most significant bits set, and the state after the draw. -/
structure PrimeSource (σ : Type) where
  /-- The prime drawn for a bit length, and the next random state. -/
  draw : σ → Nat → Nat × σ

/-- What a draw of `bits` bits promises: exactly `bits` bits, the top two of them set, odd. No
number below two bits has two top bits to set. -/
def Candidate (bits p : Nat) : Prop := 3 * 2 ^ (bits - 2) ≤ p ∧ p < 2 ^ bits ∧ p % 2 = 1

instance (bits p : Nat) : Decidable (Candidate bits p) :=
  inferInstanceAs (Decidable (_ ∧ _ ∧ _))

namespace PrimeSource

variable {σ : Type}

/-- The source keeps the shape of its promise at every bit length of two or more. -/
def Sound (source : PrimeSource σ) : Prop :=
  ∀ rng bits, 2 ≤ bits → Candidate bits (source.draw rng bits).1

/-- The source keeps the primality of its promise at the given bit lengths. -/
def DrawsPrimesAt (source : PrimeSource σ) (lengths : List Nat) : Prop :=
  ∀ rng, ∀ bits ∈ lengths, (source.draw rng bits).1.Prime

end PrimeSource

section Generate

variable {σ : Type} (source : PrimeSource σ)

/-- `generate_prime_with_rng`: a draw of the source; below two bits the top two bits cannot be
set, and the sieve panics. -/
def generatePrimeWithRng (rng : σ) (bits : Nat) : Outcome (Nat × σ) :=
  if bits < 2 then .abort else .ok (source.draw rng bits)

/-- The inner loop of a round over the `remaining` primes still to draw: each is drawn at
`todo / remaining` bits (cast to `u32`), and its bit length is taken off `todo`, where an
underflow panics. -/
def drawPrimes : Nat → Nat → σ → Outcome (List Nat × σ)
  | 0, _, rng => .ok ([], rng)
  | remaining + 1, todo, rng => do
      let (prime, rng) ← generatePrimeWithRng source rng (todo / (remaining + 1) % 2 ^ 32)
      if todo < bitLength prime then .abort
      else do
        let (primes, rng) ← drawPrimes remaining (todo - bitLength prime) rng
        pure (prime :: primes, rng)

/-- The bit budget of a round: `bit_size`, and `(nprimes - 2) / 5` more from seven primes on; the
`usize` addition panics on overflow. -/
def roundBudget (nprimes bitSize : Nat) : Outcome Nat :=
  if 7 ≤ nprimes then
    if bitSize + (nprimes - 2) / 5 < 2 ^ 64 then .ok (bitSize + (nprimes - 2) / 5) else .abort
  else .ok bitSize

/-- `RsaPrivateKeyComponents`. -/
structure Components where
  /-- The modulus. -/
  n : Nat
  /-- The public exponent. -/
  e : Nat
  /-- The private exponent. -/
  d : Nat
  /-- The primes. -/
  primes : List Nat
  deriving DecidableEq

/-- The checks that end a round: a repeated prime (the labelled `continue`), a product of the
wrong length, or no inverse of `exp` reject it; otherwise the round's own primes give the key. -/
def acceptRound (bitSize exp : Nat) (primes : List Nat) : Option Components :=
  if repeatsEarlier [] primes then none
  else if bitLength (computeModulus primes) ≠ bitSize then none
  else match computePrivateExponentEulerTotient primes exp with
    | .ok d => some ⟨computeModulus primes, exp, d, primes⟩
    | .error _ => none

/-- One round of the retry loop; `none` is `continue 'next`. -/
def runRound (nprimes bitSize exp : Nat) (rng : σ) : Outcome (Option Components × σ) := do
  let todo ← roundBudget nprimes bitSize
  let (primes, rng) ← drawPrimes source nprimes todo rng
  pure (acceptRound bitSize exp primes, rng)

/-- The retry loop, for at most `fuel` rounds. -/
def generateLoop (nprimes bitSize exp : Nat) : Nat → σ → Outcome Components
  | 0, _ => .outOfFuel
  | fuel + 1, rng => do
      let (accepted, rng) ← runRound source nprimes bitSize exp rng
      match accepted with
      | some components => pure components
      | none => generateLoop nprimes bitSize exp fuel rng

/-- `LN_2` as an `f64` (`0x3FE62E42FEFA39EF`). -/
def ln2 : ℚ := 6243314768165359 / 2 ^ 53

/-- The estimate of the small-size guard: `prime_limit / (logf(prime_limit) - 1)`, a quarter of
it for the two top bits and half of that again, where `prime_limit = 2 ^ (bit_size / nprimes)`.
`logf` of a power of two is its exponent times `ln 2`; the rounding of `f64` is not modelled. -/
def primeCountEstimate (nprimes bitSize : Nat) : ℚ :=
  (2 ^ (bitSize / nprimes) : ℚ) / ((bitSize / nprimes : Nat) * ln2 - 1) / 4 / 2

/-- `generate_multi_prime_key_with_exp`: the two guards, then the retry loop. -/
def generateMultiPrimeKeyWithExp (rng : σ) (nprimes bitSize exp fuel : Nat) :
    Outcome Components :=
  if nprimes < 2 then .err .nprimesTooSmall
  else if bitSize < 64 ∧ primeCountEstimate nprimes bitSize < nprimes then .err .tooFewPrimes
  else generateLoop source nprimes bitSize exp fuel rng

/-- The bit lengths a round asks for when every prime has the length asked for. -/
def requestedLengths : Nat → Nat → List Nat
  | 0, _ => []
  | remaining + 1, todo =>
      let bits := todo / (remaining + 1) % 2 ^ 32
      bits :: requestedLengths remaining (todo - bits)

@[simp] theorem length_requestedLengths (remaining todo : Nat) :
    (requestedLengths remaining todo).length = remaining := by
  induction remaining generalizing todo with
  | zero => rfl
  | succ remaining ih => simp [requestedLengths, ih]

/-- Some round can pass: primes of the lengths the round asks for, each with its two top bits
set, pairwise distinct, whose product has `bit_size` bits, and modulo whose `λ` `exp` is
invertible. -/
def RoundCanSucceed (nprimes bitSize exp : Nat) : Prop :=
  ∃ todo primes, roundBudget nprimes bitSize = .ok todo ∧
    List.Forall₂ Candidate (requestedLengths nprimes todo) primes ∧ (∀ p ∈ primes, p.Prime) ∧
    primes.Nodup ∧ bitLength (computeModulus primes) = bitSize ∧
    Nat.Coprime exp (exponentLcm primes)

end Generate

/-! ## Candidates -/

namespace Candidate

variable {bits p : Nat}

theorem two_le (candidate : Candidate bits p) : 2 ≤ bits := by
  obtain ⟨top, below, -⟩ := candidate
  rcases bits with _ | _ | bits
  · simp at top below; omega
  · simp at top below; omega
  · omega

theorem bitLength_eq (candidate : Candidate bits p) : bitLength p = bits := by
  obtain ⟨b, rfl⟩ : ∃ b, bits = b + 2 := ⟨bits - 2, by have := candidate.two_le; omega⟩
  obtain ⟨top, below, -⟩ := candidate
  refine bitLength_eq_succ_iff.mpr ⟨le_trans ?_ top, below⟩
  rw [Nat.add_sub_cancel, pow_succ]
  omega

theorem three_le (candidate : Candidate bits p) : 3 ≤ p :=
  le_trans (Nat.le_mul_of_pos_right 3 (Nat.two_pow_pos _)) candidate.1

/-- Candidates of any lengths are odd and at least three. -/
theorem odd_of_forall₂ {lengths primes : List Nat} (candidates : List.Forall₂ Candidate lengths primes) :
    ∀ p ∈ primes, p % 2 = 1 ∧ 3 ≤ p := by
  induction candidates with
  | nil => simp
  | cons head _ ih => exact List.forall_mem_cons.mpr ⟨⟨head.2.2, head.three_le⟩, ih⟩

end Candidate

/-- A member on the right of `Forall₂` is related to a member on the left. -/
theorem exists_mem_of_forall₂ {R : Nat → Nat → Prop} {lengths primes : List Nat}
    (related : List.Forall₂ R lengths primes) {p : Nat} (member : p ∈ primes) :
    ∃ bits ∈ lengths, R bits p := by
  induction related with
  | nil => cases member
  | cons head _ ih =>
      rcases List.mem_cons.mp member with rfl | member
      · exact ⟨_, List.mem_cons_self _ _, head⟩
      · obtain ⟨bits, within, holds⟩ := ih member
        exact ⟨bits, List.mem_cons_of_mem _ within, holds⟩

theorem candidate_two_pow_sub_one {bits : Nat} (large : 2 ≤ bits) :
    Candidate bits (2 ^ bits - 1) := by
  obtain ⟨b, rfl⟩ : ∃ b, bits = b + 2 := ⟨bits - 2, by omega⟩
  have : 1 ≤ 2 ^ b := Nat.one_le_two_pow
  simp only [Candidate, Nat.add_sub_cancel, pow_add]
  omega

theorem candidate_two_pow_sub_three {bits : Nat} (large : 4 ≤ bits) :
    Candidate bits (2 ^ bits - 3) := by
  obtain ⟨b, rfl⟩ : ∃ b, bits = b + 4 := ⟨bits - 4, by omega⟩
  have : 1 ≤ 2 ^ b := Nat.one_le_two_pow
  simp only [Candidate, show b + 4 - 2 = b + 2 by omega, pow_add]
  omega

/-! ## One round -/

section Round

variable {σ : Type} {source : PrimeSource σ}

/-- A round draws exactly the primes asked for. -/
theorem length_of_drawPrimes {remaining todo : Nat} {rng rng' : σ} {primes : List Nat}
    (drawn : drawPrimes source remaining todo rng = .ok (primes, rng')) :
    primes.length = remaining := by
  induction remaining generalizing todo rng primes with
  | zero => cases drawn; rfl
  | succ remaining ih =>
      obtain ⟨⟨prime, _⟩, -, drawn⟩ := Outcome.bind_eq_ok.mp drawn
      dsimp only at drawn
      split_ifs at drawn
      obtain ⟨⟨primes, _⟩, rest, drawn⟩ := Outcome.bind_eq_ok.mp drawn
      cases drawn
      simp [ih rest]

/-- With a sound source, every prime is a draw of the source at the length the round asks of
it, and has that shape. -/
theorem draws_of_drawPrimes (sound : source.Sound) {remaining todo : Nat} {rng rng' : σ}
    {primes : List Nat} (drawn : drawPrimes source remaining todo rng = .ok (primes, rng')) :
    List.Forall₂ (fun bits p => Candidate bits p ∧ ∃ rng, (source.draw rng bits).1 = p)
      (requestedLengths remaining todo) primes := by
  induction remaining generalizing todo rng primes with
  | zero => cases drawn; exact .nil
  | succ remaining ih =>
      obtain ⟨⟨prime, rng₁⟩, generated, drawn⟩ := Outcome.bind_eq_ok.mp drawn
      unfold generatePrimeWithRng at generated
      split_ifs at generated with short
      have drawnHere : (source.draw rng (todo / (remaining + 1) % 2 ^ 32)).1 = prime := by
        rw [Outcome.ok.inj generated]
      have candidate : Candidate (todo / (remaining + 1) % 2 ^ 32) prime :=
        drawnHere ▸ sound rng _ (not_lt.mp short)
      dsimp only at drawn
      split_ifs at drawn
      obtain ⟨⟨primes, _⟩, rest, drawn⟩ := Outcome.bind_eq_ok.mp drawn
      cases drawn
      rw [candidate.bitLength_eq] at rest
      exact .cons ⟨candidate, rng, drawnHere⟩ (ih rest)

/-- With a sound source, every prime has the length the round asks of it. -/
theorem candidates_of_drawPrimes (sound : source.Sound) {remaining todo : Nat} {rng rng' : σ}
    {primes : List Nat} (drawn : drawPrimes source remaining todo rng = .ok (primes, rng')) :
    List.Forall₂ Candidate (requestedLengths remaining todo) primes :=
  (draws_of_drawPrimes sound drawn).imp fun _ _ => And.left

/-- A source that draws primes at the lengths a round asks for gives a round of primes. -/
theorem primes_of_drawPrimes (sound : source.Sound) {remaining todo : Nat} {rng rng' : σ}
    {primes : List Nat} (primal : source.DrawsPrimesAt (requestedLengths remaining todo))
    (drawn : drawPrimes source remaining todo rng = .ok (primes, rng')) :
    ∀ p ∈ primes, p.Prime := by
  intro p member
  obtain ⟨bits, within, -, rng, rfl⟩ :=
    exists_mem_of_forall₂ (draws_of_drawPrimes sound drawn) member
  exact primal rng bits within

theorem drawPrimes_ne_err (remaining todo : Nat) (rng : σ) (error : Error) :
    drawPrimes source remaining todo rng ≠ .err error := by
  induction remaining generalizing todo rng with
  | zero => simp [drawPrimes]
  | succ remaining ih =>
      rw [drawPrimes, Ne, Outcome.bind_eq_err]
      rintro (generated | ⟨⟨prime, _⟩, -, drawn⟩)
      · unfold generatePrimeWithRng at generated
        split_ifs at generated
      · dsimp only at drawn
        split_ifs at drawn
        rcases Outcome.bind_eq_err.mp drawn with rest | ⟨_, -, last⟩
        · exact ih _ _ rest
        · cases last

theorem roundBudget_ne_err (nprimes bitSize : Nat) (error : Error) :
    roundBudget nprimes bitSize ≠ .err error := by
  unfold roundBudget
  split_ifs <;> simp

/-- A round accepts its own primes when they are distinct, their product has `bit_size` bits
and `exp` is invertible modulo their `λ`, and then gives their product and exponent. -/
theorem acceptRound_eq_some {bitSize exp : Nat} {primes : List Nat} {c : Components}
    (accepted : acceptRound bitSize exp primes = some c) :
    primes.Nodup ∧ bitLength (computeModulus primes) = bitSize ∧ c.n = computeModulus primes ∧
      c.e = exp ∧ c.primes = primes ∧ computePrivateExponentEulerTotient primes exp = .ok c.d := by
  unfold acceptRound at accepted
  split_ifs at accepted with repeated long
  split at accepted
  · cases accepted
    exact ⟨(repeatsEarlier_nil_eq_false_iff _).mp (by simpa using repeated), not_not.mp long,
      rfl, rfl, rfl, ‹_›⟩
  · cases accepted

end Round

/-! ## The retry loop -/

section Loop

variable {σ : Type} {source : PrimeSource σ} {nprimes bitSize exp : Nat}

/-- A loop that returns, returns what one round accepted of the primes it drew. -/
theorem generateLoop_eq_ok {fuel : Nat} {rng : σ} {c : Components}
    (done : generateLoop source nprimes bitSize exp fuel rng = .ok c) :
    ∃ rng todo primes rng', roundBudget nprimes bitSize = .ok todo ∧
      drawPrimes source nprimes todo rng = .ok (primes, rng') ∧
      acceptRound bitSize exp primes = some c := by
  induction fuel generalizing rng with
  | zero => cases done
  | succ fuel ih =>
      obtain ⟨⟨accepted, rng₁⟩, rounded, done⟩ := Outcome.bind_eq_ok.mp done
      obtain ⟨todo, budget, rounded⟩ := Outcome.bind_eq_ok.mp rounded
      obtain ⟨⟨primes, rng₂⟩, drawn, rounded⟩ := Outcome.bind_eq_ok.mp rounded
      simp only [Outcome.pure_eq, Outcome.ok.injEq, Prod.mk.injEq] at rounded
      obtain ⟨rfl, rfl⟩ := rounded
      dsimp only at done
      split at done
      · cases done
        exact ⟨rng, todo, primes, rng₂, budget, drawn, ‹_›⟩
      · exact ih done

theorem generateLoop_ne_err (fuel : Nat) (rng : σ) (error : Error) :
    generateLoop source nprimes bitSize exp fuel rng ≠ .err error := by
  induction fuel generalizing rng with
  | zero => simp [generateLoop]
  | succ fuel ih =>
      rw [generateLoop, Ne, Outcome.bind_eq_err]
      rintro (rounded | ⟨⟨accepted, rng₁⟩, -, done⟩)
      · rcases Outcome.bind_eq_err.mp rounded with budget | ⟨todo, -, rounded⟩
        · exact roundBudget_ne_err _ _ _ budget
        · rcases Outcome.bind_eq_err.mp rounded with drawn | ⟨_, -, last⟩
          · exact drawPrimes_ne_err _ _ _ _ drawn
          · cases last
      · dsimp only at done
        split at done
        · cases done
        · exact ih _ done

/-- Generation reports an error only from its two guards. -/
theorem generate_eq_err {rng : σ} {fuel : Nat} {error : Error}
    (failed : generateMultiPrimeKeyWithExp source rng nprimes bitSize exp fuel = .err error) :
    nprimes < 2 ∨ bitSize < 64 ∧ primeCountEstimate nprimes bitSize < nprimes := by
  unfold generateMultiPrimeKeyWithExp at failed
  split_ifs at failed with few small
  · exact .inl few
  · exact .inr small
  · exact absurd failed (generateLoop_ne_err _ _ _)

/-- Past the guards, generation is the retry loop. -/
theorem generate_eq_loop {rng : σ} {fuel : Nat} (many : 2 ≤ nprimes)
    (enough : ¬ (bitSize < 64 ∧ primeCountEstimate nprimes bitSize < nprimes)) :
    generateMultiPrimeKeyWithExp source rng nprimes bitSize exp fuel =
      generateLoop source nprimes bitSize exp fuel rng := by
  rw [generateMultiPrimeKeyWithExp, if_neg (not_lt.mpr many), if_neg enough]

/-- A generation that returns, returns what one round accepted of the primes it drew. -/
theorem generate_eq_ok {rng : σ} {fuel : Nat} {c : Components}
    (generated : generateMultiPrimeKeyWithExp source rng nprimes bitSize exp fuel = .ok c) :
    ∃ rng todo primes rng', roundBudget nprimes bitSize = .ok todo ∧
      drawPrimes source nprimes todo rng = .ok (primes, rng') ∧
      acceptRound bitSize exp primes = some c := by
  unfold generateMultiPrimeKeyWithExp at generated
  split_ifs at generated
  exact generateLoop_eq_ok generated

end Loop

/-! ## What generation returns -/

/-- A source for the examples: at 8 bits the primes 193 and 197 in turn; at other lengths the
largest and the second largest candidate in turn, the largest alone below four bits. -/
def exampleSource : PrimeSource Bool where
  draw first bits :=
    (if bits = 8 then (if first then 193 else 197)
      else if first ∨ bits < 4 then 2 ^ bits - 1 else 2 ^ bits - 3, !first)

theorem exampleSource_sound : exampleSource.Sound := by
  intro first bits large
  simp only [exampleSource]
  split_ifs with eight
  · subst eight; decide
  · subst eight; decide
  · exact candidate_two_pow_sub_one large
  · exact candidate_two_pow_sub_three (by omega)

/-- Whatever the prime source, a successful generation returns the primes of the round that
passed, pairwise distinct, with their product of `bit_size` bits, `exp` and their Euler-totient
exponent. -/
theorem generate_returns_round_components {σ : Type} (source : PrimeSource σ) (rng : σ)
    {nprimes bitSize exp fuel : Nat} {c : Components}
    (generated : generateMultiPrimeKeyWithExp source rng nprimes bitSize exp fuel = .ok c) :
    c.primes.length = nprimes ∧ c.primes.Nodup ∧ c.n = computeModulus c.primes ∧
      bitLength c.n = bitSize ∧ c.e = exp ∧
      computePrivateExponentEulerTotient c.primes exp = .ok c.d := by
  obtain ⟨_, _, primes, _, -, drawn, accepted⟩ := generate_eq_ok generated
  obtain ⟨distinct, long, n, e, same, derived⟩ := acceptRound_eq_some accepted
  rw [same]
  exact ⟨length_of_drawPrimes drawn, distinct, n, by rw [n]; exact long, e, derived⟩

theorem generate_returns_round_components_at_sixty_four :
    ∃ c, generateMultiPrimeKeyWithExp exampleSource true 2 64 65537 1 = .ok c ∧
      c.primes.length = 2 ∧ c.primes.Nodup ∧ c.n = computeModulus c.primes ∧
      bitLength c.n = 64 ∧ c.e = 65537 ∧
      computePrivateExponentEulerTotient c.primes 65537 = .ok c.d := by
  obtain ⟨c, generated⟩ :
      ∃ c, generateMultiPrimeKeyWithExp exampleSource true 2 64 65537 1 = .ok c := ⟨_, rfl⟩
  exact ⟨c, generated, generate_returns_round_components exampleSource true generated⟩

/-! ## Inputs no round can pass -/

/-- With a source that draws primes at the lengths a round asks for, a generation that returns
had a round that could pass. -/
theorem roundCanSucceed_of_generate_eq_ok {σ : Type} {source : PrimeSource σ}
    (sound : source.Sound) {rng : σ} {nprimes bitSize exp fuel : Nat}
    (primal : ∀ todo, roundBudget nprimes bitSize = .ok todo →
      source.DrawsPrimesAt (requestedLengths nprimes todo)) {c : Components}
    (generated : generateMultiPrimeKeyWithExp source rng nprimes bitSize exp fuel = .ok c) :
    RoundCanSucceed nprimes bitSize exp := by
  obtain ⟨_, todo, primes, _, budget, drawn, accepted⟩ := generate_eq_ok generated
  obtain ⟨distinct, long, -, -, -, derived⟩ := acceptRound_eq_some accepted
  exact ⟨todo, primes, budget, candidates_of_drawPrimes sound drawn,
    primes_of_drawPrimes sound (primal todo budget) drawn, distinct, long,
    coprime_of_computePrivateExponentEulerTotient derived⟩

/-- No round can pass with an even exponent: `λ` of odd primes is even. -/
theorem not_roundCanSucceed_of_even {nprimes bitSize exp : Nat} (positive : 0 < nprimes)
    (even : exp % 2 = 0) : ¬ RoundCanSucceed nprimes bitSize exp := by
  rintro ⟨todo, primes, -, candidates, -, -, -, coprime⟩
  have length := candidates.length_eq
  rw [length_requestedLengths] at length
  exact not_coprime_exponentLcm_of_even (fun p member => (Candidate.odd_of_forall₂ candidates p member).1)
    (List.ne_nil_of_length_pos (by omega)) even coprime

/-- The primes of six bits with their two top bits set. -/
theorem mem_of_prime_candidate_six {p : Nat} (candidate : Candidate 6 p) (prime : p.Prime) :
    p ∈ [53, 59, 61] := by
  obtain ⟨low, high, -⟩ := candidate
  norm_num at low high
  interval_cases p <;> norm_num at prime ⊢

/-- Ten primes at `bit_size = 64` ask for five distinct primes of six bits, and there are three:
no round can pass, whatever the exponent. -/
theorem not_roundCanSucceed_ten_primes (exp : Nat) : ¬ RoundCanSucceed 10 64 exp := by
  rintro ⟨todo, primes, budget, candidates, prime, distinct, -, -⟩
  obtain rfl : todo = 65 := by have := Outcome.ok.inj (budget.symm.trans rfl); omega
  have six : List.Forall₂ Candidate [6, 6, 6, 6, 6] (primes.take 5) :=
    List.forall₂_take 5 candidates
  have within : primes.take 5 ⊆ [53, 59, 61] := fun p member => by
    obtain ⟨bits, length, candidate⟩ := exists_mem_of_forall₂ six member
    obtain rfl : bits = 6 := by simpa using length
    exact mem_of_prime_candidate_six candidate (prime p (List.mem_of_mem_take member))
  have count :=
    (List.subperm_of_subset (distinct.sublist (List.take_sublist 5 primes)) within).length_le
  rw [← six.length_eq] at count
  exact absurd count (by decide)

/-- Two primes of 64 bits with the exponent `4`, and ten primes of 64 bits with `65537`, pass
both guards of `generate_multi_prime_key_with_exp`, and no round can pass. -/
theorem generate_guards_pass_without_possible_round :
    ¬ (2 < 2) ∧ ¬ (64 < 64 ∧ primeCountEstimate 2 64 < 2) ∧ ¬ RoundCanSucceed 2 64 4 ∧
      ¬ (10 < 2) ∧ ¬ (64 < 64 ∧ primeCountEstimate 10 64 < 10) ∧
      ¬ RoundCanSucceed 10 64 65537 :=
  ⟨by decide, fun guard => lt_irrefl 64 guard.1, not_roundCanSucceed_of_even (by decide) rfl,
    by decide, fun guard => lt_irrefl 64 guard.1, not_roundCanSucceed_ten_primes 65537⟩

/-- With a source of primes of the shape asked for and inputs past the guards, generation on an
input no round can pass returns neither a key nor an error, however many rounds it is given. -/
theorem generate_retries_impossible_inputs {σ : Type} (source : PrimeSource σ)
    (sound : source.Sound) (rng : σ) {nprimes bitSize exp : Nat} (many : 2 ≤ nprimes)
    (large : 64 ≤ bitSize)
    (primal : ∀ todo, roundBudget nprimes bitSize = .ok todo →
      source.DrawsPrimesAt (requestedLengths nprimes todo))
    (impossible : ¬ RoundCanSucceed nprimes bitSize exp) (fuel : Nat) :
    generateMultiPrimeKeyWithExp source rng nprimes bitSize exp fuel = .outOfFuel ∨
      generateMultiPrimeKeyWithExp source rng nprimes bitSize exp fuel = .abort := by
  cases generated : generateMultiPrimeKeyWithExp source rng nprimes bitSize exp fuel with
  | ok c => exact absurd (roundCanSucceed_of_generate_eq_ok sound primal generated) impossible
  | err error => rcases generate_eq_err generated with few | ⟨small, -⟩ <;> omega
  | abort => exact .inr rfl
  | outOfFuel => exact .inl rfl

/-- A source for the examples that draws `61` at six bits and `127` at seven, the largest primes
of those lengths, and the largest candidate at other lengths. -/
def smallPrimeSource : PrimeSource Unit where
  draw _ bits := (if bits = 6 then 61 else if bits = 7 then 127 else 2 ^ bits - 1, ())

theorem smallPrimeSource_sound : smallPrimeSource.Sound := by
  intro _ bits large
  simp only [smallPrimeSource]
  split_ifs with six seven
  · subst six; decide
  · subst seven; decide
  · exact candidate_two_pow_sub_one large

/-- Ten primes at 64 bits are asked for at six and seven bits, where the source draws primes. -/
theorem smallPrimeSource_primal (todo : Nat) (budget : roundBudget 10 64 = .ok todo) :
    smallPrimeSource.DrawsPrimesAt (requestedLengths 10 todo) := by
  obtain rfl : todo = 65 := by have := Outcome.ok.inj (budget.symm.trans rfl); omega
  intro _ bits member
  rw [show requestedLengths 10 65 = [6, 6, 6, 6, 6, 7, 7, 7, 7, 7] from rfl] at member
  obtain rfl | rfl : bits = 6 ∨ bits = 7 := by simpa using member
  all_goals norm_num [smallPrimeSource]

theorem generate_retries_when_primes_run_out :
    generateMultiPrimeKeyWithExp smallPrimeSource () 10 64 65537 3 = .outOfFuel ∨
      generateMultiPrimeKeyWithExp smallPrimeSource () 10 64 65537 3 = .abort :=
  generate_retries_impossible_inputs smallPrimeSource smallPrimeSource_sound () (by decide) le_rfl
    smallPrimeSource_primal (not_roundCanSucceed_ten_primes 65537) 3

end RsaKeys
