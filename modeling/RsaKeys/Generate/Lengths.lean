import RsaKeys.Generate.Multiprime

/-!
# The bit lengths of a round

The loop of a round asks for `todo / (nprimes - i)` bits for its `i`-th prime, cast to `u32`, and
takes the prime's length off `todo`. As long as no request reaches `2 ^ 32`, that is the even
split of the budget: the floor of `T / k` for the first primes and its ceiling for the last
`T mod k`, in all exactly `T` bits. For two primes with their two top bits set, the product then
has exactly the `bit_size` bits asked for. Past that bound the cast truncates the requests.
-/

namespace RsaKeys

/-! ## The even split -/

/-- The split the loop of a round is written to make: `⌊todo / remaining⌋` bits for the next
prime and the rest for the others. `requestedLengths` is what the code requests, with the cast
to `u32`. -/
def evenSplit : Nat → Nat → List Nat
  | 0, _ => []
  | remaining + 1, todo =>
      todo / (remaining + 1) :: evenSplit remaining (todo - todo / (remaining + 1))

/-- The even split in closed form: the floor of `todo / (remaining + 1)` for the first primes,
then its successor for the last `todo % (remaining + 1)`. -/
theorem evenSplit_eq_replicate (remaining todo : Nat) :
    evenSplit (remaining + 1) todo =
      List.replicate (remaining + 1 - todo % (remaining + 1)) (todo / (remaining + 1)) ++
        List.replicate (todo % (remaining + 1)) (todo / (remaining + 1) + 1) := by
  induction remaining generalizing todo with
  | zero => simp [evenSplit, Nat.mod_one]
  | succ remaining ih =>
      rw [evenSplit, ih]
      have split := Nat.div_add_mod todo (remaining + 2)
      have below := Nat.mod_lt todo (show 0 < remaining + 2 by omega)
      have spread : (remaining + 2) * (todo / (remaining + 2)) =
          (remaining + 1) * (todo / (remaining + 2)) + todo / (remaining + 2) := by ring
      rcases Nat.lt_or_ge (todo % (remaining + 2)) (remaining + 1) with short | full
      · obtain ⟨quotient, remainder⟩ := (Nat.div_mod_unique (show 0 < remaining + 1 by omega)).mpr
          (And.intro (show todo % (remaining + 2) + (remaining + 1) * (todo / (remaining + 2)) =
            todo - todo / (remaining + 2) by omega) short)
        rw [quotient, remainder, show remaining + 1 + 1 - todo % (remaining + 2) =
          remaining + 1 - todo % (remaining + 2) + 1 by omega, List.replicate_succ]
        rfl
      · obtain ⟨quotient, remainder⟩ := (Nat.div_mod_unique (show 0 < remaining + 1 by omega)).mpr
          (And.intro (show 0 + (remaining + 1) * (todo / (remaining + 2) + 1) =
            todo - todo / (remaining + 2) by rw [Nat.mul_succ]; omega) (show 0 < remaining + 1 by omega))
        rw [quotient, remainder, show todo % (remaining + 2) = remaining + 1 by omega]
        simp

section Split

variable {k T : Nat}

theorem sum_evenSplit (positive : 1 ≤ k) : (evenSplit k T).sum = T := by
  obtain ⟨k, rfl⟩ : ∃ r, k = r + 1 := ⟨k - 1, by omega⟩
  have below := Nat.mod_lt T (show 0 < k + 1 by omega)
  have split := Nat.div_add_mod T (k + 1)
  rw [evenSplit_eq_replicate, List.sum_append, List.sum_replicate, List.sum_replicate,
    smul_eq_mul, smul_eq_mul, Nat.mul_succ, ← Nat.add_assoc, ← Nat.add_mul,
    Nat.sub_add_cancel below.le]
  exact split

theorem sorted_evenSplit : (evenSplit k T).Sorted (· ≤ ·) := by
  rcases k with _ | k
  · exact List.sorted_nil
  · rw [evenSplit_eq_replicate, List.Sorted, List.pairwise_append, List.pairwise_replicate,
      List.pairwise_replicate]
    refine ⟨.inr le_rfl, .inr le_rfl, ?_⟩
    intro a first b second
    rw [(List.eq_of_mem_replicate first), (List.eq_of_mem_replicate second)]
    omega

/-- Every length of the even split is the floor or the ceiling of `T / k`. -/
theorem mem_evenSplit {b : Nat} (member : b ∈ evenSplit k T) : b = T / k ∨ b = (T + k - 1) / k := by
  rcases k with _ | k
  · cases member
  · rw [evenSplit_eq_replicate, List.mem_append, List.mem_replicate, List.mem_replicate] at member
    rcases member with ⟨-, rfl⟩ | ⟨uneven, rfl⟩
    · exact .inl rfl
    · have split := Nat.div_add_mod T (k + 1)
      have below := Nat.mod_lt T (show 0 < k + 1 by omega)
      have unique : T % (k + 1) - 1 + (k + 1) * (T / (k + 1) + 1) = T + (k + 1) - 1 ∧
          T % (k + 1) - 1 < k + 1 := ⟨by rw [Nat.mul_succ]; omega, by omega⟩
      exact .inr ((Nat.div_mod_unique (by omega)).mpr unique).1.symm

/-- The loop requests the even split while no request reaches `2 ^ 32`. -/
theorem requestedLengths_eq_evenSplit {remaining todo : Nat}
    (narrow : ∀ b ∈ evenSplit remaining todo, b < 2 ^ 32) :
    requestedLengths remaining todo = evenSplit remaining todo := by
  induction remaining generalizing todo with
  | zero => rfl
  | succ remaining ih =>
      simp only [evenSplit, List.mem_cons, forall_eq_or_imp] at narrow
      simp only [requestedLengths, evenSplit, Nat.mod_eq_of_lt narrow.1, ih narrow.2]

/-- A budget of at most `k · (2 ^ 32 - 1)` bits keeps every request below `2 ^ 32`. -/
theorem requestedLengths_eq_evenSplit_of_le (positive : 1 ≤ k) (fits : T ≤ k * (2 ^ 32 - 1)) :
    requestedLengths k T = evenSplit k T := by
  refine requestedLengths_eq_evenSplit fun b member => ?_
  have ceiling : (T + k - 1) / k < 2 ^ 32 := (Nat.div_lt_iff_lt_mul (by omega)).mpr (by omega)
  rcases mem_evenSplit member with rfl | rfl
  · exact lt_of_le_of_lt (Nat.div_le_div_right (by omega)) ceiling
  · exact ceiling

end Split

/-! ## Drawing the primes -/

section Draw

variable {σ : Type} {source : PrimeSource σ}

/-- A sound source gives a prime of every length the round asks for, as long as each length is
at least two bits: the subtraction from `todo` never underflows. -/
theorem drawPrimes_of_sound (sound : source.Sound) (remaining todo : Nat) (rng : σ)
    (long : ∀ b ∈ requestedLengths remaining todo, 2 ≤ b) :
    ∃ primes rng', drawPrimes source remaining todo rng = .ok (primes, rng') ∧
      List.Forall₂ Candidate (requestedLengths remaining todo) primes := by
  induction remaining generalizing todo rng with
  | zero => exact ⟨[], rng, rfl, .nil⟩
  | succ remaining ih =>
      simp only [requestedLengths, List.mem_cons, forall_eq_or_imp] at long
      have candidate := sound rng _ long.1
      have within : todo / (remaining + 1) % 2 ^ 32 ≤ todo :=
        (Nat.mod_le _ _).trans (Nat.div_le_self _ _)
      cases drawn : source.draw rng (todo / (remaining + 1) % 2 ^ 32) with
      | mk prime rng₁ =>
          rw [drawn] at candidate
          obtain ⟨primes, rng', rest, candidates⟩ := ih _ rng₁ long.2
          refine ⟨prime :: primes, rng', ?_, .cons candidate candidates⟩
          rw [drawPrimes, generatePrimeWithRng, if_neg (by omega), drawn, Outcome.ok_bind]
          dsimp only
          rw [candidate.bitLength_eq, if_neg (by omega), rest, Outcome.ok_bind]
          rfl

end Draw

/-- Up to `k · (2 ^ 32 - 1)` bits a round requests the even split of its budget, sorted and
adding up to it, and a sound source gives a prime of every request without underflow. -/
theorem requestedLengths_split_budget {k T : Nat} (positive : 1 ≤ k)
    (fits : T ≤ k * (2 ^ 32 - 1)) :
    requestedLengths k T = evenSplit k T ∧ (requestedLengths k T).sum = T ∧
      (requestedLengths k T).Sorted (· ≤ ·) ∧
      (∀ b ∈ requestedLengths k T, b = T / k ∨ b = (T + k - 1) / k) ∧
      ∀ {σ : Type} (source : PrimeSource σ), source.Sound → ∀ rng : σ,
        (∀ b ∈ requestedLengths k T, 2 ≤ b) →
        ∃ primes rng', drawPrimes source k T rng = .ok (primes, rng') ∧
          List.Forall₂ Candidate (requestedLengths k T) primes := by
  have even := requestedLengths_eq_evenSplit_of_le positive fits
  refine ⟨even, ?_, ?_, fun b member => mem_evenSplit (even ▸ member),
    fun source sound rng long => drawPrimes_of_sound sound k T rng long⟩
  · rw [even, sum_evenSplit positive]
  · rw [even]
    exact sorted_evenSplit

theorem requestedLengths_split_budget_of_three :
    requestedLengths 3 4097 = evenSplit 3 4097 ∧ (requestedLengths 3 4097).sum = 4097 ∧
      (requestedLengths 3 4097).Sorted (· ≤ ·) ∧
      (∀ b ∈ requestedLengths 3 4097, b = 4097 / 3 ∨ b = (4097 + 3 - 1) / 3) ∧
      ∀ {σ : Type} (source : PrimeSource σ), source.Sound → ∀ rng : σ,
        (∀ b ∈ requestedLengths 3 4097, 2 ≤ b) →
        ∃ primes rng', drawPrimes source 3 4097 rng = .ok (primes, rng') ∧
          List.Forall₂ Candidate (requestedLengths 3 4097) primes :=
  requestedLengths_split_budget (by decide) (by decide)

/-- Past `k · (2 ^ 32 - 1)` bits the `u32` cast truncates: two primes of `2 ^ 33 + 10` bits in all
are requested at five bits each, and the requests add up to ten bits. -/
theorem requestedLengths_truncate_wide_budget :
    requestedLengths 2 (2 ^ 33 + 10) = [5, 5] ∧
      evenSplit 2 (2 ^ 33 + 10) = [2 ^ 32 + 5, 2 ^ 32 + 5] ∧ [5, 5].sum ≠ 2 ^ 33 + 10 :=
  ⟨rfl, rfl, by decide⟩

/-! ## Two primes -/

/-- At `bit_size = 2 ^ 33 + 10` the cast asks for two five-bit primes: a sound source gives `31`
and `29`, distinct, whose product has ten bits, so the round is retried, and so is every round
after it. -/
theorem two_prime_round_misses_wide_bit_size :
    exampleSource.Sound ∧ roundBudget 2 (2 ^ 33 + 10) = .ok (2 ^ 33 + 10) ∧
      drawPrimes exampleSource 2 (2 ^ 33 + 10) true = .ok ([31, 29], true) ∧ [31, 29].Nodup ∧
      bitLength (computeModulus [31, 29]) ≠ 2 ^ 33 + 10 ∧
      ∀ fuel, generateMultiPrimeKeyWithExp exampleSource true 2 (2 ^ 33 + 10) 65537 fuel =
        .outOfFuel := by
  refine ⟨exampleSource_sound, rfl, rfl, by decide, by decide, fun fuel => ?_⟩
  rw [generate_eq_loop le_rfl fun small => absurd small.1 (by norm_num)]
  induction fuel with
  | zero => rfl
  | succ fuel ih => exact ih

end RsaKeys
