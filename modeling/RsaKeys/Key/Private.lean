import RsaKeys.Key.Public
import RsaKeys.Algebra

/-!
# The private key

`RsaPrivateKey` embeds its public key and owns the private exponent, the prime factors and the
optional cache of CRT values. This file models its constructors (`from_components`,
`from_components_new`, `from_p_q`, `from_primes`), the cache (`precompute`,
`clear_precomputed`) and the validator. Methods taking `&mut self` return the key after the call
together with their `Result`.
-/

namespace RsaKeys

open BoxedUint

/-- `PrecomputedValues`: the CRT values of the first two primes. -/
structure PrecomputedValues where
  /-- `d mod (p - 1)`. -/
  dp : BoxedUint
  /-- `d mod (q - 1)`. -/
  dq : BoxedUint
  /-- `q⁻¹ mod p`. -/
  qinv : BoxedResidue
  /-- The reduction context of `p`. -/
  pParams : BoxedResidueParams
  /-- The reduction context of `q`. -/
  qParams : BoxedResidueParams
  deriving DecidableEq

/-- `RsaPrivateKey`. -/
structure RsaPrivateKey where
  /-- The public part. -/
  pubkeyComponents : RsaPublicKey
  /-- The private exponent. -/
  d : BoxedUint
  /-- The prime factors of `n`. -/
  primes : List BoxedUint
  /-- The cache of CRT values. -/
  precomputed : Option PrecomputedValues
  deriving DecidableEq

namespace RsaPrivateKey

/-- The modulus of the embedded public key. -/
def n (key : RsaPrivateKey) : BoxedUint := key.pubkeyComponents.n

/-- The public exponent of the embedded public key. -/
def e (key : RsaPrivateKey) : UInt64 := key.pubkeyComponents.e

/-- `EXP`: the default public exponent. -/
def exp : Nat := 65537

/-- `to_public_key`. -/
def toPublicKey (key : RsaPrivateKey) : RsaPublicKey := key.pubkeyComponents

/-- `PartialEq for RsaPrivateKey`: the public part, `d` and the primes, by value; the cache is not
compared. -/
def eq (a b : RsaPrivateKey) : Bool :=
  a.pubkeyComponents.eq b.pubkeyComponents && a.d.val == b.d.val &&
    a.primes.map BoxedUint.val == b.primes.map BoxedUint.val

/-- `precompute`: fill the cache from the first two primes, unless it is already there. An
inverse of `q` modulo `p` that does not exist is `Err(InvalidPrime)`; the `unwrap`s panic on an
even prime or a prime `1`, and indexing panics on fewer than two primes. -/
def precompute (key : RsaPrivateKey) : Outcome (Except Error Unit × RsaPrivateKey) :=
  if key.precomputed.isSome then .ok (.ok (), key)
  else do
    let d := key.d
    let p ← unwrap key.primes[0]?
    let q ← unwrap key.primes[1]?
    let pParams ← unwrap (BoxedResidueParams.new p)
    let qParams ← unwrap (BoxedResidueParams.new q)
    let x ← unwrap (NonZero.new (p.wrappingSub BoxedUint.one))
    let dp ← d.remVartime x
    let x ← unwrap (NonZero.new (q.wrappingSub BoxedUint.one))
    let dq ← d.remVartime x
    let qinv ← BoxedResidue.new q pParams
    match qinv.invert with
    | none => pure (.error .invalidPrime, key)
    | some qinv => pure (.ok (), { key with precomputed := some ⟨dp, dq, qinv, pParams, qParams⟩ })

/-- `clear_precomputed`. -/
def clearPrecomputed (key : RsaPrivateKey) : RsaPrivateKey := { key with precomputed := none }

/-- `crt_coefficient`: `q⁻¹ mod p` computed afresh with crypto-bigint's `inv_mod`, as a `BigUint`;
indexing panics on fewer than two primes. -/
def crtCoefficient (key : RsaPrivateKey) : Outcome (Option Nat) := do
  let p ← unwrap key.primes[0]?
  let q ← unwrap key.primes[1]?
  pure ((q.invMod p).map toBiguint)

/-- The first loop of `validate`: reject a zero prime, and multiply the primes into `m` with
`wrapping_mul`, at the precision of `m`. -/
def productLoop : BoxedUint → List BoxedUint → Except Error BoxedUint
  | m, [] => .ok m
  | m, prime :: primes =>
      if prime.val < 1 then .error .invalidPrime else productLoop (m.wrappingMul prime) primes

/-- The second loop of `validate`: for each prime, `de mod (prime - 1)` must be one. The prime is
widened to the precision of `d`, and `prime - 1` is unwrapped as non-zero. -/
def congruenceLoop (d de : BoxedUint) : List BoxedUint → Outcome Unit
  | [] => .ok ()
  | prime :: primes => do
      let prime ← prime.widen d.bitsPrecision
      let x ← unwrap (NonZero.new (prime.wrappingSub BoxedUint.one))
      let congruence ← de.remVartime x
      if congruence.val ≠ 1 then .err .invalidExponent else congruenceLoop d de primes

/-- `validate`: the public checks, `Π primes = n` at the precision of `n`, and
`d·e ≡ 1 (mod p - 1)` for every prime, with `d` widened to twice its precision. -/
def validate (key : RsaPrivateKey) : Outcome Unit := do
  checkPublic key.pubkeyComponents
  let m ← productLoop (oneWithPrecision key.n.bitsPrecision) key.primes
  if m.val ≠ key.n.val then .err .invalidModulus
  else do
    let d ← key.d.widen (2 * key.d.bitsPrecision)
    let de := d.wrappingMul (ofU64 key.e)
    congruenceLoop d de key.primes

/-- The primes of `from_components_new` and whether the key must be validated: the given primes
when there are at least two; with none, the two primes recovered from `(n, e, d)`, at the
precision `nbits`; one prime is an error. -/
def choosePrimes (n : BoxedUint) (e : UInt64) (d : BoxedUint) (nbits : Nat)
    (primes : List BoxedUint) : Outcome (List BoxedUint × Bool) :=
  if primes.length < 2 then
    if !primes.isEmpty then .err .nprimesTooSmall
    else do
      let (p, q) ← recoverPrimes (toBiguint n) e.toNat (toBiguint d)
      let p ← toUintExact p nbits
      let q ← toUintExact q nbits
      pure (primes ++ [p, q], true)
  else pure (primes, false)

/-- `from_components_new`: build the key from the chosen primes, validate it if they were
recovered, and precompute, ignoring the failure of `precompute`. -/
def fromComponentsNew (n : BoxedUint) (e : UInt64) (d : BoxedUint) (primes : List BoxedUint) :
    Outcome RsaPrivateKey := do
  let nParams ← unwrap (BoxedResidueParams.new n)
  let nC ← unwrap (NonZero.new n)
  let (primes, shouldValidate) ← choosePrimes n e d nC.get.bitsPrecision primes
  let k : RsaPrivateKey := ⟨⟨nC.get, e, nParams⟩, d, primes, none⟩
  let _ ← (if shouldValidate then k.validate else pure ())
  let (_, k) ← k.precompute
  pure k

/-- `from_components`: convert `n` with `to_uint`, then `d` and the primes exactly to the
precision of `n`. -/
def fromComponents (n e d : Nat) (primes : List Nat) : Outcome RsaPrivateKey := do
  let n ← toUint n
  let e ← okOr (toU64 e) .invalidExponent
  let d ← toUintExact d n.bitsPrecision
  let primes ← primes.mapM (toUintExact · n.bitsPrecision)
  fromComponentsNew n e d primes

/-- `from_p_q`: two distinct primes, the Carmichael exponent. -/
def fromPQ (p q publicExponent : Nat) : Outcome RsaPrivateKey :=
  if p = q then .err .invalidPrime
  else do
    let n := computeModulus [p, q]
    let d ← computePrivateExponentCarmicheal p q publicExponent
    fromComponents n publicExponent d [p, q]

/-- `from_primes`: at least two pairwise distinct primes, the Euler-totient exponent. -/
def fromPrimes (primes : List Nat) (publicExponent : Nat) : Outcome RsaPrivateKey :=
  if primes.length < 2 then .err .nprimesTooSmall
  else if repeatsEarlier [] primes then .err .invalidPrime
  else do
    let n := computeModulus primes
    let d ← computePrivateExponentEulerTotient primes publicExponent
    fromComponents n publicExponent d primes

/-- The values of the primes. -/
def primeValues (key : RsaPrivateKey) : List Nat := key.primes.map BoxedUint.val

/-- `PrivateKeyPartsNew::qinv`: the cached `q⁻¹ mod p`. -/
def qinv (key : RsaPrivateKey) : Option BoxedResidue := key.precomputed.map (·.qinv)

/-- The precision discipline of the keys `from_components` builds: `d` and every prime in the
limbs of `n`, and at least one limb. -/
structure WellSized (key : RsaPrivateKey) : Prop where
  one_le : 1 ≤ key.n.nlimbs
  d_nlimbs : key.d.nlimbs = key.n.nlimbs
  primes_nlimbs : ∀ p ∈ key.primes, p.nlimbs = key.n.nlimbs

end RsaPrivateKey

end RsaKeys
