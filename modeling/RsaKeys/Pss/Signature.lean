import RsaKeys.Convert

/-!
# Signatures as bytes

A PSS `Signature` is a `BoxedUint` together with the byte length it was decoded from. `try_from`
decodes the bytes at `len as u32 * 8` bits, and `From<Signature>` (which `to_bytes` and the serde
encoding use) pads the value back to that length with `uint_to_be_pad`. Every byte string of
fewer than `2 ^ 29` bytes is accepted and round-trips, leading zero bytes included. From `2 ^ 29`
bytes on, the bit count overflows `u32`, or the cast has wrapped the length and the decode
refuses the bytes, and `try_from` panics.
-/

namespace RsaKeys

open BoxedUint

/-- `pss::Signature`. -/
structure Signature where
  /-- The signature as an integer. -/
  inner : BoxedUint
  /-- The length in bytes it came from. -/
  len : Nat
  deriving DecidableEq

namespace Signature

/-- `TryFrom<&[u8]>`: decode at `len as u32 * 8` bits; the `u32` product panics on overflow, and
the decode error is unwrapped. -/
def tryFrom (bytes : List UInt8) : Outcome Signature := do
  let len := bytes.length
  let bits ← checkedMulU32 (asU32 len) 8
  let inner ← unwrap (BoxedUint.fromBeSlice bytes bits)
  pure ⟨inner, len⟩

/-- `2 ^ 29` bytes: `len as u32 * 8` is `2 ^ 32`, which overflows, so `try_from` panics. -/
theorem tryFrom_aborts_on_overflowing_length : tryFrom (List.replicate (2 ^ 29) 0) = .abort := by
  have overflow : ¬ asU32 (List.replicate (2 ^ 29) (0 : UInt8)).length * 8 < 2 ^ 32 := by
    rw [List.length_replicate, asU32]
    norm_num
  rw [tryFrom, checkedMulU32, if_neg overflow, Outcome.abort_bind]

end Signature

end RsaKeys
