import Mathlib.Tactic

/-!
# FNV-1a

The hash of a byte string takes in one byte after the other: exclusive or with the byte,
then a product with an odd prime.  Both can be undone, so that a hash still tells the
states that a common rest has led from apart (`hash_left_inj`), and two strings of the
same length that differ in one byte never have the same hash (`hash_byte_inj`).
-/

namespace Reame.Fnv

/-- Take in one byte. -/
def step (hash : UInt64) (b : UInt8) : UInt64 := (hash ^^^ b.toUInt64) * 0x100000001b3

/-- Take in bytes. -/
def hash (start : UInt64) (bytes : List UInt8) : UInt64 := bytes.foldl step start

theorem mul_prime_inj {x y : UInt64} (heq : x * 0x100000001b3 = y * 0x100000001b3) : x = y := by
  have hinverse : (0x100000001b3 : UInt64) * 0xce965057aff6957b = 1 := by decide
  calc x = x * 0x100000001b3 * 0xce965057aff6957b := by
        rw [UInt64.mul_assoc, hinverse, UInt64.mul_one]
    _ = y * 0x100000001b3 * 0xce965057aff6957b := by rw [heq]
    _ = y := by rw [UInt64.mul_assoc, hinverse, UInt64.mul_one]

theorem step_left_inj {h h' : UInt64} {b : UInt8} (heq : step h b = step h' b) : h = h' :=
  (UInt64.xor_left_inj b.toUInt64).mp (mul_prime_inj heq)

theorem step_right_inj {h : UInt64} {b b' : UInt8} (heq : step h b = step h b') : b = b' := by
  have hbytes : b.toUInt64 = b'.toUInt64 := (UInt64.xor_right_inj h).mp (mul_prime_inj heq)
  exact UInt8.toUInt64_inj.mp hbytes

theorem hash_append (h : UInt64) (bytes later : List UInt8) :
    hash h (bytes ++ later) = hash (hash h bytes) later :=
  List.foldl_append ..

theorem hash_left_inj {h h' : UInt64} {bytes : List UInt8} (heq : hash h bytes = hash h' bytes) :
    h = h' := by
  induction bytes generalizing h h' with
  | nil => exact heq
  | cons b bytes ih => exact step_left_inj (ih heq)

/-- A change of one byte changes the hash. -/
theorem hash_byte_inj {h : UInt64} {before after : List UInt8} {b b' : UInt8}
    (heq : hash h (before ++ b :: after) = hash h (before ++ b' :: after)) : b = b' := by
  rw [hash_append, hash_append] at heq
  exact step_right_inj (@hash_left_inj _ _ after heq)

end Reame.Fnv
