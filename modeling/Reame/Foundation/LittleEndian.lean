import Mathlib.Algebra.Order.Ring.Nat
import Mathlib.Tactic

/-!
# Little-endian integers

`bytes width n` are the `width` low bytes of `n`, least significant first, and `value`
reads such bytes back.
-/

namespace Reame.LittleEndian

/-- The low `width` bytes of `n`: byte `i` is `(n >> 8 i) & 0xFF`. -/
def bytes (width n : ℕ) : List UInt8 :=
  (List.range width).map fun i => UInt8.ofNat (n / 256 ^ i)

/-- The number with the given bytes. -/
def value (digits : List UInt8) : ℕ := digits.foldr (fun digit high => digit.toNat + 256 * high) 0

@[simp] theorem length_bytes (width n : ℕ) : (bytes width n).length = width := by
  simp [bytes]

theorem bytes_succ (width n : ℕ) :
    bytes (width + 1) n = UInt8.ofNat n :: bytes width (n / 256) := by
  simp [bytes, List.range_succ_eq_map, Function.comp_def, Nat.pow_succ', Nat.div_div_eq_div_mul]

/-- Reading back what was written. -/
@[simp] theorem value_bytes (width n : ℕ) : value (bytes width n) = n % 256 ^ width := by
  induction width generalizing n with
  | zero => simp [bytes, value, Nat.mod_one]
  | succ width ih =>
      have hrest := ih (n / 256)
      rw [value] at hrest
      have hdigit : (UInt8.ofNat n).toNat = n % 256 := UInt8.toNat_ofNat'
      calc value (bytes (width + 1) n)
          = (UInt8.ofNat n).toNat + 256 * (n / 256 % 256 ^ width) := by
            rw [bytes_succ, value, List.foldr_cons, hrest]
        _ = n % 256 + 256 * (n / 256 % 256 ^ width) := by rw [hdigit]
        _ = n % 256 ^ (width + 1) := by rw [pow_succ' 256 width, Nat.mod_mul]

@[simp] theorem value_cons (digit : UInt8) (digits : List UInt8) :
    value (digit :: digits) = digit.toNat + 256 * value digits := rfl

theorem value_append (low high : List UInt8) :
    value (low ++ high) = value low + 256 ^ low.length * value high := by
  induction low with
  | nil => simp [value]
  | cons digit low ih =>
      calc value (digit :: (low ++ high))
          = digit.toNat + 256 * (value low + 256 ^ low.length * value high) := by
            rw [value_cons, ih]
        _ = digit.toNat + 256 * value low + 256 ^ (low.length + 1) * value high := by ring

theorem value_lt (digits : List UInt8) : value digits < 256 ^ digits.length := by
  induction digits with
  | nil => simp [value]
  | cons digit digits ih =>
      have hdigit := digit.toNat_lt
      rw [value_cons, List.length_cons, pow_succ']
      omega

/-- Bytes are known by their value. -/
theorem value_inj {digits digits' : List UInt8} (hlength : digits.length = digits'.length)
    (heq : value digits = value digits') : digits = digits' := by
  induction digits generalizing digits' with
  | nil => exact (List.length_eq_zero_iff.mp hlength.symm).symm
  | cons digit digits ih =>
      cases digits' with
      | nil => cases hlength
      | cons digit' digits' =>
          have hdigit := digit.toNat_lt
          have hdigit' := digit'.toNat_lt
          rw [value_cons, value_cons] at heq
          have hlow : digit = digit' := UInt8.toNat_inj.mp (by omega)
          have hhigh : digits = digits' := ih (Nat.succ.inj hlength) (by omega)
          rw [hlow, hhigh]

/-- The bytes of numbers one after the other. -/
theorem length_flatMap_bytes (width : ℕ) (ns : List ℕ) :
    (ns.flatMap (bytes width)).length = ns.length * width := by
  induction ns with
  | nil => simp
  | cons n ns ih =>
      calc ((n :: ns).flatMap (bytes width)).length
          = width + ns.length * width := by
            rw [List.flatMap_cons, List.length_append, length_bytes, ih]
        _ = (n :: ns).length * width := by
            rw [List.length_cons, Nat.succ_mul, Nat.add_comm]

/-- As many numbers of one width are known by their bytes. -/
theorem flatMap_bytes_inj {width : ℕ} {ns ns' : List ℕ} (hlength : ns.length = ns'.length)
    (hns : ∀ n ∈ ns, n < 256 ^ width) (hns' : ∀ n ∈ ns', n < 256 ^ width)
    (heq : ns.flatMap (bytes width) = ns'.flatMap (bytes width)) : ns = ns' := by
  induction ns generalizing ns' with
  | nil => exact (List.length_eq_zero_iff.mp hlength.symm).symm
  | cons n ns ih =>
      cases ns' with
      | nil => cases hlength
      | cons n' ns' =>
          rw [List.flatMap_cons, List.flatMap_cons] at heq
          obtain ⟨hfirst, hrest⟩ := List.append_inj heq (by simp)
          have hvalues := congrArg value hfirst
          rw [value_bytes, value_bytes, Nat.mod_eq_of_lt (hns n List.mem_cons_self),
            Nat.mod_eq_of_lt (hns' n' List.mem_cons_self)] at hvalues
          have htail := ih (Nat.succ.inj hlength) (fun m hm => hns m (List.mem_cons_of_mem n hm))
            (fun m hm => hns' m (List.mem_cons_of_mem n' hm)) hrest
          rw [hvalues, htail]

end Reame.LittleEndian
