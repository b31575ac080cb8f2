import Mathlib.Algebra.Group.Nat.Defs
import Phpce.Lib.Bytes

/-!
# Bit strings

`bits n v` are the lowest `n` bits of `v`, the highest of them first, and `octets` the bytes that a
bit string is made of, without what does not fill a byte at its end.

* `bits_add`: a number's bits, cut in two.
* `octets_bits`: the bits of bytes are those bytes.
-/

namespace Bytes

open List

def bits (n : Nat) (v : UInt8) : List Bool :=
  (List.range n).map fun k => v.toNat.testBit (n - 1 - k)

/-- The number that eight bits are, the highest first. -/
def octet (bs : List Bool) : UInt8 := bs.foldl (fun v b => 2 * v + if b then 1 else 0) 0

def octets : List Bool → Bytes
  | b₇ :: b₆ :: b₅ :: b₄ :: b₃ :: b₂ :: b₁ :: b₀ :: bs =>
    octet [b₇, b₆, b₅, b₄, b₃, b₂, b₁, b₀] :: octets bs
  | _ => []

theorem toNat_shiftRight_ofNat {n : Nat} (v : UInt8) (hn : n < 8) :
    (v >>> UInt8.ofNat n).toNat = v.toNat >>> n := by
  rw [UInt8.toNat_shiftRight, UInt8.toNat_ofNat_of_lt' (show n < 256 by omega), Nat.mod_eq_of_lt hn]

theorem bits_add {n : Nat} (m : Nat) (v : UInt8) (hn : n < 8) :
    bits (m + n) v = bits m (v >>> UInt8.ofNat n) ++ bits n (v &&& UInt8.ofNat (2 ^ n - 1)) := by
  have hmask : (UInt8.ofNat (2 ^ n - 1)).toNat = 2 ^ n - 1 := by
    have hpow : 2 ^ n < 2 ^ 8 := Nat.pow_lt_pow_right (by decide) hn
    exact UInt8.toNat_ofNat_of_lt' (show 2 ^ n - 1 < 256 by omega)
  rw [bits, range_add, map_append, List.map_map]
  congr 1
  · refine map_congr_left fun k hk => ?_
    have hlt := mem_range.mp hk
    rw [toNat_shiftRight_ofNat v hn, Nat.testBit_shiftRight]
    congr 1
    omega
  · refine map_congr_left fun k hk => ?_
    have hlt := mem_range.mp hk
    show v.toNat.testBit (m + n - 1 - (m + k)) = _
    rw [UInt8.toNat_and, hmask, Nat.testBit_and, Nat.testBit_two_pow_sub_one,
      decide_eq_true (show n - 1 - k < n by omega), Bool.and_true]
    congr 1
    omega

theorem octets_append (v : UInt8) (bs : List Bool) : octets (bits 8 v ++ bs) = v :: octets bs := by
  have hone : octets (bits 8 v) = [v] := forall_byte (by decide +kernel) v
  have hhead : octets (bits 8 v ++ bs) = octets (bits 8 v) ++ octets bs := rfl
  rw [hhead, hone]
  rfl

theorem octets_bits (s : Bytes) (bs : List Bool) :
    octets (s.flatMap (bits 8) ++ bs) = s ++ octets bs := by
  -- induction on the bytes
  induction s with
  | nil => rfl
  | cons v s ih => rw [flatMap_cons, append_assoc, octets_append, ih, cons_append]

theorem octets_short {bs : List Bool} (h : bs.length < 8) : octets bs = [] := by
  unfold octets
  split
  · simp only [length_cons] at h
    omega
  · rfl

end Bytes
