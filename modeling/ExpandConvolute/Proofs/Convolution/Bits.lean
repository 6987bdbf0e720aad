import ExpandConvolute.Convolution.Step
import ExpandConvolute.Proofs.Octets

/-!
# ExpandConvolute.Proofs.Convolution.Bits

Coefficient bits as a list and as the binary digits of a number.

* `lowBits_add` cuts the list of the lowest bits in two; the second part are the lowest bits of a
  quotient.
* `lowBits_value_cons`, `lowBits_value_take` and `lowBits_value_drop` find the lists of single
  bytes in that of a byte string.
-/

namespace ExpandConvolute

namespace Convolution

@[simp] theorem length_lowBits (count n : Nat) : (lowBits count n).length = count := by
  simp [lowBits]

theorem lowBits_add (count more n : Nat) :
    lowBits (count + more) n = lowBits count n ++ lowBits more (n / 2 ^ count) := by
  simp only [lowBits, List.range_add, List.map_append, List.map_map]
  congr 1
  apply List.map_congr_left
  intro a _
  simp [Nat.testBit_div_two_pow, Nat.add_comm]

theorem lowBits_mod {count width : Nat} (h : count ≤ width) (n : Nat) :
    lowBits count (n % 2 ^ width) = lowBits count n := by
  apply List.map_congr_left
  intro a ha
  have ha : a < width := by
    have := List.mem_range.mp ha
    omega
  simp [Nat.testBit_mod_two_pow, ha]

/-- The first byte of a byte string gives its lowest eight bits. -/
theorem lowBits_value_cons (c : UInt8) (cs : List UInt8) (count : Nat) :
    lowBits (8 + count) (Octets.value (c :: cs)) =
      lowBits 8 c.toNat ++ lowBits count (Octets.value cs) := by
  have hc := c.toNat_lt
  have hr : Octets.value (c :: cs) % 2 ^ 8 = c.toNat := by rw [Octets.value]; omega
  have hq : Octets.value (c :: cs) / 2 ^ 8 = Octets.value cs := by rw [Octets.value]; omega
  rw [lowBits_add, ← lowBits_mod (Nat.le_refl 8), hr, hq]

/-- Bits beyond the last one asked for do not matter, nor do the bytes that hold them. -/
theorem lowBits_value_take {width count : Nat} (h : width ≤ 8 * count) (cs : List UInt8) :
    lowBits width (Octets.value (cs.take count)) = lowBits width (Octets.value cs) := by
  have hp : 256 ^ count = 2 ^ (8 * count) := by rw [Nat.pow_mul]
  rw [Octets.value_take, hp, lowBits_mod h]

/-- Past whole bytes, the next bits are those of the next byte. -/
theorem lowBits_value_drop {cs : List UInt8} {whole rest : Nat} {last : UInt8}
    (hl : cs[whole]? = some last) (hr : rest ≤ 8) :
    lowBits rest (Octets.value cs / 2 ^ (8 * whole)) = lowBits rest last.toNat := by
  obtain ⟨h, rfl⟩ := List.getElem?_eq_some_iff.mp hl
  have hp : 2 ^ (8 * whole) = 256 ^ whole := by rw [Nat.pow_mul]
  have hb := cs[whole].toNat_lt
  rw [hp, ← Octets.value_drop, List.drop_eq_getElem_cons h, Octets.value,
    ← lowBits_mod hr (cs[whole].toNat + _)]
  congr 1
  omega

end Convolution
end ExpandConvolute
