import Mathlib

/-!
# Bits packed eight to a byte

Bit `i` of a byte string is bit `i % 8`, counted from the least significant, of byte
`i / 8`. `testBit_setBit` is the one law: setting a bit changes that bit and no other.
-/

namespace Lib

def setBit (bs : List UInt8) (i : Nat) : List UInt8 :=
  bs.modify (i / 8) (· ||| (1 <<< UInt8.ofNat (i % 8)))

/-- Bit `i`; bits beyond the end read as unset. -/
def testBit (bs : List UInt8) (i : Nat) : Bool :=
  (bs.getD (i / 8) 0 >>> UInt8.ofNat (i % 8)) &&& 1 == 1

@[simp] theorem length_setBit (bs : List UInt8) (i : Nat) : (setBit bs i).length = bs.length := by
  simp [setBit]

/-- Shifting a bit down to the front reads it. -/
theorem shift_and_one (b : UInt8) {k : Nat} (hk : k < 8) :
    ((b >>> UInt8.ofNat k) &&& 1 == 1) = b.toNat.testBit k := by
  have hmod : (UInt8.ofNat k).toNat % 8 = k := by
    rw [UInt8.toNat_ofNat']
    omega
  have hnat : ((b >>> UInt8.ofNat k) &&& 1).toNat = b.toNat >>> k % 2 := by
    rw [UInt8.toNat_and, UInt8.toNat_shiftRight, hmod]
    exact Nat.and_one_is_mod _
  have hbit : b.toNat.testBit k = decide (b.toNat >>> k % 2 = 1) := by
    rw [← Nat.testBit_zero, Nat.testBit_shiftRight, Nat.add_zero]
  rw [hbit, ← hnat, beq_eq_decide, decide_eq_decide, ← UInt8.toNat_inj]
  rfl

/-- The law within one byte. -/
theorem byte_or_shift (b : UInt8) {k j : Nat} (hk : k < 8) (hj : j < 8) :
    (((b ||| (1 <<< UInt8.ofNat k)) >>> UInt8.ofNat j) &&& 1 == 1) =
      (((b >>> UInt8.ofNat j) &&& 1 == 1) || decide (k = j)) := by
  have hmod : (UInt8.ofNat k).toNat % 8 = k := by
    rw [UInt8.toNat_ofNat']
    omega
  have hone : (1 <<< UInt8.ofNat k : UInt8).toNat.testBit j = decide (k = j) := by
    rw [UInt8.toNat_shiftLeft, hmod, UInt8.toNat_one, Nat.one_shiftLeft, Nat.testBit_mod_two_pow,
      Nat.testBit_two_pow]
    simp [hj]
  rw [shift_and_one _ hj, shift_and_one _ hj, UInt8.toNat_or, Nat.testBit_or, hone]

theorem testBit_setBit {bs : List UInt8} {i : Nat} (hi : i / 8 < bs.length) (j : Nat) :
    testBit (setBit bs i) j = (testBit bs j || decide (i = j)) := by
  unfold testBit setBit
  rw [List.getD_eq_getElem?_getD, List.getD_eq_getElem?_getD, List.getElem?_modify]
  by_cases hij : i / 8 = j / 8
  · -- the byte that changes
    rw [← hij, List.getElem?_eq_getElem hi]
    have hsame : decide (i % 8 = j % 8) = decide (i = j) := by
      rw [decide_eq_decide]
      omega
    simpa [hsame] using byte_or_shift bs[i / 8] (Nat.mod_lt i (by decide))
      (Nat.mod_lt j (by decide))
  · have hne : i ≠ j := fun h => hij (h ▸ rfl)
    simp [hij, hne]

theorem testBit_replicate_zero (n j : Nat) : testBit (List.replicate n 0) j = false := by
  have hzero : (List.replicate n (0 : UInt8)).getD (j / 8) 0 = 0 := by
    rw [List.getD_eq_getElem?_getD, List.getElem?_replicate]
    split <;> rfl
  rw [testBit, hzero, UInt8.zero_shiftRight]
  rfl

/-- A byte with a bit set is not zero. -/
theorem getD_ne_zero_of_testBit {bs : List UInt8} {i : Nat} (h : testBit bs i = true) :
    bs.getD (i / 8) 0 ≠ 0 := by
  intro h0
  rw [testBit, h0, UInt8.zero_shiftRight] at h
  revert h
  decide

end Lib
