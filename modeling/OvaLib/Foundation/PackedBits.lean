import Mathlib.Tactic.Common

/-!
# Bits packed into bytes

A list of bytes holds eight bits a byte, the lowest first. A program tests and sets a bit with a
mask of one bit in the byte that has it, and what is said here is that this is the bit at the index,
and that no other bit changes.

## Main results

* `mask_eq_zero_iff` — testing with a mask of one bit
* `bitAt_set_or` — setting a bit sets that bit
-/

namespace Foundation

/-- The bit at an index, `false` past the end. -/
def bitAt (bytes : List UInt8) (i : ℕ) : Bool := (bytes[i / 8]?.getD 0).toBitVec.getLsbD (i % 8)

variable {b mask : UInt8} {k : ℕ}

/-- Testing with a mask of one bit. -/
theorem mask_eq_zero_iff (hmask : mask.toBitVec = BitVec.twoPow 8 k) (hk : k < 8) :
    b &&& mask = 0 ↔ b.toBitVec.getLsbD k = false := by
  rw [← UInt8.toBitVec_inj, UInt8.toBitVec_and, hmask, BitVec.and_twoPow]
  constructor
  · intro h
    by_contra hbit
    rw [if_pos (by simpa using hbit)] at h
    have hget := congrArg (fun v => v.getLsbD k) h
    simp [hk] at hget
  · intro h
    rw [h]
    rfl

/-- Setting a bit sets that bit. -/
theorem bitAt_set_or {bytes : List UInt8} {i : ℕ} (hi : i / 8 < bytes.length)
    (hmask : mask.toBitVec = BitVec.twoPow 8 (i % 8)) (j : ℕ) :
    bitAt (bytes.set (i / 8) (bytes[i / 8] ||| mask)) j = (bitAt bytes j || decide (j = i)) := by
  rw [bitAt, bitAt, List.getElem?_set]
  by_cases hbyte : i / 8 = j / 8
  · have hj : bytes[j / 8]? = some bytes[i / 8] := by rw [← hbyte, List.getElem?_eq_getElem hi]
    rw [if_pos hbyte, if_pos hi, hj, Option.getD_some, Option.getD_some, UInt8.toBitVec_or,
      BitVec.getLsbD_or, hmask, BitVec.getLsbD_twoPow]
    refine congrArg (bytes[i / 8].toBitVec.getLsbD (j % 8) || ·) (Bool.eq_iff_iff.mpr ?_)
    rw [Bool.and_eq_true, decide_eq_true_eq, decide_eq_true_eq, decide_eq_true_eq]
    omega
  · have hne : j ≠ i := fun heq => hbyte (by rw [heq])
    rw [if_neg hbyte, decide_eq_false hne, Bool.or_false]

end Foundation
