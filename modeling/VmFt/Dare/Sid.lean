import Mathlib.Data.Nat.Bitwise
import Mathlib.Tactic.IntervalCases

/-! # The state identifier

A SID packs `[TERM|L|IDX]` in one 64-bit word: the term in the upper 55 bits,
the leader flag in bit 8 and the index of a server in the lower 8 bits. Words
are compared as integers, so a term dominates the flag and the flag dominates
the index.
-/

namespace VmFt.Dare

def sidGetIdx (sid : ℕ) : ℕ := sid &&& 0xFF

def sidSetIdx (sid idx : ℕ) : ℕ := idx ||| ((sid >>> 8) <<< 8)

def sidGetL (sid : ℕ) : Bool := (sid &&& (1 <<< 8)) != 0

def sidSetL (sid : ℕ) : ℕ := sid ||| (1 <<< 8)

def sidUnsetL (sid : ℕ) : ℕ := sid &&& (2 ^ 64 - 1 - (1 <<< 8))

def sidGetTerm (sid : ℕ) : ℕ := sid >>> 9

/-- `SID_SET_TERM`; the shift drops the bits of the term that leave the word. -/
def sidSetTerm (sid term : ℕ) : ℕ := ((term <<< 9) % 2 ^ 64) ||| (sid &&& 0x1FF)

def sidNull : ℕ := 0xFF

/-- The word `[t|l|i]`. -/
def sidMk (t : ℕ) (l : Bool) (i : ℕ) : ℕ := t * 512 + (if l then 256 else 0) + i

def termLimit : ℕ := 2 ^ 55

theorem sidGetIdx_eq (sid : ℕ) : sidGetIdx sid = sid % 256 :=
  Nat.and_two_pow_sub_one_eq_mod sid 8

theorem sidGetTerm_eq (sid : ℕ) : sidGetTerm sid = sid / 512 :=
  Nat.shiftRight_eq_div_pow sid 9

theorem sidGetL_eq (sid : ℕ) : sidGetL sid = decide (sid / 256 % 2 = 1) := by
  have h : sid &&& (1 <<< 8) = (sid.testBit 8).toNat * 2 ^ 8 := Nat.and_two_pow sid 8
  have hb : sid.testBit 8 = decide (sid / 256 % 2 = 1) := by
    rw [Nat.testBit_eq_decide_div_mod_eq]
  rw [sidGetL, h, hb]
  by_cases hd : sid / 256 % 2 = 1 <;> simp [hd]

theorem sidSetIdx_eq {sid idx : ℕ} (h : idx < 256) : sidSetIdx sid idx = sid / 256 * 256 + idx := by
  have hor := Nat.two_pow_add_eq_or_of_lt (show idx < 2 ^ 8 from h) (sid / 256)
  rw [sidSetIdx, Nat.shiftRight_eq_div_pow, Nat.shiftLeft_eq, Nat.lor_comm, Nat.mul_comm]
  rw [show (2 : ℕ) ^ 8 = 256 from rfl] at hor ⊢
  omega

theorem sidSetTerm_eq (sid term : ℕ) : sidSetTerm sid term = term * 512 % 2 ^ 64 + sid % 512 := by
  have hmod : term * 512 % 2 ^ 64 = 2 ^ 9 * (term % 2 ^ 55) := by omega
  have hor := Nat.two_pow_add_eq_or_of_lt (show sid % 512 < 2 ^ 9 by omega) (term % 2 ^ 55)
  have hand : sid &&& 0x1FF = sid % 512 := Nat.and_two_pow_sub_one_eq_mod sid 9
  rw [sidSetTerm, Nat.shiftLeft_eq, hand, show term * 2 ^ 9 = term * 512 from rfl, hmod, ← hor]

theorem sidSetL_eq (sid : ℕ) : sidSetL sid = sidMk (sid / 512) true (sid % 256) := by
  have hi : sid % 256 < 2 ^ 8 := Nat.mod_lt _ (by decide)
  have hsid : sid = 2 ^ 8 * (sid / 256) + sid % 256 := by omega
  have hf : sid / 256 ||| 1 = 2 * (sid / 512) + 1 := by
    have hh : sid / 256 = 2 ^ 1 * (sid / 512) + sid / 256 % 2 := by omega
    have hbit : sid / 256 % 2 < 2 ^ 1 := Nat.mod_lt _ (by decide)
    rw [hh, Nat.two_pow_add_eq_or_of_lt hbit, Nat.lor_assoc]
    rcases Nat.mod_two_eq_zero_or_one (sid / 256) with h | h <;>
      rw [h] <;> exact (Nat.two_pow_add_eq_or_of_lt (by decide) (sid / 512)).symm
  calc sidSetL sid = 2 ^ 8 * (sid / 256) + sid % 256 ||| 1 <<< 8 := by rw [← hsid, sidSetL]
    _ = (sid / 256) <<< 8 ||| 1 <<< 8 ||| sid % 256 := by
        rw [Nat.two_pow_add_eq_or_of_lt hi, Nat.lor_assoc, Nat.lor_comm (sid % 256),
          ← Nat.lor_assoc, Nat.mul_comm, ← Nat.shiftLeft_eq]
    _ = 2 ^ 8 * (2 * (sid / 512) + 1) + sid % 256 := by
        rw [← Nat.shiftLeft_or_distrib, hf, Nat.shiftLeft_eq, Nat.mul_comm,
          ← Nat.two_pow_add_eq_or_of_lt hi]
    _ = sidMk (sid / 512) true (sid % 256) := by simp only [sidMk, if_true]; omega

theorem sidUnsetL_shift {t : ℕ} (h : t < termLimit) : sidUnsetL (t * 512) = t * 512 := by
  apply Nat.eq_of_testBit_eq
  intro k
  have hlow : k < 9 → (t * 512).testBit k = false := by
    intro hk
    rw [show t * 512 = t * 2 ^ 9 from rfl, Nat.testBit_mul_two_pow]
    simp; omega
  have hh : 64 ≤ k → (t * 512).testBit k = false := by
    intro hk
    apply Nat.testBit_lt_two_pow
    have : t * 512 < 2 ^ 64 := by rw [termLimit] at h; omega
    exact lt_of_lt_of_le this (Nat.pow_le_pow_right (by decide) hk)
  rw [sidUnsetL, Nat.testBit_and]
  by_cases hk : k < 9
  · rw [hlow hk]; rfl
  · by_cases hk' : 64 ≤ k
    · rw [hh hk']; rfl
    · have hm : (2 ^ 64 - 1 - 1 <<< 8).testBit k = true := by
        interval_cases k <;> decide
      rw [hm, Bool.and_true]

section Packed

variable {t t' i i' : ℕ} {l l' : Bool}

theorem sidMk_eta (sid : ℕ) : sid = sidMk (sidGetTerm sid) (sidGetL sid) (sidGetIdx sid) := by
  rw [sidGetTerm_eq, sidGetL_eq, sidGetIdx_eq, sidMk]
  by_cases h : sid / 256 % 2 = 1 <;> simp only [h, decide_true, decide_false, if_true,
    Bool.false_eq_true, if_false] <;> omega

@[simp]
theorem sidGetTerm_mk (h : i < 256) : sidGetTerm (sidMk t l i) = t := by
  rw [sidGetTerm_eq, sidMk]; cases l <;> simp <;> omega

@[simp]
theorem sidGetIdx_mk (h : i < 256) : sidGetIdx (sidMk t l i) = i := by
  rw [sidGetIdx_eq, sidMk]; cases l <;> simp <;> omega

@[simp]
theorem sidGetL_mk (h : i < 256) : sidGetL (sidMk t l i) = l := by
  rw [sidGetL_eq, sidMk]; cases l <;> simp <;> omega

theorem sidMk_inj (h : i < 256) (h' : i' < 256) (heq : sidMk t l i = sidMk t' l' i') :
    t = t' ∧ l = l' ∧ i = i' := by
  refine ⟨?_, ?_, ?_⟩
  · rw [← sidGetTerm_mk (t := t) (l := l) h, heq, sidGetTerm_mk h']
  · rw [← sidGetL_mk (t := t) (l := l) h, heq, sidGetL_mk h']
  · rw [← sidGetIdx_mk (t := t) (l := l) h, heq, sidGetIdx_mk h']

theorem sidGetIdx_lt (sid : ℕ) : sidGetIdx sid < 256 := by
  rw [sidGetIdx_eq]; omega

theorem sidGetTerm_mono {a b : ℕ} (h : a ≤ b) : sidGetTerm a ≤ sidGetTerm b := by
  rw [sidGetTerm_eq, sidGetTerm_eq]; exact Nat.div_le_div_right h

theorem lt_of_sidGetTerm_lt {a b : ℕ} (h : sidGetTerm a < sidGetTerm b) : a < b := by
  by_contra hab
  exact absurd (sidGetTerm_mono (not_lt.mp hab)) (not_le.mpr h)

theorem sidSetL_mk (sid : ℕ) : sidSetL sid = sidMk (sidGetTerm sid) true (sidGetIdx sid) := by
  rw [sidSetL_eq, sidGetTerm_eq, sidGetIdx_eq]

theorem le_sidSetL (sid : ℕ) : sid ≤ sidSetL sid := by
  rw [sidSetL_eq, sidMk]; simp; omega

theorem sidSetIdx_setTerm (hi : i < 256) (ht : t < termLimit) (sid : ℕ) :
    sidSetIdx (sidSetTerm sid t) i = sidMk t (sidGetL sid) i := by
  have hmod : t * 512 % 2 ^ 64 = t * 512 := by rw [termLimit] at ht; omega
  rw [sidSetIdx_eq hi, sidSetTerm_eq, hmod, sidGetL_eq, sidMk]
  by_cases h : sid / 256 % 2 = 1 <;> simp only [h, decide_true, decide_false, if_true,
    Bool.false_eq_true, if_false] <;> omega

theorem sidGetL_setIdx_setTerm (hi : i < 256) (sid : ℕ) :
    sidGetL (sidSetIdx (sidSetTerm sid t) i) = sidGetL sid := by
  rw [sidSetIdx_eq hi, sidSetTerm_eq, sidGetL_eq, sidGetL_eq]
  exact decide_eq_decide.mpr (by omega)

theorem sidGetL_setIdx_unsetL (hi : i < 256) (sid : ℕ) :
    sidGetL (sidSetIdx (sidUnsetL sid) i) = false := by
  have hbit : (sidUnsetL sid).testBit 8 = false := by
    rw [sidUnsetL, Nat.testBit_and, show (2 ^ 64 - 1 - 1 <<< 8).testBit 8 = false by decide,
      Bool.and_false]
  rw [Nat.testBit_eq_decide_div_mod_eq, decide_eq_false_iff_not] at hbit
  rw [sidSetIdx_eq hi, sidGetL_eq, decide_eq_false_iff_not]
  omega

theorem sidMk_true_le_iff (h : i < 256) (h' : i' < 256) :
    sidMk t true i < sidMk t' false i' ↔ t < t' := by
  simp only [sidMk]; simp; omega

end Packed

end VmFt.Dare
