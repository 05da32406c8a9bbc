import Mathlib.Data.List.Range
import Mathlib.Data.Finset.Card
import Mathlib.Data.Finset.Range
import Mathlib.Logic.Function.Basic

/-! # Bitmaps

A bitmap is given by its bits. The search for the next set bit is the linear
search from a position up to a size, which is returned when there is none.
-/

namespace VmFt

abbrev Bitmap := ℕ → Bool

def bitmapZero : Bitmap := fun _ => false

def bitmapOr (a b : Bitmap) : Bitmap := fun n => a n || b n

def setBit (a : Bitmap) (n : ℕ) : Bitmap := Function.update a n true

def clearBit (a : Bitmap) (n : ℕ) : Bitmap := Function.update a n false

/-- The first set bit from `start` on that is below `size`, or `size`. -/
def findNextBit (a : Bitmap) (size start : ℕ) : ℕ :=
  ((List.range' start (size - start)).find? a).getD size

variable {a : Bitmap} {size start n : ℕ}

theorem findNextBit_of_find?_eq_none (h : (List.range' start (size - start)).find? a = none) :
    findNextBit a size start = size := by
  rw [findNextBit, h, Option.getD_none]

theorem findNextBit_le (a : Bitmap) (size start : ℕ) : findNextBit a size start ≤ size := by
  cases h : (List.range' start (size - start)).find? a with
  | none => exact (findNextBit_of_find?_eq_none h).le
  | some n =>
    have hn := List.mem_range'_1.mp (List.mem_of_find?_eq_some h)
    rw [findNextBit, h, Option.getD_some]
    omega

theorem get_findNextBit (h : findNextBit a size start < size) :
    a (findNextBit a size start) = true := by
  cases hf : (List.range' start (size - start)).find? a with
  | none => exact absurd (findNextBit_of_find?_eq_none hf) h.ne
  | some n =>
    rw [findNextBit, hf, Option.getD_some]
    exact List.find?_some hf

theorem le_findNextBit (a : Bitmap) (h : start ≤ size) : start ≤ findNextBit a size start := by
  cases hf : (List.range' start (size - start)).find? a with
  | none => rwa [findNextBit_of_find?_eq_none hf]
  | some n =>
    rw [findNextBit, hf, Option.getD_some]
    exact (List.mem_range'_1.mp (List.mem_of_find?_eq_some hf)).1

theorem eq_false_of_lt_findNextBit (hs : start ≤ n) (hn : n < findNextBit a size start) :
    a n = false := by
  have hsi : n < size := lt_of_lt_of_le hn (findNextBit_le a size start)
  cases hf : (List.range' start (size - start)).find? a with
  | none =>
    have hmem : n ∈ List.range' start (size - start) := List.mem_range'_1.mpr ⟨hs, by omega⟩
    simpa using List.find?_eq_none.mp hf n hmem
  | some m =>
    rw [findNextBit, hf, Option.getD_some] at hn
    rw [List.find?_range'_eq_some] at hf
    simpa using hf.2.2 n hs hn

theorem setBit_apply {m : ℕ} : setBit a m n ↔ a n ∨ m = n := by
  by_cases h : n = m
  · simp [setBit, h]
  · simp [setBit, h, Ne.symm h]

theorem foldl_mark {ι : Type*} {g : Bitmap → ι → Bitmap} {Q : ι → Prop}
    (hg : ∀ b i, g b i n ↔ b n ∨ Q i) (l : List ι) (a : Bitmap) :
    l.foldl g a n ↔ a n ∨ ∃ i ∈ l, Q i := by
  induction l generalizing a with
  | nil => simp
  | cons i l ih => simp [ih, hg, or_assoc]

def countBits (a : Bitmap) (size : ℕ) : ℕ := ((Finset.range size).filter fun n => a n).card

theorem countBits_lt {b : Bitmap} (hsub : ∀ n, b n → a n) (hn : n < size) (ha : a n)
    (hb : b n = false) : countBits b size < countBits a size := by
  apply Finset.card_lt_card
  constructor
  · intro m hm
    simp only [Finset.mem_filter] at hm ⊢
    exact ⟨hm.1, hsub m hm.2⟩
  · intro hle
    have hmem := hle (Finset.mem_filter.mpr ⟨Finset.mem_range.mpr hn, ha⟩)
    simp [hb] at hmem

/-! ### Bytes -/

/-- The first `size` bytes of a bitmap. -/
def bitmapBytes (a : Bitmap) (size : ℕ) : List UInt8 :=
  (List.range size).map fun k => UInt8.ofNat (Nat.ofBits fun j : Fin 8 => a (8 * k + j))

def bitmapOfBytes (bytes : List UInt8) : Bitmap := fun n =>
  (bytes.getD (n / 8) 0).toNat.testBit (n % 8)

@[simp]
theorem length_bitmapBytes (a : Bitmap) (size : ℕ) : (bitmapBytes a size).length = size := by
  simp [bitmapBytes]

theorem bitmapOfBytes_bitmapBytes {size : ℕ} (h : n < 8 * size) :
    bitmapOfBytes (bitmapBytes a size) n = a n := by
  have hb : (bitmapBytes a size).getD (n / 8) 0 =
      UInt8.ofNat (Nat.ofBits fun j : Fin 8 => a (8 * (n / 8) + j)) := by
    rw [List.getD_eq_getElem?_getD, bitmapBytes, List.getElem?_map, List.getElem?_range (by omega)]
    rfl
  rw [bitmapOfBytes, hb, UInt8.toNat_ofNat', Nat.mod_eq_of_lt (Nat.ofBits_lt_two_pow _),
    Nat.testBit_ofBits_lt _ _ (Nat.mod_lt _ (by decide))]
  exact congrArg a (Nat.div_add_mod n 8)

end VmFt
