import Mathlib.Data.List.Basic
import Mathlib.Data.Nat.Notation
import Mathlib.Order.Lattice

/-! # RAM blocks

The guest's RAM is a list of blocks in one space of page numbers, which can have
gaps. Offsets and lengths are counted in target pages, and a host page is a whole
number of them.
-/

namespace VmFt.Ram

structure RamBlock where
  offset : ℕ
  usedLength : ℕ
  maxLength : ℕ
deriving DecidableEq, Repr

/-- The list of RAM blocks, with the host page size. -/
structure Layout where
  blocks : List RamBlock
  hostPages : ℕ
  hostPages_pos : 0 < hostPages
  used_le : ∀ b ∈ blocks, b.usedLength ≤ b.maxLength
  aligned : ∀ b ∈ blocks, hostPages ∣ b.usedLength
  disjoint : blocks.Pairwise fun a b =>
    a.offset + a.maxLength ≤ b.offset ∨ b.offset + b.maxLength ≤ a.offset

namespace Layout

variable (L : Layout)

/-- The end of the last block, which is the size of the bitmaps. -/
def lastRamOffset : ℕ := L.blocks.foldl (fun last b => max last (b.offset + b.maxLength)) 0

/-- A page of some block. -/
def InUse (p : ℕ) : Prop := ∃ b ∈ L.blocks, b.offset ≤ p ∧ p < b.offset + b.usedLength

instance (p : ℕ) : Decidable (L.InUse p) :=
  inferInstanceAs (Decidable (∃ b ∈ L.blocks, _))

/-- The content at a page number. Outside the blocks it is that of a page which the host has
allocated and never written. -/
def getPage {α : Type*} (mem : ℕ → α) (fakePage : α) (p : ℕ) : α :=
  if L.blocks.any fun b => b.offset ≤ p ∧ p < b.offset + b.maxLength then mem p else fakePage

variable {L} {p : ℕ}

theorem le_foldl_max (bs : List RamBlock) (m : ℕ) :
    m ≤ bs.foldl (fun last b => max last (b.offset + b.maxLength)) m ∧
      ∀ b ∈ bs, b.offset + b.maxLength ≤
        bs.foldl (fun last b => max last (b.offset + b.maxLength)) m := by
  induction bs generalizing m with
  | nil => simp
  | cons c bs ih =>
    obtain ⟨hm, hbs⟩ := ih (max m (c.offset + c.maxLength))
    refine ⟨(le_max_left _ _).trans hm, ?_⟩
    rintro b hb
    rcases List.mem_cons.mp hb with rfl | hb
    · exact (le_max_right _ _).trans hm
    · exact hbs b hb

theorem end_le_lastRamOffset {b : RamBlock} (hb : b ∈ L.blocks) :
    b.offset + b.usedLength ≤ L.lastRamOffset :=
  (Nat.add_le_add_left (L.used_le b hb) _).trans ((le_foldl_max L.blocks 0).2 b hb)

theorem InUse.lt (h : L.InUse p) : p < L.lastRamOffset := by
  obtain ⟨b, hb, -, hlt⟩ := h
  exact hlt.trans_le (end_le_lastRamOffset hb)

theorem InUse.getPage {α : Type*} {mem : ℕ → α} {fakePage : α} (h : L.InUse p) :
    L.getPage mem fakePage p = mem p := by
  obtain ⟨b, hb, hle, hlt⟩ := h
  have hmax := L.used_le b hb
  apply if_pos
  rw [List.any_eq_true]
  exact ⟨b, hb, decide_eq_true ⟨hle, by omega⟩⟩

end Layout

end VmFt.Ram
