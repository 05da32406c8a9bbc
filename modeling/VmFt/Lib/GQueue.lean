import Mathlib.Data.List.Perm.Basic
import Mathlib.Data.List.Sort
import Mathlib.Data.Nat.Notation

/-! # Queues

A queue is searched by a comparison that may rewrite the elements it looks at, and
sorted by a merge sort that splits in the middle. The sort permutes the queue and
leaves a queue alone whose elements are in order, whatever the comparison does
elsewhere.
-/

namespace VmFt.GQueue

open List

universe u

variable {α : Type u}

def sortWithin (le : α → α → Bool) : ℕ → List α → List α
  | 0, l => l
  | fuel + 1, l =>
    if l.length ≤ 1 then l
    else
      merge (sortWithin le fuel (l.take (l.length / 2)))
        (sortWithin le fuel (l.drop (l.length / 2))) le

def sort (le : α → α → Bool) (l : List α) : List α := sortWithin le l.length l

/-- Look for the first element that compares as the same. -/
def findCustom (compare : α → α × Bool) : List α → List α × Option α
  | [] => ([], none)
  | x :: xs =>
    if (compare x).2 then ((compare x).1 :: xs, some (compare x).1)
    else ((compare x).1 :: (findCustom compare xs).1, (findCustom compare xs).2)

section Sorting

variable {le : α → α → Bool}

theorem sortWithin_perm (fuel : ℕ) (l : List α) : (sortWithin le fuel l).Perm l := by
  induction fuel generalizing l with
  | zero => exact .refl l
  | succ fuel ih =>
    rw [sortWithin]
    split
    · exact .refl l
    · have hh := (ih (l.take (l.length / 2))).append (ih (l.drop (l.length / 2)))
      rw [take_append_drop] at hh
      exact List.Perm.trans (merge_perm_append ..) hh

theorem sort_perm (l : List α) : (sort le l).Perm l := sortWithin_perm _ l

theorem sortWithin_eq_self {l : List α} (h : l.Pairwise fun a b => le a b) (fuel : ℕ) :
    sortWithin le fuel l = l := by
  induction fuel generalizing l with
  | zero => rfl
  | succ fuel ih =>
    rw [sortWithin]
    split
    · rfl
    · rw [← take_append_drop (l.length / 2) l, pairwise_append] at h
      rw [ih h.1, ih h.2.1, merge_of_le fun a b ha hb => h.2.2 a ha b hb,
        take_append_drop]

theorem sort_eq_self {l : List α} (h : l.Pairwise fun a b => le a b) : sort le l = l :=
  sortWithin_eq_self h _

end Sorting

section Finding

variable {compare : α → α × Bool} {l : List α} {r : α}

theorem findCustom_eq_none_iff :
    (findCustom compare l).2 = none ↔ ∀ x ∈ l, (compare x).2 = false := by
  induction l with
  | nil => simp [findCustom]
  | cons x xs ih =>
    rw [findCustom, forall_mem_cons]
    split
    · rename_i h
      simp [h]
    · rename_i h
      simp [h, ih]

theorem findCustom_fst_of_none (h : (findCustom compare l).2 = none) :
    (findCustom compare l).1 = l.map fun x => (compare x).1 := by
  induction l with
  | nil => rfl
  | cons x xs ih =>
    rw [findCustom] at h ⊢
    split at h
    · cases h
    · rename_i hne
      rw [if_neg hne, map_cons]
      exact congrArg _ (ih h)

theorem exists_of_findCustom (h : (findCustom compare l).2 = some r) :
    ∃ before x after, l = before ++ x :: after ∧ (compare x).2 = true ∧ r = (compare x).1 ∧
      (findCustom compare l).1 = (before.map fun y => (compare y).1) ++ r :: after := by
  induction l with
  | nil => cases h
  | cons x xs ih =>
    rw [findCustom] at h ⊢
    split at h
    · rename_i hs
      cases h
      exact ⟨[], x, xs, rfl, hs, rfl, by rw [if_pos hs]; rfl⟩
    · rename_i hne
      obtain ⟨before, y, after, rfl, hs, hr, hl⟩ := ih h
      refine ⟨x :: before, y, after, rfl, hs, hr, ?_⟩
      rw [if_neg hne, hl]
      rfl

theorem mem_findCustom (h : (findCustom compare l).2 = some r) : r ∈ (findCustom compare l).1 := by
  obtain ⟨before, x, after, -, -, -, hl⟩ := exists_of_findCustom h
  rw [hl]
  exact mem_append_right _ mem_cons_self

theorem map_findCustom {β : Type*} {f : α → β} (hf : ∀ x, f (compare x).1 = f x) :
    (findCustom compare l).1.map f = l.map f := by
  induction l with
  | nil => rfl
  | cons x xs ih =>
    rw [findCustom]
    split
    · rw [map_cons, map_cons, hf]
    · rw [map_cons, map_cons, hf, ih]

end Finding

end VmFt.GQueue
