import Mathlib.Data.List.Basic
import Mathlib.Data.List.Perm.Basic
import Mathlib.Data.List.Sort

/-! # Putting a list into a given order

The members of a list have names of their own. Each member is found by its name
and given the place of the name in another list; sorting by the places then puts
the members into the order of that list.
-/

namespace VmFt.Ranking

open List

variable {α β : Type*} [DecidableEq β] {key : α → β} {l : List α} {names : List β} {name : β}

theorem modify_findIdx? (f : α → α) (hn : (l.map key).Nodup) (hna : name ∈ l.map key) :
    ∃ i, l.findIdx? (fun x => decide (key x = name)) = some i ∧
      l.modify i f = l.map fun x => if key x = name then f x else x := by
  induction l with
  | nil => simp at hna
  | cons x l ih =>
    obtain ⟨hx, hn⟩ := nodup_cons.mp hn
    rw [findIdx?_cons]
    by_cases hkey : key x = name
    · refine ⟨0, by simp [hkey], ?_⟩
      -- no other member has the name
      have hrest : ∀ y ∈ l, key y ≠ name := by
        rintro y hy rfl
        exact hx (hkey ▸ mem_map_of_mem hy)
      rw [modify_zero_cons, map_cons, if_pos hkey,
        map_congr_left fun y hy => if_neg (hrest y hy), map_id']
    · have hn' : name ∈ l.map key := by
        rcases mem_cons.mp hna with h | h
        · exact absurd h.symm hkey
        · exact h
      obtain ⟨i, hi, hm⟩ := ih hn hn'
      exact ⟨i + 1, by simp [hkey, hi], by simp [hkey, hm]⟩

theorem pairwise_idxOf_le (hn : names.Nodup) :
    names.Pairwise fun x y => names.idxOf x ≤ names.idxOf y := by
  rw [pairwise_iff_getElem]
  intro i j hi hj hij
  rw [hn.idxOf_getElem, hn.idxOf_getElem]
  exact hij.le

theorem map_mergeSort {rank : α → ℕ} (hn : names.Nodup) (hp : (l.map key).Perm names)
    (hr : ∀ x ∈ l, rank x = names.idxOf (key x)) :
    (l.mergeSort fun x y => decide (rank x ≤ rank y)).map key = names := by
  have hsa := mergeSort_perm l fun x y => decide (rank x ≤ rank y)
  have hs : (l.mergeSort fun x y => decide (rank x ≤ rank y)).Pairwise fun x y =>
      decide (rank x ≤ rank y) :=
    pairwise_mergeSort (by simpa using fun x y z => le_trans)
      (by simpa using fun x y => le_total _ _) l
  have ho : ((l.mergeSort fun x y => decide (rank x ≤ rank y)).map key).Pairwise
      fun x y => names.idxOf x ≤ names.idxOf y := by
    rw [pairwise_map]
    refine hs.imp_of_mem fun hx hy h => ?_
    rw [← hr _ (hsa.mem_iff.mp hx), ← hr _ (hsa.mem_iff.mp hy)]
    exact of_decide_eq_true h
  refine List.Perm.eq_of_pairwise ?_ ho (pairwise_idxOf_le hn)
    ((hsa.map key).trans hp)
  intro x y _ hy hxy hyx
  exact ((idxOf_inj hy).mp (le_antisymm hyx hxy)).symm

theorem eq_of_perm_of_map_eq {l' : List α} (hn : (l.map key).Nodup) (hp : l.Perm l')
    (hmap : l.map key = l'.map key) : l = l' := by
  have ho (k : List α) (hk : k.map key = l.map key) : k.Pairwise fun x y =>
      (l.map key).idxOf (key x) ≤ (l.map key).idxOf (key y) := by
    rw [← pairwise_map (f := key) (R := fun x y =>
      (l.map key).idxOf x ≤ (l.map key).idxOf y), hk]
    exact pairwise_idxOf_le hn
  refine List.Perm.eq_of_pairwise ?_ (ho l rfl) (ho l' hmap.symm) hp
  intro x y hx hy hxy hyx
  have hkey : key x = key y :=
    (idxOf_inj (mem_map_of_mem hx)).mp (le_antisymm hxy hyx)
  exact inj_on_of_nodup_map hn hx (hp.mem_iff.mpr hy) hkey

end VmFt.Ranking
