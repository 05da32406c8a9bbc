import Mathlib.Data.Finset.Card
import Mathlib.Data.Finset.Range
import Mathlib.Data.List.GetD
import Mathlib.Data.List.Sort

/-! # Majorities

A property holds on a majority of `n` members if more than half of them have
it. Any two majorities share a member. The lower median of a list lies in every
interval that holds more than half of its elements.
-/

namespace VmFt

open List

/-- More than half of the members `0, …, n - 1` have property `P`. -/
def Majority (n : ℕ) (P : ℕ → Prop) : Prop :=
  ∃ q ⊆ Finset.range n, n < 2 * q.card ∧ ∀ p ∈ q, P p

namespace Majority

variable {n : ℕ} {P P' : ℕ → Prop}

theorem mono (h : Majority n P) (himp : ∀ p < n, P p → P' p) : Majority n P' := by
  obtain ⟨q, hq, hc, hP⟩ := h
  exact ⟨q, hq, hc, fun p hp => himp p (Finset.mem_range.mp (hq hp)) (hP p hp)⟩

theorem inter (h : Majority n P) (h' : Majority n P') : ∃ p < n, P p ∧ P' p := by
  obtain ⟨q, hq, hc, hP⟩ := h
  obtain ⟨q', hq', hc', hP'⟩ := h'
  obtain ⟨p, hp⟩ := Finset.inter_nonempty_of_card_lt_card_add_card hq hq'
    (by rw [Finset.card_range]; omega)
  obtain ⟨hpq, hpq'⟩ := Finset.mem_inter.mp hp
  exact ⟨p, Finset.mem_range.mp (hq hpq), hP p hpq, hP' p hpq'⟩

theorem of_cons {i : ℕ} (ks : List ℕ) (hi : i < n) (hks : ∀ k ∈ ks, k < n) (hmem : i ∉ ks)
    (hnd : ks.Nodup) (hlen : n / 2 ≤ ks.length) (hPi : P i) (hP : ∀ k ∈ ks, P k) :
    Majority n P := by
  have hnd' : (i :: ks).Nodup := nodup_cons.mpr ⟨hmem, hnd⟩
  refine ⟨(i :: ks).toFinset, fun p hp => ?_, ?_, fun p hp => ?_⟩
  · rcases mem_cons.mp (mem_toFinset.mp hp) with rfl | hp
    · exact Finset.mem_range.mpr hi
    · exact Finset.mem_range.mpr (hks p hp)
  · rw [toFinset_card_of_nodup hnd', length_cons]
    omega
  · rcases mem_cons.mp (mem_toFinset.mp hp) with rfl | hp
    · exact hPi
    · exact hP p hp

theorem iff_countP [DecidablePred P] : Majority n P ↔ n / 2 < (range n).countP (P ·) := by
  have hc : (range n).countP (P ·) = ((Finset.range n).filter P).card := by
    rw [countP_eq_length_filter, ← toFinset_card_of_nodup (nodup_range.filter _)]
    congr 1
    ext p
    simp
  rw [hc]
  constructor
  · rintro ⟨q, hq, hmaj, hP⟩
    have hle : q.card ≤ ((Finset.range n).filter P).card :=
      Finset.card_le_card fun p hp => Finset.mem_filter.mpr ⟨hq hp, hP p hp⟩
    omega
  · intro h
    refine ⟨(Finset.range n).filter P, Finset.filter_subset _ _, by omega, fun p hp => ?_⟩
    exact (Finset.mem_filter.mp hp).2

end Majority

section Median

variable {α : Type*} [LinearOrder α] {a b d : α} {l : List α} {n : ℕ}

theorem getElem_le_getElem_of_sorted (hs : l.Pairwise (· ≤ ·)) {m : ℕ} (hmn : m ≤ n)
    (hn : n < l.length) : l[m] ≤ l[n] := by
  rcases Nat.lt_or_eq_of_le hmn with hlt | rfl
  · exact pairwise_iff_getElem.mp hs m n _ hn hlt
  · exact le_rfl

theorem lt_getD_of_countP (hs : l.Pairwise (· ≤ ·)) (hn : n < l.length)
    (h : l.length - n ≤ l.countP (a < ·)) : a < l.getD n d := by
  rw [getD_eq_getElem _ _ hn]
  by_contra hle
  have hfirst : (l.take (n + 1)).countP (a < ·) = 0 := by
    rw [countP_eq_zero]
    intro x hx
    obtain ⟨m, hm, rfl⟩ := mem_take_iff_getElem.mp hx
    have hmn := getElem_le_getElem_of_sorted hs (m := m) (by omega) hn
    simpa using hmn.trans (not_lt.mp hle)
  have hsp : (l.take (n + 1) ++ l.drop (n + 1)).countP (a < ·) = _ := countP_append
  have hrest := countP_le_length (p := (a < ·)) (l := l.drop (n + 1))
  rw [take_append_drop, hfirst] at hsp
  rw [length_drop] at hrest
  omega

theorem getD_le_of_countP (hs : l.Pairwise (· ≤ ·)) (hn : n < l.length)
    (h : n + 1 ≤ l.countP (· ≤ b)) : l.getD n d ≤ b := by
  rw [getD_eq_getElem _ _ hn]
  by_contra hlt
  have hl : (l.drop n).countP (· ≤ b) = 0 := by
    rw [countP_eq_zero]
    intro x hx
    obtain ⟨m, hm, rfl⟩ := mem_drop_iff_getElem.mp hx
    have hmn := getElem_le_getElem_of_sorted hs (m := n) (n := n + m) (by omega) (by omega)
    simpa using (not_le.mp hlt).trans_le hmn
  have hsp : (l.take n ++ l.drop n).countP (· ≤ b) = _ := countP_append
  have hrest := countP_le_length (p := (· ≤ b)) (l := l.take n)
  rw [take_append_drop, hl] at hsp
  rw [length_take] at hrest
  omega

theorem countP_getD_of_sorted (hso : l.Pairwise (· ≤ ·)) (hn : n < l.length) :
    l.countP (· < l.getD n d) ≤ n ∧ n < l.countP (· ≤ l.getD n d) := by
  rw [getD_eq_getElem _ _ hn]
  constructor
  · have hl : (l.drop n).countP (· < l[n]) = 0 := by
      rw [countP_eq_zero]
      intro x hx
      obtain ⟨m, hm, rfl⟩ := mem_drop_iff_getElem.mp hx
      have hmn := getElem_le_getElem_of_sorted hso (m := n) (n := n + m) (by omega) (by omega)
      simpa using hmn
    have hs : (l.take n ++ l.drop n).countP (· < l[n]) = _ := countP_append
    have hfirst := countP_le_length (p := (· < l[n])) (l := l.take n)
    rw [take_append_drop, hl] at hs
    rw [length_take] at hfirst
    omega
  · have hfirst : (l.take (n + 1)).countP (· ≤ l[n]) = (l.take (n + 1)).length := by
      rw [countP_eq_length]
      intro x hx
      obtain ⟨m, hm, rfl⟩ := mem_take_iff_getElem.mp hx
      have hmn := getElem_le_getElem_of_sorted hso (m := m) (by omega) hn
      simpa using hmn
    have hs : (l.take (n + 1) ++ l.drop (n + 1)).countP (· ≤ l[n]) = _ := countP_append
    rw [take_append_drop, hfirst, length_take] at hs
    omega

theorem median_rank (hl : l ≠ []) :
    l.countP (· < (l.insertionSort (· ≤ ·)).getD ((l.length - 1) / 2) d) ≤ (l.length - 1) / 2 ∧
      (l.length - 1) / 2 <
        l.countP (· ≤ (l.insertionSort (· ≤ ·)).getD ((l.length - 1) / 2) d) := by
  have hpos := length_pos_iff.mpr hl
  have hp := perm_insertionSort (· ≤ ·) l
  have hr := countP_getD_of_sorted (d := d) (pairwise_insertionSort (· ≤ ·) l)
    (n := (l.length - 1) / 2) (by rw [hp.length_eq]; omega)
  rwa [hp.countP_eq, hp.countP_eq] at hr

theorem median_mem_of_countP (h : l.length / 2 + 1 ≤ l.countP fun x => a < x ∧ x ≤ b) :
    a < (l.insertionSort (· ≤ ·)).getD ((l.length - 1) / 2) d ∧
      (l.insertionSort (· ≤ ·)).getD ((l.length - 1) / 2) d ≤ b := by
  have hle := h.trans (countP_le_length (l := l))
  have hs := pairwise_insertionSort (· ≤ ·) l
  have hp := perm_insertionSort (· ≤ ·) l
  have hlen := hp.length_eq
  constructor
  · apply lt_getD_of_countP hs (by omega)
    rw [hp.countP_eq]
    have := countP_mono_left (l := l) (p := fun x => a < x ∧ x ≤ b) (q := (a < ·))
      fun x _ hx => decide_eq_true (of_decide_eq_true hx).1
    omega
  · apply getD_le_of_countP hs (by omega)
    rw [hp.countP_eq]
    have := countP_mono_left (l := l) (p := fun x => a < x ∧ x ≤ b) (q := (· ≤ b))
      fun x _ hx => decide_eq_true (of_decide_eq_true hx).2
    omega

end Median

end VmFt
