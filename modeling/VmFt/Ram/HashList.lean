import Mathlib.Algebra.Ring.Nat
import Mathlib.Data.List.Flatten
import Mathlib.Data.List.TakeWhile
import Mathlib.Tactic.SplitIfs
import VmFt.Lib.Bitmap

/-! # Hash lists of dirty pages

Sixteen worker threads hash the pages of a bitmap, thread `t` those whose number
is `t` modulo sixteen. The backup sends its hashes in the order of the threads,
and the primary compares them with its own position by position. The pages whose
hashes differ make up the divergent bitmap.
-/

namespace VmFt.Ram

open List

def nthread : ℕ := 16

/-- The pages of one worker: it goes through the words of the bitmap and in each word through
every sixteenth bit. -/
def threadPages (bitmap : Bitmap) (pages t : ℕ) : List ℕ :=
  (range ((pages + 63) / 64)).flatMap fun i =>
    (((range' t (64 / nthread) nthread).map (i * 64 + ·)).takeWhile (· < pages)).filter
      (bitmap ·)

structure HashList (η : Type*) where
  hashes : ℕ → List η
  pageIndices : ℕ → List ℕ

namespace HashList

variable {η : Type*}

def len (l : HashList η) (t : ℕ) : ℕ := (l.hashes t).length

def compute (hash : ℕ → η) (bitmap : Bitmap) (pages : ℕ) : HashList η :=
  ⟨fun t => (threadPages bitmap pages t).map hash, threadPages bitmap pages⟩

/-- The hashes of all workers one after the other. -/
def pack (l : HashList η) : List η := (range nthread).flatMap l.hashes

/-- Where the hashes of worker `t` start. -/
def start (l : HashList η) (t : ℕ) : ℕ := ((range t).map l.len).sum

/-- The received hashes, cut by the lengths of the own list. -/
def unpack (l : HashList η) (msg : List η) (t : ℕ) : List η := (msg.drop (l.start t)).take (l.len t)

variable [DecidableEq η]

/-- One worker marks the pages whose hashes differ. -/
def compareThread (l : HashList η) (remote : ℕ → List η) (divergent : Bitmap) (t : ℕ) : Bitmap :=
  (range (l.len t)).foldl (fun bitmap i =>
    if (remote t)[i]? ≠ (l.hashes t)[i]? then setBit bitmap ((l.pageIndices t).getD i 0)
    else bitmap) divergent

def compare (l : HashList η) (remote : ℕ → List η) : Bitmap :=
  (range nthread).foldl (l.compareThread remote) bitmapZero

end HashList

/-! ### The pages of a worker -/

variable {bitmap : Bitmap} {pages t p n : ℕ}

theorem mem_takeWhile_lt {l : List ℕ} (h : l.Pairwise (· < ·)) :
    p ∈ l.takeWhile (· < n) ↔ p ∈ l ∧ p < n := by
  induction l with
  | nil => simp
  | cons a l ih =>
    rw [pairwise_cons] at h
    by_cases ha : a < n
    · rw [takeWhile_cons_of_pos (by simpa using ha), mem_cons, mem_cons, ih h.2]
      constructor
      · rintro (rfl | ⟨hp, hn⟩)
        · exact ⟨.inl rfl, ha⟩
        · exact ⟨.inr hp, hn⟩
      · rintro ⟨rfl | hp, hn⟩
        · exact .inl rfl
        · exact .inr ⟨hp, hn⟩
    · rw [takeWhile_cons_of_neg (by simpa using ha)]
      constructor
      · exact fun hp => absurd hp not_mem_nil
      · rintro ⟨hp, hn⟩
        rcases mem_cons.mp hp with rfl | hp
        · exact absurd hn ha
        · have := h.1 p hp
          omega

theorem mem_threadPages (ht : t < nthread) :
    p ∈ threadPages bitmap pages t ↔ p < pages ∧ p % nthread = t ∧ bitmap p := by
  have hs : ∀ i, ((range' t (64 / nthread) nthread).map (i * 64 + ·)).Pairwise
      (· < ·) := by
    intro i
    rw [pairwise_map]
    exact (pairwise_lt_range' nthread (by decide)).imp (by omega)
  unfold threadPages
  simp only [mem_flatMap, mem_range, mem_filter, mem_takeWhile_lt (hs _),
    mem_map, mem_range']
  unfold nthread at ht ⊢
  constructor
  · rintro ⟨i, hi, ⟨⟨_, ⟨k, hk, rfl⟩, rfl⟩, hp⟩, hbit⟩
    exact ⟨hp, by omega, hbit⟩
  · rintro ⟨hp, hmod, hbit⟩
    refine ⟨p / 64, by omega, ⟨⟨p % 64, ⟨p % 64 / 16, by omega, by omega⟩, by omega⟩, hp⟩, hbit⟩

theorem threadPages_congr {bitmap' : Bitmap} (h : ∀ p < pages, bitmap p = bitmap' p) :
    threadPages bitmap pages = threadPages bitmap' pages := by
  funext t
  unfold threadPages
  refine congrArg (flatMap · _) (funext fun i => filter_congr fun p hp => ?_)
  exact h p (by simpa using mem_takeWhile_imp hp)

theorem pairwise_threadPages (ht : t < nthread) :
    (threadPages bitmap pages t).Pairwise (· < ·) := by
  unfold threadPages
  rw [pairwise_flatMap]
  constructor
  · intro i _
    refine .filter _ (.sublist (takeWhile_sublist _) ?_)
    rw [pairwise_map]
    exact (pairwise_lt_range' nthread (by decide)).imp (by omega)
  · refine pairwise_lt_range.imp fun {i j} hij x hx y hy => ?_
    have hw : ∀ {i x}, x ∈ (((range' t (64 / nthread) nthread).map (i * 64 + ·)).takeWhile
        (· < pages)).filter (bitmap ·) → i * 64 ≤ x ∧ x < i * 64 + 64 := by
      intro i x hx
      obtain ⟨y, hy, rfl⟩ := mem_map.mp
        ((takeWhile_sublist _).subset (mem_filter.mp hx).1)
      obtain ⟨k, hk, rfl⟩ := mem_range'.mp hy
      unfold nthread at ht hk ⊢
      omega
    have := hw hx
    have := hw hy
    omega

theorem nodup_flatMap_threadPages :
    ((range nthread).flatMap (threadPages bitmap pages)).Nodup := by
  refine nodup_flatMap.mpr ⟨fun t ht => ?_, ?_⟩
  · exact (pairwise_threadPages (mem_range.mp ht)).imp Nat.ne_of_lt
  · refine nodup_range.imp_of_mem fun {t u} ht hu hne p hp hp' => hne ?_
    have htp := (mem_threadPages (mem_range.mp ht)).mp hp
    have hup := (mem_threadPages (mem_range.mp hu)).mp hp'
    exact htp.2.1.symm.trans hup.2.1

theorem mem_flatMap_threadPages :
    p ∈ (range nthread).flatMap (threadPages bitmap pages) ↔ p < pages ∧ bitmap p = true := by
  rw [mem_flatMap]
  constructor
  · rintro ⟨t, ht, hp⟩
    obtain ⟨hlt, -, hbit⟩ := (mem_threadPages (mem_range.mp ht)).mp hp
    exact ⟨hlt, hbit⟩
  · rintro ⟨hlt, hbit⟩
    have ht : p % nthread < nthread := Nat.mod_lt _ (by decide)
    exact ⟨_, mem_range.mpr ht, (mem_threadPages ht).mpr ⟨hlt, rfl, hbit⟩⟩

theorem length_flatMap_threadPages_le :
    ((range nthread).flatMap (threadPages bitmap pages)).length ≤ pages := by
  have hsub : (range nthread).flatMap (threadPages bitmap pages) ⊆ range pages :=
    fun p hp => mem_range.mpr (mem_flatMap_threadPages.mp hp).1
  simpa using (nodup_flatMap_threadPages.subperm hsub).length_le

/-! ### Packing -/

namespace HashList

variable {η : Type*}

theorem unpack_pack {l r : HashList η} (hlen : ∀ t < nthread, l.len t = r.len t)
    (ht : t < nthread) : l.unpack r.pack t = r.hashes t := by
  obtain ⟨k, hk⟩ : ∃ k, nthread = t + (k + 1) := ⟨nthread - t - 1, by omega⟩
  have hs : range nthread = range t ++ t :: range' (t + 1) k := by
    rw [← range'_succ, range_eq_range', range_eq_range', hk, ← range'_append_1,
      Nat.zero_add]
  have hst : l.start t = ((range t).flatMap r.hashes).length := by
    rw [length_flatMap, start]
    exact congrArg sum (map_congr_left fun u hu =>
      hlen u (by have := mem_range.mp hu; omega))
  rw [unpack, pack, hs, flatMap_append, flatMap_cons, hst, drop_left,
    hlen t ht, len, take_left]

/-! ### Comparing -/

variable [DecidableEq η] {l : HashList η} {remote : ℕ → List η} {divergent : Bitmap}

/-- Worker `t` finds page `p` at a position where the hashes differ. -/
def Marks (l : HashList η) (remote : ℕ → List η) (p t : ℕ) : Prop :=
  ∃ i < l.len t, (remote t)[i]? ≠ (l.hashes t)[i]? ∧ (l.pageIndices t).getD i 0 = p

theorem compareThread_apply :
    l.compareThread remote divergent t p ↔ divergent p ∨ l.Marks remote p t := by
  unfold compareThread
  rw [foldl_mark (Q := fun i => (remote t)[i]? ≠ (l.hashes t)[i]? ∧ (l.pageIndices t).getD i 0 = p)]
  · simp [Marks]
  · intro b i
    split_ifs with h
    · simp [setBit_apply, h]
    · simp [h]

theorem compare_apply : l.compare remote p ↔ ∃ t < nthread, l.Marks remote p t := by
  unfold compare
  rw [foldl_mark (Q := l.Marks remote p) fun b t => compareThread_apply]
  simp [bitmapZero]

theorem compare_unpack_pack {hash hash' : ℕ → η} {r : HashList η}
    (hpa : ∀ t < nthread, l.pageIndices t = threadPages bitmap pages t)
    (hl : ∀ t < nthread, l.hashes t = (threadPages bitmap pages t).map hash)
    (hr : ∀ t < nthread, r.hashes t = (threadPages bitmap pages t).map hash') :
    l.compare (l.unpack r.pack) p ↔ p < pages ∧ bitmap p ∧ hash p ≠ hash' p := by
  have hlen : ∀ t < nthread, l.len t = r.len t := fun t ht => by
    simp [len, hl t ht, hr t ht]
  rw [compare_apply]
  constructor
  · rintro ⟨t, ht, i, hi, hne, rfl⟩
    rw [unpack_pack hlen ht, hl t ht, hr t ht] at hne
    rw [len, hl t ht, length_map] at hi
    have hmem := (mem_threadPages ht).mp (getElem_mem hi)
    rw [hpa t ht, getD_eq_getElem?_getD, List.getElem?_eq_getElem hi, Option.getD_some]
    refine ⟨hmem.1, hmem.2.2, ?_⟩
    intro heq
    simp [hi, heq] at hne
  · rintro ⟨hp, hbit, hne⟩
    have ht : p % nthread < nthread := Nat.mod_lt _ (by decide)
    obtain ⟨i, hi, hpi⟩ := getElem_of_mem ((mem_threadPages ht).mpr ⟨hp, rfl, hbit⟩)
    refine ⟨_, ht, i, by simpa [len, hl _ ht] using hi, ?_, ?_⟩
    · rw [unpack_pack hlen ht, hl _ ht, hr _ ht]
      simpa [hi, hpi] using Ne.symm hne
    · simp [hpa _ ht, hi, hpi]

theorem compare_compute {hash hash' : ℕ → η} : (compute hash bitmap pages).compare
        ((compute hash bitmap pages).unpack (compute hash' bitmap pages).pack) p ↔
      p < pages ∧ bitmap p ∧ hash p ≠ hash' p :=
  compare_unpack_pack (fun _ _ => rfl) (fun _ _ => rfl) fun _ _ => rfl

end HashList

end VmFt.Ram
