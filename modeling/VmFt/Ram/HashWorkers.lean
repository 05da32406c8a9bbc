import VmFt.Ram.HashList

/-! # The workers and the exchange of their hashes

The bitmaps of a checkpoint are arrays of 64-bit words. Each worker goes through
the words with a mask that it shifts from page to page. The two bitmaps and the
hashes of the backup pass through one buffer of fixed size, and the primary cuts
the hashes it receives by the lengths of its own lists.
-/

namespace VmFt.Ram

open List

def bits (words : ℕ → BitVec 64) : Bitmap := fun p => (words (p / 64)).getLsbD (p % 64)

/-- `bitmap_or` -/
def orWords (a b : ℕ → BitVec 64) : ℕ → BitVec 64 := fun i => a i ||| b i

/-- `BITS_TO_LONGS` -/
def bitsToLongs (n : ℕ) : ℕ := (n + 63) / 64

/-- The inner loop of `compute_thread_func` over a word whose first page is `base`. -/
def scanWord (word : BitVec 64) (base pages : ℕ) : ℕ → ℕ → BitVec 64 → List ℕ
  | 0, _, _ => []
  | rounds + 1, offset, mask =>
    if offset < 64 ∧ base + offset < pages then
      (if mask &&& word ≠ 0 then [base + offset] else []) ++
        scanWord word base pages rounds (offset + nthread) (mask <<< nthread)
    else []

/-- `compute_thread_func`: the page numbers that worker `t` stores. -/
def computeThread (words : ℕ → BitVec 64) (pages t : ℕ) : List ℕ :=
  (range (bitsToLongs pages)).flatMap fun i =>
    scanWord (words i) (i * 64) pages (64 / nthread) t (1#64 <<< t)

/-- The number of hashes that `hash_init` allocates for a worker. -/
def maxLen (pages : ℕ) : ℕ := pages / nthread + 1

section

variable {η : Type}

def computeHashList (hash : ℕ → η) (words : ℕ → BitVec 64) (pages : ℕ) : HashList η :=
  ⟨fun t => (computeThread words pages t).map hash, computeThread words pages⟩

/-- `MC_RDMA_CONTROL_RESERVED_RECV_BUFFER` -/
def reservedBuffer : ℕ := 512 * 1024 * 516 / 2

/-- `sizeof(MC_RDMAControlHeader)` -/
def sizeofHeader : ℕ := 16

/-- `mc_rdma_put_colo_ctrl_buffer` of `size` bytes that were copied to the buffer. A copy that does
not fit writes past the buffer. -/
def putColoCtrlBuffer (size : ℕ) : Option Unit :=
  if size + sizeofHeader ≤ reservedBuffer then some () else none

/-- The lists of the two hosts and the divergent bitmap. -/
structure Comparison (η : Type) where
  primary : HashList η
  backup : HashList η
  divergent : Bitmap

/-- `backup_prepare_bitmap` and the first part of `ram_save_complete`. The backup sends its bitmap,
the primary sends its own, both compute hashes and the backup sends those. -/
def exchangeHashes [DecidableEq η] (hash hash' : ℕ → η) (pages : ℕ)
    (primary backup : ℕ → BitVec 64) : Option (Comparison η) := do
  putColoCtrlBuffer (8 * bitsToLongs pages)
  putColoCtrlBuffer (8 * bitsToLongs pages)
  let remote := computeHashList hash' (orWords primary backup) pages
  putColoCtrlBuffer (8 * remote.pack.length)
  let hlist := computeHashList hash (orWords primary backup) pages
  return ⟨hlist, remote, hlist.compare (hlist.unpack remote.pack)⟩

/-- The lists hold every page of the OR bitmap once, at the worker and in the order that its number
gives, they fit, and the divergent bitmap holds the pages whose hashes differ. -/
structure Exact (hash hash' : ℕ → η) (pages : ℕ) (bitmap : Bitmap) (c : Comparison η) : Prop where
  same : c.backup.pageIndices = c.primary.pageIndices
  hashes : ∀ t, c.primary.hashes t = (c.primary.pageIndices t).map hash
  hashes' : ∀ t, c.backup.hashes t = (c.backup.pageIndices t).map hash'
  once : ∀ p, ((range nthread).flatMap c.primary.pageIndices).count p =
    if p < pages ∧ bitmap p = true then 1 else 0
  residue : ∀ t < nthread, ∀ p ∈ c.primary.pageIndices t, p % nthread = t
  ascending : ∀ t < nthread, (c.primary.pageIndices t).Pairwise (· < ·)
  fits : ∀ t < nthread, c.primary.len t ≤ maxLen pages ∧ c.backup.len t ≤ maxLen pages
  divergent : ∀ p, c.divergent p = true ↔ p < pages ∧ bitmap p = true ∧ hash p ≠ hash' p

end

/-! ### The mask -/

variable {words : ℕ → BitVec 64} {bitmap : Bitmap} {pages t p : ℕ}

theorem mask_and_ne_zero {word : BitVec 64} {offset : ℕ} (h : offset < 64) :
    1#64 <<< offset &&& word ≠ 0 ↔ word.getLsbD offset = true := by
  rw [← BitVec.twoPow_eq, BitVec.twoPow_and]
  have hne : BitVec.twoPow 64 offset ≠ 0 := by
    intro hz
    have hbit := congrArg (BitVec.getLsbD · offset) hz
    simp [h] at hbit
  split_ifs with hbit
  · exact iff_of_true hne hbit
  · simp [hbit]

theorem scanWord_eq (i rounds : ℕ) {offset : ℕ} (h : offset + nthread * rounds < 64 + nthread) :
    scanWord (words i) (i * 64) pages rounds offset (1#64 <<< offset) =
      (((range' offset rounds nthread).map (i * 64 + ·)).takeWhile (· < pages)).filter
        (bits words ·) := by
  induction rounds generalizing offset with
  | zero => rfl
  | succ rounds ih =>
    have ho : offset < 64 := by
      rw [Nat.mul_succ] at h
      omega
    have hbit : bits words (i * 64 + offset) = (words i).getLsbD offset := by
      unfold bits
      congr 2
      · omega
      · omega
    rw [scanWord, range'_succ, map_cons]
    by_cases hp : i * 64 + offset < pages
    · rw [if_pos ⟨ho, hp⟩, takeWhile_cons_of_pos (by simpa using hp),
        filter_cons, hbit, ← BitVec.shiftLeft_add, ih (by rw [Nat.mul_succ] at h; omega)]
      by_cases hset : (words i).getLsbD offset = true
      · rw [if_pos ((mask_and_ne_zero ho).mpr hset), if_pos hset]
        rfl
      · rw [if_neg (mt (mask_and_ne_zero ho).mp hset), if_neg hset]
        rfl
    · rw [if_neg fun hc => hp hc.2, takeWhile_cons_of_neg (by simpa using hp)]
      rfl

theorem computeThread_eq (ht : t < nthread) :
    computeThread words pages t = threadPages (bits words) pages t := by
  unfold computeThread threadPages bitsToLongs
  refine congrArg (flatMap · _) (funext fun i => scanWord_eq i _ ?_)
  unfold nthread at ht ⊢
  omega

/-! ### The lists -/

def setPages (bitmap : Bitmap) (pages : ℕ) : List ℕ := (range pages).filter (bitmap ·)

theorem length_flatMap_threadPages :
    ((range nthread).flatMap (threadPages bitmap pages)).length =
      (setPages bitmap pages).length := by
  refine List.Perm.length_eq ((perm_ext_iff_of_nodup nodup_flatMap_threadPages
    (nodup_range.filter _)).mpr fun p => ?_)
  rw [mem_flatMap_threadPages, mem_filter, mem_range]

theorem length_threadPages_le (ht : t < nthread) :
    (threadPages bitmap pages t).length ≤ maxLen pages := by
  have hn : ((threadPages bitmap pages t).map (· / nthread)).Nodup := by
    refine pairwise_map.mpr ((pairwise_threadPages ht).imp_of_mem fun {a b} ha hb hab => ?_)
    have hmod := ((mem_threadPages ht).mp ha).2.1
    have hmod' := ((mem_threadPages ht).mp hb).2.1
    unfold nthread at hmod hmod' ⊢
    omega
  have hsub : (threadPages bitmap pages t).map (· / nthread) ⊆ range (maxLen pages) := by
    intro q hq
    obtain ⟨p, hp, rfl⟩ := mem_map.mp hq
    have hlt := ((mem_threadPages ht).mp hp).1
    rw [mem_range]
    unfold maxLen nthread
    omega
  simpa using (hn.subperm hsub).length_le

/-! ### The exchange -/

variable {η : Type} {hash hash' : ℕ → η}

theorem length_pack_computeHashList :
    (computeHashList hash words pages).pack.length = (setPages (bits words) pages).length := by
  rw [← length_flatMap_threadPages, HashList.pack, length_flatMap, length_flatMap]
  congr 1
  refine map_congr_left fun t ht => ?_
  rw [← computeThread_eq (mem_range.mp ht)]
  exact length_map _

variable [DecidableEq η] {primary backup : ℕ → BitVec 64} {c : Comparison η}

def compareHashLists (hash hash' : ℕ → η) (words : ℕ → BitVec 64) (pages : ℕ) : Comparison η :=
  let hlist := computeHashList hash words pages
  let remote := computeHashList hash' words pages
  ⟨hlist, remote, hlist.compare (hlist.unpack remote.pack)⟩

def FitsBuffer (pages : ℕ) (bitmap : Bitmap) : Prop :=
  8 * bitsToLongs pages + sizeofHeader ≤ reservedBuffer ∧
    8 * (setPages bitmap pages).length + sizeofHeader ≤ reservedBuffer

theorem exchangeHashes_eq_some : exchangeHashes hash hash' pages primary backup = some c ↔
      FitsBuffer pages (bits (orWords primary backup)) ∧
        compareHashLists hash hash' (orWords primary backup) pages = c := by
  unfold exchangeHashes putColoCtrlBuffer FitsBuffer
  dsimp only
  rw [length_pack_computeHashList]
  by_cases hb : 8 * bitsToLongs pages + sizeofHeader ≤ reservedBuffer
  · by_cases hs : 8 * (setPages (bits (orWords primary backup)) pages).length +
        sizeofHeader ≤ reservedBuffer
    · simp [hb, hs, compareHashLists]
    · simp [hb, hs]
  · simp [hb]

theorem exact_compareHashLists :
    Exact hash hash' pages (bits words) (compareHashLists hash hash' words pages) := by
  refine ⟨rfl, fun _ => rfl, fun _ => rfl, fun p => ?_, fun t ht p hp => ?_, fun t ht => ?_,
    fun t ht => ?_, fun p => ?_⟩
  · change ((range nthread).flatMap (computeThread words pages)).count p = _
    rw [flatMap_congr fun t ht => computeThread_eq (mem_range.mp ht)]
    split_ifs with hp
    · exact count_eq_one_of_mem nodup_flatMap_threadPages (mem_flatMap_threadPages.mpr hp)
    · exact count_eq_zero_of_not_mem (mt mem_flatMap_threadPages.mp hp)
  · change p ∈ computeThread words pages t at hp
    rw [computeThread_eq ht] at hp
    exact ((mem_threadPages ht).mp hp).2.1
  · change (computeThread words pages t).Pairwise (· < ·)
    rw [computeThread_eq ht]
    exact pairwise_threadPages ht
  · change ((computeThread words pages t).map hash).length ≤ _ ∧
      ((computeThread words pages t).map hash').length ≤ _
    rw [computeThread_eq ht, length_map, length_map]
    exact ⟨length_threadPages_le ht, length_threadPages_le ht⟩
  · refine HashList.compare_unpack_pack (fun t ht => computeThread_eq ht) ?_ ?_
    · exact fun t ht => congrArg (map hash) (computeThread_eq ht)
    · exact fun t ht => congrArg (map hash') (computeThread_eq ht)

/-- The exchange finds exactly the pages that differ if and only if the bitmaps and the hashes fit
into the buffer. -/
theorem exchangeHashes_exact_iff (hash hash' : ℕ → η) (pages : ℕ) (primary backup : ℕ → BitVec 64) :
    (∃ c, exchangeHashes hash hash' pages primary backup = some c ∧
        Exact hash hash' pages (bits (orWords primary backup)) c) ↔
      FitsBuffer pages (bits (orWords primary backup)) := by
  constructor
  · rintro ⟨c, hc, -⟩
    exact (exchangeHashes_eq_some.mp hc).1
  · intro hfits
    exact ⟨_, exchangeHashes_eq_some.mpr ⟨hfits, rfl⟩, exact_compareHashLists⟩

/-- With 16908287 pages, all of them dirty, the hashes do not fit. -/
theorem exchangeHashes_overflows :
    ¬ ∃ c, exchangeHashes id id 16908287 (fun _ => BitVec.allOnes 64) (fun _ => 0) = some c ∧
      Exact id id 16908287 (bits (orWords (fun _ => BitVec.allOnes 64) fun _ => 0)) c := by
  rintro ⟨c, hc, -⟩
  have hsize := (exchangeHashes_eq_some.mp hc).1.2
  have hall : bits (orWords (fun _ => BitVec.allOnes 64) fun _ => 0) = fun _ => true := by
    funext p
    have hlt : p % 64 < 64 := Nat.mod_lt _ (by decide)
    rw [bits, orWords, BitVec.getLsbD_or, BitVec.getLsbD_allOnes, decide_eq_true hlt, Bool.true_or]
  rw [hall, setPages, filter_true, length_range] at hsize
  revert hsize
  decide

end VmFt.Ram
