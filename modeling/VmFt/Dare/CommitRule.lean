import VmFt.Lib.Majority
import VmFt.Dare.Config
import VmFt.Dare.Replication
import VmFt.Dare.Ring

/-! # The commit rule on the circular log

How `update_remote_logs` finds the offset up to which entries are committed. It counts
the servers that are further than the commit offset, sorts the end offsets of all servers
as numbers and takes the middle one, once for each of the one or two sizes of the
configuration. On the ring the later of two offsets is the one closer to the end, which
is not always the larger number.
-/

namespace VmFt.Dare.Ring

open List

structure Leader where
  idx : ℕ
  log : Log
  cid : Cid
  failCount : ℕ → ℕ
  nextLrStep : ℕ → LrStep
  /-- `ctrl_data->log_offsets[i].end` -/
  logEnd : ℕ → ℕ
  cidOffset : ℕ
  committed : Bool

variable (L : Leader)

/-- Whether the recorded end offset of server `k` is taken for valid. -/
def isCounted (k : ℕ) : Bool :=
  Config.isServerOn L.cid k && decide (L.failCount k < permanentFailure) &&
    L.nextLrStep k == .updateLog

/-- The offset of the last valid entry of server `k`. -/
def validOffset (k : ℕ) : ℕ :=
  if k = L.idx then L.log.endOff
  else if isCounted L k then L.logEnd k
  else L.log.commit

/-- `larger_offset_count` for the servers below `size`. -/
def largerOffsetCount (size minOffset : ℕ) : ℕ :=
  (range size).countP fun k =>
    k ≠ L.idx && isCounted L k && logIsOffsetLarger L.log (L.logEnd k) minOffset

/-- The size that turn `j` of the loop is about. -/
def turnSize (j : ℕ) : ℕ := if j = 0 then L.cid.size else L.cid.newSize

/-- One turn of the loop that looks for the minimum offset on a majority: `min_offset`, the array
of offsets, and whether there is another turn. -/
def majorityTurn (j minOffset : ℕ) (offsets : ℕ → ℕ) : ℕ × (ℕ → ℕ) × Bool :=
  let size := turnSize L j
  let valid := (range size).map (validOffset L)
  if largerOffsetCount L size minOffset < size / 2 then
    (minOffset, fun k => valid.getD k (offsets k), L.cid.state == .transit && j == 0)
  else
    let sorted := valid.insertionSort (· ≤ ·)
    let offsets := fun k => sorted.getD k (offsets k)
    let median := offsets ((size - 1) / 2)
    if L.cid.state ≠ .transit then (median, offsets, false)
    else if j = 0 then (median, offsets, true)
    else if logIsOffsetLarger L.log minOffset median then (median, offsets, false)
    else (minOffset, offsets, false)

/-- The offset the loop ends with; `offsets` is the array before it is filled. -/
def minOffset (offsets : ℕ → ℕ) : ℕ :=
  let first := majorityTurn L 0 L.log.commit offsets
  if first.2.2 then (majorityTurn L 1 first.1 first.2.1).1 else first.1

/-- The commit rule of `update_remote_logs`. -/
def updateCommit (offsets : ℕ → ℕ) : Leader :=
  if logIsOffsetLarger L.log (minOffset L offsets) L.log.commit then
    { L with
      log := { L.log with commit := minOffset L offsets }
      cidOffset := minOffset L offsets
      committed := true }
  else L

def endOffset (k : ℕ) : ℕ := if k = L.idx then L.log.endOff else L.logEnd k

/-- The offset `x` is at or after the offset `c` in the order of the log. -/
def AtOrAfter (log : Log) (x c : ℕ) : Prop :=
  logOffsetEndDistance log x ≤ logOffsetEndDistance log c

instance (log : Log) (x c : ℕ) : Decidable (AtOrAfter log x c) :=
  inferInstanceAs (Decidable (_ ≤ _))

def median (n : ℕ) : ℕ :=
  (((range n).map (validOffset L)).insertionSort (· ≤ ·)).getD ((n - 1) / 2) 0

variable {L} {n : ℕ} {offsets : ℕ → ℕ}

/-! ### The turns of the loop -/

theorem half_lt_length_sorted (L : Leader) (hn : 0 < n) :
    (n - 1) / 2 < (((range n).map (validOffset L)).insertionSort (· ≤ ·)).length := by
  rw [length_insertionSort, length_map, length_range]
  omega

theorem sorted_getD_eq_median (hn : 0 < n) (d : ℕ) :
    (((range n).map (validOffset L)).insertionSort (· ≤ ·)).getD ((n - 1) / 2) d =
      median L n := by
  have hlt := half_lt_length_sorted L hn
  rw [median, getD_eq_getElem _ _ hlt, getD_eq_getElem _ _ hlt]

section Turn

variable {j least : ℕ}

theorem majorityTurn_of_few (offsets : ℕ → ℕ)
    (h : largerOffsetCount L (turnSize L j) least < turnSize L j / 2) :
    (majorityTurn L j least offsets).1 = least ∧
      (majorityTurn L j least offsets).2.2 = (L.cid.state == .transit && j == 0) := by
  unfold majorityTurn
  dsimp only
  rw [if_pos h]
  exact ⟨rfl, rfl⟩

theorem majorityTurn_of_stable (offsets : ℕ → ℕ) (hs : L.cid.state ≠ .transit)
    (hpos : 0 < turnSize L j)
    (h : ¬ largerOffsetCount L (turnSize L j) least < turnSize L j / 2) :
    (majorityTurn L j least offsets).1 = median L (turnSize L j) ∧
      (majorityTurn L j least offsets).2.2 = false := by
  unfold majorityTurn
  dsimp only
  rw [if_neg h, if_pos hs]
  exact ⟨sorted_getD_eq_median hpos _, rfl⟩

theorem majorityTurn_first (offsets : ℕ → ℕ) (hs : L.cid.state = .transit)
    (hpos : 0 < L.cid.size)
    (h : ¬ largerOffsetCount L L.cid.size least < L.cid.size / 2) :
    (majorityTurn L 0 least offsets).1 = median L L.cid.size ∧
      (majorityTurn L 0 least offsets).2.2 = true := by
  have ht : turnSize L 0 = L.cid.size := rfl
  unfold majorityTurn
  dsimp only
  rw [ht, if_neg h, if_neg (not_not.mpr hs), if_pos rfl]
  exact ⟨sorted_getD_eq_median hpos _, rfl⟩

theorem majorityTurn_second (offsets : ℕ → ℕ) (hs : L.cid.state = .transit)
    (hpos : 0 < L.cid.newSize)
    (h : ¬ largerOffsetCount L L.cid.newSize least < L.cid.newSize / 2) :
    (majorityTurn L 1 least offsets).1 =
      if logIsOffsetLarger L.log least (median L L.cid.newSize) then median L L.cid.newSize
      else least := by
  have ht : turnSize L 1 = L.cid.newSize := rfl
  unfold majorityTurn
  dsimp only
  rw [ht, if_neg h, if_neg (not_not.mpr hs), if_neg Nat.one_ne_zero]
  simp only [sorted_getD_eq_median hpos]
  split_ifs <;> rfl

end Turn

theorem minOffset_of_not_transit (offsets : ℕ → ℕ) (hs : L.cid.state ≠ .transit)
    (hsi : 0 < L.cid.size) :
    minOffset L offsets =
      if largerOffsetCount L L.cid.size L.log.commit < L.cid.size / 2 then L.log.commit
      else median L L.cid.size := by
  unfold minOffset
  dsimp only
  by_cases hfew : largerOffsetCount L L.cid.size L.log.commit < L.cid.size / 2
  · obtain ⟨hmin, hm⟩ := majorityTurn_of_few (j := 0) offsets hfew
    rw [hm, hmin, if_pos hfew, if_neg (by simp [hs])]
  · obtain ⟨hmin, hm⟩ := majorityTurn_of_stable (j := 0) offsets hs hsi hfew
    rw [hm, hmin, if_neg hfew, if_neg Bool.false_ne_true]
    rfl

theorem minOffset_of_transit (offsets : ℕ → ℕ) (hs : L.cid.state = .transit)
    (hsi : 0 < L.cid.size) (hnew : 0 < L.cid.newSize) :
    minOffset L offsets =
      let first :=
        if largerOffsetCount L L.cid.size L.log.commit < L.cid.size / 2 then L.log.commit
        else median L L.cid.size
      if largerOffsetCount L L.cid.newSize first < L.cid.newSize / 2 then first
      else if logIsOffsetLarger L.log first (median L L.cid.newSize) then median L L.cid.newSize
      else first := by
  have hfirst : (majorityTurn L 0 L.log.commit offsets).1 =
      (if largerOffsetCount L L.cid.size L.log.commit < L.cid.size / 2 then L.log.commit
        else median L L.cid.size) ∧ (majorityTurn L 0 L.log.commit offsets).2.2 = true := by
    by_cases hfew : largerOffsetCount L L.cid.size L.log.commit < L.cid.size / 2
    · obtain ⟨hmin, hm⟩ := majorityTurn_of_few (j := 0) offsets hfew
      rw [if_pos hfew]
      exact ⟨hmin, by rw [hm, hs]; rfl⟩
    · rw [if_neg hfew]
      exact majorityTurn_first offsets hs hsi hfew
  unfold minOffset
  dsimp only
  rw [hfirst.2, if_pos rfl, hfirst.1]
  generalize (if largerOffsetCount L L.cid.size L.log.commit < L.cid.size / 2 then L.log.commit
    else median L L.cid.size) = first
  split_ifs with hfew hl
  · exact (majorityTurn_of_few (j := 1) _ hfew).1
  · rw [majorityTurn_second _ hs hnew hfew, if_pos hl]
  · rw [majorityTurn_second _ hs hnew hfew, if_neg hl]

theorem commit_updateCommit : (updateCommit L offsets).log.commit =
    if logIsOffsetLarger L.log (minOffset L offsets) L.log.commit then minOffset L offsets
    else L.log.commit := by
  unfold updateCommit
  split_ifs <;> rfl

theorem commit_of_later (h : logOffsetEndDistance L.log (minOffset L offsets) <
    logOffsetEndDistance L.log L.log.commit) :
    (updateCommit L offsets).log.commit = minOffset L offsets := by
  rw [commit_updateCommit]
  exact if_pos (decide_eq_true h)

theorem commit_ne_iff : (updateCommit L offsets).log.commit ≠ L.log.commit ↔
    logOffsetEndDistance L.log (minOffset L offsets) < logOffsetEndDistance L.log L.log.commit := by
  rw [commit_updateCommit, logIsOffsetLarger]
  simp only [decide_eq_true_eq]
  split_ifs with h
  · refine ⟨fun _ => h, fun _ heq => ?_⟩
    rw [heq] at h
    exact Nat.lt_irrefl _ h
  · exact ⟨fun hne => absurd rfl hne, fun hlt => absurd hlt h⟩

/-! ### The middle offset -/

theorem countP_map_validOffset (n : ℕ) (p : ℕ → Bool) :
    ((range n).map (validOffset L)).countP p =
      (range n).countP fun k => p (validOffset L k) := by
  rw [countP_map]
  rfl

theorem median_le_majority (hn : 0 < n) :
    n / 2 < (range n).countP fun k => median L n ≤ validOffset L k := by
  have hne : (range n).map (validOffset L) ≠ [] := by
    simpa using hn.ne'
  have hr := (median_rank (d := 0) hne).1
  rw [length_map, length_range, countP_map_validOffset] at hr
  change (range n).countP (fun k => decide (validOffset L k < median L n)) ≤ _ at hr
  have hs := length_eq_countP_add_countP (l := range n)
    fun k => decide (validOffset L k < median L n)
  rw [length_range] at hs
  have hc : (range n).countP (fun k => decide ¬ decide (validOffset L k < median L n)) =
      (range n).countP fun k => decide (median L n ≤ validOffset L k) := by
    refine countP_congr fun k _ => ?_
    simp
  omega

theorem exists_validOffset_eq_median (hn : 0 < n) : ∃ k < n, validOffset L k = median L n := by
  have hlt := half_lt_length_sorted L hn
  have hmem := getElem_mem hlt
  rw [← getD_eq_getElem _ 0 hlt, mem_insertionSort, mem_map] at hmem
  obtain ⟨k, hk, heq⟩ := hmem
  exact ⟨k, mem_range.mp hk, heq⟩

theorem validOffset_eq_endOffset {k : ℕ} (h : validOffset L k ≠ L.log.commit) :
    validOffset L k = endOffset L k := by
  unfold validOffset endOffset at *
  split_ifs at * <;> simp_all

theorem larger_of_validOffset {k c : ℕ} (hk : k ≠ L.idx) (hc : AtOrAfter L.log c L.log.commit)
    (h : logIsOffsetLarger L.log (validOffset L k) c = true) :
    (k ≠ L.idx && isCounted L k && logIsOffsetLarger L.log (L.logEnd k) c) = true := by
  rw [validOffset, if_neg hk] at h
  split_ifs at h with hco
  · simp [hk, hco, h]
  · have := of_decide_eq_true h
    unfold AtOrAfter at hc
    omega

/-! ### One majority -/

section Single

/-- The recorded end offsets lie between the commit offset and the end. -/
structure Windowed (L : Leader) (n : ℕ) : Prop where
  commit_lt : L.log.commit < L.log.len
  end_le : L.log.endOff ≤ L.log.len
  ends_lt : ∀ k < n, k ≠ L.idx → L.logEnd k < L.log.len
  between : ∀ k < n, k ≠ L.idx → AtOrAfter L.log (L.logEnd k) L.log.commit

/-- When most valid offsets lie behind the end of the buffer, some offset there splits the servers:
enough valid offsets lie up to it, and a majority of the servers is between it and the end. -/
def Gathered (L : Leader) : Prop :=
  L.log.endOff < L.log.commit → L.cid.size / 2 ≤ largerOffsetCount L L.cid.size L.log.commit →
    (L.cid.size - 1) / 2 < (range L.cid.size).countP (fun k => validOffset L k ≤ L.log.endOff) →
    ∃ x ≤ L.log.endOff,
      (L.cid.size - 1) / 2 < (range L.cid.size).countP (fun k => validOffset L k ≤ x) ∧
      L.cid.size / 2 <
        (range L.cid.size).countP fun k => x ≤ endOffset L k ∧ endOffset L k ≤ L.log.endOff

theorem countP_median (hn : 0 < n) :
    (range n).countP (fun k => validOffset L k < median L n) ≤ (n - 1) / 2 ∧
      (n - 1) / 2 < (range n).countP fun k => validOffset L k ≤ median L n := by
  have hne : (range n).map (validOffset L) ≠ [] := by
    simpa using hn.ne'
  have hr := median_rank (d := 0) hne
  rwa [length_map, length_range, countP_map_validOffset, countP_map_validOffset] at hr

theorem median_le_iff (hn : 0 < n) {x : ℕ} :
    median L n ≤ x ↔ (n - 1) / 2 < (range n).countP fun k => validOffset L k ≤ x := by
  obtain ⟨hlow, hhigh⟩ := countP_median (L := L) hn
  constructor
  · intro hle
    refine hhigh.trans_le (countP_mono_left fun k _ hk => ?_)
    exact decide_eq_true ((of_decide_eq_true hk).trans hle)
  · intro h
    by_contra hlt
    have hm := countP_mono_left (l := range n) (p := fun k => decide (validOffset L k ≤ x))
      (q := fun k => decide (validOffset L k < median L n))
      fun k _ hk => decide_eq_true ((of_decide_eq_true hk).trans_lt (not_le.mp hlt))
    omega

namespace Windowed

variable {k x : ℕ}

theorem endOffset_between (h : Windowed L n) (hk : k < n) :
    (endOffset L k < L.log.len ∨ endOffset L k = L.log.endOff) ∧
      AtOrAfter L.log (endOffset L k) L.log.commit := by
  unfold endOffset
  split_ifs with hs
  · refine ⟨.inr rfl, ?_⟩
    rw [AtOrAfter, logOffsetEndDistance_end]
    exact Nat.zero_le _
  · exact ⟨.inl (h.ends_lt k hk hs), h.between k hk hs⟩

theorem validOffset_between (h : Windowed L n) (hk : k < n) :
    (validOffset L k < L.log.len ∨ validOffset L k = L.log.endOff) ∧
      AtOrAfter L.log (validOffset L k) L.log.commit := by
  by_cases heq : validOffset L k = L.log.commit
  · rw [heq]
    exact ⟨.inl h.commit_lt, Nat.le_refl _⟩
  · rw [validOffset_eq_endOffset heq]
    exact h.endOffset_between hk

theorem atOrAfter_of_le (h : Windowed L n) (hk : k < n) (hx : x ≤ L.log.len)
    (hl : logOffsetEndDistance L.log x < logOffsetEndDistance L.log L.log.commit)
    (hf : L.log.endOff < L.log.commit → L.log.endOff < x) (hle : x ≤ validOffset L k) :
    AtOrAfter L.log (endOffset L k) x := by
  obtain ⟨hv, hb⟩ := h.validOffset_between hk
  have hc := h.commit_lt
  have hend := h.end_le
  have ha : AtOrAfter L.log (validOffset L k) x := by
    unfold AtOrAfter logOffsetEndDistance at *
    split_ifs at * <;> omega
  have hne : validOffset L k ≠ L.log.commit := by
    intro heq
    rw [AtOrAfter, heq] at ha
    omega
  rwa [← validOffset_eq_endOffset hne]

theorem atOrAfter_iff_of_wrapped (h : Windowed L n) (hk : k < n)
    (hw : L.log.endOff < L.log.commit) (hx : x ≤ L.log.endOff) :
    AtOrAfter L.log (endOffset L k) x ↔ x ≤ endOffset L k ∧ endOffset L k ≤ L.log.endOff := by
  have hc := h.commit_lt
  have hlt := (h.endOffset_between hk).1
  have hempty : isLogEmpty L.log = false := isLogEmpty_eq_false_iff.mpr (by omega)
  unfold AtOrAfter
  simp only [logOffsetEndDistance_of_not_empty hempty]
  split_ifs <;> omega

theorem commit_lt_of_wrapped (h : Windowed L n) (hw : L.log.endOff < L.log.commit)
    (hx : x ≤ L.log.endOff) :
    logOffsetEndDistance L.log x < logOffsetEndDistance L.log L.log.commit := by
  have hc := h.commit_lt
  have hempty : isLogEmpty L.log = false := isLogEmpty_eq_false_iff.mpr (by omega)
  simp only [logOffsetEndDistance_of_not_empty hempty]
  split_ifs <;> omega

theorem countP_of_wrapped (h : Windowed L n) (hw : L.log.endOff < L.log.commit)
    (hx : x ≤ L.log.endOff) :
    (range n).countP (fun k => decide (AtOrAfter L.log (endOffset L k) x)) =
      (range n).countP fun k => decide (x ≤ endOffset L k ∧ endOffset L k ≤ L.log.endOff) := by
  refine countP_congr fun k hk => ?_
  rw [decide_eq_true_eq, decide_eq_true_eq]
  exact h.atOrAfter_iff_of_wrapped (mem_range.mp hk) hw hx

theorem median_le (h : Windowed L n) (hn : 0 < n) : median L n ≤ L.log.len := by
  obtain ⟨i, hi, hmed⟩ := exists_validOffset_eq_median (L := L) hn
  have hend := h.end_le
  have hin := (h.validOffset_between hi).1
  omega

end Windowed

theorem moved_iff (offsets : ℕ → ℕ) (hs : L.cid.state ≠ .transit) (hsi : 0 < L.cid.size) :
    (updateCommit L offsets).log.commit ≠ L.log.commit ↔
      L.cid.size / 2 ≤ largerOffsetCount L L.cid.size L.log.commit ∧
        logOffsetEndDistance L.log (median L L.cid.size) <
          logOffsetEndDistance L.log L.log.commit := by
  rw [commit_ne_iff, minOffset_of_not_transit offsets hs hsi]
  split_ifs with hfew
  · simp [hfew]
  · simp [not_lt.mp hfew]

theorem commit_of_moved (offsets : ℕ → ℕ) (hs : L.cid.state ≠ .transit)
    (hsi : 0 < L.cid.size)
    (hm : (updateCommit L offsets).log.commit ≠ L.log.commit) :
    (updateCommit L offsets).log.commit = median L L.cid.size := by
  have hma := ((moved_iff offsets hs hsi).mp hm).1
  rw [commit_of_later (commit_ne_iff.mp hm), minOffset_of_not_transit offsets hs hsi,
    if_neg (not_lt.mpr hma)]

/-- Outside of a transition, what is committed is on a majority of the servers exactly if those
behind the end of the buffer are gathered. -/
theorem committed_on_majority_iff (offsets : ℕ → ℕ) (hstate : L.cid.state ≠ .transit)
    (hsize : 0 < L.cid.size) (h : Windowed L L.cid.size) :
    ((updateCommit L offsets).log.commit ≠ L.log.commit →
      Majority L.cid.size fun k =>
        AtOrAfter L.log (endOffset L k) (updateCommit L offsets).log.commit) ↔ Gathered L := by
  have hmoved_iff := moved_iff offsets hstate hsize
  have hcommit := commit_of_moved offsets hstate hsize
  constructor
  · intro hmajority hwrap hmany hbehind
    have hx := (median_le_iff hsize).mpr hbehind
    have hmoved := hmoved_iff.mpr ⟨hmany, h.commit_lt_of_wrapped hwrap hx⟩
    have hcount := Majority.iff_countP.mp (hmajority hmoved)
    rw [hcommit hmoved, h.countP_of_wrapped hwrap hx] at hcount
    exact ⟨_, hx, (countP_median hsize).2, hcount⟩
  · intro hgathered hmoved
    obtain ⟨hmany, hlater⟩ := hmoved_iff.mp hmoved
    rw [hcommit hmoved, Majority.iff_countP]
    by_cases hwrap : L.log.endOff < L.log.commit ∧ median L L.cid.size ≤ L.log.endOff
    · obtain ⟨x, -, hbelow, hbetween⟩ :=
        hgathered hwrap.1 hmany ((median_le_iff hsize).mp hwrap.2)
      -- The middle offset is at most `x`, so whoever has got to `x` has got to it.
      have hle := (median_le_iff hsize).mpr hbelow
      rw [h.countP_of_wrapped hwrap.1 hwrap.2]
      refine hbetween.trans_le (countP_mono_left fun k _ hk => ?_)
      rw [decide_eq_true_eq] at hk ⊢
      exact ⟨hle.trans hk.1, hk.2⟩
    · refine (median_le_majority (L := L) hsize).trans_le (countP_mono_left fun k hk hle => ?_)
      rw [decide_eq_true_eq] at hle ⊢
      refine h.atOrAfter_of_le (mem_range.mp hk) (h.median_le hsize) hlater ?_ hle
      omega

/-- The leader of three servers with a buffer of 100 bytes whose window has wrapped around. -/
def wrappedLeader (end₁ end₂ : ℕ) : Leader :=
  { idx := 0, log := ⟨90, 90, 90, 10, 100, 100, fun _ => 0⟩, cid := ⟨0, 3, 0, .stable, 7⟩,
    failCount := fun _ => 0, nextLrStep := fun _ => .updateLog,
    logEnd := fun k => if k = 1 then end₁ else end₂, cidOffset := 90, committed := false }

theorem committed_on_majority_wrapped :
    (updateCommit (wrappedLeader 5 5) fun _ => 0).log.commit = 5 ∧
      Majority 3 fun k =>
        AtOrAfter (wrappedLeader 5 5).log (endOffset (wrappedLeader 5 5) k) 5 := by
  have hwindow : Windowed (wrappedLeader 5 5) 3 := ⟨by decide, by decide, by decide, by decide⟩
  have hcommit : (updateCommit (wrappedLeader 5 5) fun _ => 0).log.commit = 5 := by decide +kernel
  refine ⟨hcommit, ?_⟩
  have hmajority := (committed_on_majority_iff (L := wrappedLeader 5 5) (fun _ => 0)
    (by decide) (by decide) hwindow).mpr ?_
  · rw [hcommit] at hmajority
    exact hmajority (by decide)
  · exact fun _ _ _ => ⟨5, by decide, by decide +kernel, by decide +kernel⟩

/-- With one server at offset 5 and one still in front of the end of the buffer, the entries up to
the end offset 10 of the leader are committed. -/
theorem committed_on_leader_alone :
    Windowed (wrappedLeader 5 90) 3 ∧
      (updateCommit (wrappedLeader 5 90) fun _ => 0).log.commit = 10 ∧
      ¬ Majority 3 fun k =>
        AtOrAfter (wrappedLeader 5 90).log (endOffset (wrappedLeader 5 90) k) 10 := by
  refine ⟨⟨by decide, by decide, by decide, by decide⟩, by decide +kernel, ?_⟩
  rw [Majority.iff_countP]
  decide +kernel

end Single

/-! ### Two majorities -/

section Joint

/-- No end offset lies behind the end of the buffer, so that numbers and offsets are ordered the
same way. -/
structure Straight (L : Leader) : Prop where
  commit_le : L.log.commit ≤ L.log.endOff
  end_lt : L.log.endOff < L.log.len
  ends_le : ∀ k, k < L.cid.size ∨ k < L.cid.newSize → k ≠ L.idx → L.logEnd k ≤ L.log.endOff

/-- Where a majority of the old size has got to, a majority of the new one has, or at least half of
its servers other than the leader are further. -/
def SecondFollows (L : Leader) : Prop :=
  ∀ x > L.log.commit,
    L.cid.size / 2 < (range L.cid.size).countP (fun k => x ≤ validOffset L k) →
    L.cid.newSize / 2 < (range L.cid.newSize).countP (fun k => x ≤ endOffset L k) ∨
      L.cid.newSize / 2 ≤ largerOffsetCount L L.cid.newSize x

theorem le_median {x : ℕ} (h : n / 2 < (range n).countP fun k => x ≤ validOffset L k) :
    x ≤ median L n := by
  have hn : 0 < n := by
    rcases Nat.eq_zero_or_pos n with rfl | hn
    · simp at h
    · exact hn
  by_contra hlt
  have hr := (countP_median (L := L) hn).2
  have hb : (range n).countP (fun k => decide (validOffset L k ≤ median L n)) ≤
      (range n).countP fun k => decide ¬ decide (x ≤ validOffset L k) := by
    refine countP_mono_left fun k _ hle => ?_
    simp only [decide_eq_true_eq] at hle ⊢
    omega
  have hs := length_eq_countP_add_countP (l := range n)
    fun k => decide (x ≤ validOffset L k)
  rw [length_range] at hs
  omega

theorem countP_le_others (p : ℕ → Bool) (i n : ℕ) :
    (range n).countP p ≤ (range n).countP (fun k => k ≠ i && p k) + 1 := by
  have hc : ∀ l : List ℕ, l.countP p ≤ l.countP (fun k => k ≠ i && p k) + l.count i := by
    intro l
    induction l with
    | nil => exact Nat.zero_le _
    | cons k l ih =>
      rw [countP_cons, countP_cons, count_cons]
      by_cases hk : k = i
      · rw [if_pos (beq_iff_eq.mpr hk)]
        split_ifs <;> omega
      · have hs : (decide (k ≠ i) && p k) = p k := by simp [hk]
        rw [hs]
        omega
  have hone := nodup_iff_count_le_one.mp (nodup_range (n := n)) i
  have := hc (range n)
  omega

namespace Straight

variable {k x y : ℕ}

theorem distance_eq (h : Straight L) (hx : x ≤ L.log.endOff) :
    logOffsetEndDistance L.log x = L.log.endOff - x := by
  rw [logOffsetEndDistance_of_not_empty (isLogEmpty_eq_false_iff.mpr h.end_lt.ne), if_pos hx]

theorem atOrAfter_iff (h : Straight L) (hx : x ≤ L.log.endOff) (hy : y ≤ L.log.endOff) :
    AtOrAfter L.log x y ↔ y ≤ x := by
  rw [AtOrAfter, h.distance_eq hx, h.distance_eq hy]
  omega

theorem larger_iff (h : Straight L) (hx : x ≤ L.log.endOff) (hy : y ≤ L.log.endOff) :
    logIsOffsetLarger L.log x y = true ↔ y < x := by
  rw [logIsOffsetLarger, h.distance_eq hx, h.distance_eq hy, decide_eq_true_eq]
  omega

theorem endOffset_le (h : Straight L) (hk : k < L.cid.size ∨ k < L.cid.newSize) :
    endOffset L k ≤ L.log.endOff := by
  unfold endOffset
  split_ifs with hs
  · exact Nat.le_refl _
  · exact h.ends_le k hk hs

theorem validOffset_le (h : Straight L) (hk : k < L.cid.size ∨ k < L.cid.newSize) :
    validOffset L k ≤ L.log.endOff := by
  by_cases heq : validOffset L k = L.log.commit
  · rw [heq]
    exact h.commit_le
  · rw [validOffset_eq_endOffset heq]
    exact h.endOffset_le hk

theorem median_le (h : Straight L) (hn : 0 < n) (hle : n = L.cid.size ∨ n = L.cid.newSize) :
    median L n ≤ L.log.endOff := by
  obtain ⟨k, hk, heq⟩ := exists_validOffset_eq_median (L := L) hn
  rw [← heq]
  exact h.validOffset_le (by omega)

theorem majority_of_le_median (h : Straight L) (hn : 0 < n)
    (hs : n = L.cid.size ∨ n = L.cid.newSize) (hx : L.log.commit < x) (hle : x ≤ median L n) :
    Majority n fun k => AtOrAfter L.log (endOffset L k) x := by
  refine Majority.iff_countP.mpr ((median_le_majority (L := L) hn).trans_le ?_)
  refine countP_mono_left fun k hk hmed => ?_
  have hk' : k < L.cid.size ∨ k < L.cid.newSize := by
    have := mem_range.mp hk
    omega
  rw [decide_eq_true_eq] at hmed ⊢
  rw [← validOffset_eq_endOffset (by omega), h.atOrAfter_iff (h.validOffset_le hk')]
  · omega
  · have := h.median_le hn hs
    omega

theorem largerOffsetCount_anti (h : Straight L) (hxy : x ≤ y) (hy : y ≤ L.log.endOff)
    (hs : n = L.cid.size ∨ n = L.cid.newSize) :
    largerOffsetCount L n y ≤ largerOffsetCount L n x := by
  refine countP_mono_left fun k hk hc => ?_
  have hk' : k < L.cid.size ∨ k < L.cid.newSize := by
    have := mem_range.mp hk
    omega
  simp only [Bool.and_eq_true, decide_eq_true_eq] at hc ⊢
  obtain ⟨⟨hne, hco⟩, hl⟩ := hc
  have hend := h.ends_le k hk' hne
  rw [h.larger_iff hend hy] at hl
  refine ⟨⟨hne, hco⟩, ?_⟩
  rw [h.larger_iff hend (by omega)]
  omega

theorem many_of_majority (h : Straight L) (hx : L.log.commit < x)
    (hm : L.cid.size / 2 < (range L.cid.size).countP fun k => x ≤ validOffset L k) :
    L.cid.size / 2 ≤ largerOffsetCount L L.cid.size L.log.commit := by
  have ho := countP_le_others (fun k => decide (x ≤ validOffset L k)) L.idx L.cid.size
  have hc : (range L.cid.size).countP
        (fun k => k ≠ L.idx && decide (x ≤ validOffset L k)) ≤
      largerOffsetCount L L.cid.size L.log.commit := by
    refine countP_mono_left fun k hk hin => ?_
    simp only [Bool.and_eq_true, decide_eq_true_eq] at hin
    refine larger_of_validOffset hin.1 (Nat.le_refl _) ?_
    rw [h.larger_iff (h.validOffset_le (.inl (mem_range.mp hk))) h.commit_le]
    omega
  omega

theorem many_of_moved (h : Straight L) (offsets : ℕ → ℕ) (hs : L.cid.state = .transit)
    (hsi : 0 < L.cid.size) (hnew : 0 < L.cid.newSize)
    (hl : logOffsetEndDistance L.log (minOffset L offsets) <
      logOffsetEndDistance L.log L.log.commit) :
    ¬ largerOffsetCount L L.cid.size L.log.commit < L.cid.size / 2 := by
  intro hfew
  have hmed := h.median_le hnew (.inr rfl)
  rw [minOffset_of_transit offsets hs hsi hnew] at hl
  dsimp only at hl
  rw [if_pos hfew] at hl
  split_ifs at hl with _ hla
  · exact Nat.lt_irrefl _ hl
  · rw [h.larger_iff h.commit_le hmed] at hla
    rw [h.distance_eq hmed, h.distance_eq h.commit_le] at hl
    omega
  · exact Nat.lt_irrefl _ hl

theorem countP_new (h : Straight L) (hx : x ≤ L.log.endOff) :
    (range L.cid.newSize).countP
        (fun k => decide (AtOrAfter L.log (endOffset L k) x)) =
      (range L.cid.newSize).countP fun k => decide (x ≤ endOffset L k) := by
  refine countP_congr fun k hk => ?_
  rw [decide_eq_true_eq, decide_eq_true_eq]
  exact h.atOrAfter_iff (h.endOffset_le (.inr (mem_range.mp hk))) hx

end Straight

/-- In a transition, what is committed is on a majority of both sizes exactly if the second one
follows the first. -/
theorem committed_on_both_iff (offsets : ℕ → ℕ) (hstate : L.cid.state = .transit)
    (hsize : 0 < L.cid.size) (hnew : 0 < L.cid.newSize) (h : Straight L) :
    ((updateCommit L offsets).log.commit ≠ L.log.commit →
      Majority L.cid.size (fun k =>
        AtOrAfter L.log (endOffset L k) (updateCommit L offsets).log.commit) ∧
      Majority L.cid.newSize fun k =>
        AtOrAfter L.log (endOffset L k) (updateCommit L offsets).log.commit) ↔
      SecondFollows L := by
  have hmed := h.median_le hsize (.inl rfl)
  have hmed' := h.median_le hnew (.inr rfl)
  have hcommit := h.commit_le
  have hmin := minOffset_of_transit offsets hstate hsize hnew
  dsimp only at hmin
  constructor
  · intro hboth x hx hmajority
    by_contra hneither
    rw [not_or, not_lt, not_le] at hneither
    have hle := le_median hmajority
    have hfew := h.largerOffsetCount_anti hle hmed (.inr rfl)
    have hmany := h.many_of_majority hx hmajority
    -- The second turn leaves the loop with the offset of the first.
    rw [if_neg (not_lt.mpr hmany), if_pos (hfew.trans_lt hneither.2)] at hmin
    have hlater : logOffsetEndDistance L.log (minOffset L offsets) <
        logOffsetEndDistance L.log L.log.commit := by
      rw [hmin, h.distance_eq hmed, h.distance_eq hcommit]
      omega
    have hcount := Majority.iff_countP.mp (hboth (commit_ne_iff.mpr hlater)).2
    rw [commit_of_later hlater, hmin, h.countP_new hmed] at hcount
    refine absurd (hcount.trans_le (countP_mono_left fun k hk hin => ?_))
      (not_lt.mpr hneither.1)
    rw [decide_eq_true_eq] at hin ⊢
    omega
  · intro hfollows hmoved
    have hlater := commit_ne_iff.mp hmoved
    have hmany := h.many_of_moved offsets hstate hsize hnew hlater
    rw [commit_of_later hlater]
    rw [if_neg hmany] at hmin
    by_cases hfew : largerOffsetCount L L.cid.newSize (median L L.cid.size) < L.cid.newSize / 2
    · rw [if_pos hfew] at hmin
      rw [hmin] at hlater ⊢
      rw [h.distance_eq hmed, h.distance_eq hcommit] at hlater
      refine ⟨h.majority_of_le_median hsize (.inl rfl) (by omega) (Nat.le_refl _), ?_⟩
      rw [Majority.iff_countP, h.countP_new hmed]
      obtain hsecond | hsecond :=
        hfollows (median L L.cid.size) (by omega) (median_le_majority hsize)
      · exact hsecond
      · omega
    · have hleast : minOffset L offsets ≤ median L L.cid.size ∧
          minOffset L offsets ≤ median L L.cid.newSize := by
        have hlarger := h.larger_iff hmed hmed'
        rw [hmin, if_neg hfew]
        split_ifs with hlower <;> rw [hlarger] at hlower <;> omega
      rw [h.distance_eq (hleast.1.trans hmed), h.distance_eq hcommit] at hlater
      exact ⟨h.majority_of_le_median hsize (.inl rfl) (by omega) hleast.1,
        h.majority_of_le_median hnew (.inr rfl) (by omega) hleast.2⟩

/-- A leader on the way from three servers to five, whose end offset is 10; the entries behind
offset 0 are not committed. -/
def transitLeader (ends : ℕ → ℕ) : Leader :=
  { idx := 0, log := ⟨0, 0, 0, 10, 100, 100, fun _ => 0⟩, cid := ⟨0, 3, 5, .transit, 31⟩,
    failCount := fun _ => 0, nextLrStep := fun _ => .updateLog, logEnd := ends,
    cidOffset := 0, committed := false }

/-- All servers but one are at offset 7. -/
def mostEnds (k : ℕ) : ℕ := if k = 4 then 0 else 7

/-- Server 1 has everything, the others have nothing. -/
def loneEnd (k : ℕ) : ℕ := if k = 1 then 10 else 0

theorem secondFollows_mostEnds : SecondFollows (transitLeader mostEnds) := by
  intro x _ hm
  by_cases hx : x ≤ 7
  · left
    have hs : 5 / 2 < (range 5).countP fun k =>
        decide (7 ≤ endOffset (transitLeader mostEnds) k) := by decide
    refine hs.trans_le (countP_mono_left fun k _ hle => ?_)
    rw [decide_eq_true_eq] at hle ⊢
    exact hx.trans hle
  · -- Only the leader is behind offset 7.
    have he : (range 3).countP (fun k =>
        decide (8 ≤ validOffset (transitLeader mostEnds) k)) ≤ 3 / 2 := by decide
    refine absurd (hm.trans_le (countP_mono_left fun k _ hle => ?_))
      (not_lt.mpr he)
    rw [decide_eq_true_eq] at hle ⊢
    omega

theorem committed_on_both_three_five :
    (updateCommit (transitLeader mostEnds) fun _ => 0).log.commit = 7 ∧
      Majority 3 (fun k => AtOrAfter (transitLeader mostEnds).log
        (endOffset (transitLeader mostEnds) k) 7) ∧
      Majority 5 fun k => AtOrAfter (transitLeader mostEnds).log
        (endOffset (transitLeader mostEnds) k) 7 := by
  have hstraight : Straight (transitLeader mostEnds) :=
    ⟨by decide, by decide, fun k _ _ => by simp only [transitLeader, mostEnds]; split_ifs <;> omega⟩
  have hcommit : (updateCommit (transitLeader mostEnds) fun _ => 0).log.commit = 7 := by
    decide +kernel
  have hboth := (committed_on_both_iff (L := transitLeader mostEnds) (fun _ => 0) rfl (by decide)
    (by decide) hstraight).mpr secondFollows_mostEnds
  rw [hcommit] at hboth
  exact ⟨hcommit, hboth (by decide)⟩

/-- With the leader, server 1 is a majority of three, but not of five. -/
theorem committed_on_two_of_five :
    Straight (transitLeader loneEnd) ∧
      (updateCommit (transitLeader loneEnd) fun _ => 0).log.commit = 10 ∧
      ¬ Majority 5 fun k => AtOrAfter (transitLeader loneEnd).log
        (endOffset (transitLeader loneEnd) k) 10 := by
  refine ⟨⟨by decide, by decide, fun k _ _ => ?_⟩, by decide +kernel, ?_⟩
  · simp only [transitLeader, loneEnd]
    split_ifs <;> omega
  · rw [Majority.iff_countP]
    decide +kernel

end Joint

end VmFt.Dare.Ring
