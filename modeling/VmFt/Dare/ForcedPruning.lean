import VmFt.Dare.PruningSafe

/-! # The removal of a slow server

When the log is three quarters full, the leader removes the server that has applied
least and records for it its own apply offset. The control data are words of one
structure in which the private data follow the apply offsets. The offset that is
written is the one at which the search for the slowest server has ended.
-/

namespace VmFt.Dare.Pruning

open Function List

open Config (maxServerCount isServerOn serverRm getExtendedGroupSize isServerOn_serverRm)

/-! ### The words of `ctrl_data_t` -/

/-- The words of `sid`, `vote_req`, `log_offsets`, `sm_rep`, `sm_req`, `hb`, `vote_ack` and `rsid`,
which stand in front of `apply_offsets`. -/
def applyOffsetsWord : ℕ :=
  1 + 5 * maxServerCount + 4 * maxServerCount + 3 * maxServerCount + 4 * maxServerCount

/-- `prv_data`, one word for each server. -/
def prvDataWord : ℕ := applyOffsetsWord + maxServerCount

structure Leader where
  member : Member
  ctrl : ℕ → ℕ
  recorded : ∀ i, member.applyOffsets i = ctrl (applyOffsetsWord + i)

/-- Whether `force_log_pruning` removes a server. -/
def removes (len : ℕ) (m : Member) : Prop :=
  needsPruning len m = true ∧ slowest len m ≠ m.idx ∧ isServerOn m.cid (slowest len m) = true

instance (len : ℕ) (m : Member) : Decidable (removes len m) := by
  unfold removes
  infer_instance

variable {len : ℕ} {m : Member}

/-- `force_log_pruning` up to the call of `log_pruning`, when it removes a server. -/
def Leader.removeSlowest (s : Leader) (h : removes len s.member) : Leader where
  member := Pruning.removeSlowest len s.member
  ctrl := Function.update s.ctrl (applyOffsetsWord + getExtendedGroupSize s.member.cid)
    s.member.apply
  recorded := by
    intro i
    rw [removeSlowest_of_on h.2, appendConfig_eq]
    by_cases hi : i = getExtendedGroupSize s.member.cid
    · simp [hi]
    · rw [update_of_ne (by omega), ← s.recorded i]
      exact update_of_ne hi ..

/-! ### The server that is removed -/

/-- What the search for the slowest server has found: the leader itself, or a server of the group
for which a smaller apply offset is recorded than the leader's own. -/
def Found (len : ℕ) (m : Member) (found : ℕ × ℕ) : Prop :=
  found = (m.apply, m.idx) ∨
    found.1 = m.applyOffsets found.2 ∧ found.2 < getExtendedGroupSize m.cid ∧
      isOffsetLarger len m m.apply found.1 = true

theorem isOffsetLarger_trans {a b c : ℕ} (hab : isOffsetLarger len m a b = true)
    (hbc : isOffsetLarger len m b c = true) : isOffsetLarger len m a c = true := by
  simp only [isOffsetLarger, Ring.logIsOffsetLarger, decide_eq_true_eq] at hab hbc ⊢
  exact hab.trans hbc

theorem isOffsetLarger_irrefl (len : ℕ) (m : Member) (a : ℕ) :
    isOffsetLarger len m a a = false := by
  simp [isOffsetLarger, Ring.logIsOffsetLarger]

theorem Found.turn {found : ℕ × ℕ} (hf : Found len m found) {i : ℕ}
    (hi : i < getExtendedGroupSize m.cid) :
    Found len m (if isOffsetLarger len m found.1 (m.applyOffsets i) then (m.applyOffsets i, i)
      else found) := by
  split_ifs with hl
  · rcases hf with rfl | ⟨-, -, hlt⟩
    · exact .inr ⟨rfl, hi, hl⟩
    · exact .inr ⟨rfl, hi, isOffsetLarger_trans hlt hl⟩
  · exact hf

theorem slowest_spec (h : slowest len m ≠ m.idx) :
    slowest len m < getExtendedGroupSize m.cid ∧ m.applyOffsets (slowest len m) ≠ m.apply := by
  have hfo : Found len m ((range (getExtendedGroupSize m.cid)).foldl (fun found i =>
      if isOffsetLarger len m found.1 (m.applyOffsets i) then (m.applyOffsets i, i) else found)
      (m.apply, m.idx)) :=
    foldlRecOn _ _ (.inl rfl) fun _ hf i hi => hf.turn (mem_range.mp hi)
  rcases hfo with hidx | ⟨ho, hlt, hl⟩
  · exact absurd (congrArg Prod.snd hidx) h
  · refine ⟨hlt, fun heq => ?_⟩
    rw [ho.trans heq, isOffsetLarger_irrefl] at hl
    cases hl

/-! ### What the removal writes -/

/-- The log pruning that follows does not depend on the offset recorded for server `i`. -/
def Released (len i : ℕ) (m : Member) : Prop :=
  ∀ offset, pruneOffset len { m with applyOffsets := Function.update m.applyOffsets i offset } =
    pruneOffset len m

/-- The removal records the leader's apply offset for the server that is removed, leaves the other
control data as they are and releases the log pruning. -/
structure TouchesOnlyTarget (s : Leader) (h : removes len s.member) : Prop where
  ctrl : (s.removeSlowest h).ctrl =
    Function.update s.ctrl (applyOffsetsWord + slowest len s.member) s.member.apply
  released : Released len (slowest len s.member) (s.removeSlowest h).member

/-- The offset recorded for the server that is removed stays what it was. -/
theorem not_touchesOnlyTarget (s : Leader) (h : removes len s.member) :
    ¬ TouchesOnlyTarget s h := by
  intro htouches
  obtain ⟨hlt, hne⟩ := slowest_spec h.2.1
  have hword := congrFun htouches.ctrl (applyOffsetsWord + slowest len s.member)
  rw [update_self] at hword
  apply hne
  rw [s.recorded, ← hword]
  exact (update_of_ne (by omega) ..).symm

/-- A leader of 13 servers with a full log of 400 bytes, in which server 1 has applied nothing. -/
def fullLeader : Leader where
  member :=
    { initialMember 13 0 with
      leader := true, log := [⟨1, 0, 399, .other⟩], apply := 399, commit := 399
      applyOffsets := fun i => if i = 1 ∨ 13 ≤ i then 0 else 399 }
  ctrl := fun w => if w = applyOffsetsWord + 1 ∨ prvDataWord ≤ w then 0 else 399
  recorded := by
    intro i
    simp [prvDataWord, maxServerCount]

theorem removes_fullLeader : removes 400 fullLeader.member := by decide +kernel

theorem fullLeader_not_touchesOnlyTarget :
    removes 400 fullLeader.member ∧ ¬ TouchesOnlyTarget fullLeader removes_fullLeader :=
  ⟨removes_fullLeader, not_touchesOnlyTarget fullLeader removes_fullLeader⟩

/-- Server 1 is removed. Its offset stays 0, and the first word of the private data is
overwritten. -/
theorem fullLeader_overwrites_prvData :
    slowest 400 fullLeader.member = 1 ∧ fullLeader.ctrl prvDataWord = 0 ∧
      (fullLeader.removeSlowest removes_fullLeader).ctrl (applyOffsetsWord + 1) = 0 ∧
      (fullLeader.removeSlowest removes_fullLeader).ctrl prvDataWord = 399 ∧
      ¬ TouchesOnlyTarget fullLeader removes_fullLeader := by
  have htarget : slowest 400 fullLeader.member = 1 := by decide +kernel
  have hstays : (fullLeader.removeSlowest removes_fullLeader).ctrl (applyOffsetsWord + 1) = 0 := by
    decide +kernel
  refine ⟨htarget, by decide +kernel, hstays, by decide +kernel, fun htouches => ?_⟩
  rw [htouches.ctrl, htarget, update_self] at hstays
  revert hstays
  decide +kernel

end VmFt.Dare.Pruning
