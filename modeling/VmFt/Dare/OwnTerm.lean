import VmFt.Dare.Entries

/-! # Committing through the own term

A leader that counts only ends past its own first entry commits up to an entry
it has appended itself.
-/

namespace VmFt.Dare

open Function List

variable {g : Group} {s s' : State} {srv : Server} {i k : ℕ}

def ownTermStart (s : Server) : ℕ :=
  ((List.range s.log.endOff).takeWhile fun k => (s.log.entries k).term ≠ sidGetTerm s.sid).length

/-- The servers that are counted with an end behind the leader's first own entry. -/
def ownTermEnds (g : Group) (i : ℕ) (s : Server) : List ℕ :=
  (g.others i).filter fun k =>
    isCounted s k ∧ ownTermStart s < s.logEnd k ∧ s.logEnd k ≤ s.log.endOff

/-- When enough recorded ends lie past the commit offset, enough lie past an own entry. -/
def OwnTermCommit (g : Group) (i : ℕ) (s : Server) : Prop :=
  g.size / 2 ≤ largerOffsetCount g i s s.log.commit → g.size / 2 ≤ (ownTermEnds g i s).length

theorem le_length_takeWhile_range {p : ℕ → Bool} {b n : ℕ} (hb : b ≤ n) (h : ∀ k < b, p k) :
    b ≤ ((range n).takeWhile p).length := by
  obtain ⟨m, rfl⟩ := Nat.exists_eq_add_of_le hb
  have hall : ∀ k ∈ range b, p k := fun k hk => h k (mem_range.mp hk)
  rw [range_add, takeWhile_append_of_pos hall, length_append, length_range]
  exact Nat.le_add_right b _

theorem majorityOffset_mem (hi : i < g.size) (hsi : g.size ≠ 1)
    (hco : g.size / 2 ≤ (ownTermEnds g i srv).length) :
    ownTermStart srv < majorityOffset g i srv ∧ majorityOffset g i srv ≤ srv.log.endOff := by
  obtain ⟨o, ho⟩ : ∃ o, o = ownTermStart srv := ⟨_, rfl⟩
  obtain ⟨ks, hks⟩ : ∃ ks, ks = ownTermEnds g i srv := ⟨_, rfl⟩
  rw [← hks] at hco
  rw [← ho]
  have hmem : ∀ k ∈ ks, (k < g.size ∧ k ≠ i) ∧ o < validOffset i srv k ∧
      validOffset i srv k ≤ srv.log.endOff := by
    intro k hk
    rw [hks, ownTermEnds, mem_filter, Group.mem_others, decide_eq_true_eq, ← ho] at hk
    obtain ⟨hki, hc, hl⟩ := hk
    refine ⟨hki, ?_⟩
    rwa [validOffset, if_neg hki.2, if_pos hc]
  -- Two servers or more: some other server has reached past `o`, so the leader has, too.
  obtain ⟨k, hk⟩ := exists_mem_of_length_pos (l := ks) (by omega)
  have hs : validOffset i srv i = srv.log.endOff := if_pos rfl
  have hlt : o < srv.log.endOff := (hmem k hk).2.1.trans_le (hmem k hk).2.2
  have hn : (i :: ks).Nodup := by
    refine nodup_cons.mpr ⟨fun h => (hmem i h).1.2 rfl, ?_⟩
    rw [hks]
    exact (nodup_range.filter _).filter _
  have hsub : i :: ks ⊆ (range g.size).filter fun k =>
      o < validOffset i srv k ∧ validOffset i srv k ≤ srv.log.endOff := by
    intro k hk
    rw [mem_filter, mem_range, decide_eq_true_eq]
    rcases mem_cons.mp hk with rfl | hk
    · rw [hs]
      exact ⟨hi, hlt, le_rfl⟩
    · exact ⟨(hmem k hk).1.1, (hmem k hk).2⟩
  have hlen := (subperm_of_subset hn hsub).length_le
  rw [length_cons] at hlen
  have hm := median_mem_of_countP (a := o) (b := srv.log.endOff) (d := 0)
    (l := (range g.size).map (validOffset i srv))
  rw [length_map, length_range, countP_map, countP_eq_length_filter] at hm
  exact hm ((Nat.add_le_add_right hco 1).trans hlen)

/-- In every step: nobody advances its commit offset unless enough recorded ends lie past an
entry of its own term. -/
def OwnTermCommits (g : Group) (s : State) : Event → Prop
  | .advanceCommit i => OwnTermCommit g i (s.srv i)
  | _ => True

def CleanCommits (g : Group) (s : State) (e : Event) : Prop :=
  CleanLogs g s e ∧ OwnTermCommits g s e

theorem EntryInv.own_of_ownTermStart_le (h : EntryInv g s) (hf : FirstLap g s) (hi : i < g.size)
    (hl : isLeader i (s.srv i)) (hk : ownTermStart (s.srv i) ≤ k)
    (hend : k < (s.srv i).log.endOff) :
    .appended i (sidGetTerm (s.srv i).sid) k ((s.srv i).log.entries k) ∈ s.trace := by
  obtain ⟨b, hb, ho, hown⟩ := h.own hf i hi hl
  refine hown k (le_trans ?_ hk) hend
  exact le_length_takeWhile_range hb fun m hm => decide_eq_true (ho m hm)

theorem step_advanceCommit (h : step g s (.advanceCommit i) = some s') :
    i < g.size ∧ (s.srv i).phase = .recovered ∧ isLeader i (s.srv i) ∧
      s' = s.perform i (.quiet (advanceCommit g i (s.srv i))) := by
  unfold step at h
  obtain ⟨hi, hg, rfl⟩ := runBy_eq_some.mp h
  simp only [isRecovered, Bool.and_eq_true, beq_iff_eq] at hg
  exact ⟨hi, hg.1, hg.2, rfl⟩

theorem GroupInv.own_of_advanceCommit (h : GroupInv g s) (hf : FirstLap g s)
    (hown : OwnTermCommit g i (s.srv i)) (hs : Dare.step g s (.advanceCommit i) = some s')
    (hne : (s'.srv i).log.commit ≠ (s.srv i).log.commit) :
    ∃ k, (s'.srv i).log.commit = k + 1 ∧ k < (s.srv i).log.endOff ∧
      .appended i (sidGetTerm (s.srv i).sid) k ((s.srv i).log.entries k) ∈ s.trace := by
  obtain ⟨hi, hph, hl, rfl⟩ := step_advanceCommit hs
  rw [State.perform_srv_self] at hne ⊢
  dsimp only [Effect.quiet] at hne ⊢
  unfold advanceCommit at hne ⊢
  split_ifs at hne ⊢ with hc
  · exact absurd rfl hne
  obtain ⟨hlt, hle⟩ := majorityOffset_mem hi ((h.phases i).several hph) (hown (not_lt.mp hc))
  unfold raiseCommit at hne ⊢
  split_ifs at hne ⊢
  · refine ⟨majorityOffset g i (s.srv i) - 1, by dsimp only; omega, by omega, ?_⟩
    exact h.entry.own_of_ownTermStart_le hf hi hl (by omega) (by omega)
  · exact absurd rfl hne

/-- Until a log starts over, whenever a leader advances its commit offset, the entry in front of the
new offset is one that it has appended in its term. -/
theorem commit_through_own_term (g : Group) {s s' : State} (i : ℕ)
    (h : (group g).Run (CleanCommits g) (.init g) s) (hlap : FirstLap g s)
    (hclean : CleanCommits g s (.advanceCommit i))
    (hstep : (group g).step s (.advanceCommit i) = some s')
    (hne : (s'.srv i).log.commit ≠ (s.srv i).log.commit) :
    isLeader i (s.srv i) ∧ ∃ k, (s'.srv i).log.commit = k + 1 ∧ k < (s.srv i).log.endOff ∧
      .appended i (sidGetTerm (s.srv i).sid) k ((s.srv i).log.entries k) ∈ s.trace := by
  have hrun := h.mono fun _ _ hc => hc.1
  exact ⟨(step_advanceCommit hstep).2.2.1,
    (groupInv_of_run hrun).own_of_advanceCommit hlap hclean.2 hstep hne⟩

section Decidable

variable (s)

instance (srv : Server) : Decidable (OwnTermCommit g i srv) :=
  inferInstanceAs (Decidable (_ → _))

instance (e : Event) : Decidable (OwnTermCommits g s e) := by
  rcases e <;> unfold OwnTermCommits <;> infer_instance

instance (e : Event) : Decidable (CleanCommits g s e) :=
  inferInstanceAs (Decidable (_ ∧ _))

end Decidable

def extendLog (i j : ℕ) : List Event :=
  [.logAdjustment i j, .logExec i j true, .pollCompletion i j, .logAdjustment i j,
    .updateRemoteLog i j, .logExec i j true, .pollCompletion i j,
    .updateRemoteLog i j, .logExec i j true, .pollCompletion i j]

/-- Server 1 commits the entry with which it took office. -/
theorem commit_through_own_term_trio : ∃ s s', (group trio).Run (CleanCommits trio) (.init trio) s ∧
      FirstLap trio s ∧ (group trio).step s (.advanceCommit 1) = some s' ∧
      (s'.srv 1).log.commit = 1 ∧ isLeader 1 (s.srv 1) ∧
      ∃ k, (s'.srv 1).log.commit = k + 1 ∧ k < (s.srv 1).log.endOff ∧
        .appended 1 (sidGetTerm (s.srv 1).sid) k ((s.srv 1).log.entries k) ∈ s.trace := by
  obtain ⟨s, s', hrun, hstep, hlap, hclean, hold, hnew⟩ := System.exists_step_of_exec
    (M := group trio) (s := .init trio) (CleanCommits trio)
    (p := fun s s' => FirstLap trio s ∧ CleanCommits trio s (.advanceCommit 1) ∧
      (s.srv 1).log.commit = 0 ∧ (s'.srv 1).log.commit = 1)
    (electOne ++ extendLog 1 0) (.advanceCommit 1) (by decide +kernel)
  exact ⟨s, s', hrun, hlap, hstep, hnew,
    commit_through_own_term trio 1 hrun hlap hclean hstep (by rw [hold, hnew]; decide)⟩

/-- Server 1 extends the logs of both followers in term 2 without committing anything. Server 2
takes over in term 3 and finds the log of server 0 equal to its own up to its first own entry. At
once it commits the two entries of term 2. -/
theorem commit_of_earlier_term_trio : ∃ s s', (group trio).Run (CleanLogs trio) (.init trio) s ∧
      (group trio).step s (.advanceCommit 2) = some s' ∧ isLeader 2 (s.srv 2) ∧
      sidGetTerm (s.srv 2).sid = 3 ∧ (s.srv 2).log.commit = 0 ∧ (s'.srv 2).log.commit = 2 ∧
      ((s.srv 2).log.entries 1).term = 2 ∧ .appended 1 2 1 ((s.srv 2).log.entries 1) ∈ s.trace :=
  System.exists_step_of_exec (M := group trio) (s := .init trio) (CleanLogs trio)
    (p := fun s s' => isLeader 2 (s.srv 2) ∧ sidGetTerm (s.srv 2).sid = 3 ∧
      (s.srv 2).log.commit = 0 ∧ (s'.srv 2).log.commit = 2 ∧ ((s.srv 2).log.entries 1).term = 2 ∧
      .appended 1 2 1 ((s.srv 2).log.entries 1) ∈ s.trace)
    (electOne ++ [.submit 1 ⟨7, 3, .csm, [1]⟩, .getTailqMessage 1] ++ extendLog 1 0 ++
      [.boot 2, .hbSend 1 true, .deliver (.heartbeat 1 2 (sidMk 2 true 1)), .hbReceive 2 true,
        .deliver (.voteAck 2 1 0 2)] ++ extendLog 1 2 ++
      [.hbReceive 2 true, .deliver (.voteRequest 2 0 ⟨sidMk 3 false 2, 2, 2⟩),
        .pollVoteRequests 0 true, .deliver (.voteAck 0 2 0 3), .pollVoteCount 2,
        .logAdjustment 2 0, .logExec 2 0 true, .pollCompletion 2 0,
        .logAdjustment 2 0, .logExec 2 0 true, .pollCompletion 2 0,
        .logAdjustment 2 0, .logExec 2 0 true, .pollCompletion 2 0])
    (.advanceCommit 2) (by decide +kernel)

end VmFt.Dare
