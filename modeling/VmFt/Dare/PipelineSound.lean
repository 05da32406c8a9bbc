import VmFt.Dare.PipelineCompletion
import VmFt.Dare.PipelineUpdate

/-! # Soundness of the replication pipeline

Whenever the pipeline of a server stands at `LR_UPDATE_LOG`, the bytes it has
replicated are the leader's and the recorded end offset is the server's own,
except for a log that is still empty.
-/

namespace VmFt.Dare.Ring

open VmFt.System List Option

variable {i : ℕ} {s s' : State}

theorem inv_step {e : Event} (h : Inv i s) (hcl : Clean s e)
    (hst : (pipeline i).step s e = some s') : Inv i s' := by
  obtain ⟨t, ht, rfl⟩ := map_eq_some_iff.mp hst
  cases e with
  | logAdjustment tag =>
    obtain ⟨-, rfl⟩ := guarded_eq_some.mp ht
    exact inv_logAdjustment h
  | updateRemoteLog tag =>
    obtain ⟨-, rfl⟩ := guarded_eq_some.mp ht
    exact inv_updateRemoteLog h
  | postSecond tag =>
    obtain ⟨n, hn, rfl⟩ := map_eq_some_iff.mp ht
    exact inv_postSecond h hn
  | advanceCommit offset =>
    obtain ⟨-, rfl⟩ := guarded_eq_some.mp ht
    exact inv_of_other h _ offset _ _ _ _ (Or.inl rfl) (Or.inl rfl)
  | updateRemoteCommit tag =>
    obtain ⟨hs, rfl⟩ := guarded_eq_some.mp ht
    unfold updateRemoteCommit
    split
    · rwa [observe_of_still id rfl rfl]
    · rename_i hre
      have hlog : s.server.nextLrStep = .updateLog := by
        by_contra hno
        exact hre (Or.inr (Or.inr (Or.inl hno)))
      refine inv_postAside h hs rfl (Or.inr ⟨by rw [hlog]; rfl, _, rfl⟩) ?_
      rw [hlog]
      nofun
  | append term reqId cltId body =>
    obtain ⟨r, hr, hg⟩ := bind_eq_some_iff.mp ht
    obtain ⟨-, rfl⟩ := guarded_eq_some.mp hg
    exact inv_append h hr hcl
  | prune head =>
    obtain ⟨-, rfl⟩ := guarded_eq_some.mp ht
    exact inv_of_other h head _ _ _ _ _ (Or.inl rfl) (Or.inl rfl)
  | postOther conn tag signaled =>
    obtain ⟨hs, rfl⟩ := guarded_eq_some.mp ht
    exact inv_postAside h hs rfl (Or.inl rfl) fun _ => rfl
  | ctrlFailure =>
    cases ht
    exact inv_of_other h _ _ _ _ _ _ (Or.inl rfl) (Or.inl rfl)
  | connection up =>
    cases ht
    exact inv_of_other h _ _ _ _ up _ (Or.inl rfl) (Or.inl rfl)
  | complete k rc n =>
    obtain ⟨w, hw, rfl⟩ := map_eq_some_iff.mp ht
    exact inv_complete h hw
  | poll k =>
    obtain ⟨c, hc, rfl⟩ := map_eq_some_iff.mp ht
    exact inv_poll h hc
  | qpRestart =>
    cases ht
    exact inv_qpRestart h
  | voteAck =>
    cases ht
    exact inv_of_other h _ _ _ _ _ _ (Or.inr rfl) (Or.inl rfl)
  | serverToFollower =>
    obtain ⟨buf, hbuf, rfl⟩ := map_eq_some_iff.mp ht
    exact inv_of_other h _ _ _ _ _ buf (Or.inr rfl) (Or.inr hbuf)
  | tailqAppend term reqId cltId body => exact hcl.elim

theorem inv_init (b : Ballot) (ssn : ℕ) (counted : Bool) : Inv i (.init i b ssn counted) where
  len_eq := b.len_eq
  large := b.len_eq ▸ b.voter.large
  end_le := b.end_le
  wired :=
    { next_eq := ⟨0, Nat.zero_le _, rfl⟩
      send_le := nofun
      comp_le := nofun
      idle := fun _ => rfl
      second := nofun
      aside := nofun }
  atStep := by
    cases counted with
    | false => exact ⟨⟨b.voter.commit_lt, b.voter.filled, Or.inl rfl⟩, rfl⟩
    | true =>
      exact ⟨⟨⟨b.voter.commit_lt, b.voter.filled, Or.inr rfl⟩, rfl⟩, awaits_of_pending_zero rfl⟩

theorem replicated_of_onArc (h : Inv i s) (hlog : s.server.nextLrStep = .updateLog)
    (ht : s.history.travelled < s.leader.len) {x : ℕ} (hx : x < s.leader.len)
    (harc : OnArc s.leader.len s.history.adjustedEnd s.offsetsEnd x) : Replicated s x := by
  have hat := h.atStep
  rw [hlog] at hat
  have hp := hat.1
  have hway := hp.on_the_way ht
  have hne : s.offsetsEnd ≠ s.leader.len ∨ s.history.adjustedEnd = s.leader.len := by
    by_cases hf : s.offsetsEnd = s.leader.len
    · exact Or.inr (hp.full_circle hf)
    · exact Or.inl hf
  have hage := (onArc_iff hp.adjusted_le hp.le_len h.end_le hx (by omega) hne).mp harc
  exact ⟨hx, hage.1, by omega⟩

/-- In every run in which the leader never comes round to bytes a server lacks and the server
appends nothing itself, a pipeline at `LR_UPDATE_LOG` is in order: the replicated bytes are the
leader's, among them all from the adjusted to the recorded end as long as the leader's log has not
come round, and the server's end offset is the recorded one or still marks an empty log. -/
theorem pipeline_sound (b : Ballot) (ssn : ℕ) (counted : Bool)
    (hrun : (pipeline i).Run Clean (.init i b ssn counted) s)
    (hlog : s.server.nextLrStep = .updateLog) :
    (∀ x, Replicated s x → s.follower.entries x = s.leader.entries x) ∧
      (s.history.travelled < s.leader.len → ∀ x < s.leader.len,
        OnArc s.leader.len s.history.adjustedEnd s.offsetsEnd x →
          s.follower.entries x = s.leader.entries x) ∧
      (s.follower.endOff = s.offsetsEnd ∨
        s.history.updated = false ∧ s.ncBuf.len = 0 ∧ isLogEmpty s.follower = true) := by
  have hinv : Inv i s := hrun.invariant (inv_init b ssn counted) fun _ _ _ => inv_step
  have hat := hinv.atStep
  rw [hlog] at hat
  obtain ⟨hp, hend, -⟩ := hat
  have hbytes : ∀ x, Replicated s x → s.follower.entries x = s.leader.entries x :=
    fun x ⟨hx, hlt, hle⟩ => hp.bytes x hx hlt hle
  refine ⟨hbytes, ?_, ?_⟩
  · exact fun htravel x hx harc => hbytes x (replicated_of_onArc hinv hlog htravel hx harc)
  · rcases hend with hknown | ⟨hnew, hnone, hmark⟩
    · exact Or.inl hknown
    · exact Or.inr ⟨hnew, hnone, by simp [isLogEmpty, hmark]⟩

/-- Two servers that start with empty logs. -/
def freshBallot : Ballot where
  candidate := logNew (2 * maxEntryLen)
  voter :=
    { log := logNew (2 * maxEntryLen)
      buf := ⟨0, []⟩
      large := Nat.le_refl _
      commit_lt := by decide
      filled := by decide +kernel
      buf_le := by decide }
  len_eq := rfl
  end_le := Nat.le_refl _

/-- An entry is appended and replicated, and the end offset of the server moved behind it. -/
theorem pipeline_sound_fresh :
    ∃ s, (pipeline 1).Run Clean (.init 1 freshBallot 0 true) s ∧
      (s.server.nextLrStep = .updateLog ∧ s.history.updated = true ∧ s.offsetsEnd = 48 ∧
        Replicated s 26) ∧
      (∀ x, Replicated s x → s.follower.entries x = s.leader.entries x) ∧
      (s.follower.endOff = s.offsetsEnd ∨
        s.history.updated = false ∧ s.ncBuf.len = 0 ∧ isLogEmpty s.follower = true) := by
  obtain ⟨s, hrun, hlog, hdone⟩ := exists_run_of_exec (M := pipeline 1)
    (s := .init 1 freshBallot 0 true) Clean
    (p := fun s => s.server.nextLrStep = .updateLog ∧
      (s.history.updated = true ∧ s.offsetsEnd = 48 ∧ Replicated s 26))
    [.logAdjustment false, .complete 0 .success 0, .poll 0, .logAdjustment false,
      .append 1 0 0 .noop, .updateRemoteLog false, .complete 0 .success 0, .poll 0,
      .updateRemoteLog false, .complete 0 .success 0, .poll 0]
    (by decide +kernel)
  obtain ⟨hbytes, -, hend⟩ := pipeline_sound freshBallot 0 true hrun hlog
  exact ⟨s, hrun, ⟨hlog, hdone⟩, hbytes, hend⟩

/-- A server whose log is empty keeps the mark `len` as its end offset when the leader takes its
log for adjusted, while its commit offset and the recorded end are zero. -/
theorem end_of_empty_log :
    ∃ s, (pipeline 1).Run Clean (.init 1 freshBallot 0 true) s ∧
      s.server.nextLrStep = .updateLog ∧ s.follower.endOff ≠ s.offsetsEnd ∧
      s.follower.endOff ≠ s.follower.commit :=
  exists_run_of_exec (M := pipeline 1) (s := .init 1 freshBallot 0 true) Clean
    (p := fun s => s.server.nextLrStep = .updateLog ∧ s.follower.endOff ≠ s.offsetsEnd ∧
      s.follower.endOff ≠ s.follower.commit)
    [.logAdjustment false, .complete 0 .success 0, .poll 0, .logAdjustment false]
    (by decide +kernel)

end VmFt.Dare.Ring
