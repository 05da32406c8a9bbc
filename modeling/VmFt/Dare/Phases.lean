import VmFt.Dare.ElectionSafety

/-! # Servers that take part

A server that takes part in elections is not alone in its group and has reached
a term above zero: it takes part from the step on in which it stands for the
first time, and its SID does not decrease.
-/

namespace VmFt.Dare

open List Option

variable {g : Group} {s s' : State} {srv : Server} {i : ℕ}

structure Recovered (g : Group) (srv : Server) : Prop where
  term_pos : srv.phase = .recovered → 0 < sidGetTerm srv.sid
  several : srv.phase = .recovered → g.size ≠ 1

def Phases (g : Group) (s : State) : Prop := ∀ i, Recovered g (s.srv i)

/-- The steps that occur only when somebody joins, restarts or verifies its leadership. -/
def Event.isExcluded : Event → Bool
  | .restart _ | .getReplicatedVote .. | .pollSmReply .. | .recoverLogOffsets ..
  | .recoverLogEntries .. | .verifyLeadership .. => true
  | _ => false

theorem isLeader_iff : isLeader i srv ↔ sidGetIdx srv.sid = i ∧ sidGetL srv.sid = true := by
  unfold isLeader isNone
  cases hl : sidGetL srv.sid <;> simp

theorem isLeader_eq_false_of_sidGetL (h : sidGetL srv.sid = false) : isLeader i srv = false := by
  simp [isLeader, h]

theorem SidInv.not_leader_of_adopt {w : ℕ} (hinv : SidInv g s) (hgen : Genuine s.trace w)
    (hle : (s.srv i).sid ≤ w) (hne : w ≠ (s.srv i).sid) (hpos : 0 < sidGetTerm w) :
    ¬ (sidGetIdx w = i ∧ sidGetL w = true) := by
  rintro ⟨hidx, hl⟩
  rw [Genuine, if_pos hl, hidx] at hgen
  have hw := hinv.elected_le i _ (hgen.resolve_right hpos.ne')
  rw [← hidx, ← hl, ← sidMk_eta, hidx] at hw
  exact hne (le_antisymm hw.2 hle)

/-! ### The functions leave the phase alone -/

theorem phase_ackOrStartElection (ackOk : Bool) (srv : Server) :
    (ackOrStartElection g i ackOk srv).srv.phase = srv.phase := by
  unfold ackOrStartElection
  dsimp only
  split_ifs <;> rfl

theorem phase_serverToFollower (ackOk : Bool) (srv : Server) :
    (serverToFollower g i ackOk srv).srv.phase = srv.phase := by
  have hs := (sameBallot_grantAccess (g := g) (i := i) { srv with hbEvent := .off }).phase
  unfold serverToFollower
  dsimp only
  split_ifs
  · exact (phase_ackOrStartElection _ _).trans hs
  · exact hs

theorem phase_hbReceiveBody (leader k : ℕ) (st : HbLoop) :
    (hbReceiveBody i leader st k).srv.phase = st.srv.phase := by
  have hs : (fetchHb leader k st.srv).2.phase = st.srv.phase := by
    unfold fetchHb
    split_ifs <;> rfl
  unfold hbReceiveBody
  generalize fetchHb leader k st.srv = fetched at hs ⊢
  dsimp only
  split_ifs <;> exact hs

theorem phase_hbReceiveCb (ackOk : Bool) (srv : Server) :
    (hbReceiveCb g i ackOk srv).srv.phase = srv.phase := by
  have hf : ∀ (leader : ℕ) (ks : List ℕ) (st : HbLoop),
      (ks.foldl (hbReceiveBody i leader) st).srv.phase = st.srv.phase := by
    intro leader ks
    induction ks with
    | nil => exact fun _ => rfl
    | cons k ks ih => exact fun st => (ih _).trans (phase_hbReceiveBody leader k st)
  unfold hbReceiveCb
  dsimp only [Effect.andThen]
  split_ifs
  · exact hf ..
  · exact (phase_serverToFollower ..).trans (hf ..)
  · exact hf ..
  · exact hf ..

theorem phase_hbSendCb (ackOk : Bool) : (hbSendCb g i ackOk (s.srv i)).srv.phase =
    (s.srv i).phase := by
  have hs := ((Idle.refl g s i).hbSendLoop (g.others i)).phase
  unfold hbSendCb
  generalize hbSendLoop (s.srv i) (g.others i) = sent at hs ⊢
  dsimp only
  split_ifs
  · exact (phase_serverToFollower ..).trans hs
  · exact hs

theorem phase_pollVoteRequests (ackOk : Bool) (srv : Server) :
    (pollVoteRequests g i ackOk srv).srv.phase = srv.phase := by
  unfold pollVoteRequests
  generalize bestSid g i srv = first
  dsimp only
  split_ifs
  · rfl
  · rfl
  · rfl
  · rfl
  · exact (phase_ackOrStartElection ..).trans (sameBallot_giveVote _).phase

theorem phase_pollVoteCount (srv : Server) : (pollVoteCount g i srv).srv.phase = srv.phase := by
  have hs := (sameBallot_foldl_voteCountBody (g.others i) srv 1).phase
  unfold pollVoteCount
  generalize (g.others i).foldl voteCountBody (srv, 1) = counted at hs ⊢
  obtain ⟨next, count⟩ := counted
  dsimp only at hs ⊢
  split_ifs
  · exact hs
  · refine ((SameBallot.restore (.refl _)).phase.trans ?_).trans hs
    exact (sameBallot_applyCommittedEntries (i := i) { next with sid := sidSetL next.sid }).phase

theorem phase_getTailqMessage (srv : Server) :
    (getTailqMessage i srv).srv.phase = srv.phase := by
  have hf : ∀ (reqs : List Request) (eff : Effect), (reqs.foldl (fun eff r => eff.andThen
      (appendEntry i r.reqId r.connId r.type (.cmd r.cmd))) eff).srv.phase = eff.srv.phase := by
    intro reqs
    induction reqs with
    | nil => exact fun _ => rfl
    | cons r reqs ih => exact fun eff => ih _
  exact hf _ _

/-! ### Steps -/

theorem phase_perform {eff : Effect} (h : eff.srv.phase = (s.srv i).phase) (p : ℕ) :
    ((s.perform i eff).srv p).phase = (s.srv p).phase := by
  by_cases hp : p = i
  · subst hp
    rw [State.perform_srv_self, h]
  · rw [State.perform_srv_of_ne _ _ _ hp]

/-- Only `boot` makes a server take part. -/
theorem phase_of_step {e : Event} (hex : e.isExcluded = false)
    (hs : step g s e = some s') (p : ℕ) : (s'.srv p).phase = (s.srv p).phase ∨
      (s'.srv p).phase = .alone ∨ e = .boot p := by
  unfold step at hs
  cases e with
  | restart | getReplicatedVote | pollSmReply | recoverLogOffsets | recoverLogEntries
  | verifyLeadership => cases hex
  | boot i =>
    obtain ⟨-, -, rfl⟩ := runBy_eq_some.mp hs
    by_cases hp : p = i
    · exact .inr (.inr (by rw [hp]))
    · exact .inl (by rw [State.perform_srv_of_ne _ _ _ hp])
  | singleStart i =>
    obtain ⟨-, -, rfl⟩ := runBy_eq_some.mp hs
    by_cases hp : p = i
    · subst hp
      exact .inr (.inl (by rw [State.perform_srv_self]))
    · exact .inl (by rw [State.perform_srv_of_ne _ _ _ hp])
  | sendSmRequest i | pollSmRequests i | submit i | toAdjust i | appendHead i =>
    obtain ⟨-, -, rfl⟩ := runBy_eq_some.mp hs
    exact .inl (phase_perform rfl p)
  | hbReceive i ackOk =>
    obtain ⟨-, -, rfl⟩ := runBy_eq_some.mp hs
    exact .inl (phase_perform (phase_hbReceiveCb ..) p)
  | hbSend i ackOk =>
    obtain ⟨-, -, rfl⟩ := runBy_eq_some.mp hs
    exact .inl (phase_perform (phase_hbSendCb _) p)
  | pollVoteRequests i ackOk =>
    obtain ⟨-, -, rfl⟩ := runBy_eq_some.mp hs
    exact .inl (phase_perform (phase_pollVoteRequests ..) p)
  | pollVoteCount i =>
    obtain ⟨-, -, rfl⟩ := runBy_eq_some.mp hs
    exact .inl (phase_perform (phase_pollVoteCount _) p)
  | getTailqMessage i =>
    obtain ⟨-, -, rfl⟩ := runBy_eq_some.mp hs
    exact .inl (phase_perform (phase_getTailqMessage _) p)
  | applyEntries i =>
    obtain ⟨-, -, rfl⟩ := runBy_eq_some.mp hs
    exact .inl (phase_perform (sameBallot_applyCommittedEntries _).phase p)
  | logAdjustment i j =>
    obtain ⟨-, -, -, -, rfl⟩ := towards_eq_some.mp hs
    exact .inl (phase_perform (sameBallot_logAdjustment _ _).phase p)
  | updateRemoteLog i j =>
    obtain ⟨-, -, -, -, rfl⟩ := towards_eq_some.mp hs
    exact .inl (phase_perform (sameBallot_updateRemoteLog _ _).phase p)
  | advanceCommit i =>
    obtain ⟨-, -, rfl⟩ := runBy_eq_some.mp hs
    exact .inl (phase_perform (sameBallot_advanceCommit _).phase p)
  | updateRemoteCommit i j =>
    obtain ⟨-, -, -, -, rfl⟩ := towards_eq_some.mp hs
    exact .inl (phase_perform (sameBallot_updateRemoteCommit _ _).phase p)
  | pollCompletion i j =>
    obtain ⟨-, -, e, he, rfl⟩ := runPartial_eq_some.mp hs
    obtain ⟨srv, hsrv, rfl⟩ := map_eq_some_iff.mp he
    exact .inl (phase_perform (sameBallot_pollCompletion hsrv).phase p)
  | ctrlFailure i j =>
    obtain ⟨-, -, -, -, rfl⟩ := towards_eq_some.mp hs
    exact .inl (phase_perform rfl p)
  | logExec i j ok =>
    dsimp only at hs
    split at hs
    · cases hs
    · split_ifs at hs
      obtain rfl := Option.some.inj hs
      exact .inl (sameBallot_execRequest _ _ _ _ _ p).phase
  | logFail i j =>
    dsimp only at hs
    split at hs
    · cases hs
    · obtain ⟨-, -, -, -, rfl⟩ := towards_eq_some.mp hs
      exact .inl (phase_perform (sameBallot_popRequest _ _ _ _).phase p)
  | deliver m =>
    dsimp only at hs
    split_ifs at hs
    obtain rfl := Option.some.inj hs
    rcases m.land_cases s.srv p with he | ⟨_, _, -, he⟩ | ⟨_, _, -, he⟩ | ⟨_, _, _, -, he⟩ |
      ⟨_, _, -, he⟩ | ⟨_, -, he⟩ | ⟨_, _, -, he⟩ <;> left <;> dsimp only <;> rw [he]
  | drop m =>
    dsimp only at hs
    split_ifs at hs
    obtain rfl := Option.some.inj hs
    exact .inl rfl

theorem Phases.step {e : Event} (h : Phases g s) (hterm : TermsBelow g s) (hg : Grows s s')
    (hex : e.isExcluded = false) (hs : step g s e = some s') : Phases g s' := by
  intro p
  rcases phase_of_step hex hs p with hp | hp | rfl
  · exact ⟨fun hph => ((h p).term_pos (hp.symm.trans hph)).trans_le (hg.term p),
      fun hph => (h p).several (hp.symm.trans hph)⟩
  · have hne : (s'.srv p).phase ≠ .recovered := by simp [hp]
    exact ⟨fun hph => absurd hph hne, fun hph => absurd hph hne⟩
  · unfold Dare.step at hs
    obtain ⟨hi, hguard, rfl⟩ := runBy_eq_some.mp hs
    simp only [Bool.and_eq_true, bne_iff_ne] at hguard
    refine ⟨fun _ => ?_, fun _ => hguard.1⟩
    rw [State.perform_srv_self]
    change 0 < sidGetTerm (startSid p (s.srv p).sid)
    rw [startSid_eq (g.idx_lt hi) (hterm p hi), sidGetTerm_mk (g.idx_lt hi)]
    exact Nat.succ_pos _

theorem phases_init (g : Group) : Phases g (.init g) := fun _ => ⟨nofun, nofun⟩

end VmFt.Dare
