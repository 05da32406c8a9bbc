import VmFt.Lib.Majority
import VmFt.Dare.Votes

/-! # At most one leader a term

A vote ACK carries no term. As long as an ACK is counted only in the term in
which it was given, every leader has the support of a majority of servers in
its term, and a server supports nobody else.
-/

namespace VmFt.Dare

open List

variable {g : Group} {r : Rules} {s s' : State} {i j p t c c' : ℕ}

/-- Server `p` stands by candidate `c` in term `t`: it is `c`, or it voted for `c`. -/
def Supports (tr : List Obs) (t c p : ℕ) : Prop :=
  (p = c ∧ Entered tr c t) ∨ .voted p t c ∈ tr

theorem SidInv.supports_unique (h : SidInv g s) (hc : Supports s.trace t c p)
    (hc' : Supports s.trace t c' p) : c = c' := by
  rcases hc with ⟨rfl, he⟩ | hv <;> rcases hc' with ⟨rfl, he'⟩ | hv'
  · rfl
  · exact absurd he (h.voted_entered p t c' hv')
  · exact absurd he' (h.voted_entered p t c hv)
  · exact h.voted_unique p t c c' hv hv'

theorem Supports.mono {tr tr' : List Obs} (h : Supports tr t c p) (hsub : ∀ o ∈ tr, o ∈ tr') :
    Supports tr' t c p :=
  h.imp (And.imp_right fun he => he.mono hsub) (hsub _)

def Stands (i : ℕ) (srv : Server) : Prop := sidGetIdx srv.sid = i ∧ sidGetL srv.sid = false

/-- An ACK of server `j` for server `c`: a vote, or access given to an elected leader. -/
def AckOk (tr : List Obs) (j c t : ℕ) : Prop :=
  .voted j t c ∈ tr ∨ .elected c t ∈ tr ∨ t = 0

structure VoteInv (g : Group) (s : State) : Prop where
  entered_pos : ∀ p t, Entered s.trace p t → 0 < t
  acks : ∀ i < g.size, Stands i (s.srv i) → ∀ j < g.size, j ≠ i →
    (s.srv i).voteAck j ≠ none → .voted j (sidGetTerm (s.srv i).sid) i ∈ s.trace
  sent : ∀ j c k t, .voteAck j c k t ∈ s.net → AckOk s.trace j c t
  elected : ∀ c t, .elected c t ∈ s.trace → g.size = 1 ∨ Majority g.size (Supports s.trace t c)

theorem AckOk.mono {tr tr' : List Obs} (h : AckOk tr j c t) (hsub : ∀ o ∈ tr, o ∈ tr') :
    AckOk tr' j c t :=
  h.imp (hsub _) (Or.imp_left (hsub _))

theorem VoteInv.entered_pos_of_grows (h : VoteInv g s) (hg : Grows s s')
    (he : Entered s'.trace p t) : 0 < t := by
  rcases hg.fresh p t he with hold | hlt
  · exact h.entered_pos p t hold
  · exact Nat.zero_lt_of_lt hlt

structure VoteEffect (g : Group) (s : State) (i : ℕ) (eff : Effect) : Prop where
  acks : Stands i eff.srv → NoAcks g i eff.srv ∨
    eff.srv.sid = (s.srv i).sid ∧ eff.srv.voteAck = (s.srv i).voteAck
  sent : ∀ j c k t, .voteAck j c k t ∈ eff.sent → AckOk s.trace j c t
  elected : ∀ c t, .elected c t ∈ eff.seen →
    g.size = 1 ∨ Majority g.size (Supports s.trace t c)

theorem VoteInv.perform {eff : Effect} (h : VoteInv g s) (hg : Grows s (s.perform i eff))
    (he : VoteEffect g s i eff) : VoteInv g (s.perform i eff) := by
  have hsub := hg.trace
  constructor
  case entered_pos => exact fun p t he => h.entered_pos_of_grows hg he
  case acks =>
    intro k hlt hk j hj hne hack
    by_cases hki : k = i
    · subst hki
      rw [State.perform_srv_self] at hk hack ⊢
      rcases he.acks hk with hno | ⟨hsid, hs⟩
      · exact absurd (hno j hj hne) hack
      · rw [hsid]
        refine hsub _ (h.acks k hlt ?_ j hj hne (hs ▸ hack))
        simpa only [Stands, hsid] using hk
    · rw [State.perform_srv_of_ne _ _ _ hki] at hk hack ⊢
      exact hsub _ (h.acks k hlt hk j hj hne hack)
  case sent =>
    intro j c k t hm
    rcases mem_append.mp hm with hm | hm
    · exact (h.sent j c k t hm).mono hsub
    · exact (he.sent j c k t hm).mono hsub
  case elected =>
    intro c t ht
    rcases mem_append.mp ht with ht | ht
    · exact (h.elected c t ht).imp_right fun hmaj => hmaj.mono fun p _ hp => hp.mono hsub
    · exact (he.elected c t ht).imp_right fun hmaj => hmaj.mono fun p _ hp => hp.mono hsub

section VoteEffect

variable {eff : Effect}

theorem VoteEffect.same (hsid : eff.srv.sid = (s.srv i).sid)
    (hack : eff.srv.voteAck = (s.srv i).voteAck)
    (hse : ∀ j c k t, .voteAck j c k t ∉ eff.sent) (hs : ∀ c t, .elected c t ∉ eff.seen) :
    VoteEffect g s i eff where
  acks _ := .inr ⟨hsid, hack⟩
  sent j c k t hm := absurd hm (hse j c k t)
  elected c t hm := absurd hm (hs c t)

theorem VoteEffect.quiet {srv : Server} (hs : SameBallot (s.srv i) srv) :
    VoteEffect g s i (.quiet srv) :=
  .same hs.sid hs.voteAck (fun _ _ _ _ => not_mem_nil) fun _ _ => not_mem_nil

theorem VoteEffect.notStanding (h : ¬ Stands i eff.srv)
    (hsn : ∀ j c k t, .voteAck j c k t ∉ eff.sent) (hse : ∀ c t, .elected c t ∉ eff.seen) :
    VoteEffect g s i eff where
  acks hs := absurd hs h
  sent j c k t hm := absurd hm (hsn j c k t)
  elected c t hm := absurd hm (hse c t)

theorem elected_not_mem_of_aboutLog {seen : List Obs} (h : ∀ o ∈ seen, AboutLog o) (c t : ℕ) :
    .elected c t ∉ seen := by
  intro hm
  cases h _ hm

theorem entered_of_genuine {w : ℕ} (hi : i < g.size) (hgen : Genuine s.trace w)
    (hidx : sidGetIdx w = i) (hl : sidGetL w = false) :
    w = sidMk (sidGetTerm w) false i ∧ Entered s.trace i (sidGetTerm w) := by
  rw [Genuine, if_neg (by simp [hl]), hidx] at hgen
  refine ⟨?_, hgen.resolve_left ?_⟩
  · rw [← hidx, ← hl]
    exact sidMk_eta w
  · rintro rfl
    have := g.size_le
    simp only [sidGetIdx_eq, sidNull] at hidx
    omega

theorem SidInv.entered_of_stands (h : SidInv g s) (hi : i < g.size) (hst : Stands i (s.srv i)) :
    Entered s.trace i (sidGetTerm (s.srv i).sid) :=
  (entered_of_genuine hi (h.genuine i) hst.1 hst.2).2

theorem SidInv.not_elected (h : SidInv g s) (hv : VoteInv g s) (hi : i < g.size)
    (hst : Stands i (s.srv i)) :
    ¬ (.elected i (sidGetTerm (s.srv i).sid) ∈ s.trace ∨ sidGetTerm (s.srv i).sid = 0) := by
  obtain ⟨hsid, hent⟩ := entered_of_genuine hi (h.genuine i) hst.1 hst.2
  rintro (hel | h0)
  · have hle := (h.elected_le i _ hel).2
    rw [sidMk] at hle hsid
    simp only [if_true, Bool.false_eq_true, if_false] at hle hsid
    omega
  · exact absurd h0 (hv.entered_pos i _ hent).ne'

theorem SidInv.eq_of_stands {w : ℕ} (h : SidInv g s) (hi : i < g.size)
    (hgen : Genuine s.trace w) (hle : (s.srv i).sid ≤ w) (hidx : sidGetIdx w = i)
    (hl : sidGetL w = false) : w = (s.srv i).sid := by
  obtain ⟨hsid, hent⟩ := entered_of_genuine hi hgen hidx hl
  refine le_antisymm ?_ hle
  rw [hsid]
  exact h.entered_le i _ hent

theorem voteEffect_adopt {w : ℕ} (h : SidInv g s) (hi : i < g.size) (hgen : Genuine s.trace w)
    (hle : (s.srv i).sid ≤ w) : VoteEffect g s i (.quiet { s.srv i with sid := w }) where
  acks hst := .inr ⟨h.eq_of_stands hi hgen hle hst.1 hst.2, rfl⟩
  sent _ _ _ _ hm := absurd hm not_mem_nil
  elected _ _ hm := absurd hm not_mem_nil

theorem voteEffect_ack (h : SidInv g s) (hack : sidGetL (s.srv i).sid ∨
      .voted i (sidGetTerm (s.srv i).sid) (sidGetIdx (s.srv i).sid) ∈ s.trace) :
    VoteEffect g s i ⟨s.srv i, rcSendVoteAck g i (s.srv i), []⟩ where
  acks _ := .inr ⟨rfl, rfl⟩
  sent j c k t hm := by
    unfold rcSendVoteAck at hm
    dsimp only at hm
    split_ifs at hm
    · obtain ⟨rfl, rfl, -, rfl⟩ : j = i ∧ c = _ ∧ k = _ ∧ t = _ := by simpa using hm
      rcases hack with hl | hv
      · have hgen := h.genuine j
        rw [Genuine, if_pos hl] at hgen
        exact .inr hgen
      · exact .inl hv
    · exact absurd hm not_mem_nil
  elected _ _ hm := absurd hm not_mem_nil

theorem voteEffect_vote {reqs : ℕ → VoteReq} (h : SidInv g s)
    (hlt : sidSetL (s.srv i).sid < ((s.srv i).voteReq c).sid) :
    VoteEffect g s i (giveVote g i ((s.srv i).voteReq c).sid
      { publishNcBuf i (rcRevokeLogAccess (s.srv i)) with voteReq := reqs }) := by
  obtain ⟨t, hc, hsid, hst, hterm⟩ := h.better_request hlt
  refine .notStanding ?_ (fun _ _ _ _ hm => ?_) fun _ _ hm => ?_
  · rintro ⟨hidx, -⟩
    rw [(sameBallot_giveVote _).sid] at hidx
    dsimp only at hidx
    rw [hsid, sidGetIdx_mk (g.idx_lt hc)] at hidx
    subst hidx
    have hle := sidGetTerm_mono (h.entered_le c t (.inl hst))
    rw [sidGetTerm_mk (g.idx_lt hc)] at hle
    omega
  · obtain ⟨_, -, ho⟩ := mem_map.mp hm
    cases ho
  · simp [giveVote] at hm

theorem voteEffect_win (h : SidInv g s) (hv : VoteInv g s) (hi : i < g.size)
    (hst : Stands i (s.srv i)) (hco : g.size / 2 + 1 ≤ voteCount g i (s.srv i)) :
    VoteEffect g s i ⟨{ s.srv i with sid := sidSetL (s.srv i).sid }, [],
      [.elected i (sidGetTerm (s.srv i).sid)]⟩ where
  acks hst' := by
    have hl : sidGetL (sidSetL (s.srv i).sid) = false := hst'.2
    simp [sidSetL_mk, sidGetIdx_lt] at hl
  sent _ _ _ _ hm := absurd hm not_mem_nil
  elected c t hm := by
    obtain ⟨rfl, rfl⟩ : c = i ∧ t = _ := by simpa using hm
    have hent := h.entered_of_stands hi hst
    refine .inr (Majority.of_cons ((g.others c).filter
      fun k => ((s.srv c).voteAck k).isSome) hi ?_ ?_ ?_ ?_ (.inl ⟨rfl, hent⟩) ?_)
    · exact fun k hk => (Group.mem_others.mp (mem_of_mem_filter hk)).1
    · exact fun hc => (Group.mem_others.mp (mem_of_mem_filter hc)).2 rfl
    · exact (nodup_range.filter _).filter _
    · rw [voteCount] at hco
      omega
    · intro k hk
      obtain ⟨hmem, hack⟩ := mem_filter.mp hk
      obtain ⟨hk, hne⟩ := Group.mem_others.mp hmem
      refine .inr (hv.acks c hi hst k hk hne ?_)
      exact Option.isSome_iff_ne_none.mp hack

theorem voteEffect_single (hs : g.size = 1) :
    VoteEffect g s 0 ⟨{ s.srv 0 with sid := sidMk 1 true 0 }, [], [.elected 0 1]⟩ where
  acks hst := by
    have hl : sidGetL (sidMk 1 true 0) = false := hst.2
    cases hl
  sent _ _ _ _ hm := absurd hm not_mem_nil
  elected _ _ _ := .inl hs

end VoteEffect

theorem VoteInv.environment (h : VoteInv g s) (htr : s'.trace = s.trace)
    (hnet : ∀ m ∈ s'.net, m ∈ s.net) (hsid : ∀ p, (s'.srv p).sid = (s.srv p).sid)
    (hack : ∀ i < g.size, Stands i (s.srv i) → ∀ j < g.size, j ≠ i → (s'.srv i).voteAck j ≠ none →
      (s.srv i).voteAck j ≠ none ∨ .voted j (sidGetTerm (s.srv i).sid) i ∈ s.trace) :
    VoteInv g s' where
  entered_pos := htr ▸ h.entered_pos
  acks i hi hst j hj hne ha := by
    have hst' : Stands i (s.srv i) := by simpa only [Stands, hsid i] using hst
    rw [hsid, htr]
    rcases hack i hi hst' j hj hne ha with hold | hnew
    · exact h.acks i hi hst' j hj hne hold
    · exact hnew
  sent j c k t hm := htr ▸ h.sent j c k t (hnet _ hm)
  elected c t ht := by
    rw [htr] at ht ⊢
    exact h.elected c t ht

theorem VoteInv.deliver {m : Msg} (h : SidInv g s) (hv : VoteInv g s) (hm : m ∈ s.net)
    (hterm : ∀ i j c t, m = .voteAck i j c t → sidGetTerm (s.srv j).sid = t) :
    VoteInv g { s with srv := m.land s.srv, net := s.net.erase m } := by
  refine hv.environment rfl (fun m' hm' => mem_of_mem_erase hm') (m.land_steady s.srv · |>.1) ?_
  intro i hi hst j hj hne hack
  rcases m.land_cases s.srv i with he | ⟨_, _, -, he⟩ | ⟨_, _, -, he⟩ | ⟨k, c, t, rfl, he⟩ |
    ⟨_, _, -, he⟩ | ⟨_, -, he⟩ | ⟨_, _, -, he⟩ <;> simp only [he] at hack
  case inr.inr.inr.inl =>
    by_cases hjk : j = k
    · subst hjk
      rw [hterm _ _ _ _ rfl]
      refine .inr ((hv.sent j i c t hm).resolve_right ?_)
      rw [← hterm _ _ _ _ rfl]
      exact h.not_elected hv hi hst
    · rw [Function.update_of_ne hjk] at hack
      exact .inl hack
  all_goals exact .inl hack

theorem noAcks_becomeCandidate (srv : Server) : NoAcks g i (becomeCandidate g i srv) := by
  intro j hj _
  simp [becomeCandidate, hj]

theorem Move.voteInv (hr : r.vote) (h : SidInv g s) (hv : VoteInv g s) (hm : Move g r s s') :
    VoteInv g s' := by
  obtain ⟨-, hg⟩ := hm.sid h
  cases hm with
  | idle hi hidle =>
    exact hv.perform hg (.same hidle.sid hidle.voteAck (by simp [Effect.quiet])
      (by simp [Effect.quiet]))
  | setPhase _ hi _ _ =>
    exact hv.perform hg (.same rfl rfl (by simp [Effect.quiet]) (by simp [Effect.quiet]))
  | resetTail hi => exact hv.perform hg (.quiet (sameBallot_log _ _))
  | tell hi ht =>
    refine hv.perform hg (.same rfl rfl ?_ (by simp))
    cases ht <;> simp
  | start hi _ _ _ =>
    exact hv.perform hg ⟨fun _ => .inl (noAcks_becomeCandidate _), by simp, by simp⟩
  | request hi _ _ _ =>
    exact hv.perform hg (.same rfl rfl (by simp [rcSendVoteRequest]) (by simp [rcSendVoteRequest]))
  | refresh hi => exact hv.perform hg (.quiet (sameBallot_grantAccess _))
  | follow hi _ hl _ _ _ =>
    refine hv.perform hg (.notStanding ?_ (by simp [Effect.quiet]) (by simp [Effect.quiet]))
    rintro ⟨-, hl'⟩
    rw [Effect.quiet, (sameBallot_grantAccess _).sid] at hl'
    exact absurd (hl.symm.trans hl') (by simp)
  | adopt hi _ hgen hle _ _ => exact hv.perform hg (voteEffect_adopt h hi hgen hle)
  | vote hi _ _ hlt _ => exact hv.perform hg (voteEffect_vote h hlt)
  | bump hi _ _ _ _ _ hno => exact hv.perform hg ⟨fun _ => .inl (hno hr), by simp, by simp⟩
  | ack hi hack => exact hv.perform hg (voteEffect_ack h hack)
  | countAck _ hi =>
    exact hv.perform hg (.quiet (sameBallot_voteCountBody _ _ _))
  | win hi _ hidx hl hc => exact hv.perform hg (voteEffect_win h hv hi ⟨hidx, hl⟩ hc)
  | single hsi _ _ => exact hv.perform hg (voteEffect_single hsi)
  | join _ _ hno _ _ => exact absurd hr hno
  | load _ _ hno => exact absurd hr hno
  | append _ _ _ _ hi _ =>
    exact hv.perform hg (.same rfl rfl (by simp [appendEntry])
      (elected_not_mem_of_aboutLog aboutLog_appendEntry))
  | @apply i hi =>
    have hs := sameBallot_applyCommittedEntries (i := i) (s.srv i)
    exact hv.perform hg (.same hs.sid hs.voteAck
      (by simp [applyCommittedEntries, apply_ite Effect.sent, Effect.quiet])
      (elected_not_mem_of_aboutLog aboutLog_applyCommittedEntries))
  | openLogs hi => exact hv.perform hg (.quiet (SameBallot.restore (.refl _)))
  | replicate hi hf =>
    refine hv.perform hg (.quiet ?_)
    rcases hf with rfl | rfl | rfl
    · exact (sameBallot_logAdjustment _ _)
    · exact (sameBallot_updateRemoteLog _ _)
    · exact (sameBallot_updateRemoteCommit _ _)
  | commit hi => exact hv.perform hg (.quiet (sameBallot_advanceCommit _))
  | complete _ _ _ hi =>
    refine hv.perform hg (.quiet (sameBallot_handleLrWorkCompletion ?_))
    exact { SameBallot.refl _ with }
  | exec _ _ _ _ _ =>
    refine hv.environment rfl (fun _ hm => hm) (fun p => (sameBallot_execRequest _ _ _ _ _ p).sid)
      fun i _ _ j _ _ hack => .inl ?_
    rwa [← (sameBallot_execRequest _ _ _ _ _ i).voteAck]
  | fail _ hi => exact hv.perform hg (.quiet (sameBallot_popRequest _ _ _ _))
  | deliver hm hterm => exact hv.deliver h hm (hterm hr)
  | drop hm =>
    exact hv.environment rfl (fun m hm' => mem_of_mem_erase hm') (fun _ => rfl)
      fun _ _ _ _ _ _ hack => .inl hack

/-! ### Runs -/

/-- In every step: an ACK arrives only in the term in which it was given; a server that polls a
candidate with a better SID and a worse log holds no ACK; and nobody joins or restarts. -/
def FreshAcks (g : Group) (s : State) : Event → Prop
  | .restart _ | .getReplicatedVote .. | .pollSmReply .. | .recoverLogOffsets ..
  | .recoverLogEntries .. => False
  | .deliver (.voteAck _ j _ t) => sidGetTerm (s.srv j).sid = t
  | .pollVoteRequests i _ => WorseRival g i (s.srv i) → NoAcks g i (s.srv i)
  | _ => True

def CleanElections (g : Group) (s : State) (e : Event) : Prop :=
  TermsBelow g s ∧ FreshAcks g s e

def voteRules : Rules := ⟨True, False⟩

theorem FreshAcks.keeps {e : Event} (h : FreshAcks g s e) : Keeps g voteRules s e := by
  cases e with
  | deliver m => cases m <;> simp_all [Keeps, FreshAcks, voteRules]
  | _ => simp_all [Keeps, FreshAcks, voteRules]

theorem voteInv_init (g : Group) : VoteInv g (.init g) where
  entered_pos p t h := by rcases h with h | h <;> exact absurd h not_mem_nil
  acks i hi hst := by
    have hidx : sidGetIdx sidNull = i := hst.1
    have := g.size_le
    simp only [sidGetIdx_eq, sidNull] at hidx
    omega
  sent _ _ _ _ hm := absurd hm not_mem_nil
  elected _ _ hm := absurd hm not_mem_nil

theorem Moves.voteInv (hr : r.vote) (h : SidInv g s) (hv : VoteInv g s) (hm : Moves g r s s') :
    VoteInv g s' := by
  induction hm with
  | refl => exact hv
  | tail hms hm ih => exact hm.voteInv hr (Moves.sid h hms).1 ih

theorem voteInv_of_run (h : (group g).Run (CleanElections g) (.init g) s) :
    SidInv g s ∧ VoteInv g s := by
  refine h.invariant (I := fun s => SidInv g s ∧ VoteInv g s) ⟨sidInv_init g, voteInv_init g⟩ ?_
  rintro a e b ⟨hinv, hv⟩ ⟨hterm, ha⟩ he
  have hm := moves_of_step hinv hterm ha.keeps he
  exact ⟨(hm.sid hinv).1, hm.voteInv trivial hinv hv⟩

theorem elected_unique (h : SidInv g s) (hv : VoteInv g s) (hc : .elected c t ∈ s.trace)
    (hc' : .elected c' t ∈ s.trace) : c = c' := by
  rcases hv.elected c t hc with hone | hmaj
  · have := (h.elected_le c t hc).1
    have := (h.elected_le c' t hc').1
    omega
  · rcases hv.elected c' t hc' with hone | hmaj'
    · have := (h.elected_le c t hc).1
      have := (h.elected_le c' t hc').1
      omega
    · obtain ⟨p, -, hp, hp'⟩ := hmaj.inter hmaj'
      exact h.supports_unique hp hp'

/-- At most one server ever sets its SID to `[t|1|own index]`. -/
theorem at_most_one_leader (g : Group) {s : State}
    (h : (group g).Run (CleanElections g) (.init g) s) (t c c' : ℕ)
    (hc : .elected c t ∈ s.trace) (hc' : .elected c' t ∈ s.trace) : c = c' := by
  obtain ⟨hinv, hvote⟩ := voteInv_of_run h
  exact elected_unique hinv hvote hc hc'

section Decidable

variable (s)

instance (req : VoteReq) (last : ℕ × ℕ) : Decidable (UpToDate req last) :=
  inferInstanceAs (Decidable (_ ∨ _))

instance (srv : Server) : Decidable (WorseRival g i srv) :=
  inferInstanceAs (Decidable (∃ c < g.size, _))

instance (srv : Server) : Decidable (NoAcks g i srv) :=
  inferInstanceAs (Decidable (∀ j < g.size, _))

instance (e : Event) : Decidable (FreshAcks g s e) := by
  rcases e
  case deliver m => rcases m <;> (unfold FreshAcks; infer_instance)
  all_goals (unfold FreshAcks; infer_instance)

instance (e : Event) : Decidable (CleanElections g s e) :=
  inferInstanceAs (Decidable (_ ∧ _))

end Decidable

/-- Server 1 is elected in term 2. -/
theorem at_most_one_leader_trio :
    ∃ s, (group trio).Run (CleanElections trio) (.init trio) s ∧ .elected 1 2 ∈ s.trace ∧
      ∀ c, .elected c 2 ∈ s.trace → c = 1 := by
  obtain ⟨s, hrun, hel⟩ := System.exists_run_of_exec (M := group trio) (s := .init trio)
    (CleanElections trio) (p := fun s => .elected 1 2 ∈ s.trace)
    [.boot 0, .boot 1, .hbReceive 1 true,
      .deliver (.voteRequest 1 0 ⟨sidMk 2 false 1, 0, 0⟩), .pollVoteRequests 0 true,
      .deliver (.voteAck 0 1 0 2), .pollVoteCount 1]
    (by decide +kernel)
  exact ⟨s, hrun, hel, fun c hc => at_most_one_leader trio hrun 2 c 1 hc hel⟩

/-- Server 1, deposed in term 2, runs again in term 3 and gets the vote of server 0. Before it
counts, it prefers its own log to that of server 2 and moves to term 4, where server 0 votes for
server 2. Both count the ACKs they hold. -/
theorem two_leaders_trio : ∃ s, (group trio).Run System.anyStep (.init trio) s ∧
      .elected 1 4 ∈ s.trace ∧ .elected 2 4 ∈ s.trace :=
  System.exists_run_of_exec (M := group trio) (s := .init trio) System.anyStep
    (p := fun s => .elected 1 4 ∈ s.trace ∧ .elected 2 4 ∈ s.trace)
    [.boot 0, .boot 1, .boot 2, .hbReceive 1 true,
      .deliver (.voteRequest 1 0 ⟨sidMk 2 false 1, 0, 0⟩), .pollVoteRequests 0 true,
      .deliver (.voteAck 0 1 0 2), .pollVoteCount 1, .hbReceive 2 true, .hbReceive 2 true,
      .hbSend 1 true, .deliver (.heartbeat 1 2 (sidMk 2 true 1)), .hbReceive 2 true,
      .deliver (.heartbeat 2 1 (sidMk 3 false 2)), .hbSend 1 true, .hbReceive 1 true,
      .deliver (.voteRequest 1 0 ⟨sidMk 3 false 1, 1, 2⟩), .pollVoteRequests 0 true,
      .deliver (.voteAck 0 1 0 3),
      .deliver (.voteRequest 2 1 ⟨sidMk 4 false 2, 0, 0⟩), .pollVoteRequests 1 true,
      .deliver (.voteRequest 2 0 ⟨sidMk 4 false 2, 0, 0⟩), .pollVoteRequests 0 true,
      .deliver (.voteAck 0 2 0 4), .pollVoteCount 2, .pollVoteCount 1]
    (by decide +kernel)

end VmFt.Dare
