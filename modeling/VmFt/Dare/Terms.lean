import VmFt.Dare.Votes

/-! # Terms of a server between two restarts

A server may lose its memory and come back with a lower SID, and then even
heartbeats of the same term may lower the SID of another server. The term of a
server is more robust: between two restarts no function lowers it, and a vote
raises it.
-/

namespace VmFt.Dare

open List Function

variable {g : Group} {i j k w : ℕ} {srv srv' : Server} {eff eff' : Effect}

def Candidacy (req : VoteReq) : Prop := req.sid = 0 ∨ ∃ t p, p < 256 ∧ req.sid = sidMk t false p

def Low (w : ℕ) : Prop := sidGetTerm w + 1 < termLimit

theorem low_zero : Low 0 := by
  rw [Low]
  decide

/-- The SIDs other servers have written into the memory of a server, or it has read from them. -/
def Knows (srv : Server) (w : ℕ) : Prop :=
  Holds srv w ∨ (∃ k, w = srv.hb k) ∨ ∃ k, w = (srv.voteReq k).sid

def Msg.Carries (m : Msg) (w : ℕ) : Prop :=
  match m with
  | .heartbeat _ _ v => w = v
  | .voteRequest _ _ req => w = req.sid
  | .voteSid _ _ v => w = v
  | .smReply _ _ v => w = v
  | .voteAck _ _ _ _ => False
  | .smRequest _ _ => False

/-- What a function run by server `i` may do to its term, to its votes and to vote requests. -/
structure TermEffect (i : ℕ) (srv : Server) (eff : Effect) : Prop where
  joined : HasJoined eff.srv ↔ HasJoined srv
  le : sidGetTerm srv.sid ≤ sidGetTerm eff.srv.sid
  vote : ∀ p t c, .voted p t c ∈ eff.seen →
    p = i ∧ sidGetTerm srv.sid < t ∧ t ≤ sidGetTerm eff.srv.sid
  once : ∀ p t c c', .voted p t c ∈ eff.seen → .voted p t c' ∈ eff.seen → c = c'
  stays : ∀ p, .restarted p ∉ eff.seen
  reqs : (∀ k, Candidacy (srv.voteReq k)) → ∀ k, Candidacy (eff.srv.voteReq k)
  sentReqs : ∀ j k req, .voteRequest j k req ∈ eff.sent → Candidacy req
  known : ∀ w, Knows eff.srv w → Knows srv w ∨ sidGetTerm w ≤ sidGetTerm eff.srv.sid
  sent : ∀ m ∈ eff.sent, ∀ w, m.Carries w → sidGetTerm w ≤ sidGetTerm eff.srv.sid

theorem TermEffect.andThen {f : Server → Effect} (h : TermEffect i srv eff)
    (h' : TermEffect i eff.srv (f eff.srv)) : TermEffect i srv (eff.andThen f) where
  joined := h'.joined.trans h.joined
  le := h.le.trans h'.le
  vote p t c hm := by
    rcases mem_append.mp hm with hm | hm
    · obtain ⟨hp, hlt, hle⟩ := h.vote p t c hm
      exact ⟨hp, hlt, hle.trans h'.le⟩
    · obtain ⟨hp, hlt, hle⟩ := h'.vote p t c hm
      exact ⟨hp, h.le.trans_lt hlt, hle⟩
  once p t c c' hm hm' := by
    rcases mem_append.mp hm with hm | hm <;> rcases mem_append.mp hm' with hm' | hm'
    · exact h.once p t c c' hm hm'
    · exact absurd ((h.vote p t c hm).2.2) (not_le.mpr (h'.vote p t c' hm').2.1)
    · exact absurd ((h.vote p t c' hm').2.2) (not_le.mpr (h'.vote p t c hm).2.1)
    · exact h'.once p t c c' hm hm'
  stays p hm := (mem_append.mp hm).elim (h.stays p) (h'.stays p)
  reqs hreq := h'.reqs (h.reqs hreq)
  sentReqs j k req hm :=
    (mem_append.mp hm).elim (h.sentReqs j k req) (h'.sentReqs j k req)
  known w hw := by
    rcases h'.known w hw with hw | hle
    · exact (h.known w hw).imp_right fun hle => hle.trans h'.le
    · exact .inr hle
  sent m hm w hw := by
    rcases mem_append.mp hm with hm | hm
    · exact (h.sent m hm w hw).trans h'.le
    · exact h'.sent m hm w hw

structure Silent (srv : Server) (eff : Effect) : Prop where
  joined : HasJoined eff.srv ↔ HasJoined srv
  seen : ∀ o ∈ eff.seen, (∀ p t c, o ≠ .voted p t c) ∧ ∀ p, o ≠ .restarted p
  reqs : Dropped srv.voteReq eff.srv.voteReq
  sentReqs : ∀ j k req, .voteRequest j k req ∉ eff.sent

theorem Silent.termEffect (h : Silent srv eff) (hle : sidGetTerm srv.sid ≤ sidGetTerm eff.srv.sid)
    (hk : ∀ w, Knows eff.srv w → Knows srv w ∨ sidGetTerm w ≤ sidGetTerm eff.srv.sid)
    (hs : ∀ m ∈ eff.sent, ∀ w, m.Carries w → sidGetTerm w ≤ sidGetTerm eff.srv.sid) :
    TermEffect i srv eff where
  joined := h.joined
  le := hle
  vote p t c hm := absurd rfl ((h.seen _ hm).1 p t c)
  once p t c _ hm := absurd rfl ((h.seen _ hm).1 p t c)
  stays p hm := absurd rfl ((h.seen _ hm).2 p)
  reqs hreq k := by
    rcases h.reqs k with heq | h0
    · exact heq ▸ hreq k
    · exact .inl h0
  sentReqs j k req hm := absurd hm (h.sentReqs j k req)
  known := hk
  sent := hs

theorem SameBallot.knows (h : SameBallot srv srv') (hw : Knows srv' w) : Knows srv w := by
  simpa only [Knows, h.hb, h.voteReq] using hw.imp_left h.holds

theorem TermEffect.quiet (hs : SameBallot srv srv') : TermEffect i srv (.quiet srv') := by
  refine Silent.termEffect ⟨?_, ?_, ?_, ?_⟩ (by rw [Effect.quiet, hs.sid])
    (fun w hw => .inl (hs.knows hw)) (by simp [Effect.quiet])
  · simp [HasJoined, Effect.quiet, hs.phase]
  · simp [Effect.quiet]
  · exact fun k => .inl (by rw [Effect.quiet, hs.voteReq])
  · simp [Effect.quiet]

/-! ### Elections and followers -/

theorem knows_becomeCandidate (hw : Knows (becomeCandidate g i srv) w) : Knows srv w := hw

theorem termEffect_rcSendVoteRequest (hi : i < 256) (hl : sidGetL srv.sid = false)
    (hidx : sidGetIdx srv.sid = i) : TermEffect i srv (rcSendVoteRequest g i srv) := by
  have hreq : Candidacy ⟨srv.sid, (logLast srv.log).1, (logLast srv.log).2⟩ := by
    refine .inr ⟨sidGetTerm srv.sid, i, hi, ?_⟩
    rw [← hl, ← hidx]
    exact sidMk_eta _
  unfold rcSendVoteRequest
  constructor
  case joined => rfl
  case le => exact le_rfl
  case vote => simp
  case once => simp
  case stays => simp
  case reqs =>
    intro h k
    by_cases hk : k = i
    · subst hk
      simpa only [update_self] using hreq
    · simpa only [update_of_ne hk] using h k
  case sentReqs =>
    intro j k req hm
    obtain ⟨_, -, heq⟩ := mem_map.mp hm
    obtain ⟨-, -, rfl⟩ := Msg.voteRequest.inj heq
    exact hreq
  case known =>
    rintro w (hw | hw | ⟨k, rfl⟩)
    · exact .inl (.inl hw)
    · exact .inl (.inr (.inl hw))
    · by_cases hk : k = i
      · subst hk
        exact .inr (by simp)
      · exact .inl (.inr (.inr ⟨k, by simp only [update_of_ne hk]⟩))
  case sent =>
    rintro m hm w hw
    obtain ⟨_, -, rfl⟩ := mem_map.mp hm
    rw [show w = srv.sid from hw]

theorem termEffect_startElection (hi : i < 256) (hlow : Low srv.sid) :
    TermEffect i srv (startElection g i srv) := by
  have hsid : (becomeCandidate g i srv).sid = sidMk (sidGetTerm srv.sid + 1) false i :=
    startSid_eq hi hlow
  have hfirst : TermEffect i srv ⟨becomeCandidate g i srv, [],
      [.started i (sidGetTerm (becomeCandidate g i srv).sid)]⟩ := by
    refine Silent.termEffect ⟨Iff.rfl, by simp, fun _ => .inl rfl, by simp⟩ ?_
      (fun w hw => .inl (knows_becomeCandidate hw)) (by simp)
    rw [hsid, sidGetTerm_mk hi]
    omega
  exact hfirst.andThen (termEffect_rcSendVoteRequest hi (by rw [hsid, sidGetL_mk hi])
    (by rw [hsid, sidGetIdx_mk hi]))

theorem rcSendVoteAck_mem {m : Msg} (hm : m ∈ rcSendVoteAck g i srv) :
    ∃ c k t, m = .voteAck i c k t := by
  unfold rcSendVoteAck at hm
  dsimp only at hm
  split_ifs at hm
  · exact ⟨_, _, _, mem_singleton.mp hm⟩
  · exact absurd hm not_mem_nil

theorem termEffect_sendAck (ev : HbEvent) :
    TermEffect i srv ⟨{ srv with hbEvent := ev }, rcSendVoteAck g i srv, []⟩ := by
  refine Silent.termEffect ⟨Iff.rfl, by simp, fun _ => .inl rfl, fun j k req hm => ?_⟩ le_rfl
    (fun w hw => .inl hw) fun m hm w hw => ?_
  · obtain ⟨_, _, _, heq⟩ := rcSendVoteAck_mem hm
    cases heq
  · obtain ⟨_, _, _, rfl⟩ := rcSendVoteAck_mem hm
    exact hw.elim

theorem termEffect_ackOrStartElection (hi : i < 256) (ackOk : Bool) (hlow : Low srv.sid) :
    TermEffect i srv (ackOrStartElection g i ackOk srv) := by
  unfold ackOrStartElection
  dsimp only
  split_ifs
  · exact TermEffect.andThen (termEffect_sendAck srv.hbEvent) (termEffect_startElection hi hlow)
  · exact termEffect_sendAck .receive

theorem termEffect_serverToFollower (hi : i < 256) (ackOk : Bool) (hlow : Low srv.sid) :
    TermEffect i srv (serverToFollower g i ackOk srv) := by
  obtain ⟨next, hn⟩ : ∃ next, next = grantAccess g i { srv with hbEvent := .off } := ⟨_, rfl⟩
  have hg : SameBallot { srv with hbEvent := .off } next := hn ▸ sameBallot_grantAccess _
  have hoff : SameBallot srv { srv with hbEvent := .off } :=
    { SameBallot.refl _ with }
  have hs := hoff.trans hg
  have hdef : serverToFollower g i ackOk srv = (Effect.quiet next).andThen fun next =>
      if sidGetL next.sid then ackOrStartElection g i ackOk next
      else .quiet { next with hbEvent := .receive } := by
    rw [hn]
    rfl
  rw [hdef]
  refine (TermEffect.quiet hs).andThen ?_
  rw [Effect.quiet]
  split_ifs
  · exact termEffect_ackOrStartElection hi ackOk (by rwa [Low, hs.sid])
  · exact .quiet { SameBallot.refl _ with }

theorem termEffect_setSid (hle : sidGetTerm srv.sid ≤ sidGetTerm w) :
    TermEffect i srv (.quiet { srv with sid := w }) :=
  Silent.termEffect ⟨Iff.rfl, by simp [Effect.quiet], fun _ => .inl rfl, by simp [Effect.quiet]⟩
    hle (fun _ hw => .inl hw) (by simp [Effect.quiet])

/-! ### Heartbeats -/

structure HbLoopLe (i : ℕ) (srv : Server) (st : HbLoop) : Prop where
  phase : st.srv.phase = srv.phase
  sid : st.srv.sid = srv.sid
  voteReq : st.srv.voteReq = srv.voteReq
  known : ∀ w, Knows st.srv w → Knows srv w ∨ w = 0
  le : srv.sid ≤ st.newSid
  newSid : st.newSid = srv.sid ∨ Knows srv st.newSid
  replies : ∀ m ∈ st.replies, ∃ k, m = .heartbeat i k srv.sid

theorem knows_reset_hb (hw : Knows { srv with hb := Function.update srv.hb k 0 } w) :
    Knows srv w ∨ w = 0 := by
  rcases hw with hw | ⟨j, rfl⟩ | hw
  · exact .inl (.inl hw)
  · by_cases hj : j = k
    · subst hj
      exact .inr (by simp)
    · exact .inl (.inr (.inl ⟨j, by simp only [update_of_ne hj]⟩))
  · exact .inl (.inr (.inr hw))

theorem knows_fetchHb {leader : ℕ} (hw : Knows (fetchHb leader k srv).2 w) :
    Knows srv w ∨ w = 0 := by
  unfold fetchHb at hw
  split_ifs at hw
  · rcases hw with (hw | hw) | hw
    · exact .inr hw
    · exact .inl (.inl (.inr hw))
    · exact .inl (.inr hw)
  · exact knows_reset_hb hw
  · exact knows_reset_hb hw

theorem fetchHb_spec (leader k : ℕ) (srv : Server) :
    (fetchHb leader k srv).2.phase = srv.phase ∧ (fetchHb leader k srv).2.sid = srv.sid ∧
      (fetchHb leader k srv).2.voteReq = srv.voteReq ∧ Knows srv (fetchHb leader k srv).1 := by
  unfold fetchHb
  split_ifs
  · exact ⟨rfl, rfl, rfl, .inl (.inl rfl)⟩
  · exact ⟨rfl, rfl, rfl, .inr (.inl ⟨k, rfl⟩)⟩
  · exact ⟨rfl, rfl, rfl, .inr (.inl ⟨k, rfl⟩)⟩

theorem HbLoopLe.body {st : HbLoop} (h : HbLoopLe i srv st) (leader k : ℕ) :
    HbLoopLe i srv (hbReceiveBody i leader st k) := by
  obtain ⟨hph, hsid, hreq, hval⟩ := fetchHb_spec leader k st.srv
  have hk : ∀ w, Knows (fetchHb leader k st.srv).2 w → Knows srv w ∨ w = 0 :=
    fun w hw => (knows_fetchHb hw).elim (h.known w) .inr
  unfold hbReceiveBody
  generalize fetchHb leader k st.srv = fetched at hph hsid hreq hval hk ⊢
  obtain ⟨hb, next⟩ := fetched
  dsimp only at hph hsid hreq hval hk ⊢
  have hph' := hph.trans h.phase
  have hsid' := hsid.trans h.sid
  have hreq' := hreq.trans h.voteReq
  split_ifs with h0 hlt hl hl
  · exact ⟨hph', hsid', hreq', hk, h.le, h.newSid, h.replies⟩
  · refine ⟨hph', hsid', hreq', hk, h.le, h.newSid, fun m hm => ?_⟩
    rcases mem_append.mp hm with hm | hm
    · exact h.replies m hm
    · exact ⟨k, by rw [mem_singleton.mp hm, hsid']⟩
  · exact ⟨hph', hsid', hreq', hk, h.le, h.newSid, h.replies⟩
  · refine ⟨hph', hsid', hreq', hk, h.le.trans (not_lt.mp hlt), .inr ?_, h.replies⟩
    exact (h.known hb hval).resolve_right h0
  · exact ⟨hph', hsid', hreq', hk, h.le, h.newSid, h.replies⟩

theorem HbLoopLe.foldl (leader : ℕ) (ks : List ℕ) {st : HbLoop} (h : HbLoopLe i srv st) :
    HbLoopLe i srv (ks.foldl (hbReceiveBody i leader) st) := by
  induction ks generalizing st with
  | nil => exact h
  | cons k ks ih => exact ih (h.body leader k)

theorem sidGetTerm_zero : sidGetTerm 0 = 0 := rfl

theorem termEffect_consume {ms : List Msg} (hph : srv'.phase = srv.phase)
    (hsid : srv'.sid = srv.sid) (hreq : srv'.voteReq = srv.voteReq)
    (hk : ∀ w, Knows srv' w → Knows srv w ∨ w = 0)
    (hms : ∀ m ∈ ms, ∃ k, m = .heartbeat i k srv.sid) : TermEffect i srv ⟨srv', ms, []⟩ := by
  refine Silent.termEffect ⟨?_, by simp, fun _ => .inl (by rw [hreq]), fun j k req hm => ?_⟩
    (by rw [hsid]) (fun w hw => ?_) fun m hm w hw => ?_
  · simp [HasJoined, hph]
  · obtain ⟨_, heq⟩ := hms _ hm
    cases heq
  · refine (hk w hw).imp_right fun h0 => ?_
    rw [h0, sidGetTerm_zero]
    exact Nat.zero_le _
  · obtain ⟨_, rfl⟩ := hms m hm
    rw [show w = srv.sid from hw, hsid]

theorem termEffect_hbReceiveCb_reset (hi : i < 256) (ackOk : Bool) (hlow : Low srv.sid)
    (hk : ∀ w, Knows srv w → Low w) (ht : { srv.log with tail := none } = srv.log) :
    TermEffect i srv (hbReceiveCb g i ackOk srv) := by
  unfold hbReceiveCb
  rw [ht]
  have hl : HbLoopLe i srv ((g.others i).foldl (hbReceiveBody i (sidGetIdx srv.sid))
      ⟨srv, srv.sid, true, []⟩) :=
    HbLoopLe.foldl _ _ ⟨rfl, rfl, rfl, fun _ => .inl, le_rfl, .inl rfl,
      fun _ hm => absurd hm not_mem_nil⟩
  dsimp only
  generalize (g.others i).foldl (hbReceiveBody i (sidGetIdx srv.sid))
      ⟨srv, srv.sid, true, []⟩ = st at hl ⊢
  have hlow' : Low st.srv.sid := by rwa [hl.sid]
  refine TermEffect.andThen
    (termEffect_consume hl.phase hl.sid hl.voteReq hl.known hl.replies) ?_
  dsimp only
  split_ifs with hti hnew hd
  · exact termEffect_startElection hi hlow'
  · have hset : TermEffect i st.srv (.quiet { st.srv with sid := st.newSid }) :=
      termEffect_setSid (sidGetTerm_mono (hl.sid ▸ hl.le))
    exact hset.andThen (termEffect_serverToFollower hi ackOk
      (hk _ (hl.newSid.resolve_left (hl.sid ▸ hnew))))
  · exact termEffect_setSid (sidGetTerm_mono (hl.sid ▸ hl.le))
  · exact .quiet (.refl _)

theorem termEffect_hbReceiveCb (hi : i < 256) (ackOk : Bool) (hlow : Low srv.sid)
    (hk : ∀ w, Knows srv w → Low w) : TermEffect i srv (hbReceiveCb g i ackOk srv) :=
  (TermEffect.quiet (sameBallot_log srv { srv.log with tail := none })).andThen
    (termEffect_hbReceiveCb_reset (g := g) hi ackOk hlow hk rfl)

theorem knows_hbSendLoop {srv : Server} (ks : List ℕ) (w : ℕ) (hw : Knows (hbSendLoop srv ks).1 w) :
    Knows srv w ∨ w = 0 := by
  induction ks generalizing srv with
  | nil => exact .inl hw
  | cons k ks ih =>
    unfold hbSendLoop at hw
    dsimp only at hw
    split_ifs at hw
    · rcases ih hw with hw | h0
      · exact knows_reset_hb hw
      · exact .inr h0
    · exact knows_reset_hb hw

theorem hbSendLoop_spec (ks : List ℕ) (srv : Server) :
    (hbSendLoop srv ks).1.phase = srv.phase ∧ (hbSendLoop srv ks).1.sid = srv.sid ∧
      (hbSendLoop srv ks).1.voteReq = srv.voteReq := by
  induction ks generalizing srv with
  | nil => exact ⟨rfl, rfl, rfl⟩
  | cons k ks ih =>
    unfold hbSendLoop
    dsimp only
    split_ifs
    · exact ih _
    · exact ⟨rfl, rfl, rfl⟩

theorem termEffect_hbSendCb (hi : i < 256) (ackOk : Bool) (hlow : Low srv.sid) :
    TermEffect i srv (hbSendCb g i ackOk srv) := by
  obtain ⟨hph, hsid, hreq⟩ := hbSendLoop_spec (g.others i) srv
  have hk : ∀ w, Knows (hbSendLoop srv (g.others i)).1 w → Knows srv w ∨ w = 0 :=
    knows_hbSendLoop (g.others i)
  unfold hbSendCb
  generalize hbSendLoop srv (g.others i) = sent at hph hsid hreq hk ⊢
  obtain ⟨next, higher⟩ := sent
  dsimp only at hph hsid hreq hk ⊢
  split_ifs
  · have hfirst : TermEffect i srv (.quiet next) :=
      termEffect_consume hph hsid hreq hk fun _ hm => absurd hm not_mem_nil
    exact hfirst.andThen (termEffect_serverToFollower hi ackOk (by rwa [Effect.quiet, Low, hsid]))
  · refine termEffect_consume hph hsid hreq hk fun m hm => ?_
    obtain ⟨k, -, rfl⟩ := mem_map.mp hm
    exact ⟨k, by rw [hsid]⟩

theorem termEffect_toAdjustCb : TermEffect i srv (.quiet (toAdjustCb srv)) := by
  refine termEffect_consume rfl rfl rfl (fun w hw => ?_) fun _ hm => absurd hm not_mem_nil
  unfold toAdjustCb at hw
  rcases hw with (hw | hw) | hw
  · dsimp only at hw
    split_ifs at hw
    · exact .inl (.inr (.inl ⟨_, hw⟩))
    · exact .inl (.inl (.inl hw))
  · exact .inl (.inl (.inr hw))
  · exact knows_reset_hb (.inr hw)

/-! ### Votes -/

theorem Candidacy.ne_sidSetL {req : VoteReq} (h : Candidacy req) (sid : ℕ) :
    req.sid ≠ sidSetL sid := by
  intro heq
  rcases h with h0 | ⟨t, p, hp, hsid⟩
  · have := sidSetL_pos sid
    omega
  · rw [hsid, sidSetL_mk] at heq
    have := (sidMk_inj hp (sidGetIdx_lt _) heq).2.1
    cases this

theorem Candidacy.term_lt {req : VoteReq} {sid : ℕ} (h : Candidacy req)
    (hlt : sidSetL sid < req.sid) : sidGetTerm sid < sidGetTerm req.sid := by
  rcases h with h0 | ⟨t, p, hp, hsid⟩
  · omega
  · rw [hsid, sidSetL_mk, sidMk_true_le_iff (sidGetIdx_lt _) hp] at hlt
    rwa [hsid, sidGetTerm_mk hp]

theorem knows_dropped {reqs : ℕ → VoteReq} (hd : Dropped srv.voteReq reqs)
    (hw : Knows { srv with voteReq := reqs } w) : Knows srv w ∨ w = 0 := by
  rcases hw with hw | hw | ⟨k, rfl⟩
  · exact .inl (.inl hw)
  · exact .inl (.inr (.inl hw))
  · rcases hd k with heq | h0
    · exact .inl (.inr (.inr ⟨k, congrArg VoteReq.sid heq⟩))
    · exact .inr h0

theorem termEffect_bump {reqs : ℕ → VoteReq} {t : ℕ} (hi : i < 256)
    (hlt : sidGetTerm srv.sid < t) (ht : t < termLimit) (hd : Dropped srv.voteReq reqs) :
    TermEffect i srv ⟨{ publishNcBuf i (rcRevokeLogAccess srv) with
      voteReq := reqs, sid := bumpSid i srv.sid t }, [], [.bumped i t]⟩ := by
  refine Silent.termEffect ⟨Iff.rfl, by simp, hd, by simp⟩ ?_ (fun w hw => ?_) (by simp)
  · rw [show bumpSid i srv.sid t = _ from sidSetIdx_setTerm hi ht _, sidGetTerm_mk hi]
    exact hlt.le
  · refine (knows_dropped hd hw).imp_right fun h0 => ?_
    rw [h0, sidGetTerm_zero]
    exact Nat.zero_le _

theorem termEffect_giveVote {reqs : ℕ → VoteReq} (hd : Dropped srv.voteReq reqs)
    (hlt : sidGetTerm srv.sid < sidGetTerm w) : TermEffect i srv (giveVote g i w
      { publishNcBuf i (rcRevokeLogAccess srv) with voteReq := reqs }) := by
  obtain ⟨next, hn⟩ : ∃ next, next =
    { publishNcBuf i (rcRevokeLogAccess srv) with voteReq := reqs } := ⟨_, rfl⟩
  have hs := sameBallot_giveVote (g := g) (i := i) (w := w) next
  rw [← hn]
  have hp : (giveVote g i w next).srv.phase = srv.phase := by
    rw [hs.phase, hn]
    rfl
  have hr : (giveVote g i w next).srv.voteReq = reqs := by rw [hs.voteReq, hn]
  constructor
  case joined => simp only [HasJoined, hp]
  case le =>
    rw [hs.sid]
    exact hlt.le
  case vote =>
    intro p t c hm
    obtain ⟨rfl, rfl, rfl⟩ : p = i ∧ t = _ ∧ c = _ := by simpa [giveVote] using hm
    rw [hs.sid]
    exact ⟨rfl, hlt, le_rfl⟩
  case once =>
    intro p t c c' hm hm'
    simp only [giveVote, mem_singleton, Obs.voted.injEq] at hm hm'
    rw [hm.2.2, hm'.2.2]
  case stays => simp [giveVote]
  case reqs =>
    intro h k
    rw [hr]
    rcases hd k with heq | h0
    · rw [heq]
      exact h k
    · exact .inl h0
  case sentReqs => simp [giveVote]
  case known =>
    intro v hv
    have hv := hs.knows hv
    rw [hn] at hv
    rw [hs.sid]
    rcases hv with (hv | hv | hv | ⟨k, rfl⟩) | hv | ⟨k, rfl⟩
    · exact .inl (.inl (.inl hv))
    · exact .inl (.inl (.inr (.inl hv)))
    · exact .inl (.inl (.inr (.inr (.inl hv))))
    · by_cases hk : k = i
      · subst hk
        simp only [update_self]
        exact .inr le_rfl
      · simp only [update_of_ne hk]
        exact .inl (.inl (.inr (.inr (.inr ⟨k, rfl⟩))))
    · exact .inl (.inr (.inl hv))
    · rcases knows_dropped hd (.inr (.inr ⟨k, rfl⟩)) with hv | h0
      · exact .inl hv
      · refine .inr ?_
        rw [show (reqs k).sid = 0 from h0, sidGetTerm_zero]
        exact Nat.zero_le _
  case sent =>
    intro m hm v hv
    obtain ⟨k, -, rfl⟩ := mem_map.mp hm
    rw [hs.sid, show v = w from hv]

theorem termEffect_pollVoteRequests (hi : i < 256) (ackOk : Bool)
    (hre : ∀ k, Candidacy (srv.voteReq k)) (hkn : ∀ w, Knows srv w → Low w) :
    TermEffect i srv (pollVoteRequests g i ackOk srv) := by
  have hfirst := bestSidOk (g := g) (i := i) srv
  unfold pollVoteRequests
  generalize bestSid g i srv = first at hfirst ⊢
  obtain ⟨reqs, best⟩ := first
  dsimp only
  split_ifs with hl hhb hbe hbu
  · exact .quiet (.refl _)
  · exact termEffect_setSid hhb.2.ge
  · refine Silent.termEffect ⟨Iff.rfl, by simp [Effect.quiet], hfirst.dropped,
      by simp [Effect.quiet]⟩ le_rfl (fun w hw => ?_) (by simp [Effect.quiet])
    refine (knows_dropped hfirst.dropped hw).imp_right fun h0 => ?_
    rw [h0, sidGetTerm_zero]
    exact Nat.zero_le _
  all_goals
    obtain ⟨c, hc, hic, hlt, heq, hp, -⟩ := hfirst.best.resolve_left hbe
    have hs := bestRequestOk (i := i) hfirst.dropped hc hp hlt
      fun p _ => (hre p).ne_sidSetL _
    dsimp only at heq
    rw [← heq] at hs
    generalize bestRequest g (publishNcBuf i (rcRevokeLogAccess
      { srv with voteReq := reqs })) (sidGetTerm best) = st at hs hbu ⊢
  · obtain ⟨k, hk, hr⟩ := hs.reached
    have hlow : Low (srv.voteReq k).sid := hkn _ (.inr (.inr ⟨k, rfl⟩))
    unfold Low at hlow
    exact termEffect_bump hi (((hre c).term_lt hlt).trans_le hs.term) (by omega)
      hs.dropped
  · rcases hs.best with ⟨hst, -⟩ | ⟨k, hk, hb, hst⟩
    · rw [hst] at hbu
      exact absurd rfl hbu
    · rw [hst]
      have hv := termEffect_giveVote (g := g) (i := i) hs.dropped
        ((hre k).term_lt hb)
      refine hv.andThen (termEffect_ackOrStartElection hi ackOk ?_)
      rw [(sameBallot_giveVote _).sid]
      exact hkn _ (.inr (.inr ⟨k, rfl⟩))

theorem termEffect_log (hs : SameBallot srv eff.srv) (hse : eff.sent = [])
    (hsn : ∀ o ∈ eff.seen, AboutLog o) : TermEffect i srv eff := by
  refine Silent.termEffect ⟨?_, fun o ho => ?_, fun k => .inl (by rw [hs.voteReq]), ?_⟩
    (by rw [hs.sid]) (fun w hw => .inl (hs.knows hw)) (by simp [hse])
  · simp [HasJoined, hs.phase]
  · cases hsn o ho <;> simp
  · simp [hse]

theorem termEffect_applyCommittedEntries : TermEffect i srv (applyCommittedEntries j srv) := by
  refine termEffect_log (sameBallot_applyCommittedEntries _) ?_
    aboutLog_applyCommittedEntries
  unfold applyCommittedEntries
  split_ifs <;> rfl

theorem termEffect_appendEntry {reqId cltId : ℕ} {type : EntryType} {data : EntryData} :
    TermEffect i srv (appendEntry j reqId cltId type data srv) :=
  termEffect_log (sameBallot_log _ _) rfl aboutLog_appendEntry

theorem termEffect_pollVoteCount : TermEffect i srv (pollVoteCount g i srv) := by
  have hs := sameBallot_foldl_voteCountBody (g.others i) srv 1
  unfold pollVoteCount
  generalize (g.others i).foldl voteCountBody (srv, 1) = counted at hs ⊢
  obtain ⟨next, count⟩ := counted
  dsimp only at hs ⊢
  split_ifs
  · exact .quiet hs
  · have hwin : TermEffect i next ⟨{ next with sid := sidSetL next.sid }, [],
        [.elected i (sidGetTerm (sidSetL next.sid))]⟩ := by
      refine Silent.termEffect ⟨Iff.rfl, by simp, fun _ => .inl rfl, by simp⟩ ?_
        (fun _ hw => .inl hw) (by simp)
      exact (sidGetTerm_setL next.sid).ge
    refine TermEffect.andThen (TermEffect.andThen (TermEffect.andThen ?_
      termEffect_applyCommittedEntries) termEffect_appendEntry) (.quiet ?_)
    · exact TermEffect.andThen (f := fun srv => ⟨{ srv with sid := sidSetL srv.sid }, [],
        [.elected i (sidGetTerm (sidSetL srv.sid))]⟩) (TermEffect.quiet hs) hwin
    · refine SameBallot.restore ?_
      exact { SameBallot.refl _ with }

theorem aboutLog_getTailqMessage : ∀ o ∈ (getTailqMessage j srv).seen, AboutLog o := by
  have hf : ∀ (reqs : List Request) (eff : Effect), (∀ o ∈ eff.seen, AboutLog o) →
      ∀ o ∈ (reqs.foldl (fun eff req =>
        eff.andThen (appendEntry j req.reqId req.connId req.type (.cmd req.cmd))) eff).seen,
        AboutLog o := by
    intro reqs
    induction reqs with
    | nil => exact fun _ h => h
    | cons req reqs ih =>
      refine fun eff h => ih _ fun o ho => ?_
      exact (mem_append.mp ho).elim (h o) (aboutLog_appendEntry o)
  exact hf _ _ fun _ ho => absurd ho not_mem_nil

theorem termEffect_getTailqMessage : TermEffect i srv (getTailqMessage j srv) := by
  have hf : ∀ (reqs : List Request) (eff : Effect), TermEffect i srv eff →
      TermEffect i srv (reqs.foldl (fun eff req =>
        eff.andThen (appendEntry j req.reqId req.connId req.type (.cmd req.cmd))) eff) := by
    intro reqs
    induction reqs with
    | nil => exact fun _ h => h
    | cons req reqs ih => exact fun eff h => ih _ (h.andThen termEffect_appendEntry)
  exact hf _ _ (.quiet { SameBallot.refl _ with })

/-! ### Joining and verifying the leadership -/

theorem termEffect_loadLog {ph : Phase} {log : Log} (hj : HasJoined srv)
    (hph : ph ≠ .starting ∧ ph ≠ .joining) :
    TermEffect i srv (.quiet { srv with phase := ph, log := log }) :=
  Silent.termEffect ⟨⟨fun _ => hj, fun _ => hph⟩, by simp [Effect.quiet], fun _ => .inl rfl,
    by simp [Effect.quiet]⟩ le_rfl (fun _ hw => .inl hw) (by simp [Effect.quiet])

theorem termEffect_setPhase {ph : Phase} (hj : HasJoined srv)
    (hph : ph ≠ .starting ∧ ph ≠ .joining) : TermEffect i srv (.quiet { srv with phase := ph }) :=
  termEffect_loadLog hj hph

theorem termEffect_logRecovered (hi : i < 256) (ackOk : Bool) (hj : HasJoined srv)
    (hlow : Low srv.sid) : TermEffect i srv (logRecovered g i ackOk srv) := by
  have hset : TermEffect i srv (.quiet { srv with phase := .recovered }) :=
    termEffect_setPhase hj (by simp)
  unfold logRecovered
  dsimp only
  split_ifs
  · exact hset.andThen (termEffect_startElection hi hlow)
  · exact hset.andThen (termEffect_serverToFollower hi ackOk hlow)

theorem termEffect_sendSmRequestCb : TermEffect i srv (sendSmRequestCb g i srv) := by
  refine Silent.termEffect ⟨Iff.rfl, by simp [sendSmRequestCb], fun _ => .inl rfl,
    by simp [sendSmRequestCb]⟩ le_rfl (fun _ hw => .inl hw) fun m hm w hw => ?_
  obtain ⟨_, -, rfl⟩ := mem_map.mp hm
  exact hw.elim

theorem termEffect_pollSmRequests : TermEffect i srv (pollSmRequests g i srv) := by
  refine Silent.termEffect ⟨Iff.rfl, by simp [pollSmRequests], fun _ => .inl rfl,
    by simp [pollSmRequests]⟩ le_rfl (fun _ hw => .inl hw) fun m hm w hw => ?_
  obtain ⟨_, -, rfl⟩ := mem_map.mp hm
  rw [show w = srv.sid from hw]
  rfl

theorem termEffect_pollSmReply (hj : HasJoined srv) (applied : Option ℕ) :
    TermEffect i srv (.quiet (pollSmReply g i applied srv)) := by
  unfold pollSmReply
  cases hf : (g.others i).find? fun k => srv.sid < srv.smRep k with
  | none => exact .quiet (.refl _)
  | some k =>
    have hlt : srv.sid < srv.smRep k := by simpa using List.find?_some hf
    have hset : TermEffect i srv (.quiet { srv with sid := srv.smRep k }) :=
      termEffect_setSid (sidGetTerm_mono hlt.le)
    cases applied with
    | none => exact hset
    | some a =>
      refine TermEffect.andThen (f := fun srv => .quiet { srv with
        smRep := fun _ => 0, phase := .smRecovered, log := { srv.log with apply := a } }) hset ?_
      refine Silent.termEffect ⟨⟨fun _ => hj, fun _ => by simp [HasJoined, Effect.quiet]⟩,
        by simp [Effect.quiet], fun _ => .inl rfl, by simp [Effect.quiet]⟩ le_rfl
        (fun w hw => ?_) (by simp [Effect.quiet])
      rcases hw with (hw | ⟨_, hw⟩ | hw) | hw
      · exact .inl (.inl (.inl hw))
      · refine .inr ?_
        rw [show w = 0 from hw, sidGetTerm_zero]
        exact Nat.zero_le _
      · exact .inl (.inl (.inr (.inr hw)))
      · exact .inl (.inr hw)

theorem termEffect_verified (posted : ℕ → ℤ) (hi : i < 256) (ackOk : Bool)
    (hkn : ∀ w, Knows srv w → Low w) : TermEffect i srv
      (let newSid := (g.others i).foldl (verifyBody posted srv.rsid) srv.sid
      if newSid ≠ srv.sid then serverToFollower g i ackOk { srv with sid := newSid }
      else .quiet srv) := by
  have hb := foldl_verifyBody posted srv.rsid srv.sid (g.others i)
  dsimp only
  generalize (g.others i).foldl (verifyBody posted srv.rsid) srv.sid = w at hb ⊢
  split_ifs with hne
  · obtain ⟨hlt, -, k, hk⟩ := hb.resolve_left hne
    have hset : TermEffect i srv (.quiet { srv with sid := w }) :=
      termEffect_setSid (sidGetTerm_mono hlt.le)
    exact hset.andThen (termEffect_serverToFollower hi ackOk
      (hkn w (.inl (.inr (.inr (.inl ⟨k, hk⟩))))))
  · exact .quiet (.refl _)

end VmFt.Dare
