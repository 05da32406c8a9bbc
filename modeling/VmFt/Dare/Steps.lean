import VmFt.Dare.SidOrder

/-! # Steps as sequences of moves

Every step of a group is a sequence of moves. What a rule asks of the moves is
ensured by a condition on the state in which the step is taken.
-/

namespace VmFt.Dare

open Function List Option

variable {g : Group} {r : Rules} {s s' : State} {i j k : ℕ}

theorem Move.moves (h : Move g r s s') : Moves g r s s' :=
  Relation.ReflTransGen.single h

theorem Moves.trans {s'' : State} (h : Moves g r s s') (h' : Moves g r s' s'') : Moves g r s s'' :=
  Relation.ReflTransGen.trans h h'

theorem Moves.sid (h : SidInv g s) (hm : Moves g r s s') : SidInv g s' ∧ Grows s s' := by
  induction hm with
  | refl => exact ⟨h, fun _ ho => ho, fun _ => le_rfl, fun _ _ he => .inl he⟩
  | tail _ hmo ih =>
    obtain ⟨hinv, hg⟩ := ih
    obtain ⟨hinv', hg'⟩ := hmo.sid hinv
    refine ⟨hinv', fun o ho => hg'.trace o (hg.trace o ho),
      fun p => (hg.sid p).trans (hg'.sid p), fun p t he => ?_⟩
    rcases hg'.fresh p t he with hold | hlt
    · exact hg.fresh p t hold
    · exact .inr ((hg.term p).trans_lt hlt)

def TermsBelow (g : Group) (s : State) : Prop :=
  ∀ p < g.size, sidGetTerm (s.srv p).sid + 1 < termLimit

theorem Known.term_lt {w : ℕ} (h : Known g s w) (hterm : TermsBelow g s) :
    sidGetTerm w + 1 < termLimit := by
  rcases h with rfl | ⟨-, p, hp, hle⟩
  · decide
  · exact (Nat.succ_le_succ hle).trans_lt (hterm p hp)

theorem TermsBelow.perform (h : TermsBelow g s) (eff : Effect)
    (hsid : eff.srv.sid = (s.srv i).sid) : TermsBelow g (s.perform i eff) := by
  intro p hp
  rw [State.perform_srv]
  split_ifs with hpi
  · subst hpi
    rw [hsid]
    exact h p hp
  · exact h p hp

/-! ### Elections and followers -/

theorem Idle.refl (g : Group) (s : State) (i : ℕ) : Idle g s i (s.srv i) := by
  constructor <;> first | rfl | exact fun _ => .inl rfl | exact .inl rfl

theorem moves_idle {srv : Server} (hi : i < g.size) (h : Idle g s i srv) :
    Moves g r s (s.perform i (.quiet srv)) :=
  (Move.idle hi h).moves

theorem idle_hbEvent (ev : HbEvent) : Idle g s i { s.srv i with hbEvent := ev } :=
  { Idle.refl g s i with }

theorem idle_failCount (fc : ℕ → ℕ) : Idle g s i { s.srv i with failCount := fc } :=
  { Idle.refl g s i with }

theorem moves_hbEvent (hi : i < g.size) (ev : HbEvent) :
    Moves g r s (s.perform i (.quiet { s.srv i with hbEvent := ev })) :=
  moves_idle hi (idle_hbEvent ev)

theorem State.perform_perform (s : State) (i : ℕ) (eff eff' : Effect) :
    (s.perform i eff).perform i eff' =
      s.perform i ⟨eff'.srv, eff.sent ++ eff'.sent, eff.seen ++ eff'.seen⟩ := by
  simp only [State.perform, update_idem, append_assoc]

theorem Moves.andQuiet {srv srv' : Server} (h : Moves g r s (s.perform i (.quiet srv)))
    (h' : Moves g r (s.perform i (.quiet srv))
      ((s.perform i (.quiet srv)).perform i (.quiet srv'))) :
    Moves g r s (s.perform i (.quiet srv')) := by
  rw [State.perform_perform] at h'
  exact h.trans h'

theorem moves_startElection (hi : i < g.size) (hph : (s.srv i).phase = .recovered)
    (ht : sidGetTerm (s.srv i).sid + 1 < termLimit)
    (hta : r.log → isLeader i (s.srv i) → (s.srv i).log.tail = none) :
    Moves g r s (s.perform i (startElection g i (s.srv i))) := by
  have hsid : (becomeCandidate g i (s.srv i)).sid = sidMk (sidGetTerm (s.srv i).sid + 1) false i :=
    startSid_eq (g.idx_lt hi) ht
  rw [startElection, State.perform_andThen]
  refine (Move.start hi hph ht hta).moves.trans (Move.moves ?_)
  have hreq := Move.request (r := r) (s := s.perform i ⟨becomeCandidate g i (s.srv i), [],
    [.started i (sidGetTerm (becomeCandidate g i (s.srv i)).sid)]⟩) hi
  simp only [State.perform_srv_self, State.perform_trace] at hreq
  exact hreq (by rw [hsid, sidGetIdx_mk (g.idx_lt hi)]) (by rw [hsid, sidGetL_mk (g.idx_lt hi)])
    (by simp)

theorem isLeader_congr {srv srv' : Server} (h : srv'.sid = srv.sid) :
    isLeader i srv' = isLeader i srv := by
  simp only [isLeader, isNone, h]

theorem isLeader_eq_false (h : sidGetIdx (s.srv i).sid ≠ i) : isLeader i (s.srv i) = false := by
  simp [isLeader, h]

theorem moves_ackOrStartElection (hi : i < g.size) (ackOk : Bool)
    (hph : (s.srv i).phase = .recovered) (ht : sidGetTerm (s.srv i).sid + 1 < termLimit)
    (hack : sidGetL (s.srv i).sid ∨
      .voted i (sidGetTerm (s.srv i).sid) (sidGetIdx (s.srv i).sid) ∈ s.trace) :
    Moves g r s (s.perform i (ackOrStartElection g i ackOk (s.srv i))) := by
  unfold ackOrStartElection
  dsimp only
  split_ifs with hf
  · have hne : sidGetIdx (s.srv i).sid ≠ i := by
      intro heq
      simp [rcSendVoteAck, heq] at hf
    rw [State.perform_andThen]
    refine (Move.ack hi hack).moves.trans ?_
    have hs := moves_startElection (r := r)
      (s := s.perform i ⟨s.srv i, rcSendVoteAck g i (s.srv i), []⟩) hi
    simp only [State.perform_srv_self] at hs
    refine hs hph ht fun _ hl => ?_
    rw [isLeader_eq_false hne] at hl
    cases hl
  · refine (Move.ack hi hack).moves.trans ?_
    have hev := moves_hbEvent (r := r)
      (s := s.perform i ⟨s.srv i, rcSendVoteAck g i (s.srv i), []⟩) hi .receive
    simpa only [State.perform_perform, State.perform_srv_self, Effect.quiet, List.append_nil]
      using hev

theorem moves_serverToFollower {srv : Server} (hi : i < g.size) (ackOk : Bool)
    (hph : srv.phase = .recovered) (ht : sidGetTerm srv.sid + 1 < termLimit)
    (hg : Moves g r s (s.perform i (.quiet (grantAccess g i { srv with hbEvent := .off })))) :
    Moves g r s (s.perform i (serverToFollower g i ackOk srv)) := by
  refine hg.trans ?_
  obtain ⟨next, hn⟩ : ∃ next, next = grantAccess g i { srv with hbEvent := .off } := ⟨_, rfl⟩
  have hs : SameBallot { srv with hbEvent := .off } next :=
    hn ▸ sameBallot_grantAccess _
  have hdef : serverToFollower g i ackOk srv =
      if sidGetL next.sid then ackOrStartElection g i ackOk next
      else .quiet { next with hbEvent := .receive } := by
    rw [hn]
    rfl
  rw [hdef, ← hn]
  split_ifs with hl
  · have hack := moves_ackOrStartElection (r := r) (s := s.perform i (.quiet next)) hi ackOk
    simp only [State.perform_srv_self, Effect.quiet] at hack
    have := hack (hs.phase.trans hph) (by rw [hs.sid]; exact ht) (.inl hl)
    rw [State.perform_perform] at this
    exact this
  · have hev := moves_hbEvent (r := r) (s := s.perform i (.quiet next)) hi .receive
    simpa only [State.perform_perform, State.perform_srv_self, Effect.quiet, List.append_nil]
      using hev

theorem moves_follow {w : ℕ} (hi : i < g.size) (hph : (s.srv i).phase = .recovered)
    (hl : sidGetL w) (hgen : Genuine s.trace w)
    (hlt : sidGetTerm (s.srv i).sid < sidGetTerm w) (ht : r.log → (s.srv i).log.tail = none) :
    Moves g r s (s.perform i (.quiet
      (grantAccess g i { s.srv i with sid := w, hbEvent := .off }))) := by
  refine (moves_hbEvent hi .off).trans ?_
  have hm := Move.follow (r := r) (s := s.perform i (.quiet { s.srv i with hbEvent := .off }))
    (w := w) hi
  simp only [State.perform_srv_self, Effect.quiet, State.perform_trace, List.append_nil] at hm
  have := (hm hph hl hgen hlt ht).moves
  rw [State.perform_perform] at this
  exact this

/-! ### Heartbeats -/

theorem moves_tells (ms : List Msg) (hi : i < g.size) (h : ∀ m ∈ ms, Tells i (s.srv i).sid m) :
    Moves g r s (s.perform i ⟨s.srv i, ms, []⟩) := by
  induction ms generalizing s with
  | nil =>
    have := moves_idle (r := r) hi (Idle.refl g s i)
    exact this
  | cons m ms ih =>
    have hrest := ih (s := s.perform i ⟨s.srv i, [m], []⟩)
    rw [State.perform_srv_self, State.perform_perform] at hrest
    exact (Move.tell hi (h m mem_cons_self)).moves.trans
      (hrest fun m' hm' => h m' (mem_cons_of_mem _ hm'))

theorem moves_idle_tells {srv : Server} {ms : List Msg} (hi : i < g.size)
    (hidle : Idle g s i srv) (h : ∀ m ∈ ms, Tells i srv.sid m) :
    Moves g r s (s.perform i ⟨srv, ms, []⟩) := by
  have ht := moves_tells (r := r) (s := s.perform i (.quiet srv)) ms hi
  rw [State.perform_srv_self, State.perform_perform] at ht
  exact (moves_idle hi hidle).trans (ht h)

theorem Idle.reset_hb {srv : Server} (h : Idle g s i srv) (k : ℕ) :
    Idle g s i { srv with hb := Function.update srv.hb k 0 } where
  __ := h
  hb p := by
    by_cases hp : p = k
    · subst hp
      exact .inr (update_self ..)
    · simpa only [update_of_ne hp] using h.hb p

theorem Idle.known_hb {srv : Server} (hinv : SidInv g s) (h : Idle g s i srv) (k : ℕ) :
    Known g s (srv.hb k) := by
  rcases h.hb k with heq | h0
  · exact heq ▸ (hinv.hb i k).known
  · exact .inl h0

theorem Idle.known_latestHb {srv : Server} (hinv : SidInv g s) (h : Idle g s i srv) :
    Known g s srv.latestHb := by
  rcases h.latestHb with heq | h0 | ⟨p, hp⟩
  · exact hinv.holds i _ (.inl heq)
  · exact .inl h0
  · exact hp ▸ (hinv.hb i p).known

theorem Idle.fetchHb {srv : Server} (hinv : SidInv g s) (h : Idle g s i srv) (leader k : ℕ) :
    Idle g s i (fetchHb leader k srv).2 ∧ Known g s (fetchHb leader k srv).1 := by
  unfold Dare.fetchHb
  split_ifs
  · exact ⟨{ h with latestHb := .inr (.inl rfl) }, h.known_latestHb hinv⟩
  · exact ⟨h.reset_hb k, h.known_hb hinv k⟩
  · exact ⟨h.reset_hb k, h.known_hb hinv k⟩

/-- The loop of `hb_receive_cb` consumes heartbeats and looks for a better leader. -/
structure HbLoopOk (g : Group) (s : State) (i : ℕ) (st : HbLoop) : Prop where
  idle : Idle g s i st.srv
  replies : ∀ m ∈ st.replies, Tells i (s.srv i).sid m
  le : (s.srv i).sid ≤ st.newSid
  newSid : st.newSid = (s.srv i).sid ∨ sidGetL st.newSid ∧ Known g s st.newSid

theorem HbLoopOk.body {st : HbLoop} (hinv : SidInv g s) (h : HbLoopOk g s i st) (leader k : ℕ) :
    HbLoopOk g s i (hbReceiveBody i leader st k) := by
  obtain ⟨hidle, hk⟩ := h.idle.fetchHb hinv leader k
  unfold hbReceiveBody
  generalize fetchHb leader k st.srv = fetched at hidle hk ⊢
  obtain ⟨hb, srv⟩ := fetched
  dsimp only at hidle hk ⊢
  split_ifs with h0 hlt hl hl
  · exact ⟨hidle, h.replies, h.le, h.newSid⟩
  · refine ⟨hidle, fun m hm => ?_, h.le, h.newSid⟩
    rcases mem_append.mp hm with hm | hm
    · exact h.replies m hm
    · rw [mem_singleton.mp hm, hidle.sid]
      exact .heartbeat k
  · exact ⟨hidle, h.replies, h.le, h.newSid⟩
  · exact ⟨hidle, h.replies, h.le.trans (not_lt.mp hlt), .inr ⟨hl, hk⟩⟩
  · exact ⟨hidle, h.replies, h.le, h.newSid⟩

theorem HbLoopOk.foldl (hinv : SidInv g s) (leader : ℕ) (ks : List ℕ) {st : HbLoop}
    (h : HbLoopOk g s i st) : HbLoopOk g s i (ks.foldl (hbReceiveBody i leader) st) := by
  induction ks generalizing st with
  | nil => exact h
  | cons k ks ih => exact ih (h.body hinv leader k)

theorem moves_hbReceiveCb_reset (hinv : SidInv g s) (hi : i < g.size) (ackOk : Bool)
    (hterm : TermsBelow g s) (hph : (s.srv i).phase = .recovered)
    (hpos : r.log → 0 < sidGetTerm (s.srv i).sid)
    (ht : { (s.srv i).log with tail := none } = (s.srv i).log) :
    Moves g r s (s.perform i (hbReceiveCb g i ackOk (s.srv i))) := by
  have ht' : (s.srv i).log.tail = none := by rw [← ht]
  unfold hbReceiveCb
  rw [ht]
  obtain ⟨st, hst⟩ : ∃ st, st = (g.others i).foldl
      (hbReceiveBody i (sidGetIdx (s.srv i).sid)) ⟨s.srv i, (s.srv i).sid, true, []⟩ := ⟨_, rfl⟩
  have hlo : HbLoopOk g s i st := by
    rw [hst]
    exact HbLoopOk.foldl hinv _ _
      ⟨Idle.refl g s i, fun m hm => absurd hm not_mem_nil, le_rfl, .inl rfl⟩
  have hfirst : Moves g r s (s.perform i ⟨st.srv, st.replies, []⟩) :=
    moves_idle_tells hi hlo.idle (hlo.idle.sid ▸ hlo.replies)
  obtain ⟨hinv', hg⟩ := hfirst.sid hinv
  dsimp only
  rw [State.perform_andThen, ← hst]
  refine hfirst.trans ?_
  have hph' := hlo.idle.phase.trans hph
  have hsid' := hlo.idle.sid
  have ht'' : st.srv.log.tail = none := by rw [hlo.idle.log, ht']
  dsimp only
  split_ifs with hti hnew hd
  · have hs := moves_startElection (r := r) (s := s.perform i ⟨st.srv, st.replies, []⟩) hi
    rw [State.perform_srv_self] at hs
    exact hs hph' (hsid' ▸ hterm i hi) fun _ _ => ht''
  · obtain ⟨hl, hk⟩ := hlo.newSid.resolve_left (hsid' ▸ hnew)
    have hgen := (hk.mono hg).genuine hl
    have hf := moves_follow (r := r) (s := s.perform i ⟨st.srv, st.replies, []⟩)
      (w := st.newSid) hi
    rw [State.perform_srv_self] at hf
    refine moves_serverToFollower hi ackOk hph' ?_ (hf hph' hl hgen ?_ fun _ => ht'')
    · exact hk.term_lt hterm
    · refine lt_of_le_of_ne (sidGetTerm_mono ?_) hd
      rw [hsid']
      exact hlo.le
  · obtain ⟨hl, hk⟩ := hlo.newSid.resolve_left (hsid' ▸ hnew)
    have hgen := (hk.mono hg).genuine hl
    have ha := Move.adopt (r := r) (s := s.perform i ⟨st.srv, st.replies, []⟩)
      (w := st.newSid) hi
    rw [State.perform_srv_self] at ha
    have hsa := (not_not.mp hd).symm
    exact (ha hph' hgen (hsid' ▸ hlo.le) hsa fun hr => hsa ▸ hsid' ▸ hpos hr).moves
  · have hidle := moves_idle (r := r) hi (Idle.refl g (s.perform i ⟨st.srv, st.replies, []⟩) i)
    rwa [State.perform_srv_self] at hidle

theorem moves_hbReceiveCb (hinv : SidInv g s) (hi : i < g.size) (ackOk : Bool)
    (hterm : TermsBelow g s) (hph : (s.srv i).phase = .recovered)
    (hpos : r.log → 0 < sidGetTerm (s.srv i).sid) :
    Moves g r s (s.perform i (hbReceiveCb g i ackOk (s.srv i))) := by
  have hr := (Move.resetTail (r := r) (s := s) hi).moves
  obtain ⟨hinv', -⟩ := hr.sid hinv
  have hrest := moves_hbReceiveCb_reset (r := r) hinv' hi ackOk
  rw [State.perform_srv_self, State.perform_perform] at hrest
  exact hr.trans (hrest (hterm.perform _ rfl) hph hpos rfl)

theorem Idle.hbSendLoop {srv : Server} (h : Idle g s i srv) (ks : List ℕ) :
    Idle g s i (hbSendLoop srv ks).1 := by
  induction ks generalizing srv with
  | nil => exact h
  | cons k ks ih =>
    unfold Dare.hbSendLoop
    dsimp only
    split_ifs
    · exact ih (h.reset_hb k)
    · exact h.reset_hb k

theorem moves_refresh {srv : Server} (hi : i < g.size) (hidle : Idle g s i srv) :
    Moves g r s (s.perform i (.quiet (grantAccess g i srv))) := by
  refine (moves_idle hi hidle).trans ?_
  have hm := Move.refresh (r := r) (s := s.perform i (.quiet srv)) hi
  rw [State.perform_srv_self, State.perform_perform] at hm
  exact hm.moves

theorem moves_hbSendCb (hi : i < g.size) (ackOk : Bool) (hterm : TermsBelow g s)
    (hph : (s.srv i).phase = .recovered) :
    Moves g r s (s.perform i (hbSendCb g i ackOk (s.srv i))) := by
  have hidle := (Idle.refl g s i).hbSendLoop (g.others i)
  unfold hbSendCb
  generalize hbSendLoop (s.srv i) (g.others i) = sent at hidle ⊢
  obtain ⟨srv, higher⟩ := sent
  dsimp only at hidle ⊢
  split_ifs
  · refine moves_serverToFollower hi ackOk (hidle.phase.trans hph) (hidle.sid ▸ hterm i hi) ?_
    exact moves_refresh hi { hidle with }
  · refine moves_idle_tells hi hidle fun m hm => ?_
    obtain ⟨k, -, rfl⟩ := List.mem_map.mp hm
    exact .heartbeat k

theorem idle_toAdjustCb : Idle g s i (toAdjustCb (s.srv i)) where
  __ := (Idle.refl g s i).reset_hb (sidGetIdx (s.srv i).sid)
  latestHb := by
    unfold toAdjustCb
    dsimp only
    split_ifs
    · exact .inr (.inr ⟨_, rfl⟩)
    · exact .inl rfl

/-! ### Votes -/

def WorseRival (g : Group) (i : ℕ) (s : Server) : Prop :=
  ∃ c < g.size, i < c ∧ sidSetL s.sid < (s.voteReq c).sid ∧
    ¬ UpToDate (s.voteReq c) (localLast s.log)

theorem Dropped.update {reqs reqs' : ℕ → VoteReq} (h : Dropped reqs reqs') (k : ℕ)
    (req : VoteReq) (h0 : req.sid = 0) : Dropped reqs (Function.update reqs' k req) := by
  intro p
  by_cases hp : p = k
  · subst hp
    exact .inr (by rw [update_self, h0])
  · rw [update_of_ne hp]
    exact h p

/-- The first loop over the servers `ks` that are left: the best SID is the own one or
that of a pending request. -/
structure BestSidOk (g : Group) (i : ℕ) (s : Server) (ks : List ℕ) (st : (ℕ → VoteReq) × ℕ) :
    Prop where
  dropped : Dropped s.voteReq st.1
  best : st.2 = sidSetL s.sid ∨ ∃ c < g.size, i < c ∧ sidSetL s.sid < (s.voteReq c).sid ∧
    st.2 = (s.voteReq c).sid ∧ st.1 c = s.voteReq c ∧ c ∉ ks

theorem BestSidOk.body {srv : Server} {ks : List ℕ} {st : (ℕ → VoteReq) × ℕ}
    (h : BestSidOk g i srv (k :: ks) st) (hk : k < g.size) (hks : k ∉ ks) :
    BestSidOk g i srv ks (bestSidBody i st k) := by
  have hb : st.2 = sidSetL srv.sid ∨ ∃ c < g.size, i < c ∧
      sidSetL srv.sid < (srv.voteReq c).sid ∧ st.2 = (srv.voteReq c).sid ∧
      st.1 c = srv.voteReq c ∧ c ≠ k ∧ c ∉ ks := by
    simpa only [mem_cons, not_or] using h.best
  unfold bestSidBody
  split_ifs with hle hsid
  · refine ⟨h.dropped, hb.imp_right ?_⟩
    rintro ⟨c, hc, hic, hlt, heq, hp, -, hnot⟩
    exact ⟨c, hc, hic, hlt, heq, hp, hnot⟩
  · refine ⟨h.dropped.update k _ rfl, hb.imp_right ?_⟩
    rintro ⟨c, hc, hic, hlt, heq, hp, hne, hnot⟩
    exact ⟨c, hc, hic, hlt, heq, (update_of_ne hne ..).trans hp, hnot⟩
  · have hs : st.1 k = srv.voteReq k := by
      refine (h.dropped k).resolve_right fun h0 => ?_
      omega
    refine ⟨h.dropped, .inr ⟨k, hk, not_le.mp hle, ?_, by rw [hs], hs, hks⟩⟩
    rw [← hs]
    refine lt_of_le_of_lt ?_ (not_le.mp hsid)
    rcases hb with heq | ⟨c, -, -, hlt, heq, -⟩
    · exact heq.ge
    · exact heq ▸ hlt.le

theorem BestSidOk.foldl {srv : Server} {ks : List ℕ} {st : (ℕ → VoteReq) × ℕ}
    (h : BestSidOk g i srv ks st) (hlt : ∀ k ∈ ks, k < g.size) (hnd : ks.Nodup) :
    BestSidOk g i srv [] (ks.foldl (bestSidBody i) st) := by
  induction ks generalizing st with
  | nil => exact h
  | cons k ks ih =>
    obtain ⟨hk, hnd⟩ := nodup_cons.mp hnd
    exact ih (h.body (hlt k mem_cons_self) hk)
      (fun k' hk' => hlt k' (mem_cons_of_mem _ hk')) hnd

theorem bestSidOk (srv : Server) : BestSidOk g i srv [] (bestSid g i srv) :=
  BestSidOk.foldl ⟨fun _ => .inl rfl, .inl rfl⟩ (fun _ hk => mem_range.mp hk)
    nodup_range

/-- The second loop over the servers `ks` that are left, started on the requests `reqs` with
the best SID in the request of `c`: the best candidate is a server with a better SID, unless all
the candidates seen have worse logs. -/
structure BestRequestOk (g : Group) (s : Server) (reqs : ℕ → VoteReq) (c : ℕ) (ks : List ℕ)
    (st : VoteLoop) : Prop where
  dropped : Dropped s.voteReq st.reqs
  pending : ∀ k ∈ ks, st.reqs k = reqs k
  best : (st.best = ⟨sidSetL s.sid, (localLast s.log).1, (localLast s.log).2⟩ ∧
      (c ∈ ks ∨ ¬ UpToDate (s.voteReq c) (localLast s.log))) ∨
    ∃ k < g.size, sidSetL s.sid < (s.voteReq k).sid ∧ st.best = s.voteReq k
  term : sidGetTerm (s.voteReq c).sid ≤ st.highestTerm
  reached : ∃ k < g.size, st.highestTerm ≤ sidGetTerm (s.voteReq k).sid

theorem sidSetL_pos (sid : ℕ) : 0 < sidSetL sid := by
  rw [sidSetL_eq, sidMk]
  simp

theorem upToDate_iff {req : VoteReq} {last : ℕ × ℕ} :
    UpToDate req last ↔ ¬ (req.term < last.2 ∨ (last.2 = req.term ∧ req.index < last.1)) := by
  unfold UpToDate
  omega

theorem BestRequestOk.body {srv : Server} {reqs : ℕ → VoteReq} {c : ℕ} {ks : List ℕ}
    {st : VoteLoop} (h : BestRequestOk g srv reqs c (k :: ks) st) (hk : k < g.size) (hks : k ∉ ks)
    (hc : reqs c = srv.voteReq c) (hlt : sidSetL srv.sid < (srv.voteReq c).sid)
    (hne : ∀ p < g.size, (srv.voteReq p).sid ≠ sidSetL srv.sid) :
    BestRequestOk g srv reqs c ks (bestRequestBody st k) := by
  have hreq := h.pending k mem_cons_self
  have hd := h.dropped.update k { st.reqs k with sid := 0 } rfl
  have hpe : ∀ p ∈ ks, Function.update st.reqs k { st.reqs k with sid := 0 } p = reqs p := by
    intro p hp
    rw [update_of_ne (ne_of_mem_of_not_mem hp hks)]
    exact h.pending p (mem_cons_of_mem _ hp)
  have hba : sidSetL srv.sid ≤ st.best.sid := by
    rcases h.best with ⟨heq, -⟩ | ⟨p, -, hp, heq⟩
    · rw [heq]
    · rw [heq]
      exact hp.le
  have hmem : c ∈ k :: ks → c ∉ ks → st.reqs k = srv.voteReq c := by
    intro hin hout
    obtain rfl := (mem_cons.mp hin).resolve_right hout
    exact hreq.trans hc
  -- a request that is not below the best one has not been dropped
  have hke : st.best.sid ≤ (st.reqs k).sid → st.reqs k = srv.voteReq k := by
    intro hle
    refine (h.dropped k).resolve_right fun h0 => ?_
    have := sidSetL_pos srv.sid
    omega
  have hr : ∀ t, t = sidGetTerm (st.reqs k).sid → st.best.sid ≤ (st.reqs k).sid →
      ∃ p < g.size, max st.highestTerm t ≤ sidGetTerm (srv.voteReq p).sid := by
    rintro t rfl hle
    rcases max_choice st.highestTerm (sidGetTerm (st.reqs k).sid) with hmax | hmax
    · rw [hmax]
      exact h.reached
    · rw [hmax]
      exact ⟨k, hk, by rw [hke hle]⟩
  unfold bestRequestBody
  dsimp only
  split_ifs with hb hw
  · refine ⟨hd, hpe, ?_, h.term, h.reached⟩
    rcases h.best with ⟨heq, hin⟩ | hbe
    · refine .inl ⟨heq, hin.imp_left fun hin => ?_⟩
      by_contra hout
      rw [hmem hin hout, heq] at hb
      exact absurd hb (not_lt.mpr hlt.le)
    · exact .inr hbe
  · refine ⟨hd, hpe, ?_, h.term.trans (le_max_left ..), hr _ rfl (not_lt.mp hb)⟩
    rcases h.best with ⟨heq, hin⟩ | hbe
    · refine .inl ⟨heq, ?_⟩
      by_cases hout : c ∈ ks
      · exact .inl hout
      · refine .inr (hin.elim (fun hin => ?_) id)
        rw [heq] at hw
        rw [← hmem hin hout, upToDate_iff, not_not]
        exact hw
    · exact .inr hbe
  · refine ⟨hd, hpe, .inr ⟨k, hk, ?_, hke (not_lt.mp hb)⟩,
      h.term.trans (le_max_left ..), hr _ rfl (not_lt.mp hb)⟩
    rw [← hke (not_lt.mp hb)]
    refine lt_of_le_of_ne (hba.trans (not_lt.mp hb)) fun heq => hne k hk ?_
    rw [← hke (not_lt.mp hb), heq]

theorem BestRequestOk.foldl {srv : Server} {reqs : ℕ → VoteReq} {c : ℕ} {ks : List ℕ}
    {st : VoteLoop} (h : BestRequestOk g srv reqs c ks st) (hks : ∀ k ∈ ks, k < g.size)
    (hnd : ks.Nodup) (hc : reqs c = srv.voteReq c) (hlt : sidSetL srv.sid < (srv.voteReq c).sid)
    (hne : ∀ p < g.size, (srv.voteReq p).sid ≠ sidSetL srv.sid) :
    BestRequestOk g srv reqs c [] (ks.foldl bestRequestBody st) := by
  induction ks generalizing st with
  | nil => exact h
  | cons k ks ih =>
    obtain ⟨hk, hnd⟩ := nodup_cons.mp hnd
    exact ih (h.body (hks k mem_cons_self) hk hc hlt hne)
      (fun k' hk' => hks k' (mem_cons_of_mem _ hk')) hnd

theorem bestRequestOk {srv : Server} {reqs : ℕ → VoteReq} {c : ℕ} (hd : Dropped srv.voteReq reqs)
    (hs : c < g.size) (hc : reqs c = srv.voteReq c) (hlt : sidSetL srv.sid < (srv.voteReq c).sid)
    (hne : ∀ p < g.size, (srv.voteReq p).sid ≠ sidSetL srv.sid) : BestRequestOk g srv reqs c []
      (bestRequest g (publishNcBuf i (rcRevokeLogAccess { srv with voteReq := reqs }))
        (sidGetTerm (srv.voteReq c).sid)) := by
  refine BestRequestOk.foldl ?_ (fun _ hk => mem_range.mp hk) nodup_range hc hlt hne
  exact ⟨hd, fun _ _ => rfl, .inl ⟨rfl, .inl (mem_range.mpr hs)⟩, le_rfl, ⟨c, hs, le_rfl⟩⟩

theorem SidInv.req_ne (hinv : SidInv g s) (p : ℕ) :
    ((s.srv i).voteReq p).sid ≠ sidSetL (s.srv i).sid := by
  intro heq
  rcases hinv.req i p with h0 | ⟨hp, t, hsid, -⟩
  · have := sidSetL_pos (s.srv i).sid
    omega
  · rw [hsid, sidSetL_mk] at heq
    have := (sidMk_inj (g.idx_lt hp) (sidGetIdx_lt _) heq).2.1
    cases this

theorem SidInv.req_reached (hinv : SidInv g s) (i k : ℕ) :
    sidGetTerm ((s.srv i).voteReq k).sid ≤ sidGetTerm (s.srv k).sid := by
  rcases hinv.req i k with h0 | ⟨-, t, hsid, hst⟩
  · rw [h0]
    exact Nat.zero_le _
  · rw [hsid]
    exact sidGetTerm_mono (hinv.entered_le k t (.inl hst))

theorem SidInv.le_hb (hinv : SidInv g s) (hl : sidGetL (s.srv i).sid = false)
    (h0 : (s.srv i).hb (sidGetIdx (s.srv i).sid) ≠ 0)
    (hterm : sidGetTerm ((s.srv i).hb (sidGetIdx (s.srv i).sid)) = sidGetTerm (s.srv i).sid) :
    (s.srv i).sid ≤ (s.srv i).hb (sidGetIdx (s.srv i).sid) := by
  rcases hinv.hb i (sidGetIdx (s.srv i).sid) with h | ⟨hp, -, -, hent⟩
  · exact absurd h h0
  · have hgen := hinv.genuine i
    rw [Genuine, if_neg (by simp [hl])] at hgen
    rcases hgen with hn | hgen
    · rw [hn] at hp
      exact absurd hp (by have := g.size_le; simp [sidGetIdx_eq, sidNull]; omega)
    · calc (s.srv i).sid
          = sidMk (sidGetTerm (s.srv i).sid) false (sidGetIdx (s.srv i).sid) := by
            rw [← hl]
            exact sidMk_eta _
        _ ≤ _ := hent _ hgen hterm

theorem moves_pollVoteRequests (hinv : SidInv g s) (hi : i < g.size) (ackOk : Bool)
    (hterm : TermsBelow g s) (hph : (s.srv i).phase = .recovered)
    (hpos : r.log → 0 < sidGetTerm (s.srv i).sid)
    (ha : r.vote → WorseRival g i (s.srv i) → NoAcks g i (s.srv i)) :
    Moves g r s (s.perform i (pollVoteRequests g i ackOk (s.srv i))) := by
  have hfirst := bestSidOk (g := g) (i := i) (s.srv i)
  unfold pollVoteRequests
  generalize bestSid g i (s.srv i) = first at hfirst ⊢
  obtain ⟨reqs, best⟩ := first
  dsimp only
  split_ifs with hl hhb hbs hbu
  · exact moves_idle hi (Idle.refl g s i)
  · refine (Move.adopt hi hph ?_ ?_ hhb.2 fun hr => hhb.2 ▸ hpos hr).moves
    · rcases hinv.hb i (sidGetIdx (s.srv i).sid) with h0 | ⟨-, hgen, -⟩
      · exact absurd h0 hhb.1
      · exact hgen
    · exact hinv.le_hb (by simpa using hl) hhb.1 hhb.2
  · exact moves_idle hi { Idle.refl g s i with voteReq := hfirst.dropped }
  all_goals
    obtain ⟨c, hc, hic, hlt, heq, hp, -⟩ := hfirst.best.resolve_left hbs
    have hs := bestRequestOk (i := i) hfirst.dropped hc hp hlt fun p _ => hinv.req_ne p
    dsimp only at heq
    rw [← heq] at hs
    generalize bestRequest g (publishNcBuf i (rcRevokeLogAccess
      { s.srv i with voteReq := reqs })) (sidGetTerm best) = st at hs hbu ⊢
  · rcases hs.best with ⟨-, hri⟩ | ⟨k, hk, hbe, hst⟩
    · obtain ⟨k, hk, hre⟩ := hs.reached
      have hkt := hre.trans (hinv.req_reached i k)
      obtain ⟨t, -, hsid, -, hown⟩ := hinv.better_request hlt
      have hct := hs.term
      rw [hsid, sidGetTerm_mk (g.idx_lt hc)] at hct
      refine (Move.bump hi hph (by simpa using hl) (hown.trans_le hct) ?_
        hs.dropped fun hv => ha hv ⟨c, hc, hic, hlt, ?_⟩).moves
      · have := hterm k hk
        omega
      · exact hri.resolve_left not_mem_nil
    · rw [hst] at hbu
      exact absurd hbu hbe.ne'
  · rcases hs.best with ⟨hst, -⟩ | ⟨k, hk, hbe, hst⟩
    · rw [hst] at hbu
      exact absurd rfl hbu
    · rw [State.perform_andThen, hst]
      have hvo := (Move.vote (r := r) hi hph (by simpa using hl) hbe hs.dropped).moves
      refine hvo.trans ?_
      obtain ⟨srv, hsrv⟩ : ∃ srv, srv =
        { publishNcBuf i (rcRevokeLogAccess (s.srv i)) with voteReq := st.reqs } := ⟨_, rfl⟩
      have hsa := sameBallot_giveVote (g := g) (i := i) (w := ((s.srv i).voteReq k).sid) srv
      have hack := moves_ackOrStartElection (r := r)
        (s := s.perform i (giveVote g i ((s.srv i).voteReq k).sid srv)) hi ackOk
      rw [State.perform_srv_self, hsa.sid] at hack
      rw [hsrv] at hack hsa
      refine hack (hsa.phase.trans hph) ?_ (.inr ?_)
      · exact (Nat.succ_le_succ (hinv.req_reached i k)).trans_lt (hterm k hk)
      · rw [State.perform_trace]
        exact mem_append_right _ (mem_singleton.mpr rfl)

/-! ### Counting votes -/

theorem voteCountBody_count (srv : Server) (n k : ℕ) :
    (voteCountBody (srv, n) k).2 = n + if (srv.voteAck k).isSome then 1 else 0 := by
  unfold voteCountBody
  cases srv.voteAck k <;> simp

theorem foldl_voteCountBody_count (ks : List ℕ) (srv : Server) (n : ℕ) :
    (ks.foldl voteCountBody (srv, n)).2 =
      n + (ks.filter fun k => (srv.voteAck k).isSome).length := by
  induction ks generalizing srv n with
  | nil => rfl
  | cons k ks ih =>
    have hs := (sameBallot_voteCountBody srv n k).voteAck
    have hc := voteCountBody_count srv n k
    rw [foldl_cons, ← Prod.mk.eta (p := voteCountBody (srv, n) k), ih, hs, hc,
      filter_cons]
    split_ifs
    · rw [length_cons]
      omega
    · rfl

theorem foldl_voteCountBody_fst (ks : List ℕ) (srv : Server) (n m : ℕ) :
    (ks.foldl voteCountBody (srv, n)).1 = (ks.foldl voteCountBody (srv, m)).1 := by
  induction ks generalizing srv n m with
  | nil => rfl
  | cons k ks ih =>
    have hfst : (voteCountBody (srv, n) k).1 = (voteCountBody (srv, m) k).1 := by
      unfold voteCountBody
      cases srv.voteAck k <;> rfl
    rw [foldl_cons, foldl_cons, ← Prod.mk.eta (p := voteCountBody (srv, n) k),
      ← Prod.mk.eta (p := voteCountBody (srv, m) k), hfst]
    exact ih _ _ _

theorem moves_countAcks (ks : List ℕ) (hi : i < g.size) :
    Moves g r s (s.perform i (.quiet (ks.foldl voteCountBody (s.srv i, 0)).1)) := by
  induction ks generalizing s with
  | nil => exact moves_idle hi (Idle.refl g s i)
  | cons k ks ih =>
    refine (Move.countAck k hi).moves.trans ?_
    have hrest := ih (s := s.perform i (.quiet (voteCountBody (s.srv i, 0) k).1))
    rw [State.perform_srv_self, State.perform_perform] at hrest
    rw [foldl_cons, ← Prod.mk.eta (p := voteCountBody (s.srv i, 0) k),
      foldl_voteCountBody_fst ks _ _ 0]
    exact hrest

theorem moves_openLogs (hi : i < g.size) :
    Moves g r s (s.perform i (.quiet
      (rcRestoreLogAccess g i { s.srv i with hbEvent := .send }))) := by
  refine (moves_hbEvent hi .send).trans ?_
  have ho := Move.openLogs (r := r)
    (s := s.perform i (.quiet { s.srv i with hbEvent := .send })) hi
  rw [State.perform_srv_self, State.perform_perform] at ho
  exact ho.moves

theorem moves_takeOffice (hi : i < g.size) (hl : isLeader i (s.srv i)) :
    Moves g r s (s.perform i ((applyCommittedEntries i (s.srv i)).andThen
      (appendEntry i 0 0 .config (.cid g.cid)) |>.andThen fun srv =>
        .quiet (rcRestoreLogAccess g i { srv with hbEvent := .send }))) := by
  rw [State.perform_andThen, State.perform_andThen]
  refine (Move.apply hi).moves.trans ?_
  have hsid := (sameBallot_applyCommittedEntries (i := i) (s.srv i)).sid
  generalize applyCommittedEntries i (s.srv i) = applied at hsid ⊢
  have happend := Move.append (r := r) (s := s.perform i applied) 0 0 .config (.cid g.cid) hi
  have ho := moves_openLogs (r := r) (s := (s.perform i applied).perform i
    (appendEntry i 0 0 .config (.cid g.cid) applied.srv)) hi
  rw [State.perform_srv_self, isLeader_congr hsid] at happend
  rw [State.perform_srv_self] at ho
  exact (happend fun _ => hl).moves.trans ho

theorem Effect.andThen_assoc (eff : Effect) (f f' : Server → Effect) :
    (eff.andThen f).andThen f' = eff.andThen fun srv => (f srv).andThen f' := by
  simp only [Effect.andThen, append_assoc]

theorem sidGetTerm_setL (sid : ℕ) : sidGetTerm (sidSetL sid) = sidGetTerm sid := by
  rw [sidSetL_mk, sidGetTerm_mk (sidGetIdx_lt sid)]

theorem isLeader_sidSetL {srv : Server} (h : sidGetIdx srv.sid = i) :
    isLeader i { srv with sid := sidSetL srv.sid } := by
  have hidx : i < 256 := h ▸ sidGetIdx_lt srv.sid
  simp [isLeader, isNone, sidSetL_mk, hidx, h]

theorem moves_pollVoteCount (hi : i < g.size) (hph : (s.srv i).phase = .recovered)
    (hca : isCandidate i (s.srv i)) :
    Moves g r s (s.perform i (pollVoteCount g i (s.srv i))) := by
  obtain ⟨hidx, hl⟩ : sidGetIdx (s.srv i).sid = i ∧ sidGetL (s.srv i).sid = false := by
    simp only [isCandidate, Bool.and_eq_true, beq_iff_eq, Bool.not_eq_true'] at hca
    exact ⟨hca.1.2, hca.2⟩
  have hco := foldl_voteCountBody_count (g.others i) (s.srv i) 1
  have hfst := foldl_voteCountBody_fst (g.others i) (s.srv i) 1 0
  have hs := sameBallot_foldl_voteCountBody (g.others i) (s.srv i) 0
  have hc := moves_countAcks (r := r) (s := s) (g.others i) hi
  unfold pollVoteCount
  generalize (g.others i).foldl voteCountBody (s.srv i, 1) = counted at hco hfst ⊢
  obtain ⟨srv, count⟩ := counted
  dsimp only at hco hfst ⊢
  rw [← hfst] at hs hc
  split_ifs with hfew
  · exact hc
  · have hle := isLeader_sidSetL (hs.sid.symm ▸ hidx)
    have hwin := Move.win (r := r) (s := s.perform i (.quiet srv)) hi
    rw [State.perform_srv_self, State.perform_perform] at hwin
    have hmaj : g.size / 2 + 1 ≤ voteCount g i srv := by
      rw [voteCount, hs.voteAck]
      omega
    have hwon := (hwin (hs.phase.trans hph) (hs.sid.symm ▸ hidx) (hs.sid.symm ▸ hl) hmaj).moves
    rw [Effect.andThen_assoc, Effect.andThen_assoc, State.perform_andThen, sidGetTerm_setL]
    refine (hc.trans hwon).trans ?_
    have ho := moves_takeOffice (r := r) (s := s.perform i
      ⟨{ srv with sid := sidSetL srv.sid }, [], [.elected i (sidGetTerm srv.sid)]⟩) hi
    rw [State.perform_srv_self, Effect.andThen_assoc] at ho
    exact ho hle

theorem moves_appendAll {reqs : List Request} {eff : Effect} (hi : i < g.size)
    (hl : r.log → reqs ≠ [] → isLeader i eff.srv) (h : Moves g r s (s.perform i eff)) :
    Moves g r s (s.perform i (reqs.foldl
      (fun eff req => eff.andThen (appendEntry i req.reqId req.connId req.type (.cmd req.cmd)))
      eff)) := by
  induction reqs generalizing eff with
  | nil => exact h
  | cons req reqs ih =>
    have hl' := fun hr => hl hr (cons_ne_nil req reqs)
    refine ih (fun hr _ => (isLeader_congr rfl).trans (hl' hr)) ?_
    rw [State.perform_andThen]
    have happend := Move.append (r := r) (s := s.perform i eff) req.reqId
      req.connId req.type (.cmd req.cmd) hi
    rw [State.perform_srv_self] at happend
    exact h.trans (happend hl').moves

theorem moves_getTailqMessage (hi : i < g.size)
    (hl : r.log → (s.srv i).queue ≠ [] → isLeader i (s.srv i)) :
    Moves g r s (s.perform i (getTailqMessage i (s.srv i))) :=
  moves_appendAll hi (fun hr hq => (isLeader_congr rfl).trans (hl hr hq))
    (moves_idle hi { Idle.refl g s i with })

/-! ### Joining and verifying the leadership -/

theorem idle_reset_rsid (k : ℕ) :
    Idle g s i { s.srv i with rsid := Function.update (s.srv i).rsid k 0 } where
  __ := Idle.refl g s i
  rsid k' := by
    by_cases hk : k' = k
    · subst hk
      exact .inr (.inl (update_self ..))
    · exact .inl (update_of_ne hk ..)

theorem moves_takeVote (posted : ℕ → ℤ) (hinv : SidInv g s) (hi : i < g.size)
    (hv : ¬ r.vote) (hph : (s.srv i).phase = .voteRead) (k : ℕ) :
    Moves g r s (s.perform i (.quiet (takeVoteBody posted (s.srv i) k))) := by
  unfold takeVoteBody
  split_ifs with hp
  · have hgen : Genuine s.trace (max (s.srv i).sid ((s.srv i).rsid k)) := by
      rcases hinv.holds i _ (.inr (.inr (.inl ⟨k, rfl⟩))) with h0 | ⟨hgen, -⟩
      · rw [h0, Nat.max_zero]
        exact hinv.genuine i
      · rcases max_choice (s.srv i).sid ((s.srv i).rsid k) with hmax | hmax
        · rw [hmax]
          exact hinv.genuine i
        · rw [hmax]
          exact hgen
    refine (moves_idle hi (idle_reset_rsid k)).trans ?_
    have hj := Move.join (r := r) (w := max (s.srv i).sid ((s.srv i).rsid k))
      (s := s.perform i (.quiet { s.srv i with rsid := Function.update (s.srv i).rsid k 0 })) hi
    simp only [State.perform_srv_self, State.perform_trace, Effect.quiet, List.append_nil,
      State.perform_perform] at hj
    exact (hj hph hv hgen (le_max_left ..)).moves
  · exact moves_idle hi (Idle.refl g s i)

theorem moves_takeVotes (posted : ℕ → ℤ) (ks : List ℕ) (hinv : SidInv g s) (hi : i < g.size)
    (hv : ¬ r.vote) (hph : (s.srv i).phase = .voteRead) :
    Moves g r s (s.perform i (.quiet (ks.foldl (takeVoteBody posted) (s.srv i)))) := by
  induction ks generalizing s with
  | nil => exact moves_idle hi (Idle.refl g s i)
  | cons k ks ih =>
    have hone := moves_takeVote posted hinv hi hv hph k
    have hrest := ih (hone.sid hinv).1
    rw [State.perform_srv_self, State.perform_perform] at hrest
    refine hone.trans (hrest ?_)
    unfold takeVoteBody
    split_ifs <;> exact hph

theorem joinOk_sid_le {srv : Server} (h : JoinOk i srv)
    (hph : srv.phase = .starting ∨ srv.phase = .joining) : srv.sid ≤ sidMk 0 true i := by
  rcases hph with hph | hph
  · rw [h.1 hph, sidMk, sidNull]
    simp only [if_true]
    omega
  · rw [h.2 hph]

theorem moves_joinSid (hinv : SidInv g s) (hi : i < g.size) (hv : ¬ r.vote)
    (hph : (s.srv i).phase = .starting ∨ (s.srv i).phase = .joining) :
    Moves g r s (s.perform i (.quiet
      { s.srv i with phase := .voteRead, sid := joinSid i (s.srv i).sid })) := by
  refine (Move.setPhase .voteRead hi (by simp) (by simp)).moves.trans ?_
  have hj := Move.join (r := r) (w := joinSid i (s.srv i).sid)
    (s := s.perform i (.quiet { s.srv i with phase := .voteRead })) hi
  simp only [State.perform_srv_self, State.perform_trace, Effect.quiet, List.append_nil,
    State.perform_perform, forall_true_left] at hj
  rw [joinSid_eq (g.idx_lt hi)] at hj ⊢
  refine (hj hv ?_ (joinOk_sid_le (hinv.joining i) hph)).moves
  simp [Genuine, g.idx_lt hi]

theorem foldl_takeVoteBody_phase (posted : ℕ → ℤ) (ks : List ℕ) (srv : Server) (ph : Phase) :
    ks.foldl (takeVoteBody posted) { srv with phase := ph } =
      { ks.foldl (takeVoteBody posted) srv with phase := ph } := by
  induction ks generalizing srv with
  | nil => rfl
  | cons k ks ih =>
    rw [foldl_cons, foldl_cons, ← ih]
    congr 1
    unfold takeVoteBody
    split_ifs <;> rfl

theorem moves_setPhase (ph : Phase) (hi : i < g.size) (hne : ph ≠ .starting)
    (hj : ph = .joining → (s.srv i).sid = sidMk 0 true i) :
    Moves g r s (s.perform i (.quiet { s.srv i with phase := ph })) :=
  (Move.setPhase ph hi hne hj).moves

theorem moves_readRsid (landed : List ℕ) (read : ℕ → ℕ) (hi : i < g.size)
    (hl : ∀ k ∈ landed, k < g.size)
    (hr : ∀ k, read k = (s.srv k).sid ∨ read k = (s.srv k).voteSid i) :
    Moves g r s (s.perform i (.quiet
      { s.srv i with rsid := fun k => if k ∈ landed then read k else (s.srv i).rsid k })) := by
  refine moves_idle hi { Idle.refl g s i with rsid := fun k => ?_ }
  dsimp only
  split_ifs with hk
  · exact .inr (.inr ⟨k, hl k hk, hr k⟩)
  · exact .inl rfl

theorem moves_readVotes {batches : List (List Wc)} (srv : Server)
    {res : RcResult × Server} (hinv : SidInv g s) (hi : i < g.size) (hv : ¬ r.vote)
    (hsid : srv.sid = sidMk 0 true i)
    (hfirst : Moves g r s (s.perform i (.quiet { srv with phase := .voteRead })))
    (hres : (waitForMajority g.size (postedReads i) batches).map (fun (rc, posted) =>
      match rc with
      | .insuccess => (.insuccess, srv)
      | .success => (.success, (range g.size).foldl (takeVoteBody posted) srv)) = some res) :
    Moves g r s (s.perform i (.quiet { res.2 with
        phase := match res.1 with | .insuccess => .joining | .success => .voteRead })) := by
  obtain ⟨⟨rc, posted⟩, -, rfl⟩ := map_eq_some_iff.mp hres
  cases rc with
  | insuccess =>
    have hset := moves_setPhase (r := r)
      (s := s.perform i (.quiet { srv with phase := .voteRead })) .joining hi (by simp)
    rw [State.perform_srv_self] at hset
    exact hfirst.andQuiet (hset fun _ => hsid)
  | success =>
    have ht := moves_takeVotes posted (range g.size)
      (hfirst.sid hinv).1 hi hv
    rw [State.perform_srv_self] at ht
    have hall := hfirst.andQuiet (ht rfl)
    dsimp only [Effect.quiet] at hall
    rw [foldl_takeVoteBody_phase posted _ srv .voteRead] at hall
    exact hall

theorem moves_getReplicatedVoteCb {landed : List ℕ} {batches : List (List Wc)} {srv : Server}
    (hinv : SidInv g s) (hi : i < g.size) (hv : ¬ r.vote)
    (hph : (s.srv i).phase = .starting ∨ (s.srv i).phase = .joining) (hl : ∀ k ∈ landed, k < g.size)
    (h : getReplicatedVoteCb g i (fun k => (s.srv k).voteSid i) landed batches (s.srv i) =
      some srv) : Moves g r s (s.perform i (.quiet srv)) := by
  have hj := moves_joinSid hinv hi hv hph
  have hr := moves_readRsid (r := r) (s := s.perform i (.quiet
    { s.srv i with phase := .voteRead, sid := joinSid i (s.srv i).sid })) landed
    (fun k => (s.srv k).voteSid i) hi hl (fun k => .inr ?_)
  · rw [State.perform_srv_self] at hr
    unfold getReplicatedVoteCb rcGetReplicatedVote at h
    dsimp only at h
    split_ifs at h with htwo
    · obtain rfl := Option.some.inj h
      exact hj
    · obtain ⟨res, hres, rfl⟩ := map_eq_some_iff.mp h
      have hm := moves_readVotes { s.srv i with
          sid := joinSid i (s.srv i).sid,
          rsid := fun k => if k ∈ landed then (s.srv k).voteSid i else (s.srv i).rsid k }
        hinv hi hv (joinSid_eq (g.idx_lt hi)) (hj.andQuiet hr) hres
      obtain ⟨rc, srv'⟩ := res
      cases rc <;> exact hm
  · by_cases hk : k = i
    · subst hk
      rw [State.perform_srv_self]
      rfl
    · rw [State.perform_srv_of_ne _ _ _ hk]

theorem idle_reset_smRep : Idle g s i { s.srv i with smRep := fun _ => 0 } :=
  { Idle.refl g s i with smRep := fun _ => .inr rfl }

theorem moves_pollSmReply (hinv : SidInv g s) (hi : i < g.size) (hv : ¬ r.vote)
    (hph : (s.srv i).phase = .voteRead) (applied : Option ℕ) :
    Moves g r s (s.perform i (.quiet (pollSmReply g i applied (s.srv i)))) := by
  unfold pollSmReply
  cases hf : (g.others i).find? fun k => (s.srv i).sid < (s.srv i).smRep k with
  | none => exact moves_idle hi (Idle.refl g s i)
  | some k =>
    have hlt : (s.srv i).sid < (s.srv i).smRep k := by
      simpa using List.find?_some hf
    have hgen : Genuine s.trace ((s.srv i).smRep k) := by
      rcases hinv.holds i _ (.inr (.inl ⟨k, rfl⟩)) with h0 | ⟨hgen, -⟩
      · omega
      · exact hgen
    have hj := (Move.join (r := r) hi hph hv hgen hlt.le).moves
    cases applied with
    | none => exact hj
    | some a =>
      have hidle := moves_idle (r := r) hi (idle_reset_smRep (g := g) (i := i)
        (s := s.perform i (.quiet { s.srv i with sid := (s.srv i).smRep k })))
      have hset := moves_setPhase (r := r) (s := s.perform i (.quiet { s.srv i with
          sid := (s.srv i).smRep k, smRep := fun _ => 0 })) .smRecovered hi
          (by simp) (by simp)
      have hl := Move.load (r := r) (s := s.perform i (.quiet { s.srv i with
          sid := (s.srv i).smRep k, smRep := fun _ => 0, phase := .smRecovered }))
          { (s.srv i).log with apply := a } hi hv
      rw [State.perform_srv_self] at hidle hset hl
      exact ((hj.andQuiet hidle).andQuiet hset).andQuiet hl.moves

theorem moves_logRecovered {srv : Server} (hi : i < g.size) (ackOk : Bool)
    (hlog : ¬ r.log) (ht : sidGetTerm srv.sid + 1 < termLimit)
    (h : Moves g r s (s.perform i (.quiet srv))) :
    Moves g r s (s.perform i (logRecovered g i ackOk srv)) := by
  have hset := moves_setPhase (r := r) (s := s.perform i (.quiet srv)) .recovered hi
    (by simp) (by simp)
  rw [State.perform_srv_self] at hset
  have hre := h.andQuiet hset
  unfold logRecovered
  dsimp only
  split_ifs
  · have hs := moves_startElection (r := r) (s := s.perform i (.quiet
      { srv with phase := .recovered })) hi
    rw [State.perform_srv_self, State.perform_perform] at hs
    exact hre.trans (hs rfl ht fun hr => absurd hr hlog)
  · have hg := moves_refresh (r := r) hi (idle_hbEvent (g := g) (i := i)
      (s := s.perform i (.quiet { srv with phase := .recovered })) .off)
    rw [State.perform_srv_self] at hg
    exact moves_serverToFollower hi ackOk rfl ht (hre.andQuiet hg)

theorem moves_adopt {w : ℕ} (hi : i < g.size) (hlog : ¬ r.log) (hph : (s.srv i).phase = .recovered)
    (hgen : Genuine s.trace w) (hle : (s.srv i).sid ≤ w)
    (hterm : sidGetTerm w = sidGetTerm (s.srv i).sid) : Moves g r s (s.perform i (.quiet
      (grantAccess g i { s.srv i with sid := w, hbEvent := .off }))) := by
  have ha := (Move.adopt (r := r) hi hph hgen hle hterm fun hr => absurd hr hlog).moves
  have hg := moves_refresh (r := r) hi (idle_hbEvent (g := g) (i := i)
    (s := s.perform i (.quiet { s.srv i with sid := w })) .off)
  rw [State.perform_srv_self] at hg
  exact ha.andQuiet hg

theorem foldl_verifyBody (posted : ℕ → ℤ) (rsid : ℕ → ℕ) (sid : ℕ) (ks : List ℕ) :
    ks.foldl (verifyBody posted rsid) sid = sid ∨ sid < ks.foldl (verifyBody posted rsid) sid ∧
        sidGetL (ks.foldl (verifyBody posted rsid) sid) ∧
        ∃ k, ks.foldl (verifyBody posted rsid) sid = rsid k := by
  induction ks generalizing sid with
  | nil => exact .inl rfl
  | cons k ks ih =>
    rw [foldl_cons]
    rcases ih (verifyBody posted rsid sid k) with heq | ⟨hlt, hl, hk⟩
    · rw [heq]
      unfold verifyBody
      split_ifs with h
      · exact .inr ⟨h.2.1, h.2.2, k, rfl⟩
      · exact .inl rfl
    · refine .inr ⟨lt_of_le_of_lt ?_ hlt, hl, hk⟩
      unfold verifyBody
      split_ifs with h
      · exact h.2.1.le
      · exact le_rfl

theorem moves_verified (srv : Server) (posted : ℕ → ℤ) (hinv : SidInv g s) (hi : i < g.size)
    (ackOk : Bool) (hlog : ¬ r.log) (hterm : TermsBelow g s) (hph : srv.phase = .recovered)
    (hsid : srv.sid = (s.srv i).sid) (hre : Moves g r s (s.perform i (.quiet srv))) :
    Moves g r s (s.perform i (let newSid := (g.others i).foldl (verifyBody posted srv.rsid) srv.sid
      if newSid ≠ srv.sid then serverToFollower g i ackOk { srv with sid := newSid }
      else .quiet srv)) := by
  have hbe := foldl_verifyBody posted srv.rsid srv.sid (g.others i)
  dsimp only
  generalize (g.others i).foldl (verifyBody posted srv.rsid) srv.sid = w at hbe ⊢
  split_ifs with hne
  · obtain ⟨hlt, hl, k, hk⟩ := hbe.resolve_left hne
    have hkn : Known g (s.perform i (.quiet srv)) w := by
      refine (hre.sid hinv).1.holds i w (.inr (.inr (.inl ⟨k, ?_⟩)))
      rw [State.perform_srv_self]
      exact hk
    have hb := hkn.term_lt (hterm.perform (.quiet srv) hsid)
    have hgen := hkn.genuine hl
    refine moves_serverToFollower hi ackOk hph hb (hre.andQuiet ?_)
    have hf := moves_follow (r := r) (w := w) (s := s.perform i (.quiet srv)) hi
    have ha := moves_adopt (r := r) (w := w) (s := s.perform i (.quiet srv)) hi hlog
    rw [State.perform_srv_self] at hf ha
    rcases (sidGetTerm_mono hlt.le).lt_or_eq with hterm | hterm
    · exact hf hph hl hgen hterm fun hr => absurd hr hlog
    · exact ha hph hgen hlt.le hterm.symm
  · exact hre

theorem moves_rcVerifyLeadership {landed : List ℕ} {batches : List (List Wc)} {ackOk : Bool}
    {eff : Effect} (hinv : SidInv g s) (hi : i < g.size) (hlog : ¬ r.log)
    (hterm : TermsBelow g s) (hph : (s.srv i).phase = .recovered) (hl : ∀ k ∈ landed, k < g.size)
    (h : rcVerifyLeadership g i (fun k => (s.srv k).sid) landed batches ackOk (s.srv i) =
      some eff) : Moves g r s (s.perform i eff) := by
  obtain ⟨⟨rc, posted⟩, -, rfl⟩ := map_eq_some_iff.mp h
  refine moves_verified { s.srv i with
    rsid := fun k => if k ∈ landed then (s.srv k).sid else (s.srv i).rsid k } posted
    hinv hi ackOk hlog hterm hph rfl ?_
  exact moves_readRsid landed _ hi hl fun _ => .inl rfl

theorem moves_boot (hinv : SidInv g s) (hi : i < g.size)
    (ht : sidGetTerm (s.srv i).sid + 1 < termLimit) (hph : (s.srv i).phase = .starting) :
    Moves g r s (s.perform i (startElection g i { s.srv i with phase := .recovered })) := by
  have hset := moves_setPhase (r := r) (s := s) .recovered hi (by simp) (by simp)
  have hs := moves_startElection (r := r) (s := s.perform i (.quiet
    { s.srv i with phase := .recovered })) hi
  rw [State.perform_srv_self, State.perform_perform] at hs
  refine hset.trans (hs rfl ht fun _ hl => ?_)
  have hn : isLeader i (s.srv i) = false := by
    simp [isLeader, (hinv.joining i).1 hph, show sidGetL sidNull = false by decide]
  exact absurd (hl.symm.trans ((isLeader_congr rfl).trans hn)) (by simp)

theorem moves_singleStart (hinv : SidInv g s) (hsi : g.size = 1)
    (hph : (s.srv 0).phase = .starting) : Moves g r s (s.perform 0 ⟨{ s.srv 0 with
      phase := .alone, sid := sidSetIdx (sidSetL (sidSetTerm (s.srv 0).sid 1)) 0 }, [],
      [.elected 0 1]⟩) := by
  have hn := (hinv.joining 0).1 hph
  have hset := moves_setPhase (r := r) (s := s) (i := 0) (g := g) .alone (by omega)
    (by simp) (by simp)
  have hs := Move.single (r := r) (s := s.perform 0 (.quiet { s.srv 0 with phase := .alone })) hsi
  rw [State.perform_srv_self, State.perform_perform] at hs
  refine hset.trans ?_
  rw [hn, show sidSetIdx (sidSetL (sidSetTerm sidNull 1)) 0 = sidMk 1 true 0 by decide]
  exact (hs rfl (by rw [Effect.quiet, hn]; decide)).moves

theorem moves_loadLog {ph : Phase} {log : Log} (hi : i < g.size) (hv : ¬ r.vote)
    (hne : ph ≠ .starting) (hj : ph ≠ .joining) :
    Moves g r s (s.perform i (.quiet { s.srv i with phase := ph, log := log })) := by
  have hset := moves_setPhase (r := r) (s := s) ph hi hne fun h => absurd h hj
  have hl := Move.load (r := r) (s := s.perform i (.quiet { s.srv i with phase := ph }))
    log hi hv
  rw [State.perform_srv_self] at hl
  exact hset.andQuiet hl.moves

theorem moves_pollCompletion {srv : Server} (hi : i < g.size)
    (h : pollCompletion j (s.srv i) = some srv) : Moves g r s (s.perform i (.quiet srv)) := by
  unfold pollCompletion at h
  cases hq : (s.srv i).compQueue j with
  | nil => simp [hq] at h
  | cons wc rest =>
    obtain ⟨wrId, ok⟩ := wc
    simp only [hq, Option.some.injEq] at h
    have hidle := moves_idle (r := r) hi (idle_failCount (g := g) (s := s) (i := i)
      (if ok then Function.update (s.srv i).failCount j 0 else (s.srv i).failCount))
    have hc := Move.complete (r := r) (s := s.perform i (.quiet { s.srv i with
      failCount := if ok then Function.update (s.srv i).failCount j 0 else (s.srv i).failCount }))
      (j := j) wrId ok rest hi
    rw [State.perform_srv_self] at hc
    rw [← h]
    exact hidle.andQuiet hc.moves

/-! ### All steps -/

def Keeps (g : Group) (r : Rules) (s : State) : Event → Prop
  | .restart _ => False
  | .getReplicatedVote .. | .pollSmReply .. => ¬ r.vote
  | .recoverLogOffsets .. | .recoverLogEntries .. => ¬ r.vote ∧ ¬ r.log
  | .deliver (.voteAck _ j _ t) => r.vote → sidGetTerm (s.srv j).sid = t
  | .hbReceive i _ => r.log → 0 < sidGetTerm (s.srv i).sid
  | .pollVoteRequests i _ => (r.log → 0 < sidGetTerm (s.srv i).sid) ∧
      (r.vote → WorseRival g i (s.srv i) → NoAcks g i (s.srv i))
  | .verifyLeadership .. => ¬ r.log
  | .getTailqMessage i => r.log → (s.srv i).queue ≠ [] → isLeader i (s.srv i)
  | .logExec i j _ => r.log → ∀ wr ∈ ((s.srv i).sendQueue j).head?,
      sidGetTerm (s.srv j).sid = wr.term ∧ sidGetIdx (s.srv j).sid = i
  | _ => True

theorem runBy_eq_some {guard : Bool} {eff : Server → Effect} : s.runBy g i guard eff = some s' ↔
      i < g.size ∧ guard ∧ s' = s.perform i (eff (s.srv i)) := by
  unfold State.runBy
  split_ifs with h
  · simp [h, eq_comm]
  · simp only [false_iff]
    exact fun h' => h ⟨h'.1, h'.2.1⟩

theorem towards_eq_some {guard : Bool} {f : Server → Server} :
    s.towards g i j guard f = some s' ↔ i < g.size ∧ guard ∧ j < g.size ∧ j ≠ i ∧
      s' = s.perform i (.quiet (f (s.srv i))) := by
  simp [State.towards, runBy_eq_some, and_assoc]

theorem runPartial_eq_some {guard : Bool} {eff : Server → Option Effect} :
    s.runPartial g i guard eff = some s' ↔
      i < g.size ∧ guard ∧ ∃ e, eff (s.srv i) = some e ∧ s' = s.perform i e := by
  unfold State.runPartial
  split_ifs with h
  · simp [h, eq_comm]
  · simp only [false_iff]
    exact fun h' => h ⟨h'.1, h'.2.1⟩

theorem moves_of_step {e : Event} (hinv : SidInv g s) (hterm : TermsBelow g s)
    (hok : Keeps g r s e) (h : step g s e = some s') : Moves g r s s' := by
  unfold step at h
  cases e with
  | restart i => exact hok.elim
  | boot i =>
    obtain ⟨hi, hg, rfl⟩ := runBy_eq_some.mp h
    simp only [Bool.and_eq_true, beq_iff_eq] at hg
    exact moves_boot hinv hi (hterm i hi) hg.2
  | singleStart i =>
    obtain ⟨hi, hg, rfl⟩ := runBy_eq_some.mp h
    simp only [Bool.and_eq_true, beq_iff_eq] at hg
    obtain rfl : i = 0 := by omega
    exact moves_singleStart hinv hg.1 hg.2
  | getReplicatedVote i landed batches =>
    obtain ⟨hi, hg, e, he, rfl⟩ := runPartial_eq_some.mp h
    simp only [completionsLanded, Bool.and_eq_true, Bool.or_eq_true, beq_iff_eq,
      List.all_eq_true, decide_eq_true_eq] at hg
    obtain ⟨srv, hsrv, rfl⟩ := map_eq_some_iff.mp he
    exact moves_getReplicatedVoteCb hinv hi hok hg.1 hg.2.1.1 hsrv
  | sendSmRequest i =>
    obtain ⟨hi, -, rfl⟩ := runBy_eq_some.mp h
    refine moves_idle_tells hi { Idle.refl g s i with } fun m hm => ?_
    obtain ⟨k, -, rfl⟩ := List.mem_map.mp hm
    exact .smRequest k
  | pollSmRequests i =>
    obtain ⟨hi, -, rfl⟩ := runBy_eq_some.mp h
    refine moves_idle_tells hi { Idle.refl g s i with } fun m hm => ?_
    obtain ⟨k, -, rfl⟩ := List.mem_map.mp hm
    exact .smReply k
  | pollSmReply i applied =>
    obtain ⟨hi, hph, rfl⟩ := runBy_eq_some.mp h
    exact moves_pollSmReply hinv hi hok (beq_iff_eq.mp hph) applied
  | recoverLogOffsets i j ackOk =>
    obtain ⟨hi, -, rfl⟩ := runBy_eq_some.mp h
    unfold recoverLogOffsets
    split_ifs
    · exact moves_logRecovered hi ackOk hok.2 (hterm i hi) (moves_idle hi (Idle.refl g s i))
    · exact moves_loadLog hi hok.1 (by simp) (by simp)
  | recoverLogEntries i ackOk =>
    dsimp only at h
    split at h
    · obtain ⟨hi, -, rfl⟩ := runBy_eq_some.mp h
      exact moves_logRecovered hi ackOk hok.2 (hterm i hi) (Move.load _ hi hok.1).moves
    · cases h
  | hbReceive i ackOk =>
    obtain ⟨hi, hg, rfl⟩ := runBy_eq_some.mp h
    simp only [isRecovered, Bool.and_eq_true, beq_iff_eq] at hg
    exact moves_hbReceiveCb hinv hi ackOk hterm hg.1 hok
  | toAdjust i =>
    obtain ⟨hi, -, rfl⟩ := runBy_eq_some.mp h
    exact moves_idle hi idle_toAdjustCb
  | hbSend i ackOk =>
    obtain ⟨hi, hg, rfl⟩ := runBy_eq_some.mp h
    simp only [isRecovered, Bool.and_eq_true, beq_iff_eq] at hg
    exact moves_hbSendCb hi ackOk hterm hg.1
  | pollVoteRequests i ackOk =>
    obtain ⟨hi, hph, rfl⟩ := runBy_eq_some.mp h
    exact moves_pollVoteRequests hinv hi ackOk hterm (beq_iff_eq.mp hph) hok.1 hok.2
  | pollVoteCount i =>
    obtain ⟨hi, hg, rfl⟩ := runBy_eq_some.mp h
    simp only [isRecovered, Bool.and_eq_true, beq_iff_eq] at hg
    exact moves_pollVoteCount hi hg.1 hg.2
  | verifyLeadership i landed batches ackOk =>
    obtain ⟨hi, hg, e, he, rfl⟩ := runPartial_eq_some.mp h
    simp only [isRecovered, completionsLanded, Bool.and_eq_true, beq_iff_eq, List.all_eq_true,
      decide_eq_true_eq] at hg
    exact moves_rcVerifyLeadership hinv hi hok hterm hg.1.1 hg.2.1.1 he
  | submit i req =>
    obtain ⟨hi, -, rfl⟩ := runBy_eq_some.mp h
    exact moves_idle hi { Idle.refl g s i with }
  | getTailqMessage i =>
    obtain ⟨hi, -, rfl⟩ := runBy_eq_some.mp h
    exact moves_getTailqMessage hi hok
  | appendHead i offset =>
    obtain ⟨hi, hg, rfl⟩ := runBy_eq_some.mp h
    rw [Bool.and_eq_true] at hg
    exact (Move.append _ _ _ _ hi fun _ => hg.2).moves
  | applyEntries i =>
    obtain ⟨hi, -, rfl⟩ := runBy_eq_some.mp h
    exact (Move.apply hi).moves
  | logAdjustment i j =>
    obtain ⟨hi, -, -, -, rfl⟩ := towards_eq_some.mp h
    exact (Move.replicate hi (.inl rfl)).moves
  | updateRemoteLog i j =>
    obtain ⟨hi, -, -, -, rfl⟩ := towards_eq_some.mp h
    exact (Move.replicate hi (.inr (.inl rfl))).moves
  | advanceCommit i =>
    obtain ⟨hi, -, rfl⟩ := runBy_eq_some.mp h
    exact (Move.commit hi).moves
  | updateRemoteCommit i j =>
    obtain ⟨hi, -, -, -, rfl⟩ := towards_eq_some.mp h
    exact (Move.replicate hi (.inr (.inr rfl))).moves
  | pollCompletion i j =>
    obtain ⟨hi, -, e, he, rfl⟩ := runPartial_eq_some.mp h
    obtain ⟨srv, hsrv, rfl⟩ := map_eq_some_iff.mp he
    exact moves_pollCompletion hi hsrv
  | ctrlFailure i j =>
    obtain ⟨hi, -, -, -, rfl⟩ := towards_eq_some.mp h
    exact moves_idle hi { Idle.refl g s i with }
  | logExec i j ok =>
    dsimp only at h
    split at h
    · cases h
    · rename_i wr rest hq
      split_ifs at h with hg
      obtain ⟨hi, hj, hij, -, -⟩ := hg
      obtain rfl := Option.some.inj h
      exact (Move.exec hi hj hij hq fun hr => hok hr wr (by simp [hq])).moves
  | logFail i j =>
    dsimp only at h
    split at h
    · cases h
    · obtain ⟨hi, -, -, -, rfl⟩ := towards_eq_some.mp h
      exact (Move.fail _ hi).moves
  | deliver m =>
    dsimp only at h
    split_ifs at h with hm
    obtain rfl := Option.some.inj h
    refine (Move.deliver hm ?_).moves
    rintro hr i j c t rfl
    exact hok hr
  | drop m =>
    dsimp only at h
    split_ifs at h with hm
    obtain rfl := Option.some.inj h
    exact (Move.drop hm).moves

end VmFt.Dare
