import VmFt.Dare.Steps

/-! # Followers open their log

A server that adopts the heartbeat of a leader of a higher term opens its log to
the leader and sends it an ACK. For a heartbeat of its own term it relies on the
vote it gave, which it need not have given to this leader.
-/

namespace VmFt.Dare

open VmFt.System List Function Option

variable {g : Group} {s s' : State} {srv srv' : Server} {eff : Effect} {i j k : ℕ}

/-- The group together with all writes into control data that were ever posted. -/
structure Record where
  state : State
  sent : List Msg

def Record.init (g : Group) : Record := ⟨.init g, []⟩

def recorded (g : Group) : System Record Event :=
  ⟨fun r e => (step g r.state e).map fun s => ⟨s, r.sent ++ s.net.drop r.state.net.length⟩⟩

def Opened (i : ℕ) (srv : Server) : Prop :=
  srv.phase = .recovered → sidGetL srv.sid = false → sidGetIdx srv.sid ≠ i →
    srv.logAccess (sidGetIdx srv.sid) = true

def AcksVotes (g : Group) (seen : List Obs) (sent : List Msg) : Prop :=
  ∀ p t c, .voted p t c ∈ seen → c < g.size → c ≠ p → ∃ commit, .voteAck p c commit t ∈ sent

/-- The heartbeats `hb_receive_cb` looks at. -/
def heartbeats (g : Group) (i : ℕ) (srv : Server) : List ℕ :=
  srv.latestHb :: (g.others i).map srv.hb

/-- The heartbeats a server can take over: those of leaders, above its SID. -/
def Offered (g : Group) (i : ℕ) (srv : Server) (hb : ℕ) : Prop :=
  hb ∈ heartbeats g i srv ∧ sidGetL hb ∧ srv.sid < hb

instance (hb : ℕ) : Decidable (Offered g i srv hb) :=
  inferInstanceAs (Decidable (_ ∧ _))

/-- A leader's heartbeat of the server's own term comes from the server it voted for, and a
heartbeat that a voter takes over outside of `hb_receive_cb` is one of a leader. -/
def FollowsVote (g : Group) (r : Record) : Event → Prop
  | .hbReceive i _ => ∀ hb ∈ heartbeats g i (r.state.srv i), Offered g i (r.state.srv i) hb →
      sidGetTerm hb = sidGetTerm (r.state.srv i).sid →
      sidGetIdx hb = sidGetIdx (r.state.srv i).sid ∧
        .voted i (sidGetTerm hb) (sidGetIdx hb) ∈ r.state.trace
  | .pollVoteRequests i _ =>
      let hb := (r.state.srv i).hb (sidGetIdx (r.state.srv i).sid)
      hb ≠ 0 → sidGetTerm hb = sidGetTerm (r.state.srv i).sid → sidGetL hb
  | _ => True

instance (r : Record) (e : Event) : Decidable (FollowsVote g r e) := by
  cases e <;> unfold FollowsVote <;> infer_instance

/-! ### What the functions of a server leave open -/

structure Alike (srv srv' : Server) : Prop where
  phase : srv'.phase = srv.phase
  sid : srv'.sid = srv.sid
  logAccess : srv'.logAccess = srv.logAccess

theorem Alike.trans {srv'' : Server} (h : Alike srv srv') (h' : Alike srv' srv'') :
    Alike srv srv'' :=
  ⟨h'.phase.trans h.phase, h'.sid.trans h.sid, h'.logAccess.trans h.logAccess⟩

theorem Opened.of_alike (h : Opened i srv) (ha : Alike srv srv') : Opened i srv' := by
  unfold Opened
  rw [ha.phase, ha.sid, ha.logAccess]
  exact h

theorem opened_of_idx (h : sidGetIdx srv.sid = i) : Opened i srv :=
  fun _ _ hne => absurd h hne

theorem opened_of_leader (h : sidGetL srv.sid = true) : Opened i srv := by
  intro _ hl
  rw [h] at hl
  cases hl

theorem opened_of_phase (h : srv.phase ≠ .recovered) : Opened i srv :=
  fun hph => absurd hph h

theorem acksVotes_nil {sent : List Msg} : AcksVotes g [] sent :=
  fun _ _ _ h => absurd h not_mem_nil

theorem AcksVotes.append {seen seen' : List Obs} {sent sent' : List Msg}
    (h : AcksVotes g seen sent) (h' : AcksVotes g seen' sent') :
    AcksVotes g (seen ++ seen') (sent ++ sent') := by
  intro p t c hv hc hne
  rcases mem_append.mp hv with hv | hv
  · obtain ⟨commit, hm⟩ := h p t c hv hc hne
    exact ⟨commit, mem_append_left _ hm⟩
  · obtain ⟨commit, hm⟩ := h' p t c hv hc hne
    exact ⟨commit, mem_append_right _ hm⟩

/-- A function after which the server has opened its log to whom it supports. -/
structure Sound (g : Group) (i : ℕ) (eff : Effect) : Prop where
  opened : Opened i eff.srv
  acks : AcksVotes g eff.seen eff.sent

theorem Sound.quiet (h : Opened i srv) : Sound g i (.quiet srv) :=
  ⟨h, acksVotes_nil⟩

theorem Sound.andThen {f : Server → Effect} (h : AcksVotes g eff.seen eff.sent)
    (h' : Sound g i (f eff.srv)) : Sound g i (eff.andThen f) :=
  ⟨h'.opened, h.append h'.acks⟩

theorem opened_rcRestoreLogAccess (g : Group) (i : ℕ) (srv : Server) :
    Opened i (rcRestoreLogAccess g i srv) := by
  unfold rcRestoreLogAccess
  dsimp only
  split_ifs with hne hl
  · exact fun _ _ _ => update_self ..
  · exact opened_of_idx (not_not.mp hne)
  · exact opened_of_idx (not_not.mp hne)

section Elections

variable (hi : i < 256)

include hi

theorem sidGetIdx_startSid (sid : ℕ) : sidGetIdx (startSid i sid) = i := by
  rw [startSid, sidSetIdx_eq hi, sidGetIdx_eq]
  omega

theorem sound_startElection (srv : Server) : Sound g i (startElection g i srv) := by
  constructor
  · exact opened_of_idx (sidGetIdx_startSid hi srv.sid)
  · intro p t c hv
    simp [startElection, Effect.andThen, rcSendVoteRequest] at hv

theorem sound_ackOrStartElection (ackOk : Bool) (h : Opened i srv) :
    Sound g i (ackOrStartElection g i ackOk srv) := by
  unfold ackOrStartElection
  dsimp only
  split
  · exact .andThen acksVotes_nil (sound_startElection hi _)
  · exact ⟨h.of_alike ⟨rfl, rfl, rfl⟩, acksVotes_nil⟩

theorem sound_serverToFollower (ackOk : Bool) (srv : Server) :
    Sound g i (serverToFollower g i ackOk srv) := by
  unfold serverToFollower
  dsimp only
  have ho := opened_rcRestoreLogAccess g i
    (publishNcBuf i (rcRevokeLogAccess { srv with hbEvent := .off }))
  split
  · exact sound_ackOrStartElection hi ackOk ho
  · exact .quiet (ho.of_alike ⟨rfl, rfl, rfl⟩)

theorem sound_logRecovered (ackOk : Bool) (srv : Server) :
    Sound g i (logRecovered g i ackOk srv) := by
  unfold logRecovered
  dsimp only
  split
  · exact sound_startElection hi _
  · exact sound_serverToFollower hi ackOk _

end Elections

/-! ### The loop over the heartbeats -/

structure HbLeft (srv srv' : Server) : Prop where
  alike : Alike srv srv'
  hb : ∀ k, srv'.hb k = 0 ∨ srv'.hb k = srv.hb k
  latestHb : srv'.latestHb = 0 ∨ srv'.latestHb = srv.latestHb

theorem HbLeft.reset_hb (h : HbLeft srv srv') (k : ℕ) :
    HbLeft srv { srv' with hb := Function.update srv'.hb k 0 } := by
  refine ⟨⟨h.alike.phase, h.alike.sid, h.alike.logAccess⟩, fun k' => ?_, h.latestHb⟩
  by_cases hk : k' = k
  · subst hk
    exact .inl (update_self ..)
  · rw [show ({ srv' with hb := Function.update srv'.hb k 0 } : Server).hb k' = srv'.hb k' from
      update_of_ne hk ..]
    exact h.hb k'

theorem HbLeft.fetchHb (h : HbLeft srv srv') (leader k : ℕ) :
    HbLeft srv (fetchHb leader k srv').2 ∧ ((fetchHb leader k srv').1 = 0 ∨
      (fetchHb leader k srv').1 = srv.latestHb ∨ (fetchHb leader k srv').1 = srv.hb k) := by
  unfold Dare.fetchHb
  split_ifs
  · exact ⟨⟨⟨h.alike.phase, h.alike.sid, h.alike.logAccess⟩, h.hb, .inl rfl⟩,
      h.latestHb.imp_right .inl⟩
  · exact ⟨h.reset_hb k, (h.hb k).imp_right .inr⟩
  · exact ⟨h.reset_hb k, (h.hb k).imp_right .inr⟩

structure HbFound (g : Group) (i : ℕ) (srv : Server) (st : HbLoop) : Prop where
  left : HbLeft srv st.srv
  le : srv.sid ≤ st.newSid
  newSid : st.newSid = srv.sid ∨ Offered g i srv st.newSid

theorem HbFound.body {st : HbLoop} (h : HbFound g i srv st) (hk : k ∈ g.others i) (leader : ℕ) :
    HbFound g i srv (hbReceiveBody i leader st k) := by
  obtain ⟨hlf, hf⟩ := h.left.fetchHb leader k
  unfold hbReceiveBody
  generalize fetchHb leader k st.srv = fetched at hlf hf ⊢
  obtain ⟨hb, srv'⟩ := fetched
  dsimp only at hlf hf ⊢
  split_ifs with h0 hlt hl hl
  · exact ⟨hlf, h.le, h.newSid⟩
  · exact ⟨hlf, h.le, h.newSid⟩
  · exact ⟨hlf, h.le, h.newSid⟩
  · have hle : srv.sid ≤ hb := h.le.trans (not_lt.mp hlt)
    refine ⟨hlf, hle, hle.eq_or_lt.imp Eq.symm fun hlt => ?_⟩
    refine ⟨?_, hl, hlt⟩
    rcases hf.resolve_left h0 with rfl | rfl
    · exact mem_cons_self
    · exact mem_cons_of_mem _ (List.mem_map_of_mem hk)
  · exact ⟨hlf, h.le, h.newSid⟩

theorem HbFound.foldl {st : HbLoop} (h : HbFound g i srv st) (leader : ℕ) {ks : List ℕ}
    (hks : ∀ k ∈ ks, k ∈ g.others i) : HbFound g i srv (ks.foldl (hbReceiveBody i leader) st) := by
  induction ks generalizing st with
  | nil => exact h
  | cons k ks ih =>
    exact ih (h.body (hks k mem_cons_self) leader) fun k' hk' =>
      hks k' (mem_cons_of_mem _ hk')

/-- What `hb_receive_cb` does once its loop is done: it starts an election, follows a leader of a
higher term, takes over the SID of a leader of its own term, or leaves the SID as it is. -/
inductive HbOutcome (g : Group) (i : ℕ) (ackOk : Bool) (srv srv' : Server) : Effect → Prop
  | election : HbOutcome g i ackOk srv srv' (startElection g i srv')
  | follow (hb : ℕ) (hoffer : Offered g i srv hb) (hterm : sidGetTerm hb ≠ sidGetTerm srv.sid) :
      HbOutcome g i ackOk srv srv' (serverToFollower g i ackOk { srv' with sid := hb })
  | adopt (hb : ℕ) (hoffer : Offered g i srv hb) (hterm : sidGetTerm hb = sidGetTerm srv.sid) :
      HbOutcome g i ackOk srv srv' (.quiet { srv' with sid := hb })
  | keep : HbOutcome g i ackOk srv srv' (.quiet srv')

theorem hbReceiveCb_outcome (ackOk : Bool) (srv : Server) : ∃ srv' replies f, HbLeft srv srv' ∧
      hbReceiveCb g i ackOk srv = Effect.andThen ⟨srv', replies, []⟩ f ∧
      HbOutcome g i ackOk srv srv' (f srv') := by
  have hi : HbFound g i srv
      ⟨{ srv with log := { srv.log with tail := none } }, srv.sid, true, []⟩ :=
    ⟨⟨⟨rfl, rfl, rfl⟩, fun _ => .inr rfl, .inr rfl⟩, le_rfl, .inl rfl⟩
  have hf := hi.foldl (sidGetIdx srv.sid) fun k (hk : k ∈ g.others i) => hk
  unfold hbReceiveCb
  dsimp only
  generalize List.foldl _ _ _ = st at hf ⊢
  refine ⟨st.srv, st.replies, _, hf.left, rfl, ?_⟩
  have hsid := hf.left.alike.sid
  split_ifs with ht hne hterm
  · exact .election
  · rw [hsid] at hne hterm
    exact .follow _ (hf.newSid.resolve_left hne) (Ne.symm hterm)
  · rw [hsid] at hne hterm
    exact .adopt _ (hf.newSid.resolve_left hne) (not_not.mp hterm).symm
  · exact .keep

theorem sound_hbReceiveCb (hi : i < 256) (ackOk : Bool) (h : Opened i srv) :
    Sound g i (hbReceiveCb g i ackOk srv) := by
  obtain ⟨srv', replies, f, hl, heq, ho⟩ := hbReceiveCb_outcome (g := g) (i := i) ackOk srv
  rw [heq]
  refine .andThen acksVotes_nil ?_
  dsimp only
  generalize f srv' = eff at ho
  cases ho with
  | election => exact sound_startElection hi _
  | follow hb _ _ => exact sound_serverToFollower hi ackOk _
  | adopt hb hoffer _ => exact .quiet (opened_of_leader hoffer.2.1)
  | keep => exact .quiet (h.of_alike hl.alike)

/-! ### The other functions -/

theorem alike_hbSendLoop (srv : Server) (ks : List ℕ) : Alike srv (hbSendLoop srv ks).1 := by
  induction ks generalizing srv with
  | nil => exact ⟨rfl, rfl, rfl⟩
  | cons k ks ih =>
    rw [hbSendLoop]
    split
    · have hrest := ih { srv with hb := Function.update srv.hb k 0 }
      exact { hrest with }
    · exact ⟨rfl, rfl, rfl⟩

theorem sound_hbSendCb (hi : i < 256) (ackOk : Bool) (h : Opened i srv) :
    Sound g i (hbSendCb g i ackOk srv) := by
  have ha := alike_hbSendLoop srv (g.others i)
  unfold hbSendCb
  generalize hbSendLoop srv (g.others i) = r at ha
  dsimp only
  split
  · exact sound_serverToFollower hi ackOk _
  · exact ⟨h.of_alike ha, acksVotes_nil⟩

theorem sidGetIdx_bumpSid (hi : i < 256) (sid t : ℕ) : sidGetIdx (bumpSid i sid t) = i := by
  rw [bumpSid, sidSetIdx_eq hi, sidGetIdx_eq]
  omega

theorem sent_ackOrStartElection (ackOk : Bool) (srv : Server) :
    ∀ m ∈ rcSendVoteAck g i srv, m ∈ (ackOrStartElection g i ackOk srv).sent := by
  intro m hm
  unfold ackOrStartElection
  dsimp only
  split
  · exact mem_append_left _ hm
  · exact hm

theorem mem_rcSendVoteAck (hlt : sidGetIdx srv.sid < g.size) (hne : sidGetIdx srv.sid ≠ i) :
    .voteAck i (sidGetIdx srv.sid) srv.log.commit (sidGetTerm srv.sid) ∈ rcSendVoteAck g i srv := by
  unfold rcSendVoteAck
  dsimp only
  rw [if_pos ⟨hlt, hne⟩]
  exact mem_singleton_self _

theorem sound_giveVote (hi : i < 256) (ackOk : Bool) (sid : ℕ) (srv : Server) :
    Sound g i ((giveVote g i sid srv).andThen (ackOrStartElection g i ackOk)) := by
  have ho : Opened i (giveVote g i sid srv).srv := opened_rcRestoreLogAccess g i _
  have hsid : (giveVote g i sid srv).srv.sid = sid := by
    unfold giveVote rcRestoreLogAccess
    dsimp only
    split_ifs <;> rfl
  have hs := sound_ackOrStartElection (g := g) hi ackOk ho
  refine ⟨hs.opened, ?_⟩
  intro p t c hv hc hne
  rcases mem_append.mp hv with hv | hv
  · simp only [giveVote, mem_singleton, Obs.voted.injEq] at hv
    obtain ⟨rfl, rfl, rfl⟩ := hv
    have hack := @mem_rcSendVoteAck g (giveVote g p sid srv).srv p (by rwa [hsid]) (by rwa [hsid])
    rw [hsid] at hack
    exact ⟨_, mem_append_right _ (sent_ackOrStartElection ackOk _ _ hack)⟩
  · obtain ⟨commit, hm⟩ := hs.acks p t c hv hc hne
    exact ⟨commit, mem_append_right _ hm⟩

theorem sound_pollVoteRequests (hi : i < 256) (ackOk : Bool) (h : Opened i srv)
    (ha : srv.hb (sidGetIdx srv.sid) ≠ 0 →
      sidGetTerm (srv.hb (sidGetIdx srv.sid)) = sidGetTerm srv.sid →
      sidGetL (srv.hb (sidGetIdx srv.sid))) : Sound g i (pollVoteRequests g i ackOk srv) := by
  unfold pollVoteRequests
  dsimp only
  split_ifs with hl hhb hbe hown
  · exact .quiet h
  · exact .quiet (opened_of_leader (ha hhb.1 hhb.2))
  · exact .quiet (h.of_alike ⟨rfl, rfl, rfl⟩)
  · exact ⟨opened_of_idx (sidGetIdx_bumpSid hi _ _), fun p t c hv => by simp at hv⟩
  · exact sound_giveVote hi ackOk _ _

structure Still (srv : Server) (eff : Effect) : Prop where
  alike : Alike srv eff.srv
  voteless : ∀ p t c, .voted p t c ∉ eff.seen

theorem Still.quiet (h : Alike srv srv') : Still srv (.quiet srv') :=
  ⟨h, fun _ _ _ => not_mem_nil⟩

theorem Still.andThen {f : Server → Effect} (h : Still srv eff) (h' : Still eff.srv (f eff.srv)) :
    Still srv (eff.andThen f) := by
  refine ⟨h.alike.trans h'.alike, fun p t c hv => ?_⟩
  exact (mem_append.mp hv).elim (h.voteless p t c) (h'.voteless p t c)

theorem Still.acks (h : Still srv eff) : AcksVotes g eff.seen eff.sent :=
  fun p t c hv => absurd hv (h.voteless p t c)

theorem Still.sound (h : Still srv eff) (ho : Opened i srv) : Sound g i eff :=
  ⟨ho.of_alike h.alike, h.acks⟩

theorem alike_raiseCommit (offset : ℕ) (srv : Server) : Alike srv (raiseCommit offset srv) := by
  unfold raiseCommit
  split <;> exact ⟨rfl, rfl, rfl⟩

theorem alike_foldl_voteCountBody (ks : List ℕ) {st : Server × ℕ} (h : Alike srv st.1) :
    Alike srv (ks.foldl voteCountBody st).1 := by
  induction ks generalizing st with
  | nil => exact h
  | cons k ks ih =>
    refine ih ?_
    unfold voteCountBody
    split
    · exact h
    · refine Alike.trans ?_ (alike_raiseCommit _ _)
      exact { h with }

theorem still_appendEntry (reqId cltId : ℕ) (type : EntryType) (data : EntryData)
    (srv : Server) : Still srv (appendEntry i reqId cltId type data srv) := by
  refine ⟨⟨rfl, rfl, rfl⟩, fun p t c => ?_⟩
  unfold appendEntry
  dsimp only
  split <;> simp

theorem still_applyCommittedEntries (i : ℕ) (srv : Server) :
    Still srv (applyCommittedEntries i srv) := by
  unfold applyCommittedEntries
  split
  · exact ⟨⟨rfl, rfl, rfl⟩, fun p t c => by simp⟩
  · exact .quiet ⟨rfl, rfl, rfl⟩

theorem still_getTailqMessage (srv : Server) : Still srv (getTailqMessage i srv) := by
  suffices h : ∀ (reqs : List Request) (eff : Effect), Still srv eff →
      Still srv (reqs.foldl (fun eff r =>
        eff.andThen (appendEntry i r.reqId r.connId r.type (.cmd r.cmd))) eff) from
    h _ _ (.quiet ⟨rfl, rfl, rfl⟩)
  intro reqs
  induction reqs with
  | nil => exact fun eff h => h
  | cons r reqs ih => exact fun eff h => ih _ (h.andThen (still_appendEntry _ _ _ _ _))

theorem sid_rcRestoreLogAccess (srv : Server) : (rcRestoreLogAccess g i srv).sid = srv.sid := by
  unfold rcRestoreLogAccess
  dsimp only
  split_ifs <;> rfl

theorem sound_pollVoteCount (h : Opened i srv) : Sound g i (pollVoteCount g i srv) := by
  have ha : Alike srv ((g.others i).foldl voteCountBody (srv, 1)).1 :=
    alike_foldl_voteCountBody (g.others i) ⟨rfl, rfl, rfl⟩
  unfold pollVoteCount
  generalize (g.others i).foldl voteCountBody (srv, 1) = st at ha
  obtain ⟨srv', count⟩ := st
  dsimp only at ha ⊢
  split
  · exact .quiet (h.of_alike ha)
  · have he : Still { srv' with sid := sidSetL srv'.sid }
        ⟨{ srv' with sid := sidSetL srv'.sid }, [], [.elected i (sidGetTerm (sidSetL srv'.sid))]⟩ :=
      ⟨⟨rfl, rfl, rfl⟩, fun p t c => by simp⟩
    have hs := (he.andThen (still_applyCommittedEntries i _)).andThen
      (still_appendEntry (i := i) 0 0 .config (.cid g.cid) _)
    refine .andThen hs.acks (.quiet (opened_of_leader ?_))
    rw [sid_rcRestoreLogAccess]
    refine (congrArg sidGetL hs.alike.sid).trans ?_
    rw [sidSetL_mk, sidGetL_mk (sidGetIdx_lt _)]

theorem sound_rcVerifyLeadership (hi : i < 256) {sids : ℕ → ℕ} {landed : List ℕ}
    {batches : List (List Wc)} {ackOk : Bool} (h : Opened i srv)
    (heff : rcVerifyLeadership g i sids landed batches ackOk srv = some eff) : Sound g i eff := by
  obtain ⟨⟨rc, posted⟩, -, rfl⟩ := map_eq_some_iff.mp heff
  dsimp only
  split
  · exact sound_serverToFollower hi ackOk _
  · exact .quiet (h.of_alike ⟨rfl, rfl, rfl⟩)

theorem alike_postSend (j : ℕ) (op : LogOp) (srv : Server) : Alike srv (postSend j op srv) :=
  ⟨rfl, rfl, rfl⟩

theorem alike_logAdjustment (j : ℕ) (srv : Server) : Alike srv (logAdjustment j srv) := by
  unfold logAdjustment
  split
  · exact ⟨rfl, rfl, rfl⟩
  · split
    · exact ⟨rfl, rfl, rfl⟩
    · split
      · refine Alike.trans (Alike.trans ?_ (alike_raiseCommit _ _)) (alike_postSend _ _ _)
        exact ⟨rfl, rfl, rfl⟩
      · exact (alike_raiseCommit _ _).trans (alike_postSend _ _ _)
      · split <;> exact ⟨rfl, rfl, rfl⟩
      all_goals exact ⟨rfl, rfl, rfl⟩

theorem alike_updateRemoteLog (j : ℕ) (srv : Server) : Alike srv (updateRemoteLog j srv) := by
  unfold updateRemoteLog
  split
  · exact ⟨rfl, rfl, rfl⟩
  · split
    · dsimp only
      split <;> exact ⟨rfl, rfl, rfl⟩
    · exact ⟨rfl, rfl, rfl⟩
    · exact ⟨rfl, rfl, rfl⟩

theorem alike_advanceCommit (srv : Server) : Alike srv (advanceCommit g i srv) := by
  unfold advanceCommit
  split
  · exact ⟨rfl, rfl, rfl⟩
  · exact alike_raiseCommit _ _

theorem alike_updateRemoteCommit (j : ℕ) (srv : Server) : Alike srv (updateRemoteCommit j srv) := by
  unfold updateRemoteCommit
  split <;> exact ⟨rfl, rfl, rfl⟩

theorem alike_handleLrWorkCompletion (wrId : ℕ) (ok : Bool) (srv : Server) :
    Alike srv (handleLrWorkCompletion j wrId ok srv) := by
  unfold handleLrWorkCompletion
  split <;> exact ⟨rfl, rfl, rfl⟩

theorem alike_pollCompletion (h : pollCompletion j srv = some srv') : Alike srv srv' := by
  unfold pollCompletion at h
  split at h
  · cases h
  · cases h
    refine Alike.trans ?_ (alike_handleLrWorkCompletion _ _ _)
    exact ⟨rfl, rfl, rfl⟩

theorem alike_execRequest (ok : Bool) (wr : WorkRequest) (srv : ℕ → Server) (k : ℕ) :
    Alike (srv k) (execRequest i j ok wr srv k) := by
  unfold execRequest popRequest
  by_cases hi : k = i <;> by_cases hj : k = j
  · subst hi hj
    simp only [update_self]
    exact ⟨rfl, rfl, rfl⟩
  · subst hi
    simp only [update_self, update_of_ne hj]
    exact ⟨rfl, rfl, rfl⟩
  · subst hj
    simp only [update_self, update_of_ne hi]
    exact ⟨rfl, rfl, rfl⟩
  · simp only [update_of_ne hi, update_of_ne hj]
    exact ⟨rfl, rfl, rfl⟩

theorem alike_land (m : Msg) (srv : ℕ → Server) (k : ℕ) : Alike (srv k) (m.land srv k) := by
  unfold Msg.land
  split
  all_goals
    rw [update_apply]
    split
    · subst k
      exact ⟨rfl, rfl, rfl⟩
    · exact ⟨rfl, rfl, rfl⟩

theorem sound_getReplicatedVoteCb {votes : ℕ → ℕ} {landed : List ℕ} {batches : List (List Wc)}
    (h : getReplicatedVoteCb g i votes landed batches srv = some srv') :
    Sound g i (.quiet srv') := by
  refine .quiet (opened_of_phase ?_)
  unfold getReplicatedVoteCb at h
  dsimp only at h
  split at h
  · cases h
    simp
  · obtain ⟨⟨rc, srv''⟩, -, rfl⟩ := map_eq_some_iff.mp h
    cases rc <;> simp

theorem phase_pollSmReply (applied : Option ℕ) (h : srv.phase = .voteRead) :
    (pollSmReply g i applied srv).phase ≠ .recovered := by
  unfold pollSmReply
  split
  · simp [h]
  · split <;> simp [h]

theorem sound_recoverLogOffsets (hi : i < 256) (ackOk : Bool) (j : ℕ) (remote : Log)
    (srv : Server) : Sound g i (recoverLogOffsets g i ackOk j remote srv) := by
  unfold recoverLogOffsets
  split
  · exact sound_logRecovered hi ackOk _
  · exact .quiet (opened_of_phase (by simp))

/-! ### All writes posted in a run -/

structure RecordInv (g : Group) (r : Record) : Prop where
  opened : ∀ k, Opened k (r.state.srv k)
  acks : AcksVotes g r.state.trace r.sent

theorem RecordInv.perform {r : Record} (h : RecordInv g r) (heff : Sound g i eff) :
    RecordInv g ⟨r.state.perform i eff,
      r.sent ++ (r.state.perform i eff).net.drop r.state.net.length⟩ := by
  constructor
  · intro k
    by_cases hk : k = i
    · subst hk
      dsimp only
      rw [State.perform_srv_self]
      exact heff.opened
    · dsimp only
      rw [State.perform_srv_of_ne _ _ _ hk]
      exact h.opened k
  · dsimp only
    rw [State.perform_net, State.perform_trace, drop_left]
    exact h.acks.append heff.acks

theorem RecordInv.environment {r : Record} (h : RecordInv g r) {s' : State}
    (hsrv : ∀ k, Alike (r.state.srv k) (s'.srv k)) (ht : s'.trace = r.state.trace) :
    RecordInv g ⟨s', r.sent ++ s'.net.drop r.state.net.length⟩ := by
  constructor
  · exact fun k => (h.opened k).of_alike (hsrv k)
  · dsimp only
    rw [ht, ← List.append_nil r.state.trace]
    exact h.acks.append acksVotes_nil

theorem RecordInv.step {r r' : Record} {e : Event} (h : RecordInv g r) (hok : FollowsVote g r e)
    (hs : (recorded g).step r e = some r') : RecordInv g r' := by
  obtain ⟨s', hs', rfl⟩ := map_eq_some_iff.mp hs
  have hidx : ∀ k < g.size, k < 256 := fun k hk => g.idx_lt hk
  unfold Dare.step at hs'
  cases e with
  | boot i =>
    obtain ⟨hi, -, rfl⟩ := runBy_eq_some.mp hs'
    exact h.perform (sound_startElection (hidx i hi) _)
  | singleStart i =>
    obtain ⟨hi, -, rfl⟩ := runBy_eq_some.mp hs'
    exact h.perform ⟨opened_of_phase (by simp), fun p t c hv => by simp at hv⟩
  | getReplicatedVote i landed batches =>
    obtain ⟨hi, -, e, he, rfl⟩ := runPartial_eq_some.mp hs'
    obtain ⟨srv, hsrv, rfl⟩ := map_eq_some_iff.mp he
    exact h.perform (sound_getReplicatedVoteCb hsrv)
  | sendSmRequest i | pollSmRequests i =>
    obtain ⟨hi, -, rfl⟩ := runBy_eq_some.mp hs'
    exact h.perform ⟨(h.opened i).of_alike ⟨rfl, rfl, rfl⟩, acksVotes_nil⟩
  | pollSmReply i applied =>
    obtain ⟨hi, hph, rfl⟩ := runBy_eq_some.mp hs'
    exact h.perform (.quiet (opened_of_phase (phase_pollSmReply applied (beq_iff_eq.mp hph))))
  | recoverLogOffsets i j ackOk =>
    obtain ⟨hi, -, rfl⟩ := runBy_eq_some.mp hs'
    exact h.perform (sound_recoverLogOffsets (hidx i hi) ackOk j _ _)
  | recoverLogEntries i ackOk =>
    dsimp only at hs'
    split at hs'
    · obtain ⟨hi, -, rfl⟩ := runBy_eq_some.mp hs'
      exact h.perform (sound_logRecovered (hidx i hi) ackOk _)
    · cases hs'
  | restart i =>
    obtain ⟨hi, -, rfl⟩ := runBy_eq_some.mp hs'
    exact h.perform ⟨opened_of_phase (by simp [Server.init]), fun p t c hv => by simp at hv⟩
  | hbReceive i ackOk =>
    obtain ⟨hi, -, rfl⟩ := runBy_eq_some.mp hs'
    exact h.perform (sound_hbReceiveCb (hidx i hi) ackOk (h.opened i))
  | toAdjust i | submit i req =>
    obtain ⟨hi, -, rfl⟩ := runBy_eq_some.mp hs'
    exact h.perform (.quiet ((h.opened i).of_alike ⟨rfl, rfl, rfl⟩))
  | hbSend i ackOk =>
    obtain ⟨hi, -, rfl⟩ := runBy_eq_some.mp hs'
    exact h.perform (sound_hbSendCb (hidx i hi) ackOk (h.opened i))
  | pollVoteRequests i ackOk =>
    obtain ⟨hi, -, rfl⟩ := runBy_eq_some.mp hs'
    exact h.perform (sound_pollVoteRequests (hidx i hi) ackOk (h.opened i) hok)
  | pollVoteCount i =>
    obtain ⟨hi, -, rfl⟩ := runBy_eq_some.mp hs'
    exact h.perform (sound_pollVoteCount (h.opened i))
  | verifyLeadership i landed batches ackOk =>
    obtain ⟨hi, -, e, he, rfl⟩ := runPartial_eq_some.mp hs'
    exact h.perform (sound_rcVerifyLeadership (hidx i hi) (h.opened i) he)
  | getTailqMessage i =>
    obtain ⟨hi, -, rfl⟩ := runBy_eq_some.mp hs'
    exact h.perform ((still_getTailqMessage _).sound (h.opened i))
  | appendHead i offset =>
    obtain ⟨hi, -, rfl⟩ := runBy_eq_some.mp hs'
    exact h.perform ((still_appendEntry _ _ _ _ _).sound (h.opened i))
  | applyEntries i =>
    obtain ⟨hi, -, rfl⟩ := runBy_eq_some.mp hs'
    exact h.perform ((still_applyCommittedEntries i _).sound (h.opened i))
  | logAdjustment i j =>
    obtain ⟨hi, -, -, -, rfl⟩ := towards_eq_some.mp hs'
    exact h.perform (.quiet ((h.opened i).of_alike (alike_logAdjustment j _)))
  | updateRemoteLog i j =>
    obtain ⟨hi, -, -, -, rfl⟩ := towards_eq_some.mp hs'
    exact h.perform (.quiet ((h.opened i).of_alike (alike_updateRemoteLog j _)))
  | advanceCommit i =>
    obtain ⟨hi, -, rfl⟩ := runBy_eq_some.mp hs'
    exact h.perform (.quiet ((h.opened i).of_alike (alike_advanceCommit _)))
  | updateRemoteCommit i j =>
    obtain ⟨hi, -, -, -, rfl⟩ := towards_eq_some.mp hs'
    exact h.perform (.quiet ((h.opened i).of_alike (alike_updateRemoteCommit j _)))
  | pollCompletion i j =>
    obtain ⟨hi, -, e, he, rfl⟩ := runPartial_eq_some.mp hs'
    obtain ⟨srv, hsrv, rfl⟩ := map_eq_some_iff.mp he
    exact h.perform (.quiet ((h.opened i).of_alike (alike_pollCompletion hsrv)))
  | ctrlFailure i j =>
    obtain ⟨hi, -, -, -, rfl⟩ := towards_eq_some.mp hs'
    exact h.perform (.quiet ((h.opened i).of_alike ⟨rfl, rfl, rfl⟩))
  | logExec i j ok =>
    dsimp only at hs'
    split at hs'
    · cases hs'
    · split at hs'
      · cases hs'
        exact h.environment (alike_execRequest ok _ _) rfl
      · cases hs'
  | logFail i j =>
    dsimp only at hs'
    split at hs'
    · cases hs'
    · obtain ⟨hi, -, -, -, rfl⟩ := towards_eq_some.mp hs'
      exact h.perform (.quiet ((h.opened i).of_alike ⟨rfl, rfl, rfl⟩))
  | deliver m =>
    dsimp only at hs'
    split at hs'
    · cases hs'
      exact h.environment (alike_land m _) rfl
    · cases hs'
  | drop m =>
    dsimp only at hs'
    split at hs'
    · cases hs'
      exact h.environment (fun _ => ⟨rfl, rfl, rfl⟩) rfl
    · cases hs'

theorem recordInv_init (g : Group) : RecordInv g (.init g) :=
  ⟨fun _ => opened_of_phase (by simp [Record.init, State.init, Server.init]), acksVotes_nil⟩

theorem access_rcRestoreLogAccess (h : sidGetIdx srv.sid ≠ i) :
    (rcRestoreLogAccess g i srv).logAccess (sidGetIdx srv.sid) = true := by
  unfold rcRestoreLogAccess
  dsimp only
  rw [if_pos h]
  exact update_self ..

theorem access_ackOrStartElection (hi : i < 256) (ackOk : Bool)
    (hidx : sidGetIdx (ackOrStartElection g i ackOk srv).srv.sid ≠ i) :
    Alike srv (ackOrStartElection g i ackOk srv).srv := by
  unfold ackOrStartElection at hidx ⊢
  dsimp only at hidx ⊢
  split
  · rename_i hf
    rw [if_pos hf] at hidx
    exact absurd (sidGetIdx_startSid hi srv.sid) hidx
  · exact ⟨rfl, rfl, rfl⟩

theorem serverToFollower_access (hi : i < 256) (ackOk : Bool) (hl : sidGetL srv.sid = true)
    (hidx : sidGetIdx (serverToFollower g i ackOk srv).srv.sid ≠ i) :
    (serverToFollower g i ackOk srv).srv.sid = srv.sid ∧
      (serverToFollower g i ackOk srv).srv.logAccess (sidGetIdx srv.sid) = true ∧
      (sidGetIdx srv.sid < g.size → ∃ c, .voteAck i (sidGetIdx srv.sid) c (sidGetTerm srv.sid) ∈
        (serverToFollower g i ackOk srv).sent) := by
  have hsid : (rcRestoreLogAccess g i
      (publishNcBuf i (rcRevokeLogAccess { srv with hbEvent := .off }))).sid = srv.sid :=
    sid_rcRestoreLogAccess _
  have hac : sidGetIdx srv.sid ≠ i → (rcRestoreLogAccess g i
      (publishNcBuf i (rcRevokeLogAccess { srv with hbEvent := .off }))).logAccess
        (sidGetIdx srv.sid) = true := fun hne => access_rcRestoreLogAccess hne
  unfold serverToFollower at hidx ⊢
  dsimp only at hidx ⊢
  generalize rcRestoreLogAccess g i _ = granted at hidx hsid hac ⊢
  rw [hsid, if_pos hl] at hidx ⊢
  have ha := access_ackOrStartElection hi ackOk hidx
  rw [ha.sid, hsid] at hidx
  refine ⟨ha.sid.trans hsid, by rw [ha.logAccess, hac hidx], fun hlt => ?_⟩
  have hack := @mem_rcSendVoteAck g granted i (by rwa [hsid]) (by rwa [hsid])
  rw [hsid] at hack
  exact ⟨granted.log.commit, sent_ackOrStartElection ackOk _ _ hack⟩

theorem sidGetL_of_offered {hb : ℕ} (hoffer : Offered g i srv hb)
    (hterm : sidGetTerm hb = sidGetTerm srv.sid) (hidx : sidGetIdx hb = sidGetIdx srv.sid) :
    sidGetL srv.sid = false := by
  by_contra hl
  rw [Bool.not_eq_false] at hl
  have heq : hb = srv.sid := by
    rw [sidMk_eta hb, hterm, hoffer.2.1, hidx, ← hl, ← sidMk_eta]
  exact hoffer.2.2.ne heq.symm

def Msg.isVoteAck (i j : ℕ) : Msg → Bool
  | .voteAck i' j' _ _ => i' == i && j' == j
  | _ => false

end VmFt.Dare
