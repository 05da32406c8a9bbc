import VmFt.Dare.Config
import VmFt.Dare.Election

/-! # Heartbeat replies to a leader

`hb_send_cb` of a leader and the functions behind it in any configuration: servers
may be off or not yet connected. The SID that the callback hands to
`server_update_sid` is the one the leader already has, so no heartbeat ends its office.
-/

namespace VmFt.Dare

/-- What the callbacks read of `server_config_t`. A server has no connection to itself. -/
structure ServerConfig where
  idx : ℕ
  cid : Cid
  connected : ℕ → Bool
  apart : connected idx = false

namespace ServerConfig

variable (c : ServerConfig)

/-- The other servers below `size` that are on. -/
def active (size : ℕ) : List ℕ :=
  (List.range size).filter fun j => j ≠ c.idx ∧ Config.isServerOn c.cid j

/-- The other servers below `size` that are on and connected. -/
def peers (size : ℕ) : List ℕ := (c.active size).filter c.connected

def revokeLogAccess (s : Server) : Server :=
  let linked := c.peers (Config.getExtendedGroupSize c.cid)
  { s with
    logAccess := fun j => if j ∈ linked then false else s.logAccess j
    sendQueue := fun j => if j ∈ linked ∧ s.logAccess j then [] else s.sendQueue j
    compQueue := fun j => if j ∈ linked ∧ s.logAccess j then [] else s.compQueue j }

/-- `rc_restore_log_access`; the callers ignore its errors. -/
def restoreLogAccess (s : Server) : Server :=
  let leader := sidGetIdx s.sid
  if leader ≠ c.idx then
    if Config.isServerOn c.cid leader ∧ c.connected leader then
      { s with logAccess := Function.update s.logAccess leader true }
    else s
  else if sidGetL s.sid then
    let linked := c.peers (Config.getExtendedGroupSize c.cid)
    { s with logAccess := fun j => if j ∈ linked then true else s.logAccess j }
  else s

def sendVoteRequest (s : Server) : Effect :=
  let req : VoteReq := ⟨s.sid, (logLast s.log).1, (logLast s.log).2⟩
  ⟨{ s with voteReq := Function.update s.voteReq c.idx req },
    (c.peers (Config.getGroupSize c.cid)).map fun j => .voteRequest c.idx j req, []⟩

/-- `server_update_sid`: the compare-and-swap, without which the server exits. -/
def serverUpdateSid (newSid oldSid : ℕ) (s : Server) : Option Server :=
  if s.sid = oldSid then some { s with sid := newSid } else none

def startElection (s : Server) : Option Effect :=
  (serverUpdateSid (startSid c.idx s.sid) s.sid s).map fun s =>
    let size := Config.getGroupSize c.cid
    let s :=
      { c.revokeLogAccess s with
        voteAck := fun j => if j < size then none else s.voteAck j
        nextLrStep := fun j => if j < size then .getWrite else s.nextLrStep j
        sendFlag := fun j => if j < size then true else s.sendFlag j
        hbEvent := .receive }
    Effect.andThen ⟨s, [], [.started c.idx (sidGetTerm s.sid)]⟩ c.sendVoteRequest

/-- The write posted by `rc_send_vote_ack`. -/
def sendVoteAck (s : Server) : List Msg :=
  let candidate := sidGetIdx s.sid
  if Config.isServerOn c.cid candidate ∧ c.connected candidate then
    [.voteAck c.idx candidate s.log.commit (sidGetTerm s.sid)]
  else []

/-- `server_to_follower`; a vote ACK that fails makes the server start an election. -/
def serverToFollower (ackOk : Bool) (s : Server) : Option Effect :=
  let s := c.restoreLogAccess (publishNcBuf c.idx (c.revokeLogAccess { s with hbEvent := .off }))
  let sent := if sidGetL s.sid then c.sendVoteAck s else []
  if sent ≠ [] ∧ ackOk = false then
    (c.startElection s).map fun eff => { eff with sent := sent ++ eff.sent }
  else some ⟨{ s with hbEvent := .receive }, sent, []⟩

/-- The loop of `hb_send_cb` over the servers `ks`, and whether it found a heartbeat that is not
below `newSid`. -/
def hbSendLoop (newSid : ℕ) (s : Server) : List ℕ → Server × Bool
  | [] => (s, false)
  | k :: ks =>
    let s' := { s with hb := Function.update s.hb k 0 }
    if s.hb k < newSid then hbSendLoop newSid s' ks else (s', true)

def hbSendCb (ackOk : Bool) (s : Server) : Option Effect :=
  let newSid := s.sid
  let size := Config.getGroupSize c.cid
  let (s, found) := hbSendLoop newSid s (c.active size)
  if found then (serverUpdateSid newSid s.sid s).bind (c.serverToFollower ackOk)
  else some ⟨s, (c.peers size).map fun j => .heartbeat c.idx j s.sid, []⟩

variable {c} {s : Server} {ackOk : Bool} {eff : Effect}

/-! ### A leader that hears a higher SID -/

theorem hbSendLoop_sid (newSid : ℕ) (s : Server) (ks : List ℕ) :
    (hbSendLoop newSid s ks).1.sid = s.sid := by
  induction ks generalizing s with
  | nil => rfl
  | cons k ks ih =>
    rw [hbSendLoop]
    split_ifs
    · exact ih _
    · rfl

theorem hbSendLoop_found {newSid k : ℕ} {ks : List ℕ} (hk : k ∈ ks) (hhb : newSid < s.hb k) :
    (hbSendLoop newSid s ks).2 = true := by
  induction ks generalizing s with
  | nil => cases hk
  | cons k' ks ih =>
    rw [hbSendLoop]
    split_ifs with hlt
    · obtain rfl | hmem := List.mem_cons.mp hk
      · omega
      · refine ih hmem ?_
        dsimp only
        rw [Function.update_of_ne]
        · exact hhb
        · rintro rfl
          omega
    · rfl

theorem restoreLogAccess_sid (s : Server) : (c.restoreLogAccess s).sid = s.sid := by
  unfold restoreLogAccess
  dsimp only
  split_ifs <;> rfl

theorem sendVoteAck_of_leader (h : sidGetIdx s.sid = c.idx) : c.sendVoteAck s = [] := by
  refine if_neg ?_
  rw [h, c.apart]
  exact fun hon => Bool.false_ne_true hon.2

theorem serverToFollower_of_leader (ackOk : Bool) (h : sidGetIdx s.sid = c.idx) :
    ∃ eff, c.serverToFollower ackOk s = some eff ∧ eff.srv.sid = s.sid ∧
      eff.srv.hbEvent = .receive := by
  have hsid : (c.restoreLogAccess (publishNcBuf c.idx
      (c.revokeLogAccess { s with hbEvent := .off }))).sid = s.sid := restoreLogAccess_sid _
  rw [serverToFollower, sendVoteAck_of_leader (by rw [hsid, h]), ite_self,
    if_neg fun hs => hs.1 rfl]
  exact ⟨_, rfl, hsid, rfl⟩

theorem hbSendCb_of_found (ackOk : Bool) (h : sidGetIdx s.sid = c.idx)
    (hf : (hbSendLoop s.sid s (c.active (Config.getGroupSize c.cid))).2 = true) :
    ∃ eff, c.hbSendCb ackOk s = some eff ∧ eff.srv.sid = s.sid ∧ eff.srv.hbEvent = .receive := by
  have hsid := hbSendLoop_sid s.sid s (c.active (Config.getGroupSize c.cid))
  unfold hbSendCb
  dsimp only
  generalize hbSendLoop s.sid s (c.active (Config.getGroupSize c.cid)) = r at hsid hf ⊢
  have hs : serverUpdateSid s.sid r.1.sid r.1 = some r.1 := by
    rw [serverUpdateSid, if_pos rfl, ← hsid]
  obtain ⟨eff, heff, hk, he⟩ :=
    serverToFollower_of_leader (c := c) (s := r.1) ackOk (by rw [hsid, h])
  refine ⟨eff, ?_, hk.trans hsid, he⟩
  rw [if_pos hf, hs, Option.bind_some, heff]

/-- The server has taken over a SID and is not leader. -/
def SteppedDown (c : ServerConfig) (hb : ℕ) (s : Server) : Prop :=
  hb ≤ s.sid ∧ isLeader c.idx s = false

/-- A leader that finds a heartbeat with a higher SID stops sending heartbeats, but it neither
takes over the SID nor gives up its office. -/
theorem never_steps_down {k : ℕ} (hlead : isLeader c.idx s = true)
    (hk : k ∈ c.active (Config.getGroupSize c.cid)) (hhb : s.sid < s.hb k) :
    ∃ eff, c.hbSendCb ackOk s = some eff ∧ eff.srv.hbEvent = .receive ∧
      ¬ SteppedDown c (s.hb k) eff.srv := by
  have hidx : sidGetIdx s.sid = c.idx := by
    simp only [isLeader, Bool.and_eq_true, beq_iff_eq] at hlead
    exact hlead.1.2
  obtain ⟨eff, heff, hsid, hevent⟩ := hbSendCb_of_found ackOk hidx (hbSendLoop_found hk hhb)
  refine ⟨eff, heff, hevent, ?_⟩
  rintro ⟨hle, -⟩
  omega

def firstOfThree : ServerConfig := ⟨0, ⟨0, 3, 0, .stable, 7⟩, fun j => j == 1 || j == 2, rfl⟩

def oldLeader : Server :=
  { Server.init ⟨3, Nat.le_add_right 3 10, firstOfThree.cid, 1000⟩ with
    sid := sidMk 5 true 0
    hb := fun j => if j = 1 then sidMk 6 true 1 else 0
    hbEvent := .send }

theorem never_steps_down_three :
    ∃ eff, firstOfThree.hbSendCb true oldLeader = some eff ∧ eff.srv.hbEvent = .receive ∧
      ¬ SteppedDown firstOfThree (sidMk 6 true 1) eff.srv :=
  never_steps_down (k := 1) (by decide) (by decide) (by decide)

/-- The leader of term 5 is still that after the callback, although it has heard of term 6. -/
theorem old_leader_stays : oldLeader.hb 1 = sidMk 6 true 1 ∧ 1 ∈ firstOfThree.active 3 ∧
      (firstOfThree.hbSendCb true oldLeader).any fun eff =>
        decide (eff.srv.sid = sidMk 5 true 0) && isLeader 0 eff.srv := by
  decide

end ServerConfig

end VmFt.Dare
