import VmFt.Dare.Server

/-! # Leader election and heartbeats

The functions by which a server changes its SID: starting an election, voting,
counting votes, following a leader and joining. Each is one callback or one
poll of the event loop and runs without interruption; only the completion
status of the RDMA operations it waits for is an input.
-/

namespace VmFt.Dare

section Roles

variable (i : ℕ) (s : Server)

def isNone : Bool := sidGetIdx s.sid == i && !sidGetL s.sid && sidGetTerm s.sid == 0

def isLeader : Bool := !isNone i s && sidGetIdx s.sid == i && sidGetL s.sid

def isCandidate : Bool := !isNone i s && sidGetIdx s.sid == i && !sidGetL s.sid

end Roles

variable (g : Group) (i : ℕ)

/-- `rc_revoke_log_access`; resetting a queue pair clears its requests and completions. -/
def rcRevokeLogAccess (s : Server) : Server :=
  { s with
    logAccess := fun _ => false
    sendQueue := fun j => if s.logAccess j then [] else s.sendQueue j
    compQueue := fun j => if s.logAccess j then [] else s.compQueue j }

def rcRestoreLogAccess (s : Server) : Server :=
  let leader := sidGetIdx s.sid
  if leader ≠ i then { s with logAccess := Function.update s.logAccess leader true }
  else if sidGetL s.sid then
    { s with logAccess := fun j => if j < g.size ∧ j ≠ i then true else s.logAccess j }
  else s

def rcSendVoteRequest (s : Server) : Effect :=
  let req : VoteReq := ⟨s.sid, (logLast s.log).1, (logLast s.log).2⟩
  ⟨{ s with voteReq := Function.update s.voteReq i req },
    (g.others i).map fun j => .voteRequest i j req, []⟩

/-- The SID `[t+1|0|idx]` of a new candidate. -/
def startSid (sid : ℕ) : ℕ :=
  sidSetIdx (sidUnsetL (sidSetTerm 0 (sidGetTerm sid + 1))) i

def becomeCandidate (s : Server) : Server :=
  { rcRevokeLogAccess { s with sid := startSid i s.sid } with
    voteAck := fun j => if j < g.size then none else s.voteAck j
    nextLrStep := fun j => if j < g.size then .getWrite else s.nextLrStep j
    sendFlag := fun j => if j < g.size then true else s.sendFlag j
    hbEvent := .receive }

def startElection (s : Server) : Effect :=
  let s := becomeCandidate g i s
  Effect.andThen ⟨s, [], [.started i (sidGetTerm s.sid)]⟩ (rcSendVoteRequest g i)

/-- The write posted by `rc_send_vote_ack`; nothing is sent to the server itself. -/
def rcSendVoteAck (s : Server) : List Msg :=
  let candidate := sidGetIdx s.sid
  if candidate < g.size ∧ candidate ≠ i then
    [.voteAck i candidate s.log.commit (sidGetTerm s.sid)]
  else []

def ackOrStartElection (ackOk : Bool) (s : Server) : Effect :=
  let sent := rcSendVoteAck g i s
  if sent ≠ [] ∧ ackOk = false then
    Effect.andThen ⟨s, sent, []⟩ (startElection g i)
  else ⟨{ s with hbEvent := .receive }, sent, []⟩

/-- `log_entries_to_nc_buf` on the buffer of the server itself. -/
def publishNcBuf (s : Server) : Server :=
  { s with log := { s.log with ncBuf := Function.update s.log.ncBuf i (logEntriesToNcBuf s.log) } }

def serverToFollower (ackOk : Bool) (s : Server) : Effect :=
  let s := rcRestoreLogAccess g i
    (publishNcBuf i (rcRevokeLogAccess { s with hbEvent := .off }))
  if sidGetL s.sid then ackOrStartElection g i ackOk s
  else .quiet { s with hbEvent := .receive }

/-! ### Heartbeats -/

def toAdjustCb (s : Server) : Server :=
  let leader := sidGetIdx s.sid
  { s with
    latestHb := if s.hb leader ≠ 0 then s.hb leader else s.latestHb
    hb := Function.update s.hb leader 0 }

/-- The variables of the loop in `hb_receive_cb`. -/
structure HbLoop where
  srv : Server
  newSid : ℕ
  timeout : Bool
  replies : List Msg

/-- Fetch and reset the heartbeat of server `k`. -/
def fetchHb (leader k : ℕ) (s : Server) : ℕ × Server :=
  if k = leader then
    if s.latestHb ≠ 0 then (s.latestHb, { s with latestHb := 0 })
    else (s.hb k, { s with hb := Function.update s.hb k 0 })
  else (s.hb k, { s with hb := Function.update s.hb k 0 })

/-- One turn of the loop in `hb_receive_cb`. -/
def hbReceiveBody (leader : ℕ) (st : HbLoop) (k : ℕ) : HbLoop :=
  let (hb, srv) := fetchHb leader k st.srv
  if hb = 0 then { st with srv := srv }
  else if hb < st.newSid then
    { st with
      srv := srv
      replies := if sidGetL hb then st.replies ++ [.heartbeat i k srv.sid] else st.replies }
  else
    { st with
      srv := srv
      timeout := false
      newSid := if sidGetL hb then hb else st.newSid }

def hbReceiveCb (ackOk : Bool) (s : Server) : Effect :=
  let s := { s with log := { s.log with tail := none } }
  let st := (g.others i).foldl (hbReceiveBody i (sidGetIdx s.sid)) ⟨s, s.sid, true, []⟩
  Effect.andThen ⟨st.srv, st.replies, []⟩ fun s =>
    if st.timeout then startElection g i s
    else if st.newSid ≠ s.sid then
      let s' := { s with sid := st.newSid }
      if sidGetTerm s.sid ≠ sidGetTerm st.newSid then serverToFollower g i ackOk s'
      else .quiet s'
    else .quiet s

/-- Reset the heartbeats in turn up to the first that is not below the SID. -/
def hbSendLoop (s : Server) : List ℕ → Server × Bool
  | [] => (s, false)
  | k :: ks =>
    let s' := { s with hb := Function.update s.hb k 0 }
    if s.hb k < s.sid then hbSendLoop s' ks else (s', true)

/-- `hb_send_cb`. The SID it hands to `server_update_sid` is the one it already has. -/
def hbSendCb (ackOk : Bool) (s : Server) : Effect :=
  let (s, higher) := hbSendLoop s (g.others i)
  if higher then serverToFollower g i ackOk s
  else ⟨s, (g.others i).map fun j => .heartbeat i j s.sid, []⟩

/-! ### Voting -/

/-- The first loop of `poll_vote_requests`: the best SID among the requests of higher indices. -/
def bestSidBody (st : (ℕ → VoteReq) × ℕ) (k : ℕ) : (ℕ → VoteReq) × ℕ :=
  if k ≤ i then st
  else if (st.1 k).sid ≤ st.2 then
    (Function.update st.1 k { st.1 k with sid := 0 }, st.2)
  else (st.1, (st.1 k).sid)

/-- The variables of the second loop of `poll_vote_requests`. -/
structure VoteLoop where
  reqs : ℕ → VoteReq
  best : VoteReq
  highestTerm : ℕ

/-- The second loop of `poll_vote_requests`: the candidate with the best SID and log. -/
def bestRequestBody (st : VoteLoop) (k : ℕ) : VoteLoop :=
  let req := st.reqs k
  let reqs := Function.update st.reqs k { req with sid := 0 }
  if req.sid < st.best.sid then { st with reqs := reqs }
  else
    let highestTerm := max st.highestTerm (sidGetTerm req.sid)
    if req.term < st.best.term ∨ (st.best.term = req.term ∧ req.index < st.best.index) then
      { st with reqs := reqs, highestTerm := highestTerm }
    else ⟨reqs, req, highestTerm⟩

/-- Index and term of the last local entry as `poll_vote_requests` finds them. -/
def localLast (log : Log) : ℕ × ℕ :=
  match (logEntriesToNcBuf log).entries.getLast? with
  | some d => (d.idx, d.term)
  | none => logLast log

/-- Give the vote to the candidate in `sid`: replicate it and open the log to the candidate.
Whether the writes of `rc_replicate_vote` reach anybody does not matter to the caller. -/
def giveVote (sid : ℕ) (s : Server) : Effect :=
  ⟨rcRestoreLogAccess g i
      { s with sid := sid, hbEvent := .off, voteSid := Function.update s.voteSid i sid },
    (g.others i).map fun j => .voteSid i j sid, [.voted i (sidGetTerm sid) (sidGetIdx sid)]⟩

/-- The SID `[highestTerm|0|idx]` of a server that prefers its own log. -/
def bumpSid (sid highestTerm : ℕ) : ℕ := sidSetIdx (sidSetTerm sid highestTerm) i

/-- The outcome of the first loop of `poll_vote_requests`. -/
def bestSid (s : Server) : (ℕ → VoteReq) × ℕ :=
  (List.range g.size).foldl (bestSidBody i) (s.voteReq, sidSetL s.sid)

/-- The outcome of the second loop of `poll_vote_requests`. -/
def bestRequest (s : Server) (highestTerm : ℕ) : VoteLoop :=
  (List.range g.size).foldl bestRequestBody
    ⟨s.voteReq, ⟨sidSetL s.sid, (localLast s.log).1, (localLast s.log).2⟩, highestTerm⟩

def pollVoteRequests (ackOk : Bool) (s : Server) : Effect :=
  let hb := s.hb (sidGetIdx s.sid)
  let (reqs, best) := bestSid g i s
  if sidGetL s.sid then .quiet s
  else if hb ≠ 0 ∧ sidGetTerm hb = sidGetTerm s.sid then .quiet { s with sid := hb }
  else if best = sidSetL s.sid then .quiet { s with voteReq := reqs }
  else
    let s := publishNcBuf i (rcRevokeLogAccess { s with voteReq := reqs })
    let st := bestRequest g s (sidGetTerm best)
    let s := { s with voteReq := st.reqs }
    if st.best.sid = sidSetL s.sid then
      ⟨{ s with sid := bumpSid i s.sid st.highestTerm }, [], [.bumped i st.highestTerm]⟩
    else (giveVote g i st.best.sid s).andThen (ackOrStartElection g i ackOk)

end VmFt.Dare
