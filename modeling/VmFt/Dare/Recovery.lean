import VmFt.Dare.Election

/-! # Waiting for completions and joining the group

A server that joins reads the vote it may have given before, then a snapshot
and a log. Reads and writes on the CTRL queue pairs are awaited by
`waitForMajority`, which is fed with the batches of completions it polls.
-/

namespace VmFt.Dare

inductive RcResult | success | insuccess
  deriving DecidableEq, Repr

/-- A work completion: its connection, whether it is of the current round, and its status. -/
structure Wc where
  conn : ℕ
  current : Bool
  ok : Bool
  deriving DecidableEq, Repr

structure WaitState where
  posted : ℕ → ℤ
  postedCount : ℕ
  successCount : ℕ

/-- Handle one completion. The status is the one of the first completion of the batch. -/
def waitBody (size : ℕ) (firstOk : Bool) (st : WaitState) (wc : Wc) : WaitState :=
  let st := if wc.current then { st with postedCount := st.postedCount - 1 } else st
  if firstOk && wc.current then
    let left := st.posted wc.conn - 1
    { st with
      posted := Function.update st.posted wc.conn left
      successCount := if left = 0 ∧ wc.conn < size then st.successCount + 1
        else st.successCount }
  else st

def waitBatch (size : ℕ) (st : WaitState) (batch : List Wc) : WaitState :=
  batch.foldl (waitBody size (batch.head?.any (·.ok))) st

def waitLoop (size : ℕ) : WaitState → List (List Wc) → Option WaitState
  | st, [] => if st.successCount ≤ size / 2 ∧ st.postedCount ≠ 0 then none else some st
  | st, b :: bs =>
    if st.successCount ≤ size / 2 ∧ st.postedCount ≠ 0 then waitLoop size (waitBatch size st b) bs
    else some st

/-- `wait_for_majority` in a stable configuration. -/
def waitForMajority (size : ℕ) (posted : ℕ → ℤ) (batches : List (List Wc)) :
    Option (RcResult × (ℕ → ℤ)) :=
  let postedCount := ((List.range size).map fun k => (posted k).toNat).sum
  let successCount := ((List.range size).filter fun k => posted k = 0).length
  (waitLoop size ⟨posted, postedCount, successCount⟩ batches).map fun st =>
    (if size / 2 < st.successCount then .success else .insuccess, st.posted)

variable (g : Group) (i : ℕ)

/-- The SID `[0|1|idx]` of a joining server. -/
def joinSid (sid : ℕ) : ℕ := sidSetL (sidSetIdx (sidSetTerm sid 0) i)

/-- The posted reads of `rc_get_replicated_vote`: one for each other server. -/
def postedReads : ℕ → ℤ := fun k => if k = i then -1 else 1

/-- Keep the larger of the SID and the vote read from server `k`. -/
def takeVoteBody (posted : ℕ → ℤ) (s : Server) (k : ℕ) : Server :=
  if posted k = 0 then
    { s with sid := max s.sid (s.rsid k), rsid := Function.update s.rsid k 0 }
  else s

/-- `rc_get_replicated_vote`; `landed` are the servers whose vote reached `rsid`. -/
def rcGetReplicatedVote (votes : ℕ → ℕ) (landed : List ℕ) (batches : List (List Wc))
    (s : Server) : Option (RcResult × Server) :=
  let s := { s with rsid := fun k => if k ∈ landed then votes k else s.rsid k }
  (waitForMajority g.size (postedReads i) batches).map fun (rc, posted) =>
    match rc with
    | .insuccess => (.insuccess, s)
    | .success => (.success, (List.range g.size).foldl (takeVoteBody posted) s)

/-- `get_replicated_vote_cb`; with two servers the vote is not retrieved. -/
def getReplicatedVoteCb (votes : ℕ → ℕ) (landed : List ℕ) (batches : List (List Wc))
    (s : Server) : Option Server :=
  let s := { s with sid := joinSid i s.sid }
  if g.size = 2 then some { s with phase := .voteRead }
  else
    (rcGetReplicatedVote g i votes landed batches s).map fun (rc, s) =>
      match rc with
      | .insuccess => { s with phase := .joining }
      | .success => { s with phase := .voteRead }

def sendSmRequestCb (s : Server) : Effect :=
  ⟨{ s with smReq := Function.update s.smReq i true }, (g.others i).map fun j => .smRequest i j, []⟩

/-- `poll_sm_requests`: answer each request with the SID of the moment. -/
def pollSmRequests (s : Server) : Effect :=
  ⟨{ s with smReq := fun k => if k ∈ g.others i then false else s.smReq k },
    ((g.others i).filter (s.smReq ·)).map fun k => .smReply i k s.sid, []⟩

/-- `poll_sm_reply`: adopt the SID of the first reply that is better, then load the snapshot.
`applied` is the offset the snapshot reaches, none when reading it fails. -/
def pollSmReply (applied : Option ℕ) (s : Server) : Server :=
  match (g.others i).find? (fun k => s.sid < s.smRep k) with
  | none => s
  | some k =>
    let s := { s with sid := s.smRep k }
    match applied with
    | none => s
    | some a =>
      { s with smRep := fun _ => 0, phase := .smRecovered, log := { s.log with apply := a } }

/-- The end of `recover_log_cb`. -/
def logRecovered (ackOk : Bool) (s : Server) : Effect :=
  let s := { s with phase := .recovered }
  if sidGetTerm s.sid = 0 then startElection g i s else serverToFollower g i ackOk s

/-- The first half of `rc_recover_log`: read the offsets of server `j`. -/
def recoverLogOffsets (ackOk : Bool) (j : ℕ) (remote : Log) (s : Server) : Effect :=
  if isLogEmpty remote then logRecovered g i ackOk s
  else
    .quiet { s with
      phase := .offsetsRead j
      log := { s.log with endOff := remote.endOff, commit := min remote.commit remote.endOff } }

/-- The second half of `rc_recover_log`: read the entries up to the end read before. -/
def recoverLogEntries (ackOk : Bool) (remote : Log) (s : Server) : Effect :=
  logRecovered g i ackOk { s with log := { s.log with
    entries := fun k => if k < s.log.endOff then remote.entries k else s.log.entries k } }

/-- One turn of the loop in `rc_verify_leadership`. -/
def verifyBody (posted : ℕ → ℤ) (rsid : ℕ → ℕ) (sid k : ℕ) : ℕ :=
  if posted k = 0 ∧ sid < rsid k ∧ sidGetL (rsid k) then rsid k else sid

/-- `rc_verify_leadership`; `landed` are the servers whose SID reached `rsid`. -/
def rcVerifyLeadership (sids : ℕ → ℕ) (landed : List ℕ) (batches : List (List Wc)) (ackOk : Bool)
    (s : Server) : Option Effect :=
  let s := { s with rsid := fun k => if k ∈ landed then sids k else s.rsid k }
  (waitForMajority g.size (fun k => if k = i then 0 else 1) batches).map fun (_, posted) =>
    let newSid := (g.others i).foldl (verifyBody posted s.rsid) s.sid
    if newSid ≠ s.sid then serverToFollower g i ackOk { s with sid := newSid }
    else .quiet s

end VmFt.Dare
