import VmFt.Lib.Transition
import VmFt.Dare.Replication
import VmFt.Dare.Ring
import VmFt.Dare.WorkCompletion

/-! # The replication pipeline of one server

A leader and one other server `i`, whose circular log the leader adjusts and
then extends by work requests on the LOG queue pair. The network executes the
posted requests in any order and with any outcome, a failed write having
reached any part of its range, and the completions are handled in any order. A
write that wraps around is posted in two parts; completions are handled between
the two.
-/

namespace VmFt.Dare.Ring

open VmFt.System

/-- What a work request does; `other` stands for the requests of the rest of the program. -/
inductive Op where
  | readNcLen
  | readNc (len : ℕ)
  | writeEnd (offset : ℕ)
  | writeLog (start len : ℕ)
  | writeCommit (offset : ℕ)
  | other
  deriving DecidableEq, Repr

structure WorkRequest where
  id : WrId
  op : Op
  signaled : Bool
  deriving DecidableEq, Repr

/-- `server_t`, with the connection state of its endpoint. -/
structure Server where
  nextWrId : WrId
  cachedEndOffset : ℕ
  failCount : ℕ
  nextLrStep : LrStep
  sendFlag : Bool
  sendCount : ℕ
  rcConnected : Bool

/-- What has happened since `LR_UPDATE_LOG` was first reached: the recorded end offset at that
moment, the bytes from there to the leader's end, and whether an update has completed. -/
structure History where
  adjustedEnd : ℕ
  travelled : ℕ
  updated : Bool

/-- The leader's log, control data and record of server `i`, the queues, and the log of `i`. A
wrapped write whose second part is not posted yet keeps the length of that part in `second`. -/
structure State where
  leader : Log
  ncBuf : NcBuf
  voteAck : ℕ
  offsetsCommit : ℕ
  offsetsEnd : ℕ
  server : Server
  ssn : ℕ
  second : Option ℕ
  sendQueue : List WorkRequest
  compQueue : List (WrId × WcRc)
  follower : Log
  published : NcBuf
  history : History

variable (i : ℕ)

/-! ### The leader -/

/-- `post_send` of a request whose completion the pipeline waits for. -/
def postSend (tag : Bool) (op : Op) (s : State) : State :=
  { s with
    server := { s.server with sendFlag := false, nextWrId := ⟨s.ssn, i, false, false⟩ }
    sendQueue := s.sendQueue ++ [⟨⟨s.ssn, i, false, tag⟩, op, true⟩] }

def raiseCommit (offset : ℕ) (s : State) : State :=
  { s with
    leader :=
      { s.leader with
        commit :=
          if logIsOffsetLarger s.leader offset s.leader.commit then offset
          else s.leader.commit } }

/-- The body of the loop in `log_adjustment`. -/
def logAdjustment (tag : Bool) (s : State) : State :=
  if permanentFailure ≤ s.server.failCount ∨ s.server.sendFlag = false ∨
      s.server.rcConnected = false ∨ s.leader.len = s.voteAck then s
  else
    match s.server.nextLrStep with
    | .getWrite =>
      postSend i tag .readNcLen (raiseCommit s.voteAck { s with
          ssn := s.ssn + 1
          offsetsCommit := s.voteAck
          server := { s.server with nextLrStep := .getNceLen } })
    | .getNceLen =>
      postSend i tag .readNcLen (raiseCommit s.voteAck { s with ssn := s.ssn + 1 })
    | .getNce =>
      if s.ncBuf.len = 0 then
        { s with
          ssn := s.ssn + 1
          offsetsEnd := s.offsetsCommit
          server := { s.server with nextLrStep := .updateLog } }
      else postSend i tag (.readNc s.ncBuf.len) { s with ssn := s.ssn + 1 }
    | .setEnd =>
      let remoteEnd := logFindRemoteEndOffset s.leader s.ncBuf.entries 0
      postSend i tag (.writeEnd remoteEnd) { s with ssn := s.ssn + 1, offsetsEnd := remoteEnd }
    | .updateLog | .updateEnd => s

/-- The body of the first loop in `update_remote_logs`, up to the first `post_send`. -/
def updateRemoteLog (tag : Bool) (s : State) : State :=
  if permanentFailure ≤ s.server.failCount ∨ s.server.sendFlag = false ∨
      s.server.rcConnected = false then s
  else
    match s.server.nextLrStep with
    | .updateLog =>
      if logOffsetEndDistance s.leader s.offsetsEnd = 0 then s
      else
        let cached := s.leader.endOff
        if s.offsetsEnd < s.leader.endOff then
          postSend i tag (.writeLog s.offsetsEnd (s.leader.endOff - s.offsetsEnd))
            { s with
              ssn := s.ssn + 1
              server := { s.server with cachedEndOffset := cached, sendCount := 1 } }
        else
          postSend i tag (.writeLog s.offsetsEnd (s.leader.len - s.offsetsEnd))
            { s with
              ssn := s.ssn + 1
              server := { s.server with cachedEndOffset := cached, sendCount := 2 }
              second := if 0 < s.leader.endOff then some s.leader.endOff else none }
    | .updateEnd =>
      postSend i tag (.writeEnd s.server.cachedEndOffset)
        { s with ssn := s.ssn + 1, offsetsEnd := s.server.cachedEndOffset }
    | _ => s

/-- The second `post_send` of a write that wraps around. -/
def postSecond (tag : Bool) (n : ℕ) (s : State) : State :=
  { s with
    server := { s.server with sendFlag := false }
    second := none
    sendQueue := s.sendQueue ++ [⟨⟨s.ssn, i, true, tag⟩, .writeLog 0 n, true⟩] }

/-- The body of the last loop in `update_remote_logs`. -/
def updateRemoteCommit (tag : Bool) (s : State) : State :=
  if permanentFailure ≤ s.server.failCount ∨ s.server.rcConnected = false ∨
      s.server.nextLrStep ≠ .updateLog ∨ s.offsetsCommit = s.offsetsEnd ∨
      s.offsetsCommit = s.leader.commit then s
  else
    let commit :=
      if logIsOffsetLarger s.leader s.leader.commit s.offsetsEnd then s.offsetsEnd
      else s.leader.commit
    { s with
      ssn := s.ssn + 1
      offsetsCommit := commit
      sendQueue := s.sendQueue ++ [⟨⟨s.ssn + 1, i, false, tag⟩, .writeCommit commit, tag⟩] }

/-- The completion is one the pipeline of server `i` waits for. -/
def isNext (server : Server) (wrId : WrId) : Bool :=
  wrId.conn = i && wrId.unsetTag.unsetWa = server.nextWrId

/-- `handle_lr_work_completion` as far as the record of server `i` goes. -/
def handleLrWorkCompletion (wrId : WrId) (rc : WcRc) (server : Server) : Server :=
  if isNext i server wrId then
    if rc = .success then
      match server.nextLrStep with
      | .updateLog =>
        match server.sendCount with
        | 0 => { server with sendFlag := true }
        | 1 => { server with nextLrStep := .updateEnd, sendFlag := true }
        | 2 => { server with sendCount := 1 }
        | _ => server
      | .updateEnd => { server with nextLrStep := .updateLog, sendFlag := true }
      | lrStep => { server with nextLrStep := lrStep.next, sendFlag := true }
    else
      match server.nextLrStep with
      | .updateLog =>
        match server.sendCount with
        | 0 | 1 => { server with sendFlag := true }
        | 2 => { server with sendCount := 0 }
        | _ => server
      | _ => { server with sendFlag := true }
  else server

/-- The handling of one completion in `empty_completion_queue`. -/
def handleCompletion (wrId : WrId) (rc : WcRc) (s : State) : State :=
  let server := handleLrWorkCompletion i wrId rc s.server
  { s with
    server :=
      { server with
        failCount := if rc = .success ∧ wrId.conn = i then 0 else server.failCount } }

/-! ### The network and the server -/

/-- The effect of a request that has been carried out. -/
def execute (op : Op) (s : State) : State :=
  match op with
  | .readNcLen => { s with ncBuf := { s.ncBuf with len := s.published.len } }
  | .readNc n => { s with ncBuf := { s.ncBuf with entries := s.published.entries.take n } }
  | .writeEnd offset => { s with follower := { s.follower with endOff := offset } }
  | .writeLog start n =>
    { s with
      follower :=
        { s.follower with entries := s.follower.entries.copy s.leader.entries start n } }
  | .writeCommit offset => { s with follower := { s.follower with commit := offset } }
  | .other => s

/-- The effect of the first `n` bytes of a request that failed; a word is written at once. -/
def executePart (n : ℕ) (op : Op) (s : State) : State :=
  match op with
  | .writeLog start len => execute (.writeLog start (min n len)) s
  | op => if n = 0 then s else execute op s

/-- A posted request is over: an unsignaled one leaves a completion only if it failed. -/
def complete (w : WorkRequest) (rc : WcRc) (n : ℕ) (s : State) : State :=
  let s := if rc = .success then execute w.op s else executePart n w.op s
  if w.signaled ∨ rc ≠ .success then { s with compQueue := s.compQueue ++ [(w.id, rc)] } else s

/-- The part of `server_to_follower` that a leader sees: the NC buffer is filled anew and the
vote ACK carries the commit offset. -/
def serverToFollower (buf : NcBuf) (s : State) : State :=
  { s with published := buf, voteAck := s.follower.commit }

inductive Event where
  | logAdjustment (tag : Bool)
  | updateRemoteLog (tag : Bool)
  | postSecond (tag : Bool)
  | advanceCommit (offset : ℕ)
  | updateRemoteCommit (tag : Bool)
  | append (term reqId cltId : ℕ) (body : EntryBody)
  | prune (head : ℕ)
  | postOther (conn : ℕ) (tag signaled : Bool)
  | ctrlFailure
  | connection (up : Bool)
  | complete (k : ℕ) (rc : WcRc) (n : ℕ)
  | poll (k : ℕ)
  | qpRestart
  | voteAck
  | serverToFollower
  | tailqAppend (term reqId cltId : ℕ) (body : EntryBody)

/-- One step of the leader, the network or server `i`. Between the two parts of a wrapped write
the leader only handles completions. `append` stands for every call of `log_append_entry` on the
leader, `advanceCommit` for the commit rule, which also reads the records of other servers. -/
def transition (s : State) : Event → Option State
  | .logAdjustment tag => guarded (s.second = none) (logAdjustment i tag s)
  | .updateRemoteLog tag => guarded (s.second = none) (updateRemoteLog i tag s)
  | .postSecond tag => s.second.map fun n => postSecond i tag n s
  | .advanceCommit offset =>
    guarded (s.second = none) { s with leader := { s.leader with commit := offset } }
  | .updateRemoteCommit tag => guarded (s.second = none) (updateRemoteCommit i tag s)
  | .append term reqId cltId body =>
    (logAppendEntry s.leader term reqId cltId body).bind fun r =>
      guarded (s.second = none) { s with leader := r.1 }
  | .prune head => guarded (s.second = none) { s with leader := { s.leader with head := head } }
  | .postOther conn tag signaled =>
    guarded (s.second = none)
      { s with
        ssn := s.ssn + 1
        sendQueue := s.sendQueue ++ [⟨⟨s.ssn + 1, conn, false, tag⟩, .other, signaled || tag⟩] }
  | .ctrlFailure =>
    some { s with server := { s.server with failCount := s.server.failCount + 1 } }
  | .connection up => some { s with server := { s.server with rcConnected := up } }
  | .complete k rc n =>
    (s.sendQueue[k]?).map fun w =>
      complete w rc n { s with sendQueue := s.sendQueue.eraseIdx k }
  | .poll k =>
    (s.compQueue[k]?).map fun c =>
      handleCompletion i c.1 c.2 { s with compQueue := s.compQueue.eraseIdx k }
  | .qpRestart => some { s with sendQueue := [], compQueue := [] }
  | .voteAck => some { s with voteAck := s.follower.commit }
  | .serverToFollower =>
    (logEntriesToNcBuf s.follower).map fun buf => serverToFollower buf s
  | .tailqAppend term reqId cltId body =>
    (logAppendEntry s.follower term reqId cltId body).map fun r => { s with follower := r.1 }

def isAdjusting : LrStep → Bool
  | .updateLog | .updateEnd => false
  | _ => true

/-- Bring the history up to date after a step from `s` to `s'`. -/
def observe (s s' : State) : State :=
  { s' with
    history :=
      if isAdjusting s.server.nextLrStep = true ∧ s'.server.nextLrStep = .updateLog then
        ⟨s'.offsetsEnd, gap s'.leader.len s'.offsetsEnd s'.leader.endOff, false⟩
      else
        ⟨s.history.adjustedEnd,
          s.history.travelled + gap s.leader.len s.leader.endOff s'.leader.endOff,
          s.history.updated ||
            (s.server.nextLrStep == .updateEnd && s'.server.nextLrStep == .updateLog)⟩ }

def pipeline : System State Event where
  step s e := (transition i s e).map (observe s)

/-- `MAX_NC_ENTRIES` -/
def maxNcEntries : ℕ := 1024

/-- A server at the moment it has filled its NC buffer, with exclusive access to its log. -/
structure Voter where
  log : Log
  buf : NcBuf
  large : 2 * maxEntryLen ≤ log.len
  commit_lt : log.commit < log.len
  filled : logEntriesToNcBuf log = some buf
  buf_le : buf.len ≤ maxNcEntries

/-- A candidate and a server that supports it. -/
structure Ballot where
  candidate : Log
  voter : Voter
  len_eq : voter.log.len = candidate.len
  end_le : candidate.endOff ≤ candidate.len

/-- The state in which the candidate becomes leader; `counted` tells whether the vote of the
server has been counted, otherwise its ACK is still to come. -/
def State.init (b : Ballot) (ssn : ℕ) (counted : Bool) : State where
  leader := b.candidate
  ncBuf := ⟨0, []⟩
  voteAck := if counted then b.voter.log.commit else b.candidate.len
  offsetsCommit := if counted then b.voter.log.commit else 0
  offsetsEnd := 0
  server :=
    { nextWrId := ⟨0, i, false, false⟩, cachedEndOffset := 0, failCount := 0
      nextLrStep := if counted then .getNceLen else .getWrite
      sendFlag := true, sendCount := 0, rcConnected := true }
  ssn := ssn
  second := none
  sendQueue := []
  compQueue := []
  follower := b.voter.log
  published := b.voter.buf
  history := ⟨0, 0, false⟩

end VmFt.Dare.Ring
