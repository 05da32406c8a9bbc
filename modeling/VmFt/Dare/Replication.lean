import Mathlib.Data.List.Sort
import VmFt.Dare.Election

/-! # Log replication

Appending, committing and applying entries. The leader adjusts the log of each
server and then extends it by work requests on a LOG queue pair, advancing one
step per completion. The loops of `log_adjustment` and `update_remote_logs`
over the servers are given by their bodies.
-/

namespace VmFt.Dare

variable (g : Group) (i : ℕ)

def permanentFailure : ℕ := 2

/-- `log_append_entry` on the log of a server, under the term of its SID. -/
def appendEntry (reqId cltId : ℕ) (type : EntryType) (data : EntryData) (s : Server) : Effect :=
  let log := logAppendEntry s.log (sidGetTerm s.sid) reqId cltId type data
  ⟨{ s with log := log }, [],
    .appended i (sidGetTerm s.sid) s.log.newOffset (log.entries s.log.newOffset) ::
      if s.log.endOff = s.log.len then [.startedOver i] else []⟩

/-- `get_tailq_message`: append every queued request, whatever the role of the server. -/
def getTailqMessage (s : Server) : Effect :=
  s.queue.foldl
    (fun eff r => eff.andThen (appendEntry i r.reqId r.connId r.type (.cmd r.cmd)))
    (.quiet { s with queue := [] })

/-- `apply_committed_entries`: the entries from the apply to the commit offset. -/
def applyCommittedEntries (s : Server) : Effect :=
  if logIsOffsetLarger s.log s.log.commit s.log.apply then
    ⟨{ s with log := { s.log with apply := s.log.commit } }, [],
      (List.range' s.log.apply (s.log.commit - s.log.apply)).map fun k =>
        .applied i (s.log.entries k)⟩
  else .quiet s

def raiseCommit (offset : ℕ) (s : Server) : Server :=
  if logIsOffsetLarger s.log offset s.log.commit then
    { s with log := { s.log with commit := offset } }
  else s

/-- One turn of the counting loop in `poll_vote_count`. -/
def voteCountBody (st : Server × ℕ) (k : ℕ) : Server × ℕ :=
  match st.1.voteAck k with
  | none => st
  | some c =>
    (raiseCommit c { st.1 with
        logCommit := Function.update st.1.logCommit k c
        nextLrStep := Function.update st.1.nextLrStep k .getNceLen }, st.2 + 1)

/-- `poll_vote_count` in a stable configuration. -/
def pollVoteCount (s : Server) : Effect :=
  let (s, count) := (g.others i).foldl voteCountBody (s, 1)
  if count < g.size / 2 + 1 then .quiet s
  else
    let s := { s with sid := sidSetL s.sid }
    Effect.andThen ⟨s, [], [.elected i (sidGetTerm s.sid)]⟩ (applyCommittedEntries i)
      |>.andThen (appendEntry i 0 0 .config (.cid g.cid))
      |>.andThen fun s => .quiet (rcRestoreLogAccess g i { s with hbEvent := .send })

/-! ### Work requests -/

def postSend (j : ℕ) (op : LogOp) (s : Server) : Server :=
  let ssn := s.ssn + 1
  { s with
    ssn := ssn
    sendFlag := Function.update s.sendFlag j false
    nextWrId := Function.update s.nextWrId j ssn
    sendQueue := Function.update s.sendQueue j
      (s.sendQueue j ++ [⟨ssn, sidGetTerm s.sid, op, true⟩]) }

/-- Post a request nobody waits for. -/
def postSendUnsignaled (j : ℕ) (op : LogOp) (s : Server) : Server :=
  let ssn := s.ssn + 1
  { s with
    ssn := ssn
    sendQueue := Function.update s.sendQueue j
      (s.sendQueue j ++ [⟨ssn, sidGetTerm s.sid, op, false⟩]) }

/-- The body of the loop in `log_adjustment`. -/
def logAdjustment (j : ℕ) (s : Server) : Server :=
  if permanentFailure ≤ s.failCount j ∨ s.sendFlag j = false then s
  else
    match s.voteAck j with
    | none => s
    | some remoteCommit =>
      match s.nextLrStep j with
      | .getWrite =>
        postSend j .readNcLen (raiseCommit remoteCommit { s with
            logCommit := Function.update s.logCommit j remoteCommit
            nextLrStep := Function.update s.nextLrStep j .getNceLen })
      | .getNceLen => postSend j .readNcLen (raiseCommit remoteCommit s)
      | .getNce =>
        if (s.log.ncBuf j).len = 0 then
          { s with
            logEnd := Function.update s.logEnd j (s.logCommit j)
            nextLrStep := Function.update s.nextLrStep j .updateLog }
        else postSend j (.readNc (s.log.ncBuf j).len) s
      | .setEnd =>
        let remoteEnd := logFindRemoteEndOffset s.log (s.log.ncBuf j).entries 0
        postSend j (.writeEnd remoteEnd)
          { s with logEnd := Function.update s.logEnd j remoteEnd }
      | .updateLog | .updateEnd => s

/-- The body of the first loop in `update_remote_logs`. -/
def updateRemoteLog (j : ℕ) (s : Server) : Server :=
  if permanentFailure ≤ s.failCount j ∨ s.sendFlag j = false then s
  else
    match s.nextLrStep j with
    | .updateLog =>
      let remoteEnd := s.logEnd j
      if logOffsetEndDistance s.log remoteEnd = 0 then s
      else
        postSend j (.writeEntries remoteEnd
            ((List.range' remoteEnd (s.log.endOff - remoteEnd)).map s.log.entries))
          { s with cachedEnd := Function.update s.cachedEnd j s.log.endOff }
    | .updateEnd =>
      postSend j (.writeEnd (s.cachedEnd j))
        { s with logEnd := Function.update s.logEnd j (s.cachedEnd j) }
    | _ => s

/-- Whether the recorded end offset of server `k` is taken for valid. -/
def isCounted (s : Server) (k : ℕ) : Bool :=
  s.failCount k < permanentFailure && s.nextLrStep k == .updateLog

/-- The offset of the last valid entry of server `k`. -/
def validOffset (s : Server) (k : ℕ) : ℕ :=
  if k = i then s.log.endOff
  else if isCounted s k then s.logEnd k
  else s.log.commit

/-- The number of other servers whose valid offset is larger than `offset`. -/
def largerOffsetCount (s : Server) (offset : ℕ) : ℕ :=
  ((g.others i).filter fun k => isCounted s k && logIsOffsetLarger s.log (s.logEnd k) offset).length

def majorityOffset (s : Server) : ℕ :=
  (((List.range g.size).map (validOffset i s)).insertionSort (· ≤ ·)).getD ((g.size - 1) / 2) 0

/-- The commit rule of `update_remote_logs`. -/
def advanceCommit (s : Server) : Server :=
  if largerOffsetCount g i s s.log.commit < g.size / 2 then s
  else raiseCommit (majorityOffset g i s) s

/-- The body of the last loop in `update_remote_logs`. -/
def updateRemoteCommit (j : ℕ) (s : Server) : Server :=
  if isCounted s j = false ∨ s.logCommit j = s.logEnd j ∨ s.logCommit j = s.log.commit then s
  else
    let remoteCommit :=
      if logIsOffsetLarger s.log s.log.commit (s.logEnd j) then s.logEnd j else s.log.commit
    postSendUnsignaled j (.writeCommit remoteCommit)
      { s with logCommit := Function.update s.logCommit j remoteCommit }

/-- The step after a completed one; the last two alternate. -/
def LrStep.next : LrStep → LrStep
  | .getWrite => .getNceLen
  | .getNceLen => .getNce
  | .getNce => .setEnd
  | .setEnd => .updateLog
  | .updateLog => .updateEnd
  | .updateEnd => .updateLog

/-- `handle_lr_work_completion` for a log that does not wrap around. -/
def handleLrWorkCompletion (j wrId : ℕ) (ok : Bool) (s : Server) : Server :=
  if wrId = s.nextWrId j then
    { s with
      nextLrStep := Function.update s.nextLrStep j
        (if ok then (s.nextLrStep j).next else s.nextLrStep j)
      sendFlag := Function.update s.sendFlag j true }
  else s

/-- Take the oldest completion of the queue pair towards server `j`. -/
def pollCompletion (j : ℕ) (s : Server) : Option Server :=
  match s.compQueue j with
  | [] => none
  | (wrId, ok) :: rest =>
    some (handleLrWorkCompletion j wrId ok { s with
        compQueue := Function.update s.compQueue j rest
        failCount := if ok then Function.update s.failCount j 0 else s.failCount })

end VmFt.Dare
