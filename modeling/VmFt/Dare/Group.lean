import VmFt.Lib.Transition
import VmFt.Dare.Replication
import VmFt.Dare.Recovery

/-! # A group of servers

The transition system of a group in a stable configuration. A step is one
function run by one server, the arrival or loss of one RDMA write into control
data, or one operation of a LOG queue pair. A server that stops simply takes
no further steps.
-/

namespace VmFt.Dare

/-- The servers, the writes under way, and what was observed so far. -/
structure State where
  srv : ℕ → Server
  net : List Msg
  trace : List Obs

def State.init (g : Group) : State := ⟨fun _ => .init g, [], []⟩

inductive Event where
  | boot (i : ℕ)
  | singleStart (i : ℕ)
  | getReplicatedVote (i : ℕ) (landed : List ℕ) (batches : List (List Wc))
  | sendSmRequest (i : ℕ)
  | pollSmRequests (i : ℕ)
  | pollSmReply (i : ℕ) (applied : Option ℕ)
  | recoverLogOffsets (i j : ℕ) (ackOk : Bool)
  | recoverLogEntries (i : ℕ) (ackOk : Bool)
  | restart (i : ℕ)

  | hbReceive (i : ℕ) (ackOk : Bool)
  | toAdjust (i : ℕ)
  | hbSend (i : ℕ) (ackOk : Bool)
  | pollVoteRequests (i : ℕ) (ackOk : Bool)
  | pollVoteCount (i : ℕ)
  | verifyLeadership (i : ℕ) (landed : List ℕ) (batches : List (List Wc)) (ackOk : Bool)

  | submit (i : ℕ) (req : Request)
  | getTailqMessage (i : ℕ)
  | appendHead (i offset : ℕ)
  | applyEntries (i : ℕ)

  | logAdjustment (i j : ℕ)
  | updateRemoteLog (i j : ℕ)
  | advanceCommit (i : ℕ)
  | updateRemoteCommit (i j : ℕ)
  | pollCompletion (i j : ℕ)
  | ctrlFailure (i j : ℕ)

  | logExec (i j : ℕ) (ok : Bool)
  | logFail (i j : ℕ)
  | deliver (m : Msg)
  | drop (m : Msg)
  deriving DecidableEq, Repr

/-- Replace the state of server `i` by the outcome of a function it ran. -/
def State.perform (s : State) (i : ℕ) (eff : Effect) : State :=
  ⟨Function.update s.srv i eff.srv, s.net ++ eff.sent, s.trace ++ eff.seen⟩

section Perform

variable (s : State) (i : ℕ) (eff : Effect)

@[simp]
theorem State.perform_srv_self : (s.perform i eff).srv i = eff.srv :=
  Function.update_self ..

theorem State.perform_srv (p : ℕ) :
    (s.perform i eff).srv p = if p = i then eff.srv else s.srv p :=
  Function.update_apply ..

theorem State.perform_srv_of_ne {p : ℕ} (h : p ≠ i) : (s.perform i eff).srv p = s.srv p :=
  Function.update_of_ne h ..

@[simp]
theorem State.perform_net : (s.perform i eff).net = s.net ++ eff.sent := rfl

@[simp]
theorem State.perform_trace : (s.perform i eff).trace = s.trace ++ eff.seen := rfl

theorem State.perform_andThen (f : Server → Effect) :
    s.perform i (eff.andThen f) = (s.perform i eff).perform i (f eff.srv) := by
  simp only [State.perform, Effect.andThen, Function.update_idem, List.append_assoc]

end Perform

def Msg.land (m : Msg) (srv : ℕ → Server) : ℕ → Server :=
  match m with
  | .heartbeat i j sid =>
    Function.update srv j { srv j with hb := Function.update (srv j).hb i sid }
  | .voteRequest i j req =>
    Function.update srv j { srv j with voteReq := Function.update (srv j).voteReq i req }
  | .voteAck i j commit _ =>
    Function.update srv j { srv j with voteAck := Function.update (srv j).voteAck i (some commit) }
  | .voteSid i j sid =>
    Function.update srv j { srv j with voteSid := Function.update (srv j).voteSid i sid }
  | .smRequest i j =>
    Function.update srv j { srv j with smReq := Function.update (srv j).smReq i true }
  | .smReply i j sid =>
    Function.update srv j { srv j with smRep := Function.update (srv j).smRep i sid }

/-- What a LOG operation of server `i` changes in the memory of its target `j`. -/
def LogOp.onTarget (op : LogOp) (log : Log) : Log :=
  match op with
  | .readNcLen | .readNc _ => log
  | .writeEnd e => { log with endOff := e }
  | .writeEntries o es =>
    { log with entries := fun k => if o ≤ k then es.getD (k - o) (log.entries k)
                                   else log.entries k }
  | .writeCommit c => { log with commit := c }

/-- What a LOG operation towards `j` brings back into the memory of its sender. -/
def LogOp.onSender (op : LogOp) (j : ℕ) (target log : Log) : Log :=
  match op with
  | .readNcLen =>
    { log with
      ncBuf := Function.update log.ncBuf j ({ log.ncBuf j with len := (target.ncBuf j).len }) }
  | .readNc len =>
    { log with
      ncBuf := Function.update log.ncBuf j
        ({ log.ncBuf j with entries := (target.ncBuf j).entries.take len }) }
  | .writeEnd _ | .writeEntries _ _ | .writeCommit _ => log

/-- Take the oldest request of the queue pair from `i` to `j` off its send queue. -/
def popRequest (j : ℕ) (ok : Bool) (wr : WorkRequest) (s : Server) : Server :=
  { s with
    sendQueue := Function.update s.sendQueue j (s.sendQueue j).tail
    compQueue := if wr.signaled then
        Function.update s.compQueue j (s.compQueue j ++ [(wr.wrId, ok)])
      else s.compQueue }

/-- The oldest request of the queue pair from `i` to `j` is executed. -/
def execRequest (i j : ℕ) (ok : Bool) (wr : WorkRequest) (srv : ℕ → Server) : ℕ → Server :=
  let srv := Function.update srv j { srv j with log := wr.op.onTarget (srv j).log }
  let sender := popRequest j ok wr (srv i)
  Function.update srv i
    { sender with log := wr.op.onSender j (srv j).log sender.log }

/-- A completion reported as successful belongs to an operation that was carried out, and
each connection completes once a round. -/
def completionsLanded (g : Group) (landed : List ℕ) (batches : List (List Wc)) : Bool :=
  landed.all (· < g.size) &&
    batches.all (fun b => b.all fun wc => !(wc.current && wc.ok) || wc.conn ∈ landed) &&
    decide ((batches.flatten.filter (·.current)).map (·.conn)).Nodup

section Step

variable (g : Group) (s : State)

/-- A step of server `i` alone, taken only under `guard`. -/
def State.runBy (i : ℕ) (guard : Bool) (eff : Server → Effect) : Option State :=
  if i < g.size ∧ guard then some (s.perform i (eff (s.srv i))) else none

/-- A step of server `i` towards another server `j`. -/
def State.towards (i j : ℕ) (guard : Bool) (f : Server → Server) : Option State :=
  s.runBy g i (guard && j < g.size && j != i) fun srv => .quiet (f srv)

/-- A step of server `i` that need not return. -/
def State.runPartial (i : ℕ) (guard : Bool) (eff : Server → Option Effect) : Option State :=
  if i < g.size ∧ guard then (eff (s.srv i)).map (s.perform i) else none

def isRecovered (i : ℕ) : Bool := (s.srv i).phase == .recovered

def step : Event → Option State
  | .boot i => s.runBy g i (g.size != 1 && (s.srv i).phase == .starting) fun srv =>
      startElection g i { srv with phase := .recovered }
  | .singleStart i => s.runBy g i (g.size == 1 && (s.srv i).phase == .starting) fun srv =>
      ⟨{ srv with phase := .alone, sid := sidSetIdx (sidSetL (sidSetTerm srv.sid 1)) 0 }, [],
        [.elected i 1]⟩
  | .getReplicatedVote i landed batches =>
      s.runPartial g i
        (((s.srv i).phase == .starting || (s.srv i).phase == .joining)
          && completionsLanded g landed batches) fun srv =>
        (getReplicatedVoteCb g i (fun k => (s.srv k).voteSid i) landed batches srv).map .quiet
  | .sendSmRequest i => s.runBy g i ((s.srv i).phase == .voteRead) (sendSmRequestCb g i)
  | .pollSmRequests i =>
      s.runBy g i (isRecovered s i && !isLeader i (s.srv i)) (pollSmRequests g i)
  | .pollSmReply i applied =>
      s.runBy g i ((s.srv i).phase == .voteRead) fun srv => .quiet (pollSmReply g i applied srv)
  | .recoverLogOffsets i j ackOk =>
      s.runBy g i ((s.srv i).phase == .smRecovered && j < g.size && j != i)
        (recoverLogOffsets g i ackOk j (s.srv j).log)
  | .recoverLogEntries i ackOk =>
      match (s.srv i).phase with
      | .offsetsRead j => s.runBy g i true (recoverLogEntries g i ackOk (s.srv j).log)
      | _ => none
  | .restart i => s.runBy g i true fun _ => ⟨.init g, [], [.restarted i]⟩
  | .hbReceive i ackOk =>
      s.runBy g i (isRecovered s i && (s.srv i).hbEvent == .receive) (hbReceiveCb g i ackOk)
  | .toAdjust i => s.runBy g i (isRecovered s i) fun srv => .quiet (toAdjustCb srv)
  | .hbSend i ackOk =>
      s.runBy g i (isRecovered s i && (s.srv i).hbEvent == .send) (hbSendCb g i ackOk)
  | .pollVoteRequests i ackOk => s.runBy g i (isRecovered s i) (pollVoteRequests g i ackOk)
  | .pollVoteCount i =>
      s.runBy g i (isRecovered s i && isCandidate i (s.srv i)) (pollVoteCount g i)
  | .verifyLeadership i landed batches ackOk =>
      s.runPartial g i
        (isRecovered s i && isLeader i (s.srv i) && completionsLanded g landed batches)
        (rcVerifyLeadership g i (fun k => (s.srv k).sid) landed batches ackOk)
  | .submit i req => s.runBy g i true fun srv => .quiet { srv with queue := srv.queue ++ [req] }
  | .getTailqMessage i => s.runBy g i true (getTailqMessage i)
  | .appendHead i offset => s.runBy g i (isRecovered s i && isLeader i (s.srv i))
      (appendEntry i 0 0 .head (.head offset))
  | .applyEntries i => s.runBy g i (isRecovered s i) (applyCommittedEntries i)
  | .logAdjustment i j =>
      s.towards g i j (isRecovered s i && isLeader i (s.srv i)) (logAdjustment j)
  | .updateRemoteLog i j =>
      s.towards g i j (isRecovered s i && isLeader i (s.srv i)) (updateRemoteLog j)
  | .advanceCommit i => s.runBy g i (isRecovered s i && isLeader i (s.srv i)) fun srv =>
      .quiet (advanceCommit g i srv)
  | .updateRemoteCommit i j =>
      s.towards g i j (isRecovered s i && isLeader i (s.srv i)) (updateRemoteCommit j)
  | .pollCompletion i j => s.runPartial g i true fun srv => (pollCompletion j srv).map .quiet
  | .ctrlFailure i j => s.towards g i j true fun srv =>
      { srv with failCount := Function.update srv.failCount j (srv.failCount j + 1) }
  | .logExec i j ok =>
      match (s.srv i).sendQueue j with
      | [] => none
      | wr :: _ =>
        if i < g.size ∧ j < g.size ∧ i ≠ j ∧ (s.srv i).logAccess j ∧ (s.srv j).logAccess i then
          some { s with srv := execRequest i j ok wr s.srv }
        else none
  | .logFail i j =>
      match (s.srv i).sendQueue j with
      | [] => none
      | wr :: _ => s.towards g i j true (popRequest j false wr)
  | .deliver m => if m ∈ s.net then some { s with srv := m.land s.srv, net := s.net.erase m }
      else none
  | .drop m => if m ∈ s.net then some { s with net := s.net.erase m } else none

end Step

def group (g : Group) : System State Event := ⟨step g⟩

/-- Three servers, for runs given step by step. -/
def trio : Group := ⟨3, by decide, ⟨0, 3, 0, .stable, 7⟩, 1000⟩

def quintet : Group := ⟨5, by decide, ⟨0, 5, 0, .stable, 31⟩, 1000⟩

end VmFt.Dare
