import VmFt.Lib.Transition
import VmFt.Colo.OutputBuffer

/-! # The checkpoint thread of the primary

`colo_process_checkpoint` installs the output buffer, starts the guest and then
runs `colo_do_checkpoint_transaction` over and over. Each step below is a piece
of the two functions between points where the guest, a failover request or a
shutdown request can come in; its parameters are the outcomes of the calls in it.
-/

namespace VmFt.Colo

inductive ColoMessage
  | checkpointReady | checkpointRequest | checkpointReply | vmstateSend | vmstateSize
  | vmstateReceived | vmstateLoaded | guestShutdown
deriving DecidableEq, Repr

def ColoMessage.toNat : ColoMessage → ℕ
  | .checkpointReady => 0
  | .checkpointRequest => 1
  | .checkpointReply => 2
  | .vmstateSend => 3
  | .vmstateSize => 4
  | .vmstateReceived => 5
  | .vmstateLoaded => 6
  | .guestShutdown => 7

/-- The outcome of `mc_rdma_get_colo_ctrl_buffer`: the number that the peer has sent, or a failure
that leaves in the buffer what was there, of which `rest` is all but the lowest byte. -/
inductive Received
  | got (msg : ℕ)
  | failed (rest : ℕ)
deriving DecidableEq, Repr

def qemuVmSectionFull : ℕ := 4

/-- `mc_receive_message` does not look at the outcome. Before it waits for the backup the primary
has put its device state into the buffer, which starts with a section header. -/
def mcReceiveMessage : Received → ℕ
  | .got msg => msg
  | .failed rest => qemuVmSectionFull + 256 * rest

/-- Whether `mc_receive_check_message` sets an error. -/
def mcReceiveCheckMessage (expected : ColoMessage) (r : Received) : Bool :=
  mcReceiveMessage r != expected.toNat

inductive FailoverStatus
  | none | request | handling | completed | relaunch
deriving DecidableEq, Repr

/-- Where the checkpoint thread is. -/
inductive Pc
  | enable | firstBuffer | setup | globalState | loop
  | request | stop | replicate | save | sendSize | sendState | receive | startBuffer | start | flush
  | transactionOut
  | out | left | exited
deriving DecidableEq, Repr

structure Primary where
  pc : Pc
  /-- Whether the guest runs. -/
  running : Bool
  /-- Whether the migration state is still `MIGRATION_STATUS_COLO`. -/
  colo : Bool
  failover : FailoverStatus
  coloSem : ℕ
  shutdownRequested : Bool
  /-- The variable `ret` of the function that is running. -/
  ret : ℤ
  output : Output
  /-- The number of `VMSTATE_LOADED` messages received. -/
  loaded : ℕ
deriving DecidableEq, Repr

/-- The migration has stopped the guest and enters COLO. -/
def Primary.init : Primary := ⟨.enable, false, true, .none, 0, false, 0, .init, 0⟩

inductive Event
  | enableBuffering (r : Output.EnableOutcome)
  | firstBuffer (limited ok : Bool)
  | setup (ok : Bool)
  | globalState (ret : ℤ)
  | loop
  | request (opened : Bool)
  | stop
  | replicate (ok : Bool)
  | save (ret : ℤ)
  | sendSize (ok : Bool)
  | sendState (error : ℤ)
  | receive (r : Received)
  | startBuffer (limited ok : Bool)
  | start
  | flush (ok : Bool)
  | transactionOut
  | leave
  | emit (id : ℕ)
  | failoverRequest
  | failoverBh
  | shutdownRequest
deriving DecidableEq, Repr

namespace Primary

open VmFt.System

def failoverRequestIsActive (s : Primary) : Bool := s.failover != .none

def thread (s : Primary) (pc : Pc) (next : Primary) : Option Primary := guarded (s.pc = pc) next

/-- The step function. From `enable` to `loop` and at `out` it is `colo_process_checkpoint`, from
`request` to `transactionOut` it is `colo_do_checkpoint_transaction`. -/
def step (s : Primary) : Event → Option Primary
  | .enableBuffering r =>
    let (o, ret) := s.output.mcEnableBuffering r
    -- A negative result is met by an empty block, so the setup goes on.
    s.thread .enable
      { s with output := o, ret := ret, pc := if ret = 0 then .firstBuffer else .setup }
  | .firstBuffer limited ok =>
    s.thread .firstBuffer { s with output := (s.output.mcStartBuffer limited ok).1, pc := .setup }
  | .setup ok =>
    let s' := { s with failover := .none }
    s.thread .setup
      (if ok then { s' with running := true, pc := .globalState } else { s' with pc := .out })
  | .globalState ret =>
    s.thread .globalState { s with ret := ret, pc := if ret < 0 then .out else .loop }
  | .loop =>
    s.thread .loop
      { s with pc := if !s.colo || s.failoverRequestIsActive then .out else .request }
  | .request opened =>
    s.thread .request { s with ret := -1, pc := if opened then .stop else .transactionOut }
  | .stop =>
    s.thread .stop
      (if s.failoverRequestIsActive then { s with pc := .transactionOut }
        else { s with running := false, pc := .replicate })
  | .replicate ok =>
    s.thread .replicate
      { s with pc := if s.failoverRequestIsActive || !ok then .transactionOut else .save }
  | .save ret =>
    s.thread .save { s with ret := ret, pc := if ret < 0 then .transactionOut else .sendSize }
  | .sendSize ok => s.thread .sendSize { s with pc := if ok then .sendState else .transactionOut }
  | .sendState error =>
    s.thread .sendState
      { s with ret := error, pc := if error < 0 then .transactionOut else .receive }
  | .receive r =>
    s.thread .receive
      (if mcReceiveCheckMessage .vmstateLoaded r then { s with pc := .transactionOut }
        else if s.shutdownRequested then
          { s with loaded := s.loaded + 1, shutdownRequested := false, pc := .exited }
        else { s with loaded := s.loaded + 1, ret := 0, pc := .startBuffer })
  | .startBuffer limited ok =>
    s.thread .startBuffer { s with output := (s.output.mcStartBuffer limited ok).1, pc := .start }
  | .start => s.thread .start { s with running := true, pc := .flush }
  | .flush ok =>
    s.thread .flush { s with output := (s.output.mcFlushOldestBuffer ok).1, pc := .transactionOut }
  | .transactionOut =>
    s.thread .transactionOut { s with pc := if s.ret < 0 then .out else .loop }
  | .leave =>
    -- After COLO the migration thread lets the guest run on.
    guarded (s.pc = .out ∧ 0 < s.coloSem)
      { s with coloSem := s.coloSem - 1, running := true, pc := .left }
  | .emit id => guarded s.running { s with output := s.output.emit ⟨id, s.loaded⟩ }
  | .failoverRequest => guarded (s.failover = .none) { s with failover := .request }
  | .failoverBh =>
    guarded (s.failover = .request)
      { s with running := false, colo := false, failover := .completed, coloSem := s.coloSem + 1 }
  | .shutdownRequest => guarded s.colo { s with shutdownRequested := true }

end Primary

def primary : System Primary Event := ⟨Primary.step⟩

end VmFt.Colo
