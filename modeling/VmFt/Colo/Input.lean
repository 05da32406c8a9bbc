import Mathlib.Data.List.Basic
import Mathlib.Data.Nat.Notation
import VmFt.Lib.Transition

/-! # The input of the two guests

Packets reach the primary through the tap device and are replicated before they are
given to its guest. The backup applies the replicated log, which sends the packets
to its network filter. A checkpoint is cut out of the same log: the primary
replicates a CHECKPOINT entry before it stops its guest, and the backup stops its
own after it has applied the entry. The guest of the backup first runs when it has
loaded a state. The network card of a running guest takes every packet.
-/

namespace VmFt.Colo.Input

inductive Entry
  | mirror (packet : ℕ)
  | checkpoint
deriving DecidableEq, Repr

/-- The packets of a part of the log. -/
def mirrors (l : List Entry) : List ℕ := l.filterMap fun
  | .mirror p => some p
  | .checkpoint => none

/-- The parts of a log before and after its `k`-th CHECKPOINT entry. -/
def split : ℕ → List Entry → Option (List Entry × List Entry)
  | 0, l => some ([], l)
  | _ + 1, [] => none
  | k + 1, .checkpoint :: l =>
    if k = 0 then some ([], l) else (split k l).map fun r => (.checkpoint :: r.1, r.2)
  | k + 1, .mirror p :: l => (split (k + 1) l).map fun r => (.mirror p :: r.1, r.2)

/-- Where the checkpoint thread of the primary is; `waiting` holds the number of its request. -/
inductive PrimaryPc
  | idle
  | waiting (rec : ℕ)
  | returned
  | stopped
  | saved
deriving DecidableEq, Repr

inductive BackupPc
  | waiting | requested | disabled | stopped | loading | loaded
deriving DecidableEq, Repr

/-- The primary. The log is the leader's, `committed` of its entries are committed and applied. -/
structure Primary where
  tailq : List Entry
  log : List Entry
  committed : ℕ
  /-- The packet that `tap_send` has submitted, with the number of the request. -/
  tap : Option (ℕ × ℕ)
  readPoll : Bool
  pc : PrimaryPc
  running : Bool
  /-- What the network queue holds while the guest is stopped. -/
  queue : List ℕ
  delivered : List ℕ
  /-- For each checkpoint, what had been delivered when its state was saved. -/
  saves : List (List ℕ)
deriving DecidableEq, Repr

/-- The backup. It has applied `applied` entries and knows `commit` to be committed. -/
structure Backup where
  commit : ℕ
  applied : ℕ
  disableApply : Bool
  /-- Whether `apply_committed_entries` is running. -/
  applying : Bool
  checkpointReq : Bool
  socket : List ℕ
  pc : BackupPc
  running : Bool
  queue : List ℕ
  /-- What has been delivered since the last state was loaded. -/
  delivered : List ℕ
  loads : ℕ
deriving DecidableEq, Repr

structure State where
  primary : Primary
  backup : Backup
deriving DecidableEq, Repr

def State.init : State where
  primary := ⟨[], [], 0, none, true, .idle, true, [], [], []⟩
  backup := ⟨0, 0, false, false, false, [], .waiting, false, [], [], 0⟩

/-- `nq_maxlen`: how many packets without a callback a network queue takes. -/
def nqMaxlen : ℕ := 10000

inductive Event
  | arrive (packet : ℕ) | tapReturn
  | append | commit (n : ℕ)
  | request | requestReturn | stop | save | start
  | learn (n : ℕ) | applyBegin | applyEntry | applyEnd | receive
  | backupRequest | disable | backupStop | resume | load | backupStart
deriving DecidableEq, Repr

/-- `leader_handle_submit_req` up to its wait: the request is queued and gets a number. -/
def Primary.submit (P : Primary) (e : Entry) : Primary × ℕ :=
  ({ P with tailq := P.tailq ++ [e] }, P.log.length + P.tailq.length + 1)

open VmFt.System

/-- The primary: `tap_send` holds the iothread lock from reading a packet to delivering it, and the
checkpoint thread takes the lock to stop the guest, to save its state and to start it. -/
def Primary.step (P : Primary) (loads : ℕ) : Event → Option Primary
  | .arrive p =>
    let (P', rec) := P.submit (.mirror p)
    guarded (P.tap = none ∧ P.readPoll) { P' with tap := some (p, rec) }
  | .tapReturn =>
    match P.tap with
    | none => none
    | some (p, rec) =>
      guarded (rec ≤ P.committed)
        (if P.running then { P with tap := none, delivered := P.delivered ++ [p] }
          else { P with tap := none, queue := P.queue ++ [p], readPoll := false })
  | .append => some { P with log := P.log ++ P.tailq, tailq := [] }
  | .commit n => guarded (P.committed ≤ n ∧ n ≤ P.log.length) { P with committed := n }
  | .request =>
    let (P', rec) := P.submit .checkpoint
    guarded (P.pc = .idle) { P' with pc := .waiting rec }
  | .requestReturn =>
    match P.pc with
    | .waiting rec => guarded (rec ≤ P.committed) { P with pc := .returned }
    | _ => none
  | .stop => guarded (P.pc = .returned ∧ P.tap = none) { P with running := false, pc := .stopped }
  | .save =>
    guarded (P.pc = .stopped ∧ P.tap = none)
      { P with saves := P.saves ++ [P.delivered], pc := .saved }
  | .start =>
    -- The guest is started after the backup has loaded the state.
    guarded (P.pc = .saved ∧ loads = P.saves.length ∧ P.tap = none)
      { P with
        running := true, delivered := P.delivered ++ P.queue, queue := [], readPoll := true,
        pc := .idle }
  | _ => none

/-- The backup: the apply loop, the main loop that reads the filter's socket, and the checkpoint
thread. Only with `CHECK_IDLE_SYNC` does the thread wait for a request. -/
def Backup.step (idleSync : Bool) (P : Primary) (B : Backup) : Event → Option Backup
  | .learn n => guarded (B.commit ≤ n ∧ n ≤ P.committed) { B with commit := n }
  | .applyBegin => guarded (B.disableApply = false ∧ B.applying = false) { B with applying := true }
  | .applyEntry =>
    match P.log[B.applied]? with
    | none => none
    | some e =>
      guarded (B.applying ∧ B.applied < B.commit)
        (match e with
          | .mirror p => { B with applied := B.applied + 1, socket := B.socket ++ [p] }
          | .checkpoint => { B with applied := B.applied + 1, checkpointReq := true })
  | .applyEnd => guarded (B.applying ∧ B.applied = B.commit) { B with applying := false }
  | .receive =>
    match B.socket with
    | [] => none
    | p :: rest =>
      some (if B.running then { B with socket := rest, delivered := B.delivered ++ [p] }
        else if B.queue.length < nqMaxlen then
          { B with socket := rest, queue := B.queue ++ [p] }
        else { B with socket := rest })
  | .backupRequest =>
    guarded (B.pc = .waiting ∧ (idleSync → B.checkpointReq))
      { B with checkpointReq := false, pc := .requested }
  | .disable => guarded (B.pc = .requested) { B with disableApply := true, pc := .disabled }
  | .backupStop => guarded (B.pc = .disabled) { B with running := false, pc := .stopped }
  | .resume => guarded (B.pc = .stopped) { B with disableApply := false, pc := .loading }
  | .load =>
    guarded (B.pc = .loading ∧ B.loads < P.saves.length)
      { B with delivered := [], loads := B.loads + 1, pc := .loaded }
  | .backupStart =>
    guarded (B.pc = .loaded)
      { B with
        running := true, delivered := B.delivered ++ B.queue, queue := [], pc := .waiting }
  | _ => none

/-- Both hosts. -/
def step (idleSync : Bool) (s : State) (e : Event) : Option State :=
  match e with
  | .arrive _ | .tapReturn | .append | .commit _ | .request | .requestReturn | .stop | .save
  | .start => (s.primary.step s.backup.loads e).map fun P => { s with primary := P }
  | _ => (s.backup.step idleSync s.primary e).map fun B => { s with backup := B }

def input (idleSync : Bool) : System State Event := ⟨step idleSync⟩

end VmFt.Colo.Input
