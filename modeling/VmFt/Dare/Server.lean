import VmFt.Dare.Sid
import VmFt.Dare.Log

/-! # Server state

The control data, the log and the replication state of one server of a group
in a stable configuration. Other servers write into the control data and the
log by RDMA; what a server sends is a list of such writes.
-/

namespace VmFt.Dare

/-- A stable configuration; `MAX_SERVER_COUNT` bounds the number of servers. -/
structure Group where
  size : ℕ
  size_le : size ≤ 13
  cid : Cid
  logLen : ℕ

theorem Group.idx_lt (g : Group) {i : ℕ} (h : i < g.size) : i < 256 := by
  have := g.size_le
  omega

/-- `vote_req_t` without the configuration, which is the same for all servers. -/
structure VoteReq where
  sid : ℕ
  index : ℕ
  term : ℕ
  deriving DecidableEq, Repr

inductive LrStep | getWrite | getNceLen | getNce | setEnd | updateLog | updateEnd
  deriving DecidableEq, Repr

/-- The callback behind the heartbeat timer. -/
inductive HbEvent | off | receive | send
  deriving DecidableEq, Repr

/-- How far a server has come: initial servers skip from `starting` to `recovered`,
and the only server of a group becomes `alone`. -/
inductive Phase where
  | starting
  | alone
  | joining
  | voteRead
  | smRecovered
  | offsetsRead (target : ℕ)
  | recovered
  deriving DecidableEq, Repr

inductive LogOp where
  | readNcLen
  | readNc (len : ℕ)
  | writeEnd (offset : ℕ)
  | writeEntries (offset : ℕ) (es : List Entry)
  | writeCommit (offset : ℕ)
  deriving DecidableEq, Repr

/-- A posted LOG operation. The term is the one its sender was in. -/
structure WorkRequest where
  wrId : ℕ
  term : ℕ
  op : LogOp
  signaled : Bool
  deriving DecidableEq, Repr

structure Request where
  reqId : ℕ
  connId : ℕ
  type : EntryType
  cmd : List UInt8
  deriving DecidableEq, Repr

/-- The state of one server; an unset `voteAck` stands for the value `log->len`. -/
structure Server where
  phase : Phase
  sid : ℕ
  voteReq : ℕ → VoteReq
  voteAck : ℕ → Option ℕ
  hb : ℕ → ℕ
  latestHb : ℕ
  rsid : ℕ → ℕ
  voteSid : ℕ → ℕ
  smReq : ℕ → Bool
  smRep : ℕ → ℕ
  hbEvent : HbEvent
  log : Log
  queue : List Request
  logAccess : ℕ → Bool
  logCommit : ℕ → ℕ
  logEnd : ℕ → ℕ
  nextLrStep : ℕ → LrStep
  sendFlag : ℕ → Bool
  cachedEnd : ℕ → ℕ
  nextWrId : ℕ → ℕ
  failCount : ℕ → ℕ
  ssn : ℕ
  sendQueue : ℕ → List WorkRequest
  compQueue : ℕ → List (ℕ × Bool)

/-- A server before it takes part in the group. -/
def Server.init (g : Group) : Server :=
  { phase := .starting, sid := sidNull, voteReq := fun _ => ⟨0, 0, 0⟩, voteAck := fun _ => some 0,
    hb := fun _ => 0, latestHb := 0, rsid := fun _ => 0, voteSid := fun _ => 0,
    smReq := fun _ => false, smRep := fun _ => 0, hbEvent := .off, log := logNew g.logLen,
    queue := [], logAccess := fun _ => false, logCommit := fun _ => 0, logEnd := fun _ => 0,
    nextLrStep := fun _ => .getWrite, sendFlag := fun _ => true, cachedEnd := fun _ => 0,
    nextWrId := fun _ => 0, failCount := fun _ => 0, ssn := 0, sendQueue := fun _ => [],
    compQueue := fun _ => [] }

/-- The RDMA writes into control data. The term of an ACK is the one its sender was in. -/
inductive Msg where
  | heartbeat (src dst sid : ℕ)
  | voteRequest (src dst : ℕ) (req : VoteReq)
  | voteAck (src dst commit term : ℕ)
  | voteSid (src dst sid : ℕ)
  | smRequest (src dst : ℕ)
  | smReply (src dst sid : ℕ)
  deriving DecidableEq, Repr

inductive Obs where
  | started (i term : ℕ)
  | bumped (i term : ℕ)
  | voted (i term candidate : ℕ)
  | elected (i term : ℕ)
  | appended (i term offset : ℕ) (e : Entry)
  | applied (i : ℕ) (e : Entry)
  | restarted (i : ℕ)
  | startedOver (i : ℕ)
  deriving DecidableEq, Repr

/-- The outcome of a function of the source run by one server. -/
structure Effect where
  srv : Server
  sent : List Msg
  seen : List Obs

/-- A function that sends nothing and shows nothing. -/
def Effect.quiet (s : Server) : Effect := ⟨s, [], []⟩

/-- Run `f` on the state another function left behind. -/
def Effect.andThen (eff : Effect) (f : Server → Effect) : Effect :=
  let next := f eff.srv
  ⟨next.srv, eff.sent ++ next.sent, eff.seen ++ next.seen⟩

def Group.others (g : Group) (i : ℕ) : List ℕ := (List.range g.size).filter (· ≠ i)

theorem Group.mem_others {g : Group} {i j : ℕ} : j ∈ g.others i ↔ j < g.size ∧ j ≠ i := by
  simp [Group.others]

end VmFt.Dare
