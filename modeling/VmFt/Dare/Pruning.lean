import VmFt.Dare.Reconfigure
import VmFt.Dare.RingRecovery

/-! # Log pruning

The head offsets of a group and what moves them: the leader collects the apply
offsets of the servers that are on and advances its head to the smallest one,
the others follow when they find the HEAD entry. Positions in a log are counted
in bytes from its start and never wrap; the code sees the place of a position on
the circular buffer of `len` bytes and compares places by their distance to the
end of the log.
-/

namespace VmFt.Dare.Pruning

open VmFt.System
open Config (maxServerCount isServerOn serverRm addServer getExtendedGroupSize initialCid)

/-- What a log entry says about the group. -/
inductive Payload
  | other
  | head (offset : ℕ)
  | config (cid : Cid)
  deriving DecidableEq

def Payload.headOffset : Payload → Option ℕ
  | .head offset => some offset
  | _ => none

def Payload.cid : Payload → Option Cid
  | .config cid => some cid
  | _ => none

/-- An entry and the positions between which it stands. -/
structure Record where
  idx : ℕ
  start : ℕ
  stop : ℕ
  payload : Payload
  deriving DecidableEq

/-- A place is vacant until the server that was given the place has recovered. -/
inductive Status
  | running
  | failed
  | vacant
  deriving DecidableEq

structure Member where
  idx : ℕ
  status : Status
  leader : Bool
  cid : Cid
  cidOffset : ℕ
  cidIdx : ℕ
  log : List Record
  head : ℕ
  apply : ℕ
  commit : ℕ
  /-- `ctrl_data->apply_offsets` -/
  applyOffsets : ℕ → ℕ
  /-- The reads of remote apply offsets that are not completed, with the values read. -/
  reads : ℕ → Option ℕ
  prevLogEntryHead : Bool

def endPos (log : List Record) : ℕ := (log.getLast?.map Record.stop).getD 0

def tailPos (log : List Record) : ℕ := (log.getLast?.map Record.start).getD 0

/-! ### The circular buffer -/

/-- The offsets of a log. The end offset of a log without entries is `len`. -/
def ring (len : ℕ) (m : Member) : Ring.Log :=
  { head := m.head % len
    apply := m.apply % len
    commit := m.commit % len
    endOff := if endPos m.log % len = 0 then len else endPos m.log % len
    tail := tailPos m.log % len
    len := len
    entries := fun _ => 0 }

/-- `log_is_offset_larger` -/
def isOffsetLarger (len : ℕ) (m : Member) (l r : ℕ) : Bool :=
  Ring.logIsOffsetLarger (ring len m) (l % len) (r % len)

/-- `log_offset_end_distance` -/
def offsetEndDistance (len : ℕ) (m : Member) (offset : ℕ) : ℕ :=
  Ring.logOffsetEndDistance (ring len m) (offset % len)

/-- `log_append_entry` for an entry of `size` bytes; nothing is appended to a log that is full. -/
def logAppendEntry (len size : ℕ) (payload : Payload) (m : Member) : Member :=
  let m := if payload.headOffset.isSome then m else { m with prevLogEntryHead := false }
  if Ring.isLogFull (ring len m) then m
  else
    let start := Spool.slot len (endPos m.log) size
    { m with log := m.log ++ [⟨m.log.length + 1, start, start + size, payload⟩] }

def appendConfig (len : ℕ) (m : Member) : Member :=
  logAppendEntry len Ring.sizeofEntry (.config m.cid) m

/-! ### The leader -/

/-- The apply offsets with those of the servers that are off set to the leader's own. -/
def presentOffsets (m : Member) (i : ℕ) : ℕ :=
  if i < getExtendedGroupSize m.cid ∧ isServerOn m.cid i = false then m.apply
  else m.applyOffsets i

def minOffset (len : ℕ) (m : Member) : ℕ :=
  (List.range (getExtendedGroupSize m.cid)).foldl (fun offset i =>
    if isOffsetLarger len m offset (presentOffsets m i) then presentOffsets m i else offset) m.apply

def pruneOffset (len : ℕ) (m : Member) : ℕ :=
  if offsetEndDistance len m (minOffset len m) = 0 then tailPos m.log else minOffset len m

/-- Whether `log_pruning` advances the head offset. -/
def advances (len : ℕ) (m : Member) : Bool :=
  isOffsetLarger len m (pruneOffset len m) m.head && !m.prevLogEntryHead

/-- The part of `rc_get_remote_apply_offsets` that reads nothing. -/
def getRemoteApplyOffsets (m : Member) : Member :=
  { m with
    applyOffsets := fun i =>
      if i < getExtendedGroupSize m.cid ∧ (i = m.idx ∨ isServerOn m.cid i = false) then m.apply
      else m.applyOffsets i }

def logPruning (len : ℕ) (m : Member) : Member :=
  let offset := pruneOffset len m
  let m' := { m with applyOffsets := presentOffsets m }
  if advances len m then
    getRemoteApplyOffsets
      { logAppendEntry len Ring.sizeofEntry (.head offset) { m' with head := offset } with
        prevLogEntryHead := true }
  else getRemoteApplyOffsets m'

/-- The server with the smallest apply offset. -/
def slowest (len : ℕ) (m : Member) : ℕ :=
  ((List.range (getExtendedGroupSize m.cid)).foldl (fun found i =>
    if isOffsetLarger len m found.1 (m.applyOffsets i) then (m.applyOffsets i, i) else found)
    (m.apply, m.idx)).2

/-- The removal of the slowest server. The offset that is updated is the one behind the last
server. -/
def removeSlowest (len : ℕ) (m : Member) : Member :=
  let target := slowest len m
  if target ≠ m.idx ∧ isServerOn m.cid target then
    let m := appendConfig len
      { m with cid := serverRm m.cid target, reads := Function.update m.reads target none }
    { m with
      applyOffsets := Function.update m.applyOffsets (getExtendedGroupSize m.cid) m.apply }
  else m

/-- Whether the log is filled to three quarters. -/
def needsPruning (len : ℕ) (m : Member) : Bool := 3 * len ≤ 4 * offsetEndDistance len m m.head

def forceLogPruning (len : ℕ) (m : Member) : Member :=
  if needsPruning len m then logPruning len (removeSlowest len m) else m

/-- The part of `handle_server_join_request` that adds a server at a place. -/
def addServerAt (len place : ℕ) (m : Member) : Member :=
  appendConfig len
    { m with
      cid := addServer m.cid place
      applyOffsets := Function.update m.applyOffsets place m.head }

/-! ### CONFIG and HEAD entries -/

/-- The entries that `poll_config_entries` looks at. -/
def scanned (m : Member) : List Record := m.log.filter fun r => m.cidOffset ≤ r.start

/-- `update_cid`; a server that is removed shuts down. -/
def updateCid (cid : Cid) (m : Member) : Member :=
  { m with cid := cid, status := if Config.removes m.idx m.cid cid then .failed else m.status }

def pollConfig (m : Member) (r : Record) : Member :=
  match r.payload with
  | .config cid => if m.cidIdx < r.idx ∧ m.cid ≠ cid then updateCid cid m else m
  | _ => m

def pollHead (len : ℕ) (m : Member) (head : ℕ) (r : Record) : ℕ :=
  match r.payload with
  | .head offset => if isOffsetLarger len m r.start m.commit then head else offset
  | _ => head

def foundHead (len : ℕ) (m : Member) : ℕ := (scanned m).foldl (pollHead len m) m.head

def pollConfigEntries (len : ℕ) (m : Member) : Member :=
  let head := foundHead len m
  { (scanned m).foldl pollConfig m with
    cidOffset := if isOffsetLarger len m (endPos m.log) m.commit then m.commit else endPos m.log
    head := if isOffsetLarger len m head m.head then head else m.head }

/-- `poll_vote_count` of a candidate that has won. -/
def winElection (len : ℕ) (m : Member) : Member :=
  let m := { pollConfigEntries len m with leader := true }
  { m with
    applyOffsets := fun i =>
      if i < getExtendedGroupSize m.cid then m.head else m.applyOffsets i }

/-! ### The group -/

/-- The part of `reconf_rep_t` that a joining server keeps. -/
structure Reply where
  cid : Cid
  cidIdx : ℕ
  head : ℕ
  deriving DecidableEq

structure State where
  members : ℕ → Member
  /-- The configurations in the vote requests sent so far. -/
  requests : List Cid
  /-- The replies to JOIN requests sent so far. -/
  replies : List Reply

inductive Event
  | append (i size : ℕ)
  | join (i place : ℕ)
  /-- The removal of failed servers, or a step of a resize. -/
  | narrow (i : ℕ) (cid : Cid)
  | prune (i : ℕ)
  | force (i : ℕ)
  /-- A read of the apply offset of `j` takes place. -/
  | fetch (i j : ℕ)
  /-- The value read is delivered. -/
  | complete (i j : ℕ)
  | commit (i offset : ℕ)
  | apply (i offset : ℕ)
  | extend (i k n : ℕ)
  | truncate (i offset : ℕ)
  | poll (i : ℕ)
  | request (i : ℕ)
  | vote (i : ℕ) (cid : Cid)
  | elect (i : ℕ)
  | stepDown (i : ℕ)
  | reply (i cidIdx : ℕ)
  | recover (i : ℕ) (r : Reply) (source n commit apply : ℕ)
  | fail (i : ℕ)

def Event.server : Event → ℕ
  | .append i _ | .join i _ | .narrow i _ | .prune i | .force i | .fetch i _ | .complete i _
  | .commit i _ | .apply i _ | .extend i _ _ | .truncate i _ | .poll i | .request i | .vote i _
  | .elect i | .stepDown i | .reply i _ | .recover i _ _ _ _ _ | .fail i => i

def Event.status : Event → Status
  | .recover _ _ _ _ _ _ => .vacant
  | _ => .running

/-- What a server does in a step, none if it does not take it. -/
def act (len : ℕ) (s : State) (m : Member) : Event → Option Member
  | .append _ size => guarded (m.leader = true) (logAppendEntry len size .other m)
  | .join i place =>
    guarded (m.leader = true ∧ m.cid.state = .stable ∧ place ≠ i ∧ place ≤ m.cid.size ∧
      isServerOn m.cid place = false) (addServerAt len place m)
  | .narrow _ cid =>
    guarded (m.leader = true ∧ cid.bitmask &&& m.cid.bitmask = cid.bitmask ∧
      getExtendedGroupSize cid ≤ getExtendedGroupSize m.cid)
      (appendConfig len { m with cid := cid })
  | .prune _ => guarded (m.leader = true) (logPruning len m)
  | .force _ => guarded (m.leader = true) (forceLogPruning len m)
  | .fetch _ j =>
    guarded ((s.members j).status = .running ∧ m.reads j = none)
      { m with reads := Function.update m.reads j (some (s.members j).apply) }
  | .complete _ j =>
    (m.reads j).map fun offset =>
      { m with
        applyOffsets := Function.update m.applyOffsets j offset
        reads := Function.update m.reads j none }
  | .commit _ offset =>
    guarded (m.commit ≤ offset ∧ offset ≤ endPos m.log)
      { m with commit := offset, cidOffset := if m.leader then offset else m.cidOffset }
  | .apply _ offset => guarded (m.apply ≤ offset ∧ offset ≤ m.commit) { m with apply := offset }
  | .extend _ k n =>
    guarded (m.leader = false ∧ (s.members k).status = .running)
      { m with
        log := m.log ++ ((s.members k).log.filter fun r => endPos m.log ≤ r.start).take n }
  | .truncate _ offset =>
    let log := m.log.filter fun r => r.stop ≤ offset
    guarded (m.leader = false ∧ m.commit ≤ endPos log) { m with log := log }
  | .poll _ => guarded (m.leader = false) (pollConfigEntries len m)
  | .request _ => some m
  | .vote _ cid => guarded (m.leader = false ∧ cid ∈ s.requests) (updateCid cid m)
  | .elect _ => guarded (m.leader = false) (winElection len m)
  | .stepDown _ => some { m with leader := false }
  | .reply _ _ => guarded (m.leader = true) m
  | .recover i r source n commit apply =>
    let log := (s.members source).log.take n
    guarded (r ∈ s.replies ∧ (s.members source).status = .running ∧ r.head ≤ commit ∧
        commit ≤ endPos log)
      { m with
        idx := i
        status := .running
        leader := false
        cid := r.cid
        cidOffset := r.head
        cidIdx := r.cidIdx
        log := log
        head := r.head
        apply := apply
        commit := commit
        reads := fun _ => none }
  | .fail _ => some { m with status := .failed }

/-- A place that is given to a new server; the connections to the old one are gone. -/
def vacate (place : ℕ) (members : ℕ → Member) (k : ℕ) : Member :=
  { members k with
    status := if k = place then .vacant else (members k).status
    reads := Function.update (members k).reads place none }

/-- The servers after a step that makes the one that takes it `m'`. -/
def nextMembers (members : ℕ → Member) (m' : Member) : Event → ℕ → Member
  | .join i place => vacate place (Function.update members i m')
  | e => Function.update members e.server m'

def groupStep (len : ℕ) (s : State) (e : Event) : Option State :=
  let m := s.members e.server
  if m.status = e.status then
    (act len s m e).map fun m' =>
      { members := nextMembers s.members m' e
        requests := match e with
          | .request _ => s.requests ++ [m.cid]
          | _ => s.requests
        replies := match e with
          | .reply _ cidIdx => s.replies ++ [⟨m.cid, cidIdx, m.head⟩]
          | _ => s.replies }
  else none

def group (len : ℕ) : System State Event := ⟨groupStep len⟩

def initialMember (size i : ℕ) : Member :=
  { idx := i, status := if i < size then .running else .vacant, leader := false
    cid := initialCid size, cidOffset := 0, cidIdx := 0, log := [], head := 0, apply := 0
    commit := 0, applyOffsets := fun _ => 0, reads := fun _ => none, prevLogEntryHead := false }

def start (size : ℕ) : State := ⟨initialMember size, [], []⟩

end VmFt.Dare.Pruning
