import Mathlib.Data.Nat.Bitwise
import Mathlib.Data.List.Basic
import Mathlib.Logic.Function.Basic
import VmFt.Dare.Log

/-! # Reconfiguration

What the servers of a group do to their configuration: joins and removals by the
leader, the steps of a resize when CONFIG entries are applied, and the CONFIG
entries a server finds in its log. The log is the list of its entries up to the
end, an offset the number of entries in front of it. A log whose last entry ends
exactly with the buffer has the end offset of an empty one and is taken for it.
-/

namespace VmFt.Dare.Config

/-- `MAX_SERVER_COUNT` -/
def maxServerCount : ℕ := 13

/-- `CID_IS_SERVER_ON` -/
def isServerOn (cid : Cid) (i : ℕ) : Bool := cid.bitmask.testBit i

/-- `CID_SERVER_ADD` -/
def serverAdd (cid : Cid) (i : ℕ) : Cid := { cid with bitmask := cid.bitmask ||| 1 <<< i }

/-- `CID_SERVER_RM` -/
def serverRm (cid : Cid) (i : ℕ) : Cid := { cid with bitmask := cid.bitmask.ldiff (1 <<< i) }

def getExtendedGroupSize (cid : Cid) : ℕ :=
  if cid.state = .stable then cid.size
  else if cid.size < cid.newSize then cid.newSize
  else cid.size

def getGroupSize (cid : Cid) : ℕ :=
  if cid.state ≠ .transit then cid.size
  else if cid.size < cid.newSize then cid.newSize
  else cid.size

/-- `dare_ep_t`, the endpoint of a client or of a server that wants to join. -/
structure Ep where
  lastReqId : ℕ
  cidIdx : ℕ
  committed : Bool
  deriving DecidableEq

/-- `reconf_rep_t` -/
structure Reply where
  reqId : ℕ
  idx : ℕ
  cid : Cid
  cidIdx : ℕ
  head : ℕ
  deriving DecidableEq

/-- A JOIN request: the LID of the packet, and the identifier and the number in the request. -/
structure Packet where
  lid : ℕ
  slid : ℕ
  id : ℕ
  deriving DecidableEq

/-- The configuration of a server and its log. -/
structure Member where
  idx : ℕ
  cid : Cid
  cidOffset : ℕ
  cidIdx : ℕ
  reqId : ℕ
  cltId : ℕ
  /-- The LIDs in `config.servers[i].ep->ud_ep`. -/
  lids : ℕ → ℕ
  /-- The endpoint database. -/
  eps : ℕ → Option Ep
  log : List Entry
  /-- The end offset is the length of the buffer. -/
  atEnd : Bool
  head : ℕ
  apply : ℕ
  commit : ℕ
  term : ℕ
  leader : Bool
  dieAfCommit : Bool
  /-- The server has shut down or has crashed. -/
  down : Bool
  /-- The replies to JOIN requests sent so far. -/
  replies : List Reply

def nextIdx (log : List Entry) : ℕ :=
  match log.getLast? with
  | some e => e.idx + 1
  | none => 1

/-- The entries that a walk through the log finds. -/
def Member.found (m : Member) : List Entry := if m.atEnd then [] else m.log

theorem Member.found_of_inside {m : Member} (h : m.atEnd = false) : m.found = m.log := by
  rw [found, h, if_neg (by simp)]

theorem Member.mem_log_of_found {m : Member} {e : Entry} (h : e ∈ m.found) : e ∈ m.log := by
  unfold found at h
  split_ifs at h
  · exact absurd h List.not_mem_nil
  · exact h

/-- `log_append_entry`; whether the log has room is left open. -/
def logAppendEntry (room : Bool) (reqId cltId : ℕ) (type : EntryType) (data : EntryData)
    (m : Member) : Member :=
  if room then
    { m with
      log := m.log ++ [⟨nextIdx m.found, m.term, reqId, cltId, type, data⟩], atEnd := false }
  else m

def appendConfig (room : Bool) (reqId cltId : ℕ) (m : Member) : Member :=
  logAppendEntry room reqId cltId .config (.cid m.cid) m

/-! ### Joins -/

/-- `ud_send_clt_reply` for a CONFIG entry; an endpoint that is not known is read through a null
pointer. -/
def udSendCltReply (lid reqId : ℕ) (m : Member) : Member :=
  match m.eps lid with
  | none => { m with down := true }
  | some ep =>
    let size := getExtendedGroupSize m.cid
    let idx := ((List.range size).find? fun i => m.lids i == lid).getD size
    { m with
      eps := Function.update m.eps lid (some { ep with lastReqId := reqId, committed := true })
      replies := m.replies ++ [⟨reqId, idx, m.cid, ep.cidIdx, m.head⟩] }

/-- The loop of `handle_server_join_request` over the places below `i`: none if a server with this
LID is in the configuration, otherwise the last place found empty. -/
def findEmpty (cid : Cid) (lids : ℕ → ℕ) (lid : ℕ) : ℕ → ℕ → Option ℕ
  | 0, empty => some empty
  | i + 1, empty =>
    if isServerOn cid i then
      if lids i = lid then none else findEmpty cid lids lid i empty
    else findEmpty cid lids lid i i

/-- The configuration with a server at the place `empty`; the place behind the last one is an extra
server. -/
def addServer (cid : Cid) (empty : ℕ) : Cid :=
  let added := serverAdd cid empty
  if empty = cid.size then
    { added with state := .extended, newSize := (cid.size + 1) % 256, epoch := cid.epoch + 1 }
  else added

/-- `handle_server_join_request`, and whether the server was added. -/
def handleServerJoinRequest (room : Bool) (pkt : Packet) (m : Member) : Member × Bool :=
  if m.cid.state ≠ .stable then (m, false)
  else
    let ep := (m.eps pkt.slid).getD ⟨0, 0, false⟩
    let m := { m with eps := Function.update m.eps pkt.slid (some ep) }
    match findEmpty m.cid m.lids pkt.lid m.cid.size m.cid.size with
    | none =>
      if ep.lastReqId = pkt.id ∧ ep.committed then (udSendCltReply pkt.lid pkt.id m, false)
      else (m, false)
    | some empty =>
      let cidIdx := if room then nextIdx m.found else 0
      let m :=
        { m with
          cid := addServer m.cid empty
          reqId := pkt.id
          cltId := pkt.lid
          lids := Function.update m.lids empty pkt.slid
          eps := Function.update m.eps pkt.slid (some ⟨pkt.id, cidIdx, false⟩) }
      (appendConfig room pkt.id pkt.slid m, true)

/-! ### Removals -/

/-- `check_failure_count` with the servers whose failure count has reached the limit. -/
def checkFailureCount (room : Bool) (suspects : List ℕ) (m : Member) : Member :=
  let size := getGroupSize m.cid
  let on := (List.range size).filter (isServerOn m.cid)
  let failed := on.filter (· ∈ suspects)
  let cid :=
    if m.leader && m.cid.state == .stable then failed.foldl serverRm m.cid else m.cid
  if on.length - failed.length ≤ size / 2 then { m with down := true }
  else if m.leader ∧ cid ≠ m.cid then
    appendConfig room 0 0 { m with cid := cid, reqId := 0, cltId := 0 }
  else m

/-- The removal in `force_log_pruning` of the server that has applied least. -/
def forceLogPruning (room : Bool) (target : ℕ) (m : Member) : Member :=
  if target ≠ m.idx ∧ isServerOn m.cid target then
    appendConfig room 0 0 { m with cid := serverRm m.cid target, reqId := 0, cltId := 0 }
  else m

/-! ### CONFIG entries that are applied -/

def removeServers : List ℕ → Member → Member
  | [], m => m
  | i :: is, m =>
    if i = m.idx then removeServers is { m with cid := serverRm m.cid i, dieAfCommit := true }
    else if isServerOn m.cid i then removeServers is { m with cid := serverRm m.cid i }
    else removeServers is m

/-- The end of a resize, which removes the servers at the given places. -/
def toStable (places : List ℕ) (m : Member) : Member :=
  let m := removeServers places { m with cid := { m.cid with state := .stable } }
  { m with cid := { m.cid with size := m.cid.newSize, newSize := 0 } }

def applyConfig (room : Bool) (e : Entry) (cid : Cid) (m : Member) : Member :=
  match cid.state with
  | .stable =>
    if e.reqId ≠ 0 then
      let m := udSendCltReply e.cltId e.reqId m
      if m.dieAfCommit then { m with down := true } else m
    else m
  | .extended =>
    -- An unstable entry of an earlier epoch is ignored.
    if cid.epoch < m.cid.epoch then m
    else
      let m := { m with cid := { m.cid with state := .transit } }
      if e.reqId ≠ 0 then
        appendConfig room 0 0 { udSendCltReply e.cltId e.reqId m with reqId := 0, cltId := 0 }
      else appendConfig room e.reqId e.cltId { m with reqId := e.reqId, cltId := e.cltId }
  | .transit =>
    if cid.epoch < m.cid.epoch then m
    else
      let m := toStable (List.range' m.cid.newSize (m.cid.size - m.cid.newSize)) m
      appendConfig room e.reqId e.cltId { m with reqId := e.reqId, cltId := e.cltId }

/-- One round of `apply_committed_entries`, as far as it concerns the configuration. -/
def applyCommittedEntry (room : Bool) (m : Member) : Option Member :=
  if m.apply < m.commit then
    (m.found[m.apply]?).map fun e =>
      let m' := match m.leader, e.type, e.data with
        | true, .config, .cid cid => applyConfig room e cid m
        | _, _, _ => m
      { m' with apply := m.apply + 1 }
  else none

/-! ### CONFIG entries in the log -/

/-- Whether `update_cid` removes server `idx` when it takes over the configuration `cid`. -/
def removes (idx : ℕ) (old cid : Cid) : Bool :=
  decide (idx < max cid.size cid.newSize) && isServerOn old idx && !isServerOn cid idx

/-- `update_cid`; a server that is removed shuts down. -/
def updateCid (cid : Cid) (m : Member) : Member :=
  { m with cid := cid, down := m.down || removes m.idx m.cid cid }

/-- What `poll_config_entries` does with an entry, apart from HEAD entries. -/
def pollEntry (m : Member) (e : Entry) : Member :=
  match e.type, e.data with
  | .config, .cid cid =>
    if m.cidIdx < e.idx ∧ m.cid ≠ cid then
      { updateCid cid m with reqId := e.reqId, cltId := e.cltId }
    else m
  | _, _ => m

/-- The head offset that `poll_config_entries` finds in the HEAD entries from an offset on. -/
def pollHead (commit : ℕ) : ℕ → List Entry → ℕ → ℕ
  | _, [], head => head
  | offset, e :: es, head =>
    pollHead commit (offset + 1) es <| match e.type, e.data with
      | .head, .head h => if offset ≤ commit then h else head
      | _, _ => head

def pollConfigEntries (m : Member) : Member :=
  let entries := m.found.drop m.cidOffset
  let head := pollHead m.commit m.cidOffset entries m.head
  let offset := if entries = [] then m.cidOffset else m.log.length
  { entries.foldl pollEntry m with
    cidOffset := if m.atEnd = false ∧ m.commit < offset then m.commit else offset
    head := if m.head < head then head else m.head }

/-! ### Elections -/

/-- `poll_vote_count` up to the poll of the CONFIG entries. -/
def winElection (term : ℕ) (m : Member) : Member :=
  pollConfigEntries { m with leader := true, term := term }

def isConfig (cidIdx : ℕ) (e : Entry) : Bool := e.type == .config && decide (cidIdx < e.idx)

/-- The rest of `poll_vote_count`, once all committed entries are applied. In an unstable
configuration without a CONFIG entry the state is read from whichever entry was looked at last;
`extended` says whether it reads as EXTENDED. -/
def addBlankEntry (room extended : Bool) (m : Member) : Member :=
  if m.cid.state = .stable then appendConfig room 0 0 { m with reqId := 0, cltId := 0 }
  else if (m.found.drop m.cidOffset).any (isConfig m.cidIdx) then
    logAppendEntry room 0 0 .noop .none m
  else if extended then
    appendConfig room m.reqId m.cltId { m with cid := { m.cid with state := .transit } }
  else
    let places := (List.range' (m.cid.newSize + 1) (m.cid.size - 1 - m.cid.newSize)).reverse
    let m' := toStable places m
    appendConfig room m.reqId m.cltId m'

/-- A server that has joined: `handle_server_join_reply` and the log it recovers, the entries in
front of `endOff` in the log `source`. -/
def recover (r : Reply) (source : List Entry) (endOff commit apply : ℕ) (m : Member) : Member :=
  { m with
    idx := r.idx
    cid := r.cid
    head := r.head
    cidIdx := r.cidIdx
    cidOffset := r.head
    log := source.take endOff
    atEnd := false
    commit := commit
    apply := apply }

end VmFt.Dare.Config
