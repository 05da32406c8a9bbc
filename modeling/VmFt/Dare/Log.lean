import Mathlib.Logic.Function.Basic
import Mathlib.Data.List.Basic

/-! # The replicated log

The log of a server as the group protocol sees it. An offset is the number of
entries in front of it: as long as the buffer is not reused, the byte offsets
of the source are a monotone renaming of these positions. The memory behind
`endOff` keeps whatever was written there before.
-/

namespace VmFt.Dare

inductive CidState | stable | transit | extended
  deriving DecidableEq, Repr

structure Cid where
  epoch : ℕ
  size : ℕ
  newSize : ℕ
  state : CidState
  bitmask : ℕ
  deriving DecidableEq, Repr

inductive EntryType | noop | csm | config | head | mirror | checkpoint
  deriving DecidableEq, Repr

inductive EntryData where
  | none
  | cid (c : Cid)
  | head (offset : ℕ)
  | cmd (bytes : List UInt8)
  deriving DecidableEq, Repr

structure Entry where
  idx : ℕ
  term : ℕ
  reqId : ℕ
  cltId : ℕ
  type : EntryType
  data : EntryData
  deriving DecidableEq, Repr

/-- Zeroed memory read as an entry. -/
def Entry.blank : Entry := ⟨0, 0, 0, 0, .noop, .none⟩

/-- `dare_log_entry_det_t`, the determinant of an entry. -/
structure Det where
  idx : ℕ
  term : ℕ
  offset : ℕ
  deriving DecidableEq, Repr

/-- `dare_nc_buf_t`: the determinants of the entries that are not committed. -/
structure NcBuf where
  len : ℕ
  entries : List Det
  deriving DecidableEq, Repr

/-- `dare_log_t`; an unset `tail` stands for the value `len` of the source. -/
structure Log where
  entries : ℕ → Entry
  apply : ℕ
  commit : ℕ
  endOff : ℕ
  tail : Option ℕ
  len : ℕ
  ncBuf : ℕ → NcBuf

def logNew (len : ℕ) : Log :=
  { entries := fun _ => .blank, apply := 0, commit := 0, endOff := 0, tail := none, len := len,
    ncBuf := fun _ => ⟨0, []⟩ }

/-- `is_log_empty`; the end offset of a new log is the length of its buffer in the source and 0
here, and a log that fills its buffer is taken for an empty one. -/
def isLogEmpty (log : Log) : Bool := log.endOff == 0 || log.endOff == log.len

def logOffsetEndDistance (log : Log) (offset : ℕ) : ℕ :=
  if isLogEmpty log then 0
  else if offset ≤ log.endOff then log.endOff - offset
  else log.len - (offset - log.endOff)

/-- `log_is_offset_larger`: the larger offset is closer to the end. -/
def logIsOffsetLarger (log : Log) (l r : ℕ) : Bool :=
  logOffsetEndDistance log l < logOffsetEndDistance log r

def logGetEntry (log : Log) (offset : ℕ) : Option Entry :=
  if isLogEmpty log || logOffsetEndDistance log offset == 0 then none
  else some (log.entries offset)

/-- `log_entries_to_nc_buf`: the determinants from the commit offset to the end. -/
def logEntriesToNcBuf (log : Log) : NcBuf :=
  let ks := List.range' log.commit (log.endOff - log.commit)
  ⟨ks.length, ks.map fun k => ⟨(log.entries k).idx, (log.entries k).term, k⟩⟩

/-- `log_find_remote_end_offset`: the offset behind the last determinant that matches. -/
def logFindRemoteEndOffset (log : Log) : List Det → ℕ → ℕ
  | [], offset => offset
  | d :: ds, _ =>
    match logGetEntry log d.offset with
    | none => d.offset
    | some e =>
      if e.idx ≠ d.idx ∨ e.term ≠ d.term then d.offset
      else logFindRemoteEndOffset log ds (d.offset + 1)

/-- `log_get_tail`: the cached offset of the last entry, or the one found by walking the log. -/
def logGetTail (log : Log) : Option ℕ :=
  match log.tail with
  | some t => some t
  | none => if isLogEmpty log then none else some (log.endOff - 1)

def logLast (log : Log) : ℕ × ℕ :=
  match logGetTail log with
  | some t => ((log.entries t).idx, (log.entries t).term)
  | none => (0, 0)

/-- `log_add_new_entry`: where the next entry goes. -/
def Log.newOffset (log : Log) : ℕ := if isLogEmpty log then 0 else log.endOff

def Log.push (log : Log) (e : Entry) : Log :=
  { log with
    entries := Function.update log.entries log.newOffset e
    tail := some log.newOffset
    endOff := log.newOffset + 1 }

/-- `log_append_entry`; behind a full buffer the log starts over at its front. -/
def logAppendEntry (log : Log) (term reqId cltId : ℕ) (type : EntryType) (data : EntryData) :
    Log :=
  let idx := match (logGetTail log).bind (logGetEntry log) with
    | some e => e.idx + 1
    | none => 1
  log.push ⟨idx, term, reqId, cltId, type, data⟩

end VmFt.Dare
