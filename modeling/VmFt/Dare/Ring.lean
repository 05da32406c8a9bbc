import VmFt.Lib.Memory
import VmFt.Dare.Log

/-! # The circular log

The log of a server byte by byte: a buffer of `len` bytes that is written round
and round, in which an entry that does not fit in front of the end of the
buffer starts at offset zero. An end offset equal to `len` marks an empty log.
-/

namespace VmFt.Dare.Ring

/-- `dare_log_t` without the NC buffers. -/
structure Log where
  head : ℕ
  apply : ℕ
  commit : ℕ
  endOff : ℕ
  tail : ℕ
  len : ℕ
  entries : Memory

/-- `sm_cmd_t`: the length of a command is a 16-bit number. -/
structure SmCmd where
  cmd : List UInt8
  length_lt : cmd.length < 2 ^ 16
  deriving DecidableEq

def NOOP : ℕ := 0
def CSM : ℕ := 1
def CONFIG : ℕ := 2
def HEAD : ℕ := 3

structure CmdType where
  code : ℕ
  code_lt : code < 256
  not_special : code ≠ NOOP ∧ code ≠ CONFIG ∧ code ≠ HEAD
  deriving DecidableEq

inductive EntryBody where
  | noop
  | config (cid : Cid)
  | head (offset : ℕ)
  | cmd (type : CmdType) (cmd : SmCmd)
  deriving DecidableEq

def EntryBody.type : EntryBody → ℕ
  | .noop => NOOP
  | .config _ => CONFIG
  | .head _ => HEAD
  | .cmd type _ => type.code

/-- `sizeof(dare_log_entry_t)`; the fields lie at 0, 8, 16, 24 and 26, the data at 32. -/
def sizeofEntry : ℕ := 48

def EntryBody.len : EntryBody → ℕ
  | .cmd _ c => sizeofEntry + c.cmd.length
  | _ => sizeofEntry

def maxEntryLen : ℕ := sizeofEntry + (2 ^ 16 - 1)

def logNew (len : ℕ) : Log :=
  { head := 0, apply := 0, commit := 0, endOff := len, tail := len, len := len,
    entries := fun _ => 0 }

variable (log : Log)

def isLogEmpty : Bool := log.endOff == log.len

def isLogFull : Bool := log.endOff == log.head

def logFitEntryHeader (offset : ℕ) : Bool := sizeofEntry ≤ log.len - offset

/-- `log_add_new_entry`: the offset of the new entry. -/
def logAddNewEntry : Option ℕ :=
  if isLogFull log then none
  else if isLogEmpty log || !logFitEntryHeader log log.endOff then some 0
  else some log.endOff

def entryIdx (off : ℕ) : ℕ := log.entries.load 8 off

def entryTerm (off : ℕ) : ℕ := log.entries.load 8 (off + 8)

def entryReqId (off : ℕ) : ℕ := log.entries.load 8 (off + 16)

def entryCltId (off : ℕ) : ℕ := log.entries.load 2 (off + 24)

def entryType (off : ℕ) : ℕ := log.entries.load 1 (off + 26)

/-- `log_entry_len` of the entry at an offset. -/
def logEntryLen (off : ℕ) : ℕ :=
  if entryType log off = NOOP ∨ entryType log off = CONFIG ∨ entryType log off = HEAD then
    sizeofEntry
  else sizeofEntry + log.entries.load 2 (off + 32)

/-- `log_fit_entry` for the entry at the offset `off`. -/
def logFitEntry (offset off : ℕ) : Bool := logEntryLen log off ≤ log.len - offset

def logOffsetEndDistance (offset : ℕ) : ℕ :=
  if isLogEmpty log then 0
  else if offset ≤ log.endOff then log.endOff - offset
  else log.len - (offset - log.endOff)

/-- `log_is_offset_larger`: the larger offset is closer to the end. -/
def logIsOffsetLarger (l r : ℕ) : Bool :=
  logOffsetEndDistance log l < logOffsetEndDistance log r

/-- `log_get_entry`: where the entry at an offset starts. -/
def logGetEntry (offset : ℕ) : Option ℕ :=
  if isLogEmpty log then none
  else if logOffsetEndDistance log offset = 0 then none
  else if logFitEntryHeader log offset then some offset
  else some 0

def nextOffset (off : ℕ) : ℕ :=
  (if logFitEntry log off off then off else 0) + logEntryLen log off

/-- The entries met by walking the log from an offset to its end, if `fuel` steps get there. -/
def logWalk : ℕ → ℕ → Option (List ℕ)
  | 0, _ => none
  | fuel + 1, offset =>
    match logGetEntry log offset with
    | none => some []
    | some off => (logWalk fuel (nextOffset log off)).map (off :: ·)

def entryDet (off : ℕ) : Det := ⟨entryIdx log off, entryTerm log off, off⟩

/-- `log_entries_to_nc_buf`: the determinants of the entries from the commit offset on. -/
def logEntriesToNcBuf : Option NcBuf :=
  (logWalk log log.len log.commit).map fun offs => ⟨offs.length, offs.map (entryDet log)⟩

/-- `log_find_remote_end_offset`: the offset behind the last determinant that matches. -/
def logFindRemoteEndOffset : List Det → ℕ → ℕ
  | [], offset => offset
  | d :: ds, _ =>
    match logGetEntry log d.offset with
    | none => d.offset
    | some off =>
      if entryIdx log off ≠ d.idx ∨ entryTerm log off ≠ d.term then off
      else logFindRemoteEndOffset ds (nextOffset log off)

/-- `log_get_tail`: the cached offset of the last entry, or the one found by walking the log. -/
def logGetTail : Option ℕ :=
  if log.tail ≠ log.len then some log.tail
  else if isLogEmpty log then some log.len
  else do
    let fromCommit ← logWalk log log.len log.commit
    if fromCommit ≠ [] then some (fromCommit.getLastD log.len)
    else
      let fromApply ← logWalk log log.len log.apply
      if fromApply ≠ [] then some (fromApply.getLastD log.len)
      else
        let fromHead ← logWalk log log.len log.head
        some (fromHead.getLastD log.len)

/-- The fields in front of the data of an entry. -/
def putHeader (m : Memory) (off idx term reqId cltId type : ℕ) : Memory :=
  let m := m.store off (Memory.bytesOf 8 idx)
  let m := m.store (off + 8) (Memory.bytesOf 8 term)
  let m := m.store (off + 16) (Memory.bytesOf 8 reqId)
  let m := m.store (off + 24) (Memory.bytesOf 2 cltId)
  m.store (off + 26) (Memory.bytesOf 1 type)

def cidStateCode : CidState → ℕ
  | .stable => 0
  | .transit => 1
  | .extended => 2

def cidBytes (cid : Cid) : List UInt8 :=
  Memory.bytesOf 8 cid.epoch ++ Memory.bytesOf 1 cid.size ++ Memory.bytesOf 1 cid.newSize ++
    Memory.bytesOf 1 (cidStateCode cid.state) ++ Memory.bytesOf 1 0 ++
    Memory.bytesOf 4 cid.bitmask

def closeEntry (off : ℕ) : Log :=
  { log with tail := log.endOff, endOff := log.endOff + logEntryLen log off }

/-- `log_append_entry` once the index of the new entry is known. -/
def placeEntry (idx term reqId cltId : ℕ) (body : EntryBody) : Log × ℕ :=
  match logAddNewEntry log with
  | none => (log, 0)
  | some off =>
    let log :=
      { log with
        entries := putHeader log.entries off idx term reqId cltId body.type
        endOff := if logFitEntryHeader log log.endOff then log.endOff else 0 }
    match body with
    | .noop => (closeEntry log off, idx)
    | .config cid =>
      (closeEntry { log with entries := log.entries.store (off + 32) (cidBytes cid) } off, idx)
    | .head offset =>
      (closeEntry
        { log with entries := log.entries.store (off + 32) (Memory.bytesOf 8 offset) } off, idx)
    | .cmd type cmd =>
      let log :=
        { log with entries := log.entries.store (off + 32) (Memory.bytesOf 2 cmd.cmd.length) }
      if logFitEntry log log.endOff off then
        (closeEntry { log with entries := log.entries.store (off + 34) cmd.cmd } off, idx)
      else
        let log := { log with endOff := 0 }
        match logAddNewEntry log with
        | none => (log, 0)
        | some off =>
          let m := putHeader log.entries off idx term reqId cltId type.code
          let m := m.store (off + 32) (Memory.bytesOf 2 cmd.cmd.length)
          (closeEntry { log with entries := m.store (off + 34) cmd.cmd } off, idx)

/-- `log_append_entry`, which returns the index of the entry, or zero if the log is full. The
walk that looks for the last entry need not end in a damaged log. -/
def logAppendEntry (term reqId cltId : ℕ) (body : EntryBody) : Option (Log × ℕ) :=
  (logGetTail log).map fun tail =>
    let idx := match logGetEntry { log with tail := tail } tail with
      | some off => entryIdx log off + 1
      | none => 1
    placeEntry { log with tail := tail } idx term reqId cltId body

/-! ### Positions on the ring -/

section Positions

/-- The offset at the end of the buffer is the one at its start. -/
def wrap (len off : ℕ) : ℕ := if off = len then 0 else off

/-- The number of bytes from the offset `a` forward to the offset `b`. -/
def gap (len a b : ℕ) : ℕ :=
  if wrap len a ≤ wrap len b then wrap len b - wrap len a else len - (wrap len a - wrap len b)

/-- How far the byte at `x` lies behind the end offset `e`. -/
def age (len e x : ℕ) : ℕ := if x < wrap len e then wrap len e - x else wrap len e + len - x

/-- The offset `x` lies on the way from `a` forward to `b`. -/
def OnArc (len a b x : ℕ) : Prop := if a ≤ b then a ≤ x ∧ x < b else a ≤ x ∧ x < len ∨ x < b

variable {len a b c x n : ℕ}

theorem gap_self : gap len a a = 0 := by
  simp [gap]

theorem wrap_cases (ha : a ≤ len) : wrap len a = a ∧ a < len ∨ wrap len a = 0 ∧ a = len := by
  unfold wrap
  split_ifs <;> omega

theorem age_pos (hb : b ≤ len) (hx : x < len) : 0 < age len b x ∧ age len b x ≤ len := by
  have hw := wrap_cases hb
  unfold age
  split_ifs <;> omega

theorem gap_add (ha : a ≤ len) (hb : b ≤ len) (h : gap len a b + gap len b c < len) :
    gap len a c = gap len a b + gap len b c := by
  have hw := wrap_cases ha
  have hw' := wrap_cases hb
  unfold gap at *
  generalize wrap len c = c' at *
  split_ifs at * <;> omega

theorem age_of_gap_lt (ha : a ≤ len) (hx : x < len)
    (h : gap len a b < age len b x) : age len b x = age len a x + gap len a b := by
  have hw := wrap_cases ha
  unfold gap age at *
  generalize wrap len b = b' at *
  split_ifs at * <;> omega

theorem onArc_iff (ha : a ≤ len) (hb : b ≤ len) (hc : c ≤ len) (hx : x < len)
    (h : gap len a b + gap len b c < len) (hne : b ≠ len ∨ a = len) :
    OnArc len a b x ↔ gap len b c < age len c x ∧ age len c x ≤ gap len a b + gap len b c := by
  have hw := wrap_cases ha
  have hw' := wrap_cases hb
  have hw'' := wrap_cases hc
  unfold OnArc gap age at *
  split_ifs at * <;> omega

end Positions

/-! ### What an append does to the buffer -/

section Append

variable {log : Log}

/-- The bytes by which an append moves the end: those it skips in front of the end of the buffer
and the entry. -/
def appendSpan (log : Log) (body : EntryBody) : ℕ :=
  if log.len - log.endOff < body.len then log.len - log.endOff + body.len else body.len

/-- The end has moved on by at most `n` bytes, and only bytes it has passed have changed. -/
structure Advances (n : ℕ) (log log' : Log) : Prop where
  len_eq : log'.len = log.len
  end_le : log'.endOff ≤ log.len
  gap_le : gap log.len log.endOff log'.endOff ≤ n
  kept : ∀ x < log.len, gap log.len log.endOff log'.endOff < age log.len log'.endOff x →
    log'.entries x = log.entries x

theorem Advances.refl (hend : log.endOff ≤ log.len) (n : ℕ) : Advances n log log where
  len_eq := rfl
  end_le := hend
  gap_le := by simp [gap_self]
  kept := fun _ _ _ => rfl

theorem Advances.of_fit {log' : Log} {l : ℕ} (hpos : 0 < l) (hfit : log.endOff + l ≤ log.len)
    (hl : l < log.len) (hlen : log'.len = log.len) (hend : log'.endOff = log.endOff + l)
    (hk : ∀ x, x < log.endOff ∨ log.endOff + l ≤ x → log'.entries x = log.entries x) :
    Advances l log log' where
  len_eq := hlen
  end_le := by omega
  gap_le := by
    rw [hend]
    unfold gap wrap
    split_ifs <;> omega
  kept := by
    intro x hx hage
    refine hk x ?_
    rw [hend] at hage
    unfold gap age wrap at hage
    split_ifs at hage <;> omega

theorem Advances.of_wrap {log' : Log} {l : ℕ} (hend : log.endOff ≤ log.len)
    (hs : log.len - log.endOff + l < log.len) (hlen : log'.len = log.len) (hend' : log'.endOff = l)
    (hk : ∀ x, l ≤ x → x < log.endOff → log'.entries x = log.entries x) :
    Advances (log.len - log.endOff + l) log log' where
  len_eq := hlen
  end_le := by omega
  gap_le := by
    rw [hend']
    unfold gap wrap
    split_ifs <;> omega
  kept := by
    intro x hx hage
    rw [hend'] at hage
    refine hk x ?_ ?_ <;>
    · unfold gap age wrap at hage
      split_ifs at hage <;> omega

variable {m : Memory} {off idx term reqId cltId : ℕ}

theorem putHeader_of_outside {type x : ℕ} (h : x < off ∨ off + 27 ≤ x) :
    putHeader m off idx term reqId cltId type x = m x := by
  unfold putHeader
  rw [Memory.store_of_outside (by simp; omega), Memory.store_of_outside (by simp; omega),
    Memory.store_of_outside (by simp; omega), Memory.store_of_outside (by simp; omega),
    Memory.store_of_outside (by simp; omega)]

theorem load_type_putHeader (type : ℕ) :
    (putHeader m off idx term reqId cltId type).load 1 (off + 26) = type % 256 :=
  Memory.load_store _ 1 _ _

/-- The entry with the given data stands in `m'` at an offset; nothing else has changed. -/
structure Written (m m' : Memory) (off : ℕ) (body : EntryBody) : Prop where
  kept : ∀ x, x < off ∨ off + body.len ≤ x → m' x = m x
  len_eq : ∀ log : Log, log.entries = m' → logEntryLen log off = body.len

theorem written_noop : Written m (putHeader m off idx term reqId cltId NOOP) off .noop where
  kept := by
    intro x hx
    simp only [EntryBody.len, sizeofEntry] at hx
    exact putHeader_of_outside (by omega)
  len_eq := by
    rintro log hm
    rw [logEntryLen, if_pos]
    · rfl
    · left
      rw [entryType, hm, load_type_putHeader]
      rfl

theorem length_cidBytes (cid : Cid) : (cidBytes cid).length = 16 := by
  simp [cidBytes]

theorem written_special {body : EntryBody} {type : ℕ} {bytes : List UInt8}
    (ht : type = CONFIG ∨ type = HEAD) (hlen : body.len = sizeofEntry) (hb : bytes.length ≤ 16) :
    Written m ((putHeader m off idx term reqId cltId type).store (off + 32) bytes) off body where
  kept := by
    intro x hx
    rw [hlen, sizeofEntry] at hx
    rw [Memory.store_of_outside (by omega), putHeader_of_outside (by omega)]
  len_eq := by
    rintro log hm
    rw [logEntryLen, if_pos, hlen]
    right
    rw [entryType, hm, Memory.load_store_of_disjoint (by omega), load_type_putHeader]
    rcases ht with rfl | rfl <;> decide

theorem logEntryLen_of_cmd {log : Log} {type : CmdType} {cmd : SmCmd}
    (ht : entryType log off = type.code) (hcmd : log.entries.load 2 (off + 32) = cmd.cmd.length) :
    logEntryLen log off = (EntryBody.cmd type cmd).len := by
  have hs := type.not_special
  rw [logEntryLen, if_neg (by rw [ht]; omega), hcmd]
  rfl

theorem logEntryLen_cmd_header (type : CmdType) (cmd : SmCmd) {log : Log}
    (h : log.entries = (putHeader m off idx term reqId cltId type.code).store (off + 32)
      (Memory.bytesOf 2 cmd.cmd.length)) : logEntryLen log off = (EntryBody.cmd type cmd).len := by
  have hlt := cmd.length_lt
  refine logEntryLen_of_cmd ?_ ?_
  · rw [entryType, h, Memory.load_store_of_disjoint (by omega), load_type_putHeader,
      Nat.mod_eq_of_lt type.code_lt]
  · rw [h, Memory.load_store, Nat.mod_eq_of_lt (by omega)]

theorem written_cmd (type : CmdType) (cmd : SmCmd) : Written m
      (((putHeader m off idx term reqId cltId type.code).store (off + 32)
        (Memory.bytesOf 2 cmd.cmd.length)).store (off + 34) cmd.cmd) off (.cmd type cmd) where
  kept := by
    intro x hx
    simp only [EntryBody.len, sizeofEntry] at hx
    rw [Memory.store_of_outside (by omega), Memory.store_of_outside (by simp; omega),
      putHeader_of_outside (by omega)]
  len_eq := by
    rintro log hm
    have hlt := cmd.length_lt
    refine logEntryLen_of_cmd ?_ ?_
    · rw [entryType, hm, Memory.load_store_of_disjoint (by omega),
        Memory.load_store_of_disjoint (by omega), load_type_putHeader,
        Nat.mod_eq_of_lt type.code_lt]
    · rw [hm, Memory.load_store_of_disjoint (by omega), Memory.load_store,
        Nat.mod_eq_of_lt (by omega)]

theorem isLogEmpty_iff : isLogEmpty log = true ↔ log.endOff = log.len :=
  beq_iff_eq

theorem isLogEmpty_eq_false_iff : isLogEmpty log = false ↔ log.endOff ≠ log.len :=
  beq_eq_false_iff_ne

theorem logOffsetEndDistance_of_not_empty (h : isLogEmpty log = false) (offset : ℕ) :
    logOffsetEndDistance log offset =
      if offset ≤ log.endOff then log.endOff - offset else log.len - (offset - log.endOff) :=
  if_neg (Bool.eq_false_iff.mp h)

theorem logOffsetEndDistance_end (log : Log) : logOffsetEndDistance log log.endOff = 0 := by
  unfold logOffsetEndDistance
  split_ifs
  · rfl
  · exact Nat.sub_self _
  · omega

theorem logFitEntryHeader_iff {offset : ℕ} :
    logFitEntryHeader log offset = true ↔ sizeofEntry ≤ log.len - offset :=
  decide_eq_true_iff

theorem sizeofEntry_le_len (body : EntryBody) : sizeofEntry ≤ body.len := by
  cases body with
  | cmd type cmd => exact Nat.le_add_right _ _
  | _ => exact Nat.le_refl _

theorem len_le_maxEntryLen (body : EntryBody) : body.len ≤ maxEntryLen := by
  cases body with
  | cmd type cmd => exact Nat.add_le_add_left (Nat.le_pred_of_lt cmd.length_lt) _
  | _ => exact Nat.le_add_right _ _

theorem logAddNewEntry_eq (h : logAddNewEntry log = some off) :
    off = if logFitEntryHeader log log.endOff then log.endOff else 0 := by
  unfold logAddNewEntry at h
  by_cases hfit : logFitEntryHeader log log.endOff
  · have hempty : isLogEmpty log = false := by
      rw [logFitEntryHeader_iff, sizeofEntry] at hfit
      exact isLogEmpty_eq_false_iff.mpr (by omega)
    simp only [hempty, hfit, Bool.not_true, Bool.or_false, Bool.false_eq_true, if_false] at h
    rw [if_pos hfit]
    split at h
    · cases h
    · exact (Option.some.inj h).symm
  · simp only [hfit, Bool.not_false, Bool.or_true, if_true] at h
    rw [if_neg hfit]
    split at h
    · cases h
    · exact (Option.some.inj h).symm

theorem closeEntry_advances_zero {m₀ : Memory} {body : EntryBody}
    (hs : ∀ x < log.endOff, m₀ x = log.entries x) (hw : Written m₀ m 0 body)
    (hend : log.endOff ≤ log.len) (hsp : log.len - log.endOff + body.len < log.len) :
    Advances (log.len - log.endOff + body.len) log
      (closeEntry { log with entries := m, endOff := 0 } 0) := by
  have hlen : logEntryLen { log with entries := m, endOff := 0 } 0 = body.len := hw.len_eq _ rfl
  refine .of_wrap hend hsp rfl ?_ ?_
  · rw [closeEntry, hlen, Nat.zero_add]
  · intro x hx hx'
    exact (hw.kept x (Or.inr (by omega))).trans (hs x hx')

theorem closeEntry_advances {body : EntryBody} (hw : Written log.entries m off body)
    (hoff : off = if logFitEntryHeader log log.endOff then log.endOff else 0)
    (hend : log.endOff ≤ log.len)
    (hfit : logFitEntryHeader log log.endOff → body.len ≤ log.len - log.endOff)
    (hs : appendSpan log body < log.len) : Advances (appendSpan log body) log
      (closeEntry { log with entries := m, endOff := off } off) := by
  have hpos := sizeofEntry_le_len body
  by_cases hh : logFitEntryHeader log log.endOff
  · rw [if_pos hh] at hoff
    have hr := hfit hh
    have hspan_eq : appendSpan log body = body.len := by
      rw [appendSpan, if_neg (by omega)]
    rw [hspan_eq] at hs ⊢
    subst hoff
    have hlen : logEntryLen { log with entries := m } log.endOff = body.len := hw.len_eq _ rfl
    simp only [sizeofEntry] at hpos
    refine .of_fit (by omega) (by omega) hs rfl ?_ hw.kept
    rw [closeEntry, hlen]
  · rw [if_neg hh] at hoff
    rw [logFitEntryHeader_iff] at hh
    have hspan_eq : appendSpan log body = log.len - log.endOff + body.len := by
      rw [appendSpan, if_pos (by omega)]
    rw [hspan_eq] at hs ⊢
    subst hoff
    exact closeEntry_advances_zero (fun _ _ => rfl) hw hend hs

theorem placeEntry_cmd_advances {type : CmdType} {cmd : SmCmd} (hend : log.endOff ≤ log.len)
    (hl : maxEntryLen ≤ log.len) (hsp : appendSpan log (.cmd type cmd) < log.len) :
    Advances (appendSpan log (.cmd type cmd)) log
      (placeEntry log idx term reqId cltId (.cmd type cmd)).1 := by
  have hmax := Nat.le_trans (len_le_maxEntryLen (.cmd type cmd)) hl
  unfold placeEntry
  cases hnew : logAddNewEntry log with
  | none => exact .refl hend _
  | some off =>
    have hoff := logAddNewEntry_eq hnew
    simp only [EntryBody.type, ← hoff]
    split
    · rename_i hfit
      refine closeEntry_advances (written_cmd type cmd) hoff hend ?_ hsp
      intro hh
      rw [if_pos hh] at hoff
      have hr := of_decide_eq_true hfit
      rw [logEntryLen_cmd_header type cmd rfl] at hr
      rwa [hoff] at hr
    · rename_i hfit
      have hsh : ¬ (EntryBody.cmd type cmd).len ≤ log.len - off := by
        intro hr
        refine hfit (decide_eq_true ?_)
        rwa [logEntryLen_cmd_header type cmd rfl]
      have hh : logFitEntryHeader log log.endOff = true := by
        by_contra hno
        rw [if_neg hno] at hoff
        omega
      rw [if_pos hh] at hoff
      have hspan_eq : appendSpan log (.cmd type cmd) =
          log.len - log.endOff + (EntryBody.cmd type cmd).len := by
        rw [appendSpan, if_pos (by omega)]
      rw [hspan_eq] at hsp ⊢
      have hs : ∀ x < log.endOff,
          ((putHeader log.entries off idx term reqId cltId type.code).store (off + 32)
            (Memory.bytesOf 2 cmd.cmd.length)) x = log.entries x := by
        intro x hx
        rw [Memory.store_of_outside (by omega), putHeader_of_outside (by omega)]
      split
      · rename_i hf
        have hz : Advances (log.len - log.endOff + 0) log { log with endOff := 0 } :=
          .of_wrap hend (by omega) rfl rfl fun _ _ _ => rfl
        refine ⟨rfl, Nat.zero_le _, Nat.le_trans hz.gap_le (by omega), ?_⟩
        intro x hx hage
        refine hs x ?_
        simp only at hage
        unfold gap age wrap at hage
        split_ifs at hage <;> omega
      · rename_i off' hoff'
        have hoff' : off' = 0 := by simpa using logAddNewEntry_eq hoff'
        subst hoff'
        exact closeEntry_advances_zero hs (written_cmd type cmd) hend hsp

theorem placeEntry_advances {body : EntryBody} (hend : log.endOff ≤ log.len)
    (hl : maxEntryLen ≤ log.len) (hs : appendSpan log body < log.len) :
    Advances (appendSpan log body) log (placeEntry log idx term reqId cltId body).1 := by
  cases body with
  | cmd type cmd => exact placeEntry_cmd_advances hend hl hs
  | _ =>
    unfold placeEntry
    cases hnew : logAddNewEntry log with
    | none => exact .refl hend _
    | some off =>
      have hoff := logAddNewEntry_eq hnew
      simp only [EntryBody.type, ← hoff]
      refine closeEntry_advances ?_ hoff hend logFitEntryHeader_iff.mp hs
      first
      | exact written_noop
      | exact written_special (Or.inl rfl) rfl (by simp [length_cidBytes])
      | exact written_special (Or.inr rfl) rfl (by simp)

theorem logAppendEntry_advances {log' : Log} {body : EntryBody} {ret : ℕ}
    (h : logAppendEntry log term reqId cltId body = some (log', ret))
    (hend : log.endOff ≤ log.len) (hl : maxEntryLen ≤ log.len)
    (hs : appendSpan log body < log.len) : Advances (appendSpan log body) log log' := by
  obtain ⟨tail, -, hp⟩ := Option.map_eq_some_iff.mp h
  have key : Advances (appendSpan log body) { log with tail := tail } log' := by
    obtain rfl : _ = log' := congrArg Prod.fst hp
    exact @placeEntry_advances { log with tail := tail } _ _ _ _ body hend hl hs
  exact ⟨key.len_eq, key.end_le, key.gap_le, key.kept⟩

end Append

/-! ### Offsets stay inside the buffer -/

section Bounds

variable {log : Log} {off offset : ℕ}

theorem logEntryLen_le (log : Log) (off : ℕ) : logEntryLen log off ≤ maxEntryLen := by
  have hl : log.entries.load 2 (off + 32) < 2 ^ 16 := Memory.load_lt _ 2 _
  unfold logEntryLen
  split
  · exact Nat.le_add_right _ _
  · exact Nat.add_le_add_left (Nat.le_pred_of_lt hl) _

theorem nextOffset_le (hl : maxEntryLen ≤ log.len) (hoff : off ≤ log.len) :
    nextOffset log off ≤ log.len := by
  have hlen := logEntryLen_le log off
  unfold nextOffset
  split
  · rename_i hfit
    have := of_decide_eq_true hfit
    omega
  · omega

theorem logGetEntry_le (h : logGetEntry log offset = some off) (ho : offset ≤ log.len) :
    off ≤ log.len := by
  unfold logGetEntry at h
  split_ifs at h
  · exact Option.some.inj h ▸ ho
  · exact Option.some.inj h ▸ Nat.zero_le _

theorem logWalk_le (hl : maxEntryLen ≤ log.len) {fuel : ℕ} {offs : List ℕ}
    (h : logWalk log fuel offset = some offs) (ho : offset ≤ log.len) :
    ∀ off ∈ offs, off ≤ log.len := by
  induction fuel generalizing offset offs with
  | zero => cases h
  | succ fuel ih =>
    rw [logWalk] at h
    cases hget : logGetEntry log offset with
    | none =>
      rw [hget] at h
      simp only [Option.some.injEq] at h
      simp [← h]
    | some off =>
      rw [hget] at h
      obtain ⟨rest, hrest, rfl⟩ := Option.map_eq_some_iff.mp h
      have hoff := logGetEntry_le hget ho
      rintro off' (_ | ⟨_, hmem⟩)
      · exact hoff
      · exact ih hrest (nextOffset_le hl hoff) off' hmem

theorem logEntriesToNcBuf_le (hl : maxEntryLen ≤ log.len) {buf : NcBuf}
    (h : logEntriesToNcBuf log = some buf) (hc : log.commit ≤ log.len) :
    buf.len = buf.entries.length ∧ ∀ d ∈ buf.entries, d.offset ≤ log.len := by
  obtain ⟨offs, hw, rfl⟩ := Option.map_eq_some_iff.mp h
  refine ⟨by simp, ?_⟩
  intro d hd
  obtain ⟨off, hoff, rfl⟩ := List.mem_map.mp hd
  exact logWalk_le hl hw hc off hoff

theorem end_of_logEntriesToNcBuf_nil {buf : NcBuf} (h : logEntriesToNcBuf log = some buf)
    (hlen : buf.len = 0) (hc : log.commit < log.len) :
    log.endOff = log.len ∨ log.endOff = log.commit := by
  obtain ⟨offs, hw, rfl⟩ := Option.map_eq_some_iff.mp h
  obtain rfl : offs = [] := List.length_eq_zero_iff.mp hlen
  obtain ⟨fuel, hf⟩ : ∃ fuel, log.len = fuel + 1 := ⟨log.len - 1, by omega⟩
  rw [hf, logWalk] at hw
  cases hget : logGetEntry log log.commit with
  | some off =>
    rw [hget] at hw
    obtain ⟨rest, -, hco⟩ := Option.map_eq_some_iff.mp hw
    cases hco
  | none =>
    unfold logGetEntry at hget
    by_cases hempty : isLogEmpty log
    · left
      simpa [isLogEmpty] using hempty
    · right
      rw [if_neg hempty] at hget
      split at hget
      · rename_i hd
        simp only [logOffsetEndDistance, if_neg hempty] at hd
        split at hd <;> omega
      · split at hget <;> cases hget

theorem logFindRemoteEndOffset_le (hl : maxEntryLen ≤ log.len) {dets : List Det}
    (hde : ∀ d ∈ dets, d.offset ≤ log.len) (ho : offset ≤ log.len) :
    logFindRemoteEndOffset log dets offset ≤ log.len := by
  induction dets generalizing offset with
  | nil => exact ho
  | cons d ds ih =>
    have hd := hde d List.mem_cons_self
    rw [logFindRemoteEndOffset]
    cases hget : logGetEntry log d.offset with
    | none => exact hd
    | some off =>
      have hoff := logGetEntry_le hget hd
      simp only
      split
      · exact hoff
      · exact ih (fun d' hd' => hde d' (List.mem_cons_of_mem _ hd')) (nextOffset_le hl hoff)

end Bounds

end VmFt.Dare.Ring
