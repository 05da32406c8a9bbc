import VmFt.Dare.Ring

/-! # From a submitted request to the backup's action

The requests that wait to be appended, their way into the circular log and the
loop in which a server that is not leader hands committed entries to the proxy.
-/

namespace VmFt.Dare.Ring

def IO_BUF_SIZE : ℕ := 327680

def MIRROR : CmdType := ⟨7, by decide, by decide⟩

def CHECKPOINT : CmdType := ⟨8, by decide, by decide⟩

def MIRROR_CONNECTION : UInt16 := 13

def CHECKPOINT_CTRL_CONNECTION : UInt16 := 14

/-- `tailq_entry_t`; `cmd` holds the bytes that the 16-bit length counts. -/
structure TailqEntry where
  type : CmdType
  connectionId : UInt16
  reqId : UInt64
  cmd : SmCmd

/-- The counters of `proxy_node` and the queue. -/
structure Proxy where
  curRec : ℕ
  highestRec : ℕ
  syncReqId : UInt64
  tailq : List TailqEntry

/-- What `n2->cmd` holds once `data_size` has been stored in its 16 bits. -/
def tailqCmd (buf : List UInt8) : SmCmd where
  cmd := buf.take (buf.length % 2 ^ 16)
  length_lt := by
    rw [List.length_take]
    exact Nat.lt_of_le_of_lt (Nat.min_le_left _ _) (Nat.mod_lt _ (by decide))

/-- `leader_handle_submit_req` up to its wait; the caller then waits for the returned record. -/
def leaderHandleSubmitReq (proxy : Proxy) (buf : List UInt8) (type : CmdType) :
    Option (Proxy × ℕ) :=
  if buf.length ≤ IO_BUF_SIZE then
    let curRec := proxy.curRec + 1
    let n2 : TailqEntry :=
      { type := type
        connectionId :=
          if type.code = MIRROR.code then MIRROR_CONNECTION else CHECKPOINT_CTRL_CONNECTION
        reqId := proxy.syncReqId + 1
        cmd := tailqCmd buf }
    some ({ proxy with
      curRec := curRec, syncReqId := proxy.syncReqId + 1, tailq := proxy.tailq ++ [n2] }, curRec)
  else none

/-- The leader's log, the index it appended last and the queue. -/
structure Intake where
  log : Log
  lastWriteCsmIdx : ℕ
  tailq : List TailqEntry

/-- `log_append_entry` for a queued request. -/
def appendRequest (term : ℕ) (log : Log) (n3 : TailqEntry) : Option (Log × ℕ) :=
  logAppendEntry log term n3.reqId.toNat n3.connectionId.toNat (.cmd n3.type n3.cmd)

def getTailqMessageLoop (term : ℕ) (log : Log) (lastWriteCsmIdx : ℕ) :
    List TailqEntry → Option Intake
  | [] => some ⟨log, lastWriteCsmIdx, []⟩
  | n3 :: tailq =>
    match appendRequest term log n3 with
    | none => none
    | some (log, idx) => getTailqMessageLoop term log idx tailq

/-- `get_tailq_message` of a leader in the given term. -/
def getTailqMessage (term : ℕ) (s : Intake) : Option Intake :=
  getTailqMessageLoop term s.log s.lastWriteCsmIdx s.tailq

/-- The arguments of `proxy_do_action`. -/
structure Action where
  cltId : ℕ
  type : ℕ
  len : ℕ
  cmd : List UInt8

def entryCmdLen (log : Log) (off : ℕ) : ℕ := log.entries.load 2 (off + 32)

def entryCmd (log : Log) (off : ℕ) : List UInt8 :=
  log.entries.read (entryCmdLen log off) (off + 34)

def entryAction (log : Log) (off : ℕ) : Action :=
  ⟨entryCltId log off, entryType log off, entryCmdLen log off, entryCmd log off⟩

/-- One pass through the loop of `apply_committed_entries` on a server that is not leader. -/
def applyStep (log : Log) : Option (Log × List Action) :=
  if logIsOffsetLarger log log.commit log.apply then
    (logGetEntry log log.apply).map fun off =>
      if logFitEntry log off off then
        ({ log with apply := off + logEntryLen log off },
          if entryType log off = NOOP ∨ entryType log off = CONFIG ∨ entryType log off = HEAD
          then [] else [entryAction log off])
      else ({ log with apply := 0 }, [])
  else none

/-- The actions of at most `fuel` passes. -/
def applyCommittedEntries : ℕ → Log → Log × List Action
  | 0, log => (log, [])
  | fuel + 1, log =>
    match applyStep log with
    | none => (log, [])
    | some (log, actions) =>
      let (log, rest) := applyCommittedEntries fuel log
      (log, actions ++ rest)

/-! ### The entry an append leaves -/

section Place

variable {m m' : Memory} {log : Log} {off idx term reqId cltId : ℕ} {type : CmdType} {cmd : SmCmd}

structure EntryAt (m : Memory) (off idx term reqId cltId : ℕ) (type : CmdType) (cmd : SmCmd) :
    Prop where
  idx_eq : m.load 8 off = idx % 2 ^ 64
  term_eq : m.load 8 (off + 8) = term % 2 ^ 64
  reqId_eq : m.load 8 (off + 16) = reqId % 2 ^ 64
  cltId_eq : m.load 2 (off + 24) = cltId % 2 ^ 16
  type_eq : m.load 1 (off + 26) = type.code
  len_eq : m.load 2 (off + 32) = cmd.cmd.length
  cmd_eq : m.read cmd.cmd.length (off + 34) = cmd.cmd

theorem EntryAt.congr (h : EntryAt m off idx term reqId cltId type cmd)
    (heq : ∀ x, off ≤ x → x < off + (EntryBody.cmd type cmd).len → m' x = m x) :
    EntryAt m' off idx term reqId cltId type cmd := by
  simp only [EntryBody.len, sizeofEntry] at heq
  have hl : ∀ n k, k + n ≤ 48 → m'.load n (off + k) = m.load n (off + k) :=
    fun n k hk => Memory.load_congr fun y hy hy' => heq y (by omega) (by omega)
  constructor
  · exact (hl 8 0 (by omega)).trans h.idx_eq
  · exact (hl 8 8 (by omega)).trans h.term_eq
  · exact (hl 8 16 (by omega)).trans h.reqId_eq
  · exact (hl 2 24 (by omega)).trans h.cltId_eq
  · exact (hl 1 26 (by omega)).trans h.type_eq
  · exact (hl 2 32 (by omega)).trans h.len_eq
  · refine (Memory.read_congr fun y hy hy' => ?_).trans h.cmd_eq
    exact heq y (by omega) (by omega)

theorem EntryAt.logEntryLen_eq (h : EntryAt log.entries off idx term reqId cltId type cmd) :
    logEntryLen log off = (EntryBody.cmd type cmd).len :=
  logEntryLen_of_cmd h.type_eq h.len_eq

theorem entryAt_cmd : EntryAt (((putHeader m off idx term reqId cltId type.code).store (off + 32)
      (Memory.bytesOf 2 cmd.cmd.length)).store (off + 34) cmd.cmd)
      off idx term reqId cltId type cmd := by
  have hlt := cmd.length_lt
  -- the fields of the header lie in front of the length and the command
  have hd : ∀ n k, k + n ≤ 32 →
      Memory.load (((putHeader m off idx term reqId cltId type.code).store (off + 32)
        (Memory.bytesOf 2 cmd.cmd.length)).store (off + 34) cmd.cmd) n (off + k) =
      (putHeader m off idx term reqId cltId type.code).load n (off + k) := by
    intro n k hk
    rw [Memory.load_store_of_disjoint (by omega), Memory.load_store_of_disjoint (by omega)]
  constructor
  · refine (hd 8 0 (by omega)).trans ?_
    unfold putHeader
    rw [Memory.load_store_of_disjoint (by omega), Memory.load_store_of_disjoint (by omega),
      Memory.load_store_of_disjoint (by omega), Memory.load_store_of_disjoint (by omega)]
    exact Memory.load_store _ 8 _ _
  · refine (hd 8 8 (by omega)).trans ?_
    unfold putHeader
    rw [Memory.load_store_of_disjoint (by omega), Memory.load_store_of_disjoint (by omega),
      Memory.load_store_of_disjoint (by omega)]
    exact Memory.load_store _ 8 _ _
  · refine (hd 8 16 (by omega)).trans ?_
    unfold putHeader
    rw [Memory.load_store_of_disjoint (by omega), Memory.load_store_of_disjoint (by omega)]
    exact Memory.load_store _ 8 _ _
  · refine (hd 2 24 (by omega)).trans ?_
    unfold putHeader
    rw [Memory.load_store_of_disjoint (by omega)]
    exact Memory.load_store _ 2 _ _
  · refine (hd 1 26 (by omega)).trans ?_
    rw [load_type_putHeader, Nat.mod_eq_of_lt type.code_lt]
  · rw [Memory.load_store_of_disjoint (by omega), Memory.load_store, Nat.mod_eq_of_lt (by omega)]
  · exact Memory.read_store _ _ _

/-- Where an entry of length `l` is put. -/
def entryStart (len endOff l : ℕ) : ℕ := if l ≤ len - endOff then endOff else 0

/-- An append of a command entry of length `l` finds the log full, at its end or, once the entry
has been moved there, at the start of the buffer. -/
def Refuses (head len endOff l : ℕ) : Prop :=
  endOff = head ∨ sizeofEntry ≤ len - endOff ∧ len - endOff < l ∧ head = 0

instance (head len endOff l : ℕ) : Decidable (Refuses head len endOff l) :=
  inferInstanceAs (Decidable (_ ∨ _))

/-- The log `log'` is `log` with a command entry of index `idx` appended. -/
structure Placed (log log' : Log) (idx term reqId cltId : ℕ) (type : CmdType) (cmd : SmCmd) :
    Prop where
  len_eq : log'.len = log.len
  head_eq : log'.head = log.head
  tail_eq : log'.tail = entryStart log.len log.endOff (EntryBody.cmd type cmd).len
  end_eq : log'.endOff = log'.tail + (EntryBody.cmd type cmd).len
  entry : EntryAt log'.entries log'.tail idx term reqId cltId type cmd
  stub : sizeofEntry ≤ log.len - log.endOff → (EntryBody.cmd type cmd).len ≤ log.endOff →
    logEntryLen log' log.endOff = (EntryBody.cmd type cmd).len

theorem logAddNewEntry_eq_none_iff : logAddNewEntry log = none ↔ log.endOff = log.head := by
  unfold logAddNewEntry isLogFull
  constructor
  · intro h
    by_contra hne
    rw [if_neg (by simpa using hne)] at h
    split at h <;> cases h
  · intro h
    rw [if_pos (by simpa using h)]

theorem Written.stub (log log' : Log) {body : EntryBody} {off' : ℕ}
    (hw : Written log.entries log'.entries off body) (h : off + body.len ≤ off') :
    logEntryLen log' off' = logEntryLen log off' := by
  have ht : entryType log' off' = entryType log off' :=
    Memory.load_congr fun y hy _ => hw.kept y (.inr (by omega))
  have hlen : log'.entries.load 2 (off' + 32) = log.entries.load 2 (off' + 32) :=
    Memory.load_congr fun y hy _ => hw.kept y (.inr (by omega))
  unfold logEntryLen
  rw [ht, hlen]

theorem placed_of_closeEntry {log₀ : Log}
    (hoff : off = entryStart log₀.len log₀.endOff (EntryBody.cmd type cmd).len)
    (hlen : log.len = log₀.len) (hh : log.head = log₀.head) (hend : log.endOff = off)
    (hentry : EntryAt log.entries off idx term reqId cltId type cmd)
    (hs : sizeofEntry ≤ log₀.len - log₀.endOff → (EntryBody.cmd type cmd).len ≤ log₀.endOff →
      logEntryLen log log₀.endOff = (EntryBody.cmd type cmd).len) :
    Placed log₀ (closeEntry log off) idx term reqId cltId type cmd := by
  have hl := hentry.logEntryLen_eq
  constructor
  · exact hlen
  · exact hh
  · exact hend.trans hoff
  · exact congrArg (log.endOff + ·) hl
  · exact hend ▸ hentry
  · exact hs

theorem placeEntry_cmd (hl : maxEntryLen ≤ log.len) :
    (Refuses log.head log.len log.endOff (EntryBody.cmd type cmd).len ∧
      (placeEntry log idx term reqId cltId (.cmd type cmd)).2 = 0) ∨
    (¬ Refuses log.head log.len log.endOff (EntryBody.cmd type cmd).len ∧
      (placeEntry log idx term reqId cltId (.cmd type cmd)).2 = idx ∧
      Placed log (placeEntry log idx term reqId cltId (.cmd type cmd)).1
        idx term reqId cltId type cmd) := by
  have hmax := Nat.le_trans (len_le_maxEntryLen (.cmd type cmd)) hl
  have hmin := sizeofEntry_le_len (.cmd type cmd)
  unfold placeEntry
  cases hnew : logAddNewEntry log with
  | none => exact .inl ⟨.inl (logAddNewEntry_eq_none_iff.mp hnew), rfl⟩
  | some off =>
    have hoff := logAddNewEntry_eq hnew
    have hne : log.endOff ≠ log.head := by
      intro heq
      rw [logAddNewEntry_eq_none_iff.mpr heq] at hnew
      cases hnew
    simp only [EntryBody.type, ← hoff]
    by_cases hh : logFitEntryHeader log log.endOff
    · rw [if_pos hh] at hoff
      subst hoff
      rw [logFitEntryHeader_iff] at hh
      split
      · -- the entry fits in front of the end of the buffer
        rename_i hfit
        have hr := of_decide_eq_true hfit
        rw [logEntryLen_cmd_header type cmd rfl] at hr
        refine .inr ⟨?_, rfl, ?_⟩
        · rintro (heq | ⟨-, hs, -⟩)
          · exact hne heq
          · exact Nat.not_lt.mpr hr hs
        · refine placed_of_closeEntry (if_pos hr).symm rfl rfl rfl entryAt_cmd ?_
          exact fun _ _ => EntryAt.logEntryLen_eq entryAt_cmd
      · -- it does not, and its header stays behind as a stub
        rename_i hfit
        have hs : log.len - log.endOff < (EntryBody.cmd type cmd).len := by
          by_contra hr
          refine hfit (decide_eq_true ?_)
          rw [logEntryLen_cmd_header type cmd rfl]
          exact Nat.not_lt.mp hr
        split
        · rename_i hf
          have hhe := logAddNewEntry_eq_none_iff.mp hf
          exact .inl ⟨.inr ⟨hh, hs, hhe.symm⟩, rfl⟩
        · rename_i off' hoff'
          have hz : off' = 0 := by simpa using logAddNewEntry_eq hoff'
          subst hz
          refine .inr ⟨?_, rfl, ?_⟩
          · rintro (heq | ⟨-, -, hhe⟩)
            · exact hne heq
            · rw [logAddNewEntry_eq_none_iff.mpr hhe.symm] at hoff'
              cases hoff'
          · refine placed_of_closeEntry (if_neg (Nat.not_le.mpr hs)).symm rfl rfl rfl
              entryAt_cmd ?_
            intro _ hb
            refine (Written.stub { log with entries := _ } _ (written_cmd type cmd)
              (by rwa [Nat.zero_add])).trans ?_
            exact logEntryLen_cmd_header type cmd rfl
    · rw [if_neg hh] at hoff
      subst hoff
      rw [logFitEntryHeader_iff] at hh
      rw [if_pos]
      · refine .inr ⟨?_, rfl, ?_⟩
        · rintro (heq | ⟨hfit, -⟩)
          · exact hne heq
          · exact hh hfit
        · refine placed_of_closeEntry (if_neg (by omega)).symm rfl rfl rfl entryAt_cmd ?_
          exact fun hfit => absurd hfit hh
      · refine decide_eq_true ?_
        rw [logEntryLen_cmd_header type cmd rfl]
        exact hmax

variable {n : TailqEntry} {log' : Log}

def TailqEntry.entryLen (n : TailqEntry) : ℕ := (EntryBody.cmd n.type n.cmd).len

/-- The log `log'` is `log` with the request appended as its last entry. -/
def Appended (term : ℕ) (log : Log) (n : TailqEntry) (log' : Log) (idx : ℕ) : Prop :=
  Placed log log' idx term n.reqId.toNat n.connectionId.toNat n.type n.cmd

theorem appendRequest_none (h : logGetTail log = none) : appendRequest term log n = none := by
  unfold appendRequest logAppendEntry
  rw [h]
  rfl

theorem logAppendEntry_eq {tail : ℕ} {body : EntryBody} (h : logGetTail log = some tail) :
    ∃ idx, idx ≠ 0 ∧ logAppendEntry log term reqId cltId body =
      some (placeEntry { log with tail := tail } idx term reqId cltId body) := by
  unfold logAppendEntry
  rw [h]
  refine ⟨_, ?_, rfl⟩
  split
  · exact Nat.succ_ne_zero _
  · exact Nat.one_ne_zero

theorem appendRequest_some (term : ℕ) (n : TailqEntry) {tail : ℕ} (h : logGetTail log = some tail)
    (hl : maxEntryLen ≤ log.len) : ∃ log' idx, appendRequest term log n = some (log', idx) ∧
      (Refuses log.head log.len log.endOff n.entryLen ∧ idx = 0 ∨
        ¬ Refuses log.head log.len log.endOff n.entryLen ∧ idx ≠ 0 ∧
          Appended term log n log' idx) := by
  obtain ⟨idx, hne, heq⟩ := @logAppendEntry_eq log term n.reqId.toNat n.connectionId.toNat tail
    (.cmd n.type n.cmd) h
  have hc := @placeEntry_cmd { log with tail := tail } idx term n.reqId.toNat
    n.connectionId.toNat n.type n.cmd hl
  generalize placeEntry _ _ _ _ _ _ = r at heq hc
  refine ⟨r.1, r.2, heq, hc.imp id ?_⟩
  rintro ⟨hr, hidx, hp⟩
  rw [hidx]
  exact ⟨hr, hne, hp.len_eq, hp.head_eq, hp.tail_eq, hp.end_eq, hp.entry, hp.stub⟩

end Place

end VmFt.Dare.Ring
