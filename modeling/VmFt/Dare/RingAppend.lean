import VmFt.Dare.Ring

/-! # What an append leaves in the buffer

The new entry is stored whole at one offset. If only its header fits in front
of the end of the buffer, the header and the length of its command are left
there as well, as a stub. An append that finds the log full behind the stub
gives up with the end offset already reset.
-/

namespace VmFt.Dare.Ring

/-- An entry as the caller of `log_append_entry` gives it, with its index. -/
structure Item where
  idx : ℕ
  term : ℕ
  reqId : ℕ
  cltId : ℕ
  body : EntryBody
  deriving DecidableEq

def EntryBody.bytes : EntryBody → List UInt8
  | .noop => []
  | .config cid => cidBytes cid
  | .head offset => Memory.bytesOf 8 offset
  | .cmd _ c => Memory.bytesOf 2 c.cmd.length ++ c.cmd

structure Headed (log : Log) (off : ℕ) (it : Item) : Prop where
  idx : entryIdx log off = it.idx % 2 ^ 64
  term : entryTerm log off = it.term % 2 ^ 64
  reqId : entryReqId log off = it.reqId % 2 ^ 64
  cltId : entryCltId log off = it.cltId % 2 ^ 16
  type : entryType log off = it.body.type
  len : logEntryLen log off = it.body.len

/-- An entry lies at an offset with all its data. -/
structure Stored (log : Log) (off : ℕ) (it : Item) : Prop extends Headed log off it where
  data : log.entries.read it.body.bytes.length (off + 32) = it.body.bytes

def putEntry (m : Memory) (off : ℕ) (it : Item) : Memory :=
  (putHeader m off it.idx it.term it.reqId it.cltId it.body.type).store (off + 32) it.body.bytes

def putStub (m : Memory) (off : ℕ) (it : Item) : Memory :=
  (putHeader m off it.idx it.term it.reqId it.cltId it.body.type).store (off + 32)
    (it.body.bytes.take 2)

/-- The log with an entry as its last one. -/
def place (log : Log) (m : Memory) (off : ℕ) (it : Item) : Log :=
  { log with entries := putEntry m off it, tail := off, endOff := off + it.body.len }

variable {log : Log} {m : Memory} {off : ℕ} {it : Item}

theorem type_lt (body : EntryBody) : body.type < 256 := by
  cases body with
  | cmd type cmd => exact type.code_lt
  | noop => exact (by decide : NOOP < 256)
  | config cid => exact (by decide : CONFIG < 256)
  | head offset => exact (by decide : HEAD < 256)

theorem length_bytes_le (body : EntryBody) : 32 + body.bytes.length ≤ body.len := by
  cases body with
  | cmd type cmd =>
    simp only [EntryBody.bytes, EntryBody.len, List.length_append, Memory.length_bytesOf,
      sizeofEntry]
    omega
  | config cid => simp [EntryBody.bytes, EntryBody.len, length_cidBytes, sizeofEntry]
  | _ => simp [EntryBody.bytes, EntryBody.len, sizeofEntry]

/-! ### Reading back -/

section Header

variable {idx term reqId cltId type : ℕ} {bytes : List UInt8}

theorem load_of_store_behind {n o : ℕ} {v k : ℕ} (h : off + n ≤ o) :
    (m.store o (Memory.bytesOf k v)).load n off = m.load n off :=
  Memory.load_store_of_disjoint (Or.inl h)

theorem header_fields (hm : log.entries =
    (putHeader m off idx term reqId cltId type).store (off + 32) bytes) :
    entryIdx log off = idx % 2 ^ 64 ∧ entryTerm log off = term % 2 ^ 64 ∧
      entryReqId log off = reqId % 2 ^ 64 ∧ entryCltId log off = cltId % 2 ^ 16 ∧
        entryType log off = type % 256 := by
  unfold entryIdx entryTerm entryReqId entryCltId entryType
  rw [hm]
  unfold putHeader
  refine ⟨?_, ?_, ?_, ?_, ?_⟩ <;> rw [Memory.load_store_of_disjoint (by omega)] <;> dsimp only
  · rw [load_of_store_behind (by omega), load_of_store_behind (by omega),
      load_of_store_behind (by omega), load_of_store_behind (by omega)]
    exact Memory.load_store ..
  · rw [load_of_store_behind (by omega), load_of_store_behind (by omega),
      load_of_store_behind (by omega)]
    exact Memory.load_store ..
  · rw [load_of_store_behind (by omega), load_of_store_behind (by omega)]
    exact Memory.load_store ..
  · rw [load_of_store_behind (by omega)]
    exact Memory.load_store ..
  · exact Memory.load_store ..

end Header

theorem logEntryLen_of_special (h : entryType log off = it.body.type)
    (hs : it.body.type = NOOP ∨ it.body.type = CONFIG ∨ it.body.type = HEAD) :
    logEntryLen log off = sizeofEntry := by
  rw [← h] at hs
  exact if_pos hs

theorem headed_of_entries {bytes : List UInt8} (hm : log.entries =
    (putHeader m off it.idx it.term it.reqId it.cltId it.body.type).store (off + 32) bytes)
    (hb : bytes.take 2 = it.body.bytes.take 2) : Headed log off it := by
  obtain ⟨hidx, hterm, hreq, hclt, ht⟩ := header_fields hm
  rw [Nat.mod_eq_of_lt (type_lt _)] at ht
  refine ⟨hidx, hterm, hreq, hclt, ht, ?_⟩
  cases hbo : it.body with
  | cmd type c =>
    rw [hbo] at ht hb
    refine logEntryLen_of_cmd ht ?_
    have hl : log.entries.load 2 (off + 32) = c.cmd.length % 256 ^ 2 := by
      rw [hm, ← List.take_append_drop 2 bytes, hb]
      refine Memory.load_of_bytesOf fun k hk => ?_
      rw [Memory.store_add (by simp [EntryBody.bytes]; omega),
        List.getD_append _ _ _ _ (by simp [EntryBody.bytes]; omega)]
      simp [EntryBody.bytes]
    exact hl.trans (Nat.mod_eq_of_lt c.length_lt)
  | noop | config cid | head offset =>
    exact logEntryLen_of_special ht (by simp [hbo, EntryBody.type])

theorem headed_putStub (hm : log.entries = putStub m off it) : Headed log off it := by
  refine headed_of_entries hm ?_
  rw [List.take_take, Nat.min_self]

theorem stored_putEntry (hm : log.entries = putEntry m off it) : Stored log off it where
  toHeaded := headed_of_entries hm rfl
  data := by rw [hm, putEntry, Memory.read_store]

theorem putEntry_of_outside {x : ℕ} (h : x < off ∨ off + it.body.len ≤ x) :
    putEntry m off it x = m x := by
  have := length_bytes_le it.body
  have hs := sizeofEntry_le_len it.body
  rw [sizeofEntry] at hs
  rw [putEntry, Memory.store_of_outside (by omega), putHeader_of_outside (by omega)]

theorem putStub_of_outside {x : ℕ} (h : x < off ∨ off + sizeofEntry ≤ x) :
    putStub m off it x = m x := by
  rw [sizeofEntry] at h
  have : (it.body.bytes.take 2).length ≤ 2 := List.length_take_le _ _
  rw [putStub, Memory.store_of_outside (by omega), putHeader_of_outside (by omega)]

/-! ### What a reader depends on -/

section Congr

variable {log' : Log}

theorem Headed.congr (h : Headed log off it)
    (heq : ∀ x, off ≤ x → x < off + sizeofEntry → log'.entries x = log.entries x) :
    Headed log' off it := by
  simp only [sizeofEntry] at heq
  have hl : ∀ n o, off ≤ o → o + n ≤ off + 48 → log'.entries.load n o = log.entries.load n o :=
    fun n o hlo hhi => Memory.load_congr fun y hy hy' => heq y (by omega) (by omega)
  have ht : entryType log' off = entryType log off := hl _ _ (by omega) (by omega)
  constructor
  · exact (hl _ _ (by omega) (by omega)).trans h.idx
  · exact (hl _ _ (by omega) (by omega)).trans h.term
  · exact (hl _ _ (by omega) (by omega)).trans h.reqId
  · exact (hl _ _ (by omega) (by omega)).trans h.cltId
  · exact ht.trans h.type
  · rw [← h.len, logEntryLen, logEntryLen, ht, hl _ _ (by omega) (by omega)]

theorem Stored.congr (h : Stored log off it)
    (heq : ∀ x, off ≤ x → x < off + it.body.len → log'.entries x = log.entries x) :
    Stored log' off it := by
  have hs := sizeofEntry_le_len it.body
  have hb := length_bytes_le it.body
  refine ⟨h.toHeaded.congr fun x hx hx' => heq x hx (by omega), ?_⟩
  have hr : log'.entries.read it.body.bytes.length (off + 32) =
      log.entries.read it.body.bytes.length (off + 32) :=
    Memory.read_congr fun y hy hy' => heq y (by omega) (by omega)
  exact hr.trans h.data

end Congr

/-! ### The three ways an append can go -/

def startOffset (log : Log) : ℕ := if logFitEntryHeader log log.endOff then log.endOff else 0

theorem logAddNewEntry_of_not_full (h : isLogFull log = false) :
    logAddNewEntry log = some (startOffset log) := by
  cases hnew : logAddNewEntry log with
  | some off => rw [logAddNewEntry_eq hnew, startOffset]
  | none =>
    unfold logAddNewEntry at hnew
    split_ifs at hnew
    simp_all

theorem logAddNewEntry_rewound (log : Log) :
    logAddNewEntry { log with endOff := 0 } = if log.head = 0 then none else some 0 := by
  split_ifs with hh
  · exact if_pos (by simp [isLogFull, hh])
  · rw [logAddNewEntry_of_not_full (by simpa [isLogFull] using Ne.symm hh), startOffset]
    exact congrArg some (ite_self 0)

theorem placeEntry_of_full (h : isLogFull log = true) :
    placeEntry log it.idx it.term it.reqId it.cltId it.body = (log, 0) := by
  have hnew : logAddNewEntry log = none := if_pos h
  rw [placeEntry, hnew]

theorem closeEntry_putEntry (it : Item) (hm : log.entries = putEntry m off it)
    (hend : log.endOff = off) : closeEntry log off = place log m off it := by
  rw [closeEntry, (stored_putEntry hm).len, hend, place, ← hm]

theorem putEntry_cmd (idx term reqId cltId : ℕ) (type : CmdType) (c : SmCmd) :
    ((putHeader m off idx term reqId cltId type.code).store (off + 32)
      (Memory.bytesOf 2 c.cmd.length)).store (off + 34) c.cmd =
    putEntry m off ⟨idx, term, reqId, cltId, .cmd type c⟩ := by
  rw [putEntry, EntryBody.bytes, ← Memory.store_store_append, Memory.length_bytesOf]
  rfl

theorem placeEntry_of_fit (hf : isLogFull log = false)
    (hfit : it.body.len ≤ log.len - startOffset log) :
    placeEntry log it.idx it.term it.reqId it.cltId it.body =
      (place log log.entries (startOffset log) it, it.idx) := by
  obtain ⟨idx, term, reqId, cltId, body⟩ := it
  rw [placeEntry, logAddNewEntry_of_not_full hf]
  cases body with
  | noop =>
    refine Prod.ext ?_ rfl
    exact closeEntry_putEntry ⟨idx, term, reqId, cltId, .noop⟩
      (Memory.store_nil _ _).symm rfl
  | config cid =>
    refine Prod.ext ?_ rfl
    exact closeEntry_putEntry ⟨idx, term, reqId, cltId, .config cid⟩ rfl rfl
  | head offset =>
    refine Prod.ext ?_ rfl
    exact closeEntry_putEntry ⟨idx, term, reqId, cltId, .head offset⟩ rfl rfl
  | cmd type c =>
    dsimp only
    rw [if_pos]
    · refine Prod.ext ?_ rfl
      exact closeEntry_putEntry _ (putEntry_cmd idx term reqId cltId type c) rfl
    · rw [logFitEntry, logEntryLen_cmd_header type c rfl]
      exact decide_eq_true hfit

theorem placeEntry_of_not_fit (hf : isLogFull log = false)
    (hfit : log.len - startOffset log < it.body.len) (hh : sizeofEntry ≤ log.len) :
    placeEntry log it.idx it.term it.reqId it.cltId it.body = if log.head = 0 then
        ({ log with entries := putStub log.entries (startOffset log) it, endOff := 0 }, 0)
      else (place log (putStub log.entries (startOffset log) it) 0 it, it.idx) := by
  have hs : sizeofEntry ≤ log.len - startOffset log := by
    unfold startOffset
    split_ifs with h
    · exact logFitEntryHeader_iff.mp h
    · exact hh
  obtain ⟨idx, term, reqId, cltId, body⟩ := it
  cases body with
  | noop | config cid | head offset => exact absurd hs (Nat.not_le.mpr hfit)
  | cmd type c =>
    have hst : (putHeader log.entries (startOffset log) idx term reqId cltId type.code).store
        (startOffset log + 32) (Memory.bytesOf 2 c.cmd.length) =
        putStub log.entries (startOffset log) ⟨idx, term, reqId, cltId, .cmd type c⟩ := by
      rw [putStub, EntryBody.bytes, List.take_left' (Memory.length_bytesOf 2 _)]
      rfl
    rw [placeEntry, logAddNewEntry_of_not_full hf]
    dsimp only [EntryBody.type]
    rw [if_neg, hst]
    · have hnew : ∀ m, logAddNewEntry { log with entries := m, endOff := 0 } =
          if log.head = 0 then none else some 0 :=
        fun m => logAddNewEntry_rewound { log with entries := m }
      rw [hnew]
      split_ifs with hhe
      · rfl
      · refine Prod.ext ?_ rfl
        exact closeEntry_putEntry _ (putEntry_cmd idx term reqId cltId type c) rfl
    · rw [logFitEntry, logEntryLen_cmd_header type c rfl]
      exact fun h => absurd (of_decide_eq_true h) (Nat.not_le.mpr hfit)

end VmFt.Dare.Ring
