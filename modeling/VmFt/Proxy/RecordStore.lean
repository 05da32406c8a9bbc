import VmFt.Lib.Framing

/-! # The store of records

The proxy keeps the requests it saves as records of a Berkeley DB file, in the
order in which they were saved. The file outlives the process; the length of all
records is counted in a variable that does not. A snapshot is the records one
behind the other, and loading it stores and sends them again.
-/

namespace VmFt.RecordStore

open VmFt.Memory

def MIRROR : UInt8 := 7

def CHECKPOINT : UInt8 := 8

/-- `sizeof(proxy_send_msg)`, with the padding in front of and behind the union. -/
def sizeofProxySendMsg : ℕ := 24

/-- `PROXY_CHECKPOINT_MSG_SIZE` -/
def proxyCheckpointMsgSize : ℕ := 4

/-- `header->action` of the message at an offset. -/
def action (m : Memory) (off : ℕ) : UInt8 := m (off + 2)

/-- `data.cmd.len` -/
def cmdLen (m : Memory) (off : ℕ) : ℕ := m.load 2 (off + 8)

/-- `data.cmd.cmd` -/
def cmd (m : Memory) (off : ℕ) : List UInt8 := m.read (cmdLen m off) (off + 10)

/-- `PROXY_SEND_MSG_SIZE` -/
def proxySendMsgSize (m : Memory) (off : ℕ) : ℕ := cmdLen m off + sizeofProxySendMsg

def recordSize (m : Memory) (off : ℕ) : Option ℕ :=
  if action m off = MIRROR then some (proxySendMsgSize m off)
  else if action m off = CHECKPOINT then some proxyCheckpointMsgSize
  else none

/-- The file, and the counter of the process that has opened it. -/
structure Store where
  records : List (List UInt8)
  recordsLen : ℕ
  deriving DecidableEq

/-- `store_record`; the counter is of type `uint32_t`. -/
def storeRecord (s : Store) (record : List UInt8) : Store :=
  ⟨s.records ++ [record], (s.recordsLen + record.length) % 2 ^ 32⟩

/-- `stablestorage_save_request` -/
def saveRequest (s : Store) (data : Memory) : Store :=
  match recordSize data 0 with
  | some size => storeRecord s (data.read size 0)
  | none => s

/-- A new process opens the file. -/
def initializeDb (s : Store) : Store := { s with recordsLen := 0 }

def getRecordsLen (s : Store) : ℕ := s.recordsLen

/-- `dump_records`, which counts the bytes in a `uint32_t`. -/
def dumpRecords (s : Store) (buf : Memory) : Memory := Framing.put (2 ^ 32) 0 s.records buf

/-- The number of bytes that `dump_records` copies. -/
def dumpedBytes (s : Store) : ℕ := (s.records.map List.length).sum

/-- The store of the process that loads a snapshot, and what it gave to `do_action_send`. -/
structure Loaded where
  store : Store
  delivered : List (List UInt8)
  deriving DecidableEq

def payload (record : List UInt8) : List UInt8 :=
  (record.drop 10).take (ofBytes ((record.drop 8).take 2))

/-- A round of `stablestorage_load_records`. -/
def loadRecord (l : Loaded) (record : List UInt8) : Loaded :=
  { store := storeRecord l.store record
    delivered :=
      if record.getD 2 0 = MIRROR then l.delivered ++ [payload record] else l.delivered }

/-- `stablestorage_load_records`: a record of another kind is read over and over. -/
def loadRecords (fuel : ℕ) (buf : Memory) (size : ℕ) (s : Store) : Option Loaded :=
  Framing.unframe (2 ^ 32) recordSize loadRecord buf size fuel 0 ⟨s, []⟩

/-! ### Records of requests -/

structure Request where
  data : Memory
  known : action data 0 = MIRROR ∨ action data 0 = CHECKPOINT

namespace Request

variable (r : Request)

def size : ℕ :=
  if action r.data 0 = MIRROR then proxySendMsgSize r.data 0 else proxyCheckpointMsgSize

def record : List UInt8 := r.data.read r.size 0

/-- The payload of a MIRROR request. -/
def sent : Option (List UInt8) := if action r.data 0 = MIRROR then some (cmd r.data 0) else none

theorem recordSize_eq : recordSize r.data 0 = some r.size := by
  unfold recordSize size
  rcases r.known with h | h
  · rw [if_pos h, if_pos h]
  · have hne : action r.data 0 ≠ MIRROR := by
      rw [h]
      decide
    rw [if_neg hne, if_pos h, if_neg hne]

theorem four_le_size : 4 ≤ r.size := by
  unfold size proxySendMsgSize sizeofProxySendMsg proxyCheckpointMsgSize
  split_ifs <;> omega

@[simp]
theorem length_record : r.record.length = r.size := length_read ..

end Request

theorem saveRequest_eq (s : Store) (r : Request) :
    saveRequest s r.data = storeRecord s r.record := by
  rw [saveRequest, r.recordSize_eq]
  rfl

theorem cmdLen_eq_ofBytes {m : Memory} {off n : ℕ} {bytes : List UInt8} (hn : 10 ≤ n)
    (h : m.read n off = bytes) : cmdLen m off = ofBytes ((bytes.drop 8).take 2) := by
  rw [← h, take_drop_read m off (by omega), ← load_eq_ofBytes]
  rfl

theorem action_eq_getD {m : Memory} {off n : ℕ} {bytes : List UInt8} (hn : 4 ≤ n)
    (h : m.read n off = bytes) : action m off = bytes.getD 2 0 := by
  rw [← h, getD_read m off (by omega)]
  rfl

namespace Request

variable (r : Request)

theorem twentyFour_le_size (h : action r.data 0 = MIRROR) : 24 ≤ r.size := by
  unfold size proxySendMsgSize sizeofProxySendMsg
  rw [if_pos h]
  omega

theorem getD_record : r.record.getD 2 0 = action r.data 0 :=
  (action_eq_getD r.four_le_size rfl).symm

theorem framed_record : Framing.Framed recordSize r.record := by
  have hlen := r.length_record
  have hf := r.four_le_size
  refine ⟨by omega, fun m off hr => ?_⟩
  rw [hlen] at hr ⊢
  have ha : action m off = action r.data 0 := by
    rw [action_eq_getD hf hr, r.getD_record]
  rw [← r.recordSize_eq]
  by_cases hm : action r.data 0 = MIRROR
  · have hs := r.twentyFour_le_size hm
    have hcmd : cmdLen m off = cmdLen r.data 0 := by
      rw [cmdLen_eq_ofBytes (by omega) hr, cmdLen_eq_ofBytes (n := r.size) (by omega) rfl]
      rfl
    unfold recordSize proxySendMsgSize
    rw [ha, hcmd]
  · unfold recordSize
    rw [ha, if_neg hm, if_neg hm]

theorem payload_record (h : action r.data 0 = MIRROR) : payload r.record = cmd r.data 0 := by
  have hs : r.size = proxySendMsgSize r.data 0 := if_pos h
  have hlen : ofBytes ((r.record.drop 8).take 2) = cmdLen r.data 0 :=
    (cmdLen_eq_ofBytes (Nat.le_trans (by decide) (r.twentyFour_le_size h)) rfl).symm
  rw [payload, hlen, record, take_drop_read r.data 0, cmd]
  rw [hs, proxySendMsgSize, sizeofProxySendMsg]
  omega

end Request

/-! ### Processes -/

def saveRequests (s : Store) (requests : List Request) : Store :=
  requests.foldl (fun s r => saveRequest s r.data) s

/-- The store after a number of earlier processes, each with the requests it has saved, and the
current one. -/
def storeAfter (earlier : List (List Request)) (current : List Request) : Store :=
  saveRequests (earlier.foldl (fun s requests => initializeDb (saveRequests s requests)) ⟨[], 0⟩)
    current

def totalSize (requests : List Request) : ℕ := (requests.map Request.size).sum

theorem saveRequests_eq (s : Store) (requests : List Request) :
    (saveRequests s requests).records = s.records ++ requests.map Request.record ∧
      (saveRequests s requests).recordsLen % 2 ^ 32 =
        (s.recordsLen + totalSize requests) % 2 ^ 32 := by
  induction requests generalizing s with
  | nil => simp [saveRequests, totalSize]
  | cons r rest ih =>
    obtain ⟨hr, hlen⟩ := ih (saveRequest s r.data)
    rw [saveRequest_eq] at hr hlen
    constructor
    · simpa [saveRequests, saveRequest_eq, storeRecord] using hr
    · simp only [saveRequests, List.foldl_cons, saveRequest_eq] at hlen ⊢
      rw [hlen]
      simp only [storeRecord, r.length_record, totalSize, List.map_cons, List.sum_cons]
      omega

theorem recordsLen_lt {s : Store} (hs : s.recordsLen < 2 ^ 32) (requests : List Request) :
    (saveRequests s requests).recordsLen < 2 ^ 32 := by
  induction requests generalizing s with
  | nil => exact hs
  | cons r rest ih =>
    apply ih
    dsimp only
    rw [saveRequest_eq]
    exact Nat.mod_lt _ (by decide)

theorem storeAfter_eq (earlier : List (List Request)) (current : List Request) :
    (storeAfter earlier current).records = (earlier.flatten ++ current).map Request.record ∧
      (storeAfter earlier current).recordsLen = totalSize current % 2 ^ 32 := by
  have he : ∀ (s : Store), s.recordsLen = 0 →
      (earlier.foldl (fun s requests => initializeDb (saveRequests s requests)) s).records =
        s.records ++ earlier.flatten.map Request.record ∧
      (earlier.foldl (fun s requests => initializeDb (saveRequests s requests)) s).recordsLen =
        0 := by
    induction earlier with
    | nil => simp
    | cons requests rest ih =>
      intro s hs
      obtain ⟨hr, hlen⟩ := ih (initializeDb (saveRequests s requests)) rfl
      rw [List.foldl_cons, hr]
      refine ⟨?_, hlen⟩
      simp [initializeDb, (saveRequests_eq s requests).1]
  obtain ⟨hr, hlen⟩ := he ⟨[], 0⟩ rfl
  have hsa := saveRequests_eq
    (earlier.foldl (fun s requests => initializeDb (saveRequests s requests)) ⟨[], 0⟩) current
  constructor
  · rw [storeAfter, hsa.1, hr]
    simp
  · have hlt := recordsLen_lt (hlen ▸ (by decide : 0 < 2 ^ 32)) current
    rw [storeAfter, ← Nat.mod_eq_of_lt hlt, hsa.2, hlen, Nat.zero_add]

/-! ### The round trip -/

/-- The dump fills exactly the length that is reported, and loading it ends with the same records
stored again and the payloads of the MIRROR requests delivered. -/
def RoundTrip (requests : List Request) (s : Store) : Prop :=
  dumpedBytes s = getRecordsLen s ∧
    ∀ buf t, ∃ fuel l, loadRecords fuel (dumpRecords s buf) (getRecordsLen s) t = some l ∧
      l.store.records = t.records ++ s.records ∧
      s.records = requests.map Request.record ∧
      l.delivered = requests.filterMap Request.sent

theorem delivered_loadRecord (l : Loaded) (r : Request) :
    (loadRecord l r.record).delivered = l.delivered ++ r.sent.toList := by
  unfold loadRecord Request.sent
  rw [r.getD_record]
  split_ifs with h
  · simp [r.payload_record h]
  · simp

theorem foldl_loadRecord (requests : List Request) (l : Loaded) :
    ((requests.map Request.record).foldl loadRecord l).store.records =
        l.store.records ++ requests.map Request.record ∧
      ((requests.map Request.record).foldl loadRecord l).delivered =
        l.delivered ++ requests.filterMap Request.sent := by
  induction requests generalizing l with
  | nil => simp
  | cons r rest ih =>
    obtain ⟨hr, hd⟩ := ih (loadRecord l r.record)
    rw [List.map_cons, List.foldl_cons, hr, hd, delivered_loadRecord]
    constructor
    · simp [loadRecord, storeRecord]
    · cases h : r.sent <;> simp [h]

theorem dumpedBytes_storeAfter (earlier : List (List Request)) (current : List Request) :
    dumpedBytes (storeAfter earlier current) = totalSize earlier.flatten + totalSize current := by
  rw [dumpedBytes, (storeAfter_eq earlier current).1]
  simp [totalSize, Function.comp_def]

theorem eq_nil_of_totalSize {requests : List Request} (h : totalSize requests = 0) :
    requests = [] := by
  cases requests with
  | nil => rfl
  | cons r rest =>
    have := r.four_le_size
    simp only [totalSize, List.map_cons, List.sum_cons] at h
    omega

/-- Dumping and loading is a round trip as long as nothing was stored by an earlier process and the
records of this one take less than four gigabytes. -/
theorem round_trip_iff (earlier : List (List Request)) (current : List Request) :
    RoundTrip (earlier.flatten ++ current) (storeAfter earlier current) ↔
      earlier.flatten = [] ∧ totalSize current < 2 ^ 32 := by
  obtain ⟨hrecords, hlen⟩ := storeAfter_eq earlier current
  have hdumped := dumpedBytes_storeAfter earlier current
  constructor
  · rintro ⟨hbytes, -⟩
    rw [hdumped, getRecordsLen, hlen] at hbytes
    have hmod := Nat.mod_le (totalSize current) (2 ^ 32)
    refine ⟨eq_nil_of_totalSize (by omega), ?_⟩
    have hlt := Nat.mod_lt (totalSize current) (by decide : 0 < 2 ^ 32)
    omega
  · rintro ⟨hearlier, hsize⟩
    have hbytes : dumpedBytes (storeAfter earlier current) =
        getRecordsLen (storeAfter earlier current) := by
      rw [hdumped, hearlier, getRecordsLen, hlen, Nat.mod_eq_of_lt hsize]
      exact Nat.zero_add _
    have hflatten : (storeAfter earlier current).records.flatten.length =
        getRecordsLen (storeAfter earlier current) := by
      rw [← hbytes, dumpedBytes, List.length_flatten]
    have hframed : ∀ r ∈ (storeAfter earlier current).records, Framing.Framed recordSize r := by
      intro r hr
      rw [hrecords] at hr
      obtain ⟨request, -, rfl⟩ := List.mem_map.mp hr
      exact request.framed_record
    refine ⟨hbytes, fun buf t => ⟨(storeAfter earlier current).records.length + 1,
      (storeAfter earlier current).records.foldl loadRecord ⟨t, []⟩, ?_, ?_, hrecords, ?_⟩⟩
    · rw [loadRecords, dumpRecords, ← hflatten]
      apply Framing.unframe_put hframed
      rw [hflatten, getRecordsLen, hlen]
      exact Nat.mod_lt _ (by decide)
    · rw [hrecords]
      exact (foldl_loadRecord _ _).1
    · rw [hrecords]
      simpa using (foldl_loadRecord (earlier.flatten ++ current) ⟨t, []⟩).2

def checkpointRequest : Request := ⟨fun _ => CHECKPOINT, .inr rfl⟩

/-- A record that was stored before a restart is dumped but not counted. -/
theorem restarted_not_round_trip :
    ¬ RoundTrip ([[checkpointRequest]].flatten ++ []) (storeAfter [[checkpointRequest]] []) := by
  rintro ⟨hbytes, -⟩
  have hcount : dumpedBytes (storeAfter [[checkpointRequest]] []) = 4 ∧
      getRecordsLen (storeAfter [[checkpointRequest]] []) = 0 := by decide
  omega

end VmFt.RecordStore
