import VmFt.Lib.Session
import VmFt.Lib.Memory
import VmFt.Ram.HashList
import VmFt.Colo.Primary

/-! # The messages of the checkpoints

The checkpoint threads of the two hosts as the parties of a session. Most messages
go through one buffer for each host, which is written before a put and overwritten
by a get; nothing in a message tells what it is. The saved state of the RAM goes
through the migration stream, and so does the notice of a shutdown.
-/

namespace VmFt.Colo.Exchange

open VmFt.System VmFt.Session VmFt.Ram List Option

/-- What the sender of a message means by it. -/
inductive Kind
  | stateBegin | checkpointReady | syncType | checkpointRequest
  | backupBitmap | primaryBitmap | hashList | liveState
  | vmstateSize | sizeValue | deviceState | vmstateLoaded | guestShutdown
deriving DecidableEq

/-- A message; only its bytes are sent. -/
structure Msg where
  kind : Kind
  bytes : List UInt8
deriving DecidableEq

/-- The control buffer, the migration stream, and the log for checkpoint requests. -/
inductive Channel
  | ctrl | file | log
deriving DecidableEq

def CHECK_IDLE_SYNC : UInt32 := 1

def MC_RDMA_CONTROL_MAX_BUFFER : ℕ := 512 * 1024 * 516

def MC_RDMA_CONTROL_RESERVED_RECV_BUFFER : ℕ := MC_RDMA_CONTROL_MAX_BUFFER / 2

def sizeofControlHeader : ℕ := 16

def sizeofHash : ℕ := 8

def bitmapSize (pages : ℕ) : ℕ := (pages + 63) / 64 * 8

/-- What the steps of a thread find: the bitmap after a synchronisation with the dirty log, the RAM
state for the migration stream, the device state, the hashes of the pages, and whether a shutdown of
the guest has been requested. -/
structure Input where
  dirty : Bitmap
  stream : List UInt8
  device : List UInt8
  hash : ℕ → ℕ
  shutdown : Bool

/-- `mc_rdma_put_colo_ctrl_buffer`, unless its assertion fails. -/
def mcRdmaPutColoCtrlBuffer (kind : Kind) (size : ℕ) (rdmaBuffer : Memory) :
    Option (Channel × Msg) :=
  let len := size % 2 ^ 32
  if (len + sizeofControlHeader) % 2 ^ 32 ≤ MC_RDMA_CONTROL_RESERVED_RECV_BUFFER then
    some (.ctrl, ⟨kind, rdmaBuffer.read len 0⟩)
  else none

/-- `mc_rdma_get_colo_ctrl_buffer` does not look at the size it is asked for. -/
def mcRdmaGetColoCtrlBuffer (m : Msg) (rdmaBuffer : Memory) : Memory := rdmaBuffer.store 0 m.bytes

/-- `colo_send_message`: the number of the message, in network order. -/
def coloSendMessage (kind : Kind) (msg : ColoMessage) : Option (Channel × Msg) :=
  some (.file, ⟨kind, (Memory.bytesOf 4 msg.toNat).reverse⟩)

def coloReceiveMessage (m : Msg) : ℕ := Memory.ofBytes m.bytes.reverse

/-! ### The primary -/

inductive PrimaryPc
  | prepare | awaitReady | sendSyncType
  | request | sync | getBitmap | putBitmap | getHashes | saveLive
  | sendSize | sendValue | sendState | awaitLoaded | checkShutdown
  | out | exited | aborted
deriving DecidableEq

structure Primary where
  pc : PrimaryPc
  syncType : UInt32
  rdmaBuffer : Memory
  bitmap : Bitmap
  orBitmap : Bitmap
  /-- The device state in `buffer`. -/
  device : List UInt8

/-- Write the control buffer and put what was written. -/
def Primary.send (p : Primary) (kind : Kind) (bytes : List UInt8) (next : PrimaryPc) :
    Primary × Option (Channel × Msg) :=
  let rdmaBuffer := p.rdmaBuffer.store 0 bytes
  match mcRdmaPutColoCtrlBuffer kind bytes.length rdmaBuffer with
  | none => ({ p with pc := .aborted }, none)
  | some m => ({ p with rdmaBuffer := rdmaBuffer, pc := next }, some m)

/-- `colo_process_checkpoint` with `colo_do_checkpoint_transaction` and `ram_save_complete`. -/
def primary (pages : ℕ) : Party Primary Input Channel Msg := fun p =>
  match p.pc with
  | .prepare => .act fun i => ({ p with pc := .awaitReady }, some (.file, ⟨.stateBegin, i.stream⟩))
  | .awaitReady =>
    .recv .file fun m =>
      { p with
        pc := if coloReceiveMessage m = ColoMessage.checkpointReady.toNat then .sendSyncType
          else .out }
  | .sendSyncType => .act fun _ => p.send .syncType (Memory.bytesOf 4 p.syncType.toNat) .request
  | .request =>
    -- In the other modes the backup does not wait for the request.
    .act fun _ => ({ p with pc := .sync },
      if p.syncType = CHECK_IDLE_SYNC then some (.log, ⟨.checkpointRequest, []⟩) else none)
  | .sync => .act fun i => ({ p with bitmap := i.dirty, pc := .getBitmap }, none)
  | .getBitmap =>
    .recv .ctrl fun m =>
      let rdmaBuffer := mcRdmaGetColoCtrlBuffer m p.rdmaBuffer
      { p with
        rdmaBuffer := rdmaBuffer
        orBitmap := bitmapOr p.bitmap (bitmapOfBytes (rdmaBuffer.read (bitmapSize pages) 0))
        pc := .putBitmap }
  | .putBitmap =>
    .act fun _ => p.send .primaryBitmap (bitmapBytes p.bitmap (bitmapSize pages)) .getHashes
  | .getHashes =>
    .recv .ctrl fun m =>
      { p with rdmaBuffer := mcRdmaGetColoCtrlBuffer m p.rdmaBuffer, pc := .saveLive }
  | .saveLive =>
    .act fun i =>
      ({ p with device := i.device, pc := .sendSize }, some (.file, ⟨.liveState, i.stream⟩))
  | .sendSize =>
    .act fun _ => p.send .vmstateSize (Memory.bytesOf 4 ColoMessage.vmstateSize.toNat) .sendValue
  | .sendValue => .act fun _ => p.send .sizeValue (Memory.bytesOf 8 p.device.length) .sendState
  | .sendState => .act fun _ => p.send .deviceState p.device .awaitLoaded
  | .awaitLoaded =>
    -- After a wrong message the transaction returns zero, and the next one begins.
    .recv .ctrl fun m =>
      let rdmaBuffer := mcRdmaGetColoCtrlBuffer m p.rdmaBuffer
      { p with
        rdmaBuffer := rdmaBuffer
        pc := if rdmaBuffer.load 4 0 = ColoMessage.vmstateLoaded.toNat then .checkShutdown
          else .request }
  | .checkShutdown =>
    .act fun i =>
      if i.shutdown then ({ p with pc := .exited }, coloSendMessage .guestShutdown .guestShutdown)
      else ({ p with pc := .request }, none)
  | .out | .exited | .aborted => .halt

/-- The length of the hash list of the primary, which is what it reads of the list it gets. -/
def hashNbytes (orBitmap : Bitmap) (pages : ℕ) : ℕ :=
  ((range nthread).map fun t => (threadPages orBitmap pages t).length * sizeofHash).sum

/-- The message is of the kind and the length that the primary waits for. -/
def Primary.Expects (pages : ℕ) (p : Primary) (m : Msg) : Prop :=
  match p.pc with
  | .awaitReady => m.kind = .checkpointReady ∧ m.bytes.length = 4
  | .getBitmap => m.kind = .backupBitmap ∧ m.bytes.length = bitmapSize pages
  | .getHashes => m.kind = .hashList ∧ m.bytes.length = hashNbytes p.orBitmap pages
  | .awaitLoaded => m.kind = .vmstateLoaded ∧ m.bytes.length = 4
  | _ => False

/-! ### The backup -/

inductive BackupPc
  | prepare | sendReady | getSyncType
  | await | putBitmap | getBitmap | putHashes | load
  | getSize | getValue | getState | sendLoaded
  | out | aborted
deriving DecidableEq

structure Backup where
  pc : BackupPc
  syncType : UInt32
  rdmaBuffer : Memory
  bitmap : Bitmap
  orBitmap : Bitmap
  value : ℕ

def Backup.send (b : Backup) (kind : Kind) (bytes : List UInt8) (next : BackupPc) :
    Backup × Option (Channel × Msg) :=
  let rdmaBuffer := b.rdmaBuffer.store 0 bytes
  match mcRdmaPutColoCtrlBuffer kind bytes.length rdmaBuffer with
  | none => ({ b with pc := .aborted }, none)
  | some m => ({ b with rdmaBuffer := rdmaBuffer, pc := next }, some m)

/-- `colo_process_incoming_thread` with `backup_prepare_bitmap`. -/
def backup (pages : ℕ) : Party Backup Input Channel Msg := fun b =>
  match b.pc with
  | .prepare => .recv .file fun _ => { b with pc := .sendReady }
  | .sendReady =>
    .act fun _ => ({ b with pc := .getSyncType }, coloSendMessage .checkpointReady .checkpointReady)
  | .getSyncType =>
    .recv .ctrl fun m =>
      let rdmaBuffer := mcRdmaGetColoCtrlBuffer m b.rdmaBuffer
      { b with
        rdmaBuffer := rdmaBuffer
        syncType := UInt32.ofNat (rdmaBuffer.load 4 0)
        pc := .await }
  | .await =>
    if b.syncType = CHECK_IDLE_SYNC then .recv .log fun _ => { b with pc := .putBitmap }
    else .act fun _ => ({ b with pc := .putBitmap }, none)
  | .putBitmap =>
    .act fun i =>
      Backup.send { b with bitmap := i.dirty } .backupBitmap
        (bitmapBytes i.dirty (bitmapSize pages)) .getBitmap
  | .getBitmap =>
    .recv .ctrl fun m =>
      let rdmaBuffer := mcRdmaGetColoCtrlBuffer m b.rdmaBuffer
      { b with
        rdmaBuffer := rdmaBuffer
        orBitmap := bitmapOr (bitmapOfBytes (rdmaBuffer.read m.bytes.length 0)) b.bitmap
        pc := .putHashes }
  | .putHashes =>
    .act fun i =>
      b.send .hashList
        ((HashList.compute i.hash b.orBitmap pages).pack.flatMap (Memory.bytesOf sizeofHash)) .load
  | .load => .recv .file fun _ => { b with pc := .getSize }
  | .getSize =>
    .recv .ctrl fun m =>
      let rdmaBuffer := mcRdmaGetColoCtrlBuffer m b.rdmaBuffer
      { b with
        rdmaBuffer := rdmaBuffer
        pc := if rdmaBuffer.load 4 0 = ColoMessage.vmstateSize.toNat then .getValue else .out }
  | .getValue =>
    .recv .ctrl fun m =>
      let rdmaBuffer := mcRdmaGetColoCtrlBuffer m b.rdmaBuffer
      { b with rdmaBuffer := rdmaBuffer, value := rdmaBuffer.load 8 0, pc := .getState }
  | .getState =>
    .recv .ctrl fun m =>
      { b with
        rdmaBuffer := mcRdmaGetColoCtrlBuffer m b.rdmaBuffer
        pc := if m.bytes.length = b.value then .sendLoaded else .out }
  | .sendLoaded =>
    .act fun _ => b.send .vmstateLoaded (Memory.bytesOf 4 ColoMessage.vmstateLoaded.toNat) .await
  | .out | .aborted => .halt

/-- The message is of the kind and the length that the backup waits for. The parts of the migration
stream and the checkpoint request have no length of their own. -/
def Backup.Expects (pages : ℕ) (b : Backup) (m : Msg) : Prop :=
  match b.pc with
  | .prepare => m.kind = .stateBegin
  | .getSyncType => m.kind = .syncType ∧ m.bytes.length = 4
  | .await => m.kind = .checkpointRequest
  | .getBitmap => m.kind = .primaryBitmap ∧ m.bytes.length = bitmapSize pages
  | .load => m.kind = .liveState
  | .getSize => m.kind = .vmstateSize ∧ m.bytes.length = 4
  | .getValue => m.kind = .sizeValue ∧ m.bytes.length = 8
  | .getState => m.kind = .deviceState ∧ m.bytes.length = b.value
  | _ => False

def start (syncType : UInt32) : Net Primary Backup Channel Msg where
  first := ⟨.prepare, syncType, fun _ => 0, bitmapZero, bitmapZero, []⟩
  second := ⟨.prepare, 0, fun _ => 0, bitmapZero, bitmapZero, 0⟩
  toFirst _ := []
  toSecond _ := []

def checkpoints (pages : ℕ) : System (Net Primary Backup Channel Msg) (Move Input) :=
  session (primary pages) (backup pages)

/-! ### The condition -/

/-- The bytes fit into the control buffer. -/
def Fits (n : ℕ) : Prop := n + sizeofControlHeader ≤ MC_RDMA_CONTROL_RESERVED_RECV_BUFFER

instance (n : ℕ) : Decidable (Fits n) := by unfold Fits; infer_instance

/-- The device state fits, and no shutdown has been requested when the primary looks. -/
def Quiet (p : Primary) (i : Input) : Prop :=
  (p.pc = .saveLive → Fits i.device.length) ∧ (p.pc = .checkShutdown → i.shutdown = false)

instance (p : Primary) (i : Input) : Decidable (Quiet p i) := by unfold Quiet; infer_instance

instance (s : Net Primary Backup Channel Msg) (e : Move Input) :
    Decidable (both Quiet (fun _ _ => True) s e) := by
  cases e <;> unfold both <;> infer_instance

/-! ### Puts and gets -/

section Buffer

variable {n : ℕ} {kind : Kind} {bytes : List UInt8} {pages : ℕ} {orBitmap : Bitmap}

theorem mcRdmaPutColoCtrlBuffer_eq (h : Fits n) (rdmaBuffer : Memory) :
    mcRdmaPutColoCtrlBuffer kind n rdmaBuffer = some (.ctrl, ⟨kind, rdmaBuffer.read n 0⟩) := by
  have hn : n + 16 ≤ 135266304 := h
  have hlen : n % 2 ^ 32 = n := Nat.mod_eq_of_lt (by omega)
  rw [mcRdmaPutColoCtrlBuffer, hlen]
  refine if_pos ?_
  show (n + 16) % 2 ^ 32 ≤ 135266304
  omega

theorem Primary.send_eq (p : Primary) (h : Fits bytes.length) (next : PrimaryPc) :
    p.send kind bytes next = ({ p with rdmaBuffer := p.rdmaBuffer.store 0 bytes, pc := next },
        some (.ctrl, ⟨kind, bytes⟩)) := by
  rw [Primary.send, mcRdmaPutColoCtrlBuffer_eq h]
  dsimp only
  rw [Memory.read_store]

theorem Primary.send_snd_ne_none (p : Primary) (h : Fits bytes.length) (next : PrimaryPc) :
    (p.send kind bytes next).2 ≠ none := by
  rw [p.send_eq h]
  exact some_ne_none _

theorem Backup.send_eq (b : Backup) (h : Fits bytes.length) (next : BackupPc) :
    b.send kind bytes next = ({ b with rdmaBuffer := b.rdmaBuffer.store 0 bytes, pc := next },
        some (.ctrl, ⟨kind, bytes⟩)) := by
  rw [Backup.send, mcRdmaPutColoCtrlBuffer_eq h]
  dsimp only
  rw [Memory.read_store]

theorem Backup.send_snd_ne_none (b : Backup) (h : Fits bytes.length) (next : BackupPc) :
    (b.send kind bytes next).2 ≠ none := by
  rw [b.send_eq h]
  exact some_ne_none _

theorem load_get (v : ℕ) (rdmaBuffer : Memory) :
    (mcRdmaGetColoCtrlBuffer ⟨kind, Memory.bytesOf n v⟩ rdmaBuffer).load n 0 = v % 256 ^ n :=
  Memory.load_store ..

theorem read_get (rdmaBuffer : Memory) (h : bytes.length = n) :
    (mcRdmaGetColoCtrlBuffer ⟨kind, bytes⟩ rdmaBuffer).read n 0 = bytes := by
  subst h
  exact Memory.read_store ..

theorem fits_bytesOf {v : ℕ} (h : n ≤ 8) : Fits (Memory.bytesOf n v).length := by
  rw [Memory.length_bytesOf]
  show n + 16 ≤ 135266304
  omega

theorem fits_bitmap (h : Fits (sizeofHash * pages)) (bitmap : Bitmap) :
    Fits (bitmapBytes bitmap (bitmapSize pages)).length := by
  have hp : 8 * pages + 16 ≤ 135266304 := h
  rw [length_bitmapBytes]
  show (pages + 63) / 64 * 8 + 16 ≤ 135266304
  omega

theorem bitmapOfBytes_of_size {bitmap : Bitmap} {p : ℕ} (hp : p < pages) :
    bitmapOfBytes (bitmapBytes bitmap (bitmapSize pages)) p = bitmap p :=
  bitmapOfBytes_bitmapBytes (by unfold bitmapSize; omega)

theorem length_flatMap_bytesOf (l : List ℕ) :
    (l.flatMap (Memory.bytesOf sizeofHash)).length = l.length * sizeofHash := by
  induction l with
  | nil => exact (Nat.zero_mul _).symm
  | cons a l ih =>
    rw [flatMap_cons, length_append, ih, Memory.length_bytesOf, length_cons,
      Nat.succ_mul, Nat.add_comm]

theorem length_hashes (hash : ℕ → ℕ) :
    ((HashList.compute hash orBitmap pages).pack.flatMap (Memory.bytesOf sizeofHash)).length =
      hashNbytes orBitmap pages := by
  rw [HashList.pack, flatMap_assoc, length_flatMap, hashNbytes]
  simp only [length_flatMap_bytesOf, HashList.compute, length_map]

theorem hashNbytes_congr {orBitmap' : Bitmap} (h : ∀ p < pages, orBitmap p = orBitmap' p) :
    hashNbytes orBitmap pages = hashNbytes orBitmap' pages := by
  rw [hashNbytes, hashNbytes, threadPages_congr h]

theorem fits_hashes (h : Fits (sizeofHash * pages)) (hash : ℕ → ℕ) :
    Fits ((HashList.compute hash orBitmap pages).pack.flatMap
      (Memory.bytesOf sizeofHash)).length := by
  have hle : (HashList.compute hash orBitmap pages).pack.length ≤ pages := by
    have h : ((range nthread).flatMap (threadPages orBitmap pages)).length ≤ pages :=
      length_flatMap_threadPages_le
    rw [length_flatMap] at h
    rw [HashList.pack, length_flatMap]
    simpa only [HashList.compute, length_map] using h
  rw [length_flatMap_bytesOf, Nat.mul_comm]
  exact (Nat.add_le_add_right (Nat.mul_le_mul_left _ hle) _).trans h

end Buffer

/-! ### Level threads -/

/-- The threads are at the same message, and know what the other one has told. -/
inductive Level (pages : ℕ) (p : Primary) (b : Backup) : Prop
  | prepare (hp : p.pc = .prepare) (hb : b.pc = .prepare)
  | ready (hp : p.pc = .awaitReady) (hb : b.pc = .sendReady)
  | syncType (hp : p.pc = .sendSyncType) (hb : b.pc = .getSyncType)
  /-- Only with requests does the backup wait for the primary to begin the next checkpoint. -/
  | between
      (hp : p.pc = .checkShutdown ∨ p.pc = .request ∨ p.pc = .sync ∨ p.pc = .getBitmap)
      (hb : b.pc = .await ∨ b.pc = .putBitmap) (hsync : b.syncType = p.syncType)
      (hidle : b.syncType = CHECK_IDLE_SYNC →
        (b.pc = .await ↔ p.pc = .checkShutdown ∨ p.pc = .request))
  | answer (hp : p.pc = .putBitmap) (hb : b.pc = .getBitmap) (hsync : b.syncType = p.syncType)
      (hor : ∀ n < pages, p.orBitmap n = (p.bitmap n || b.bitmap n))
  | hashes (hp : p.pc = .getHashes) (hb : b.pc = .putHashes) (hsync : b.syncType = p.syncType)
      (hor : ∀ n < pages, b.orBitmap n = p.orBitmap n)
  | live (hp : p.pc = .saveLive) (hb : b.pc = .load) (hsync : b.syncType = p.syncType)
  | size (hp : p.pc = .sendSize) (hb : b.pc = .getSize) (hsync : b.syncType = p.syncType)
      (hfits : Fits p.device.length)
  | value (hp : p.pc = .sendValue) (hb : b.pc = .getValue) (hsync : b.syncType = p.syncType)
      (hfits : Fits p.device.length)
  | state (hp : p.pc = .sendState) (hb : b.pc = .getState) (hsync : b.syncType = p.syncType)
      (hfits : Fits p.device.length) (hvalue : b.value = p.device.length)
  | loaded (hp : p.pc = .awaitLoaded) (hb : b.pc = .sendLoaded) (hsync : b.syncType = p.syncType)

variable {pages : ℕ} {p : Primary} {b : Backup} {i : Input}

abbrev Served (pages : ℕ) : Primary × Option (Channel × Msg) → Backup → Prop :=
  Meets (backup pages) (fun _ (_ : Input) => True) (Backup.Expects pages) (Level pages)

abbrev Answered (pages : ℕ) : Backup × Option (Channel × Msg) → Primary → Prop :=
  Meets (primary pages) Quiet (Primary.Expects pages) fun b p => Level pages p b

/-! ### Steps of the primary -/

theorem served_begin {p' : Primary} {bytes : List UInt8} (hp : p'.pc = .awaitReady)
    (hb : b.pc = .prepare) : Served pages (p', some (.file, ⟨.stateBegin, bytes⟩)) b := by
  obtain ⟨_, _, _, _, _, _⟩ := b
  cases hb
  exact Meets.put rfl rfl (.ready hp rfl)

theorem served_request (hp : p.pc = .request) (hb : b.pc = .await ∨ b.pc = .putBitmap)
    (hsync : b.syncType = p.syncType) (hidle : b.syncType = CHECK_IDLE_SYNC →
      (b.pc = .await ↔ p.pc = .checkShutdown ∨ p.pc = .request)) :
    Served pages ({ p with pc := .sync },
      if p.syncType = CHECK_IDLE_SYNC then some (.log, ⟨.checkpointRequest, []⟩) else none) b := by
  by_cases hm : p.syncType = CHECK_IDLE_SYNC
  · have ha : b.pc = .await := (hidle (hsync.trans hm)).mpr (.inr hp)
    have hrecv : backup pages b = .recv .log fun _ => { b with pc := .putBitmap } := by
      simp only [backup, ha, hsync, hm, if_true]
    rw [if_pos hm]
    refine Meets.put hrecv ?_ (.between (.inr (.inr (.inl rfl))) (.inr rfl) hsync ?_)
    · simp only [Backup.Expects, ha]
    · simp
  · rw [if_neg hm]
    refine Meets.quiet (.between (.inr (.inr (.inl rfl))) hb hsync fun h => ?_)
    exact absurd (hsync.symm.trans h) hm

theorem served_sync (dirty : Bitmap) (hp : p.pc = .sync) (hb : b.pc = .await ∨ b.pc = .putBitmap)
    (hsync : b.syncType = p.syncType) (hidle : b.syncType = CHECK_IDLE_SYNC →
      (b.pc = .await ↔ p.pc = .checkShutdown ∨ p.pc = .request)) :
    Served pages ({ p with bitmap := dirty, pc := .getBitmap }, none) b := by
  refine Meets.quiet (.between (.inr (.inr (.inr rfl))) hb hsync fun h => ?_)
  rw [hidle h, hp]
  simp

theorem served_bitmap (hp : Fits (sizeofHash * pages)) (hb : b.pc = .getBitmap)
    (hsync : b.syncType = p.syncType)
    (hor : ∀ n < pages, p.orBitmap n = (p.bitmap n || b.bitmap n)) : Served pages
      (p.send .primaryBitmap (bitmapBytes p.bitmap (bitmapSize pages)) .getHashes) b := by
  rw [p.send_eq (fits_bitmap hp _)]
  obtain ⟨_, _, _, _, _, _⟩ := b
  cases hb
  refine Meets.put rfl ?_ (.hashes rfl rfl hsync fun n hn => ?_)
  · simp [Backup.Expects]
  · show bitmapOr (bitmapOfBytes (Memory.read _ _ 0)) _ n = p.orBitmap n
    rw [read_get _ rfl, bitmapOr, bitmapOfBytes_of_size hn, hor n hn]

theorem served_live {p' : Primary} {bytes : List UInt8} (hp : p'.pc = .sendSize)
    (hfits : Fits p'.device.length) (hb : b.pc = .load) (hsync : b.syncType = p'.syncType) :
    Served pages (p', some (.file, ⟨.liveState, bytes⟩)) b := by
  obtain ⟨_, _, _, _, _, _⟩ := b
  cases hb
  exact Meets.put rfl rfl (.size hp rfl hsync hfits)

theorem served_size (hb : b.pc = .getSize) (hsync : b.syncType = p.syncType)
    (hfits : Fits p.device.length) : Served pages
      (p.send .vmstateSize (Memory.bytesOf 4 ColoMessage.vmstateSize.toNat) .sendValue) b := by
  rw [p.send_eq (fits_bytesOf (by decide))]
  obtain ⟨_, _, _, _, _, _⟩ := b
  cases hb
  refine Meets.put rfl ?_ (.value rfl ?_ hsync hfits)
  · simp [Backup.Expects]
  · dsimp only
    exact if_pos ((load_get _ _).trans rfl)

theorem served_value (hb : b.pc = .getValue) (hsync : b.syncType = p.syncType)
    (hfits : Fits p.device.length) :
    Served pages (p.send .sizeValue (Memory.bytesOf 8 p.device.length) .sendState) b := by
  have hlt : p.device.length + 16 ≤ 135266304 := hfits
  rw [p.send_eq (fits_bytesOf (by decide))]
  obtain ⟨_, _, _, _, _, _⟩ := b
  cases hb
  refine Meets.put rfl ?_ (.state rfl rfl hsync hfits ?_)
  · simp [Backup.Expects]
  · exact (load_get _ _).trans (Nat.mod_eq_of_lt (by omega))

theorem served_state (hb : b.pc = .getState) (hsync : b.syncType = p.syncType)
    (hfits : Fits p.device.length) (hvalue : b.value = p.device.length) :
    Served pages (p.send .deviceState p.device .awaitLoaded) b := by
  rw [p.send_eq hfits]
  obtain ⟨_, _, _, _, _, _⟩ := b
  cases hb
  refine Meets.put rfl ?_ (.loaded rfl ?_ hsync)
  · exact ⟨rfl, hvalue.symm⟩
  · exact if_pos hvalue.symm

theorem served_syncType (hb : b.pc = .getSyncType) :
    Served pages (p.send .syncType (Memory.bytesOf 4 p.syncType.toNat) .request) b := by
  rw [p.send_eq (fits_bytesOf (by decide))]
  obtain ⟨_, _, _, _, _, _⟩ := b
  cases hb
  refine Meets.put rfl ?_
    (.between (.inr (.inl rfl)) (.inl rfl) ?_ fun _ => ?_)
  · simp [Backup.Expects]
  · show UInt32.ofNat (Memory.load _ 4 0) = p.syncType
    rw [load_get, Nat.mod_eq_of_lt (b := 256 ^ 4) p.syncType.toNat_lt, UInt32.ofNat_toNat]
  · simp

/-! ### Steps of the backup -/

theorem answered_ready (hp : p.pc = .awaitReady) {b' : Backup} (hb : b'.pc = .getSyncType) :
    Answered pages (b', coloSendMessage .checkpointReady .checkpointReady) p := by
  obtain ⟨_, _, _, _, _, _⟩ := p
  cases hp
  have hr : coloReceiveMessage ⟨.checkpointReady, (Memory.bytesOf 4
      ColoMessage.checkpointReady.toNat).reverse⟩ = ColoMessage.checkpointReady.toNat := by decide
  refine Meets.put rfl ?_ (.syncType (if_pos hr (e := .out)) hb)
  simp [Primary.Expects]

/-- What the backup does when it offers its bitmap. -/
def Backup.offer (pages : ℕ) (b : Backup) : Backup × Option (Channel × Msg) :=
  b.send .backupBitmap (bitmapBytes b.bitmap (bitmapSize pages)) .getBitmap

theorem answered_bitmap (hpa : Fits (sizeofHash * pages)) (hp : p.pc = .getBitmap)
    (hsync : b.syncType = p.syncType) : Answered pages (b.offer pages) p := by
  rw [Backup.offer, b.send_eq (fits_bitmap hpa _)]
  obtain ⟨_, _, _, _, _, _⟩ := p
  cases hp
  refine Meets.put rfl ?_ (.answer rfl rfl hsync fun n hn => ?_)
  · simp [Primary.Expects]
  · show bitmapOr _ (bitmapOfBytes (Memory.read _ _ 0)) n = (_ || b.bitmap n)
    rw [read_get _ (length_bitmapBytes ..), bitmapOr, bitmapOfBytes_of_size hn]

theorem answered_bitmap_of_sync (hpa : Fits (sizeofHash * pages)) (hp : p.pc = .sync)
    (hsync : b.syncType = p.syncType) : Answered pages (b.offer pages) p := by
  obtain ⟨_, _, _, _, _, _⟩ := p
  cases hp
  exact Meets.skip rfl (fun _ _ => rfl) fun _ _ => answered_bitmap hpa rfl hsync

theorem answered_bitmap_of_request (hpa : Fits (sizeofHash * pages)) (hp : p.pc = .request)
    (hsync : b.syncType = p.syncType) (hm : b.syncType ≠ CHECK_IDLE_SYNC) :
    Answered pages (b.offer pages) p := by
  obtain ⟨_, _, _, _, _, _⟩ := p
  cases hp
  exact Meets.skip rfl (fun _ _ => if_neg (hsync ▸ hm)) fun _ _ =>
    answered_bitmap_of_sync hpa rfl hsync

theorem answered_bitmap_between (hpa : Fits (sizeofHash * pages))
    (hp : p.pc = .checkShutdown ∨ p.pc = .request ∨ p.pc = .sync ∨ p.pc = .getBitmap)
    (hsync : b.syncType = p.syncType)
    (hidle : b.syncType = CHECK_IDLE_SYNC → ¬ (p.pc = .checkShutdown ∨ p.pc = .request)) :
    Answered pages (b.offer pages) p := by
  rcases hp with hp | hp | hp | hp
  · have hm : b.syncType ≠ CHECK_IDLE_SYNC := fun h => hidle h (.inl hp)
    have hquiet : ∀ i, Quiet p i → i.shutdown = false := fun _ h => h.2 hp
    obtain ⟨_, _, _, _, _, _⟩ := p
    cases hp
    refine Meets.skip rfl (fun i hi => ?_) fun i hi => ?_
    · rw [hquiet i hi]
      rfl
    · rw [hquiet i hi]
      exact answered_bitmap_of_request hpa rfl hsync hm
  · exact answered_bitmap_of_request hpa hp hsync fun h => hidle h (.inr hp)
  · exact answered_bitmap_of_sync hpa hp hsync
  · exact answered_bitmap hpa hp hsync

theorem answered_hashes (hpa : Fits (sizeofHash * pages)) (hash : ℕ → ℕ)
    (hp : p.pc = .getHashes) (hsync : b.syncType = p.syncType)
    (hor : ∀ n < pages, b.orBitmap n = p.orBitmap n) :
    Answered pages (b.send .hashList ((HashList.compute hash b.orBitmap pages).pack.flatMap
      (Memory.bytesOf sizeofHash)) .load) p := by
  rw [b.send_eq (fits_hashes hpa _)]
  obtain ⟨_, _, _, _, _, _⟩ := p
  cases hp
  refine Meets.put rfl ⟨rfl, ?_⟩ (.live rfl rfl hsync)
  rw [length_hashes]
  exact hashNbytes_congr hor

theorem answered_loaded (hp : p.pc = .awaitLoaded) (hsync : b.syncType = p.syncType) :
    Answered pages
      (b.send .vmstateLoaded (Memory.bytesOf 4 ColoMessage.vmstateLoaded.toNat) .await) p := by
  rw [b.send_eq (fits_bytesOf (by decide))]
  obtain ⟨_, _, rdmaBuffer, _, _, _⟩ := p
  cases hp
  have hl : (if (mcRdmaGetColoCtrlBuffer ⟨.vmstateLoaded,
      Memory.bytesOf 4 ColoMessage.vmstateLoaded.toNat⟩ rdmaBuffer).load 4 0 =
        ColoMessage.vmstateLoaded.toNat then PrimaryPc.checkShutdown else .request) =
      .checkShutdown := if_pos ((load_get _ _).trans rfl)
  refine Meets.put rfl ?_ (.between (.inl hl) (.inl rfl) hsync fun _ => ?_)
  · simp [Primary.Expects]
  · exact ⟨fun _ => .inl hl, fun _ => rfl⟩

/-! ### Duality -/

theorem quiet_of_default (p : Primary) : ∃ i, Quiet p i :=
  ⟨⟨bitmapZero, [], [], fun _ => 0, false⟩, fun _ => by decide, fun _ => rfl⟩

theorem served_of_act (hpa : Fits (sizeofHash * pages)) (hl : Level pages p b)
    {next : Input → Primary × Option (Channel × Msg)} (hn : primary pages p = .act next)
    (hok : Quiet p i) : Served pages (next i) b := by
  obtain ⟨_, _, _, _, _, _⟩ := p
  cases hl with
  | prepare hp hb =>
    cases hp
    cases hn
    exact served_begin rfl hb
  | ready hp | hashes hp | loaded hp =>
    cases hp
    cases hn
  | syncType hp hb =>
    cases hp
    cases hn
    exact served_syncType hb
  | between hp hb hsync hidle =>
    rcases hp with hp | hp | hp | hp <;> cases hp <;> cases hn
    · dsimp only
      rw [hok.2 rfl]
      refine Meets.quiet (.between (.inr (.inl rfl)) hb hsync fun h => ?_)
      rw [hidle h]
      simp
    · exact served_request rfl hb hsync hidle
    · exact served_sync i.dirty rfl hb hsync hidle
  | answer hp hb hsync hor =>
    cases hp
    cases hn
    exact served_bitmap hpa hb hsync hor
  | live hp hb hsync =>
    cases hp
    cases hn
    exact served_live rfl (hok.1 rfl) hb hsync
  | size hp hb hsync hfits =>
    cases hp
    cases hn
    exact served_size hb hsync hfits
  | value hp hb hsync hfits =>
    cases hp
    cases hn
    exact served_value hb hsync hfits
  | state hp hb hsync hfits hvalue =>
    cases hp
    cases hn
    exact served_state hb hsync hfits hvalue

theorem answered_of_act (hpa : Fits (sizeofHash * pages)) (hl : Level pages p b)
    {next : Input → Backup × Option (Channel × Msg)} (hn : backup pages b = .act next) :
    Answered pages (next i) p := by
  obtain ⟨_, syncType, _, _, _, _⟩ := b
  cases hl with
  | prepare _ hb | syncType _ hb | answer _ hb | live _ hb | size _ hb | value _ hb | state _ hb =>
    cases hb
    cases hn
  | ready hp hb =>
    cases hb
    cases hn
    exact answered_ready hp rfl
  | between hp hb hsync hidle =>
    rcases hb with hb | hb <;> cases hb
    · by_cases hm : syncType = CHECK_IDLE_SYNC
      · cases (if_pos hm).symm.trans hn
      · cases (if_neg hm).symm.trans hn
        exact Meets.quiet (.between hp (.inr rfl) hsync fun h => absurd h hm)
    · cases hn
      refine answered_bitmap_between hpa hp hsync fun h => ?_
      rw [← hidle h]
      simp
  | hashes hp hb hsync hor =>
    cases hb
    cases hn
    exact answered_hashes hpa i.hash hp hsync hor
  | loaded hp hb hsync =>
    cases hb
    cases hn
    exact answered_loaded hp hsync

theorem act_of_backup_waits (hpa : Fits (sizeofHash * pages)) (hl : Level pages p b)
    {c : Channel} {take : Msg → Backup} (hrecv : backup pages b = .recv c take) :
    ∃ next, primary pages p = .act next ∧ ∀ i, Quiet p i → (next i).2 = none →
      (next i).1.pc = .request ∧ p.pc = .checkShutdown := by
  obtain ⟨_, _, _, _, _, _⟩ := p
  obtain ⟨_, syncType, _, _, _, _⟩ := b
  cases hl with
  | ready _ hb | hashes _ hb | loaded _ hb =>
    cases hb
    cases hrecv
  | prepare hp | live hp =>
    cases hp
    exact ⟨_, rfl, nofun⟩
  | syncType hp | size hp | value hp =>
    cases hp
    exact ⟨_, rfl, fun _ _ hn =>
      absurd hn (Primary.send_snd_ne_none _ (fits_bytesOf (by decide)) _)⟩
  | answer hp =>
    cases hp
    exact ⟨_, rfl, fun _ _ hn =>
      absurd hn (Primary.send_snd_ne_none _ (fits_bitmap hpa _) _)⟩
  | state hp _ _ hfits =>
    cases hp
    exact ⟨_, rfl, fun _ _ hn => absurd hn (Primary.send_snd_ne_none _ hfits _)⟩
  | between hp hb hsync hidle =>
    rcases hb with hb | hb <;> cases hb
    · by_cases hm : syncType = CHECK_IDLE_SYNC
      · rcases (hidle hm).mp rfl with hp | hp <;> cases hp
        · refine ⟨_, rfl, fun i hi _ => ⟨?_, rfl⟩⟩
          dsimp only
          rw [hi.2 rfl]
          rfl
        · refine ⟨_, rfl, fun i _ hn => ?_⟩
          cases (if_pos (hsync.symm.trans hm)).symm.trans hn
      · cases (if_neg hm).symm.trans hrecv
    · cases hrecv

theorem act_of_primary_waits (hpa : Fits (sizeofHash * pages)) (hl : Level pages p b)
    {c : Channel} {take : Msg → Primary} (hrecv : primary pages p = .recv c take) :
    ∃ next, backup pages b = .act next ∧ ∀ i : Input, (next i).2 = none →
      (next i).1.pc = .putBitmap ∧ b.pc = .await := by
  obtain ⟨_, _, _, _, _, _⟩ := p
  obtain ⟨_, syncType, _, _, _, _⟩ := b
  cases hl with
  | prepare hp | syncType hp | answer hp | live hp | size hp | value hp | state hp =>
    cases hp
    cases hrecv
  | ready _ hb =>
    cases hb
    exact ⟨_, rfl, nofun⟩
  | hashes _ hb =>
    cases hb
    exact ⟨_, rfl, fun _ hn =>
      absurd hn (Backup.send_snd_ne_none _ (fits_hashes hpa _) _)⟩
  | loaded _ hb =>
    cases hb
    exact ⟨_, rfl, fun _ hn =>
      absurd hn (Backup.send_snd_ne_none _ (fits_bytesOf (by decide)) _)⟩
  | between hp hb hsync hidle =>
    rcases hp with hp | hp | hp | hp <;> cases hp <;> cases hrecv
    rcases hb with hb | hb <;> cases hb
    · have hm : syncType ≠ CHECK_IDLE_SYNC := fun h => by simpa using (hidle h).mp rfl
      exact ⟨_, if_neg hm, fun _ _ => ⟨rfl, rfl⟩⟩
    · exact ⟨_, rfl, fun _ hn =>
        absurd hn (Backup.send_snd_ne_none _ (fits_bitmap hpa _) _)⟩

theorem primary_serves (hpa : Fits (sizeofHash * pages)) :
    Serves (primary pages) (backup pages) Quiet (fun _ _ => True) (Backup.Expects pages)
      (Level pages) fun p => if p.pc = .checkShutdown then 1 else 0 where
  meets hl hn hok := served_of_act hpa hl hn hok
  ready := quiet_of_default
  awaited hl hrecv := by
    obtain ⟨next, hn, hquiet⟩ := act_of_backup_waits hpa hl hrecv
    refine ⟨next, hn, fun i hok hno => ?_⟩
    obtain ⟨hne, hp⟩ := hquiet i hok hno
    rw [if_pos hp, if_neg (by rw [hne]; decide)]
    exact Nat.zero_lt_one

theorem backup_serves (hp : Fits (sizeofHash * pages)) :
    Serves (backup pages) (primary pages) (fun _ _ => True) Quiet (Primary.Expects pages)
      (fun b p => Level pages p b) fun b => if b.pc = .await then 1 else 0 where
  meets hl hn _ := answered_of_act hp hl hn
  ready _ := ⟨⟨bitmapZero, [], [], fun _ => 0, false⟩, trivial⟩
  awaited hl hrecv := by
    obtain ⟨next, hn, hquiet⟩ := act_of_primary_waits hp hl hrecv
    refine ⟨next, hn, fun i _ hno => ?_⟩
    obtain ⟨hne, hb⟩ := hquiet i hno
    rw [if_pos hb, if_neg (by rw [hne]; decide)]
    exact Nat.zero_lt_one

theorem sound_of_run (hp : Fits (sizeofHash * pages)) {syncType : UInt32}
    {s : Net Primary Backup Channel Msg}
    (hrun : (checkpoints pages).Run (both Quiet fun _ _ => True) (start syncType) s) :
    Sound (primary pages) (backup pages) Quiet (fun _ _ => True) (Primary.Expects pages)
      (Backup.Expects pages) (Level pages) s :=
  Run.invariant hrun (.inl ⟨.done (fun _ => rfl) (.prepare rfl rfl), fun _ => rfl⟩)
    fun _ _ _ h hok hs => h.step (primary_serves hp) (backup_serves hp) hok hs

/-- Whatever is in flight is taken by the other side where it waits for a message of that kind and
length; and a side that waits comes to have a message, whichever steps the other side takes. -/
theorem checkpoints_dual (hpages : Fits (sizeofHash * pages)) {syncType : UInt32}
    {s : Net Primary Backup Channel Msg}
    (hrun : (checkpoints pages).Run (both Quiet fun _ _ => True) (start syncType) s) :
    Absorbs (backup pages) (fun _ _ => True) (Backup.Expects pages) (fun _ => True)
        s.second s.toSecond ∧
      Absorbs (primary pages) Quiet (Primary.Expects pages) (fun _ => True) s.first s.toFirst ∧
      (∀ c take, backup pages s.second = .recv c take → s.toSecond c = [] →
        Inevitable (primary pages) Quiet (fun t => t.toSecond c ≠ []) s) ∧
      ∀ c take, primary pages s.first = .recv c take → s.toFirst c = [] →
        Inevitable (backup pages) (fun _ _ => True) (fun t => t.toSecond c ≠ []) s.swap := by
  have hsound := sound_of_run hpages hrun
  exact ⟨hsound.absorbs, hsound.swap.absorbs,
    fun c take hrecv hqueue => hsound.inevitable (primary_serves hpages) hrecv hqueue,
    fun c take hrecv hqueue => hsound.swap.inevitable (backup_serves hpages) hrecv hqueue⟩

/-! ### The checkpoint thread -/

section Thread

variable {pages : ℕ} {s t : Net Primary Backup Channel Msg} {i : Input} {pc next : PrimaryPc}
  {q : Colo.Primary} {es : List Event}

/-- Where the checkpoint thread is. -/
def PrimaryPc.thread : PrimaryPc → Pc
  | .prepare | .awaitReady => .setup
  | .sendSyncType => .loop
  | .request => .request
  | .sync | .getBitmap | .putBitmap | .getHashes | .saveLive => .save
  | .sendSize | .sendValue => .sendSize
  | .sendState => .sendState
  | .awaitLoaded | .checkShutdown => .receive
  | .out => .out
  | .exited | .aborted => .exited

/-- Where a step can lead that does not abort, and what the checkpoint thread does meanwhile. -/
def PrimaryPc.moves : PrimaryPc → List (PrimaryPc × List Event)
  | .prepare => [(.awaitReady, [])]
  | .awaitReady => [(.sendSyncType, [.setup true, .globalState 0]), (.out, [.setup false])]
  | .sendSyncType => [(.request, [.loop])]
  | .request => [(.sync, [.request true, .stop, .replicate true])]
  | .sync => [(.getBitmap, [])]
  | .getBitmap => [(.putBitmap, [])]
  | .putBitmap => [(.getHashes, [])]
  | .getHashes => [(.saveLive, [])]
  | .saveLive => [(.sendSize, [.save 0])]
  | .sendSize => [(.sendValue, [])]
  | .sendValue => [(.sendState, [.sendSize true])]
  | .sendState => [(.awaitLoaded, [.sendState 0])]
  | .awaitLoaded => [(.checkShutdown, []), (.request, [.receive (.got 0), .transactionOut, .loop])]
  | .checkShutdown =>
    [(.exited, [.shutdownRequest, .receive (.got 6)]),
      (.request, [.receive (.got 6), .startBuffer true true, .start, .flush true, .transactionOut,
        .loop])]
  | .out | .exited | .aborted => []

theorem Primary.send_pc {p : Primary} {kind : Kind} {bytes : List UInt8}
    (h : (p.send kind bytes next).1.pc ≠ .aborted) : (p.send kind bytes next).1.pc = next := by
  unfold Primary.send at h ⊢
  dsimp only at h ⊢
  split at h <;> simp_all

theorem mem_moves (h : moveFirst (primary pages) s i = some t) (ha : t.first.pc ≠ .aborted) :
    ∃ es, (t.first.pc, es) ∈ s.first.pc.moves := by
  obtain ⟨⟨pc, _, _, _, _, _⟩, _, _, _⟩ := s
  cases pc with
  | sendSyncType | putBitmap | sendSize | sendValue | sendState =>
    cases h
    rw [Primary.send_pc ha]
    exact ⟨_, mem_singleton_self _⟩
  | awaitReady | getBitmap | getHashes | awaitLoaded =>
    simp only [moveFirst, primary] at h
    split at h <;> cases h
    dsimp only
    repeat' split
    all_goals simp [PrimaryPc.moves]
  | out | exited | aborted => cases h
  | _ =>
    cases h
    dsimp only
    repeat' split
    all_goals simp [PrimaryPc.moves]

/-- The checkpoint thread is where the exchange has it, and will go on. -/
def Follows (pc : PrimaryPc) (q : Colo.Primary) : Prop :=
  q.pc = pc.thread ∧ q.colo = true ∧ q.failover = .none ∧ q.shutdownRequested = false ∧
    (q.pc = .receive → q.ret = 0)

instance (pc : PrimaryPc) (q : Colo.Primary) : Decidable (Follows pc q) := by
  unfold Follows
  infer_instance

theorem Follows.move (h : Follows pc q) (hm : (next, es) ∈ pc.moves) :
    ∃ q', Colo.primary.Run anyStep q q' ∧ Follows next q' := by
  obtain ⟨hpc, hc, hf, hs, hret⟩ := h
  obtain ⟨_, _, _, _, _, _, _, _, _⟩ := q
  cases hc
  cases hf
  cases hs
  refine exists_run_of_exec anyStep es ?_
  cases pc with
  | awaitLoaded | checkShutdown =>
    cases hpc
    cases hret rfl
    rcases hm with _ | ⟨_, _ | ⟨_, ⟨⟩⟩⟩ <;> rfl
  | _ =>
    cases hpc
    rcases hm with _ | ⟨_, _ | ⟨_, ⟨⟩⟩⟩ <;> rfl

theorem first_of_moveSecond
    (h : (moveFirst (backup pages) s.swap i).map Net.swap = some t) : t.first = s.first := by
  obtain ⟨r, hr, rfl⟩ := map_eq_some_iff.mp h
  unfold moveFirst at hr
  repeat' split at hr
  all_goals cases hr
  all_goals rfl

/-- Until it aborts, the primary of the exchange is where a run of the checkpoint thread is. -/
theorem follows_of_run {syncType : UInt32} {ok : Net Primary Backup Channel Msg → Move Input → Prop}
    (h : (checkpoints pages).Run ok (start syncType) s) : s.first.pc = .aborted ∨
      ∃ q, Colo.primary.Run anyStep .init q ∧ Follows s.first.pc q := by
  refine Run.invariant (I := fun s => s.first.pc = .aborted ∨
    ∃ q, Colo.primary.Run anyStep .init q ∧ Follows s.first.pc q) h ?_ ?_
  · exact .inr (exists_run_of_exec anyStep
      [.enableBuffering ⟨false, false, false, false, false, false, false⟩] rfl)
  · rintro a (i | i) b ha - hm
    · by_cases hb : b.first.pc = .aborted
      · exact .inl hb
      · obtain ⟨es, hes⟩ := mem_moves hm hb
        rcases ha with ha | ⟨q, hrun, hq⟩
        · rw [ha] at hes
          cases hes
        · obtain ⟨q', hrun', hq'⟩ := hq.move hes
          exact .inr ⟨q', hrun.trans hrun', hq'⟩
    · rwa [first_of_moveSecond hm]

end Thread

/-! ### Runs -/

def input (shutdown : Bool) : Input := ⟨(· == 0), [1, 2], [3, 4, 5], id, shutdown⟩

def firstHashes : List (Move Input) :=
  [.first (input false), .second (input false), .second (input false), .first (input false),
    .first (input false), .second (input false), .second (input false), .second (input false),
    .first (input false), .first (input false), .first (input false), .first (input false),
    .second (input false), .second (input false), .first (input false)]

/-- Three messages wait in the control buffer of the backup, which is still to load the RAM. -/
theorem checkpoints_dual_ahead : ∃ s, (checkpoints 1).Run (both Quiet fun _ _ => True) (start 2) s ∧
      (s.toSecond .ctrl).map Msg.kind = [.vmstateSize, .sizeValue, .deviceState] ∧
      s.second.pc = .load ∧ Absorbs (backup 1) (fun _ _ => True) (Backup.Expects 1) (fun _ => True)
        s.second s.toSecond := by
  obtain ⟨s, hrun, hctrl, hload⟩ :=
    System.exists_run_of_exec (M := checkpoints 1) (s := start 2) (both Quiet fun _ _ => True)
      (p := fun s => (s.toSecond .ctrl).map Msg.kind = [.vmstateSize, .sizeValue, .deviceState] ∧
        s.second.pc = .load)
      (firstHashes ++ replicate 4 (.first (input false))) (by decide +kernel)
  exact ⟨s, hrun, hctrl, hload, (checkpoints_dual (by decide) hrun).1⟩

/-- A shutdown is requested during the first checkpoint. The notice goes into the migration stream,
where the backup does not look for it; the primary has stopped, and the backup waits for the bitmap
of the next checkpoint. -/
theorem shutdown_not_taken : ∃ s, (checkpoints 1).Run anyStep (start 2) s ∧
      (s.toSecond .file).map Msg.kind = [.guestShutdown] ∧ primary 1 s.first = .halt ∧
      s.toSecond .ctrl = [] ∧ ∃ take, backup 1 s.second = .recv .ctrl take := by
  obtain ⟨s, hrun, hfile, hp, hctrl, hb⟩ :=
    System.exists_run_of_exec (M := checkpoints 1) (s := start 2) anyStep
      (p := fun s => (s.toSecond .file).map Msg.kind = [.guestShutdown] ∧ s.first.pc = .exited ∧
        s.toSecond .ctrl = [] ∧ s.second.pc = .getBitmap)
      (firstHashes ++ replicate 4 (.first (input false)) ++
        replicate 5 (.second (input false)) ++ replicate 2 (.first (input true)) ++
        replicate 2 (.second (input false))) (by decide +kernel)
  exact ⟨s, hrun, hfile, by rw [primary, hp], hctrl, _, by rw [backup, hb]⟩

end VmFt.Colo.Exchange
