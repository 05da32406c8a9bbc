import Mathlib.Data.Nat.Notation
import VmFt.Lib.Transition
import VmFt.Dare.SmRecovery
import VmFt.Proxy.RecordStore

/-! # Replies to requests for the state machine

A server answers the requests of servers that recover with the address and the
key of a snapshot. Whether there is a snapshot is remembered in a flag, where it
is only in a variable of the call that made it. A small snapshot is put into a
buffer that is registered at the start, a large one into memory that is allocated
and registered for it.
-/

namespace VmFt.Dare.SmReply

open VmFt.System VmFt.Memory List
open RecordStore (Store recordSize getRecordsLen dumpRecords dumpedBytes)

/-- `PREREG_SNAPSHOT_SIZE` -/
def preregSnapshotSize : ℕ := 128 * 4096

/-- `sizeof(snapshot_t)` -/
def sizeofSnapshot : ℕ := 32

/-- `snapshot_t`, with the bytes that were dumped into it. -/
structure Snapshot where
  lastEntry : Det
  len : ℕ
  data : List UInt8
  deriving DecidableEq

/-- The part of `sm_rep_t` that names the snapshot. -/
structure Reply where
  raddr : ℕ
  rkey : ℕ
  len : ℕ
  deriving DecidableEq

/-- The address of `data.prereg_snapshot`. -/
def preregSnapshot : ℕ := 1

/-- The key of `prereg_snapshot_mr`. -/
def preregKey : ℕ := 1

structure Server where
  idx : ℕ
  /-- `get_group_size` -/
  size : ℕ
  log : List Entry
  head : ℕ
  apply : ℕ
  commit : ℕ
  store : Store
  /-- The client entries applied so far, with their determinants. -/
  applied : List (Entry × Det)
  lastAppliedEntry : Det
  /-- The `SNAPSHOT` flag of `dare_state`. -/
  flag : Bool
  /-- `data.snapshot` -/
  snapshot : Option ℕ
  /-- The snapshots in allocated buffers. -/
  buffers : ℕ → Option Snapshot
  /-- The address that is allocated next. -/
  nextAddr : ℕ
  /-- `snapshot_mr`: its key and the address it is for. -/
  snapshotMr : Option (ℕ × ℕ)
  nextKey : ℕ
  /-- `ctrl_data->sm_req` -/
  smReq : ℕ → Bool
  /-- `ep->rc_connected` -/
  connected : ℕ → Bool
  /-- The replies sent since a snapshot was last made. -/
  sent : List Reply
  down : Bool

/-! ### Snapshots -/

/-- What is put into a snapshot. -/
def dumped (s : Server) : Snapshot :=
  { lastEntry := s.lastAppliedEntry
    len := getRecordsLen s.store
    data := (dumpRecords s.store fun _ => 0).read (dumpedBytes s.store) 0 }

/-- The buffers without the one that `data.snapshot` points to. -/
def freed (s : Server) : ℕ → Option Snapshot :=
  match s.snapshot with
  | none => s.buffers
  | some addr => Function.update s.buffers addr none

/-- The local variables `snapshot` and `reg_mem` of `poll_sm_requests`. -/
structure Locals where
  snapshot : ℕ
  regMem : Bool
  deriving DecidableEq

/-- The part of `poll_sm_requests` that makes a snapshot. -/
def createSnapshot (s : Server) (l : Locals) : Server × Locals :=
  if getRecordsLen s.store ≤ preregSnapshotSize then
    ({ s with
        buffers := Function.update s.buffers preregSnapshot (some (dumped s))
        flag := true
        sent := [] }, { l with snapshot := preregSnapshot })
  else
    ({ s with
        buffers := Function.update (freed s) s.nextAddr (some (dumped s))
        nextAddr := s.nextAddr + 1
        flag := true
        sent := [] }, ⟨s.nextAddr, true⟩)

/-- The registration of a snapshot in `rc_send_sm_reply`, in place of an earlier one. -/
def regSnapshot (l : Locals) (s : Server) : Server :=
  if l.regMem then { s with snapshotMr := some (s.nextKey, l.snapshot), nextKey := s.nextKey + 1 }
  else s

/-- The key of the region that `rc_send_sm_reply` takes for a snapshot. -/
def localKey (s : Server) (addr : ℕ) : Option ℕ :=
  if addr = preregSnapshot then some preregKey else s.snapshotMr.map Prod.fst

def remoteRead (s : Server) (addr key : ℕ) : Option Snapshot :=
  if key = preregKey ∧ addr = preregSnapshot ∨ s.snapshotMr = some (key, addr) then s.buffers addr
  else none

/-- `rc_send_sm_reply`; a region that was never registered is read through a null pointer. -/
def rcSendSmReply (target : ℕ) (l : Locals) (s : Server) : Server :=
  let s := regSnapshot l s
  match localKey s l.snapshot with
  | none => { s with down := true }
  | some key =>
    if s.connected target then
      let len := sizeofSnapshot + ((s.buffers l.snapshot).map Snapshot.len).getD 0
      { s with sent := s.sent ++ [⟨l.snapshot, key, len⟩] }
    else s

def ensureSnapshot (s : Server) (l : Locals) : Server × Locals :=
  if s.flag then (s, l) else createSnapshot s l

/-- The answer to a request of server `i`. -/
def answer (r : Server × Locals) (i : ℕ) : Server × Locals :=
  let r := ensureSnapshot { r.1 with smReq := Function.update r.1.smReq i false } r.2
  (rcSendSmReply i r.2 r.1, r.2)

/-- A round of `poll_sm_requests`. -/
def pollSmRequest (r : Server × Locals) (i : ℕ) : Server × Locals :=
  if i = r.1.idx ∨ r.1.smReq i = false then r else answer r i

/-- `poll_sm_requests`; `stale` is what the variable `snapshot` holds before it is set. -/
def pollSmRequests (stale : ℕ) (s : Server) : Server :=
  ((range s.size).foldl pollSmRequest (s, ⟨stale, false⟩)).1

def smRequest (i : ℕ) (s : Server) : Server :=
  { s with smReq := Function.update s.smReq i true }

/-! ### Runs -/

def isClient (e : Entry) : Bool := e.type ∉ [.noop, .config, .head]

/-- A round of `apply_committed_entries`; nothing is stored. -/
def applyCommittedEntry (s : Server) : Option Server :=
  if s.apply < s.commit then
    (s.log[s.apply]?).map fun e =>
      if isClient e then
        let det : Det := ⟨e.idx, e.term, s.apply + 1⟩
        { s with
          apply := s.apply + 1, applied := s.applied ++ [(e, det)], lastAppliedEntry := det }
      else { s with apply := s.apply + 1 }
  else none

inductive Event
  | append (e : Entry)
  | commit (offset : ℕ)
  | apply
  /-- The head offset is advanced, and the flag is cleared. -/
  | prune (offset : ℕ)
  | request (i : ℕ)
  | poll (stale : ℕ)
  deriving DecidableEq

def serverStep (s : Server) (e : Event) : Option Server :=
  if s.down then none
  else
    match e with
    | .append e => some { s with log := s.log ++ [e] }
    | .commit offset =>
      guarded (s.commit ≤ offset ∧ offset ≤ s.log.length) { s with commit := offset }
    | .apply => applyCommittedEntry s
    | .prune offset =>
      guarded (s.head ≤ offset ∧ offset ≤ s.apply) { s with head := offset, flag := false }
    | .request i => some (smRequest i s)
    | .poll stale => some (pollSmRequests stale s)

def server : System Server Event := ⟨serverStep⟩

def start (size idx : ℕ) (store : Store) : Server :=
  { idx := idx, size := size, log := [], head := 0, apply := 0, commit := 0, store := store
    applied := [], lastAppliedEntry := ⟨0, 0, 0⟩, flag := false, snapshot := none
    buffers := fun _ => none, nextAddr := 2, snapshotMr := none, nextKey := 2
    smReq := fun _ => false, connected := fun _ => true, sent := [], down := false }

/-! ### The model of the recovery -/

/-- The server as the model of the recovery sees it. -/
def Server.recovering (s : Server) : SmRecovery.Server :=
  { phase := .running, joined := false, leader := false, log := s.log, head := s.head
    apply := s.apply, commit := s.commit, db := [], lastAppliedEntry := s.lastAppliedEntry.offset
    snapshot := none, handed := SmRecovery.commands (s.applied.map Prod.fst) }

theorem applyCommittedEntry_recovering (s : Server) :
    SmRecovery.applyCommittedEntry s.recovering =
      (applyCommittedEntry s).map Server.recovering := by
  unfold SmRecovery.applyCommittedEntry applyCommittedEntry
  by_cases hlt : s.apply < s.commit
  · rw [if_pos hlt, if_pos (show s.recovering.apply < s.recovering.commit from hlt)]
    change Option.map _ (s.log[s.apply]?) = _
    cases s.log[s.apply]? with
    | none => rfl
    | some e =>
      cases he : e.type <;> simp [SmRecovery.command, isClient, he, Server.recovering,
        SmRecovery.commands]
  · rw [if_neg hlt]
    exact if_neg hlt

/-! ### What a snapshot describes -/

def typeCode : EntryType → UInt8
  | .noop => 0
  | .csm => 1
  | .config => 2
  | .head => 3
  | .mirror => RecordStore.MIRROR
  | .checkpoint => RecordStore.CHECKPOINT

def entryCmd (e : Entry) : List UInt8 :=
  match e.data with
  | .cmd bytes => bytes
  | _ => []

/-- The message that `&entry->clt_id` points to. -/
def entryMessage (e : Entry) : Memory := fun x =>
  (bytesOf 2 e.cltId ++ typeCode e.type :: replicate 5 0 ++ bytesOf 2 (entryCmd e).length ++
    entryCmd e).getD x 0

/-- The record that `proxy_store_cmd` makes of an entry. -/
def record (e : Entry) : Option (List UInt8) :=
  (recordSize (entryMessage e) 0).map fun size => (entryMessage e).read size 0

def records (applied : List (Entry × Det)) : List (List UInt8) :=
  applied.filterMap fun a => record a.1

def lastDet (applied : List (Entry × Det)) : Det := (applied.getLast?.map Prod.snd).getD ⟨0, 0, 0⟩

/-- The length is that of the data, and the data are the records of the commands up to the last
entry. -/
def Describes (applied : List (Entry × Det)) (snapshot : Snapshot) : Prop :=
  snapshot.len = snapshot.data.length ∧
    ∃ n, snapshot.data = (records (applied.take n)).flatten ∧
      snapshot.lastEntry = lastDet (applied.take n)

/-- The reply names a snapshot of the server that can be read under its key. -/
def Valid (s : Server) (x : Reply) : Prop :=
  ∃ snapshot, remoteRead s x.raddr x.rkey = some snapshot ∧
    x.len = sizeofSnapshot + snapshot.len ∧ Describes s.applied snapshot

/-- The servers whose requests are pending. -/
def asking (s : Server) : List ℕ :=
  (range s.size).filter fun i => ¬ (i = s.idx ∨ s.smReq i = false)

/-- When a request is answered, no snapshot is kept from an earlier call, the store holds the
commands that were applied, and the counter of their bytes is right. If the snapshot has to be
allocated, there is only one request. -/
def fresh (s : Server) : Event → Prop
  | .poll _ => asking s ≠ [] →
    s.flag = false ∧ s.store.records = records s.applied ∧
      dumpedBytes s.store = getRecordsLen s.store ∧
      (preregSnapshotSize < getRecordsLen s.store → (asking s).length = 1)
  | _ => True

instance (s : Server) (e : Event) : Decidable (fresh s e) := by
  rcases e <;> unfold fresh <;> infer_instance

/-! ### One call -/

variable {s t : Server} {l : Locals} {r : Server × Locals} {i stale : ℕ} {e : Event}

theorem Describes.append {applied : List (Entry × Det)} {snapshot : Snapshot}
    (h : Describes applied snapshot) (a : List (Entry × Det)) :
    Describes (applied ++ a) snapshot := by
  obtain ⟨hlen, n, hd, hl⟩ := h
  have ht : (applied ++ a).take (min n applied.length) = applied.take n := by
    rw [take_append_of_le_length (Nat.min_le_right _ _), take_eq_take_iff]
    omega
  exact ⟨hlen, min n applied.length, by rw [ht, hd], by rw [ht, hl]⟩

structure Sound (s : Server) : Prop where
  last : s.lastAppliedEntry = lastDet s.applied
  counter : getRecordsLen s.store < 2 ^ 32
  nextAddr : preregSnapshot < s.nextAddr
  sent : ∀ x ∈ s.sent, Valid s x

theorem describes_dumped (hs : Sound s) (hr : s.store.records = records s.applied)
    (hb : dumpedBytes s.store = getRecordsLen s.store) : Describes s.applied (dumped s) := by
  have hsi : s.store.records.flatten.length = dumpedBytes s.store := by
    rw [dumpedBytes, List.length_flatten]
  have hd : (dumped s).data = s.store.records.flatten := by
    have hc := hs.counter
    rw [dumped, dumpRecords, Framing.put_eq_store (by omega), ← hsi, read_store]
  refine ⟨?_, s.applied.length, ?_, ?_⟩
  · rw [hd, hsi, hb]
    rfl
  · rw [hd, take_length, hr]
  · rw [take_length]
    exact hs.last

/-- What an answer leaves alone. -/
structure Kept (s t : Server) : Prop where
  idx : t.idx = s.idx
  applied : t.applied = s.applied
  store : t.store = s.store
  last : t.lastAppliedEntry = s.lastAppliedEntry

theorem Kept.trans {u : Server} (h : Kept s t) (h' : Kept t u) : Kept s u :=
  ⟨h'.idx.trans h.idx, h'.applied.trans h.applied, h'.store.trans h.store, h'.last.trans h.last⟩

theorem rcSendSmReply_kept (i : ℕ) (l : Locals) (s : Server) : Kept s (rcSendSmReply i l s) ∧
    (rcSendSmReply i l s).smReq = s.smReq ∧ (rcSendSmReply i l s).buffers = s.buffers ∧
    (rcSendSmReply i l s).nextAddr = s.nextAddr := by
  unfold rcSendSmReply regSnapshot
  dsimp only
  repeat' split
  all_goals exact ⟨⟨rfl, rfl, rfl, rfl⟩, rfl, rfl, rfl⟩

theorem ensureSnapshot_kept (s : Server) (l : Locals) : Kept s (ensureSnapshot s l).1 ∧
    (ensureSnapshot s l).1.smReq = s.smReq ∧ s.nextAddr ≤ (ensureSnapshot s l).1.nextAddr := by
  unfold ensureSnapshot createSnapshot
  split_ifs <;> exact ⟨⟨rfl, rfl, rfl, rfl⟩, rfl, by simp⟩

theorem answer_kept (r : Server × Locals) (i : ℕ) : Kept r.1 (answer r i).1 ∧
    (answer r i).1.smReq = Function.update r.1.smReq i false ∧
    r.1.nextAddr ≤ (answer r i).1.nextAddr := by
  obtain ⟨he, hq, hn⟩ :=
    ensureSnapshot_kept { r.1 with smReq := Function.update r.1.smReq i false } r.2
  unfold answer
  generalize ensureSnapshot { r.1 with smReq := Function.update r.1.smReq i false } r.2 = c at *
  obtain ⟨hs, hq', -, hn'⟩ := rcSendSmReply_kept i c.2 c.1
  exact ⟨Kept.trans { he with } hs, hq'.trans hq, hn'.symm ▸ hn⟩

theorem foldl_answer_kept (is : List ℕ) (r : Server × Locals) : Kept r.1 (is.foldl answer r).1 ∧
    r.1.nextAddr ≤ (is.foldl answer r).1.nextAddr := by
  induction is generalizing r with
  | nil => exact ⟨⟨rfl, rfl, rfl, rfl⟩, Nat.le_refl _⟩
  | cons i is ih =>
    obtain ⟨hs, -, hn⟩ := answer_kept r i
    exact ⟨hs.trans (ih _).1, Nat.le_trans hn (ih _).2⟩

/-- The requests are those that are pending when the call begins. -/
theorem foldl_pollSmRequest {is : List ℕ} (hnd : is.Nodup) (r : Server × Locals) :
    is.foldl pollSmRequest r =
      (is.filter fun i => ¬ (i = r.1.idx ∨ r.1.smReq i = false)).foldl answer r := by
  induction is generalizing r with
  | nil => rfl
  | cons i is ih =>
    obtain ⟨hi, hrest⟩ := nodup_cons.mp hnd
    rw [foldl_cons, ih hrest, filter_cons]
    by_cases hs : i = r.1.idx ∨ r.1.smReq i = false
    · rw [pollSmRequest, if_pos hs, if_neg (by rw [decide_eq_true_eq]; exact not_not.mpr hs)]
    · obtain ⟨hk, hq, -⟩ := answer_kept r i
      rw [pollSmRequest, if_neg hs, if_pos (decide_eq_true hs), foldl_cons]
      congr 1
      refine filter_congr fun j hj => ?_
      rw [hk.idx, hq, Function.update_of_ne (ne_of_mem_of_not_mem hj hi)]

theorem pollSmRequests_eq (stale : ℕ) (s : Server) :
    pollSmRequests stale s = ((asking s).foldl answer (s, ⟨stale, false⟩)).1 := by
  rw [pollSmRequests, foldl_pollSmRequest nodup_range]
  rfl

theorem Valid.mono {x : Reply} (h : Valid s x) (a : List (Entry × Det))
    (ha : t.applied = s.applied ++ a) (hm : t.snapshotMr = s.snapshotMr)
    (hb : t.buffers = s.buffers) : Valid t x := by
  obtain ⟨snapshot, hr, hlen, hd⟩ := h
  refine ⟨snapshot, ?_, hlen, ha ▸ hd.append a⟩
  rwa [remoteRead, hm, hb]

/-- A snapshot in the buffer that is registered at the start is named by its reply. -/
theorem valid_prereg {snapshot : Snapshot} (hs : ∀ x ∈ s.sent, Valid s x)
    (hb : s.buffers preregSnapshot = some snapshot) (hd : Describes s.applied snapshot) :
    ∀ x ∈ (rcSendSmReply i ⟨preregSnapshot, false⟩ s).sent,
      Valid (rcSendSmReply i ⟨preregSnapshot, false⟩ s) x := by
  simp only [rcSendSmReply, regSnapshot, localKey, Bool.false_eq_true, if_false, if_true]
  split_ifs with hc
  · intro x hx
    rcases mem_append.mp hx with hold | hnew
    · exact (hs x hold).mono [] (append_nil _).symm rfl rfl
    · rw [mem_singleton.mp hnew]
      refine ⟨snapshot, ?_, by rw [hb]; rfl, hd⟩
      rw [remoteRead, if_pos (.inl ⟨rfl, rfl⟩), hb]
  · exact hs

/-- So is one that is registered with the reply, if there were no replies before. -/
theorem valid_registered {snapshot : Snapshot} (hs : s.sent = [])
    (hb : s.buffers l.snapshot = some snapshot) (hd : Describes s.applied snapshot)
    (hp : l.snapshot ≠ preregSnapshot) (hreg : l.regMem = true) :
    ∀ x ∈ (rcSendSmReply i l s).sent, Valid (rcSendSmReply i l s) x := by
  simp only [rcSendSmReply, regSnapshot, localKey, hreg, if_true, if_neg hp, Option.map_some]
  split_ifs with hc
  · intro x hx
    rw [hs, nil_append] at hx
    rw [mem_singleton.mp hx]
    refine ⟨snapshot, ?_, by rw [hb]; rfl, hd⟩
    rw [remoteRead, if_pos (.inr rfl), hb]
  · simp [hs]

theorem dumped_eq (h : Kept s t) : dumped t = dumped s := by
  rw [dumped, dumped, h.store, h.last]

/-- Within a call with a small snapshot: it stands in the buffer that is registered at the start. -/
structure Polls (s : Server) (r : Server × Locals) : Prop where
  kept : Kept s r.1
  sent : ∀ x ∈ r.1.sent, Valid r.1 x
  regMem : r.2.regMem = false
  flag : r.1.flag = true → r.2.snapshot = preregSnapshot ∧
    ∃ snapshot, r.1.buffers preregSnapshot = some snapshot ∧ Describes s.applied snapshot

theorem Polls.ensureSnapshot (h : Polls s (t, l)) (hd : Describes s.applied (dumped s))
    (hle : getRecordsLen s.store ≤ preregSnapshotSize) :
    Polls s (SmReply.ensureSnapshot t l) ∧ (SmReply.ensureSnapshot t l).1.flag = true := by
  unfold SmReply.ensureSnapshot
  split_ifs with hf
  · exact ⟨h, hf⟩
  · have hle' : getRecordsLen t.store ≤ preregSnapshotSize := h.kept.store ▸ hle
    rw [createSnapshot, if_pos hle']
    refine ⟨⟨⟨h.kept.idx, h.kept.applied, h.kept.store, h.kept.last⟩, nofun, h.regMem, fun _ =>
      ⟨rfl, dumped s, ?_, hd⟩⟩, rfl⟩
    simp [← dumped_eq h.kept]

theorem Polls.reply (h : Polls s r) (hf : r.1.flag = true) (i : ℕ) :
    Polls s (rcSendSmReply i r.2 r.1, r.2) := by
  obtain ⟨t, addr, reg⟩ := r
  obtain ⟨hk, hs, hreg, hflag⟩ := h
  obtain ⟨hp, snapshot, hb, hd⟩ := hflag hf
  obtain ⟨hk', -, hb', -⟩ := rcSendSmReply_kept i ⟨addr, reg⟩ t
  dsimp only at hreg hp
  subst hreg hp
  refine ⟨hk.trans hk', ?_, rfl, fun _ => ⟨rfl, snapshot, hb' ▸ hb, hd⟩⟩
  exact valid_prereg hs hb (hk.applied ▸ hd)

theorem Polls.foldl (h : Polls s r) (hd : Describes s.applied (dumped s))
    (hle : getRecordsLen s.store ≤ preregSnapshotSize) (is : List ℕ) :
    Polls s (is.foldl answer r) := by
  induction is generalizing r with
  | nil => exact h
  | cons i is ih =>
    have h' : Polls s ({ r.1 with smReq := Function.update r.1.smReq i false }, r.2) :=
      ⟨⟨h.kept.idx, h.kept.applied, h.kept.store, h.kept.last⟩, h.sent, h.regMem, h.flag⟩
    obtain ⟨he, hf⟩ := h'.ensureSnapshot hd hle
    exact ih (he.reply hf i)

theorem valid_large (hn : preregSnapshot < s.nextAddr) (hd : Describes s.applied (dumped s))
    (hf : s.flag = false) (hl : preregSnapshotSize < getRecordsLen s.store) (i : ℕ) :
    ∀ x ∈ (answer (s, l) i).1.sent, Valid (answer (s, l) i).1 x := by
  have he : ensureSnapshot { s with smReq := Function.update s.smReq i false } l =
      createSnapshot { s with smReq := Function.update s.smReq i false } l := if_neg (by simp [hf])
  rw [answer, he, createSnapshot, if_neg (not_le.mpr hl)]
  exact valid_registered rfl (Function.update_self ..) hd (Nat.ne_of_gt hn) rfl

theorem sound_poll (hs : Sound s) (hf : fresh s (.poll stale)) :
    Sound (pollSmRequests stale s) := by
  rw [pollSmRequests_eq]
  by_cases hask : asking s = []
  · rwa [hask]
  · obtain ⟨hfl, hr, hb, hone⟩ := hf hask
    obtain ⟨hk, hn⟩ := foldl_answer_kept (asking s) (s, ⟨stale, false⟩)
    have hd := describes_dumped hs hr hb
    refine ⟨?_, hk.store ▸ hs.counter, Nat.lt_of_lt_of_le hs.nextAddr hn, ?_⟩
    · rw [hk.last, hk.applied]
      exact hs.last
    · by_cases hle : getRecordsLen s.store ≤ preregSnapshotSize
      · have hc : Polls s (s, ⟨stale, false⟩) := ⟨⟨rfl, rfl, rfl, rfl⟩, hs.sent, rfl,
          fun hset => absurd (hfl.symm.trans hset) nofun⟩
        exact (hc.foldl hd hle _).sent
      · obtain ⟨i, hi⟩ := length_eq_one_iff.mp (hone (not_le.mp hle))
        rw [hi]
        exact valid_large hs.nextAddr hd hfl (not_le.mp hle) i

/-! ### Whole runs -/

theorem sound_apply (hs : Sound s) (h : applyCommittedEntry s = some t) : Sound t := by
  unfold applyCommittedEntry at h
  split_ifs at h
  obtain ⟨entry, -, rfl⟩ := Option.map_eq_some_iff.mp h
  split_ifs
  · refine ⟨?_, hs.counter, hs.nextAddr, fun x hx => (hs.sent x hx).mono _ rfl rfl rfl⟩
    simp [lastDet]
  · exact { hs with }

theorem sound_step (hs : Sound s) (hf : fresh s e) (h : server.step s e = some t) : Sound t := by
  change serverStep s e = some t at h
  unfold serverStep at h
  split_ifs at h
  cases e with
  | append entry | request j =>
    obtain rfl := Option.some.inj h
    exact { hs with }
  | commit offset | prune offset =>
    obtain ⟨-, rfl⟩ := guarded_eq_some.mp h
    exact { hs with }
  | apply => exact sound_apply hs h
  | poll stale =>
    obtain rfl := Option.some.inj h
    exact sound_poll hs hf

/-- Every reply names a valid snapshot until the next one is made, in every run in which a snapshot
is made for each call that answers, for one request only if it is large, and the store then holds
the commands that were applied. -/
theorem reply_names_snapshot {size idx : ℕ} {store : Store}
    (hstore : getRecordsLen store < 2 ^ 32) (h : server.Run fresh (start size idx store) t) :
    ∀ x ∈ t.sent, Valid t x := by
  have hstart : Sound (start size idx store) := ⟨rfl, hstore, Nat.lt_succ_self 1, nofun⟩
  exact (h.invariant hstart fun _ _ _ hs hfresh hstep => sound_step hs hfresh hstep).sent

theorem reply_names_empty_snapshot :
    ∃ t, server.Run fresh (start 3 0 ⟨[], 0⟩) t ∧ t.sent.length = 2 ∧ ∀ x ∈ t.sent, Valid t x := by
  obtain ⟨t, hrun, hsent⟩ := System.exists_run_of_exec (M := server) (s := start 3 0 ⟨[], 0⟩)
    fresh (p := fun t => t.sent.length = 2)
    [.append ⟨1, 1, 0, 0, .noop, .none⟩, .commit 1, .apply, .request 1, .poll 7, .prune 1,
      .request 1, .request 2, .poll 7] (by decide +kernel)
  exact ⟨t, hrun, hsent, reply_names_snapshot (by decide) hrun⟩

/-! ### Snapshots of an earlier call -/

theorem pollSmRequest_stale {key addr : ℕ} (hf : s.flag = true)
    (hmr : s.snapshotMr = some (key, addr)) (hp : stale ≠ preregSnapshot)
    (hs : stale ≠ addr) (hi : i ≠ s.idx) (hreq : s.smReq i = true) (hc : s.connected i = true) :
    ∃ x ∈ (pollSmRequest (s, ⟨stale, false⟩) i).1.sent,
      remoteRead (pollSmRequest (s, ⟨stale, false⟩) i).1 x.raddr x.rkey = none := by
  refine ⟨⟨stale, key, sizeofSnapshot + ((s.buffers stale).map Snapshot.len).getD 0⟩, ?_⟩
  simp [pollSmRequest, answer, ensureSnapshot, hi, hreq, hf, rcSendSmReply, regSnapshot, localKey,
    hp, hmr, hc, remoteRead, hs.symm]

def asked (store : Store) : Server :=
  pollSmRequests 0 (smRequest 1 (start 2 0 store))

theorem asked_eq {store : Store} (hl : preregSnapshotSize < getRecordsLen store) :
    (asked store).idx = 0 ∧ (asked store).size = 2 ∧ (asked store).flag = true ∧
      (asked store).snapshotMr = some (2, 2) ∧ (asked store).connected 1 = true ∧
      (asked store).down = false := by
  simp [asked, smRequest, pollSmRequests, pollSmRequest, answer, ensureSnapshot, createSnapshot,
    start, range_succ, rcSendSmReply, regSnapshot, localKey, preregSnapshot, hl.not_ge]

theorem second_reply_stale {store : Store} (hl : preregSnapshotSize < getRecordsLen store) :
    ∃ t, server.Run anyStep (start 2 0 store) t ∧
      ∃ x ∈ t.sent, remoteRead t x.raddr x.rkey = none := by
  obtain ⟨hidx, hs, hf, hmr, hc, hd⟩ := asked_eq hl
  have hask : server.step (asked store) (.request 1) = some (smRequest 1 (asked store)) :=
    if_neg (by simp [hd])
  have hp : server.step (smRequest 1 (asked store)) (.poll 0) =
      some (pollSmRequests 0 (smRequest 1 (asked store))) :=
    if_neg (by simp [smRequest, hd])
  have hfirst : server.Run anyStep (start 2 0 store) (asked store) :=
    Run.cons (.request 1) trivial rfl (Run.cons (.poll 0) trivial rfl .refl)
  refine ⟨_, hfirst.trans (Run.cons _ trivial hask (Run.cons _ trivial hp .refl)), ?_⟩
  have hr : range (smRequest 1 (asked store)).size = [0, 1] := by
    simp [smRequest, hs, range_succ]
  have hown : pollSmRequest (smRequest 1 (asked store), ⟨0, false⟩) 0 =
      (smRequest 1 (asked store), ⟨0, false⟩) :=
    if_pos (.inl (by simp [smRequest, hidx]))
  rw [pollSmRequests, hr, foldl_cons, foldl_cons, foldl_nil, hown]
  exact pollSmRequest_stale hf hmr (by decide) (by decide) (by simp [smRequest, hidx])
    (by simp [smRequest]) hc

def largeRequest : RecordStore.Request :=
  ⟨fun x => if x = 2 then RecordStore.MIRROR else 255, .inl rfl⟩

/-- The second of two requests is answered with an address at which there is no snapshot. -/
theorem reply_names_no_snapshot : ∃ t, server.Run anyStep
        (start 2 0 (RecordStore.storeAfter [] (replicate 8 largeRequest))) t ∧
      ¬ ∀ x ∈ t.sent, Valid t x := by
  have hlarge : preregSnapshotSize <
      getRecordsLen (RecordStore.storeAfter [] (replicate 8 largeRequest)) := by
    rw [getRecordsLen, (RecordStore.storeAfter_eq [] _).2]
    decide
  obtain ⟨t, hrun, x, hx, hnone⟩ := second_reply_stale hlarge
  refine ⟨t, hrun, fun hvalid => ?_⟩
  obtain ⟨snapshot, hsome, -⟩ := hvalid x hx
  rw [hnone] at hsome
  cases hsome

end VmFt.Dare.SmReply
