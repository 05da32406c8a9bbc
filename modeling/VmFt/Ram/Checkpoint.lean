import VmFt.Lib.Transition
import VmFt.Ram.HashList
import VmFt.Ram.Search

/-! # The RAM phase of a checkpoint

The primary and the backup each have a guest that writes pages, a dirty log that
reports them, and a bitmap that collects the log. At a checkpoint the two hosts
exchange bitmaps, hash the pages that either has written, and the primary copies
those whose hashes differ. The messages of the control channel arrive in order.
-/

namespace VmFt.Ram

/-- Take the dirty log of a range of pages into a bitmap. A range that starts with a word is taken
word by word. -/
def syncRange (start length : ℕ) (r : Bitmap × Bitmap) : Bitmap × Bitmap :=
  let stop := if start / 64 * 64 = start then start + (length + 63) / 64 * 64 else start + length
  let taken := fun p => decide (start ≤ p ∧ p < stop)
  (fun p => r.1 p || taken p && r.2 p, fun p => r.2 p && !taken p)

/-- `migration_bitmap_sync` and `backup_bitmap_sync`: the bitmap and the log that is left. -/
def bitmapSync (L : Layout) (bitmap log : Bitmap) : Bitmap × Bitmap :=
  L.blocks.foldl (fun r b => syncRange b.offset b.usedLength r) (bitmap, log)

/-! ### The two hosts -/

inductive PrimaryPc
  | running | stopped | synced | hashed | compared | sent
deriving DecidableEq, Repr

inductive BackupPc
  | running | stopped | offered | hashed | loading | cleared
deriving DecidableEq, Repr

structure Primary (α η : Type*) where
  pc : PrimaryPc
  mem : ℕ → α
  fakePage : α
  dirtyLog : Bitmap
  migrationBitmap : Bitmap
  hashList : HashList η
  divergentBitmap : Bitmap
  search : Search

structure Backup (α : Type*) where
  pc : BackupPc
  mem : ℕ → α
  fakePage : α
  dirtyLog : Bitmap
  backupBitmap : Bitmap

inductive Msg (η : Type*)
  | bitmap (b : Bitmap)
  | hashes (l : List η)
  | endOfRam
  | vmstateLoaded

structure State (α η : Type*) where
  primary : Primary α η
  backup : Backup α
  toPrimary : List (Msg η)
  toBackup : List (Msg η)

/-- The steps of the two hosts. The `…Write` steps are those of the guests; on the backup also the
reset of the devices and their loading may write. -/
inductive Event (α : Type*)
  | primaryWrite (p : ℕ) (a : α)
  | primaryStop
  | primarySync
  | primaryExchange
  | primaryCompare
  | primaryTransfer (fuel : ℕ)
  | primaryStart
  | backupWrite (p : ℕ) (a : α)
  | backupStop
  | backupOffer
  | backupHash
  | backupLoad
  | backupClear
  | backupStart

section Step

open VmFt.System

variable {α η : Type*} [DecidableEq η] (L : Layout) (hash : α → η)

/-- `compute_hash_list` on a host with the given memory. -/
def hashList (mem : ℕ → α) (fakePage : α) (bitmap : Bitmap) : HashList η :=
  .compute (fun p => hash (L.getPage mem fakePage p)) bitmap L.lastRamOffset

/-- The step function. On the primary it is `ram_save_complete`, cut at the points where that waits
for the backup; on the backup it is `backup_prepare_bitmap` and the rest of a checkpoint in
`colo_process_incoming_thread`. -/
def step (s : State α η) : Event α → Option (State α η)
  | .primaryWrite p a =>
    guarded (s.primary.pc = .running)
      { s with primary := { s.primary with
        mem := Function.update s.primary.mem p a
        dirtyLog := setBit s.primary.dirtyLog p } }
  | .primaryStop =>
    guarded (s.primary.pc = .running) { s with primary := { s.primary with pc := .stopped } }
  | .primarySync =>
    let r := bitmapSync L s.primary.migrationBitmap s.primary.dirtyLog
    guarded (s.primary.pc = .stopped)
      { s with primary := { s.primary with
        pc := .synced, migrationBitmap := r.1, dirtyLog := r.2 } }
  | .primaryExchange =>
    match s.toPrimary with
    | .bitmap b :: rest =>
      guarded (s.primary.pc = .synced)
        { s with
          toPrimary := rest
          toBackup := s.toBackup ++ [.bitmap s.primary.migrationBitmap]
          primary := { s.primary with
            pc := .hashed
            divergentBitmap := bitmapZero
            hashList := hashList L hash s.primary.mem s.primary.fakePage
              (bitmapOr s.primary.migrationBitmap b) } }
    | _ => none
  | .primaryCompare =>
    match s.toPrimary with
    | .hashes l :: rest =>
      let remote := s.primary.hashList.unpack l
      guarded (s.primary.pc = .hashed)
        { s with
          toPrimary := rest
          primary := { s.primary with
            pc := .compared, divergentBitmap := s.primary.hashList.compare remote } }
    | _ => none
  | .primaryTransfer fuel =>
    if s.primary.pc = .compared then
      (ramSaveLoop L fuel ⟨s.primary.divergentBitmap, [], s.primary.search⟩).map fun t =>
        { s with
          toBackup := s.toBackup ++ [.endOfRam]
          primary := { s.primary with
            pc := .sent
            divergentBitmap := t.bitmap
            migrationBitmap := bitmapZero
            search := t.search }
          -- The RDMA writes of the saved pages.
          backup := { s.backup with
            mem := fun p => if p ∈ t.saved then s.primary.mem p else s.backup.mem p } }
    else none
  | .primaryStart =>
    match s.toPrimary with
    | .vmstateLoaded :: rest =>
      guarded (s.primary.pc = .sent)
        { s with toPrimary := rest, primary := { s.primary with pc := .running } }
    | _ => none
  | .backupWrite p a =>
    guarded (s.backup.pc = .running ∨ s.backup.pc = .loading ∨ s.backup.pc = .cleared)
      { s with backup := { s.backup with
        mem := Function.update s.backup.mem p a
        dirtyLog := setBit s.backup.dirtyLog p } }
  | .backupStop =>
    guarded (s.backup.pc = .running) { s with backup := { s.backup with pc := .stopped } }
  | .backupOffer =>
    let r := bitmapSync L s.backup.backupBitmap s.backup.dirtyLog
    guarded (s.backup.pc = .stopped)
      { s with
        toPrimary := s.toPrimary ++ [.bitmap r.1]
        backup := { s.backup with pc := .offered, backupBitmap := r.1, dirtyLog := r.2 } }
  | .backupHash =>
    match s.toBackup with
    | .bitmap b :: rest =>
      let l := hashList L hash s.backup.mem s.backup.fakePage (bitmapOr b s.backup.backupBitmap)
      guarded (s.backup.pc = .offered)
        { s with
          toBackup := rest
          toPrimary := s.toPrimary ++ [.hashes l.pack]
          backup := { s.backup with pc := .hashed } }
    | _ => none
  | .backupLoad =>
    match s.toBackup with
    | .endOfRam :: rest =>
      guarded (s.backup.pc = .hashed)
        { s with toBackup := rest, backup := { s.backup with pc := .loading } }
    | _ => none
  | .backupClear =>
    guarded (s.backup.pc = .loading)
      { s with backup := { s.backup with pc := .cleared, backupBitmap := bitmapZero } }
  | .backupStart =>
    guarded (s.backup.pc = .cleared)
      { s with
        toPrimary := s.toPrimary ++ [.vmstateLoaded]
        backup := { s.backup with pc := .running } }

/-- The two hosts as one system. -/
def checkpoint : System (State α η) (Event α) := ⟨step L hash⟩

end Step

end VmFt.Ram
