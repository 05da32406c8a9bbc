import Mathlib.Algebra.Ring.Nat
import VmFt.Lib.Overlay
import VmFt.Lib.Transition

/-! # The disks of the secondary

The guest of the secondary writes to the active disk, which lies over the hidden
disk, which lies over the secondary disk. A backup job copies what a write of the
primary is about to overwrite on the secondary disk to the hidden disk. A checkpoint
forgets the copies and empties both overlays.
-/

namespace VmFt.Block

open VmFt.Overlay VmFt.System

variable {β : Type*}

inductive ReplicationMode | primary | secondary
  deriving DecidableEq

/-- `BLOCK_REPLICATION_NONE` and so on. -/
inductive ReplicationStatus | none | running | failover | failoverFailed | done
  deriving DecidableEq

inductive MirrorSyncMode | top | full | none | incremental
  deriving DecidableEq

inductive ReplicationError
  | jobCancelled | syncMode | activeDisk | hiddenDisk | notRunning
  deriving DecidableEq

def ReplicationError.message : ReplicationError → String
  | .jobCancelled => "Backup job was cancelled unexpectedly"
  | .syncMode => "The backup job only supports block checkpoint in sync=none mode"
  | .activeDisk => "Cannot make active disk empty"
  | .hiddenDisk => "Cannot make hidden disk empty"
  | .notRunning => "Block replication is not running"

structure BackupJob where
  syncMode : MirrorSyncMode
  doneBitmap : ℕ → Bool

/-- The state of the driver with the contents of the three disks, sector by sector. -/
structure Replication (β : Type*) where
  mode : ReplicationMode
  status : ReplicationStatus
  error : Bool
  active : ℕ → Option β
  hidden : ℕ → Option β
  secondary : ℕ → β
  job : Option BackupJob

/-- What the guest of the secondary sees. -/
def Replication.view (s : Replication β) : ℕ → β := overlay s.active (overlay s.hidden s.secondary)

/-- The outcome of an operation on a disk, such as `bdrv_make_empty`; when it fails, it may have
happened to some sectors already. -/
inductive Outcome
  | done
  | failed (gone : ℕ → Bool)

def makeEmpty (disk : ℕ → Option β) : Outcome → ℕ → Option β
  | .done => fun _ => none
  | .failed gone => discard gone disk

/-- The state after a call, the error it reports, and whether a block operation failed. -/
structure Result (β : Type*) where
  state : Replication β
  reported : Option ReplicationError
  failed : Bool

/-! ### The calls -/

def backupDoCheckpoint (job : BackupJob) : BackupJob × Option ReplicationError :=
  if job.syncMode ≠ .none then (job, some .syncMode)
  else ({ job with doneBitmap := fun _ => false }, none)

def emptyOverlays (active hidden : Outcome) (s : Replication β) : Result β :=
  let s := { s with active := makeEmpty s.active active }
  match active with
  | .failed _ => ⟨s, some .activeDisk, true⟩
  | .done =>
    let s := { s with hidden := makeEmpty s.hidden hidden }
    match hidden with
    | .failed _ => ⟨s, some .hiddenDisk, true⟩
    | .done => ⟨s, none, false⟩

def secondaryDoCheckpoint (active hidden : Outcome) (s : Replication β) : Result β :=
  match s.job with
  | none => ⟨s, some .jobCancelled, false⟩
  | some job =>
    let (job, err) := backupDoCheckpoint job
    let s := { s with job := some job }
    match err with
    | some err => ⟨s, some err, false⟩
    | none => emptyOverlays active hidden s

def replicationDoCheckpoint (active hidden : Outcome) (s : Replication β) : Result β :=
  if s.mode = .secondary then secondaryDoCheckpoint active hidden s else ⟨s, none, false⟩

/-- `block_job_cancel_sync`, at the end of which `backup_job_completed` runs. -/
def cancelJob (s : Replication β) : Replication β :=
  match s.job with
  | none => s
  | some _ => { s with job := none, error := s.error || decide (s.status ≠ .failover) }

/-- `replication_stop` without failover. -/
def replicationStop (active hidden : Outcome) (s : Replication β) : Result β :=
  if s.status ≠ .running then ⟨s, some .notRunning, false⟩
  else
    match s.mode with
    | .primary => ⟨{ s with status := .done, error := false }, none, false⟩
    | .secondary =>
      let r := secondaryDoCheckpoint active hidden (cancelJob s)
      { r with state := { r.state with status := .done } }

inductive Call | checkpoint | stop
  deriving DecidableEq

def Call.run (active hidden : Outcome) (s : Replication β) : Call → Result β
  | .checkpoint => replicationDoCheckpoint active hidden s
  | .stop => replicationStop active hidden s

/-! ### All or nothing -/

def Replication.Running (s : Replication β) : Prop := s.mode = .secondary ∧ s.status = .running

/-- The backup job that `replication_start` has started is there. -/
def Replication.HasJob (s : Replication β) : Prop :=
  ∃ job, s.job = some job ∧ job.syncMode = .none

/-- Either no error is reported and the content of the secondary disk is seen, or an error is
reported and nothing changed in what is seen. An error has a cause. -/
structure AllOrNothing (s : Replication β) (r : Result β) : Prop where
  outcome : r.reported = none ∧ r.state.view = s.secondary ∨
    r.reported ≠ none ∧ r.state.view = s.view
  cause : r.reported ≠ none → r.failed = true ∨ ¬ s.HasJob

/-- The sectors that were discarded before the failure held what is below them. -/
def Harmless (s : Replication β) : Outcome → Outcome → Prop
  | .failed gone, _ =>
    ∀ x v, gone x = true → s.active x = some v → v = overlay s.hidden s.secondary x
  | .done, .failed gone =>
    (∀ x v, s.active x = some v → v = overlay (discard gone s.hidden) s.secondary x) ∧
      ∀ x v, s.active x = none → gone x = true → s.hidden x = some v → v = s.secondary x
  | .done, .done => True

/-- When a call is all or nothing: the job had stopped before, or it is a checkpoint whose failure
did no harm. -/
def CallSafe (active hidden : Outcome) (s : Replication β) : Call → Prop
  | .checkpoint => ¬ s.HasJob ∨ Harmless s active hidden
  | .stop => ¬ s.HasJob

variable {s : Replication β} {active hidden : Outcome}

theorem secondaryDoCheckpoint_of_hasJob (h : s.HasJob) :
    ∃ job, secondaryDoCheckpoint active hidden s =
      emptyOverlays active hidden { s with job := some job } := by
  obtain ⟨job, hjob, hm⟩ := h
  refine ⟨{ job with doneBitmap := fun _ => false }, ?_⟩
  simp [secondaryDoCheckpoint, hjob, backupDoCheckpoint, hm]

theorem secondaryDoCheckpoint_of_not_hasJob (h : ¬ s.HasJob) :
    ∃ err, secondaryDoCheckpoint active hidden s = ⟨s, some err, false⟩ := by
  cases hjob : s.job with
  | none => exact ⟨.jobCancelled, by simp [secondaryDoCheckpoint, hjob]⟩
  | some job =>
    have hm : job.syncMode ≠ .none := fun hm => h ⟨job, hjob, hm⟩
    refine ⟨.syncMode, ?_⟩
    simp only [secondaryDoCheckpoint, hjob, backupDoCheckpoint, if_pos hm]
    rw [← hjob]

theorem allOrNothing_of_failed {r : Result β} (hr : r.reported ≠ none)
    (hf : r.failed = true) : AllOrNothing s r ↔ r.state.view = s.view := by
  constructor
  · rintro ⟨⟨hn, -⟩ | ⟨-, hv⟩, -⟩
    · exact absurd hn hr
    · exact hv
  · intro hv
    exact ⟨.inr ⟨hr, hv⟩, fun _ => .inl hf⟩

theorem allOrNothing_emptyOverlays (job : Option BackupJob) :
    AllOrNothing s (emptyOverlays active hidden { s with job }) ↔ Harmless s active hidden := by
  cases active with
  | failed gone =>
    rw [allOrNothing_of_failed (by simp [emptyOverlays]) rfl]
    exact overlay_discard_eq_iff
  | done =>
    cases hidden with
    | failed gone =>
      rw [allOrNothing_of_failed (by simp [emptyOverlays]) rfl]
      have hv : (emptyOverlays .done (.failed gone) { s with job }).state.view =
          overlay (discard gone s.hidden) s.secondary := rfl
      rw [hv, eq_comm, Replication.view, overlay_eq_iff, Harmless]
      refine and_congr_right fun _ => forall_congr' fun x => ?_
      rw [imp_congr_right fun _ => overlay_discard_apply_eq_iff]
      exact ⟨fun h v ha => h ha v, fun h ha v => h v ha⟩
    | done => exact ⟨fun _ => trivial, fun _ => ⟨.inl ⟨rfl, rfl⟩, fun h => absurd rfl h⟩⟩

theorem job_cancelJob (s : Replication β) : (cancelJob s).job = none := by
  unfold cancelJob
  split
  · assumption
  · rfl

theorem view_cancelJob (s : Replication β) : (cancelJob s).view = s.view := by
  unfold cancelJob
  split <;> rfl

theorem replicationStop_of_running (h : s.Running) : replicationStop active hidden s =
      ⟨{ cancelJob s with status := .done }, some .jobCancelled, false⟩ := by
  simp [replicationStop, h.1, h.2, secondaryDoCheckpoint, job_cancelJob]

/-- A call on a running secondary is all or nothing in these cases and in no others. -/
theorem allOrNothing_iff (hrunning : s.Running) (call : Call) :
    AllOrNothing s (call.run active hidden s) ↔ CallSafe active hidden s call := by
  cases call with
  | checkpoint =>
    rw [Call.run, replicationDoCheckpoint, if_pos hrunning.1, CallSafe]
    by_cases hjob : s.HasJob
    · obtain ⟨job, hcheckpoint⟩ := secondaryDoCheckpoint_of_hasJob hjob
      rw [hcheckpoint, allOrNothing_emptyOverlays]
      simp [hjob]
    · obtain ⟨err, hcheckpoint⟩ := secondaryDoCheckpoint_of_not_hasJob hjob
      rw [hcheckpoint]
      simp only [hjob, not_false_eq_true, true_or, iff_true]
      exact ⟨.inr ⟨by simp, rfl⟩, fun _ => .inr hjob⟩
  | stop =>
    rw [Call.run, replicationStop_of_running hrunning, CallSafe]
    constructor
    · rintro ⟨-, hcause⟩
      simpa using hcause (by simp)
    · intro hjob
      exact ⟨.inr ⟨by simp, view_cancelJob s⟩, fun _ => .inr hjob⟩

def zeroSecondary (active : ℕ → Option ℕ) : Replication ℕ where
  mode := .secondary
  status := .running
  error := false
  active := active
  hidden := fun _ => none
  secondary := fun _ => 0
  job := some ⟨.none, fun _ => false⟩

theorem zeroSecondary_checkpoint_allOrNothing : AllOrNothing (zeroSecondary fun _ => some 1)
      (Call.checkpoint.run .done .done (zeroSecondary fun _ => some 1)) :=
  (allOrNothing_iff ⟨rfl, rfl⟩ .checkpoint).mpr (.inr trivial)

/-- A stop with nothing to do reports an error although nothing failed, and a checkpoint whose last
step fails has thrown away the active disk. -/
theorem zeroSecondary_not_allOrNothing : ¬ AllOrNothing (zeroSecondary fun _ => none)
        (Call.stop.run .done .done (zeroSecondary fun _ => none)) ∧
      ¬ AllOrNothing (zeroSecondary fun _ => some 1)
        (Call.checkpoint.run .done (.failed fun _ => false) (zeroSecondary fun _ => some 1)) := by
  constructor
  · rintro ⟨-, hcause⟩
    rcases hcause (by decide) with hfailed | hjob
    · exact absurd hfailed (by decide)
    · exact hjob ⟨_, rfl, rfl⟩
  · rintro ⟨⟨hreported, -⟩ | ⟨-, hview⟩, -⟩
    · exact absurd hreported (by decide)
    · exact absurd (congrFun hview 0) (by decide)

/-! ### Between two checkpoints -/

/-- The sectors that an operation on those of `place` has reached. -/
def reached (place : ℕ → Bool) : Outcome → ℕ → Bool
  | .done => place
  | .failed part => fun x => place x && part x

/-- The loop of `backup_do_cow` over `n` clusters from `cluster` on. A cluster is read from the
secondary disk and written to the hidden disk, unless this was done before. A copy that fails ends
the loop. -/
def backupDoCow (clusterSectors : ℕ) (copies : ℕ → Outcome) :
    ℕ → ℕ → BackupJob → Replication β → Bool × Replication β
  | 0, _, job, s => (true, { s with job := some job })
  | n + 1, cluster, job, s =>
    if job.doneBitmap cluster then backupDoCow clusterSectors copies n (cluster + 1) job s
    else
      let place := reached (fun x => x / clusterSectors = cluster) (copies cluster)
      let s := { s with hidden := write place s.secondary s.hidden }
      match copies cluster with
      | .done =>
        backupDoCow clusterSectors copies n (cluster + 1)
          { job with doneBitmap := fun c => decide (c = cluster) || job.doneBitmap c } s
      | .failed _ => (false, { s with job := some job })

/-- The sectors of a request. -/
def request (sector nbSectors x : ℕ) : Bool := sector ≤ x ∧ x < sector + nbSectors

def primaryWrite (clusterSectors sector nbSectors : ℕ) (data : ℕ → β) (copies : ℕ → Outcome)
    (own : Outcome) (s : Replication β) : Replication β :=
  let written (s : Replication β) := { s with
    secondary := fun x =>
      if reached (request sector nbSectors) own x then data x else s.secondary x }
  match s.job with
  | none => written s
  | some job =>
    let start := sector / clusterSectors
    let stop := (sector + nbSectors + clusterSectors - 1) / clusterSectors
    match backupDoCow clusterSectors copies (stop - start) start job s with
    | (true, s) => written s
    | (false, s) => s

def guestWrite (sector nbSectors : ℕ) (data : ℕ → β) (own : Outcome) (s : Replication β) :
    Replication β :=
  { s with active := write (reached (request sector nbSectors) own) data s.active }

inductive DiskEvent (β : Type*)
  | guest (sector nbSectors : ℕ) (data : ℕ → β) (own : Outcome)
  | primary (sector nbSectors : ℕ) (data : ℕ → β) (copies : ℕ → Outcome) (own : Outcome)

def disks (clusterSectors : ℕ) : System (Replication β) (DiskEvent β) where
  step s
    | .guest sector nbSectors data own => some (guestWrite sector nbSectors data own s)
    | .primary sector nbSectors data copies own =>
      some (primaryWrite clusterSectors sector nbSectors data copies own s)

/-- The hidden disk holds the clusters whose bit is set. What it holds of the others is what the
secondary disk holds. -/
structure Copied (clusterSectors : ℕ) (job : BackupJob) (s : Replication β) : Prop where
  held : ∀ x, job.doneBitmap (x / clusterSectors) = true → (s.hidden x).isSome = true
  same : ∀ x v, job.doneBitmap (x / clusterSectors) = false → s.hidden x = some v →
    v = s.secondary x

/-- What a loop of copies has done: clusters were added that are held by the hidden disk now, and
nothing has changed in what is seen. -/
structure Extends (clusterSectors : ℕ) (job : BackupJob) (s : Replication β) (job' : BackupJob)
    (s' : Replication β) : Prop where
  secondary : s'.secondary = s.secondary
  running : s'.job = some job'
  copied : Copied clusterSectors job' s'
  seen : overlay s'.hidden s.secondary = overlay s.hidden s.secondary
  mono : ∀ c, job.doneBitmap c = true → job'.doneBitmap c = true

section Cow

variable {clusterSectors cluster : ℕ} {job : BackupJob}

/-- Sectors that are written as the secondary disk has them keep what is true of the others. -/
theorem Copied.write (h : Copied clusterSectors job s) (place : ℕ → Bool) :
    Copied clusterSectors job { s with hidden := write place s.secondary s.hidden } := by
  refine ⟨fun x hx => ?_, fun x v hx hv => ?_⟩ <;> by_cases hp : place x = true
  · simp [Overlay.write, hp]
  · simpa [Overlay.write, hp] using h.held x hx
  · simpa [Overlay.write, hp] using hv.symm
  · exact h.same x v hx (by simpa [Overlay.write, hp] using hv)

theorem Copied.mark (h : Copied clusterSectors job s)
    (hc : ∀ x, x / clusterSectors = cluster → (s.hidden x).isSome = true) :
    Copied clusterSectors
      { job with doneBitmap := fun c => decide (c = cluster) || job.doneBitmap c } s := by
  refine ⟨fun x hx => ?_, fun x v hx => ?_⟩
  · rcases Bool.or_eq_true _ _ ▸ hx with hx | hx
    · exact hc x (of_decide_eq_true hx)
    · exact h.held x hx
  · exact h.same x v (Bool.or_eq_false_iff.mp hx).2

theorem Copied.backupDoCow (copies : ℕ → Outcome) (n cluster : ℕ)
    (h : Copied clusterSectors job s) : ∃ job', Extends clusterSectors job s job'
        (backupDoCow clusterSectors copies n cluster job s).2 ∧
      ((backupDoCow clusterSectors copies n cluster job s).1 = true →
        ∀ c, cluster ≤ c → c < cluster + n → job'.doneBitmap c = true) := by
  induction n generalizing cluster job s with
  | zero => exact ⟨job, ⟨rfl, rfl, ⟨h.held, h.same⟩, rfl, fun _ => id⟩, fun _ c _ _ => by omega⟩
  | succ n ih =>
    rw [Block.backupDoCow]
    by_cases hd : job.doneBitmap cluster = true
    · rw [if_pos hd]
      obtain ⟨job', hext, hall⟩ := ih (cluster + 1) h
      refine ⟨job', hext, fun ht c hle hlt => ?_⟩
      rcases Nat.eq_or_lt_of_le hle with rfl | hlt'
      · exact hext.mono _ hd
      · exact hall ht c hlt' (by omega)
    · rw [if_neg hd]
      have hw := h.write (reached (fun x => x / clusterSectors = cluster) (copies cluster))
      have hseen : overlay (Overlay.write
          (reached (fun x => x / clusterSectors = cluster) (copies cluster)) s.secondary s.hidden)
          s.secondary = overlay s.hidden s.secondary := by
        refine overlay_write_base fun x v hx hv => h.same x v ?_ hv
        have hin : x / clusterSectors = cluster := by
          cases hco : copies cluster <;> simp_all [reached]
        rw [hin, (Bool.not_eq_true _).mp hd]
      cases hco : copies cluster with
      | done =>
        rw [hco] at hw hseen
        obtain ⟨job', hext, hall⟩ := ih (cluster + 1)
          (hw.mark fun x (hx : _ = cluster) => by simp [Overlay.write, reached, hx])
        refine ⟨job', ⟨hext.secondary, hext.running, hext.copied, hext.seen.trans hseen,
          fun c hc => hext.mono c (by simp [hc])⟩, fun ht c hle hlt => ?_⟩
        rcases Nat.eq_or_lt_of_le hle with rfl | hlt'
        · exact hext.mono _ (by simp)
        · exact hall ht c hlt' (by omega)
      | failed part =>
        rw [hco] at hw hseen
        exact ⟨job, ⟨rfl, rfl, ⟨hw.held, hw.same⟩, hseen, fun _ => id⟩, by simp⟩

end Cow

/-- What is below the active disk is `base`, and the job is there to keep it so. -/
def Keeps (clusterSectors : ℕ) (base : ℕ → β) (s : Replication β) : Prop :=
  ∃ job, s.job = some job ∧ Copied clusterSectors job s ∧ overlay s.hidden s.secondary = base

/-- A checkpoint that reports no error leaves the secondary disk below empty overlays. -/
theorem keeps_replicationDoCheckpoint (clusterSectors : ℕ) (hm : s.mode = .secondary)
    (hr : (replicationDoCheckpoint active hidden s).reported = none) :
    Keeps clusterSectors s.secondary (replicationDoCheckpoint active hidden s).state := by
  rw [replicationDoCheckpoint, if_pos hm] at hr ⊢
  by_cases hjob : s.HasJob
  · obtain ⟨job, hj, hsync⟩ := hjob
    simp only [secondaryDoCheckpoint, hj, backupDoCheckpoint, hsync, ne_eq, not_true_eq_false,
      if_false] at hr ⊢
    cases active with
    | failed gone => cases hr
    | done =>
      cases hidden with
      | failed gone => cases hr
      | done => exact ⟨_, rfl, ⟨nofun, nofun⟩, rfl⟩
  · obtain ⟨err, he⟩ : ∃ err, secondaryDoCheckpoint active hidden s = ⟨s, some err, false⟩ :=
      secondaryDoCheckpoint_of_not_hasJob hjob
    rw [he] at hr
    cases hr

theorem div_lt_ceil {c x m : ℕ} (hpos : 0 < c) (h : x < m) : x / c < (m + c - 1) / c := by
  rw [Nat.div_lt_iff_lt_mul hpos, Nat.mul_comm]
  have hdiv := Nat.div_add_mod (m + c - 1) c
  have hmod := Nat.mod_lt (m + c - 1) hpos
  omega

theorem Keeps.primaryWrite {clusterSectors sector nbSectors : ℕ} {base data : ℕ → β}
    {copies : ℕ → Outcome} {own : Outcome} (hpos : 0 < clusterSectors)
    (h : Keeps clusterSectors base s) :
    Keeps clusterSectors base (primaryWrite clusterSectors sector nbSectors data copies own s) := by
  obtain ⟨job, hjob, hco, hb⟩ := h
  obtain ⟨job', hext, hall⟩ := hco.backupDoCow copies
    ((sector + nbSectors + clusterSectors - 1) / clusterSectors - sector / clusterSectors)
    (sector / clusterSectors)
  simp only [Block.primaryWrite, hjob]
  rcases hcow : Block.backupDoCow clusterSectors copies _ _ job s with ⟨_ | _, t⟩
  · rw [hcow] at hext
    exact ⟨job', hext.running, hext.copied, by rw [hext.secondary, hext.seen, hb]⟩
  · rw [hcow] at hext hall
    -- a sector that is written lies in a cluster that the loop has copied
    have hdone : ∀ x, reached (request sector nbSectors) own x = true →
        job'.doneBitmap (x / clusterSectors) = true := by
      intro x hx
      obtain ⟨hle, hlt⟩ : sector ≤ x ∧ x < sector + nbSectors := by
        cases own <;> simp_all [reached, request]
      refine hall rfl _ (Nat.div_le_div_right hle) ?_
      have := div_lt_ceil hpos hlt
      omega
    refine ⟨job', hext.running, ⟨hext.copied.held, fun x v hx hv => ?_⟩, ?_⟩
    · dsimp only
      rw [if_neg fun hin => absurd (hx.symm.trans (hdone x hin)) nofun]
      exact hext.copied.same x v hx hv
    · rw [← hb, ← hext.seen, ← hext.secondary]
      refine overlay_congr fun x hn => if_neg fun hx => ?_
      have hc := hext.copied.held x (hdone x hx)
      rw [hn] at hc
      cases hc

/-- Along every run from a checkpoint on, the guest's view without the guest's own writes is the
secondary disk at the checkpoint, whatever the primary writes and whichever operations fail. -/
theorem run_keeps {clusterSectors : ℕ} {t : Replication β} (hpos : 0 < clusterSectors)
    (hmode : s.mode = .secondary)
    (hreported : (replicationDoCheckpoint active hidden s).reported = none)
    (hrun : (disks clusterSectors).Run anyStep (replicationDoCheckpoint active hidden s).state t) :
    Keeps clusterSectors s.secondary t := by
  refine hrun.invariant (keeps_replicationDoCheckpoint clusterSectors hmode hreported) ?_
  rintro a (⟨sector, nbSectors, data, own⟩ | ⟨sector, nbSectors, data, copies, own⟩) b ha - hs
  · cases hs
    obtain ⟨job, hjob, hcopied, hbase⟩ := ha
    exact ⟨job, hjob, ⟨hcopied.held, hcopied.same⟩, hbase⟩
  · cases hs
    exact ha.primaryWrite hpos

/-- The first write of the primary fails in the middle of its copy, the second one goes through. -/
theorem run_keeps_zeroSecondary : ∃ t, (disks 2).Run anyStep (Call.checkpoint.run .done .done
      (zeroSecondary fun _ => some 1)).state t ∧ t.secondary 0 = 1 ∧ t.hidden 2 = some 0 ∧
      Keeps 2 (fun _ => 0) t := by
  have hrun : (disks 2).Run anyStep (Call.checkpoint.run .done .done
      (zeroSecondary fun _ => some 1)).state _ :=
    Run.cons (.primary 2 1 (fun _ => 1) (fun _ => .failed fun x => x = 2) .done) trivial rfl
      (Run.cons (.primary 0 1 (fun _ => 1) (fun _ => .done) .done) trivial rfl Run.refl)
  exact ⟨_, hrun, rfl, rfl, run_keeps (by decide) rfl rfl hrun⟩

end VmFt.Block
