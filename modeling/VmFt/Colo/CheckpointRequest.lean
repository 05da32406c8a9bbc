import Mathlib.Data.Nat.Notation
import VmFt.Lib.Transition

/-! # Checkpoint requests at the backup

The thread that applies the log tells the checkpoint thread of the backup about a
CHECKPOINT entry through one flag. The checkpoint thread polls the flag, once or in
the loop that waits for the guest to become idle, and then stops the guest.
-/

namespace VmFt.Colo.CheckpointRequest

open VmFt.System

def BACKUP_END_IDLE : ℕ := 6

/-- The calls of `proxy_wait_checkpoint_req`: in the loop of the thread, where the result is
ignored, in the loop of `wait_guest_finish` and after it. -/
inductive Caller
  | thread | idleLoop | spin
deriving DecidableEq

/-- Where the checkpoint thread is; `test` and `clear` are the two halves of the poll. -/
inductive Pc
  | top | measure
  | test (caller : Caller) | clear (caller : Caller) | polled (caller : Caller) (ready : Bool)
  | disable | stop | resume | load
deriving DecidableEq

structure Backup where
  /-- `checkpoint_req_status` is `CHECKPOINT_REQ_READY`. -/
  ready : Bool
  disableApply : Bool
  /-- Whether `apply_committed_entries` is running. -/
  applying : Bool
  pc : Pc
  receivedSyncReq : Bool
  backupCounter : ℕ
  idleCounter : ℕ
  running : Bool
  /-- The CHECKPOINT entries applied, the stops of the guest, and the steps of the thread. -/
  applied : ℕ
  stops : ℕ
  clock : ℕ
deriving DecidableEq

def Backup.init : Backup := ⟨false, false, false, .top, false, 0, 0, true, 0, 0, 0⟩

inductive Event
  | applyBegin | applyCheckpoint | applyEnd
  | thread (idle : Bool)

variable (checkIdle : Bool) (recheckCount : ℕ)

/-- The end of a turn of the loop in `wait_guest_finish`. -/
def endTurn (s : Backup) : Backup :=
  if (s.receivedSyncReq && BACKUP_END_IDLE < s.backupCounter) || recheckCount ≤ s.idleCounter then
    { s with pc := if s.receivedSyncReq then .disable else .test .spin }
  else { s with pc := .measure }

/-- One step of the checkpoint thread; `idle` is what measuring the guest finds. -/
def threadStep (idle : Bool) (s : Backup) : Backup :=
  match s.pc with
  | .top =>
    if checkIdle then
      { s with pc := .measure, receivedSyncReq := false, backupCounter := 0, idleCounter := 0 }
    else { s with pc := .test .thread }
  | .measure =>
    { s with
      pc := .test .idleLoop
      backupCounter := s.backupCounter + 1
      idleCounter := if idle then s.idleCounter + 1 else 0 }
  | .test caller => { s with pc := if s.ready then .clear caller else .polled caller false }
  | .clear caller => { s with ready := false, pc := .polled caller true }
  | .polled .thread _ => { s with pc := .disable }
  | .polled .idleLoop ready =>
    endTurn recheckCount
      (if ready && !s.receivedSyncReq then { s with receivedSyncReq := true, backupCounter := 0 }
        else s)
  | .polled .spin ready => { s with pc := if ready then .disable else .test .spin }
  | .disable => { s with disableApply := true, pc := .stop }
  | .stop => { s with running := false, stops := s.stops + 1, pc := .resume }
  | .resume => { s with disableApply := false, pc := .load }
  | .load => { s with running := true, pc := .top }

def step (s : Backup) : Event → Option Backup
  | .applyBegin => guarded (s.disableApply = false ∧ s.applying = false) { s with applying := true }
  | .applyCheckpoint =>
    guarded (s.applying = true) { s with ready := true, applied := s.applied + 1 }
  | .applyEnd => guarded (s.applying = true) { s with applying := false }
  | .thread idle =>
    some { threadStep checkIdle recheckCount idle s with clock := s.clock + 1 }

def backup : System Backup Event := ⟨step checkIdle recheckCount⟩

/-- A CHECKPOINT entry is applied only once the guest has been stopped for the one before, and
unless the thread checks for an idle guest it polls only when a request is there. -/
def Spaced (s : Backup) : Event → Prop
  | .applyCheckpoint => s.applied = s.stops
  | .thread _ => checkIdle = false → s.pc = .top → s.ready = true
  | _ => True

instance (s : Backup) (e : Event) : Decidable (Spaced checkIdle s e) := by
  cases e <;> unfold Spaced <;> infer_instance

/-- The thread has taken a request for which it will stop the guest. -/
def holds (s : Backup) : Bool :=
  match s.pc with
  | .measure | .test .idleLoop | .clear .idleLoop | .polled .idleLoop false => s.receivedSyncReq
  | .polled _ ready => ready
  | .disable | .stop => true
  | _ => false

/-- The requests that are not yet served: the one in the flag and the one taken. -/
def pending (s : Backup) : ℕ := s.ready.toNat + (holds s).toNat

variable {checkIdle recheckCount} {s t : Backup}

def Local (s : Backup) : Prop :=
  match s.pc with
  | .measure => s.receivedSyncReq = true → s.backupCounter ≤ BACKUP_END_IDLE
  | .test .idleLoop | .polled .idleLoop false =>
    s.receivedSyncReq = true → s.backupCounter ≤ BACKUP_END_IDLE + 1
  | .test .thread | .clear _ => s.ready = true
  | .polled .thread false => False
  | _ => True

structure Inv (s : Backup) : Prop where
  count : s.applied = s.stops + pending s
  one : pending s ≤ 1
  here : Local s

theorem inv_init : Inv .init :=
  ⟨rfl, by decide, trivial⟩

theorem Inv.keep (h : Inv s) (ha : t.applied = s.applied) (hs : t.stops = s.stops)
    (hp : pending t = pending s) (hl : Local t) : Inv t :=
  ⟨by rw [ha, hs, hp, h.count], hp ▸ h.one, hl⟩

def rank (s : Backup) : ℕ :=
  match s.pc with
  | .resume => 30
  | .load => 29
  | .top => 28
  | .measure => if s.receivedSyncReq then 3 * (7 - s.backupCounter) + 2 else 27
  | .test .idleLoop => if s.receivedSyncReq then 3 * (8 - s.backupCounter) + 1 else 26
  | .clear .idleLoop => 25
  | .polled .idleLoop true => 24
  | .polled .idleLoop false => if s.receivedSyncReq then 3 * (8 - s.backupCounter) else 28
  | .polled .spin false => 6
  | .test _ => 5
  | .clear _ => 4
  | .polled _ _ => 3
  | .disable => 2
  | .stop => 1

theorem pending_endTurn (s : Backup) :
    pending (endTurn recheckCount s) = s.ready.toNat + s.receivedSyncReq.toNat := by
  unfold endTurn
  split
  · cases s.receivedSyncReq <;> simp [pending, holds]
  · simp [pending, holds]

theorem counts_endTurn (recheckCount : ℕ) (s : Backup) :
    (endTurn recheckCount s).applied = s.applied ∧ (endTurn recheckCount s).stops = s.stops := by
  unfold endTurn
  split <;> exact ⟨rfl, rfl⟩

theorem local_endTurn (s : Backup) : Local (endTurn recheckCount s) := by
  unfold endTurn
  split
  · cases s.receivedSyncReq <;> simp [Local]
  · rename_i hg
    intro hr
    simp only [Bool.or_eq_true, Bool.and_eq_true, decide_eq_true_iff, not_or, not_and] at hg
    exact Nat.le_of_not_lt (hg.1 hr)

theorem Inv.thread (h : Inv s) (hok : checkIdle = false → s.pc = .top → s.ready = true)
    (hs : s.pc ≠ .stop) (idle : Bool) : Inv (threadStep checkIdle recheckCount idle s) := by
  have hl := h.here
  have hone := h.one
  simp only [Local] at hl
  simp only [pending, holds] at hone
  unfold threadStep
  cases hpc : s.pc with
  | top =>
    dsimp only
    split
    · exact h.keep rfl rfl (by simp [pending, holds, hpc]) nofun
    · rename_i hidle
      exact h.keep rfl rfl (by simp [pending, holds, hpc]) (hok (by simpa using hidle) hpc)
  | measure =>
    rw [hpc] at hl
    exact h.keep rfl rfl (by simp [pending, holds, hpc]) fun hr => Nat.succ_le_succ (hl hr)
  | test caller =>
    rw [hpc] at hl
    dsimp only
    split
    · rename_i hrd
      exact h.keep rfl rfl (by cases caller <;> simp [pending, holds, hpc]) hrd
    · rename_i hrd
      cases caller with
      | thread => exact absurd hl hrd
      | idleLoop => exact h.keep rfl rfl (by simp [pending, holds, hpc]) hl
      | spin => exact h.keep rfl rfl (by simp [pending, holds, hpc]) trivial
  | clear caller =>
    rw [hpc] at hl hone
    refine h.keep rfl rfl ?_ ?_
    · cases caller with
      | thread => simp [pending, holds, hpc, hl]
      | idleLoop =>
        -- A second request would be lost here.
        cases hre : s.receivedSyncReq with
        | false => simp [pending, holds, hpc, hl, hre]
        | true => exact absurd hone (by simp [hl, hre])
      | spin => simp [pending, holds, hpc, hl]
    · cases caller <;> trivial
  | polled caller ready =>
    rw [hpc] at hl hone
    cases caller with
    | thread =>
      cases ready with
      | false => exact hl.elim
      | true => exact h.keep rfl rfl (by simp [pending, holds, hpc]) trivial
    | idleLoop =>
      refine h.keep ?_ ?_ ?_ (local_endTurn _)
      · exact (counts_endTurn _ _).1.trans (by split <;> rfl)
      · exact (counts_endTurn _ _).2.trans (by split <;> rfl)
      · rw [pending_endTurn]
        cases ready <;> cases hre : s.receivedSyncReq <;>
          simp [pending, holds, hpc, hre]
    | spin => cases ready <;> exact h.keep rfl rfl (by simp [pending, holds, hpc]) trivial
  | disable | resume | load => exact h.keep rfl rfl (by simp [pending, holds, hpc]) trivial
  | stop => exact absurd hpc hs

theorem Inv.stop (h : Inv s) (hpc : s.pc = .stop) (idle : Bool) :
    Inv (threadStep checkIdle recheckCount idle s) := by
  have hc := h.count
  have hone := h.one
  unfold threadStep
  rw [hpc]
  refine ⟨?_, ?_, trivial⟩
  · simp only [pending, holds, hpc, Bool.toNat_true, Bool.toNat_false] at hc ⊢
    omega
  · simp only [pending, holds, hpc, Bool.toNat_true, Bool.toNat_false] at hone ⊢
    omega

theorem Inv.applyCheckpoint (h : Inv s) (hs : s.applied = s.stops) :
    Inv { s with ready := true, applied := s.applied + 1 } := by
  have hc := h.count
  simp only [pending] at hc
  have hh : (holds s).toNat = 0 := by omega
  have hp : pending { s with ready := true, applied := s.applied + 1 } = 1 := by
    change 1 + (holds s).toNat = 1
    rw [hh]
  refine ⟨?_, Nat.le_of_eq hp, ?_⟩
  · rw [hp]
    exact congrArg (· + 1) hs
  · have hl := h.here
    unfold Local at hl ⊢
    split <;> simp_all

theorem Inv.step {e : Event} (h : Inv s) (hok : Spaced checkIdle s e)
    (hs : (backup checkIdle recheckCount).step s e = some t) : Inv t := by
  cases e with
  | applyBegin | applyEnd =>
    obtain ⟨-, rfl⟩ := guarded_eq_some.mp hs
    exact h.keep rfl rfl rfl h.here
  | applyCheckpoint =>
    obtain ⟨-, rfl⟩ := guarded_eq_some.mp hs
    exact h.applyCheckpoint hok
  | thread idle =>
    cases hs
    have hn : Inv (threadStep checkIdle recheckCount idle s) := by
      by_cases hpc : s.pc = .stop
      · exact h.stop hpc idle
      · exact h.thread hok hpc idle
    exact hn.keep rfl rfl rfl hn.here

/-! ### The way to the next stop -/

theorem rank_endTurn_of_received (h : s.receivedSyncReq = true) :
    rank (endTurn recheckCount s) ≤ 3 * (7 - s.backupCounter) + 2 := by
  unfold endTurn
  split <;> simp [rank, h]

theorem rank_endTurn (h : s.receivedSyncReq = false) : rank (endTurn recheckCount s) ≤ 27 := by
  unfold endTurn
  split <;> simp [rank, h]

theorem Inv.rank_lt (h : Inv s) (hp : pending s = 1) (hs : s.pc ≠ .stop) (idle : Bool) :
    rank (threadStep checkIdle recheckCount idle s) < rank s := by
  have hl := h.here
  simp only [Local] at hl
  simp only [pending, holds] at hp
  unfold threadStep
  cases hpc : s.pc with
  | top =>
    dsimp only
    split <;> simp [rank, hpc]
  | measure =>
    rw [hpc] at hl
    cases hr : s.receivedSyncReq with
    | false => simp [rank, hpc, hr]
    | true =>
      have hle := hl hr
      simp only [rank, hpc, hr, if_true]
      rw [BACKUP_END_IDLE] at hle
      omega
  | test caller =>
    rw [hpc] at hp
    cases caller with
    | thread => cases s.ready <;> simp [rank, hpc]
    | idleLoop =>
      cases hre : s.ready <;> cases hr : s.receivedSyncReq <;>
        simp [hre, hr] at hp <;> simp [rank, hpc, hr]
    | spin => cases hre : s.ready <;> simp [hre] at hp <;> simp [rank, hpc]
  | clear caller => cases caller <;> simp [rank, hpc]
  | polled caller ready =>
    rw [hpc] at hl hp
    cases caller with
    | thread => simp [rank, hpc]
    | idleLoop =>
      cases ready with
      | true =>
        have hra : rank s = 24 := by simp [rank, hpc]
        rw [hra]
        refine Nat.lt_succ_of_le (m := 23) ?_
        cases hr : s.receivedSyncReq with
        | false => exact rank_endTurn_of_received rfl
        | true => exact Nat.le_trans (rank_endTurn_of_received hr) (by omega)
      | false =>
        cases hr : s.receivedSyncReq with
        | false =>
          have hra : rank s = 28 := by simp [rank, hpc, hr]
          rw [hra]
          exact Nat.lt_succ_of_le (rank_endTurn hr)
        | true =>
          have hra : rank s = 3 * (8 - s.backupCounter) := by simp [rank, hpc, hr]
          have hle : s.backupCounter ≤ 7 := hl hr
          have hb : rank (endTurn recheckCount s) ≤ 3 * (7 - s.backupCounter) + 2 :=
            rank_endTurn_of_received hr
          refine Nat.lt_of_le_of_lt hb ?_
          omega
    | spin => cases ready <;> simp [rank, hpc]
  | disable => simp [rank, hpc]
  | stop => exact absurd hpc hs
  | resume => simp [rank, hpc]
  | load => simp [rank, hpc]

theorem rank_le (s : Backup) : rank s ≤ 30 := by
  unfold rank
  split <;> try split
  all_goals omega

theorem counts_threadStep (checkIdle : Bool) (recheckCount : ℕ) (idle : Bool) (s : Backup) :
    (threadStep checkIdle recheckCount idle s).applied = s.applied ∧
      (threadStep checkIdle recheckCount idle s).stops =
        if s.pc = .stop then s.stops + 1 else s.stops := by
  unfold threadStep
  split <;> rename_i hpc <;> simp only [hpc, reduceCtorEq, if_true, if_false, and_self]
  · split <;> exact ⟨rfl, rfl⟩
  · obtain ⟨ha, hs⟩ := counts_endTurn recheckCount _
    exact ⟨ha.trans (by split <;> rfl), hs.trans (by split <;> rfl)⟩

theorem stops_le {e : Event} (hs : (backup checkIdle recheckCount).step s e = some t) :
    s.stops ≤ t.stops := by
  cases e with
  | applyBegin | applyCheckpoint | applyEnd =>
    obtain ⟨-, rfl⟩ := guarded_eq_some.mp hs
    exact Nat.le_refl _
  | thread idle =>
    cases hs
    change s.stops ≤ (threadStep checkIdle recheckCount idle s).stops
    rw [(counts_threadStep checkIdle recheckCount idle s).2]
    split <;> omega

theorem Inv.towards_stop {e : Event} (h : Inv s) (hp : pending s = 1)
    (hok : Spaced checkIdle s e) (hst : (backup checkIdle recheckCount).step s e = some t) :
    s.stops < t.stops ∨ t.stops = s.stops ∧ pending t = 1 ∧
      rank t + t.clock ≤ rank s + s.clock := by
  have hc := h.count
  have hc' := (h.step hok hst).count
  cases e with
  | applyBegin | applyEnd =>
    obtain ⟨-, rfl⟩ := guarded_eq_some.mp hst
    exact .inr ⟨rfl, hp, Nat.le_refl _⟩
  | applyCheckpoint =>
    change s.applied = s.stops at hok
    omega
  | thread idle =>
    cases hst
    obtain ⟨ha, hs⟩ := counts_threadStep checkIdle recheckCount idle s
    by_cases hpc : s.pc = .stop
    · left
      change s.stops < (threadStep checkIdle recheckCount idle s).stops
      rw [hs, if_pos hpc]
      exact Nat.lt_succ_self _
    · right
      rw [if_neg hpc] at hs
      have hr : rank (threadStep checkIdle recheckCount idle s) < rank s :=
        h.rank_lt hp hpc idle
      refine ⟨hs, ?_, ?_⟩
      · change (threadStep checkIdle recheckCount idle s).applied =
          (threadStep checkIdle recheckCount idle s).stops + _ at hc'
        omega
      · change rank (threadStep checkIdle recheckCount idle s) + (s.clock + 1) ≤ _
        omega

/-- Requests are neither lost nor invented: the guest is not stopped more often than entries are
applied, what is not yet served is in the flag or taken, and the thread stops the guest for it
within 31 steps. -/
theorem requests_served (hrun : (backup checkIdle recheckCount).Run (Spaced checkIdle) .init s) :
    s.stops ≤ s.applied ∧ s.applied = s.stops + pending s ∧
      (s.stops < s.applied → ∀ t, (backup checkIdle recheckCount).Run (Spaced checkIdle) s t →
        s.clock + 31 ≤ t.clock → s.stops < t.stops) := by
  have hinv : Inv s := hrun.invariant inv_init fun _ _ _ h hok hstep => h.step hok hstep
  have hcount := hinv.count
  have hone := hinv.one
  refine ⟨by omega, hcount, fun hlt t ht hclock => ?_⟩
  have hranked := Run.ranked (I := fun x => Inv x ∧ (s.stops < x.stops ∨
      x.stops = s.stops ∧ pending x = 1)) (fun x => s.stops < x.stops) rank Backup.clock ht
    ⟨hinv, .inr ⟨rfl, by omega⟩⟩ ?_ ?_ ?_
  · rcases hranked with hgoal | hle
    · exact hgoal
    · have := rank_le s
      omega
  · rintro a e b ⟨ha, hgoal | ⟨hstops, hpending⟩⟩ hok hstep
    · exact ⟨ha.step hok hstep, .inl (Nat.lt_of_lt_of_le hgoal (stops_le hstep))⟩
    · refine ⟨ha.step hok hstep, ?_⟩
      exact (ha.towards_stop hpending hok hstep).imp (fun h => hstops ▸ h)
        fun h => ⟨h.1.trans hstops, h.2.1⟩
  · exact fun a e b hgoal hstep => Nat.lt_of_lt_of_le hgoal (stops_le hstep)
  · rintro a e b ⟨ha, hgoal | ⟨hstops, hpending⟩⟩ hok hstep
    · exact .inl (Nat.lt_of_lt_of_le hgoal (stops_le hstep))
    · exact (ha.towards_stop hpending hok hstep).imp (fun h => hstops ▸ h) fun h => h.2.2

/-- The backup applies a CHECKPOINT entry, finds its guest idle and stops it. -/
theorem request_served :
    ∃ s, (backup true 1).Run (Spaced true) .init s ∧ s.applied = 1 ∧ s.stops = 0 ∧
      ∀ t, (backup true 1).Run (Spaced true) s t → s.clock + 31 ≤ t.clock → s.stops < t.stops := by
  obtain ⟨s, hrun, happlied, hstops⟩ := exists_run_of_exec (M := backup true 1) (s := .init)
    (Spaced true) (p := fun s => s.applied = 1 ∧ s.stops = 0)
    [.thread false, .applyBegin, .thread true, .applyCheckpoint] (by decide)
  exact ⟨s, hrun, happlied, hstops, (requests_served hrun).2.2 (by omega)⟩

/-- Without the check for an idle guest the result of the poll is ignored: the backup stops its
guest although no CHECKPOINT entry has been applied. -/
theorem stops_without_request :
    ∃ s, (backup false 1).Run anyStep .init s ∧ s.applied = 0 ∧ s.stops = 1 :=
  exists_run_of_exec (M := backup false 1) (s := .init) anyStep
    (p := fun s => s.applied = 0 ∧ s.stops = 1)
    [.thread false, .thread false, .thread false, .thread false, .thread false] (by decide)

end VmFt.Colo.CheckpointRequest
