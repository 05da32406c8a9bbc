import Mathlib.Tactic.SplitIfs
import VmFt.Colo.Input

/-! # A consistent cut of the input

The packets in a saved state are those before its CHECKPOINT entry, and what the
backup delivers after it has loaded the state are those after the entry, provided
that no packet comes in between the request and the stop of the primary's guest,
and that the backup stops its own guest when it has delivered the packets up to the
entry and none beyond. Before its first checkpoint, in which its guest does not run
yet, nothing may wait for it.
-/

namespace VmFt.Colo.Input

open VmFt.System List Option

variable {k : ℕ} {l t a b : List Entry} {s s' : State} {P P' : Primary} {B B' : Backup}

/-! ### Cutting a log -/

@[simp] theorem mirrors_nil : mirrors [] = [] := rfl

@[simp] theorem mirrors_append : mirrors (l ++ t) = mirrors l ++ mirrors t :=
  filterMap_append

@[simp] theorem mirrors_mirror {p : ℕ} : mirrors (.mirror p :: l) = p :: mirrors l := rfl

@[simp] theorem mirrors_checkpoint : mirrors (.checkpoint :: l) = mirrors l := rfl

theorem split_append (h : split k l = some (a, b)) : split k (l ++ t) = some (a, b ++ t) := by
  induction l generalizing k a with
  | nil =>
    cases k with
    | zero =>
      obtain ⟨rfl, rfl⟩ : [] = a ∧ [] = b := by simpa [split] using h
      simp [split]
    | succ k => cases h
  | cons e l ih =>
    cases k with
    | zero =>
      obtain ⟨rfl, rfl⟩ : [] = a ∧ e :: l = b := by simpa [split] using h
      rfl
    | succ k =>
      cases e with
      | mirror p =>
        obtain ⟨⟨a', b'⟩, hr, heq⟩ := map_eq_some_iff.mp h
        obtain ⟨rfl, rfl⟩ : .mirror p :: a' = a ∧ b' = b := by simpa using heq
        simp [split, ih hr]
      | checkpoint =>
        by_cases hk : k = 0
        · obtain ⟨rfl, rfl⟩ : [] = a ∧ l = b := by simpa [split, hk] using h
          simp [split, hk]
        · simp only [split, hk, if_false] at h
          obtain ⟨⟨a', b'⟩, hr, heq⟩ := map_eq_some_iff.mp h
          obtain ⟨rfl, rfl⟩ : .checkpoint :: a' = a ∧ b' = b := by simpa using heq
          simp [split, hk, ih hr]

theorem split_of_count (hk : a.count .checkpoint = k) :
    split (k + 1) (a ++ .checkpoint :: b) = some (a, b) := by
  induction a generalizing k with
  | nil =>
    obtain rfl : 0 = k := hk
    rfl
  | cons e a ih =>
    cases e with
    | mirror p =>
      rw [count_cons_of_ne (by simp)] at hk
      simp [split, ih hk]
    | checkpoint =>
      rw [count_cons_self] at hk
      obtain ⟨j, rfl⟩ : ∃ j, k = j + 1 := ⟨k - 1, by omega⟩
      simp [split, ih (Nat.succ.inj hk)]

/-! ### The primary -/

/-- The CHECKPOINT entry of the checkpoint that is going on, at each point of the thread. -/
def Primary.Cut (P : Primary) : Prop :=
  match P.pc with
  | .idle => P.running ∧ (P.log ++ P.tailq).count .checkpoint = P.saves.length
  | .waiting rec => P.running ∧ ∃ a, P.log ++ P.tailq = a ++ [.checkpoint] ∧
      a.count .checkpoint = P.saves.length ∧ rec = a.length + 1
  | .returned => P.running ∧ ∃ a, P.log = a ++ [.checkpoint] ∧ P.tailq = [] ∧
      a.count .checkpoint = P.saves.length
  | .stopped => P.running = false ∧ ∃ a b, P.log = a ++ .checkpoint :: b ∧
      a.count .checkpoint = P.saves.length ∧ (b ++ P.tailq).count .checkpoint = 0 ∧
      P.delivered = mirrors a
  | .saved => P.running = false ∧ (P.log ++ P.tailq).count .checkpoint = P.saves.length

structure PrimaryInv (P : Primary) : Prop where
  committed : P.committed ≤ P.log.length
  queue : P.running → P.queue = []
  /-- Every packet that was submitted is delivered, queued or in the hands of the tap, in order. -/
  flow : P.delivered ++ P.queue ++ (P.tap.map Prod.fst).toList = mirrors (P.log ++ P.tailq)
  cut : P.Cut
  saves : ∀ k d, P.saves[k]? = some d → ∃ a b, split (k + 1) P.log = some (a, b) ∧ d = mirrors a

def PrimaryPc.requested : PrimaryPc → Bool
  | .waiting _ | .returned => true
  | _ => false

/-- No packet is read between the request of a checkpoint and the stop of the guest. When the
backup stops its guest, the last entry it has applied is the CHECKPOINT entry, its main loop has
read everything before, and nothing waits for a guest that does not run. The queue of a stopped
guest does not overflow. -/
def CleanCut (s : State) : Event → Prop
  | .arrive _ => s.primary.pc.requested = false
  | .receive => s.backup.running = false → s.backup.queue.length < nqMaxlen
  | .backupStop => s.backup.socket = [] ∧ s.backup.queue = [] ∧
      (s.primary.log.take s.backup.applied).getLast? = some .checkpoint ∧
      (s.primary.log.take s.backup.applied).count .checkpoint = s.backup.loads + 1
  | _ => True

instance (s : State) (e : Event) : Decidable (CleanCut s e) := by
  unfold CleanCut
  cases e <;> infer_instance

theorem PrimaryInv.arrive {p n : ℕ} (h : PrimaryInv P) (hok : P.pc.requested = false)
    (he : P.step n (.arrive p) = some P') : PrimaryInv P' := by
  obtain ⟨⟨htap, -⟩, rfl⟩ := guarded_eq_some.mp he
  refine ⟨h.committed, h.queue, ?_, ?_, h.saves⟩
  · have hf := h.flow
    simp only [htap, map_none, toList_none, List.append_nil] at hf
    simp [hf]
  · have hcut := h.cut
    unfold Primary.Cut at hcut ⊢
    cases hpc : P.pc with
    | waiting | returned => simp [hpc, PrimaryPc.requested] at hok
    | idle | saved => simpa [Primary.submit, hpc, count_append] using hcut
    | stopped =>
      simp only [hpc] at hcut
      obtain ⟨hrun, a, b, hlog, ha, hb, hd⟩ := hcut
      refine ⟨hrun, a, b, hlog, ha, ?_, hd⟩
      simpa [Primary.submit, count_append] using hb

theorem PrimaryInv.tapReturn {n : ℕ} (h : PrimaryInv P) (he : P.step n .tapReturn = some P') :
    PrimaryInv P' := by
  simp only [Primary.step] at he
  split at he
  case h_1 => cases he
  case h_2 p rec htap =>
    obtain ⟨-, rfl⟩ := guarded_eq_some.mp he
    have hf := h.flow
    have hcut := h.cut
    simp only [htap, map_some, toList_some] at hf
    split_ifs with hrun
    · have hq := h.queue hrun
      refine ⟨h.committed, h.queue, by simpa [hq] using hf, ?_, h.saves⟩
      unfold Primary.Cut at hcut ⊢
      cases hpc : P.pc with
      | idle | waiting | returned | saved => simpa [hpc] using hcut
      | stopped => simp [hpc, hrun] at hcut
    · refine ⟨h.committed, fun hr => absurd hr hrun, by simpa using hf, ?_, h.saves⟩
      unfold Primary.Cut at hcut ⊢
      cases hpc : P.pc <;> simpa [hpc] using hcut

theorem PrimaryInv.append {n : ℕ} (h : PrimaryInv P) (he : P.step n .append = some P') :
    PrimaryInv P' := by
  obtain rfl := Option.some.inj he
  refine ⟨?_, h.queue, by simpa using h.flow, ?_, ?_⟩
  · rw [length_append]
    exact Nat.le_add_right_of_le h.committed
  · have hcut := h.cut
    unfold Primary.Cut at hcut ⊢
    cases hpc : P.pc with
    | idle | waiting | saved => simpa [hpc] using hcut
    | returned =>
      simp only [hpc] at hcut
      obtain ⟨hrun, a, hlog, ht, ha⟩ := hcut
      exact ⟨hrun, a, by simp [hlog, ht], rfl, ha⟩
    | stopped =>
      simp only [hpc] at hcut
      obtain ⟨hrun, a, b, hlog, ha, hb, hd⟩ := hcut
      exact ⟨hrun, a, b ++ P.tailq, by simp [hlog], ha, by simpa using hb, hd⟩
  · intro k d hd
    obtain ⟨a, b, hs, rfl⟩ := h.saves k d hd
    exact ⟨a, _, split_append hs, rfl⟩

theorem PrimaryInv.commit {m n : ℕ} (h : PrimaryInv P) (he : P.step n (.commit m) = some P') :
    PrimaryInv P' := by
  obtain ⟨⟨-, hm⟩, rfl⟩ := guarded_eq_some.mp he
  exact { h with committed := hm }

theorem PrimaryInv.request {n : ℕ} (h : PrimaryInv P) (he : P.step n .request = some P') :
    PrimaryInv P' := by
  obtain ⟨hpc, rfl⟩ := guarded_eq_some.mp he
  have hcut := h.cut
  simp only [Primary.Cut, hpc] at hcut
  refine ⟨h.committed, h.queue, by simpa [Primary.submit] using h.flow, ?_, h.saves⟩
  refine ⟨hcut.1, P.log ++ P.tailq, by simp, hcut.2, ?_⟩
  simp

theorem PrimaryInv.requestReturn {n : ℕ} (h : PrimaryInv P)
    (he : P.step n .requestReturn = some P') : PrimaryInv P' := by
  simp only [Primary.step] at he
  split at he
  case h_1 rec hpc =>
    obtain ⟨hrec, rfl⟩ := guarded_eq_some.mp he
    have hcut := h.cut
    simp only [Primary.Cut, hpc] at hcut
    obtain ⟨hrun, a, hlog, ha, rfl⟩ := hcut
    have hc := h.committed
    have hlen := congrArg length hlog
    simp only [length_append, length_singleton] at hlen
    have ht : P.tailq = [] := length_eq_zero_iff.mp (by omega)
    refine ⟨h.committed, h.queue, h.flow, ⟨hrun, a, ?_, ht, ha⟩, h.saves⟩
    simpa [ht] using hlog
  case h_2 => cases he

theorem PrimaryInv.stop {n : ℕ} (h : PrimaryInv P) (he : P.step n .stop = some P') :
    PrimaryInv P' := by
  obtain ⟨⟨hpc, htap⟩, rfl⟩ := guarded_eq_some.mp he
  have hcut := h.cut
  simp only [Primary.Cut, hpc] at hcut
  obtain ⟨hrun, a, hlog, ht, ha⟩ := hcut
  have hq := h.queue hrun
  refine ⟨h.committed, fun _ => hq, h.flow, ⟨rfl, a, [], hlog, ha, by simp [ht], ?_⟩, h.saves⟩
  simpa [hq, htap, hlog, ht] using h.flow

theorem PrimaryInv.save {n : ℕ} (h : PrimaryInv P) (he : P.step n .save = some P') :
    PrimaryInv P' := by
  obtain ⟨⟨hpc, -⟩, rfl⟩ := guarded_eq_some.mp he
  have hcut := h.cut
  simp only [Primary.Cut, hpc] at hcut
  obtain ⟨hrun, a, b, hlog, ha, hb, hd⟩ := hcut
  refine ⟨h.committed, h.queue, h.flow, ⟨hrun, ?_⟩, ?_⟩
  · simp only [hlog, append_assoc, cons_append, count_append, count_cons_self,
      length_append, length_singleton] at hb ⊢
    omega
  · intro k d hk
    rcases Nat.lt_trichotomy k P.saves.length with hlt | rfl | hgt
    · rw [List.getElem?_append_left hlt] at hk
      exact h.saves k d hk
    · obtain rfl : P.delivered = d := by simpa using hk
      exact ⟨a, b, by rw [hlog]; exact split_of_count ha, hd⟩
    · rw [List.getElem?_eq_none (by simpa using Nat.succ_le_of_lt hgt)] at hk
      cases hk

theorem PrimaryInv.start {n : ℕ} (h : PrimaryInv P) (he : P.step n .start = some P') :
    PrimaryInv P' := by
  obtain ⟨⟨hpc, -, htap⟩, rfl⟩ := guarded_eq_some.mp he
  have hcut := h.cut
  simp only [Primary.Cut, hpc] at hcut
  exact ⟨h.committed, fun _ => rfl, by simpa using h.flow, ⟨rfl, hcut.2⟩, h.saves⟩

/-! ### The backup -/

/-- The packets that the backup still has to deliver. -/
def Backup.onTheWay (B : Backup) (log : List Entry) : List ℕ :=
  B.queue ++ B.socket ++ mirrors (log.drop B.applied)

def BackupPc.runs : BackupPc → Bool
  | .waiting | .requested | .disabled => true
  | .stopped | .loading | .loaded => false

def BackupPc.between : BackupPc → Bool
  | .stopped | .loading => true
  | _ => false

structure BackupInv (P : Primary) (B : Backup) : Prop where
  applied : B.applied ≤ B.commit
  commit : B.commit ≤ P.committed
  running : B.running → B.pc.runs
  queue : B.running → B.queue = []
  /-- Since the last load: what is delivered and what is on the way follow its entry. -/
  flow : ∃ a b, split B.loads P.log = some (a, b) ∧ B.delivered ++ B.onTheWay P.log = mirrors b
  /-- Before the next load: what is on the way follows the entry of that one. -/
  next : B.pc.between →
    ∃ a b, split (B.loads + 1) P.log = some (a, b) ∧ B.onTheWay P.log = mirrors b

theorem BackupInv.primary (h : BackupInv P B) (hlog : P'.log = P.log ++ t)
    (hc : P.committed ≤ P'.committed) (hlen : P.committed ≤ P.log.length) : BackupInv P' B := by
  have ha : B.applied ≤ P.log.length := Nat.le_trans h.applied (Nat.le_trans h.commit hlen)
  have hway : B.onTheWay P'.log = B.onTheWay P.log ++ mirrors t := by
    simp [Backup.onTheWay, hlog, drop_append_of_le_length ha]
  refine ⟨h.applied, Nat.le_trans h.commit hc, h.running, h.queue, ?_, fun hb => ?_⟩
  · obtain ⟨a, b, hs, hd⟩ := h.flow
    exact ⟨a, b ++ t, by rw [hlog]; exact split_append hs, by
      rw [hway, mirrors_append, ← hd, append_assoc]⟩
  · obtain ⟨a, b, hs, hd⟩ := h.next hb
    exact ⟨a, b ++ t, by rw [hlog]; exact split_append hs, by rw [hway, mirrors_append, hd]⟩

theorem BackupInv.of_onTheWay (h : BackupInv P B) (hl : B'.loads = B.loads)
    (hpc : B'.pc = B.pc) (hrun : B'.running = B.running) (ha : B'.applied ≤ B'.commit)
    (hc : B'.commit ≤ P.committed) (hqueue : B'.running → B'.queue = [])
    (hf : B'.delivered ++ B'.onTheWay P.log = B.delivered ++ B.onTheWay P.log)
    (hn : B.running = false → B'.onTheWay P.log = B.onTheWay P.log) : BackupInv P B' := by
  refine ⟨ha, hc, by rw [hrun, hpc]; exact h.running, hqueue, ?_, fun hb => ?_⟩
  · rw [hl, hf]
    exact h.flow
  · rw [hpc] at hb
    have hstop : B.running = false := by
      refine Bool.eq_false_iff.mpr fun hr => ?_
      have := h.running hr
      revert hb this
      cases B.pc <;> simp [BackupPc.between, BackupPc.runs]
    rw [hl, hn hstop]
    exact h.next hb

theorem BackupInv.applyEntry {i : Bool} (h : BackupInv P B)
    (he : B.step i P .applyEntry = some B') : BackupInv P B' := by
  simp only [Backup.step] at he
  split at he
  case h_1 => cases he
  case h_2 e hentry =>
    obtain ⟨⟨-, hlt⟩, rfl⟩ := guarded_eq_some.mp he
    obtain ⟨hlen, hget⟩ := List.getElem?_eq_some_iff.mp hentry
    have hd : P.log.drop B.applied = e :: P.log.drop (B.applied + 1) := by
      rw [drop_eq_getElem_cons hlen, hget]
    have hway : ∀ B' : Backup, B'.queue = B.queue → B'.applied = B.applied + 1 →
        B'.socket ++ mirrors (P.log.drop (B.applied + 1)) =
          B.socket ++ mirrors (P.log.drop B.applied) → B'.onTheWay P.log = B.onTheWay P.log := by
      intro B' hq ha hs
      rw [Backup.onTheWay, Backup.onTheWay, hq, ha, append_assoc, hs, append_assoc]
    cases e with
    | mirror p =>
      have hsa := hway { B with applied := B.applied + 1, socket := B.socket ++ [p] } rfl rfl
        (by simp [hd])
      exact h.of_onTheWay rfl rfl rfl hlt h.commit h.queue (by rw [hsa]) fun _ => hsa
    | checkpoint =>
      have hsa := hway { B with applied := B.applied + 1, checkpointReq := true } rfl rfl
        (by simp [hd])
      exact h.of_onTheWay rfl rfl rfl hlt h.commit h.queue (by rw [hsa]) fun _ => hsa

theorem BackupInv.receive {i : Bool} (h : BackupInv P B) (hok : CleanCut ⟨P, B⟩ .receive)
    (he : B.step i P .receive = some B') : BackupInv P B' := by
  simp only [Backup.step] at he
  split at he
  case h_1 => cases he
  case h_2 p rest hs =>
    obtain rfl := Option.some.inj he
    split_ifs with hrun hfits
    · have hq := h.queue hrun
      refine h.of_onTheWay rfl rfl rfl h.applied h.commit h.queue ?_ (fun hno => ?_)
      · simp [Backup.onTheWay, hq, hs]
      · simp [hno] at hrun
    · have hsa : Backup.onTheWay { B with socket := rest, queue := B.queue ++ [p] } P.log =
          B.onTheWay P.log := by simp [Backup.onTheWay, hs]
      exact h.of_onTheWay rfl rfl rfl h.applied h.commit (fun hr => absurd hr hrun) (by rw [hsa])
        fun _ => hsa
    · exact absurd (hok (by simpa using hrun)) hfits

theorem BackupInv.backupStop {i : Bool} (h : BackupInv P B) (hok : CleanCut ⟨P, B⟩ .backupStop)
    (he : B.step i P .backupStop = some B') : BackupInv P B' := by
  obtain ⟨hpc, rfl⟩ := guarded_eq_some.mp he
  obtain ⟨hs, hq, hl, hc⟩ := hok
  refine ⟨h.applied, h.commit, nofun, nofun, h.flow, fun _ => ?_⟩
  obtain ⟨a, ha⟩ := getLast?_eq_some_iff.mp hl
  refine ⟨a, P.log.drop B.applied, ?_, ?_⟩
  · have hlog : a ++ .checkpoint :: P.log.drop B.applied = P.log := by
      conv_rhs => rw [← take_append_drop B.applied P.log, ha]
      simp
    have hsp := split_of_count (a := a) (b := P.log.drop B.applied) (k := B.loads)
      (by simpa [ha, count_append] using hc)
    rwa [hlog] at hsp
  · simp only at hs hq
    simp [Backup.onTheWay, hq, hs]

theorem BackupInv.step {i : Bool} {e : Event} (h : BackupInv P B) (hok : CleanCut ⟨P, B⟩ e)
    (he : B.step i P e = some B') : BackupInv P B' := by
  cases e
  case applyEntry => exact h.applyEntry he
  case receive => exact h.receive hok he
  case backupStop => exact h.backupStop hok he
  case learn n =>
    obtain ⟨⟨hle, hn⟩, rfl⟩ := guarded_eq_some.mp he
    exact { h with applied := Nat.le_trans h.applied hle, commit := hn }
  case applyBegin | applyEnd =>
    obtain ⟨-, rfl⟩ := guarded_eq_some.mp he
    exact { h with }
  case backupRequest | disable =>
    obtain ⟨hpc, rfl⟩ := guarded_eq_some.mp he
    exact ⟨h.applied, h.commit, fun _ => rfl, h.queue, h.flow, by simp [BackupPc.between]⟩
  case resume =>
    obtain ⟨hpc, rfl⟩ := guarded_eq_some.mp he
    refine ⟨h.applied, h.commit, fun hr => ?_, h.queue, h.flow, fun _ => h.next (by rw [hpc]; rfl)⟩
    simpa [hpc, BackupPc.runs] using h.running hr
  case load =>
    obtain ⟨⟨hpc, -⟩, rfl⟩ := guarded_eq_some.mp he
    refine ⟨h.applied, h.commit, fun hr => ?_, h.queue, h.next (by rw [hpc]; rfl),
      by simp [BackupPc.between]⟩
    simpa [hpc, BackupPc.runs] using h.running hr
  case backupStart =>
    obtain ⟨hpc, rfl⟩ := guarded_eq_some.mp he
    refine ⟨h.applied, h.commit, fun _ => rfl, fun _ => rfl, ?_, by simp [BackupPc.between]⟩
    obtain ⟨a, b, hs, hd⟩ := h.flow
    exact ⟨a, b, hs, by simpa [Backup.onTheWay] using hd⟩
  all_goals cases he

/-! ### Runs -/

structure CutInv (s : State) : Prop where
  primary : PrimaryInv s.primary
  backup : BackupInv s.primary s.backup

theorem cutInv_init : CutInv .init where
  primary := ⟨Nat.le_refl _, fun _ => rfl, rfl, ⟨rfl, rfl⟩, by simp [State.init]⟩
  backup := ⟨Nat.le_refl _, Nat.le_refl _, nofun, nofun, ⟨[], [], rfl, rfl⟩,
    by simp [State.init, BackupPc.between]⟩

theorem Primary.step_log {n : ℕ} {e : Event} (he : P.step n e = some P') :
    (∃ t, P'.log = P.log ++ t) ∧ P.committed ≤ P'.committed := by
  cases e
  case append =>
    obtain rfl := Option.some.inj he
    exact ⟨⟨_, rfl⟩, Nat.le_refl _⟩
  case commit n =>
    obtain ⟨⟨hle, -⟩, rfl⟩ := guarded_eq_some.mp he
    exact ⟨⟨[], (List.append_nil _).symm⟩, hle⟩
  case tapReturn =>
    simp only [Primary.step] at he
    split at he
    · cases he
    · obtain ⟨-, rfl⟩ := guarded_eq_some.mp he
      split_ifs
      · exact ⟨⟨[], (List.append_nil _).symm⟩, Nat.le_refl _⟩
      · exact ⟨⟨[], (List.append_nil _).symm⟩, Nat.le_refl _⟩
  case requestReturn =>
    simp only [Primary.step] at he
    split at he
    · obtain ⟨-, rfl⟩ := guarded_eq_some.mp he
      exact ⟨⟨[], (List.append_nil _).symm⟩, Nat.le_refl _⟩
    · cases he
  case arrive | request | stop | save | start =>
    obtain ⟨-, rfl⟩ := guarded_eq_some.mp he
    exact ⟨⟨[], (List.append_nil _).symm⟩, Nat.le_refl _⟩
  all_goals cases he

theorem PrimaryInv.step {n : ℕ} {e : Event} (h : PrimaryInv P)
    (hok : ∀ p, e = .arrive p → P.pc.requested = false) (he : P.step n e = some P') :
    PrimaryInv P' := by
  cases e with
  | arrive p => exact h.arrive (hok p rfl) he
  | tapReturn => exact h.tapReturn he
  | append => exact h.append he
  | commit => exact h.commit he
  | request => exact h.request he
  | requestReturn => exact h.requestReturn he
  | stop => exact h.stop he
  | save => exact h.save he
  | start => exact h.start he
  | _ => cases he

theorem CutInv.of_primary {e : Event} (h : CutInv s) (hok : CleanCut s e)
    (he : (s.primary.step s.backup.loads e).map (fun P => { s with primary := P }) = some s') :
    CutInv s' := by
  obtain ⟨P, hP, rfl⟩ := map_eq_some_iff.mp he
  obtain ⟨⟨t, hlog⟩, hc⟩ := Primary.step_log hP
  refine ⟨h.primary.step ?_ hP, h.backup.primary hlog hc h.primary.committed⟩
  rintro p rfl
  exact hok

theorem CutInv.of_backup {i : Bool} {e : Event} (h : CutInv s) (hok : CleanCut s e)
    (he : (s.backup.step i s.primary e).map (fun B => { s with backup := B }) = some s') :
    CutInv s' := by
  obtain ⟨B, hB, rfl⟩ := map_eq_some_iff.mp he
  exact ⟨h.primary, h.backup.step hok hB⟩

theorem CutInv.step {i : Bool} {e : Event} (h : CutInv s) (hok : CleanCut s e)
    (he : (input i).step s e = some s') : CutInv s' := by
  cases e
  case arrive | tapReturn | append | commit | request | requestReturn | stop | save | start =>
    exact h.of_primary hok he
  all_goals exact h.of_backup hok he

end VmFt.Colo.Input
