import VmFt.Colo.Failover

/-! # The locks of the incoming thread

The incoming thread takes the iothread lock to reset and load the machine, and it is
a reader of RCU while it exchanges the dirty bitmaps. Both should be given back: the
lock before the thread waits for the bottom half, the reader at the end of each pass
through the loop.
-/

namespace VmFt.Colo.Failover

open VmFt.System List

/-! ### The depth of the reader -/

def rcuReadLock (depth : ℕ) : ℕ := depth + 1

def rcuReadUnlock (depth : ℕ) : ℕ := depth - 1

/-- What `backup_bitmap_sync` does to the depth of the reader. -/
def backupBitmapSync (depth : ℕ) : ℕ := rcuReadUnlock (rcuReadLock depth)

/-- What `backup_prepare_bitmap` does to the depth: nothing follows the lock. -/
def backupPrepareBitmap (depth : ℕ) : ℕ := backupBitmapSync (rcuReadLock depth)

/-- What `ram_load` does to the depth. -/
def ramLoad (depth : ℕ) : ℕ := rcuReadUnlock (rcuReadLock depth)

def inPass : Pc → Bool
  | .poll | .stop | .load | .reset | .device | .replication | .checkpoint | .loaded | .sendLoaded
  | .startVm => true
  | _ => false

/-- The secondary, the depth of the thread as a reader, the depth at which the last pass began, and
the depths at the beginning and at the end of every pass that is over. -/
structure Tracked where
  thread : Secondary
  rcu : ℕ
  entered : ℕ
  passes : List (ℕ × ℕ)
deriving DecidableEq

def Tracked.init : Tracked := ⟨.init, 0, 0, []⟩

/-- The depth after an event; the bitmaps are exchanged and the memory is loaded at `load`. -/
def Tracked.depthAfter (s : Tracked) : Event → ℕ
  | .thread _ => if s.thread.pc = .load then ramLoad (backupPrepareBitmap s.rcu) else s.rcu
  | _ => s.rcu

def Tracked.after (s : Tracked) (e : Event) (t : Secondary) : Tracked where
  thread := t
  rcu := s.depthAfter e
  entered := if inPass s.thread.pc then s.entered else s.rcu
  passes :=
    if inPass s.thread.pc && !inPass t.pc then s.passes ++ [(s.entered, s.depthAfter e)]
    else s.passes

def tracked : System Tracked Event where
  step s e := (secondary.step s.thread e).map (s.after e)

/-- The lock is free of the thread when it waits, and every pass has left the depth as it was. -/
structure Balanced (s : Tracked) : Prop where
  lock : s.thread.pc = .waiting → s.thread.lock ≠ .thread
  depth : ∀ p ∈ s.passes, p.2 = p.1

/-- The pass ends at its check for a failover request. -/
def Unprepared (s : Tracked) : Event → Prop
  | .thread _ => s.thread.pc = .poll → s.thread.failover ≠ .none
  | _ => True

instance (s : Tracked) (e : Event) : Decidable (Unprepared s e) := by
  rcases e <;> unfold Unprepared <;> infer_instance

def Event.ofThread : Event → Bool
  | .thread _ => true
  | _ => false

variable {s t : Tracked} {a b : Secondary} {e : Event}

theorem step_eq_some :
    tracked.step s e = some t ↔ ∃ b, secondary.step s.thread e = some b ∧ s.after e b = t :=
  Option.map_eq_some_iff

theorem depth_load (depth : ℕ) : ramLoad (backupPrepareBitmap depth) = depth + 1 := rfl

theorem step_of_not_ofThread (h : secondary.step a e = some b) (he : e.ofThread = false) :
    b.pc = a.pc ∧ (a.lock ≠ .thread → b.lock ≠ .thread) := by
  rcases e with _ | _ | _ | _ | _ | _
  · cases he
  · obtain ⟨-, rfl⟩ := guarded_eq_some.mp h
    unfold failoverRequestActive
    split <;> exact ⟨rfl, id⟩
  · obtain ⟨-, rfl⟩ := guarded_eq_some.mp h
    split
    · exact ⟨rfl, nofun⟩
    · exact ⟨rfl, id⟩
  · obtain ⟨-, rfl⟩ := guarded_eq_some.mp h
    unfold secondaryVmDoFailover
    split
    · exact ⟨rfl, nofun⟩
    · exact ⟨rfl, id⟩
  · obtain ⟨-, rfl⟩ := guarded_eq_some.mp h
    exact ⟨rfl, nofun⟩
  · obtain ⟨-, rfl⟩ := guarded_eq_some.mp h
    unfold nestedBh
    split <;> exact ⟨rfl, id⟩

theorem exists_of_ofThread (he : e.ofThread = true) : ∃ ok, e = .thread ok := by
  rcases e with ok | _ | _ | _ | _ | _
  · exact ⟨ok, rfl⟩
  all_goals cases he

/-! ### Every checkpoint leaks a reader -/

/-- How much deeper than at the beginning the reader is at each point of a pass. -/
def leaked : Pc → ℕ
  | .reset | .device | .replication | .checkpoint | .loaded | .sendLoaded | .startVm => 1
  | _ => 0

/-- The thread has gone past its check for a failover request, now or in an earlier pass. -/
structure Prepared (s : Tracked) : Prop where
  depth : inPass s.thread.pc = true → s.rcu = s.entered + leaked s.thread.pc
  passed : (inPass s.thread.pc = true ∧ s.thread.pc ≠ .poll) ∨ ∃ p ∈ s.passes, p.2 ≠ p.1

structure Clean (s : Tracked) : Prop where
  pc : inPass s.thread.pc = true → s.thread.pc = .poll ∧ s.rcu = s.entered
  lock : s.thread.lock ≠ .thread
  depth : ∀ p ∈ s.passes, p.2 = p.1

theorem Clean.balanced (h : Clean s) : Balanced s :=
  ⟨fun _ => h.lock, h.depth⟩

theorem Prepared.not_balanced (h : Prepared s) (ho : inPass s.thread.pc = false) :
    ¬ Balanced s := by
  rintro ⟨-, hd⟩
  rcases h.passed with ⟨hpa, -⟩ | ⟨p, hp, hne⟩
  · exact absurd (ho.symm.trans hpa) nofun
  · exact hne (hd p hp)

def successors : Pc → List Pc
  | .start => [.init]
  | .init => [.setup]
  | .setup => [.loop, .out]
  | .loop => [.poll, .out]
  | .poll => [.stop, .out]
  | .stop => [.load]
  | .load => [.reset, .out]
  | .reset => [.device]
  | .device => [.replication, .out]
  | .replication => [.checkpoint, .out]
  | .checkpoint => [.loaded, .out]
  | .loaded => [.sendLoaded, .out]
  | .sendLoaded => [.startVm, .out]
  | .startVm => [.loop]
  | .out => [.waiting]
  | .waiting => [.done]
  | .done => []

theorem pc_mem_successors {ok : Bool} (h : threadStep a ok = some b) : b.pc ∈ successors a.pc := by
  unfold threadStep at h
  cases hpc : a.pc <;> rw [hpc] at h <;> dsimp only at h
  case done => cases h
  case start | init | out | startVm =>
    cases h
    exact mem_singleton_self _
  case setup =>
    obtain ⟨-, rfl⟩ := guarded_eq_some.mp h
    cases ok <;> simp [successors]
  case stop | reset | waiting =>
    obtain ⟨-, rfl⟩ := guarded_eq_some.mp h
    exact mem_singleton_self _
  case loop | poll | load | device | replication | checkpoint | sendLoaded =>
    cases h
    split <;> simp [successors, unlockOut]
  case loaded =>
    cases h
    split <;> simp [successors, failoverRequestActive]

theorem eq_poll_of_mem_successors {p q : Pc} (h : q ∈ successors p) (hp : inPass p = false)
    (hq : inPass q = true) : q = .poll := by
  cases p <;> simp_all [successors, inPass]
  all_goals rcases h with rfl | rfl <;> simp_all

theorem leaked_of_mem_successors {p q : Pc} (h : q ∈ successors p) (hp : inPass p = true)
    (hpo : p ≠ .poll) :
    q ≠ .poll ∧ leaked p + (if p = .load then 1 else 0) = if inPass q then leaked q else 1 := by
  cases p <;> simp_all [successors, inPass, leaked]
  all_goals rcases h with rfl | rfl <;> simp

/-! ### What an event does to the depth -/

section After

variable {q : Secondary}

theorem after_rcu_of_ne_load (hpc : s.thread.pc ≠ .load) : (s.after e q).rcu = s.rcu := by
  rcases e with _ | _ | _ | _ | _ | _ <;> simp [Tracked.after, Tracked.depthAfter, hpc]

theorem after_of_not_inPass (hpc : inPass s.thread.pc = false) :
    (s.after e q).rcu = s.rcu ∧ (s.after e q).entered = s.rcu ∧
      (s.after e q).passes = s.passes := by
  refine ⟨after_rcu_of_ne_load ?_, by simp [Tracked.after, hpc], by simp [Tracked.after, hpc]⟩
  intro hl
  rw [hl] at hpc
  exact absurd hpc nofun

theorem after_of_same_pc (he : e.ofThread = false) (hpc : q.pc = s.thread.pc) :
    (s.after e q).rcu = s.rcu ∧ (s.after e q).passes = s.passes ∧
      (inPass s.thread.pc = true → (s.after e q).entered = s.entered) := by
  refine ⟨?_, ?_, fun hp => by simp [Tracked.after, hp]⟩
  · rcases e with _ | _ | _ | _ | _ | _
    · cases he
    all_goals rfl
  · cases hp : inPass s.thread.pc <;> simp [Tracked.after, hpc, hp]

theorem after_passes_of_over (hp : inPass s.thread.pc = true) (ho : inPass q.pc = false) :
    (s.after e q).passes = s.passes ++ [(s.entered, (s.after e q).rcu)] := by
  simp [Tracked.after, hp, ho]

end After

theorem Prepared.thread {ok : Bool} (h : Prepared s) (hs : threadStep s.thread ok = some b) :
    Prepared (s.after (.thread ok) b) := by
  have hn := pc_mem_successors hs
  cases hps : inPass s.thread.pc with
  | false =>
    obtain ⟨hrcu, he, hpa⟩ :=
      after_of_not_inPass (e := .thread ok) (q := b) hps
    refine ⟨fun hin => ?_, .inr ?_⟩
    · have hpo : b.pc = .poll := eq_poll_of_mem_successors hn hps hin
      rw [hrcu, he]
      simp [Tracked.after, hpo, leaked]
    · rw [hpa]
      exact h.passed.resolve_left fun hl => absurd (hps.symm.trans hl.1) nofun
  | true =>
    have hd := h.depth hps
    by_cases hpo : s.thread.pc = .poll
    · have hrcu :=
        after_rcu_of_ne_load (s := s) (e := .thread ok) (q := b) (by simp [hpo])
      obtain ⟨p, hp, hne⟩ := h.passed.resolve_left fun hl => hl.2 hpo
      refine ⟨fun hin => ?_, .inr ⟨p, ?_, hne⟩⟩
      · rw [hrcu, hd, hpo]
        rw [hpo] at hn
        have hb : b.pc = .stop ∨ b.pc = .out := by simpa [successors] using hn
        rcases hb with hb | hb <;> simp_all [Tracked.after, leaked, inPass]
      · simp only [Tracked.after]
        split
        · exact mem_append_left _ hp
        · exact hp
    · obtain ⟨hq, hle⟩ := leaked_of_mem_successors hn hps hpo
      have hrcu : (s.after (.thread ok) b).rcu =
          s.entered + if inPass b.pc then leaked b.pc else 1 := by
        rw [← hle]
        simp only [Tracked.after, Tracked.depthAfter, depth_load]
        split <;> omega
      cases hin : inPass b.pc with
      | true =>
        refine ⟨fun _ => ?_, .inl ⟨hin, hq⟩⟩
        rw [hrcu]
        simp [Tracked.after, hps, hin]
      | false =>
        refine ⟨fun hin' => absurd (hin.symm.trans hin') nofun, .inr ?_⟩
        rw [after_passes_of_over hps hin, hrcu]
        exact ⟨_, mem_append_right _ (mem_singleton_self _), by simp [hin]⟩

theorem Prepared.step (h : Prepared s) (hs : tracked.step s e = some t) : Prepared t := by
  obtain ⟨b, hb, rfl⟩ := step_eq_some.mp hs
  cases he : e.ofThread with
  | true =>
    obtain ⟨ok, rfl⟩ := exists_of_ofThread he
    exact h.thread hb
  | false =>
    obtain ⟨hpc, hl⟩ := step_of_not_ofThread hb he
    obtain ⟨hrcu, hp, hen⟩ := after_of_same_pc he hpc
    refine ⟨fun hin => ?_, ?_⟩
    · change inPass b.pc = true at hin
      rw [hpc] at hin
      rw [hrcu, hen hin, h.depth hin]
      simp [Tracked.after, hpc]
    · rw [hp]
      simpa [Tracked.after, hpc] using h.passed

theorem lock_of_threadStep {ok : Bool} (h : threadStep a ok = some b)
    (hpc : inPass a.pc = true → a.pc = .poll) : b.lock = a.lock := by
  unfold threadStep at h
  cases hp : a.pc <;> rw [hp] at h hpc <;> dsimp only at h
  case done => cases h
  case start | init | out | loop | poll =>
    cases h
    rfl
  case setup | waiting =>
    obtain ⟨-, rfl⟩ := guarded_eq_some.mp h
    rfl
  case stop | load | reset | device | replication | checkpoint | loaded | sendLoaded | startVm =>
    exact absurd (hpc rfl) nofun

theorem Clean.initial : Clean .init :=
  ⟨nofun, nofun, nofun⟩

theorem Clean.thread {ok : Bool} (h : Clean s) (hok : Unprepared s (.thread ok))
    (hs : threadStep s.thread ok = some b) : Clean (s.after (.thread ok) b) := by
  have hl : b.lock ≠ .thread := by
    rw [lock_of_threadStep hs fun hin => (h.pc hin).1]
    exact h.lock
  cases hps : inPass s.thread.pc with
  | false =>
    obtain ⟨hrcu, he, hpa⟩ :=
      after_of_not_inPass (e := .thread ok) (q := b) hps
    refine ⟨fun hin => ⟨?_, hrcu.trans he.symm⟩, hl, ?_⟩
    · exact eq_poll_of_mem_successors (pc_mem_successors hs) hps hin
    · rw [hpa]
      exact h.depth
  | true =>
    obtain ⟨hpo, hrcu⟩ := h.pc hps
    have hb : b = { s.thread with pc := .out } := by
      simp only [threadStep, hpo, if_neg (hok hpo)] at hs
      exact (Option.some.inj hs).symm
    subst hb
    refine ⟨nofun, hl, fun p hp => ?_⟩
    rw [after_passes_of_over hps rfl, after_rcu_of_ne_load (by simp [hpo])] at hp
    rcases mem_append.mp hp with hp | hp
    · exact h.depth p hp
    · rw [mem_singleton.mp hp]
      exact hrcu

theorem Clean.step (h : Clean s) (hok : Unprepared s e) (hs : tracked.step s e = some t) :
    Clean t := by
  obtain ⟨b, hb, rfl⟩ := step_eq_some.mp hs
  cases he : e.ofThread with
  | true =>
    obtain ⟨ok, rfl⟩ := exists_of_ofThread he
    exact h.thread hok hb
  | false =>
    obtain ⟨hpc, hl⟩ := step_of_not_ofThread hb he
    obtain ⟨hrcu, hp, hen⟩ := after_of_same_pc he hpc
    refine ⟨fun hin => ?_, hl h.lock, ?_⟩
    · change inPass b.pc = true at hin
      rw [hpc] at hin
      obtain ⟨hpo, heq⟩ := h.pc hin
      exact ⟨hpc.trans hpo, by rw [hrcu, hen hin, heq]⟩
    · rw [hp]
      exact h.depth

theorem Clean.prepared (h : Clean s) (hok : ¬ Unprepared s e) (hs : tracked.step s e = some t) :
    Prepared t := by
  obtain ⟨b, hb, rfl⟩ := step_eq_some.mp hs
  cases he : e.ofThread with
  | false =>
    rcases e with _ | _ | _ | _ | _ | _
    · cases he
    all_goals exact absurd trivial hok
  | true =>
    obtain ⟨ok, rfl⟩ := exists_of_ofThread he
    simp only [Unprepared, Classical.not_imp, Decidable.not_not] at hok
    obtain ⟨hp, hn⟩ := hok
    have hin : inPass s.thread.pc = true := by rw [hp]; rfl
    have hpc : b.pc = .stop := by
      simp only [secondary, Failover.step, threadStep, hp, hn] at hb
      rw [← Option.some.inj hb]
      rfl
    have ht : (s.after (.thread ok) b).thread.pc = .stop := hpc
    refine ⟨fun _ => ?_, .inl (by simp [ht, inPass])⟩
    rw [after_rcu_of_ne_load (by simp [hp]), (h.pc hin).2, ht]
    simp [Tracked.after, hin, leaked]

/-- When no pass is under way, everything was given back exactly if each pass ended at its check
for a failover request: a pass that went on has left a reader behind. -/
theorem balanced_iff {es : List Event} (hexec : tracked.exec anyStep .init es = some s)
    (hover : inPass s.thread.pc = false) :
    Balanced s ↔ tracked.exec Unprepared .init es = some s := by
  constructor
  · intro hbalanced
    refine (exec_or_of_breach (I := Clean) (D := Prepared) hexec .initial
      (fun _ _ _ ha hok hstep => ha.step hok hstep)
      (fun _ _ _ ha _ hok hstep => ha.prepared hok hstep)
      (fun _ _ _ ha _ hstep => ha.step hstep)).resolve_right fun hprepared => ?_
    exact hprepared.not_balanced hover hbalanced
  · intro hclean
    have hs : Clean s := (exec_run hclean).invariant .initial
      fun _ _ _ ha hok hstep => ha.step hok hstep
    exact hs.balanced

def earlyRequest : List Event :=
  [.thread true, .thread true, .thread true, .request, .thread true, .thread true, .thread true]

def waitingForBh : Tracked :=
  ⟨⟨.waiting, .free, true, .request, .scheduled, false, 0, true, false⟩, 0, 0, [(0, 0)]⟩

theorem waitingForBh_balanced :
    tracked.exec anyStep .init earlyRequest = some waitingForBh ∧ Balanced waitingForBh := by
  have hexec : tracked.exec anyStep .init earlyRequest = some waitingForBh := by decide +kernel
  exact ⟨hexec, (balanced_iff hexec rfl).mpr (by decide +kernel)⟩

/-- After one checkpoint the thread is still a reader, and when it cannot send `VMSTATE_LOADED`, or
finds a failover to be launched again, it waits for the bottom half with the lock held. -/
theorem checkpoint_not_balanced :
    (∃ s, tracked.Run anyStep .init s ∧ s.passes = [(0, 1)] ∧ s.thread.pc = .loop) ∧
      (∃ s, tracked.Run anyStep .init s ∧ s.thread.sendFailed = true ∧ s.thread.pc = .waiting ∧
        s.thread.lock = .thread) ∧
      ∃ s, tracked.Run anyStep .init s ∧ s.thread.sendFailed = false ∧ s.thread.pc = .waiting ∧
        s.thread.lock = .thread := by
  refine ⟨exists_run_of_exec anyStep (replicate 14 (.thread true))
      (by decide +kernel), ?_, ?_⟩
  · exact exists_run_of_exec anyStep (replicate 12 (.thread true) ++
      [.thread false, .thread true]) (by decide +kernel)
  · exact exists_run_of_exec anyStep (replicate 8 (.thread true) ++
      [.request, .nested] ++ replicate 5 (.thread true)) (by decide +kernel)

/-! ### The exits that keep the lock -/

/-- Neither of the two exits between the end of the loading and the unlock is taken. -/
def Released (s : Secondary) : Event → Prop
  | .thread ok => (s.pc = .loaded → s.failover ≠ .relaunch) ∧ (s.pc = .sendLoaded → ok)
  | _ => True

instance (s : Secondary) (e : Event) : Decidable (Released s e) := by
  rcases e <;> unfold Released <;> infer_instance

/-- The thread holds the lock where it should, and the bottom half runs under the lock. -/
structure LockInv (a : Secondary) : Prop where
  thread : a.lock = .thread ↔ holdsLock a.pc false = true
  main : a.bh = .running ∨ a.bh = .joining → a.lock = .main

structure KeptLock (a : Secondary) : Prop where
  lock : a.lock = .thread
  left : hasLeftLoop a.pc = true
  bh : ¬ (a.bh = .running ∨ a.bh = .joining)

theorem LockInv.initial : LockInv .init :=
  ⟨by decide, by decide⟩

theorem LockInv.goto (h : LockInv a) {pc : Pc} (hpc : holdsLock pc false = holdsLock a.pc false)
    (hb : b.pc = pc ∧ b.lock = a.lock ∧ b.bh = a.bh) : LockInv b := by
  obtain ⟨rfl, hl, hbh⟩ := hb
  exact ⟨by rw [hl, hpc]; exact h.thread, by rw [hl, hbh]; exact h.main⟩

theorem LockInv.bh (h : LockInv a) (hl : a.lock ≠ .main) : ¬ (a.bh = .running ∨ a.bh = .joining) :=
  fun hbh => hl (h.main hbh)

theorem LockInv.unlockOut (h : LockInv a) (hl : a.lock = .thread) : LockInv (unlockOut a) :=
  ⟨by simp [Failover.unlockOut, holdsLock], fun hbh => absurd hbh (h.bh (by simp [hl]))⟩

theorem LockInv.threadStep {ok : Bool} (h : LockInv a) (hok : Released a (.thread ok))
    (hs : threadStep a ok = some b) : LockInv b := by
  have ht := h.thread
  unfold Failover.threadStep at hs
  cases hpc : a.pc <;> rw [hpc] at hs ht <;> dsimp only at hs
  case start | init =>
    cases hs
    exact h.goto (by rw [hpc]; rfl) ⟨rfl, rfl, rfl⟩
  case setup =>
    obtain ⟨-, rfl⟩ := guarded_eq_some.mp hs
    cases ok <;> exact h.goto (by rw [hpc]; rfl) ⟨rfl, rfl, rfl⟩
  case loop | poll | load =>
    cases hs
    split <;> exact h.goto (by rw [hpc]; rfl) ⟨rfl, rfl, rfl⟩
  case stop | waiting =>
    obtain ⟨-, rfl⟩ := guarded_eq_some.mp hs
    exact h.goto (by rw [hpc]; rfl) ⟨rfl, rfl, rfl⟩
  case reset =>
    obtain ⟨hf, rfl⟩ := guarded_eq_some.mp hs
    exact ⟨by simp [holdsLock], fun hbh => absurd hbh (h.bh (by simp [hf]))⟩
  case device | replication | checkpoint =>
    cases hs
    split
    · exact h.goto (by rw [hpc]; rfl) ⟨rfl, rfl, rfl⟩
    · exact h.unlockOut (ht.mpr rfl)
  case loaded =>
    cases hs
    rw [if_neg (hok.1 hpc)]
    exact h.goto (by rw [hpc]; rfl) ⟨rfl, rfl, rfl⟩
  case sendLoaded =>
    cases hs
    rw [if_pos (hok.2 hpc)]
    exact h.goto (by rw [hpc]; rfl) ⟨rfl, rfl, rfl⟩
  case startVm =>
    cases hs
    exact ⟨by simp [holdsLock], fun hbh => absurd hbh (h.bh (by simp [ht.mpr rfl]))⟩
  case out =>
    cases hs
    exact h.goto (by rw [hpc]; rfl) ⟨rfl, rfl, rfl⟩
  case done => cases hs

theorem LockInv.step (h : LockInv a) (hok : Released a e) (hs : secondary.step a e = some b) :
    LockInv b := by
  have ht := h.thread
  rcases e with ok | _ | _ | _ | _ | _
  · exact h.threadStep hok hs
  · obtain ⟨-, rfl⟩ := guarded_eq_some.mp hs
    unfold failoverRequestActive
    split
    · exact ⟨ht, by simp⟩
    · exact h
  · obtain ⟨⟨-, hf⟩, rfl⟩ := guarded_eq_some.mp hs
    split
    · rw [hf] at ht
      exact ⟨by simpa using ht, fun _ => rfl⟩
    · exact ⟨ht, by simp⟩
  · obtain ⟨hbh, rfl⟩ := guarded_eq_some.mp hs
    have hm := h.main (.inl hbh)
    rw [hm] at ht
    unfold secondaryVmDoFailover
    split
    · exact ⟨by simpa using ht, by simp⟩
    · exact ⟨by simpa [hm] using ht, fun _ => hm⟩
  · obtain ⟨⟨hbh, -⟩, rfl⟩ := guarded_eq_some.mp hs
    rw [h.main (.inr hbh)] at ht
    exact ⟨by simpa using ht, by simp⟩
  · obtain ⟨-, rfl⟩ := guarded_eq_some.mp hs
    unfold nestedBh
    split <;> exact ⟨ht, by simp⟩

theorem LockInv.keptLock (h : LockInv a) (hok : ¬ Released a e)
    (hs : secondary.step a e = some b) : KeptLock b := by
  cases he : e.ofThread with
  | false =>
    rcases e with _ | _ | _ | _ | _ | _
    · cases he
    all_goals exact absurd trivial hok
  | true =>
    obtain ⟨ok, rfl⟩ := exists_of_ofThread he
    have ht := h.thread
    change Failover.threadStep a ok = some b at hs
    by_cases hl : a.pc = .loaded
    · simp only [Released, hl, forall_const, reduceCtorEq, false_implies, and_true,
        Decidable.not_not] at hok
      rw [hl] at ht
      simp only [Failover.threadStep, hl, if_pos hok, failoverRequestActive, if_true] at hs
      cases hs
      exact ⟨ht.mpr rfl, rfl, by simp⟩
    · have hse : a.pc = .sendLoaded ∧ ok = false := by simpa [Released, hl] using hok
      obtain ⟨hpc, rfl⟩ := hse
      rw [hpc] at ht
      have hlo := ht.mpr rfl
      simp only [Failover.threadStep, hpc] at hs
      cases hs
      exact ⟨hlo, rfl, h.bh (by simp [hlo])⟩

theorem KeptLock.step (h : KeptLock a) (hs : secondary.step a e = some b) : KeptLock b := by
  have hl := h.lock
  have hle := h.left
  rcases e with ok | _ | _ | _ | _ | _
  · change threadStep a ok = some b at hs
    unfold threadStep at hs
    cases hpc : a.pc <;> rw [hpc] at hs hle <;> dsimp only at hs
    case out =>
      cases hs
      exact ⟨hl, rfl, h.bh⟩
    case waiting =>
      obtain ⟨-, rfl⟩ := guarded_eq_some.mp hs
      exact ⟨hl, rfl, h.bh⟩
    case done => cases hs
    all_goals cases hle
  · obtain ⟨-, rfl⟩ := guarded_eq_some.mp hs
    unfold failoverRequestActive
    split
    · exact ⟨hl, hle, by simp⟩
    · exact h
  · obtain ⟨⟨-, hf⟩, -⟩ := guarded_eq_some.mp hs
    exact absurd (hf.symm.trans hl) nofun
  · obtain ⟨hbh, -⟩ := guarded_eq_some.mp hs
    exact absurd (.inl hbh) h.bh
  · obtain ⟨⟨hbh, -⟩, -⟩ := guarded_eq_some.mp hs
    exact absurd (.inr hbh) h.bh
  · obtain ⟨-, rfl⟩ := guarded_eq_some.mp hs
    unfold nestedBh
    split <;> exact ⟨hl, hle, by simp⟩

/-- The thread waits without the lock exactly if it has taken neither of the two exits. -/
theorem waiting_unlocked_iff {es : List Event} (he : secondary.exec anyStep .init es = some a)
    (hw : a.pc = .waiting) : a.lock ≠ .thread ↔ secondary.exec Released .init es = some a := by
  constructor
  · intro hl
    refine (exec_or_of_breach (I := LockInv) (D := KeptLock) he .initial
      (fun _ _ _ ha hok hs => ha.step hok hs) (fun _ _ _ ha _ hok hs => ha.keptLock hok hs)
      (fun _ _ _ ha _ hs => ha.step hs)).resolve_right fun hk => ?_
    exact hl hk.lock
  · intro hr
    have ha : LockInv a := (exec_run hr).invariant .initial
      fun _ _ _ ha hok hs => ha.step hok hs
    rw [Ne, ha.thread, hw]
    nofun

/-- A request that is found after a checkpoint. -/
def requestAfterCheckpoint : List Event :=
  replicate 14 (.thread true) ++ .request :: replicate 3 (.thread true)

/-- A request whose bottom half runs inside the thread. -/
def requestWhileLoading : List Event :=
  replicate 8 (.thread true) ++ .request :: .nested :: replicate 5 (.thread true)

def waitingWith (lock : Lock) : Secondary :=
  ⟨.waiting, lock, true, .request, .scheduled, false, 0, true, false⟩

theorem waiting_unlocked_checkpoint :
    secondary.exec Released .init requestAfterCheckpoint = some (waitingWith .free) ∧
      secondary.exec anyStep .init requestWhileLoading = some (waitingWith .thread) ∧
      secondary.exec Released .init requestWhileLoading ≠ some (waitingWith .thread) := by
  have hafter : secondary.exec anyStep .init requestAfterCheckpoint = some (waitingWith .free) := by
    decide +kernel
  have hwhile : secondary.exec anyStep .init requestWhileLoading = some (waitingWith .thread) := by
    decide +kernel
  exact ⟨(waiting_unlocked_iff hafter rfl).mp (by decide), hwhile,
    mt (waiting_unlocked_iff hwhile rfl).mpr (by decide)⟩

end VmFt.Colo.Failover
