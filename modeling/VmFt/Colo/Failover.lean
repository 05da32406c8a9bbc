import VmFt.Colo.Primary

/-! # Failover requests at the secondary

A failover request is served by a bottom half, which needs the iothread lock: it runs
on the main loop, or inside the incoming thread when that polls for its disks while a
state is loaded. A bottom half that finds a state being loaded only marks the request,
and the incoming thread has to launch it again.
-/

namespace VmFt.Colo.Failover

open VmFt.System

/-- Where `colo_process_incoming_thread` is. -/
inductive Pc
  | start | init | setup | loop | poll | stop | load
  | reset | device | replication | checkpoint | loaded | sendLoaded | startVm
  | out | waiting | done
deriving DecidableEq, Repr

inductive Lock
  | free | thread | main
deriving DecidableEq, Repr

/-- Where `colo_failover_bh` is. Once it has completed the failover it waits for the thread. -/
inductive BottomHalf
  | none | scheduled | running | joining
deriving DecidableEq, Repr

structure Secondary where
  pc : Pc
  lock : Lock
  /-- Whether the migration state is `MIGRATION_STATUS_COLO`. -/
  colo : Bool
  failover : FailoverStatus
  bh : BottomHalf
  vmstateLoading : Bool
  coloIncomingSem : ℕ
  /-- Whether `failover_request_active` has accepted a request. -/
  accepted : Bool
  /-- Whether the thread could not send `VMSTATE_LOADED`. -/
  sendFailed : Bool
deriving DecidableEq, Repr

def Secondary.init : Secondary := ⟨.start, .free, false, .none, .none, false, 0, false, false⟩

inductive Event
  | thread (ok : Bool)
  | request
  | bhBegin | bhFailover | bhJoin
  /-- The bottom half runs inside the thread. -/
  | nested
deriving DecidableEq, Repr

def failoverRequestActive (s : Secondary) : Secondary :=
  if s.failover = .none then { s with failover := .request, bh := .scheduled, accepted := true }
  else s

/-- An error between the reset of the devices and the end of the loading. -/
def unlockOut (s : Secondary) : Secondary := { s with lock := .free, pc := .out }

/-- The next step of the thread; `ok` is the outcome of the calls in it. -/
def threadStep (s : Secondary) (ok : Bool) : Option Secondary :=
  match s.pc with
  | .start => some { s with colo := true, pc := .init }
  | .init => some { s with failover := .none, pc := .setup }
  | .setup => guarded (ok → s.lock = .free) { s with pc := if ok then .loop else .out }
  | .loop => some { s with pc := if s.colo then .poll else .out }
  | .poll => some { s with pc := if s.failover = .none then .stop else .out }
  | .stop => guarded (s.lock = .free) { s with pc := .load }
  | .load => some { s with pc := if ok then .reset else .out }
  | .reset =>
    guarded (s.lock = .free) { s with lock := .thread, vmstateLoading := true, pc := .device }
  | .device => some (if ok then { s with pc := .replication } else unlockOut s)
  | .replication => some (if ok then { s with pc := .checkpoint } else unlockOut s)
  | .checkpoint => some (if ok then { s with pc := .loaded } else unlockOut s)
  | .loaded =>
    some (if s.failover = .relaunch then
        failoverRequestActive { s with vmstateLoading := false, failover := .none, pc := .out }
      else { s with vmstateLoading := false, pc := .sendLoaded })
  | .sendLoaded =>
    -- Like the exit before it, this one goes to `out` with the lock held.
    some (if ok then { s with pc := .startVm } else { s with sendFailed := true, pc := .out })
  | .startVm => some { s with lock := .free, pc := .loop }
  | .out => some { s with vmstateLoading := false, pc := .waiting }
  | .waiting =>
    guarded (0 < s.coloIncomingSem)
      { s with coloIncomingSem := s.coloIncomingSem - 1, pc := .done }
  | .done => none

/-- `secondary_vm_do_failover`. -/
def secondaryVmDoFailover (s : Secondary) : Secondary :=
  if s.vmstateLoading then { s with failover := .relaunch, bh := .none, lock := .free }
  else
    { s with
      colo := false, failover := .completed, coloIncomingSem := s.coloIncomingSem + 1
      bh := .joining }

/-- `colo_failover_bh` with the lock held by the thread and `vmstate_loading` set. -/
def nestedBh (s : Secondary) : Secondary :=
  if s.failover = .request then { s with failover := .relaunch, bh := .none }
  else { s with bh := .none }

/-- The steps of the thread, of `qmp_x_colo_lost_heartbeat` and of the bottom half, during which
the main loop or the thread holds the lock. -/
def step (s : Secondary) : Event → Option Secondary
  | .thread ok => threadStep s ok
  | .request => guarded (s.colo = true) (failoverRequestActive s)
  | .bhBegin =>
    guarded (s.bh = .scheduled ∧ s.lock = .free)
      (if s.failover = .request then { s with failover := .handling, bh := .running, lock := .main }
        else { s with bh := .none })
  | .bhFailover => guarded (s.bh = .running) (secondaryVmDoFailover s)
  | .bhJoin => guarded (s.bh = .joining ∧ s.pc = .done) { s with bh := .none, lock := .free }
  | .nested =>
    guarded (s.bh = .scheduled ∧ s.lock = .thread ∧ s.vmstateLoading = true) (nestedBh s)

def secondary : System Secondary Event := ⟨step⟩

/-- No request comes in before `failover_init_state`, and the bottom half does not come in while
`vmstate_loading` is set: inside the thread, or after an error has released the lock. -/
def Orderly (s : Secondary) : Event → Prop
  | .request => s.pc ≠ .init
  | .bhFailover | .nested => s.vmstateLoading = false
  | _ => True

instance (s : Secondary) (e : Event) : Decidable (Orderly s e) := by
  cases e <;> unfold Orderly <;> infer_instance

/-- The life of a request: the state, the bottom half, and whether there has been a request. -/
inductive Served : FailoverStatus → BottomHalf → Bool → Prop
  | idle : Served .none .none false
  | requested : Served .request .scheduled true
  | handled : Served .handling .running true
  | completed : Served .completed .joining true
  | joined : Served .completed .none true

def holdsLock (pc : Pc) (sendFailed : Bool) : Bool :=
  match pc with
  | .device | .replication | .checkpoint | .loaded | .sendLoaded | .startVm => true
  | .out | .waiting | .done => sendFailed
  | _ => false

def hasLeftLoop : Pc → Bool
  | .out | .waiting | .done => true
  | _ => false

structure Inv (s : Secondary) : Prop where
  served : Served s.failover s.bh s.accepted
  start : s.pc = .start → s.colo = false ∧ s.accepted = false
  init : s.pc = .init → s.accepted = false
  thread : s.lock = .thread ↔ holdsLock s.pc s.sendFailed = true
  main : s.lock = .main ↔ s.bh = .running ∨ s.bh = .joining
  sent : s.sendFailed = true → hasLeftLoop s.pc = true

variable {s t : Secondary}

section Served

variable {f : FailoverStatus} {b : BottomHalf} {a : Bool}

theorem Served.ne_relaunch (h : Served f b a) : f ≠ .relaunch := by
  cases h <;> simp

theorem Served.eq_completed (h : Served f b true) (hs : b ≠ .scheduled)
    (hr : b ≠ .running) : f = .completed := by
  cases h <;> simp_all

theorem Served.eq_none (h : Served f b false) : f = .none := by
  cases h
  rfl

theorem Served.request (h : Served .none b a) : b = .none := by
  cases h
  rfl

theorem Served.handle (h : Served f .scheduled a) :
    f = .request ∧ a = true ∧ Served .handling .running a := by
  cases h
  exact ⟨rfl, rfl, .handled⟩

theorem Served.complete (h : Served f .running a) : Served .completed .joining a := by
  cases h
  exact .completed

theorem Served.join (h : Served f .joining a) : Served f .none a := by
  cases h
  exact .joined

end Served

theorem Inv.initial : Inv .init := by
  refine ⟨.idle, fun _ => ⟨rfl, rfl⟩, fun _ => rfl, ?_, ?_, ?_⟩ <;>
    simp [Secondary.init, holdsLock]

theorem Inv.not_sendFailed (h : Inv s) (hl : hasLeftLoop s.pc = false) : s.sendFailed = false := by
  cases hs : s.sendFailed with
  | false => rfl
  | true => exact absurd (hl.symm.trans (h.sent hs)) nofun

theorem Inv.goto (h : Inv s) {a : Pc} (hpc : s.pc = a) (b : Pc)
    (hab : hasLeftLoop a = false ∧ b ≠ .start ∧ b ≠ .init) {lock : Lock}
    (ht : lock = .thread ↔ holdsLock b false = true)
    (hm : lock = .main ↔ s.lock = .main) (loading : Bool) :
    Inv { s with lock := lock, vmstateLoading := loading, pc := b } := by
  obtain ⟨hl, hst, hi⟩ := hab
  have hse := h.not_sendFailed (hpc ▸ hl)
  refine ⟨h.served, fun e => absurd e hst, fun e => absurd e hi, ?_, hm.trans h.main, ?_⟩
  · change lock = .thread ↔ holdsLock b s.sendFailed = true
    rwa [hse]
  · intro hs
    cases hse.symm.trans hs

theorem Inv.next (h : Inv s) {a : Pc} (hpc : s.pc = a) (b : Pc)
    (hab : (hasLeftLoop a = false ∧ b ≠ .start ∧ b ≠ .init) ∧
      holdsLock b false = holdsLock a false) (loading : Bool) :
    Inv { s with vmstateLoading := loading, pc := b } := by
  have ht := h.thread
  rw [h.not_sendFailed (hpc ▸ hab.1.1), hpc, ← hab.2] at ht
  exact h.goto hpc b hab.1 ht Iff.rfl loading

theorem Inv.unlockOut (h : Inv s) {a : Pc} (hpc : s.pc = a)
    (ha : hasLeftLoop a = false ∧ holdsLock a s.sendFailed = true) : Inv (unlockOut s) := by
  have hl : s.lock = .thread := h.thread.mpr (hpc ▸ ha.2)
  exact h.goto hpc .out ⟨ha.1, nofun, nofun⟩ (by simp [holdsLock]) (by simp [hl])
    s.vmstateLoading

theorem Inv.sendFailed (h : Inv s) (hpc : s.pc = .sendLoaded) :
    Inv { s with sendFailed := true, pc := .out } := by
  have ht := h.thread
  rw [hpc] at ht
  exact ⟨h.served, nofun, nofun, ht, h.main, fun _ => rfl⟩

theorem Inv.left (h : Inv s) (hle : hasLeftLoop s.pc = true) {pc : Pc}
    (hpc : hasLeftLoop pc = true) (sem : ℕ) (loading : Bool) :
    Inv { s with coloIncomingSem := sem, vmstateLoading := loading, pc := pc } := by
  have hl : holdsLock pc s.sendFailed = holdsLock s.pc s.sendFailed := by
    cases pc <;> cases hs : s.pc <;> simp_all [hasLeftLoop, holdsLock]
  refine ⟨h.served, ?_, ?_, ?_, h.main, fun _ => hpc⟩
  · rintro rfl
    cases hpc
  · rintro rfl
    cases hpc
  · change s.lock = .thread ↔ holdsLock pc s.sendFailed = true
    rw [hl]
    exact h.thread

theorem Inv.init_setup (h : Inv s) (hpc : s.pc = .init) :
    Inv { s with failover := .none, pc := .setup } := by
  have hs := h.served
  rw [h.init hpc] at hs
  rw [← hs.eq_none]
  exact h.next hpc .setup (by decide) s.vmstateLoading

theorem Inv.threadStep {ok : Bool} (h : Inv s) (hs : threadStep s ok = some t) : Inv t := by
  unfold Failover.threadStep at hs
  cases hpc : s.pc <;> rw [hpc] at hs <;> dsimp only at hs
  case start =>
    obtain ⟨-, ha⟩ := h.start hpc
    have ht := h.thread
    have hse := h.sent
    rw [hpc] at ht hse
    cases hs
    exact ⟨h.served, nofun, fun _ => ha, ht, h.main, hse⟩
  case init =>
    cases hs
    exact h.init_setup hpc
  case setup =>
    obtain ⟨-, rfl⟩ := guarded_eq_some.mp hs
    split <;> exact h.next hpc _ (by decide) s.vmstateLoading
  case loop | poll | load =>
    cases hs
    split <;> exact h.next hpc _ (by decide) s.vmstateLoading
  case stop =>
    obtain ⟨-, rfl⟩ := guarded_eq_some.mp hs
    exact h.next hpc .load (by decide) s.vmstateLoading
  case reset =>
    obtain ⟨hf, rfl⟩ := guarded_eq_some.mp hs
    exact h.goto hpc .device (by decide) (by simp [holdsLock]) (by simp [hf]) true
  case device | replication | checkpoint =>
    cases hs
    split
    · exact h.next hpc _ (by decide) s.vmstateLoading
    · exact h.unlockOut hpc ⟨rfl, rfl⟩
  case loaded =>
    cases hs
    rw [if_neg h.served.ne_relaunch]
    exact h.next hpc .sendLoaded (by decide) false
  case sendLoaded =>
    cases hs
    split
    · exact h.next hpc .startVm (by decide) s.vmstateLoading
    · exact h.sendFailed hpc
  case startVm =>
    have hl : s.lock = .thread := h.thread.mpr (by rw [hpc]; rfl)
    cases hs
    exact h.goto hpc .loop (by decide) (by simp [holdsLock]) (by simp [hl]) s.vmstateLoading
  case out =>
    cases hs
    exact h.left (by rw [hpc]; rfl) rfl s.coloIncomingSem false
  case waiting =>
    obtain ⟨-, rfl⟩ := guarded_eq_some.mp hs
    exact h.left (by rw [hpc]; rfl) rfl _ s.vmstateLoading
  case done => cases hs

theorem Inv.request (h : Inv s) (hc : s.colo = true) (hpc : s.pc ≠ .init) :
    Inv (failoverRequestActive s) := by
  unfold failoverRequestActive
  split
  · rename_i hn
    have hs := h.served
    have hm := h.main
    rw [hn] at hs
    rw [hs.request] at hm
    refine ⟨.requested, ?_, fun e => absurd e hpc, h.thread, ?_, h.sent⟩
    · intro e
      exact absurd ((h.start e).1.symm.trans hc) nofun
    · simpa using hm
  · exact h

theorem Inv.bhBegin (h : Inv s) (hbh : s.bh = .scheduled) (hf : s.lock = .free) :
    s.failover = .request ∧
      Inv { s with failover := .handling, bh := .running, lock := .main } := by
  have hs := h.served
  have ht := h.thread
  rw [hbh] at hs
  rw [hf] at ht
  obtain ⟨hr, ha, hn⟩ := hs.handle
  refine ⟨hr, hn, ?_, ?_, ?_, by simp, h.sent⟩
  · intro e
    exact absurd ((h.start e).2.symm.trans ha) nofun
  · intro e
    exact absurd ((h.init e).symm.trans ha) nofun
  · simpa using ht

theorem Inv.failover (h : Inv s) (hbh : s.bh = .running) (hl : s.vmstateLoading = false) :
    Inv (secondaryVmDoFailover s) := by
  have hs := h.served
  have hm := h.main.mpr (.inl hbh)
  rw [hbh] at hs
  unfold secondaryVmDoFailover
  rw [if_neg (by simp [hl])]
  exact ⟨hs.complete, fun e => ⟨rfl, (h.start e).2⟩, h.init, h.thread, by simp [hm], h.sent⟩

theorem Inv.bhJoin (h : Inv s) (hbh : s.bh = .joining) :
    Inv { s with bh := .none, lock := .free } := by
  have hs := h.served
  have ht := h.thread
  rw [hbh] at hs
  rw [h.main.mpr (.inr hbh)] at ht
  exact ⟨hs.join, h.start, h.init, by simpa using ht, by simp, h.sent⟩

theorem Inv.step {e : Event} (h : Inv s) (hok : Orderly s e) (hs : secondary.step s e = some t) :
    Inv t := by
  cases e with
  | thread ok => exact h.threadStep hs
  | request =>
    obtain ⟨hc, rfl⟩ := guarded_eq_some.mp hs
    exact h.request hc hok
  | bhBegin =>
    obtain ⟨⟨hbh, hf⟩, rfl⟩ := guarded_eq_some.mp hs
    obtain ⟨hr, hinv⟩ := h.bhBegin hbh hf
    rwa [if_pos hr]
  | bhFailover =>
    obtain ⟨hbh, rfl⟩ := guarded_eq_some.mp hs
    exact h.failover hbh hok
  | bhJoin =>
    obtain ⟨⟨hbh, -⟩, rfl⟩ := guarded_eq_some.mp hs
    exact h.bhJoin hbh
  | nested =>
    obtain ⟨⟨-, -, hl⟩, -⟩ := guarded_eq_some.mp hs
    exact absurd (hl.symm.trans hok) nofun

theorem inv_of_run (h : secondary.Run Orderly .init s) : Inv s :=
  h.invariant Inv.initial fun _ _ _ ha hok hs => ha.step hok hs

/-- A request that was accepted is completed once its bottom half has run, and outside the loop
the bottom half can run unless `VMSTATE_LOADED` could not be sent. -/
theorem accepted_request_completed (h : secondary.Run Orderly .init s) :
    (s.accepted = true → s.bh ≠ .scheduled → s.bh ≠ .running → s.failover = .completed) ∧
      (hasLeftLoop s.pc = true → s.sendFailed = false → s.bh = .scheduled →
        ∃ t, secondary.step s .bhBegin = some t ∧ t.failover = .handling) ∧
      ¬ (s.pc = .waiting ∧ s.failover = .relaunch ∧ s.bh = .none) := by
  have hinv := inv_of_run h
  refine ⟨?_, ?_, ?_⟩
  · intro haccepted hscheduled hrunning
    have hserved := hinv.served
    rw [haccepted] at hserved
    exact hserved.eq_completed hscheduled hrunning
  · intro hleft hsent hbh
    have hfree : s.lock = .free := by
      have hthread := hinv.thread
      have hmain := hinv.main
      rw [hsent] at hthread
      cases hlock : s.lock <;> cases hpc : s.pc <;> simp_all [hasLeftLoop, holdsLock]
    obtain ⟨hrequest, -⟩ := hinv.bhBegin hbh hfree
    refine ⟨_, guarded_eq_some.mpr ⟨⟨hbh, hfree⟩, rfl⟩, ?_⟩
    rw [if_pos hrequest]
  · rintro ⟨-, hrelaunch, -⟩
    exact hinv.served.ne_relaunch hrelaunch

/-- The request comes while a state is loaded, and is served when the thread has left the loop. -/
theorem request_while_loading_completed :
    ∃ s, secondary.Run Orderly .init s ∧ s.accepted = true ∧ s.pc = .done ∧ s.bh = .none ∧
      s.failover = .completed := by
  obtain ⟨s, hrun, haccepted, hpc, hbh⟩ :=
    exists_run_of_exec (M := secondary) (s := .init) Orderly
      (p := fun s => s.accepted = true ∧ s.pc = .done ∧ s.bh = .none)
      [.thread true, .thread true, .thread true, .thread true, .thread true, .thread true,
        .thread true, .thread true, .request, .thread false, .thread true, .bhBegin, .bhFailover,
        .thread true, .bhJoin] (by decide +kernel)
  have hcompleted := (accepted_request_completed hrun).1 haccepted (by simp [hbh]) (by simp [hbh])
  exact ⟨s, hrun, haccepted, hpc, hbh, hcompleted⟩

/-- When the devices cannot be loaded, the bottom half can come in before `vmstate_loading` is
cleared: the thread then waits for ever with the request marked and every new one refused. -/
theorem request_lost_after_load_error :
    ∃ s, secondary.Run anyStep .init s ∧ s.accepted = true ∧ s.pc = .waiting ∧
      s.failover = .relaunch ∧ s.bh = .none ∧ ∀ t, secondary.Run anyStep s t → t = s := by
  let stuck : Secondary := ⟨.waiting, .free, true, .relaunch, .none, false, 0, true, false⟩
  obtain ⟨s, hrun, rfl⟩ :=
    exists_run_of_exec (M := secondary) (s := .init) anyStep (p := fun s => s = stuck)
      [.thread true, .thread true, .thread true, .thread true, .thread true, .thread true,
        .thread true, .thread true, .thread false, .request, .bhBegin, .bhFailover, .thread true]
      (by decide +kernel)
  refine ⟨stuck, hrun, rfl, rfl, rfl, rfl, fun t hlater => ?_⟩
  refine hlater.invariant (I := fun t => t = stuck) rfl ?_
  rintro a e b rfl - hstep
  cases e with
  | request => exact (Option.some.inj hstep).symm
  | thread | bhBegin | bhFailover | bhJoin | nested => cases hstep

end VmFt.Colo.Failover
