import VmFt.Colo.Primary

/-! # Failover of the primary

A failover request makes the checkpoint thread leave its loop, and a bottom half posts
the semaphore that the thread then waits for. Wherever the request meets the thread and
in whatever order the two go on, the guest runs on alone in the end.
-/

namespace VmFt.Colo.Primary

open VmFt.System

variable {s t : Primary} {e : Event}

/-- The guest is not scheduled, and a shutdown is requested once. -/
def Prompt (s : Primary) : Event → Prop
  | .emit _ => False
  | .shutdownRequest => s.shutdownRequested = false
  | _ => True

/-- The guest goes on without COLO, or the thread has exited for a shutdown. -/
def Over (s : Primary) : Prop :=
  s.pc = .left ∧ s.failover = .completed ∧ s.running = true ∨ s.pc = .exited

/-- How far the thread is from the end; zero also before `failover_init_state`. -/
def distance : Pc → ℕ
  | .enable | .firstBuffer | .setup | .left | .exited => 0
  | .out => 1
  | .loop => 2
  | .globalState | .transactionOut => 3
  | .flush => 4
  | .start => 5
  | .startBuffer => 6
  | .receive => 7
  | .sendState => 8
  | .sendSize => 9
  | .save => 10
  | .replicate => 11
  | .stop => 12
  | .request => 13

structure Served (s : Primary) : Prop where
  pc : 0 < distance s.pc
  posted : s.failover = .request ∧ s.coloSem = 0 ∨ s.failover = .completed ∧ 0 < s.coloSem

def rank (s : Primary) : ℕ :=
  distance s.pc + (if s.failover = .request then 1 else 0) + if s.shutdownRequested then 0 else 1

theorem Served.isActive (h : Served s) : s.failoverRequestIsActive = true := by
  rcases h.posted with ⟨hf, -⟩ | ⟨hf, -⟩ <;> simp [failoverRequestIsActive, hf]

theorem Served.goto (h : Served s) (hf : t.failover = s.failover) (hc : t.coloSem = s.coloSem)
    (hr : t.shutdownRequested = s.shutdownRequested)
    (hd : 0 < distance t.pc ∧ distance t.pc < distance s.pc) : Served t ∧ rank t < rank s := by
  refine ⟨⟨hd.1, by rw [hf, hc]; exact h.posted⟩, ?_⟩
  unfold rank
  rw [hf, hr]
  omega

theorem Served.step (h : Served s) (hok : Prompt s e) (hs : primary.step s e = some t) :
    Over t ∨ Served t ∧ rank t < rank s := by
  have hpos := h.pc
  have ha := h.isActive
  cases e
  case enableBuffering | firstBuffer | setup =>
    rw [(guarded_eq_some.mp hs).1] at hpos
    cases hpos
  case emit => exact hok.elim
  all_goals obtain ⟨hg, rfl⟩ := guarded_eq_some.mp hs
  case leave =>
    rcases h.posted with ⟨-, hc⟩ | ⟨hf, -⟩
    · exact absurd hc (Nat.ne_of_gt hg.2)
    · exact .inl (.inl ⟨rfl, hf, rfl⟩)
  case failoverRequest => simp [failoverRequestIsActive, hg] at ha
  case failoverBh =>
    exact .inr ⟨⟨hpos, .inr ⟨rfl, Nat.succ_pos _⟩⟩, by simp [rank, hg]⟩
  case shutdownRequest =>
    exact .inr ⟨⟨hpos, h.posted⟩, by simp [rank, show s.shutdownRequested = false from hok]⟩
  case loop =>
    simp only [ha, Bool.or_true, if_true]
    exact .inr (h.goto rfl rfl rfl (by simp [hg, distance]))
  case receive =>
    split
    · exact .inr (h.goto rfl rfl rfl (by simp [hg, distance]))
    · split
      · exact .inl (.inr rfl)
      · exact .inr (h.goto rfl rfl rfl (by simp [hg, distance]))
  all_goals
    repeat' split
    all_goals exact .inr (h.goto rfl rfl rfl (by simp [hg, distance]))

theorem Served.exists_step (h : Served s) : ∃ e t, Prompt s e ∧ primary.step s e = some t := by
  have hpos := h.pc
  cases hpc : s.pc
  case out =>
    rcases h.posted with ⟨hf, -⟩ | ⟨-, hc⟩
    · exact ⟨.failoverBh, _, trivial, if_pos hf⟩
    · exact ⟨.leave, _, trivial, if_pos ⟨hpc, hc⟩⟩
  case globalState => exact ⟨.globalState 0, _, trivial, if_pos hpc⟩
  case loop => exact ⟨.loop, _, trivial, if_pos hpc⟩
  case request => exact ⟨.request true, _, trivial, if_pos hpc⟩
  case stop => exact ⟨.stop, _, trivial, if_pos hpc⟩
  case replicate => exact ⟨.replicate true, _, trivial, if_pos hpc⟩
  case save => exact ⟨.save 0, _, trivial, if_pos hpc⟩
  case sendSize => exact ⟨.sendSize true, _, trivial, if_pos hpc⟩
  case sendState => exact ⟨.sendState 0, _, trivial, if_pos hpc⟩
  case receive => exact ⟨.receive (.got 0), _, trivial, if_pos hpc⟩
  case startBuffer => exact ⟨.startBuffer true true, _, trivial, if_pos hpc⟩
  case start => exact ⟨.start, _, trivial, if_pos hpc⟩
  case flush => exact ⟨.flush true, _, trivial, if_pos hpc⟩
  case transactionOut => exact ⟨.transactionOut, _, trivial, if_pos hpc⟩
  all_goals
    rw [hpc] at hpos
    cases hpos

/-- A request that comes after `failover_init_state` ends COLO, whatever the calls of the thread
return. -/
theorem failover_inevitable (hpc : 0 < distance s.pc) (hf : s.failover = .request)
    (hc : s.coloSem = 0) : primary.Inevitable Prompt Over s :=
  inevitable_of_rank rank (I := Served) ⟨hpc, .inl ⟨hf, hc⟩⟩ (fun _ h _ => h.exists_step)
    fun _ _ _ h => h.step

/-- The request comes while a checkpoint is being taken. -/
theorem failover_inevitable_checkpoint :
    ∃ s, primary.Run anyStep .init s ∧ primary.Inevitable Prompt Over s := by
  obtain ⟨s, hrun, hpc, hf, hc⟩ := exists_run_of_exec (M := primary) (s := .init) anyStep
    (p := fun s => 0 < distance s.pc ∧ s.failover = .request ∧ s.coloSem = 0)
    [.enableBuffering ⟨true, true, true, true, true, true, true⟩, .firstBuffer true true,
      .setup true, .globalState 0, .loop, .request true, .stop, .replicate true, .failoverRequest]
    (by decide +kernel)
  exact ⟨s, hrun, failover_inevitable hpc hf hc⟩

end VmFt.Colo.Primary
