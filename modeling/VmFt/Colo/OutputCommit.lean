import Mathlib.Tactic.SplitIfs
import VmFt.Colo.Primary

/-! # Output commit

A packet that the primary emits after a checkpoint leaves the host only after the
backup has loaded the next one. The barrier is set while the guest is stopped and
the backup has answered, so a closed epoch is always covered, whichever of the
later netlink commands fail. The first plug must have been set, though.
-/

namespace VmFt.Colo

variable {s s' : Primary} {o : Output} {q : Plug} {n : ℕ} {p : Packet}

/-- Every packet was emitted before the last checkpoint that the backup has loaded. -/
def Covered (n : ℕ) (ps : List Packet) : Prop := ∀ p ∈ ps, p.since < n

theorem Covered.mono {m : ℕ} {ps : List Packet} (h : Covered n ps) (hm : n ≤ m) : Covered m ps :=
  fun p hp => Nat.lt_of_lt_of_le (h p hp) hm

theorem Covered.append {ps qs : List Packet} (h : Covered n ps) (h' : Covered n qs) :
    Covered n (ps ++ qs) :=
  fun p hp => (List.mem_append.mp hp).elim (h p) (h' p)

/-- The plug holds packets back, what has left or can be released next is covered, and what is in
the current epoch was emitted before checkpoint `m`. -/
structure Plugged (n m : ℕ) (o : Output) : Prop where
  wire : Covered n o.wire
  plug : ∃ q, o.plug = some q ∧ q.indefinite = false ∧ (∀ epoch ∈ q.closed, Covered n epoch) ∧
    Covered m q.current

namespace Plugged

theorem mono {m n' m' : ℕ} (h : Plugged n m o) (hn : n ≤ n') (hm : m ≤ m') : Plugged n' m' o := by
  obtain ⟨q, hq, hi, hc, hcur⟩ := h.plug
  exact ⟨h.wire.mono hn, q, hq, hi, fun e he => (hc e he).mono hn, hcur.mono hm⟩

theorem emit {m : ℕ} (h : Plugged n m o) (hp : p.since < m) : Plugged n m (o.emit p) := by
  obtain ⟨q, hq, hi, hc, hcur⟩ := h.plug
  simp only [Output.emit, hq, hi]
  refine ⟨h.wire, _, rfl, rfl, hc, hcur.append ?_⟩
  intro p' hp'
  rwa [List.mem_singleton.mp hp']

theorem buffer (h : Plugged n n o) : Plugged n n (o.command .buffer) := by
  obtain ⟨q, hq, hi, hc, hcur⟩ := h.plug
  simp only [Output.command, hq, PlugCmd.run, hi]
  refine ⟨h.wire.append (by simp [Covered]), _, rfl, rfl, ?_, by simp [Covered]⟩
  intro epoch he
  rcases List.mem_append.mp he with he | he
  · exact hc epoch he
  · rwa [List.mem_singleton.mp he]

theorem releaseOne {m : ℕ} (h : Plugged n m o) : Plugged n m (o.command .releaseOne) := by
  obtain ⟨q, hq, hi, hc, hcur⟩ := h.plug
  cases hcl : q.closed with
  | nil =>
    simp only [Output.command, hq, PlugCmd.run, hcl]
    exact ⟨h.wire.append (by simp [Covered]), q, rfl, hi, by simp [hcl], hcur⟩
  | cons epoch rest =>
    rw [hcl] at hc
    simp only [Output.command, hq, PlugCmd.run, hcl]
    refine ⟨h.wire.append (hc epoch List.mem_cons_self), _, rfl, hi, ?_, hcur⟩
    exact fun e he => hc e (List.mem_cons_of_mem _ he)

theorem limit {m : ℕ} {size : ℤ} (h : Plugged n m o) : Plugged n m (o.command (.limit size)) := by
  obtain ⟨q, hq, hi, hc, hcur⟩ := h.plug
  simp only [Output.command, hq, PlugCmd.run]
  exact ⟨h.wire.append (by simp [Covered]), q, rfl, hi, hc, hcur⟩

theorem sizes {m : ℕ} (h : Plugged n m o) (a b : ℤ) :
    Plugged n m { o with bufferSize := a, newBufferSize := b } := ⟨h.wire, h.plug⟩

theorem mcDeliver {m : ℕ} {cmd : PlugCmd} {ok : Bool} (h : Plugged n m o)
    (hcmd : Plugged n m (o.command cmd)) : Plugged n m (o.mcDeliver cmd ok).1 := by
  unfold Output.mcDeliver
  split_ifs
  · exact h
  · exact hcmd
  · exact h

theorem mcSetBufferSize {m : ℕ} (h : Plugged n m o) (size : ℤ) (ok : Bool) :
    Plugged n m (o.mcSetBufferSize size ok).1 := by
  unfold Output.mcSetBufferSize
  split_ifs
  · exact h
  · exact (h.sizes size size).mcDeliver (h.sizes size size).limit

theorem mcStartBuffer {limited ok : Bool} (h : Plugged n n o) :
    Plugged n n (o.mcStartBuffer limited ok).1 := by
  have hset := (h.sizes o.newBufferSize o.newBufferSize).mcSetBufferSize o.newBufferSize limited
  unfold Output.mcStartBuffer
  split_ifs
  · exact h
  · dsimp only
    split_ifs
    · exact hset
    · exact hset.mcDeliver hset.buffer
  · exact h.mcDeliver h.buffer

theorem mcFlushOldestBuffer {m : ℕ} {ok : Bool} (h : Plugged n m o) :
    Plugged n m (o.mcFlushOldestBuffer ok).1 := by
  unfold Output.mcFlushOldestBuffer
  split_ifs
  · exact h
  · exact h.mcDeliver h.releaseOne

end Plugged

/-! ### The first plug -/

/-- The first plug is set: every command of `mc_enable_buffering` and the first barrier succeed. -/
def PlugSet (_ : Primary) : Event → Prop
  | .enableBuffering r => r.nic ∧ r.opened ∧ r.created ∧ r.limited ∧ r.suspended
  | .firstBuffer _ ok => ok
  | _ => True

instance (s : Primary) (e : Event) : Decidable (PlugSet s e) := by
  unfold PlugSet
  cases e <;> infer_instance

def Output.enabled : Output := ⟨true, startBuffer, startBuffer, some ⟨true, [], []⟩, []⟩

theorem mcEnableBuffering_init {r : Output.EnableOutcome} (h : PlugSet s (.enableBuffering r)) :
    Output.init.mcEnableBuffering r = (.enabled, 0) := by
  obtain ⟨h1, h2, h3, h4, h5⟩ := h
  simp [Output.mcEnableBuffering, Output.mcDeliver, Output.mcSetBufferSize,
    Output.mcSuspendBuffering, Output.init, Output.enabled, Output.command, PlugCmd.run, Plug.new,
    h1, h2, h3, h4, h5]

theorem plugged_firstBuffer (limited : Bool) :
    Plugged 0 0 (Output.enabled.mcStartBuffer limited true).1 := by
  constructor
  · simp [Output.mcStartBuffer, Output.mcDeliver, Output.enabled, Output.command, PlugCmd.run,
      Covered]
  · exact ⟨⟨false, [], []⟩, by simp [Output.mcStartBuffer, Output.mcDeliver, Output.enabled,
      Output.command, PlugCmd.run], rfl, by simp [Covered], by simp [Covered]⟩

/-! ### Runs -/

def Pc.stopped : Pc → Bool
  | .enable | .firstBuffer | .setup | .replicate | .save | .sendSize | .sendState | .receive
  | .startBuffer | .start => true
  | _ => false

def OutputOk (s : Primary) : Prop :=
  match s.pc with
  | .enable => s.output = .init ∧ s.loaded = 0
  | .firstBuffer => s.output = .enabled ∧ s.loaded = 0
  | .startBuffer => Plugged s.loaded s.loaded s.output
  | _ => Plugged s.loaded (s.loaded + 1) s.output

structure OutputInv (s : Primary) : Prop where
  stopped : s.pc.stopped → s.running = false
  output : OutputOk s

open VmFt.System

def Pc.early (pc : Pc) : Prop := pc = .enable ∨ pc = .firstBuffer

theorem OutputInv.plugged (h : OutputInv s) (hpc : ¬ s.pc.early) :
    Plugged s.loaded (s.loaded + 1) s.output := by
  have ho := h.output
  unfold OutputOk at ho
  unfold Pc.early at hpc
  split at ho
  case h_1 he => exact absurd (.inl he) hpc
  case h_2 he => exact absurd (.inr he) hpc
  case h_3 => exact ho.mono (Nat.le_refl _) (Nat.le_succ _)
  case h_4 => exact ho

theorem outputInv_of_plugged (h : Plugged s.loaded (s.loaded + 1) s.output)
    (hpc : ¬ s.pc.early ∧ s.pc ≠ .startBuffer) (hs : s.pc.stopped → s.running = false) :
    OutputInv s := by
  refine ⟨hs, ?_⟩
  unfold OutputOk
  unfold Pc.early at hpc
  split <;> simp_all

theorem OutputInv.keep (h : OutputInv s) (ho : s'.output = s.output) (hl : s'.loaded = s.loaded)
    (hpc : ¬ s.pc.early) (hpc' : ¬ s'.pc.early ∧ s'.pc ≠ .startBuffer)
    (hs : s'.pc.stopped → s'.running = false) : OutputInv s' :=
  outputInv_of_plugged (by rw [ho, hl]; exact h.plugged hpc) hpc' hs

theorem outputInv_init : OutputInv .init := ⟨fun _ => rfl, rfl, rfl⟩

theorem OutputInv.step {e : Event} (h : OutputInv s) (hok : PlugSet s e)
    (he : s.step e = some s') : OutputInv s' := by
  cases e
  case enableBuffering r =>
    have hpc := (guarded_eq_some.mp he).1
    obtain ⟨ho, hl⟩ : s.output = .init ∧ s.loaded = 0 := by simpa [OutputOk, hpc] using h.output
    unfold Primary.step at he
    simp only [ho, mcEnableBuffering_init hok] at he
    obtain ⟨-, rfl⟩ := guarded_eq_some.mp he
    exact ⟨fun _ => h.stopped (by rw [hpc]; rfl), rfl, hl⟩
  case firstBuffer limited ok =>
    obtain ⟨hpc, rfl⟩ := guarded_eq_some.mp he
    obtain ⟨ho, hl⟩ : s.output = .enabled ∧ s.loaded = 0 := by
      simpa [OutputOk, hpc] using h.output
    obtain rfl : ok = true := hok
    apply outputInv_of_plugged
    · rw [hl, ho]
      exact (plugged_firstBuffer limited).mono (Nat.le_refl _) (Nat.le_succ _)
    · simp [Pc.early]
    · exact fun _ => h.stopped (by rw [hpc]; rfl)
  case startBuffer limited ok =>
    obtain ⟨hpc, rfl⟩ := guarded_eq_some.mp he
    have ho : Plugged s.loaded s.loaded s.output := by simpa [OutputOk, hpc] using h.output
    apply outputInv_of_plugged
    · exact ho.mcStartBuffer.mono (Nat.le_refl _) (Nat.le_succ _)
    · simp [Pc.early]
    · exact fun _ => h.stopped (by rw [hpc]; rfl)
  case receive r =>
    obtain ⟨hpc, rfl⟩ := guarded_eq_some.mp he
    have ho := h.plugged (by simp [Pc.early, hpc])
    have hrun := h.stopped (by rw [hpc]; rfl)
    split_ifs
    · exact outputInv_of_plugged ho (by simp [Pc.early]) (by simp [Pc.stopped])
    · exact outputInv_of_plugged (ho.mono (Nat.le_succ _) (Nat.le_succ _)) (by simp [Pc.early])
        (by simp [Pc.stopped])
    -- The guest has been stopped since the state was taken: its epoch is covered now.
    · exact ⟨fun _ => hrun, ho.mono (Nat.le_succ _) (Nat.le_refl _)⟩
  case flush ok =>
    obtain ⟨hpc, rfl⟩ := guarded_eq_some.mp he
    have ho := h.plugged (by simp [Pc.early, hpc])
    exact outputInv_of_plugged ho.mcFlushOldestBuffer (by simp [Pc.early]) (by simp [Pc.stopped])
  case emit id =>
    obtain ⟨hrun, rfl⟩ := guarded_eq_some.mp he
    have hpc : ¬ s.pc.stopped = true := fun hst => by simp [h.stopped hst] at hrun
    have hea : ¬ s.pc.early := by rintro (hq | hq) <;> simp [hq, Pc.stopped] at hpc
    have hs : s.pc ≠ .startBuffer := by intro hq; simp [hq, Pc.stopped] at hpc
    exact outputInv_of_plugged ((h.plugged hea).emit (Nat.lt_succ_self _)) ⟨hea, hs⟩
      (fun hst => absurd hst hpc)
  case failoverRequest | shutdownRequest =>
    obtain ⟨-, rfl⟩ := guarded_eq_some.mp he
    exact ⟨h.stopped, h.output⟩
  case failoverBh =>
    obtain ⟨-, rfl⟩ := guarded_eq_some.mp he
    exact ⟨fun _ => rfl, h.output⟩
  case leave =>
    obtain ⟨⟨hpc, -⟩, rfl⟩ := guarded_eq_some.mp he
    exact h.keep rfl rfl (by simp [Pc.early, hpc]) (by simp [Pc.early]) (by simp [Pc.stopped])
  -- What is left moves the thread on, with the guest stopped where it has to be.
  all_goals
    obtain ⟨hpc, rfl⟩ := guarded_eq_some.mp he
    have hst := h.stopped
    have hea : ¬ s.pc.early := by simp [Pc.early, hpc]
    simp only [hpc, Pc.stopped] at hst
    repeat' split
    all_goals exact h.keep rfl rfl hea (by simp [Pc.early]) (by simp_all [Pc.stopped])

/-! ### Output commit -/

/-- In a run in which the first plug is set, whatever else fails, no packet has left the host
unless the backup has loaded a checkpoint that was taken after the packet was emitted. -/
theorem output_commit (h : primary.Run PlugSet .init s) :
    ∀ p ∈ s.output.wire, p.since < s.loaded := by
  have hinv := h.invariant outputInv_init fun _ _ _ hs hok he => hs.step hok he
  by_cases hpc : s.pc.early
  · have ho := hinv.output
    unfold OutputOk at ho
    rcases hpc with hpc | hpc <;> simp [hpc] at ho <;> simp [ho, Output.init, Output.enabled]
  · exact (hinv.plugged hpc).wire

/-- After a checkpoint the packet emitted before it has left, and the later one waits. -/
theorem output_commit_checkpoint : ∃ s, primary.Run PlugSet .init s ∧ s.output.wire = [⟨0, 0⟩] ∧
      s.output.plug = some ⟨false, [], [⟨1, 1⟩]⟩ ∧ ∀ p ∈ s.output.wire, p.since < s.loaded := by
  obtain ⟨s, hrun, hwire, hplug⟩ := System.exists_run_of_exec (M := primary) (s := .init) PlugSet
    (p := fun s => s.output.wire = [⟨0, 0⟩] ∧ s.output.plug = some ⟨false, [], [⟨1, 1⟩]⟩)
    [.enableBuffering ⟨true, true, true, true, true, true, true⟩, .firstBuffer true true,
      .setup true, .globalState 0, .emit 0, .loop, .request true, .stop, .replicate true, .save 0,
      .sendSize true, .sendState 0, .receive (.got 6), .startBuffer true true, .start, .emit 1,
      .flush true]
    (by decide +kernel)
  exact ⟨s, hrun, hwire, hplug, output_commit hrun⟩

/-- The command that creates the plug fails and the checkpoints go on without it: what the guest
sends after the first checkpoint leaves before the backup has loaded the second. -/
theorem output_escapes :
    ∃ s, primary.Run System.anyStep .init s ∧ ⟨0, 1⟩ ∈ s.output.wire ∧ s.loaded = 1 :=
  System.exists_run_of_exec (M := primary) (s := .init) System.anyStep
    (p := fun s => ⟨0, 1⟩ ∈ s.output.wire ∧ s.loaded = 1)
    [.enableBuffering ⟨true, true, false, true, true, true, true⟩, .setup true, .globalState 0,
      .loop, .request true, .stop, .replicate true, .save 0, .sendSize true, .sendState 0,
      .receive (.got 6), .startBuffer true true, .start, .emit 0]
    (by decide +kernel)

end VmFt.Colo
