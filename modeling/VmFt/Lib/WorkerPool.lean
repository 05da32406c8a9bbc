import Mathlib.Data.Fintype.Card
import Mathlib.Logic.Function.Basic

/-! # Pools of workers

Each worker waits on a condition variable of its own, does its job in turns on a
shared memory and counts itself as finished. The counter does not tell who has
finished. It can be trusted in a round in which every worker is signalled at
most once and none wakes up on its own.
-/

namespace VmFt.WorkerPool

variable {ι μ ℓ : Type}

inductive Pc (ℓ : Type)
  | top
  | waiting
  | woken
  | running (vars : ℓ)
  | reporting

/-- The worker has left its wait and has not counted itself yet. -/
def Pc.isBusy : Pc ℓ → Bool
  | .top | .waiting => false
  | _ => true

structure Pool (ι ℓ : Type) where
  pc : ι → Pc ℓ
  finished : ℕ

/-- The variables of a worker at the start, and one turn of its loop. A worker without variables
after a turn is done. -/
structure Job (ι μ ℓ : Type) where
  start : ι → ℓ
  turn : ι → μ → ℓ → μ × Option ℓ

/-- The steps of a worker. A `spurious` one ends the wait without a signal. -/
inductive Act | wait | spurious | start | turn | report
  deriving DecidableEq

def Pc.next : Option ℓ → Pc ℓ
  | some l => .running l
  | none => .reporting

def Pool.Quiet (p : Pool ι ℓ) : Prop := ∀ t, (p.pc t).isBusy = false

instance [Fintype ι] (p : Pool ι ℓ) : Decidable p.Quiet :=
  inferInstanceAs (Decidable (∀ t, (p.pc t).isBusy = false))

variable [DecidableEq ι]

def Pool.set (p : Pool ι ℓ) (t : ι) (c : Pc ℓ) : Pool ι ℓ :=
  { p with pc := Function.update p.pc t c }

/-- A signal is lost unless the worker waits for it. -/
def Pool.broadcast (p : Pool ι ℓ) (t : ι) : Pool ι ℓ :=
  match p.pc t with
  | .waiting => p.set t .woken
  | _ => p

def Job.step (job : Job ι μ ℓ) (t : ι) (a : Act) (p : Pool ι ℓ) (m : μ) :
    Option (Pool ι ℓ × μ) :=
  match a, p.pc t with
  | .wait, .top => some (p.set t .waiting, m)
  | .spurious, .waiting => some (p.set t .woken, m)
  | .start, .woken => some (p.set t (.running (job.start t)), m)
  | .turn, .running l => some (p.set t (.next (job.turn t m l).2), (job.turn t m l).1)
  | .report, .reporting => some ({ p.set t .top with finished := p.finished + 1 }, m)
  | _, _ => none

/-- What a job is to achieve: the memory it may find, the state of a worker on its way, and that of
a worker that is done. -/
structure Spec (ι μ ℓ : Type) where
  Fit : μ → Prop
  Good : ι → μ → ℓ → Prop
  Done : ι → μ → Prop

def Spec.At (S : Spec ι μ ℓ) (t : ι) (m : μ) : Pc ℓ → Prop
  | .running l => S.Good t m l
  | .reporting => S.Done t m
  | _ => True

structure Job.Meets (job : Job ι μ ℓ) (S : Spec ι μ ℓ) : Prop where
  start : ∀ t m, S.Fit m → S.Good t m (job.start t)
  fit : ∀ t m l, S.Fit m → S.Good t m l → S.Fit (job.turn t m l).1
  turn : ∀ t m l, S.Fit m → S.Good t m l → S.At t (job.turn t m l).1 (.next (job.turn t m l).2)
  frame : ∀ t m l, S.Good t m l → ∀ u ≠ t, ∀ c, S.At u m c → S.At u (job.turn t m l).1 c

/-- A round in which the workers that `sent` tells by have been signalled and those in `D` have
counted themselves. -/
structure Round (S : Spec ι μ ℓ) (sent : ι → Prop) (D : Finset ι) (p : Pool ι ℓ) (m : μ) :
    Prop where
  finished : p.finished = D.card
  fit : S.Fit m
  on : ∀ t, S.At t m (p.pc t)
  done : ∀ t ∈ D, sent t ∧ S.Done t m
  busy : ∀ t, (p.pc t).isBusy = true → t ∉ D ∧ sent t

variable {job : Job ι μ ℓ} {S : Spec ι μ ℓ} {sent sent' : ι → Prop} {D : Finset ι}
  {p p' : Pool ι ℓ} {m m' : μ} {t : ι} {a : Act} {c : Pc ℓ}

theorem Pool.forall_set {P : ι → Pc ℓ → Prop} (ht : P t c) (hu : ∀ u ≠ t, P u (p.pc u)) (u : ι) :
    P u ((p.set t c).pc u) := by
  unfold Pool.set
  dsimp only
  by_cases hut : u = t
  · subst hut
    rwa [Function.update_self]
  · rw [Function.update_of_ne hut]
    exact hu u hut

theorem Pool.Quiet.set (h : p.Quiet) (hc : c.isBusy = false) : (p.set t c).Quiet :=
  Pool.forall_set (P := fun _ c => c.isBusy = false) hc fun u _ => h u

theorem Pool.Quiet.step (h : p.Quiet) (ha : a ≠ .spurious)
    (hs : job.step t a p m = some (p', m')) : p'.Quiet ∧ p'.finished = p.finished ∧ m' = m := by
  have hq := h t
  unfold Job.step at hs
  split at hs
  · cases hs
    exact ⟨h.set rfl, rfl, rfl⟩
  · exact absurd rfl ha
  · rename_i hpc
    rw [hpc] at hq
    cases hq
  · rename_i hpc
    rw [hpc] at hq
    cases hq
  · rename_i hpc
    rw [hpc] at hq
    cases hq
  · cases hs

omit [DecidableEq ι] in
theorem Round.start (hq : p.Quiet) (hz : p.finished = 0) (hm : S.Fit m) : Round S sent ∅ p m where
  finished := hz
  fit := hm
  on t := by
    have ht := hq t
    cases hpc : p.pc t with
    | top | waiting | woken => trivial
    | running | reporting => exact absurd (hpc ▸ ht) (by simp [Pc.isBusy])
  done t ht := absurd ht (Finset.notMem_empty t)
  busy t ht := absurd ((hq t).symm.trans ht) Bool.false_ne_true

theorem Round.move (h : Round S sent D p m) (hb : c.isBusy = true → (p.pc t).isBusy = true)
    (hm : S.Fit m') (hc : S.At t m' c) (hu : ∀ u ≠ t, ∀ c, S.At u m c → S.At u m' c)
    (hd : t ∈ D → S.Done t m') : Round S sent D (p.set t c) m' where
  finished := h.finished
  fit := hm
  on := Pool.forall_set hc fun u hut => hu u hut _ (h.on u)
  done u hmem := by
    refine ⟨(h.done u hmem).1, ?_⟩
    by_cases hut : u = t
    · subst hut
      exact hd hmem
    · exact hu u hut .reporting (h.done u hmem).2
  busy := Pool.forall_set (P := fun u c => c.isBusy = true → u ∉ D ∧ sent u)
    (fun hbu => h.busy t (hb hbu)) fun u _ => h.busy u

theorem Round.report (h : Round S sent D p m) (hpc : p.pc t = .reporting) :
    Round S sent (insert t D) { p.set t .top with finished := p.finished + 1 } m := by
  obtain ⟨hnot, hse⟩ := h.busy t (by rw [hpc]; rfl)
  have hd : S.Done t m := by simpa only [hpc, Spec.At] using h.on t
  have hm : Round S sent D (p.set t .top) m :=
    h.move (fun hno => absurd hno Bool.false_ne_true) h.fit trivial (fun _ _ _ => id)
      fun hmem => absurd hmem hnot
  refine ⟨?_, h.fit, hm.on, ?_, ?_⟩
  · rw [Finset.card_insert_of_notMem hnot, ← h.finished]
  · intro u hu
    rcases Finset.mem_insert.mp hu with rfl | hu
    · exact ⟨hse, hd⟩
    · exact h.done u hu
  · refine Pool.forall_set (P := fun u c => c.isBusy = true → u ∉ insert t D ∧ sent u) ?_ ?_
    · exact fun hno => absurd hno Bool.false_ne_true
    · intro u hut hu
      obtain ⟨hmem, hs⟩ := h.busy u hu
      exact ⟨fun hin => (Finset.mem_insert.mp hin).elim hut hmem, hs⟩

theorem Round.step (hj : job.Meets S) (h : Round S sent D p m) (ha : a ≠ .spurious)
    (hs : job.step t a p m = some (p', m')) : ∃ D', Round S sent D' p' m' := by
  unfold Job.step at hs
  split at hs
  · cases hs
    exact ⟨D, h.move (fun hno => absurd hno Bool.false_ne_true) h.fit trivial (fun _ _ _ => id)
      fun hmem => (h.done t hmem).2⟩
  · exact absurd rfl ha
  · rename_i hpc
    cases hs
    exact ⟨D, h.move (fun _ => by rw [hpc]; rfl) h.fit (hj.start t m h.fit) (fun _ _ _ => id)
      fun hmem => (h.done t hmem).2⟩
  · rename_i l hpc
    cases hs
    have hb : (p.pc t).isBusy = true := by rw [hpc]; rfl
    have hg : S.Good t m l := by simpa only [hpc, Spec.At] using h.on t
    exact ⟨D, h.move (fun _ => hb) (hj.fit t m l h.fit hg) (hj.turn t m l h.fit hg)
      (hj.frame t m l hg) fun hmem => absurd hmem (h.busy t hb).1⟩
  · rename_i hpc
    cases hs
    exact ⟨insert t D, h.report hpc⟩
  · cases hs

theorem Round.broadcast (h : Round S sent D p m) (ht : ¬ sent t)
    (hs : ∀ u, sent u ∨ u = t → sent' u) : Round S sent' D (p.broadcast t) m := by
  have hm : Round S sent' D p m :=
    ⟨h.finished, h.fit, h.on, fun u hu => ⟨hs u (.inl (h.done u hu).1), (h.done u hu).2⟩,
      fun u hu => ⟨(h.busy u hu).1, hs u (.inl (h.busy u hu).2)⟩⟩
  unfold Pool.broadcast
  split
  · refine ⟨h.finished, h.fit, Pool.forall_set trivial fun u _ => h.on u, hm.done, ?_⟩
    refine Pool.forall_set (P := fun u c => c.isBusy = true → u ∉ D ∧ sent' u) ?_ ?_
    · exact fun _ => ⟨fun hmem => ht (h.done t hmem).1, hs t (.inr rfl)⟩
    · exact fun u _ => hm.busy u
  · exact hm

omit [DecidableEq ι] in
theorem Round.full [Fintype ι] (h : Round S sent D p m) (hn : p.finished = Fintype.card ι) :
    p.Quiet ∧ ∀ t, S.Done t m := by
  have hall : D = Finset.univ := Finset.eq_univ_of_card D (h.finished.symm.trans hn)
  subst hall
  constructor
  · intro t
    by_contra hb
    exact (h.busy t (Bool.eq_true_of_not_eq_false hb)).1 (Finset.mem_univ t)
  · exact fun t => (h.done t (Finset.mem_univ t)).2

end VmFt.WorkerPool
