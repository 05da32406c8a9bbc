import Mathlib.Data.Nat.Notation
import Mathlib.Logic.Relation

/-! # Guarded runs of a transition system

A system is given by a partial step function. Runs are taken under a side
condition on the steps, which states the fault assumption of a result. An
invariant of the guarded steps holds in every state such a run reaches.
-/

namespace VmFt

universe u v

structure System (σ : Type u) (ε : Type v) where
  step : σ → ε → Option σ

namespace System

variable {σ : Type u} {ε : Type v} (M : System σ ε)

/-- One step whose event meets the condition `ok`. -/
def Step (ok : σ → ε → Prop) (s t : σ) : Prop :=
  ∃ e, ok s e ∧ M.step s e = some t

/-- A finite run all of whose steps meet the condition `ok`. -/
def Run (ok : σ → ε → Prop) : σ → σ → Prop :=
  Relation.ReflTransGen (M.Step ok)

def anyStep : σ → ε → Prop := fun _ _ => True

/-- A step that is taken only under a condition. -/
def guarded (c : Prop) [Decidable c] (next : σ) : Option σ := if c then some next else none

variable {M} {ok ok' : σ → ε → Prop} {s t u : σ}

theorem guarded_eq_some {c : Prop} [Decidable c] : guarded c t = some s ↔ c ∧ t = s := by
  unfold guarded
  split <;> simp_all

theorem Run.refl : M.Run ok s s :=
  Relation.ReflTransGen.refl

theorem Run.trans (h : M.Run ok s t) (h' : M.Run ok t u) : M.Run ok s u :=
  Relation.ReflTransGen.trans h h'

theorem Run.cons (e : ε) (hok : ok s e) (he : M.step s e = some t) (h : M.Run ok t u) :
    M.Run ok s u :=
  Relation.ReflTransGen.head ⟨e, hok, he⟩ h

theorem Run.invariant {I : σ → Prop} (h : M.Run ok s t) (hs : I s)
    (hst : ∀ a e b, I a → ok a e → M.step a e = some b → I b) : I t := by
  induction h with
  | refl => exact hs
  | tail _ hbc ih =>
    obtain ⟨e, hok, he⟩ := hbc
    exact hst _ e _ ih hok he

theorem Run.mono (himp : ∀ a e, ok a e → ok' a e) (h : M.Run ok s t) : M.Run ok' s t := by
  induction h with
  | refl => exact Run.refl
  | tail _ hbc ih =>
    obtain ⟨e, hok, he⟩ := hbc
    exact Relation.ReflTransGen.tail ih ⟨e, himp _ _ hok, he⟩

theorem Run.relates {R : σ → σ → Prop} {I : σ → Prop} (h : M.Run ok s t) (hs : I s)
    (hr : ∀ a, R a a) (ht : ∀ a b c, R a b → R b c → R a c)
    (hinv : ∀ a e b, I a → ok a e → M.step a e = some b → I b)
    (hst : ∀ a e b, I a → ok a e → M.step a e = some b → R a b) : R s t := by
  have key : I t ∧ R s t := by
    refine Run.invariant (I := fun x => I x ∧ R s x) h ⟨hs, hr s⟩ ?_
    rintro a e b ⟨ha, hsa⟩ hok he
    exact ⟨hinv a e b ha hok he, ht _ _ _ hsa (hst a e b ha hok he)⟩
  exact key.2

/-- The progress rule: when every step reaches the goal or lowers the rank by what it adds to the
clock, a run that has not reached the goal has used up that much of the rank. -/
theorem Run.ranked {I : σ → Prop} (goal : σ → Prop) (rank clock : σ → ℕ) (h : M.Run ok s t)
    (hs : I s) (hinv : ∀ a e b, I a → ok a e → M.step a e = some b → I b)
    (hgoal : ∀ a e b, goal a → M.step a e = some b → goal b)
    (hst : ∀ a e b, I a → ok a e → M.step a e = some b →
      goal b ∨ rank b + clock b ≤ rank a + clock a) :
    goal t ∨ rank t + clock t ≤ rank s + clock s := by
  have key : I t ∧ (goal t ∨ rank t + clock t ≤ rank s + clock s) := by
    refine Run.invariant (I := fun x => I x ∧ (goal x ∨ rank x + clock x ≤ rank s + clock s)) h
      ⟨hs, .inr (Nat.le_refl _)⟩ ?_
    rintro a e b ⟨ha, hr⟩ hok he
    refine ⟨hinv a e b ha hok he, ?_⟩
    rcases hr with hg | hle
    · exact .inl (hgoal a e b hg he)
    · exact (hst a e b ha hok he).imp_right fun h' => Nat.le_trans h' hle
  exact key.2

instance (s : σ) (e : ε) : Decidable (anyStep s e) :=
  inferInstanceAs (Decidable True)

variable (M) in
/-- Run a list of events, stopping at the first one that is disabled or breaks `ok`. -/
def exec (ok : σ → ε → Prop) [∀ s e, Decidable (ok s e)] : σ → List ε → Option σ
  | s, [] => some s
  | s, e :: es => if ok s e then (M.step s e).bind fun t => exec ok t es else none

theorem exec_run [∀ s e, Decidable (ok s e)] {es : List ε} (h : M.exec ok s es = some t) :
    M.Run ok s t := by
  induction es generalizing s with
  | nil =>
    simp only [exec, Option.some.injEq] at h
    exact h ▸ Run.refl
  | cons e es ih =>
    simp only [exec] at h
    split at h
    · rename_i hok
      obtain ⟨m, hm, hrest⟩ := Option.bind_eq_some_iff.mp h
      exact Run.cons e hok hm (ih hrest)
    · cases h

/-- The breach rule: a list of events either meets the stricter condition `ok'` at every step, or
has gone through a breach of it and ends in a state that `D` tells by. -/
theorem exec_or_of_breach [∀ s e, Decidable (ok s e)] [∀ s e, Decidable (ok' s e)]
    {I D : σ → Prop} {es : List ε} (h : M.exec ok s es = some t) (hs : I s)
    (hinv : ∀ a e b, I a → ok' a e → M.step a e = some b → I b)
    (hb : ∀ a e b, I a → ok a e → ¬ ok' a e → M.step a e = some b → D b)
    (hst : ∀ a e b, D a → ok a e → M.step a e = some b → D b) : M.exec ok' s es = some t ∨ D t := by
  induction es generalizing s with
  | nil => exact .inl h
  | cons e es ih =>
    simp only [exec] at h
    split at h
    · rename_i hok
      obtain ⟨m, hm, hrest⟩ := Option.bind_eq_some_iff.mp h
      by_cases hok' : ok' s e
      · simp only [exec, if_pos hok', hm]
        exact ih hrest (hinv s e m hs hok' hm)
      · exact .inr ((exec_run hrest).invariant (hb s e m hs hok hok' hm) hst)
    · cases h

theorem exists_run_of_exec (ok : σ → ε → Prop) [∀ s e, Decidable (ok s e)] {p : σ → Prop}
    [DecidablePred p] (es : List ε) (h : (M.exec ok s es).any (fun t => decide (p t))) :
    ∃ t, M.Run ok s t ∧ p t := by
  cases he : M.exec ok s es with
  | none => simp [he] at h
  | some t => exact ⟨t, exec_run he, by simpa [he] using h⟩

theorem exists_step_of_exec (ok : σ → ε → Prop) [∀ s e, Decidable (ok s e)] {p : σ → σ → Prop}
    [∀ s t, Decidable (p s t)] (es : List ε) (e : ε)
    (h : (M.exec ok s es).any fun t => (M.step t e).any fun u => decide (p t u)) :
    ∃ t u, M.Run ok s t ∧ M.step t e = some u ∧ p t u := by
  cases he : M.exec ok s es with
  | none => simp [he] at h
  | some t =>
    cases hs : M.step t e with
    | none => simp [he, hs] at h
    | some u => exact ⟨t, u, exec_run he, hs, by simpa [he, hs] using h⟩

variable (M) in
/-- There are steps that meet the condition, and whichever are taken, the goal is reached. -/
inductive Inevitable (ok : σ → ε → Prop) (goal : σ → Prop) : σ → Prop
  | here {s : σ} (h : goal s) : Inevitable ok goal s
  | move {s : σ} (hsome : ∃ e t, ok s e ∧ M.step s e = some t)
      (hall : ∀ e t, ok s e → M.step s e = some t → Inevitable ok goal t) : Inevitable ok goal s

/-- The goal is inevitable when a step is possible before it and every step reaches it or lowers
the rank. -/
theorem inevitable_of_rank {I goal : σ → Prop} (rank : σ → ℕ) (hs : I s)
    (hl : ∀ a, I a → ¬ goal a → ∃ e b, ok a e ∧ M.step a e = some b)
    (hst : ∀ a e b, I a → ok a e → M.step a e = some b → goal b ∨ I b ∧ rank b < rank a) :
    M.Inevitable ok goal s := by
  obtain ⟨n, hn⟩ : ∃ n, rank s = n := ⟨_, rfl⟩
  induction n using Nat.strongRecOn generalizing s with
  | ind n ih =>
    by_cases hgoal : goal s
    · exact .here hgoal
    · refine .move (hl s hs hgoal) fun e t hok ht => ?_
      rcases hst s e t hs hok ht with hg | ⟨hi, hlt⟩
      · exact .here hg
      · exact ih (rank t) (hn ▸ hlt) hi rfl

end System

end VmFt
