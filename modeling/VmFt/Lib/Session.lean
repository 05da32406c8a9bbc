import Mathlib.Logic.Function.Basic
import VmFt.Lib.Transition

/-! # Sessions of two parties

Two parties exchange messages over channels that keep their order. A party waits
for a message, does a step of its own, in which it may put a message, or has
stopped. To show that the parties are dual it is enough to look at the states in
which nothing is in flight: if every message put there is absorbed by the other
party, then in any run the messages in flight are those that the other party takes
next, and a party that waits gets its message.
-/

namespace VmFt.Session

open Function

/-- What a party does next. -/
inductive Node (σ ι χ μ : Type*)
  | recv (channel : χ) (next : μ → σ)
  | act (next : ι → σ × Option (χ × μ))
  | halt

abbrev Party (σ ι χ μ : Type*) := σ → Node σ ι χ μ

structure Net (α β χ μ : Type*) where
  first : α
  second : β
  toFirst : χ → List μ
  toSecond : χ → List μ

variable {α β ι χ μ : Type*}

def Net.swap (s : Net α β χ μ) : Net β α χ μ := ⟨s.second, s.first, s.toSecond, s.toFirst⟩

inductive Move (ι : Type*)
  | first (input : ι)
  | second (input : ι)

variable [DecidableEq χ]

def enqueue (queues : χ → List μ) : Option (χ × μ) → χ → List μ
  | none => queues
  | some (c, m) => Function.update queues c (queues c ++ [m])

def moveFirst (A : Party α ι χ μ) (s : Net α β χ μ) (i : ι) : Option (Net α β χ μ) :=
  match A s.first with
  | .recv c next =>
    match s.toFirst c with
    | [] => none
    | m :: rest => some { s with first := next m, toFirst := Function.update s.toFirst c rest }
  | .act next => some { s with first := (next i).1, toSecond := enqueue s.toSecond (next i).2 }
  | .halt => none

def step (A : Party α ι χ μ) (B : Party β ι χ μ) (s : Net α β χ μ) :
    Move ι → Option (Net α β χ μ)
  | .first i => moveFirst A s i
  | .second i => (moveFirst B s.swap i).map Net.swap

def session (A : Party α ι χ μ) (B : Party β ι χ μ) : System (Net α β χ μ) (Move ι) := ⟨step A B⟩

/-- A condition on the steps of a session from conditions on those of the parties. -/
def both (okA : α → ι → Prop) (okB : β → ι → Prop) (s : Net α β χ μ) : Move ι → Prop
  | .first i => okA s.first i
  | .second i => okB s.second i

/-- Under steps that meet the condition, and before it puts a message itself, a party takes all the
messages in the queues, each where it fits, and comes to the goal. -/
inductive Absorbs (B : Party β ι χ μ) (ok : β → ι → Prop) (fits : β → μ → Prop)
    (goal : β → Prop) : β → (χ → List μ) → Prop
  | done {b : β} {queues : χ → List μ} (hempty : ∀ c, queues c = []) (hgoal : goal b) :
      Absorbs B ok fits goal b queues
  | take {b : β} {queues : χ → List μ} {c : χ} {next : μ → β} {m : μ} {rest : List μ}
      (hrecv : B b = .recv c next) (hqueue : queues c = m :: rest) (hfits : fits b m)
      (h : Absorbs B ok fits goal (next m) (Function.update queues c rest)) :
      Absorbs B ok fits goal b queues
  | skip {b : β} {queues : χ → List μ} {next : ι → β × Option (χ × μ)} (hact : B b = .act next)
      (hquiet : ∀ i, ok b i → (next i).2 = none)
      (h : ∀ i, ok b i → Absorbs B ok fits goal (next i).1 queues) :
      Absorbs B ok fits goal b queues

/-- From `s` on the first party has steps that meet the condition, and whichever of them it takes,
it comes to a state as wanted. -/
inductive Inevitable (A : Party α ι χ μ) (ok : α → ι → Prop) (goal : Net α β χ μ → Prop) :
    Net α β χ μ → Prop
  | here {s : Net α β χ μ} (h : goal s) : Inevitable A ok goal s
  | move {s : Net α β χ μ} (hsome : ∃ i t, ok s.first i ∧ moveFirst A s i = some t)
      (hall : ∀ i t, ok s.first i → moveFirst A s i = some t → Inevitable A ok goal t) :
      Inevitable A ok goal s

/-- After a step of `A` with the outcome `r` the parties are level again once `B` has absorbed what
was put. -/
def Meets (B : Party β ι χ μ) (ok : β → ι → Prop) (fits : β → μ → Prop) (level : α → β → Prop)
    (r : α × Option (χ × μ)) (b : β) : Prop :=
  Absorbs B ok fits (level r.1) b (enqueue (fun _ => []) r.2)

/-- Between parties that are level, `B` absorbs what `A` puts, and `A` comes to put what `B` waits
for. -/
structure Serves (A : Party α ι χ μ) (B : Party β ι χ μ) (okA : α → ι → Prop) (okB : β → ι → Prop)
    (fits : β → μ → Prop) (level : α → β → Prop) (rank : α → ℕ) : Prop where
  meets {a b next i} : level a b → A a = .act next → okA a i →
    Meets B okB fits level (next i) b
  awaited {a b c take} : level a b → B b = .recv c take →
    ∃ next, A a = .act next ∧ ∀ i, okA a i → (next i).2 = none → rank (next i).1 < rank a
  ready (a) : ∃ i, okA a i

/-- What is in flight goes in one direction, and when it has been absorbed the parties are level. -/
def Sound (A : Party α ι χ μ) (B : Party β ι χ μ) (okA : α → ι → Prop) (okB : β → ι → Prop)
    (fitsA : α → μ → Prop) (fitsB : β → μ → Prop) (level : α → β → Prop) (s : Net α β χ μ) : Prop :=
  (Absorbs B okB fitsB (level s.first) s.second s.toSecond ∧ ∀ c, s.toFirst c = []) ∨
    (Absorbs A okA fitsA (level · s.second) s.first s.toFirst ∧ ∀ c, s.toSecond c = [])

variable {A : Party α ι χ μ} {B : Party β ι χ μ} {okA : α → ι → Prop} {okB : β → ι → Prop}
  {fitsA : α → μ → Prop} {fitsB : β → μ → Prop} {level : α → β → Prop} {rank : α → ℕ}
  {s t : Net α β χ μ}

theorem enqueue_some (queues : χ → List μ) (c : χ) (m : μ) :
    enqueue queues (some (c, m)) = Function.update queues c (queues c ++ [m]) := rfl

theorem moveFirst_act {next : ι → α × Option (χ × μ)} (hn : A s.first = .act next) (i : ι) :
    moveFirst A s i =
      some { s with first := (next i).1, toSecond := enqueue s.toSecond (next i).2 } := by
  rw [moveFirst, hn]

theorem moveFirst_recv {c : χ} {next : μ → α} {m : μ} {rest : List μ}
    (hn : A s.first = .recv c next) (hqueue : s.toFirst c = m :: rest) (i : ι) : moveFirst A s i =
      some { s with first := next m, toFirst := Function.update s.toFirst c rest } := by
  rw [moveFirst, hn]
  dsimp only
  rw [hqueue]

namespace Absorbs

variable {goal goal' : β → Prop} {b : β} {queues : χ → List μ} {c : χ} {next : μ → β} {m : μ}
  {rest : List μ}

theorem mono (h : Absorbs B okB fitsB goal b queues) (himp : ∀ b, goal b → goal' b) :
    Absorbs B okB fitsB goal' b queues := by
  induction h with
  | done hempty hgoal => exact .done hempty (himp _ hgoal)
  | take hrecv hqueue hfits _ ih => exact .take hrecv hqueue hfits ih
  | skip hact hquiet _ ih => exact .skip hact hquiet ih

theorem join {put : Option (χ × μ)} (h : Absorbs B okB fitsB
      (fun b => Absorbs B okB fitsB goal b (enqueue (fun _ => []) put)) b queues) :
    Absorbs B okB fitsB goal b (enqueue queues put) := by
  induction h with
  | @done b queues hempty hgoal =>
    obtain rfl : queues = fun _ => [] := funext hempty
    exact hgoal
  | @take b queues c next m rest hrecv hqueue hfits _ ih =>
    obtain _ | ⟨c', m'⟩ := put
    · exact .take hrecv hqueue hfits ih
    rw [enqueue_some] at ih ⊢
    by_cases hc : c = c'
    · subst hc
      rw [update_self, update_idem] at ih
      have hl : Function.update queues c (queues c ++ [m']) c = m :: (rest ++ [m']) := by
        rw [update_self, hqueue]
        rfl
      refine .take hrecv hl hfits ?_
      rwa [update_idem]
    · rw [update_of_ne (Ne.symm hc), update_comm hc] at ih
      exact .take hrecv (by rw [update_of_ne hc, hqueue]) hfits ih
  | skip hact hquiet _ ih => exact .skip hact hquiet ih

theorem tail (h : Absorbs B okB fitsB goal b queues) (hrecv : B b = .recv c next)
    (hqueue : queues c = m :: rest) :
    Absorbs B okB fitsB goal (next m) (Function.update queues c rest) := by
  cases h with
  | done hempty =>
    rw [hempty c] at hqueue
    cases hqueue
  | take hr' hq' _ h =>
    cases hrecv.symm.trans hr'
    cases hqueue.symm.trans hq'
    exact h
  | skip hact => cases hrecv.symm.trans hact

theorem done_of_recv (h : Absorbs B okB fitsB goal b queues) (hrecv : B b = .recv c next)
    (hqueue : queues c = []) : (∀ c, queues c = []) ∧ goal b := by
  cases h with
  | done hempty hgoal => exact ⟨hempty, hgoal⟩
  | take hr' hq' =>
    cases hrecv.symm.trans hr'
    cases hqueue.symm.trans hq'
  | skip hact => cases hrecv.symm.trans hact

end Absorbs

theorem Meets.quiet {a : α} {b : β} (h : level a b) : Meets B okB fitsB level (a, none) b :=
  .done (fun _ => rfl) h

theorem Meets.put {a : α} {b : β} {c : χ} {m : μ} {take : μ → β} (hrecv : B b = .recv c take)
    (hfits : fitsB b m) (h : level a (take m)) : Meets B okB fitsB level (a, some (c, m)) b := by
  have hqueue : enqueue (fun _ => []) (some (c, m)) c = [m] := by
    rw [enqueue_some, update_self]
    rfl
  refine .take hrecv hqueue hfits (.done (fun c' => ?_) h)
  show Function.update (enqueue (fun _ => []) (some (c, m))) c [] c' = []
  rw [enqueue_some, update_idem, update_eq_self]

theorem Meets.skip {r : α × Option (χ × μ)} {b : β} {next : ι → β × Option (χ × μ)}
    (hact : B b = .act next) (hquiet : ∀ i, okB b i → (next i).2 = none)
    (h : ∀ i, okB b i → Meets B okB fitsB level r (next i).1) : Meets B okB fitsB level r b :=
  Absorbs.skip hact hquiet h

theorem Sound.swap (h : Sound A B okA okB fitsA fitsB level s) :
    Sound B A okB okA fitsB fitsA (fun b a => level a b) s.swap :=
  h.symm

theorem Sound.moveFirst (hs : Serves A B okA okB fitsB level rank)
    (h : Sound A B okA okB fitsA fitsB level s) {i : ι} (hok : okA s.first i)
    (hm : moveFirst A s i = some t) : Sound A B okA okB fitsA fitsB level t := by
  unfold Session.moveFirst at hm
  split at hm
  next c next hn =>
    split at hm
    · cases hm
    next m rest hqueue =>
      cases hm
      rcases h with ⟨-, hempty⟩ | ⟨ha, hempty⟩
      · rw [hempty c] at hqueue
        cases hqueue
      · exact .inr ⟨ha.tail hn hqueue, hempty⟩
  next next hn =>
    cases hm
    -- If nothing is in flight to the first party, the second one absorbs what is put now as well.
    have hput : Absorbs B okB fitsB (level s.first) s.second s.toSecond →
        Absorbs B okB fitsB (level (next i).1) s.second (enqueue s.toSecond (next i).2) := by
      intro ha
      exact (ha.mono fun b hl => hs.meets hl hn hok).join
    rcases h with ⟨ha, hempty⟩ | ⟨ha, hempty⟩
    · exact .inl ⟨hput ha, hempty⟩
    · cases ha with
      | done hfirst hl => exact .inl ⟨hput (.done hempty hl), hfirst⟩
      | take hrecv => cases hn.symm.trans hrecv
      | skip hact hquiet hne =>
        cases hn.symm.trans hact
        refine .inr ⟨hne i hok, ?_⟩
        rw [hquiet i hok]
        exact hempty
  · cases hm

theorem Sound.step {rank' : β → ℕ} (hs : Serves A B okA okB fitsB level rank)
    (hs' : Serves B A okB okA fitsA (fun b a => level a b) rank')
    (h : Sound A B okA okB fitsA fitsB level s) {e : Move ι} (hok : both okA okB s e)
    (hst : step A B s e = some t) : Sound A B okA okB fitsA fitsB level t := by
  cases e with
  | first i => exact h.moveFirst hs hok hst
  | second i =>
    obtain ⟨u, hm, rfl⟩ := Option.map_eq_some_iff.mp hst
    exact (h.swap.moveFirst hs' hok hm).swap

theorem Sound.absorbs (h : Sound A B okA okB fitsA fitsB level s) :
    Absorbs B okB fitsB (fun _ => True) s.second s.toSecond := by
  rcases h with ⟨ha, -⟩ | ⟨-, hempty⟩
  · exact ha.mono fun _ _ => trivial
  · exact .done hempty trivial

theorem inevitable_of_level (hs : Serves A B okA okB fitsB level rank) {c : χ}
    {take : μ → β} (hl : level s.first s.second) (hrecv : B s.second = .recv c take) :
    Inevitable A okA (fun t => t.toSecond c ≠ []) s := by
  obtain ⟨n, hn⟩ : ∃ n, rank s.first = n := ⟨_, rfl⟩
  induction n using Nat.strongRecOn generalizing s with
  | ind n ih =>
    obtain ⟨next, hno, hr⟩ := hs.awaited hl hrecv
    obtain ⟨i, hi⟩ := hs.ready s.first
    refine .move ⟨i, _, hi, moveFirst_act hno i⟩ fun i t hok ht => ?_
    cases (moveFirst_act hno i).symm.trans ht
    have hm := hs.meets hl hno hok
    have hle := hr i hok
    unfold Meets at hm
    generalize next i = r at hm hle
    obtain ⟨a, _ | ⟨c', m⟩⟩ := r
    · exact ih _ (hn ▸ hle rfl) (hm.done_of_recv hrecv rfl).2 hrecv rfl
    · refine .here ?_
      show enqueue s.toSecond (some (c', m)) c ≠ []
      by_cases hc : c = c'
      · rw [enqueue_some, hc, update_self]
        exact List.append_ne_nil_of_right_ne_nil _ (List.cons_ne_nil _ _)
      · -- The message would be put where the second party does not look for it.
        have hnn : enqueue (fun _ => []) (some (c', m)) c = [] := by
          rw [enqueue_some, update_of_ne hc]
        have hempty : enqueue (fun _ => []) (some (c', m)) c' = [] :=
          (hm.done_of_recv hrecv hnn).1 c'
        rw [enqueue_some, update_self] at hempty
        cases hempty

theorem Absorbs.inevitable (hs : Serves A B okA okB fitsB level rank) {c : χ} {take : μ → β}
    (hrecv : B s.second = .recv c take) {a : α} {queues : χ → List μ}
    (ha : Absorbs A okA fitsA (level · s.second) a queues) (hfirst : s.first = a)
    (hq : s.toFirst = queues) : Inevitable A okA (fun t => t.toSecond c ≠ []) s := by
  obtain ⟨b, hb⟩ : ∃ b, s.second = b := ⟨_, rfl⟩
  rw [hb] at ha hrecv
  induction ha generalizing s with
  | done hempty hl =>
    subst hfirst hb
    exact inevitable_of_level hs hl hrecv
  | @take a queues c' next m rest hn hqueue _ _ ih =>
    subst hfirst hq
    obtain ⟨i, hi⟩ := hs.ready s.first
    refine .move ⟨i, _, hi, moveFirst_recv hn hqueue i⟩ fun i t _ ht => ?_
    cases (moveFirst_recv hn hqueue i).symm.trans ht
    refine ih ?_ ?_ ?_
    exacts [rfl, rfl, hb]
  | @skip a queues next hn hquiet _ ih =>
    subst hfirst hq
    obtain ⟨i, hi⟩ := hs.ready s.first
    refine .move ⟨i, _, hi, moveFirst_act hn i⟩ fun i t hok ht => ?_
    cases (moveFirst_act hn i).symm.trans ht
    refine ih i hok ?_ ?_ ?_
    exacts [rfl, rfl, hb]

theorem Sound.inevitable (hs : Serves A B okA okB fitsB level rank)
    (h : Sound A B okA okB fitsA fitsB level s) {c : χ} {take : μ → β}
    (hrecv : B s.second = .recv c take) (hqueue : s.toSecond c = []) :
    Inevitable A okA (fun t => t.toSecond c ≠ []) s := by
  rcases h with ⟨ha, -⟩ | ⟨ha, -⟩
  · exact inevitable_of_level hs (ha.done_of_recv hrecv hqueue).2 hrecv
  · exact ha.inevitable hs hrecv rfl rfl

end VmFt.Session
