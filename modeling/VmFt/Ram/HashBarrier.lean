import Mathlib.Data.Fintype.Basic
import VmFt.Lib.Transition
import VmFt.Lib.WorkerPool
import VmFt.Ram.HashWorkers

/-! # The barrier of the hash workers

`compute_hash_list` and `compare_hash_list` signal their workers one by one and
return when a counter equals the number of workers. The workers wait without a
predicate. A worker that wakes up without a signal counts like one that was
signalled, so the calls are sound only if no worker does so during a call.
-/

namespace VmFt.Ram.HashBarrier

open WorkerPool List Function Option

variable {η : Type} {pages : ℕ} {bmap : ℕ → BitVec 64} {before : Bitmap}

/-- `compute_bitmap`, the hashes of the pages in RAM, `hlist`, `remote_hlist` and
`divergent_bitmap`. -/
structure Memory (η : Type) where
  computeBitmap : ℕ → BitVec 64
  computeHash : ℕ → η
  hashes : Fin nthread → ℕ → η
  pageIndices : Fin nthread → ℕ → ℕ
  len : Fin nthread → ℕ
  remote : Fin nthread → ℕ → η
  divergent : Bitmap

/-- The variables of `compute_thread_func`. -/
structure Scan where
  i : ℕ
  offset : ℕ
  count : ℕ
  mask : BitVec 64

def computeJob (pages : ℕ) : Job (Fin nthread) (Memory η) Scan where
  start t := ⟨0, t, 0, 1#64 <<< t.val⟩
  turn t m l :=
    if l.i * 64 < pages then
      if l.offset < 64 ∧ l.i * 64 + l.offset < pages then
        if l.mask &&& m.computeBitmap l.i ≠ 0 then
          ({ m with
              hashes := Function.update m.hashes t
                (Function.update (m.hashes t) l.count (m.computeHash (l.i * 64 + l.offset)))
              pageIndices := Function.update m.pageIndices t
                (Function.update (m.pageIndices t) l.count (l.i * 64 + l.offset)) },
            some ⟨l.i, l.offset + nthread, l.count + 1, l.mask <<< nthread⟩)
        else (m, some ⟨l.i, l.offset + nthread, l.count, l.mask <<< nthread⟩)
      else (m, some ⟨l.i + 1, t, l.count, 1#64 <<< t.val⟩)
    else ({ m with len := Function.update m.len t l.count }, none)

/-- The variable of `compare_thread_func`, and whether the hashes at it were found to differ. -/
structure Compare where
  i : ℕ
  differs : Bool

def compareJob [DecidableEq η] : Job (Fin nthread) (Memory η) Compare where
  start _ := ⟨0, false⟩
  turn t m l :=
    if l.differs then
      ({ m with divergent := setBit m.divergent (m.pageIndices t l.i) }, some ⟨l.i + 1, false⟩)
    else if l.i < m.len t then
      (m, some (if m.remote t l.i ≠ m.hashes t l.i then ⟨l.i, true⟩ else ⟨l.i + 1, false⟩))
    else (m, none)

/-- A call with the bitmap that it is passed, or with the marks that it finds. -/
inductive Call
  | compute (bmap : ℕ → BitVec 64)
  | compare (before : Bitmap)

inductive CallerPc
  | idle
  | reset (c : Call)
  | renew (bmap : ℕ → BitVec 64)
  | broadcast (c : Call) (i : ℕ)
  | poll (c : Call)
  | returned (c : Call)

def CallerPc.isIdle : CallerPc → Bool
  | .idle => true
  | _ => false

structure State (η : Type) where
  caller : CallerPc
  computing : Pool (Fin nthread) Scan
  comparing : Pool (Fin nthread) Compare
  mem : Memory η

/-- The counter that a call waits for. -/
def State.finishedThread (s : State η) : Call → ℕ
  | .compute _ => s.computing.finished
  | .compare _ => s.comparing.finished

def State.broadcast (s : State η) (t : Fin nthread) : Call → State η
  | .compute _ => { s with computing := s.computing.broadcast t }
  | .compare _ => { s with comparing := s.comparing.broadcast t }

/-- The next step of a call. -/
def State.callerStep (s : State η) : Option (State η) :=
  match s.caller with
  | .idle => none
  | .reset (.compute bmap) =>
    some { s with computing := { s.computing with finished := 0 }, caller := .renew bmap }
  | .reset (.compare before) =>
    some { s with
      comparing := { s.comparing with finished := 0 }, caller := .broadcast (.compare before) 0 }
  | .renew bmap =>
    some { s with
      mem := { s.mem with divergent := bitmapZero }, caller := .broadcast (.compute bmap) 0 }
  | .broadcast c i =>
    if h : i < nthread then some { s.broadcast ⟨i, h⟩ c with caller := .broadcast c (i + 1) }
    else some { s with caller := .poll c }
  | .poll c =>
    if s.finishedThread c = nthread then some { s with caller := .returned c } else some s
  | .returned _ => some { s with caller := .idle }

/-- Between the calls the guest runs and the hashes of the other host are copied. -/
inductive Event (η : Type)
  | computeHashList (bmap : ℕ → BitVec 64)
  | compareHashList
  | caller
  | compute (t : Fin nthread) (a : Act)
  | compare (t : Fin nthread) (a : Act)
  | between (computeHash : ℕ → η) (remote : Fin nthread → ℕ → η)

def hashing (η : Type) [DecidableEq η] (pages : ℕ) : System (State η) (Event η) where
  step s
    | .computeHashList bmap => System.guarded (s.caller.isIdle = true)
        { s with mem := { s.mem with computeBitmap := bmap }, caller := .reset (.compute bmap) }
    | .compareHashList => System.guarded (s.caller.isIdle = true)
        { s with caller := .reset (.compare s.mem.divergent) }
    | .caller => s.callerStep
    | .compute t a => ((computeJob pages).step t a s.computing s.mem).map fun r =>
        { s with computing := r.1, mem := r.2 }
    | .compare t a => (compareJob.step t a s.comparing s.mem).map fun r =>
        { s with comparing := r.1, mem := r.2 }
    | .between computeHash remote => System.guarded (s.caller.isIdle = true)
        { s with mem := { s.mem with computeHash := computeHash, remote := remote } }

/-- The first `n` places of the list of worker `t` hold the pages `l` and their hashes. -/
def Memory.Holds (m : Memory η) (t : Fin nthread) (n : ℕ) (l : List ℕ) : Prop :=
  (range n).map (m.pageIndices t) = l ∧
    ∀ j < n, m.hashes t j = m.computeHash (m.pageIndices t j)

/-- A worker has the page `p` with a hash that is not that of the other host. -/
def Memory.Differs (m : Memory η) (p : ℕ) : Prop :=
  ∃ t, ∃ j < m.len t, m.remote t j ≠ m.hashes t j ∧ m.pageIndices t j = p

/-- What a call promises about the memory. -/
def Memory.Serves (pages : ℕ) (m : Memory η) : Call → Prop
  | .compute bmap => ∀ t, m.Holds t (m.len t) (computeThread bmap pages t)
  | .compare before => ∀ p, m.divergent p = true ↔ before p = true ∨ m.Differs p

/-- Every worker has done its part for the call, and none is at work any more. -/
def Complete (pages : ℕ) (s : State η) : Call → Prop
  | .compute bmap => s.computing.Quiet ∧ s.mem.Serves pages (.compute bmap)
  | .compare before => s.comparing.Quiet ∧ s.mem.Serves pages (.compare before)

/-- A worker wakes up without a signal only between the calls, and a call begins only when nobody
is at work. -/
def Orderly (s : State η) : Event η → Prop
  | .computeHashList _ | .compareHashList => s.computing.Quiet ∧ s.comparing.Quiet
  | .compute _ .spurious | .compare _ .spurious => s.caller.isIdle = true
  | _ => True

instance (s : State η) (e : Event η) : Decidable (Orderly s e) := by
  rcases e with _ | _ | _ | ⟨_, _ | _ | _ | _ | _⟩ | ⟨_, _ | _ | _ | _ | _⟩ | _ <;>
    unfold Orderly <;> infer_instance

/-! ### Computing -/

section Compute

def rest (bmap : ℕ → BitVec 64) (pages : ℕ) (t : Fin nthread) (l : Scan) : List ℕ :=
  scanWord (bmap l.i) (l.i * 64) pages ((64 - l.offset + 15) / nthread) l.offset l.mask ++
    (range' (l.i + 1) (bitsToLongs pages - (l.i + 1))).flatMap fun i =>
      scanWord (bmap i) (i * 64) pages (64 / nthread) t (1#64 <<< t.val)

def computeSpec (pages : ℕ) (bmap : ℕ → BitVec 64) : Spec (Fin nthread) (Memory η) Scan where
  Fit m := m.computeBitmap = bmap
  Good t m l := ∃ found, m.Holds t l.count found ∧
    found ++ rest bmap pages t l = computeThread bmap pages t
  Done t m := m.Holds t (m.len t) (computeThread bmap pages t)

variable {t u : Fin nthread} {m : Memory η} {l : Scan}

theorem scanWord_eq_nil {word : BitVec 64} {base rounds offset : ℕ} {mask : BitVec 64}
    (h : ¬ (offset < 64 ∧ base + offset < pages)) :
    scanWord word base pages rounds offset mask = [] := by
  cases rounds with
  | zero => rfl
  | succ rounds => rw [scanWord, if_neg h]

theorem rest_row (i count : ℕ) : rest bmap pages t ⟨i, t, count, 1#64 <<< t.val⟩ =
      (range' i (bitsToLongs pages - i)).flatMap fun i =>
        scanWord (bmap i) (i * 64) pages (64 / nthread) t (1#64 <<< t.val) := by
  have hr : (64 - t.val + 15) / nthread = 64 / nthread := by
    have := t.isLt
    unfold nthread at this ⊢
    omega
  unfold rest
  dsimp only
  rw [hr]
  by_cases hi : i < bitsToLongs pages
  · obtain ⟨n, hn⟩ : ∃ n, bitsToLongs pages - i = n + 1 := ⟨_, (Nat.succ_pred (by omega)).symm⟩
    rw [hn, show bitsToLongs pages - (i + 1) = n by omega, range'_succ, flatMap_cons]
  · rw [scanWord_eq_nil, show bitsToLongs pages - (i + 1) = 0 by omega,
      show bitsToLongs pages - i = 0 by omega]
    · rfl
    · unfold bitsToLongs at hi
      omega

theorem rest_turn (hc : l.offset < 64 ∧ l.i * 64 + l.offset < pages) (count : ℕ) :
    rest bmap pages t l = (if l.mask &&& bmap l.i ≠ 0 then [l.i * 64 + l.offset] else []) ++
        rest bmap pages t ⟨l.i, l.offset + nthread, count, l.mask <<< nthread⟩ := by
  have hr : (64 - l.offset + 15) / nthread = (64 - (l.offset + nthread) + 15) / nthread + 1 := by
    unfold nthread
    omega
  unfold rest
  rw [hr, scanWord, if_pos hc, append_assoc]

theorem rest_next (hc : ¬ (l.offset < 64 ∧ l.i * 64 + l.offset < pages)) (count : ℕ) :
    rest bmap pages t l = rest bmap pages t ⟨l.i + 1, t, count, 1#64 <<< t.val⟩ := by
  rw [rest_row, rest, scanWord_eq_nil hc, nil_append]

theorem rest_eq_nil (h : ¬ l.i * 64 < pages) : rest bmap pages t l = [] := by
  rw [rest, scanWord_eq_nil (by omega), nil_append]
  rw [show bitsToLongs pages - (l.i + 1) = 0 by unfold bitsToLongs; omega]
  rfl

theorem Memory.Holds.push {n p : ℕ} {found : List ℕ} (h : m.Holds t n found) : Memory.Holds { m with
      hashes := Function.update m.hashes t (Function.update (m.hashes t) n (m.computeHash p))
      pageIndices := Function.update m.pageIndices t (Function.update (m.pageIndices t) n p) }
      t (n + 1) (found ++ [p]) := by
  constructor
  · dsimp only
    rw [range_succ, map_append, ← h.1, update_self, map_singleton,
      update_self]
    congr 1
    exact map_congr_left fun j hj => update_of_ne (mem_range.mp hj).ne _ _
  · intro j hj
    dsimp only
    rw [update_self, update_self]
    by_cases hjn : j = n
    · rw [hjn, update_self, update_self]
    · rw [update_of_ne hjn, update_of_ne hjn]
      exact h.2 j (by omega)

theorem computeTurn_frame (pages : ℕ) (m : Memory η) (l : Scan) (hu : u ≠ t) :
    (∀ n found, m.Holds u n found → ((computeJob pages).turn t m l).1.Holds u n found) ∧
      ((computeJob pages).turn t m l).1.len u = m.len u := by
  unfold computeJob Memory.Holds
  dsimp only
  split_ifs <;> simp [update_of_ne hu]

theorem computeJob_meets : (computeJob pages).Meets (computeSpec (η := η) pages bmap) where
  start t m _ := by
    refine ⟨[], ⟨rfl, fun j hj => absurd hj (Nat.not_lt_zero j)⟩, ?_⟩
    rw [nil_append]
    refine (rest_row 0 0).trans ?_
    rw [computeThread, range_eq_range', Nat.sub_zero]
  fit t m l hm _ := by
    unfold computeJob
    dsimp only
    split_ifs <;> exact hm
  turn t m l hm := by
    rintro ⟨found, hf, hall⟩
    obtain rfl : m.computeBitmap = bmap := hm
    unfold computeJob
    dsimp only
    split_ifs with hi hc hbit
    · refine ⟨_, hf.push, ?_⟩
      rw [append_assoc, ← hall, rest_turn hc (l.count + 1), if_pos hbit]
    · refine ⟨found, hf, ?_⟩
      rw [← hall, rest_turn hc l.count, if_neg hbit, nil_append]
    · refine ⟨found, hf, ?_⟩
      rw [← hall, rest_next hc l.count]
    · rw [rest_eq_nil hi, List.append_nil] at hall
      subst hall
      refine ⟨?_, fun j hj => hf.2 j ?_⟩
      · dsimp only
        rw [update_self]
        exact hf.1
      · simpa using hj
  frame t m l _ u hu c hc := by
    obtain ⟨hk, hlen⟩ := computeTurn_frame pages m l hu
    cases c with
    | running l' =>
      obtain ⟨found, hf, hall⟩ := hc
      exact ⟨found, hk _ _ hf, hall⟩
    | reporting =>
      have hd := hk _ _ hc
      rwa [← hlen] at hd
    | top | waiting | woken => trivial

end Compute

/-! ### Comparing -/

section Compare

/-- The pages at the first `n` places of the list of worker `t` that differ are marked. -/
def Memory.Marked (m : Memory η) (t : Fin nthread) (n : ℕ) : Prop :=
  ∀ j < n, m.remote t j ≠ m.hashes t j → m.divergent (m.pageIndices t j) = true

def compareSpec (before : Bitmap) : Spec (Fin nthread) (Memory η) Compare where
  Fit m := (∀ p, before p = true → m.divergent p = true) ∧
    ∀ p, m.divergent p = true → before p = true ∨ m.Differs p
  Good t m l := m.Marked t l.i ∧
    (l.differs = true → l.i < m.len t ∧ m.remote t l.i ≠ m.hashes t l.i)
  Done t m := m.Marked t (m.len t)

variable {t : Fin nthread} {m : Memory η} {l : Compare}

theorem Memory.Marked.mark {n : ℕ} (h : m.Marked t n) (p : ℕ) :
    Memory.Marked { m with divergent := setBit m.divergent p } t n :=
  fun j hj hne => setBit_apply.mpr (.inl (h j hj hne))

theorem compareJob_meets [DecidableEq η] : compareJob.Meets (compareSpec (η := η) before) where
  start t m _ := ⟨fun j hj => absurd hj (Nat.not_lt_zero j), fun hno => absurd hno nofun⟩
  fit t m l hm hg := by
    unfold compareJob
    dsimp only
    split_ifs with hd hl
    · obtain ⟨hlt, hne⟩ := hg.2 hd
      refine ⟨fun p hp => setBit_apply.mpr (.inl (hm.1 p hp)), fun p hp => ?_⟩
      rcases setBit_apply.mp hp with hold | rfl
      · exact hm.2 p hold
      · exact .inr ⟨t, l.i, hlt, hne, rfl⟩
    all_goals exact hm
  turn t m l _ hg := by
    unfold compareJob
    dsimp only
    split_ifs with hd hl hne
    · refine ⟨fun j hj hdi => setBit_apply.mpr ?_, fun hno => absurd hno nofun⟩
      rcases Nat.lt_succ_iff_lt_or_eq.mp hj with hlt | rfl
      · exact .inl (hg.1 j hlt hdi)
      · exact .inr rfl
    · exact ⟨hg.1, fun _ => ⟨hl, hne⟩⟩
    · refine ⟨fun j hj hdi => ?_, fun hno => absurd hno nofun⟩
      rcases Nat.lt_succ_iff_lt_or_eq.mp hj with hlt | rfl
      · exact hg.1 j hlt hdi
      · exact absurd hdi hne
    · exact fun j hj => hg.1 j (lt_of_lt_of_le hj (not_lt.mp hl))
  frame t m l _ u hu c hc := by
    unfold compareJob
    dsimp only
    split_ifs
    · cases c with
      | running l' => exact ⟨hc.1.mark _, hc.2⟩
      | reporting => exact Memory.Marked.mark hc _
      | top | waiting | woken => trivial
    all_goals exact hc

end Compare

/-! ### The calls -/

section Calls

/-- Nobody is at work, and `P` holds of the counter of the first pool and the memory. -/
structure Paused (P : ℕ → Memory η → Prop) (p : Pool (Fin nthread) Scan)
    (q : Pool (Fin nthread) Compare) (m : Memory η) : Prop where
  computing : p.Quiet
  comparing : q.Quiet
  mem : P p.finished m

/-- The pool of the call is in a round, and the other one is at rest. -/
def InRound (pages i : ℕ) (p : Pool (Fin nthread) Scan) (q : Pool (Fin nthread) Compare)
    (m : Memory η) : Call → Prop
  | .compute bmap => q.Quiet ∧ ∃ D, Round (computeSpec pages bmap) (fun t => t.val < i) D p m
  | .compare before => p.Quiet ∧ ∃ D, Round (compareSpec before) (fun t => t.val < i) D q m

def Begun (m : Memory η) : Call → Prop
  | .compute bmap => m.computeBitmap = bmap
  | .compare before => (compareSpec before).Fit m

def Stage (pages : ℕ) (p : Pool (Fin nthread) Scan) (q : Pool (Fin nthread) Compare)
    (m : Memory η) : CallerPc → Prop
  | .idle => True
  | .reset c => Paused (fun _ m => Begun m c) p q m
  | .renew bmap => Paused (fun n m => n = 0 ∧ m.computeBitmap = bmap) p q m
  | .broadcast c i => InRound pages i p q m c
  | .poll c => ∃ i, InRound pages i p q m c
  | .returned c => Paused (fun _ m => m.Serves pages c) p q m

variable {p p' : Pool (Fin nthread) Scan} {q q' : Pool (Fin nthread) Compare} {m m' : Memory η}
  {P : ℕ → Memory η → Prop} {pc : CallerPc} {c : Call} {i : ℕ} {t : Fin nthread} {a : Act}
  {s s' : State η} {e : Event η}

theorem Stage.keep (h : Stage pages p q m pc)
    (hk : pc.isIdle = true ∨ (∀ P, Paused P p q m → Paused P p' q' m') ∧
      ∀ i c, InRound pages i p q m c → InRound pages i p' q' m' c) : Stage pages p' q' m' pc := by
  rcases hk with hidle | ⟨hp, hr⟩
  · cases pc with
    | idle => trivial
    | _ => exact absurd hidle nofun
  · cases pc with
    | idle => trivial
    | reset c => exact hp _ h
    | renew bmap => exact hp _ h
    | broadcast c i => exact hr i c h
    | poll c =>
      obtain ⟨i, hi⟩ := h
      exact ⟨i, hr i c hi⟩
    | returned c => exact hp _ h

theorem Stage.compute (h : Stage pages p q m pc) (ha : a = .spurious → pc.isIdle = true)
    (hs : (computeJob pages).step t a p m = some (p', m')) : Stage pages p' q m' pc := by
  by_cases hw : a = .spurious
  · exact h.keep (.inl (ha hw))
  · refine h.keep (.inr ⟨?_, ?_⟩)
    · rintro P ⟨hp, hq, hm⟩
      obtain ⟨hp', hf, rfl⟩ := hp.step hw hs
      exact ⟨hp', hq, hf ▸ hm⟩
    · rintro i (bmap | before) ⟨hq, D, hD⟩
      · exact ⟨hq, hD.step computeJob_meets hw hs⟩
      · obtain ⟨hp', -, rfl⟩ := hq.step hw hs
        exact ⟨hp', D, hD⟩

theorem Stage.compare [DecidableEq η] (h : Stage pages p q m pc)
    (ha : a = .spurious → pc.isIdle = true)
    (hs : compareJob.step t a q m = some (q', m')) : Stage pages p q' m' pc := by
  by_cases hw : a = .spurious
  · exact h.keep (.inl (ha hw))
  · refine h.keep (.inr ⟨?_, ?_⟩)
    · rintro P ⟨hp, hq, hm⟩
      obtain ⟨hq', -, rfl⟩ := hq.step hw hs
      exact ⟨hp, hq', hm⟩
    · rintro i (bmap | before) ⟨hq, D, hD⟩
      · obtain ⟨hq', -, rfl⟩ := hq.step hw hs
        exact ⟨hq', D, hD⟩
      · exact ⟨hq, hD.step compareJob_meets hw hs⟩

theorem InRound.broadcast (h : InRound pages i s.computing s.comparing s.mem c) (hi : i < nthread) :
    InRound pages (i + 1) (s.broadcast ⟨i, hi⟩ c).computing (s.broadcast ⟨i, hi⟩ c).comparing
      (s.broadcast ⟨i, hi⟩ c).mem c := by
  have hs : ∀ u : Fin nthread, u.val < i ∨ u = ⟨i, hi⟩ → u.val < i + 1 := by
    rintro u (hu | rfl)
    · omega
    · exact Nat.lt_succ_self i
  rcases c with bmap | before
  · obtain ⟨hq, D, hD⟩ := h
    exact ⟨hq, D, hD.broadcast (lt_irrefl i) hs⟩
  · obtain ⟨hp, D, hD⟩ := h
    exact ⟨hp, D, hD.broadcast (lt_irrefl i) hs⟩

theorem InRound.full (h : InRound pages i s.computing s.comparing s.mem c)
    (hn : s.finishedThread c = nthread) :
    Paused (fun _ m => m.Serves pages c) s.computing s.comparing s.mem := by
  have hc := hn.trans (Fintype.card_fin nthread).symm
  rcases c with bmap | before
  · obtain ⟨hq, D, hD⟩ := h
    obtain ⟨hp, hd⟩ := hD.full hc
    exact ⟨hp, hq, hd⟩
  · obtain ⟨hp, D, hD⟩ := h
    obtain ⟨hq, hd⟩ := hD.full hc
    refine ⟨hp, hq, fun p => ⟨hD.fit.2 p, ?_⟩⟩
    rintro (hb | ⟨t, j, hj, hne, rfl⟩)
    · exact hD.fit.1 p hb
    · exact hd t j hj hne

def Inv (pages : ℕ) (s : State η) : Prop := Stage pages s.computing s.comparing s.mem s.caller

theorem Inv.callerStep (h : Inv pages s) (hs : s.callerStep = some s') : Inv pages s' := by
  unfold Inv at h
  unfold State.callerStep at hs
  split at hs
  all_goals
    rename_i hpc
    rw [hpc] at h
  · cases hs
  · cases hs
    exact ⟨h.computing, h.comparing, rfl, h.mem⟩
  · cases hs
    exact ⟨h.computing, ∅, .start h.comparing rfl h.mem⟩
  · cases hs
    exact ⟨h.comparing, ∅, .start h.computing h.mem.1 h.mem.2⟩
  · split at hs
    · cases hs
      exact InRound.broadcast h _
    · cases hs
      exact ⟨_, h⟩
  · obtain ⟨i, hi⟩ := h
    split at hs
    · cases hs
      exact hi.full ‹_›
    · cases hs
      rw [Inv, hpc]
      exact ⟨i, hi⟩
  · cases hs
    trivial

variable [DecidableEq η]

theorem Inv.step (h : Inv pages s) (hok : Orderly s e) (hs : (hashing η pages).step s e = some s') :
    Inv pages s' := by
  cases e with
  | computeHashList bmap =>
    obtain ⟨-, rfl⟩ := System.guarded_eq_some.mp hs
    exact ⟨hok.1, hok.2, rfl⟩
  | compareHashList =>
    obtain ⟨-, rfl⟩ := System.guarded_eq_some.mp hs
    exact ⟨hok.1, hok.2, fun _ => id, fun _ => .inl⟩
  | caller => exact h.callerStep hs
  | compute t a =>
    obtain ⟨⟨p', m'⟩, hr, rfl⟩ := map_eq_some_iff.mp hs
    refine Stage.compute h ?_ hr
    rintro rfl
    exact hok
  | compare t a =>
    obtain ⟨⟨q', m'⟩, hr, rfl⟩ := map_eq_some_iff.mp hs
    refine Stage.compare h ?_ hr
    rintro rfl
    exact hok
  | between computeHash remote =>
    obtain ⟨hidle, rfl⟩ := System.guarded_eq_some.mp hs
    exact h.keep (.inl hidle)

/-- In every orderly run a call returns only when all of its work is done. -/
theorem complete_of_returned (hs : s.caller = .idle) (h : (hashing η pages).Run Orderly s s')
    (hc : s'.caller = .returned c) : Complete pages s' c := by
  have hinv : Inv pages s' := by
    refine h.invariant (I := Inv pages) ?_ fun a e b ha hok => ha.step hok
    rw [Inv, hs]
    trivial
  rw [Inv, hc] at hinv
  rcases c with bmap | before
  · exact ⟨hinv.computing, hinv.mem⟩
  · exact ⟨hinv.comparing, hinv.mem⟩

end Calls

/-! ### A late worker -/

def CallerPc.hasComputed : CallerPc → Bool
  | .returned (.compute _) => true
  | _ => false

theorem CallerPc.exists_of_hasComputed {pc : CallerPc} (h : pc.hasComputed = true) :
    ∃ bmap, pc = .returned (.compute bmap) := by
  unfold CallerPc.hasComputed at h
  split at h
  · exact ⟨_, rfl⟩
  · cases h

/-- After `hash_init`, with one page of RAM. -/
def started : State ℕ where
  caller := .idle
  computing := ⟨fun _ => .top, 0⟩
  comparing := ⟨fun _ => .top, 0⟩
  mem := ⟨fun _ => 0, id, fun _ _ => 0, fun _ _ => 0, fun _ => 0, fun _ _ => 0, bitmapZero⟩

def signalled : List (Event ℕ) :=
  (finRange nthread).map (.compute · .wait) ++ .computeHashList (fun _ => 1) ::
    replicate (nthread + 3) .caller

/-- The steps of a worker from its signal to its report; it takes `turns` turns. -/
def served (turns : ℕ) (t : Fin nthread) : List (Event ℕ) :=
  .compute t .start :: replicate turns (.compute t .turn) ++ [.compute t .report]

theorem complete_of_served :
    ∃ s' bmap, (hashing ℕ 1).Run Orderly started s' ∧ s'.caller = .returned (.compute bmap) ∧
      Complete 1 s' (.compute bmap) := by
  obtain ⟨s', hrun, hret⟩ := System.exists_run_of_exec (M := hashing ℕ 1) (s := started) Orderly
    (p := fun s => s.caller.hasComputed = true)
    (signalled ++ (finRange nthread).flatMap
      (fun t => served (if t.val = 0 then 3 else 2) t) ++ [.caller]) (by decide +kernel)
  obtain ⟨bmap, hc⟩ := CallerPc.exists_of_hasComputed hret
  exact ⟨s', bmap, hrun, hc, complete_of_returned rfl hrun hc⟩

/-- The first worker has just started. The second one has been served twice, the second time
without a signal. -/
theorem late_not_complete : ∃ s' bmap, (hashing ℕ 1).Run System.anyStep started s' ∧
      s'.caller = .returned (.compute bmap) ∧ ¬ Complete 1 s' (.compute bmap) := by
  obtain ⟨s', hrun, hret, hbusy⟩ := System.exists_run_of_exec (M := hashing ℕ 1) (s := started)
    System.anyStep (p := fun s => s.caller.hasComputed = true ∧
      (s.computing.pc (0 : Fin 16)).isBusy = true)
    (signalled ++ (finRange nthread).tail.flatMap (served 2) ++
      [.compute (1 : Fin 16) .wait, .compute (1 : Fin 16) .spurious] ++ served 2 (1 : Fin 16) ++
      [.compute (0 : Fin 16) .start, .caller]) (by decide +kernel)
  obtain ⟨bmap, hc⟩ := CallerPc.exists_of_hasComputed hret
  refine ⟨s', bmap, hrun, hc, fun hno => ?_⟩
  exact absurd ((hno.1 _).symm.trans hbusy) Bool.false_ne_true

end VmFt.Ram.HashBarrier
