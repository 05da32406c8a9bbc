import VmFt.Lib.Majority
import VmFt.Lib.Transition
import VmFt.Dare.Config
import VmFt.Dare.WorkCompletion

/-! # Waiting for a majority of work completions

`wait_for_majority` polls batches of work completions until more than half of the servers
of the configuration have completed what was posted to them. Every completion of a batch
is handled under the status of the first one, and the first of two majorities is not
looked at again once its wait is over. So what a success means depends on the servers that
are credited with completions, which need not be those that completed.
-/

namespace VmFt.Dare.Waiting

open VmFt.System List Function

/-- `struct ibv_wc` as far as it is read. -/
structure Completion where
  wrId : ℕ
  status : WcStatus
  deriving DecidableEq, Repr

inductive RcResult | success | insuccess | error
  deriving DecidableEq, Repr

structure Call where
  cid : Cid
  /-- The sequence number of the round. -/
  ssn : ℕ
  connected : ℕ → Bool
  /-- The queue pairs are those for control data. -/
  ctrlQp : Bool
  /-- The array `posted_sends` as the caller passes it. -/
  posted : ℕ → ℤ

/-- The variables of a call, what it changes of the servers, and the batches polled in an earlier
and in the present wait. -/
structure State where
  turn : ℕ
  posted : ℕ → ℤ
  postedSendCount : ℕ
  successCount : ℕ
  failCount : ℕ → ℕ
  signaledWrId : ℕ → ℕ
  qpState : ℕ → RcQpState
  result : Option RcResult
  before : List (List Completion)
  during : List (List Completion)

variable (c : Call)

def turnSize (j : ℕ) : ℕ := if j = 0 then c.cid.size else c.cid.newSize

def countPosted : ℕ :=
  ((range (Config.getGroupSize c.cid)).map fun i => (c.posted i).toNat % 256).sum % 256

/-- The servers with nothing left to complete. -/
def countSuccess (posted : ℕ → ℤ) (size : ℕ) : ℕ :=
  (range size).countP (fun i => posted i = 0) % 256

def begin (failCount signaledWrId : ℕ → ℕ) (qpState : ℕ → RcQpState) : State :=
  ⟨0, c.posted, countPosted c, countSuccess c.posted c.cid.size, failCount, signaledWrId, qpState,
    none, [], []⟩

/-- Untag the signaled request if it has completed; otherwise the queue pair cannot be restarted. -/
def checkSignaled (s : State) (wrId : ℕ) : State × Bool :=
  let conn := wridGetConn wrId
  if s.signaledWrId conn = 0 then (s, true)
  else if wrId = s.signaledWrId conn then
    ({ s with
        signaledWrId := Function.update s.signaledWrId conn (wridUnsetTag wrId)
        qpState := if s.qpState conn = .blocked then Function.update s.qpState conn .error
          else s.qpState }, true)
  else (s, false)

def countDown (s : State) (wrId : ℕ) : State :=
  if wridGetSsn wrId = c.ssn then { s with postedSendCount := (s.postedSendCount + 255) % 256 }
  else s

/-- A send to `conn` that is taken for successful. -/
def takeOff (s : State) (conn : ℕ) : State :=
  let left := s.posted conn - 1
  { s with
    posted := Function.update s.posted conn left
    successCount := if left = 0 ∧ conn < turnSize c s.turn then (s.successCount + 1) % 256
      else s.successCount }

def handleSuccess (s : State) (wrId : ℕ) : State :=
  let s := { s with failCount := Function.update s.failCount (wridGetConn wrId) 0 }
  if wridGetSsn wrId < c.ssn then s else takeOff c s (wridGetConn wrId)

def handleFailure (canRestart : Bool) (s : State) (conn : ℕ) : State :=
  { s with
    qpState :=
      if canRestart then Function.update s.qpState conn .error
      else if s.qpState conn ≠ .error then Function.update s.qpState conn .blocked
      else s.qpState
    failCount := if c.ctrlQp then Function.update s.failCount conn (s.failCount conn + 1)
      else s.failCount }

/-- One completion, handled under the outcome `rc`. -/
def handleCompletion (rc : WcRc) (s : State) (wc : Completion) : State :=
  let (s, canRestart) := checkSignaled s wc.wrId
  let s := countDown c s wc.wrId
  if c.connected (wridGetConn wc.wrId) = false then s
  else
    match rc with
    | .success => handleSuccess c s wc.wrId
    | .failure => handleFailure c canRestart s (wridGetConn wc.wrId)
    | .softwareBug | .error => s

/-- The completions of a batch that are looked at: their number is kept in eight bits. -/
def polled (batch : List Completion) : List Completion := batch.take (batch.length % 256)

/-- The outcome under which all completions of a batch are handled. -/
def firstRc (batch : List Completion) : WcRc :=
  ((batch.head?).map fun wc => handleWorkCompletion wc.status).getD .error

def handleBatch (s : State) (batch : List Completion) : State :=
  { (polled batch).foldl (handleCompletion c (firstRc batch)) s with
    during := s.during ++ [batch] }

/-- The condition under which the call goes on polling. -/
def Waits (s : State) : Prop :=
  s.successCount ≤ turnSize c s.turn / 2 ∧ s.postedSendCount ≠ 0

instance (s : State) : Decidable (Waits c s) := inferInstanceAs (Decidable (_ ∧ _))

/-- Behind the wait of a turn: return, or go on with the second size. -/
def leave (s : State) : State :=
  if c.cid.state ≠ .stable ∧ s.turn = 0 then
    { s with
      turn := 1
      successCount := countSuccess s.posted c.cid.newSize
      before := s.during
      during := [] }
  else
    { s with
      result := some (if turnSize c s.turn / 2 < s.successCount then .success else .insuccess) }

inductive Event
  | poll (batch : List Completion)
  | pollFails
  | leave

def step (s : State) : Event → Option State
  | .poll batch =>
    guarded (s.result = none ∧ Waits c s ∧ ∀ wc ∈ batch, wridGetSsn wc.wrId ≤ c.ssn)
      (handleBatch c s batch)
  | .pollFails => guarded (s.result = none ∧ Waits c s) { s with result := some .error }
  | .leave => guarded (s.result = none ∧ ¬ Waits c s) (leave c s)

/-- `wait_for_majority` -/
def waitForMajority : System State Event := ⟨step c⟩

/-- The completion counts for a send of the round when it is handled under the outcome `rc`. -/
def Taken (rc : WcRc) (wc : Completion) : Prop :=
  rc = .success ∧ c.connected (wridGetConn wc.wrId) = true ∧ wridGetSsn wc.wrId = c.ssn

instance (rc : WcRc) : DecidablePred (Taken c rc) := fun _ => inferInstanceAs (Decidable (_ ∧ _))

/-- How often a batch counts for a send to server `k`. -/
def credit (batch : List Completion) (k : ℕ) : ℕ :=
  (polled batch).countP fun wc => Taken c (firstRc batch) wc ∧ wridGetConn wc.wrId = k

def credits (batches : List (List Completion)) (k : ℕ) : ℕ :=
  (batches.map fun batch => credit c batch k).sum

/-- The completions of the round that were successful at server `k`. -/
def successes (batches : List (List Completion)) (k : ℕ) : ℕ :=
  batches.flatten.countP fun wc =>
    wridGetConn wc.wrId = k && wridGetSsn wc.wrId = c.ssn && wc.status == .success

/-- In the last wait server `k` is found with nothing left: no more was credited to it before than
was posted, and by now all of it is. -/
def Credited (s : State) (k : ℕ) : Prop :=
  credits c s.before k ≤ c.posted k ∧ c.posted k ≤ credits c (s.before ++ s.during) k

/-- Nothing was posted to server `k`, or all of it has completed with success. -/
def Completed (s : State) (k : ℕ) : Prop :=
  0 ≤ c.posted k ∧ c.posted k ≤ successes c (s.before ++ s.during) k

instance (s : State) : DecidablePred (Credited c s) :=
  fun _ => inferInstanceAs (Decidable (_ ∧ _))

instance (s : State) : DecidablePred (Completed c s) :=
  fun _ => inferInstanceAs (Decidable (_ ∧ _))

def lastSize : ℕ := if c.cid.state = .stable then c.cid.size else c.cid.newSize

/-- If more than half of the servers of the last size are credited with all that was posted to them,
then of the first size, and outside of a stable configuration of the second, fewer than half have a
send that has not completed with success. -/
def Attributed (s : State) : Prop :=
  lastSize c / 2 < (range (lastSize c)).countP (Credited c s ·) →
    (range c.cid.size).countP (¬ Completed c s ·) < (c.cid.size + 1) / 2 ∧
      (c.cid.state ≠ .stable →
        (range c.cid.newSize).countP (¬ Completed c s ·) < (c.cid.newSize + 1) / 2)

instance (s : State) : Decidable (Attributed c s) := by unfold Attributed; infer_instance

variable {c} {s t : State}

/-! ### What a completion is counted for -/

/-- The array is what was posted less what `taken` counts, and the servers counted are those that
got to zero from at least `base`. -/
structure Counted (c : Call) (base taken : ℕ → ℕ) (s : State) : Prop where
  posted : ∀ k, s.posted k = c.posted k - taken k
  base_le : ∀ k, base k ≤ taken k
  count : s.successCount =
    (range (turnSize c s.turn)).countP fun k => base k ≤ c.posted k ∧ c.posted k ≤ taken k

theorem countP_range_succ {n a : ℕ} {p q : ℕ → Bool} (ha : a < n) (hp : p a = false)
    (hq : q a = true) (hne : ∀ k, k ≠ a → p k = q k) :
    (range n).countP q = (range n).countP p + 1 := by
  obtain ⟨l₁, l₂, heq⟩ := append_of_mem (mem_range.mpr ha)
  have hnd : (l₁ ++ a :: l₂).Nodup := heq ▸ nodup_range
  have hno := nodup_middle.mp hnd
  rw [nodup_cons, mem_append, not_or] at hno
  have hfirst : l₁.countP q = l₁.countP p := countP_congr fun k hk => by
    rw [hne k fun h => hno.1.1 (h ▸ hk)]
  have hlast : l₂.countP q = l₂.countP p := countP_congr fun k hk => by
    rw [hne k fun h => hno.1.2 (h ▸ hk)]
  rw [heq, countP_append, countP_append, countP_cons, countP_cons, hp, hq, hfirst, hlast]
  simp only [Bool.false_eq_true, if_true, if_false]
  omega

/-- What a completion does to the variables that are counted unless it is taken. -/
structure Untouched (s t : State) : Prop where
  posted : t.posted = s.posted
  count : t.successCount = s.successCount
  turn : t.turn = s.turn
  result : t.result = s.result
  before : t.before = s.before

theorem Untouched.trans {u : State} (h : Untouched s t) (h' : Untouched t u) : Untouched s u :=
  ⟨h'.posted.trans h.posted, h'.count.trans h.count, h'.turn.trans h.turn,
    h'.result.trans h.result, h'.before.trans h.before⟩

theorem untouched_checkSignaled (s : State) (wrId : ℕ) : Untouched s (checkSignaled s wrId).1 := by
  unfold checkSignaled
  dsimp only
  split_ifs <;> exact ⟨rfl, rfl, rfl, rfl, rfl⟩

theorem untouched_countDown (c : Call) (s : State) (wrId : ℕ) :
    Untouched s (countDown c s wrId) := by
  unfold countDown
  split_ifs <;> exact ⟨rfl, rfl, rfl, rfl, rfl⟩

theorem handleCompletion_cases (rc : WcRc) (s : State) {wc : Completion}
    (hssn : wridGetSsn wc.wrId ≤ c.ssn) :
    ¬ Taken c rc wc ∧ Untouched s (handleCompletion c rc s wc) ∨
      Taken c rc wc ∧
        ∃ t, Untouched s t ∧ handleCompletion c rc s wc = takeOff c t (wridGetConn wc.wrId) := by
  have hc := (untouched_checkSignaled s wc.wrId).trans
    (untouched_countDown c (checkSignaled s wc.wrId).1 wc.wrId)
  unfold handleCompletion
  dsimp only
  split_ifs with hco
  · exact .inl ⟨fun h => absurd (hco.symm.trans h.2.1) nofun, hc⟩
  · cases rc with
    | success =>
      dsimp only [handleSuccess]
      split_ifs with hs
      · exact .inl ⟨fun h => hs.ne h.2.2, hc.trans ⟨rfl, rfl, rfl, rfl, rfl⟩⟩
      · refine .inr ⟨⟨rfl, by simpa using hco, by omega⟩, _, ?_, rfl⟩
        exact hc.trans ⟨rfl, rfl, rfl, rfl, rfl⟩
    | failure => exact .inl ⟨fun h => (by cases h.1), hc.trans ⟨rfl, rfl, rfl, rfl, rfl⟩⟩
    | softwareBug => exact .inl ⟨fun h => (by cases h.1), hc⟩
    | error => exact .inl ⟨fun h => (by cases h.1), hc⟩

namespace Counted

variable {base taken : ℕ → ℕ} {rc : WcRc}

theorem congr (h : Counted c base taken s) (hp : t.posted = s.posted)
    (hc : t.successCount = s.successCount) (ht : t.turn = s.turn) : Counted c base taken t := by
  obtain ⟨h₁, h₂, h₃⟩ := h
  rw [← hp] at h₁
  rw [← hc, ← ht] at h₃
  exact ⟨h₁, h₂, h₃⟩

theorem takeOff (h : Counted c base taken s) (hn : turnSize c s.turn < 256) (conn : ℕ) :
    Counted c base (fun k => taken k + if conn = k then 1 else 0) (Waiting.takeOff c s conn) := by
  have hb := h.base_le conn
  have hpo := h.posted conn
  have hle : s.successCount ≤ turnSize c s.turn := by
    rw [h.count]
    exact countP_le_length.trans_eq length_range
  refine ⟨fun k => ?_, fun k => (h.base_le k).trans (Nat.le_add_right _ _), ?_⟩
  · unfold Waiting.takeOff
    by_cases hk : conn = k
    · subst hk
      simp only [update_self, if_true]
      push_cast
      omega
    · simpa only [update_of_ne (Ne.symm hk), if_neg hk, Nat.add_zero] using h.posted k
  · unfold Waiting.takeOff
    dsimp only
    split_ifs with hz
    · -- Server `conn` is the one that gets to zero.
      have hnew := countP_range_succ (n := turnSize c s.turn) (a := conn)
        (p := fun k => decide (base k ≤ c.posted k ∧ c.posted k ≤ taken k))
        (q := fun k => decide (base k ≤ c.posted k ∧
          c.posted k ≤ (taken k + if conn = k then 1 else 0 : ℕ))) hz.2
        (decide_eq_false (by omega)) (decide_eq_true (by rw [if_pos rfl]; omega))
        fun k hk => by rw [if_neg (Ne.symm hk), Nat.add_zero]
      rw [← h.count] at hnew
      have hlen := countP_le_length (l := range (turnSize c s.turn))
        (p := fun k => decide (base k ≤ c.posted k ∧
          c.posted k ≤ (taken k + if conn = k then 1 else 0 : ℕ)))
      rw [length_range] at hlen
      rw [hnew, Nat.mod_eq_of_lt (by omega)]
    · rw [h.count]
      refine countP_congr fun k hk => ?_
      rw [decide_eq_true_eq, decide_eq_true_eq]
      by_cases hkc : conn = k
      · subst hkc
        have := mem_range.mp hk
        rw [if_pos rfl]
        omega
      · rw [if_neg hkc, Nat.add_zero]

theorem foldl {wcs : List Completion} (h : Counted c base taken s) (hn : turnSize c s.turn < 256)
    (hssn : ∀ wc ∈ wcs, wridGetSsn wc.wrId ≤ c.ssn) :
    Counted c base
      (fun k => taken k + wcs.countP fun wc => Taken c rc wc ∧ wridGetConn wc.wrId = k)
      (wcs.foldl (handleCompletion c rc) s) := by
  induction wcs generalizing s taken with
  | nil => exact h
  | cons wc wcs ih =>
    have hrest := fun wc' hmem => hssn wc' (mem_cons_of_mem wc hmem)
    simp only [foldl_cons, countP_cons]
    rcases handleCompletion_cases rc s (hssn wc mem_cons_self) with ⟨hno, hs⟩ | ⟨htk, u, hs, heq⟩
    · simpa [hno] using ih (h.congr hs.posted hs.count hs.turn) (hs.turn ▸ hn) hrest
    · have hu := (h.congr hs.posted hs.count hs.turn).takeOff (hs.turn ▸ hn) (wridGetConn wc.wrId)
      rw [← heq] at hu
      have hf := ih hu (by rw [heq]; exact hs.turn ▸ hn) hrest
      simp only [htk, true_and, decide_eq_true_eq]
      simpa only [Nat.add_assoc, Nat.add_comm] using hf

end Counted

theorem untouched_foldl {rc : WcRc} {wcs : List Completion}
    (hssn : ∀ wc ∈ wcs, wridGetSsn wc.wrId ≤ c.ssn) :
    (wcs.foldl (handleCompletion c rc) s).turn = s.turn ∧
      (wcs.foldl (handleCompletion c rc) s).result = s.result ∧
      (wcs.foldl (handleCompletion c rc) s).before = s.before := by
  induction wcs generalizing s with
  | nil => exact ⟨rfl, rfl, rfl⟩
  | cons wc wcs ih =>
    obtain ⟨ht, hr, hb⟩ := ih (s := handleCompletion c rc s wc)
      fun wc' hmem => hssn wc' (mem_cons_of_mem wc hmem)
    rw [foldl_cons, ht, hr, hb]
    rcases handleCompletion_cases rc s (hssn wc mem_cons_self) with ⟨-, hs⟩ | ⟨-, t, hs, heq⟩
    · exact ⟨hs.turn, hs.result, hs.before⟩
    · rw [heq]
      exact ⟨hs.turn, hs.result, hs.before⟩

/-! ### A success is a majority of credited servers -/

structure Exact (c : Call) (s : State) : Prop where
  counted : Counted c (credits c s.before) (credits c (s.before ++ s.during)) s
  turn : s.turn = 0 ∧ s.before = [] ∨ s.turn = 1 ∧ c.cid.state ≠ .stable
  result : ∀ r, s.result = some r → r = .error ∨ turnSize c s.turn = lastSize c ∧
    (r = .success ↔ turnSize c s.turn / 2 < s.successCount)

theorem credits_append (bs bs' : List (List Completion)) (k : ℕ) :
    credits c (bs ++ bs') k = credits c bs k + credits c bs' k := by
  rw [credits, map_append, sum_append]
  rfl

theorem countSuccess_eq {posted : ℕ → ℤ} {taken : ℕ → ℕ} {size : ℕ} (hs : size < 256)
    (hp : ∀ k, posted k = c.posted k - taken k) : countSuccess posted size =
      (range size).countP fun k => taken k ≤ c.posted k ∧ c.posted k ≤ taken k := by
  have hle := countP_le_length (l := range size) (p := fun k => decide (posted k = 0))
  rw [length_range] at hle
  rw [countSuccess, Nat.mod_eq_of_lt (by omega)]
  refine countP_congr fun k _ => ?_
  rw [decide_eq_true_eq, decide_eq_true_eq, hp k]
  omega

theorem turnSize_lt (hsi : c.cid.size < 256) (hnew : c.cid.newSize < 256) (j : ℕ) :
    turnSize c j < 256 := by
  unfold turnSize
  split_ifs <;> assumption

theorem Exact.poll {batch : List Completion} (h : Exact c s) (hn : turnSize c s.turn < 256)
    (ho : s.result = none) (hssn : ∀ wc ∈ batch, wridGetSsn wc.wrId ≤ c.ssn) :
    Exact c (handleBatch c s batch) := by
  have hp : ∀ wc ∈ polled batch, wridGetSsn wc.wrId ≤ c.ssn :=
    fun wc hwc => hssn wc (mem_of_mem_take hwc)
  obtain ⟨ht, hr, hb⟩ : (handleBatch c s batch).turn = s.turn ∧
      (handleBatch c s batch).result = s.result ∧ (handleBatch c s batch).before = s.before :=
    untouched_foldl hp
  have hd : (handleBatch c s batch).during = s.during ++ [batch] := rfl
  refine ⟨?_, ?_, fun r hsome => ?_⟩
  · have hf := @Counted.foldl c _ _ _ (firstRc batch) _ h.counted hn hp
    have hc : credits c (s.before ++ (s.during ++ [batch])) =
        fun k => credits c (s.before ++ s.during) k + credit c batch k := by
      funext k
      rw [← append_assoc, credits_append]
      simp [credits]
    rw [hb, hd, hc]
    exact hf.congr rfl rfl rfl
  · rw [ht, hb]
    exact h.turn
  · rw [hr, ho] at hsome
    cases hsome

theorem Exact.leave (h : Exact c s) (hnew : c.cid.newSize < 256) (ho : s.result = none) :
    Exact c (Waiting.leave c s) := by
  unfold Waiting.leave
  by_cases hmo : c.cid.state ≠ .stable ∧ s.turn = 0
  · rw [if_pos hmo]
    -- The second wait begins with the servers that have exactly nothing left.
    have hb : s.before = [] := by
      rcases h.turn with ⟨-, hb⟩ | ⟨ht, -⟩
      · exact hb
      · omega
    have hp := h.counted.posted
    rw [hb, nil_append] at hp
    refine ⟨⟨?_, fun k => ?_, ?_⟩, .inr ⟨rfl, hmo.1⟩, fun r hr => ?_⟩
    · simpa only [append_nil] using hp
    · rw [append_nil]
    · simp only [append_nil]
      exact countSuccess_eq hnew hp
    · rw [ho] at hr
      cases hr
  · rw [if_neg hmo]
    refine ⟨h.counted.congr rfl rfl rfl, h.turn, fun r hr => .inr ⟨?_, ?_⟩⟩
    · rcases h.turn with ⟨ht, -⟩ | ⟨ht, hs⟩
      · have hs : c.cid.state = .stable := not_not.mp fun hs => hmo ⟨hs, ht⟩
        simp [turnSize, lastSize, ht, hs]
      · simp [turnSize, lastSize, ht, hs]
    · dsimp only at hr ⊢
      split_ifs at hr with hma <;> cases hr <;> simp [hma]

theorem Exact.step {e : Event} (h : Exact c s) (hsi : c.cid.size < 256)
    (hnew : c.cid.newSize < 256) (hs : (waitForMajority c).step s e = some t) : Exact c t := by
  cases e with
  | poll batch =>
    obtain ⟨⟨ho, -, hssn⟩, rfl⟩ := guarded_eq_some.mp hs
    exact h.poll (turnSize_lt hsi hnew _) ho hssn
  | pollFails =>
    obtain ⟨-, rfl⟩ := guarded_eq_some.mp hs
    refine ⟨h.counted.congr rfl rfl rfl, h.turn, fun r hr => .inl ?_⟩
    cases hr
    rfl
  | leave =>
    obtain ⟨⟨ho, -⟩, rfl⟩ := guarded_eq_some.mp hs
    exact h.leave hnew ho

theorem exact_begin (hsi : c.cid.size < 256) (failCount signaledWrId : ℕ → ℕ)
    (qpState : ℕ → RcQpState) : Exact c (begin c failCount signaledWrId qpState) where
  counted := ⟨fun k => by simp [begin, credits], fun _ => le_rfl,
    countSuccess_eq hsi fun k => by simp [begin, credits]⟩
  turn := .inl ⟨rfl, rfl⟩
  result := nofun

theorem majority_completed_iff (s : State) (n : ℕ) : Majority n (Completed c s) ↔
    (range n).countP (¬ Completed c s ·) < (n + 1) / 2 := by
  have hs := length_eq_countP_add_countP (l := range n) fun k => decide (Completed c s k)
  simp only [length_range, decide_eq_true_eq] at hs
  rw [Majority.iff_countP]
  omega

/-- The work request with a given connection and sequence number. -/
def wrId (conn ssn : ℕ) : ℕ := conn + ssn * 1024

def threeServers : Call := ⟨⟨0, 3, 0, .stable, 7⟩, 7, fun k => k ≠ 0, true,
  fun k => if k = 0 then 0 else 1⟩

/-- On the way from three servers to five, requests to servers 1 and 2 are outstanding. -/
def threeToFive : Call := ⟨⟨0, 3, 5, .transit, 31⟩, 7, fun k => k ≠ 0, true,
  fun k => if k = 1 ∨ k = 2 then 1 else 0⟩

def beginQuiet (c : Call) : State := begin c (fun _ => 0) (fun _ => 0) fun _ => .active

end VmFt.Dare.Waiting
