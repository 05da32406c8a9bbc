import VmFt.Dare.Pipeline
import VmFt.Dare.WaitMajority

/-! # The flow control of a send queue

A queue pair takes work requests of which most are unsignaled. After a quarter of
the queue `post_send` signals one request itself and remembers it, and it waits
for that request when three quarters more have been posted. A completion that is
seen frees the request and those posted before it. Other queue pairs share the
completion queue, so completions are seen at any time.
-/

namespace VmFt.Dare.SendQueue

open VmFt.System List

/-- The identifier that is the number 0. -/
def zero : WrId := ⟨0, 0, false, false⟩

structure WorkRequest where
  id : WrId
  signaled : Bool
  deriving DecidableEq

/-- `rc_qp_t` with the requests that are posted and not freed, and whether `post_send` waits in
`empty_completion_queue`. -/
structure QueuePair where
  signaledWrId : WrId
  sendCount : ℕ
  state : RcQpState
  queue : List WorkRequest
  waiting : Bool

/-- `rc_qp_restart` -/
def restart : QueuePair := ⟨zero, 0, .active, [], false⟩

/-- What `post_send` goes on to remember: nothing once the signaled request was found. -/
def remembered (id : WrId) : WrId := if id ≠ zero ∧ id.tag = false then zero else id

/-- `post_send` of a queue pair that has not to be restarted. -/
def post (max conn ssn : ℕ) (wa signaled : Bool) (qp : QueuePair) : QueuePair :=
  let count := (qp.sendCount + 1) % 2 ^ 32
  let id : WrId := ⟨ssn, conn, wa, false⟩
  if count = max / 4 ∧ remembered qp.signaledWrId = zero then
    { qp with
      signaledWrId := { id with tag := true }
      sendCount := 0
      queue := qp.queue ++ [⟨{ id with tag := true }, true⟩] }
  else
    { qp with
      signaledWrId := remembered qp.signaledWrId
      sendCount := count
      queue := qp.queue ++ [⟨id, signaled⟩]
      waiting := decide (count = 3 * max % 2 ^ 32 / 4 ∧ remembered qp.signaledWrId ≠ zero) }

def postSend (max conn ssn : ℕ) (wa signaled : Bool) (qp : QueuePair) : QueuePair :=
  post max conn ssn wa signaled (if qp.state = .error then restart else qp)

def foundSignaled (qp : QueuePair) : QueuePair :=
  { qp with
    signaledWrId := qp.signaledWrId.unsetTag
    state := if qp.state = .blocked then .error else qp.state
    waiting := false }

/-- The part of `empty_completion_queue` that handles one completion. -/
def handleCompletion (id : WrId) (rc : WcRc) (qp : QueuePair) : QueuePair :=
  let canRestart := qp.signaledWrId = zero ∨ id = qp.signaledWrId
  let qp := if qp.signaledWrId ≠ zero ∧ id = qp.signaledWrId then foundSignaled qp else qp
  if rc = .failure then
    { qp with
      state := if canRestart then .error else if qp.state ≠ .error then .blocked else qp.state }
  else qp

inductive Event
  | post (ssn : ℕ) (wa signaled : Bool)
  /-- The completion of request `k` of the queue is seen. -/
  | seen (k : ℕ) (rc : WcRc)

/-- A blocked queue pair waits for the signaled request before it posts. Completions are in order,
and a request that is not signaled has one only when it fails. -/
def queueStep (max conn : ℕ) (qp : QueuePair) : Event → Option QueuePair
  | .post ssn wa signaled =>
    guarded (qp.waiting = false ∧ qp.state ≠ .blocked) (postSend max conn ssn wa signaled qp)
  | .seen k rc =>
    match qp.queue[k]? with
    | none => none
    | some wr =>
      guarded ((∀ w ∈ qp.queue.take k, w.signaled = false) ∧ (rc = .success → wr.signaled = true))
        (handleCompletion wr.id rc { qp with queue := qp.queue.drop (k + 1) })

def sendQueue (max conn : ℕ) : System QueuePair Event := ⟨queueStep max conn⟩

/-- When a quarter of the queue has been posted, the signaled request was found. -/
def foundInTime (max : ℕ) (qp : QueuePair) : Event → Prop
  | .post _ _ _ => qp.sendCount + 1 = max / 4 → qp.signaledWrId.tag = false
  | .seen _ _ => True

instance (max : ℕ) (qp : QueuePair) (e : Event) : Decidable (foundInTime max qp e) := by
  rcases e <;> unfold foundInTime <;> infer_instance

/-! ### What a quarter holds -/

def Untagged (l : List WorkRequest) : Prop := ∀ wr ∈ l, wr.id.tag = false

/-- A quarter `n` of the queue. Up to the signaled request at most `n` requests are in the queue,
behind it at most as many as are counted. -/
def Bounded (n : ℕ) (signaledWrId : WrId) (sendCount : ℕ) (queue : List WorkRequest) : Prop :=
  sendCount < n ∧
    if signaledWrId.tag then
      ∃ before behind, queue = before ++ ⟨signaledWrId, true⟩ :: behind ∧ before.length < n ∧
        behind.length ≤ sendCount ∧ Untagged before ∧ Untagged behind
    else queue.length ≤ sendCount ∧ Untagged queue

structure Inv (max : ℕ) (qp : QueuePair) : Prop where
  bounded : Bounded (max / 4) qp.signaledWrId qp.sendCount qp.queue
  error : qp.state = .error → qp.signaledWrId.tag = false

variable {max conn : ℕ} {qp : QueuePair}

theorem Bounded.length_le {n sendCount : ℕ} {id : WrId} {queue : List WorkRequest}
    (h : Bounded n id sendCount queue) : queue.length ≤ 2 * n := by
  obtain ⟨hlt, h⟩ := h
  split_ifs at h
  · obtain ⟨before, behind, rfl, hb, hbe, -, -⟩ := h
    simp only [length_append, length_cons]
    omega
  · omega

theorem untagged_append {l l' : List WorkRequest} :
    Untagged (l ++ l') ↔ Untagged l ∧ Untagged l' :=
  forall_mem_append

/-! ### One post -/

theorem remembered_of_tag {id : WrId} (h : id.tag = true) : remembered id = id := by
  simp [remembered, h]

theorem remembered_of_found {id : WrId} (h : id.tag = false) : remembered id = zero := by
  by_cases hz : id = zero <;> simp [remembered, h, hz]

theorem ne_zero_of_tag {id : WrId} (h : id.tag = true) : id ≠ zero := by
  rintro rfl
  cases h

theorem post_tagged {ssn : ℕ} {wa signaled : Bool} (hc : qp.sendCount + 1 < 2 ^ 32)
    (htag : qp.signaledWrId.tag = true) :
    post max conn ssn wa signaled qp =
      { qp with
        sendCount := qp.sendCount + 1
        queue := qp.queue ++ [⟨⟨ssn, conn, wa, false⟩, signaled⟩]
        waiting := decide (qp.sendCount + 1 = 3 * max % 2 ^ 32 / 4) } := by
  have hne := ne_zero_of_tag htag
  unfold post
  rw [remembered_of_tag htag, Nat.mod_eq_of_lt hc]
  simp [hne]

theorem post_untagged {ssn : ℕ} {wa signaled : Bool} (hc : qp.sendCount + 1 < 2 ^ 32)
    (htag : qp.signaledWrId.tag = false) :
    post max conn ssn wa signaled qp =
      if qp.sendCount + 1 = max / 4 then
        { qp with
          signaledWrId := ⟨ssn, conn, wa, true⟩
          sendCount := 0
          queue := qp.queue ++ [⟨⟨ssn, conn, wa, true⟩, true⟩] }
      else
        { qp with
          signaledWrId := zero
          sendCount := qp.sendCount + 1
          queue := qp.queue ++ [⟨⟨ssn, conn, wa, false⟩, signaled⟩]
          waiting := false } := by
  unfold post
  rw [remembered_of_found htag, Nat.mod_eq_of_lt hc]
  simp

theorem inv_restart (hmax : 4 ≤ max) : Inv max restart := by
  refine ⟨⟨?_, ?_⟩, fun h => by cases h⟩
  · change 0 < max / 4
    omega
  · simp [restart, zero, Untagged]

theorem Inv.post {ssn : ℕ} {wa signaled : Bool} (hmax : max < 2 ^ 32) (h : Inv max qp)
    (hf : qp.sendCount + 1 = max / 4 → qp.signaledWrId.tag = false)
    (ha : qp.state ≠ .error) : Inv max (post max conn ssn wa signaled qp) := by
  obtain ⟨hlt, hqueue⟩ := h.bounded
  have hc : qp.sendCount + 1 < 2 ^ 32 := by omega
  by_cases htag : qp.signaledWrId.tag = true
  · rw [post_tagged hc htag]
    refine ⟨⟨?_, ?_⟩, fun he => absurd he ha⟩
    · have hne : qp.sendCount + 1 ≠ max / 4 := fun heq => by simp [hf heq] at htag
      dsimp only
      omega
    · rw [if_pos htag] at hqueue ⊢
      obtain ⟨before, behind, hs, hbe, hbh, hb, hb'⟩ := hqueue
      refine ⟨before, behind ++ [⟨⟨ssn, conn, wa, false⟩, signaled⟩], by simp [hs], hbe,
        by simpa using hbh, hb, untagged_append.mpr ⟨hb', by simp [Untagged]⟩⟩
  · rw [if_neg htag] at hqueue
    rw [Bool.not_eq_true] at htag
    rw [post_untagged hc htag]
    split_ifs with hq
    · refine ⟨⟨?_, ?_⟩, fun he => absurd he ha⟩
      · dsimp only
        omega
      · exact ⟨qp.queue, [], rfl, by omega, Nat.zero_le _, hqueue.2, by simp [Untagged]⟩
    · refine ⟨⟨?_, ?_⟩, fun he => absurd he ha⟩
      · dsimp only
        omega
      · exact ⟨by simpa using hqueue.1, untagged_append.mpr ⟨hqueue.2, by simp [Untagged]⟩⟩

theorem Inv.postSend {ssn : ℕ} {wa signaled : Bool} (hmin : 4 ≤ max) (hmax : max < 2 ^ 32)
    (h : Inv max qp)
    (hf : qp.sendCount + 1 = max / 4 → qp.signaledWrId.tag = false) :
    Inv max (postSend max conn ssn wa signaled qp) := by
  unfold SendQueue.postSend
  split_ifs with he
  · exact (inv_restart hmin).post hmax (fun _ => rfl) (by decide)
  · exact h.post hmax hf he

/-! ### One completion -/

section

variable (id : WrId) (rc : WcRc)

theorem handleCompletion_queue (qp : QueuePair) :
    (handleCompletion id rc qp).queue = qp.queue := by
  unfold handleCompletion foundSignaled
  dsimp only
  split_ifs <;> rfl

theorem handleCompletion_sendCount (qp : QueuePair) :
    (handleCompletion id rc qp).sendCount = qp.sendCount := by
  unfold handleCompletion foundSignaled
  dsimp only
  split_ifs <;> rfl

theorem handleCompletion_signaledWrId (qp : QueuePair) :
    (handleCompletion id rc qp).signaledWrId =
      if id = qp.signaledWrId then qp.signaledWrId.unsetTag else qp.signaledWrId := by
  have hz : zero.unsetTag = zero := rfl
  unfold handleCompletion foundSignaled
  dsimp only
  split_ifs <;> simp_all

theorem handleCompletion_error (qp : QueuePair)
    (h : qp.state = .error → qp.signaledWrId.tag = false)
    (he : (handleCompletion id rc qp).state = .error) :
    (handleCompletion id rc qp).signaledWrId.tag = false := by
  rw [handleCompletion_signaledWrId]
  split_ifs with heq
  · rfl
  · by_cases hz : qp.signaledWrId = zero
    · rw [hz]
      rfl
    · apply h
      unfold handleCompletion at he
      simp only [hz, heq, ne_eq, not_false_eq_true, and_false, if_false, or_self] at he
      split_ifs at he <;> simp_all

end

theorem Inv.seen {k : ℕ} {wr : WorkRequest} {rc : WcRc} (h : Inv max qp)
    (hk : qp.queue[k]? = some wr) (ho : ∀ w ∈ qp.queue.take k, w.signaled = false) :
    Inv max (handleCompletion wr.id rc { qp with queue := qp.queue.drop (k + 1) }) := by
  obtain ⟨hlt, hqueue⟩ := h.bounded
  refine ⟨⟨by rwa [handleCompletion_sendCount], ?_⟩, handleCompletion_error wr.id rc _ h.error⟩
  rw [handleCompletion_sendCount, handleCompletion_queue, handleCompletion_signaledWrId]
  dsimp only
  by_cases htag : qp.signaledWrId.tag = true
  · rw [if_pos htag] at hqueue
    obtain ⟨before, behind, hs, hbf, hbe, hb, hb'⟩ := hqueue
    rw [hs] at hk ho ⊢
    -- completions are in order, so none behind the signaled request is seen before it
    have hle : k ≤ before.length := by
      by_contra hgt
      have hmem : (⟨qp.signaledWrId, true⟩ : WorkRequest) ∈
          (before ++ ⟨qp.signaledWrId, true⟩ :: behind).take k := by
        rw [take_append, mem_append]
        right
        rw [show k - before.length = (k - before.length - 1) + 1 by omega, take_succ_cons]
        exact mem_cons_self
      cases ho _ hmem
    rcases Nat.lt_or_eq_of_le hle with hlt' | rfl
    · rw [List.getElem?_append_left hlt'] at hk
      have hne : wr.id ≠ qp.signaledWrId := fun heq => by
        have := hb wr (mem_of_getElem? hk)
        simp [heq, htag] at this
      rw [if_neg hne, if_pos htag]
      refine ⟨before.drop (k + 1), behind, ?_, ?_, hbe,
        fun w hw => hb w (mem_of_mem_drop hw), hb'⟩
      · exact drop_append_of_le_length hlt'
      · rw [length_drop]
        omega
    · have hwr : wr = ⟨qp.signaledWrId, true⟩ := by simpa using hk.symm
      rw [hwr, if_pos rfl, if_neg (by simp [WrId.unsetTag])]
      have hd : (before ++ ⟨qp.signaledWrId, true⟩ :: behind).drop (before.length + 1) =
          behind := by simp
      rw [hd]
      exact ⟨hbe, hb'⟩
  · rw [if_neg htag] at hqueue
    have htag' : (if wr.id = qp.signaledWrId then qp.signaledWrId.unsetTag
        else qp.signaledWrId).tag ≠ true := by
      split_ifs
      · simp [WrId.unsetTag]
      · exact htag
    rw [if_neg htag']
    refine ⟨?_, fun w hw => hqueue.2 w (mem_of_mem_drop hw)⟩
    rw [length_drop]
    omega

/-! ### The same completion in `wait_for_majority` -/

section Waiting

variable {c : Waiting.Call} {s : Waiting.State} {id : WrId}

/-- The queue pair is the one of the connection `conn` in the state of `wait_for_majority`. -/
structure Seen (conn : ℕ) (s : Waiting.State) (qp : QueuePair) : Prop where
  signaled : s.signaledWrId conn = qp.signaledWrId.word
  state : s.qpState conn = qp.state

theorem Seen.checkSignaled (h : Seen id.conn s qp) (hid : id.conn < 256)
    (hconn : qp.signaledWrId.conn < 256) :
    Seen id.conn (Waiting.checkSignaled s id.word).1
        (if qp.signaledWrId ≠ zero ∧ id = qp.signaledWrId then foundSignaled qp else qp) ∧
      (Waiting.checkSignaled s id.word).2 =
        decide (qp.signaledWrId = zero ∨ id = qp.signaledWrId) := by
  have hz : qp.signaledWrId.word = 0 ↔ qp.signaledWrId = zero :=
    @WrId.word_inj _ zero hconn (by decide)
  unfold Waiting.checkSignaled
  simp only [WrId.wridGetConn_word hid, h.signaled, hz, WrId.word_inj hid hconn]
  by_cases h0 : qp.signaledWrId = zero
  · simp [h0, h]
  · by_cases heq : id = qp.signaledWrId
    · subst heq
      simp only [h0, if_false, if_true, ne_eq, not_false_eq_true, and_self, or_true, decide_true,
        and_true]
      refine ⟨?_, ?_⟩
      · exact (Function.update_self ..).trans (WrId.wridUnsetTag_word hid)
      · dsimp only [foundSignaled]
        rw [← h.state]
        split_ifs with hb
        · rw [Function.update_self]
        · rfl
    · simp [h0, heq, h]

theorem Seen.countDown {conn : ℕ} (h : Seen conn s qp) (c : Waiting.Call) (wrId : ℕ) :
    Seen conn (Waiting.countDown c s wrId) qp := by
  unfold Waiting.countDown
  split_ifs
  exacts [⟨h.signaled, h.state⟩, h]

/-- Both pollers treat the queue pair of a completion alike. -/
theorem Seen.handleCompletion (h : Seen id.conn s qp) (hid : id.conn < 256)
    (hconn : qp.signaledWrId.conn < 256) (hco : c.connected id.conn = true) (rc : WcRc)
    (status : WcStatus) :
    Seen id.conn (Waiting.handleCompletion c rc s ⟨id.word, status⟩)
      (handleCompletion id rc qp) := by
  obtain ⟨hseen, hcan⟩ := h.checkSignaled hid hconn
  have hdown := hseen.countDown c id.word
  unfold Waiting.handleCompletion SendQueue.handleCompletion
  dsimp only
  rw [WrId.wridGetConn_word hid, hco, if_neg (by decide), hcan]
  generalize Waiting.countDown c (Waiting.checkSignaled s id.word).1 id.word = s' at hdown ⊢
  generalize (if qp.signaledWrId ≠ zero ∧ id = qp.signaledWrId then _ else _) = qp' at hdown ⊢
  cases rc with
  | success =>
    rw [if_neg (by decide : WcRc.success ≠ .failure)]
    dsimp only [Waiting.handleSuccess, Waiting.takeOff]
    split_ifs <;> exact ⟨hdown.signaled, hdown.state⟩
  | failure =>
    refine ⟨hdown.signaled, ?_⟩
    simp only [Waiting.handleFailure, decide_eq_true_eq, if_true, hdown.state]
    split_ifs <;> first | exact Function.update_self .. | exact hdown.state
  | softwareBug | error => exact hdown

end Waiting

/-! ### Runs -/

theorem Inv.step {t : QueuePair} {e : Event} (hmin : 4 ≤ max) (hmax : max < 2 ^ 32)
    (h : Inv max qp) (hf : foundInTime max qp e) (hs : queueStep max conn qp e = some t) :
    Inv max t := by
  cases e with
  | post ssn wa signaled =>
    obtain ⟨-, rfl⟩ := guarded_eq_some.mp hs
    exact h.postSend hmin hmax hf
  | seen k rc =>
    cases hk : qp.queue[k]? with
    | none => simp [queueStep, hk] at hs
    | some wr =>
      simp only [queueStep, hk] at hs
      obtain ⟨⟨ho, -⟩, rfl⟩ := guarded_eq_some.mp hs
      exact h.seen hk ho

/-- The queue does not overflow as long as each signaled request is found before the next one is
due. -/
theorem queue_length_le {t : QueuePair} (hpos : 0 < max) (hdvd : 4 ∣ max) (hmax : max < 2 ^ 32)
    (hrun : (sendQueue max conn).Run (foundInTime max) restart t) : t.queue.length ≤ max := by
  have hmin : 4 ≤ max := Nat.le_of_dvd hpos hdvd
  have hinv : Inv max t := hrun.invariant (inv_restart hmin)
    fun _ _ _ h hfound hstep => h.step hmin hmax hfound hstep
  have hle := hinv.bounded.length_le
  omega

theorem queue_length_le_four :
    ∃ t, (sendQueue 4 0).Run (foundInTime 4) restart t ∧ t.queue.length = 1 ∧
      t.queue.length ≤ 4 := by
  obtain ⟨t, hrun, hlen⟩ := exists_run_of_exec (M := sendQueue 4 0) (s := restart) (foundInTime 4)
    (p := fun t => t.queue.length = 1)
    [.post 1 false false, .seen 0 .success, .post 2 false false] (by decide +kernel)
  exact ⟨t, hrun, hlen, queue_length_le (by decide) (by decide) (by decide) hrun⟩

/-- Two posts before the signaled request is found take the counter past the first quarter, and no
request is signaled after that. -/
theorem queue_overflows :
    ∃ t, (sendQueue 4 0).Run anyStep restart t ∧ 4 < t.queue.length :=
  exists_run_of_exec anyStep
    [.post 1 false false, .post 2 false false, .post 3 false false, .seen 0 .success,
      .post 4 false false, .post 5 false false, .post 6 false false] (by decide +kernel)

end VmFt.Dare.SendQueue
