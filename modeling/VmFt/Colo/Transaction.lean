import VmFt.Colo.Primary

/-! # The result of a checkpoint transaction

`colo_do_checkpoint_transaction` as one function of what its calls return. Its
variable `ret` is set by some of the calls, the errors of the others only go into
`local_err`, and every error leaves through the label `out`.
-/

namespace VmFt.Colo.Transaction

open VmFt.System

/-- What the calls of the transaction return. -/
structure Outcomes where
  opened : Bool
  /-- The two tests for a failover request, before and after the guest is stopped. -/
  failoverAtStop : Bool
  failoverAfterStop : Bool
  replicated : Bool
  deviceState : ℤ
  /-- The results of `mc_rdma_put_colo_ctrl_buffer` for `VMSTATE_SIZE` and for the size. -/
  putMessage : ℤ
  putValue : ℤ
  fileError : ℤ
  received : Received
  shutdownRequested : Bool
deriving DecidableEq, Repr

/-- The value returned and whether the guest was started again, unless the thread exits. -/
inductive Result
  | returned (ret : ℤ) (restarted : Bool)
  | exited
deriving DecidableEq, Repr

/-- Whether `mc_send_message` sets an error. -/
def mcSendMessage (put : ℤ) : Bool := put ≠ 0

/-- Whether `mc_send_message_value` sets an error. -/
def mcSendMessageValue (putMessage putValue : ℤ) : Bool :=
  mcSendMessage putMessage || putValue < 0

def coloDoCheckpointTransaction (o : Outcomes) : Result :=
  let ret : ℤ := -1
  if !o.opened then .returned ret false
  else if o.failoverAtStop then .returned ret false
  else if o.failoverAfterStop then .returned ret false
  else if !o.replicated then .returned ret false
  else
    let ret := o.deviceState
    if ret < 0 then .returned ret false
    else if mcSendMessageValue o.putMessage o.putValue then .returned ret false
    else
      -- What the put of the state itself returns is dropped.
      let ret := o.fileError
      if ret < 0 then .returned ret false
      else if mcReceiveCheckMessage .vmstateLoaded o.received then .returned ret false
      else if o.shutdownRequested then .exited
      else
        let ret := 0
        .returned ret true

/-- Whether the transaction comes to sending the state. -/
def Saves (o : Outcomes) : Prop :=
  o.opened = true ∧ o.failoverAtStop = false ∧ o.failoverAfterStop = false ∧
    o.replicated = true ∧ 0 ≤ o.deviceState

/-- The size is sent and, when no error of the stream is found, the backup answers with
`VMSTATE_LOADED`. -/
def Answered (o : Outcomes) : Prop :=
  Saves o → (o.putMessage = 0 ∧ 0 ≤ o.putValue) ∧
    (0 ≤ o.fileError → o.received = .got ColoMessage.vmstateLoaded.toNat)

instance (o : Outcomes) : Decidable (Saves o) := by unfold Saves; infer_instance

instance (o : Outcomes) : Decidable (Answered o) := by unfold Answered; infer_instance

variable {o : Outcomes} {s : Primary} {ret : ℤ} {restarted : Bool}

theorem mcSendMessageValue_eq_false {putMessage putValue : ℤ} :
    mcSendMessageValue putMessage putValue = false ↔ putMessage = 0 ∧ 0 ≤ putValue := by
  simp [mcSendMessageValue, mcSendMessage]

theorem mcReceiveCheckMessage_vmstateLoaded {r : Received} :
    mcReceiveCheckMessage .vmstateLoaded r = false ↔ r = .got ColoMessage.vmstateLoaded.toNat := by
  cases r with
  | got msg => simp [mcReceiveCheckMessage, mcReceiveMessage]
  | failed rest =>
    simp only [mcReceiveCheckMessage, mcReceiveMessage, bne_eq_false_iff_eq, reduceCtorEq,
      iff_false, qemuVmSectionFull, ColoMessage.toNat]
    omega

theorem transaction_of_not_saves (h : ¬ Saves o) :
    ∃ ret < 0, coloDoCheckpointTransaction o = .returned ret false := by
  unfold coloDoCheckpointTransaction
  dsimp only
  by_cases he : o.opened = true ∧ o.failoverAtStop = false ∧ o.failoverAfterStop = false ∧
      o.replicated = true
  · obtain ⟨ho, hat, ha, hr⟩ := he
    have hd : o.deviceState < 0 := by
      refine Int.not_le.mp fun hle => h ⟨ho, hat, ha, hr, hle⟩
    exact ⟨o.deviceState, hd, by simp [ho, hat, ha, hr, hd]⟩
  · refine ⟨-1, by decide, ?_⟩
    cases ho : o.opened <;> cases hat : o.failoverAtStop <;>
      cases ha : o.failoverAfterStop <;> cases hr : o.replicated <;> simp_all

theorem transaction_of_saves (h : Saves o) : coloDoCheckpointTransaction o =
      if mcSendMessageValue o.putMessage o.putValue then .returned o.deviceState false
      else if o.fileError < 0 then .returned o.fileError false
      else if mcReceiveCheckMessage .vmstateLoaded o.received then .returned o.fileError false
      else if o.shutdownRequested then .exited else .returned 0 true := by
  obtain ⟨ho, hat, ha, hr, hd⟩ := h
  simp [coloDoCheckpointTransaction, ho, hat, ha, hr, Int.not_lt.mpr hd]

theorem returned_iff_of_answered (h : Answered o)
    (hre : coloDoCheckpointTransaction o = .returned ret restarted) :
    0 ≤ ret ↔ o.received = .got ColoMessage.vmstateLoaded.toNat ∧ restarted = true := by
  by_cases hs : Saves o
  · obtain ⟨hse, hl⟩ := h hs
    rw [transaction_of_saves hs, mcSendMessageValue_eq_false.mpr hse] at hre
    by_cases hf : o.fileError < 0
    · rw [if_neg (by simp), if_pos hf] at hre
      cases hre
      simp [hf]
    · have hrc := hl (Int.not_lt.mp hf)
      rw [if_neg (by simp), if_neg hf,
        mcReceiveCheckMessage_vmstateLoaded.mpr hrc, if_neg (by simp)] at hre
      split at hre
      · cases hre
      · cases hre
        simp [hrc]
  · obtain ⟨ret', hneg, hr⟩ := transaction_of_not_saves hs
    cases hr.symm.trans hre
    simp [hneg]

theorem ret_of_restarted (h : coloDoCheckpointTransaction o = .returned ret true) : ret = 0 := by
  by_cases hs : Saves o
  · rw [transaction_of_saves hs] at h
    repeat' split at h
    all_goals cases h
    rfl
  · obtain ⟨ret', -, hr⟩ := transaction_of_not_saves hs
    cases hr.symm.trans h

/-! ### The transaction in the checkpoint thread -/

/-- Where a transaction with the given result leaves the thread, which had received `n` answers. -/
def Ends (n : ℕ) (t : Primary) : Result → Prop
  | .returned ret restarted =>
    t.pc = .transactionOut ∧ t.ret = ret ∧ t.loaded = n + restarted.toNat ∧
      (restarted = true → t.running = true)
  | .exited => t.pc = .exited

theorem thread_eq_some {pc : Pc} {next : Primary} (h : s.pc = pc) : s.thread pc next = some next :=
  guarded_eq_some.mpr ⟨h, rfl⟩

theorem run_receive (hpc : s.pc = .receive) (hret : s.ret = o.fileError)
    (hs : s.shutdownRequested = o.shutdownRequested) : ∃ t, primary.Run anyStep s t ∧
      Ends s.loaded t
        (if mcReceiveCheckMessage .vmstateLoaded o.received then .returned o.fileError false
          else if o.shutdownRequested then .exited else .returned 0 true) := by
  by_cases hc : mcReceiveCheckMessage .vmstateLoaded o.received = true
  · refine ⟨_, Run.cons (.receive o.received) trivial (thread_eq_some hpc) Run.refl, ?_⟩
    rw [if_pos hc, if_pos hc]
    exact ⟨rfl, hret, rfl, nofun⟩
  · by_cases he : o.shutdownRequested = true
    · refine ⟨_, Run.cons (.receive o.received) trivial (thread_eq_some hpc) Run.refl, ?_⟩
      rw [if_neg hc, if_neg hc, if_pos he, if_pos (hs.trans he)]
      rfl
    · have hst : primary.step s (.receive o.received) =
          some { s with loaded := s.loaded + 1, ret := 0, pc := .startBuffer } := by
        refine (thread_eq_some hpc).trans ?_
        rw [if_neg hc, if_neg (by rwa [hs])]
      refine ⟨_, Run.cons _ trivial hst (Run.cons (.startBuffer true true) trivial rfl
        (Run.cons .start trivial rfl (Run.cons (.flush true) trivial rfl Run.refl))), ?_⟩
      rw [if_neg hc, if_neg he]
      exact ⟨rfl, rfl, rfl, fun _ => rfl⟩

theorem run_sendSize (hpc : s.pc = .sendSize) (hret : s.ret = o.deviceState)
    (hsh : s.shutdownRequested = o.shutdownRequested) (hs : Saves o) :
    ∃ t, primary.Run anyStep s t ∧ Ends s.loaded t (coloDoCheckpointTransaction o) := by
  rw [transaction_of_saves hs]
  by_cases hse : mcSendMessageValue o.putMessage o.putValue = true
  · refine ⟨_, Run.cons (.sendSize false) trivial (thread_eq_some hpc) Run.refl, ?_⟩
    rw [if_pos hse]
    exact ⟨rfl, hret, rfl, nofun⟩
  · rw [if_neg hse]
    have hst : primary.step { s with pc := .sendState } (.sendState o.fileError) =
        some { s with
          ret := o.fileError, pc := if o.fileError < 0 then .transactionOut else .receive } := rfl
    by_cases hf : o.fileError < 0
    · rw [if_pos hf] at hst ⊢
      refine ⟨_, Run.cons (.sendSize true) trivial (thread_eq_some hpc)
        (Run.cons _ trivial hst Run.refl), ?_⟩
      exact ⟨rfl, rfl, rfl, nofun⟩
    · rw [if_neg hf] at hst ⊢
      obtain ⟨t, hrun, he⟩ := run_receive (o := o)
        (s := { s with ret := o.fileError, pc := .receive }) rfl rfl hsh
      exact ⟨t, Run.cons (.sendSize true) trivial (thread_eq_some hpc)
        (Run.cons _ trivial hst hrun), he⟩

theorem step_failoverRequest (hf : s.failover = .none) :
    primary.step s .failoverRequest = some { s with failover := .request } :=
  guarded_eq_some.mpr ⟨hf, rfl⟩

theorem run_replicate (hpc : s.pc = .replicate) (hret : s.ret = -1)
    (hf : s.failover = .none) (hs : s.shutdownRequested = o.shutdownRequested)
    (ho : o.opened = true) (hat : o.failoverAtStop = false) :
    ∃ t, primary.Run anyStep s t ∧ Ends s.loaded t (coloDoCheckpointTransaction o) := by
  have hr (ok : Bool) : primary.step s (.replicate ok) =
      some { s with pc := if ok then .save else .transactionOut } := by
    refine (thread_eq_some hpc).trans ?_
    cases ok <;> simp [Primary.failoverRequestIsActive, hf]
  cases ha : o.failoverAfterStop with
  | true =>
    refine ⟨_, Run.cons _ trivial (step_failoverRequest hf)
      (Run.cons (.replicate true) trivial (thread_eq_some hpc) Run.refl), ?_⟩
    simp [coloDoCheckpointTransaction, Ends, Primary.failoverRequestIsActive, ho, hat, ha, hret]
  | false =>
    cases hre : o.replicated with
    | false =>
      refine ⟨_, Run.cons _ trivial (hr false) Run.refl, ?_⟩
      simp [coloDoCheckpointTransaction, Ends, ho, hat, ha, hre, hret]
    | true =>
      have hsa : primary.step { s with pc := .save } (.save o.deviceState) =
          some { s with
            ret := o.deviceState
            pc := if o.deviceState < 0 then .transactionOut else .sendSize } := rfl
      by_cases hd : o.deviceState < 0
      · rw [if_pos hd] at hsa
        refine ⟨_, Run.cons _ trivial (hr true) (Run.cons _ trivial hsa Run.refl), ?_⟩
        simp [coloDoCheckpointTransaction, Ends, ho, hat, ha, hre, hd]
      · rw [if_neg hd] at hsa
        obtain ⟨t, hrun, he⟩ := run_sendSize (o := o)
          (s := { s with ret := o.deviceState, pc := .sendSize }) rfl rfl hs
          ⟨ho, hat, ha, hre, Int.not_lt.mp hd⟩
        exact ⟨t, Run.cons _ trivial (hr true) (Run.cons _ trivial hsa hrun), he⟩

theorem run_stop (hpc : s.pc = .stop) (hret : s.ret = -1) (hf : s.failover = .none)
    (hs : s.shutdownRequested = o.shutdownRequested) (ho : o.opened = true) :
    ∃ t, primary.Run anyStep s t ∧ Ends s.loaded t (coloDoCheckpointTransaction o) := by
  cases hat : o.failoverAtStop with
  | true =>
    refine ⟨_, Run.cons _ trivial (step_failoverRequest hf)
      (Run.cons .stop trivial (thread_eq_some hpc) Run.refl), ?_⟩
    simp [coloDoCheckpointTransaction, Ends, Primary.failoverRequestIsActive, ho, hat, hret]
  | false =>
    obtain ⟨t, hrun, he⟩ := run_replicate (o := o)
      (s := { s with running := false, pc := .replicate }) rfl hret hf hs ho hat
    refine ⟨t, Run.cons .stop trivial ?_ hrun, he⟩
    refine (thread_eq_some hpc).trans ?_
    simp [Primary.failoverRequestIsActive, hf]

theorem transaction_refines (hpc : s.pc = .request) (hf : s.failover = .none)
    (hs : s.shutdownRequested = o.shutdownRequested) :
    ∃ t, primary.Run anyStep s t ∧ Ends s.loaded t (coloDoCheckpointTransaction o) := by
  have hr : primary.step s (.request o.opened) =
      some { s with ret := -1, pc := if o.opened then .stop else .transactionOut } :=
    thread_eq_some hpc
  cases ho : o.opened with
  | false =>
    rw [ho] at hr
    refine ⟨_, Run.cons _ trivial hr Run.refl, ?_⟩
    simp [coloDoCheckpointTransaction, ho, Ends]
  | true =>
    rw [ho] at hr
    obtain ⟨t, hrun, he⟩ := run_stop (o := o) (s := { s with ret := -1, pc := .stop })
      rfl rfl hf hs ho
    exact ⟨t, Run.cons _ trivial hr hrun, he⟩

/-- A value returned is non-negative exactly when the backup has loaded the state and the guest was
started again, and on any other value the thread leaves its loop. -/
def Honest (s : Primary) (o : Outcomes) : Prop :=
  ∀ ret restarted, coloDoCheckpointTransaction o = .returned ret restarted →
    (0 ≤ ret ↔ o.received = .got ColoMessage.vmstateLoaded.toNat ∧ restarted = true) ∧
      ∃ t, primary.Run anyStep s t ∧ Ends s.loaded t (.returned ret restarted) ∧
        primary.step t .transactionOut = some { t with pc := if restarted then .loop else .out }

theorem honest_of_answered (h : Answered o) (hpc : s.pc = .request) (hf : s.failover = .none)
    (hs : s.shutdownRequested = o.shutdownRequested) : Honest s o := by
  intro ret restarted hre
  have hiff := returned_iff_of_answered h hre
  refine ⟨hiff, ?_⟩
  obtain ⟨t, hrun, hends⟩ := transaction_refines (o := o) hpc hf hs
  rw [hre] at hends
  refine ⟨t, hrun, hends, (thread_eq_some hends.1).trans ?_⟩
  rw [hends.2.1]
  cases restarted with
  | true => rw [ret_of_restarted hre]; rfl
  | false =>
    have hneg : ret < 0 := Int.not_le.mp fun hle => absurd (hiff.mp hle).2 nofun
    rw [if_pos hneg]
    rfl

theorem returned_of_not_answered (h : ¬ Answered o) :
    ∃ ret, 0 ≤ ret ∧ coloDoCheckpointTransaction o = .returned ret false := by
  obtain ⟨hs, hno⟩ := Classical.not_imp.mp h
  rw [transaction_of_saves hs]
  by_cases hse : mcSendMessageValue o.putMessage o.putValue = true
  · exact ⟨o.deviceState, hs.2.2.2.2, if_pos hse⟩
  · have hput := mcSendMessageValue_eq_false.mp (Bool.not_eq_true _ ▸ hse)
    obtain ⟨hf, hrc⟩ := Classical.not_imp.mp fun hl => hno ⟨hput, hl⟩
    have hc : mcReceiveCheckMessage .vmstateLoaded o.received = true :=
      Bool.not_eq_false _ ▸ mt mcReceiveCheckMessage_vmstateLoaded.mp hrc
    exact ⟨o.fileError, hf, by rw [if_neg hse, if_neg (Int.not_lt.mpr hf), if_pos hc]⟩

/-- The transactions that report a checkpoint as done exactly when it is are those whose messages
are answered. -/
theorem transaction_done_iff (hpc : s.pc = .request) (hfailover : s.failover = .none)
    (hshutdown : s.shutdownRequested = o.shutdownRequested) : Honest s o ↔ Answered o := by
  refine ⟨fun hdone => Decidable.not_not.mp fun hno => ?_,
    fun h => honest_of_answered h hpc hfailover hshutdown⟩
  obtain ⟨ret, hret, hr⟩ := returned_of_not_answered hno
  exact absurd ((hdone ret false hr).1.mp hret).2 nofun

/-- A transaction in which everything goes well. -/
def Outcomes.fine : Outcomes := ⟨true, false, false, true, 0, 0, 0, 0, .got 6, false⟩

theorem transaction_done_iff_fine :
    Answered .fine ∧ coloDoCheckpointTransaction .fine = .returned 0 true ∧
      Honest { Primary.init with pc := .request } .fine ∧
      ¬ Honest { Primary.init with pc := .request } { Outcomes.fine with received := .got 7 } := by
  refine ⟨by decide, by decide, (transaction_done_iff rfl rfl rfl).mpr (by decide), ?_⟩
  exact mt (transaction_done_iff rfl rfl rfl).mp (by decide)

/-- The size cannot be sent, or the answer is another message: the result is 0 and the guest stays
stopped. -/
theorem transaction_reports_failure_as_done :
    coloDoCheckpointTransaction { Outcomes.fine with putMessage := -1 } = .returned 0 false ∧
      coloDoCheckpointTransaction { Outcomes.fine with received := .got 7 } =
        .returned 0 false := by
  decide

end VmFt.Colo.Transaction
