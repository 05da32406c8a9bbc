import VmFt.Dare.PipelineInv

/-! # The leader's steps of the replication pipeline

The requests of the log adjustment and of the log updates, and the entries the
leader appends meanwhile, keep the invariant of the pipeline.
-/

namespace VmFt.Dare.Ring

open VmFt.System List Option

variable {i : ℕ} {s t : State} {tag : Bool} {op : Op} {done : Prop}

/-! ### Posting a request -/

/-- The leader's state before it posts a request. -/
structure Readied (s t : State) : Prop where
  ssn_eq : t.ssn = s.ssn + 1
  send_eq : t.sendQueue = s.sendQueue
  comp_eq : t.compQueue = s.compQueue
  follower_eq : t.follower = s.follower
  len_eq : t.leader.len = s.leader.len
  end_eq : t.leader.endOff = s.leader.endOff
  history_eq : t.history = s.history

theorem Wired.send_lt (h : Wired i s) (hr : Readied s t) : ∀ w ∈ t.sendQueue, w.id.ssn < t.ssn := by
  intro w hw
  have := h.send_le w (hr.send_eq ▸ hw)
  have := hr.ssn_eq
  omega

theorem Wired.comp_lt (h : Wired i s) (hr : Readied s t) : ∀ c ∈ t.compQueue, c.1.ssn < t.ssn := by
  intro c hc
  have := h.comp_le c (hr.comp_eq ▸ hc)
  have := hr.ssn_eq
  omega

theorem isNext_postSend_old (h : Wired i s) (hr : Readied s t) {w : WorkRequest}
    (hw : w ∈ t.sendQueue) : isNext i (postSend i tag op t).server w.id = false :=
  isNext_of_ssn_ne rfl (Nat.ne_of_lt (h.send_lt hr w hw))

theorem isNext_postSend_comp (h : Wired i s) (hr : Readied s t) {c : WrId × WcRc}
    (hc : c ∈ t.compQueue) : isNext i (postSend i tag op t).server c.1 = false :=
  isNext_of_ssn_ne rfl (Nat.ne_of_lt (h.comp_lt hr c hc))

theorem isNext_postSend_new : isNext i (postSend i tag op t).server ⟨t.ssn, i, false, tag⟩ = true :=
  isNext_iff.mpr ⟨rfl, rfl⟩

theorem pending_postSend (h : Wired i s) (hr : Readied s t) :
    pending i (postSend i tag op t) = 1 + t.second.toList.length := by
  have hs : (postSend i tag op t).sendQueue.countP
      (fun w => isNext i (postSend i tag op t).server w.id) = 1 := by
    change (t.sendQueue ++ [_]).countP _ = 1
    rw [countP_append, countP_eq_zero.mpr, countP_singleton, if_pos isNext_postSend_new]
    exact fun w hw => by simp [isNext_postSend_old h hr hw]
  have hco : (postSend i tag op t).compQueue.countP
      (fun c => isNext i (postSend i tag op t).server c.1) = 0 :=
    countP_eq_zero.mpr fun c hc => by simp [isNext_postSend_comp h hr hc]
  rw [pending, hs, hco]
  rfl

theorem op_of_postSend (h : Wired i s) (hr : Readied s t) {w : WorkRequest}
    (hw : w ∈ (postSend i tag op t).sendQueue)
    (hn : isNext i (postSend i tag op t).server w.id = true) : w.op = op := by
  rcases mem_append.mp hw with hold | hnew
  · rw [isNext_postSend_old h hr hold] at hn
    cases hn
  · rw [mem_singleton.mp hnew]

theorem awaits_postSend (h : Wired i s) (hr : Readied s t) (hs : t.second = none) :
    Awaits i (postSend i tag op t) op done where
  pending_le := by simp [pending_postSend h hr, hs]
  op_eq := fun _ hw hn => op_of_postSend h hr hw hn
  done := by
    rintro ⟨c, hc, hn, -⟩
    rw [isNext_postSend_comp h hr hc] at hn
    cases hn

theorem wired_postSend (h : Wired i s) (hf : s.server.sendFlag = true) (hr : Readied s t)
    (hadj : isAdjusting s.server.nextLrStep = false → isAdjusting t.server.nextLrStep = false)
    (hs : t.second ≠ none → t.server.nextLrStep = .updateLog) :
    Wired i (postSend i tag op t) where
  next_eq := ⟨t.ssn, Nat.le_refl _, rfl⟩
  send_le := by
    intro w hw
    rcases mem_append.mp hw with hold | hnew
    · exact Nat.le_of_lt (h.send_lt hr w hold)
    · rw [mem_singleton.mp hnew]
      exact Nat.le_refl _
  comp_le := fun c hc => Nat.le_of_lt (h.comp_lt hr c hc)
  idle := fun hyes => by cases hyes
  second := fun hyes => ⟨rfl, hs hyes⟩
  aside := by
    intro w hw hnot
    rcases mem_append.mp hw with hold | hnew
    · exact (h.aside_of_idle hf (hr.send_eq ▸ hold)).imp_right fun ⟨hst, hop⟩ => ⟨hadj hst, hop⟩
    · rw [mem_singleton.mp hnew, isNext_postSend_new] at hnot
      cases hnot

theorem inv_postSend (h : Inv i s) (hfl : s.server.sendFlag = true) (hr : Readied s t)
    (hadj : isAdjusting s.server.nextLrStep = false → isAdjusting t.server.nextLrStep = false)
    (hs : t.second ≠ none → t.server.nextLrStep = .updateLog)
    (hst : t.server.nextLrStep = .updateLog → s.server.nextLrStep = .updateLog)
    (hat : AtStep i (postSend i tag op t) t.server.nextLrStep) :
    Inv i (observe s (postSend i tag op t)) := by
  have hobs : observe s (postSend i tag op t) = postSend i tag op t :=
    observe_of_still hst hr.end_eq hr.history_eq
  rw [hobs]
  exact {
    len_eq := by
      change t.follower.len = t.leader.len
      rw [hr.follower_eq, hr.len_eq, h.len_eq]
    large := by
      change _ ≤ t.leader.len
      rw [hr.len_eq]
      exact h.large
    end_le := by
      change t.leader.endOff ≤ t.leader.len
      rw [hr.len_eq, hr.end_eq]
      exact h.end_le
    wired := wired_postSend h.wired hfl hr hadj hs
    atStep := hat }

theorem inv_postSend_at {st : LrStep} (h : Inv i s) (hfl : s.server.sendFlag = true)
    (hst : s.server.nextLrStep = st) (hst' : t.server.nextLrStep = st) (hr : Readied s t)
    (hs : t.second ≠ none → st = .updateLog)
    (hat : Readied s t → AtStep i (postSend i tag op t) st) :
    Inv i (observe s (postSend i tag op t)) := by
  have heq : t.server.nextLrStep = s.server.nextLrStep := hst'.trans hst.symm
  refine inv_postSend h hfl hr (heq ▸ id) (hst' ▸ hs) (heq ▸ id) ?_
  rw [hst']
  exact hat hr

/-! ### Log adjustment -/

theorem inv_adjusted_at_commit (h : Inv i s) (hf : s.server.sendFlag = true)
    (hst : s.server.nextLrStep = .getNce) (hn : s.ncBuf.len = 0) :
    Inv i (observe s
      { s with
        ssn := s.ssn + 1
        offsetsEnd := s.offsetsCommit
        server := { s.server with nextLrStep := .updateLog } }) := by
  have hat := h.atStep
  rw [hst] at hat
  obtain ⟨⟨hun, hc⟩, hlen, -⟩ := hat
  have hs := h.wired.second_of_idle hf
  have hlt : s.offsetsCommit < s.leader.len := by
    rw [hc, ← h.len_eq]
    exact hun.commit_lt
  refine ⟨h.len_eq, h.large, h.end_le, ?_, ?_⟩
  · exact h.wired.mono (Nat.le_succ _) rfl rfl rfl rfl id (fun _ => rfl)
      fun hyes => absurd hs hyes
  · refine ⟨progress_start (Nat.le_of_lt hlt) ?_, ?_, ?_⟩
    · simp [observe, hst, isAdjusting]
    · rcases end_of_logEntriesToNcBuf_nil hun.filled (hlen ▸ hn) hun.commit_lt with hend | hend
      · exact Or.inr ⟨by simp [observe, hst, isAdjusting], hn, hend⟩
      · exact Or.inl (hend.trans hc.symm)
    · intro hno
      exact absurd (hf.symm.trans hno) (by decide)

theorem inv_logAdjustment (h : Inv i s) : Inv i (observe s (logAdjustment i tag s)) := by
  have hsa : Inv i (observe s s) := by rwa [observe_of_still id rfl rfl]
  have hl : maxEntryLen ≤ s.leader.len := by have := h.large; omega
  unfold logAdjustment
  split
  · exact hsa
  rename_i hr
  have hfl : s.server.sendFlag = true := eq_true_of_ne_false fun hf => hr (Or.inr (Or.inl hf))
  have ha : s.leader.len ≠ s.voteAck := fun hack => hr (Or.inr (Or.inr (Or.inr hack)))
  have hs := h.wired.second_of_idle hfl
  have hat := h.atStep
  split
  · -- `LR_GET_WRITE` falls through to the next step
    rename_i hst
    rw [hst] at hat
    obtain ⟨hun, -⟩ := hat
    refine inv_postSend h hfl ⟨rfl, rfl, rfl, rfl, rfl, rfl, rfl⟩ ?_ (absurd hs) nofun ?_
    · rw [hst]
      nofun
    · exact ⟨⟨{ hun with }, hun.ack.resolve_left ha.symm⟩,
        awaits_postSend h.wired ⟨rfl, rfl, rfl, rfl, rfl, rfl, rfl⟩ hs⟩
  · rename_i hst
    rw [hst] at hat
    obtain ⟨⟨hun, hc⟩, -⟩ := hat
    exact inv_postSend_at h hfl hst hst ⟨rfl, rfl, rfl, rfl, rfl, rfl, rfl⟩ (absurd hs)
      fun hr => ⟨⟨{ hun with }, hc⟩,
        awaits_postSend h.wired hr hs⟩
  · rename_i hst
    split
    · rename_i hn
      exact inv_adjusted_at_commit h hfl hst hn
    · rw [hst] at hat
      obtain ⟨⟨hun, hc⟩, hlen, -⟩ := hat
      exact inv_postSend_at h hfl hst hst ⟨rfl, rfl, rfl, rfl, rfl, rfl, rfl⟩ (absurd hs)
        fun hr => ⟨⟨{ hun with }, hc⟩, hlen,
          awaits_postSend h.wired hr hs⟩
  · rename_i hst
    rw [hst] at hat
    obtain ⟨hd, -⟩ := hat
    exact inv_postSend_at h hfl hst hst ⟨rfl, rfl, rfl, rfl, rfl, rfl, rfl⟩ (absurd hs)
      fun hr => ⟨hd, fun _ => logFindRemoteEndOffset_le hl hd (Nat.zero_le _),
        awaits_postSend h.wired hr hs⟩
  · exact hsa
  · exact hsa

/-! ### Log updates -/

theorem mem_of_age_le {len a b x : ℕ} (hb : b < len) (hab : a < b) (hx : x < len)
    (h : age len b x ≤ gap len a b) : a ≤ x ∧ x < b := by
  unfold age gap wrap at h
  split_ifs at h <;> omega

theorem mem_of_age_le_wrap {len a b x : ℕ} (hb : b < len) (hab : b < a)
    (hx : x < len) (h : age len b x ≤ gap len a b) : a ≤ x ∨ x < b := by
  unfold age gap wrap at h
  split_ifs at h <;> omega

theorem lt_len_of_distance (hend : s.leader.endOff ≤ s.leader.len)
    (hd : ¬ logOffsetEndDistance s.leader s.offsetsEnd = 0) :
    s.leader.endOff < s.leader.len ∧ s.leader.endOff ≠ s.offsetsEnd := by
  unfold logOffsetEndDistance at hd
  split at hd
  · exact absurd rfl hd
  · rename_i hempty
    simp only [isLogEmpty, beq_iff_eq] at hempty
    split at hd <;> omega

theorem between_of_cached (hc : t.server.cachedEndOffset = t.leader.endOff) :
    gap t.leader.len t.offsetsEnd t.server.cachedEndOffset +
      gap t.leader.len t.server.cachedEndOffset t.leader.endOff = unsent t := by
  rw [hc, gap_self, Nat.add_zero, unsent]

theorem writing_whole (h : Wired i s) (hr : Readied s t) (hs : t.second = none)
    (hco : t.server.sendCount = 1) (hc : t.server.cachedEndOffset = t.leader.endOff)
    (hlt : t.leader.endOff < t.leader.len) (hb : t.offsetsEnd < t.leader.endOff) :
    Writing i
      (postSend i tag (.writeLog t.offsetsEnd (t.leader.endOff - t.offsetsEnd)) t) where
  cached_lt := hc ▸ hlt
  between := between_of_cached hc
  pending_le := by
    rw [pending_postSend h hr, hs]
    exact Nat.le_max_left 1 _
  count_le := hco.trans_le (by decide)
  op_eq := fun w hw hn => ⟨_, _, op_of_postSend h hr hw hn⟩
  covered := by
    intro _ _ _ x hx _ hle
    obtain ⟨hf, hto⟩ := mem_of_age_le hlt hb hx hle
    exact Or.inr (Or.inr ⟨_, mem_append_right _ (mem_singleton_self _), isNext_postSend_new, _, _,
      rfl, hf, by omega⟩)

theorem writing_wrapped (h : Wired i s) (hr : Readied s t)
    (hs : t.second = if 0 < t.leader.endOff then some t.leader.endOff else none)
    (hc : t.server.sendCount = 2) (hca : t.server.cachedEndOffset = t.leader.endOff)
    (hlt : t.leader.endOff < t.leader.len) (ha : t.leader.endOff < t.offsetsEnd) :
    Writing i
      (postSend i tag (.writeLog t.offsetsEnd (t.leader.len - t.offsetsEnd)) t) where
  cached_lt := hca ▸ hlt
  between := between_of_cached hca
  pending_le := by
    have hpa : t.second.toList.length ≤ 1 := by cases t.second <;> simp
    change _ ≤ max 1 t.server.sendCount
    rw [pending_postSend h hr, hc]
    omega
  count_le := hc.trans_le (by decide)
  op_eq := fun w hw hn => ⟨_, _, op_of_postSend h hr hw hn⟩
  covered := by
    intro _ hp _ x hx _ hle
    rw [pending_postSend h hr, hs] at hp
    have hpos : 0 < t.leader.endOff := by
      by_contra hz
      rw [if_neg hz] at hp
      exact absurd (hp.trans hc) (by decide)
    rcases mem_of_age_le_wrap hlt ha hx hle with hf | hto
    · refine Or.inr (Or.inr ⟨_, mem_append_right _ (mem_singleton_self _), isNext_postSend_new, _,
        _, rfl, hf, ?_⟩)
      change x < t.leader.len at hx
      omega
    · exact Or.inr (Or.inl ⟨_, hs.trans (if_pos hpos), hto⟩)

theorem inv_updateRemoteLog (h : Inv i s) :
    Inv i (observe s (updateRemoteLog i tag s)) := by
  have hsa : Inv i (observe s s) := by rwa [observe_of_still id rfl rfl]
  unfold updateRemoteLog
  split
  · exact hsa
  rename_i hr
  have hfl : s.server.sendFlag = true := eq_true_of_ne_false fun hf => hr (Or.inr (Or.inl hf))
  have hs := h.wired.second_of_idle hfl
  have hat := h.atStep
  split
  · rename_i hst
    rw [hst] at hat
    obtain ⟨hp, hend, -⟩ := hat
    split
    · exact hsa
    rename_i hd
    obtain ⟨hlt, hne⟩ := lt_len_of_distance h.end_le hd
    dsimp only
    split
    · rename_i hb
      exact inv_postSend_at h hfl hst hst ⟨rfl, rfl, rfl, rfl, rfl, rfl, rfl⟩ (absurd hs)
        fun hr => ⟨hp.congr rfl rfl rfl rfl rfl fun _ hx => hx, hend, fun _ =>
          writing_whole h.wired hr hs rfl rfl hlt hb⟩
    · rename_i hb
      exact inv_postSend_at h hfl hst hst ⟨rfl, rfl, rfl, rfl, rfl, rfl, rfl⟩ (fun _ => rfl)
        fun hr => ⟨hp.congr rfl rfl rfl rfl rfl fun _ hx => hx, hend, fun _ =>
          writing_wrapped h.wired hr rfl rfl rfl hlt
            (Nat.lt_of_le_of_ne (Nat.le_of_not_lt hb) hne)⟩
  · rename_i hst
    rw [hst] at hat
    obtain ⟨hp, hc, -⟩ := hat
    exact inv_postSend_at h hfl hst hst ⟨rfl, rfl, rfl, rfl, rfl, rfl, rfl⟩ (absurd hs)
      fun hr => ⟨hp.congr rfl rfl rfl rfl rfl fun _ hx => hx, hc, Nat.le_of_lt hc, Nat.le_refl _,
        fun _ => rfl, awaits_postSend h.wired hr hs⟩
  · exact hsa

theorem inv_postSecond (h : Inv i s) {n : ℕ} (hs : s.second = some n) :
    Inv i (observe s (postSecond i tag n s)) := by
  obtain ⟨hid, hst⟩ := h.wired.second (by rw [hs]; nofun)
  have hat := h.atStep
  rw [hst] at hat
  obtain ⟨hp, he, hw⟩ := hat
  have hfl : s.server.sendFlag = false := eq_false_of_ne_true fun hf =>
    absurd (hs.symm.trans (h.wired.second_of_idle hf)) nofun
  have hw := hw hfl
  have hnew : isNext i s.server ⟨s.ssn, i, true, tag⟩ = true := by
    rw [isNext_iff, hid]
    exact ⟨rfl, rfl⟩
  have hsa : isNext i (postSecond i tag n s).server = isNext i s.server := rfl
  have hpe : pending i (postSecond i tag n s) = pending i s := by
    unfold pending
    rw [hsa, hs]
    change (s.sendQueue ++ [_]).countP _ + _ + 0 = _
    rw [countP_append, countP_singleton, if_pos hnew]
    simp only [toList_some, length_singleton]
    change _ + 1 + s.compQueue.countP _ + 0 = _
    omega
  have hobs : observe s (postSecond i tag n s) = postSecond i tag n s :=
    observe_of_still id rfl rfl
  rw [hobs]
  refine ⟨h.len_eq, h.large, h.end_le, ?_, ?_⟩
  · refine h.wired.change rfl (Nat.le_refl _) id (fun w hmem => ?_) (fun _ => Or.inl) nofun nofun
    rcases mem_append.mp hmem with hold | hl
    · exact Or.inl hold
    · rw [mem_singleton.mp hl]
      exact Or.inr ⟨Nat.le_refl _, fun hno => absurd (hnew.symm.trans hno) nofun⟩
  · change AtStep i _ s.server.nextLrStep
    rw [hst]
    refine ⟨hp.congr rfl rfl rfl rfl rfl fun _ hx => hx, he, fun _ => ?_⟩
    exact { hw with
      pending_le := hpe ▸ hw.pending_le
      op_eq := by
        intro w hmem hn
        rcases mem_append.mp hmem with hold | hl
        · exact hw.op_eq w hold hn
        · rw [mem_singleton.mp hl]
          exact ⟨0, n, rfl⟩
      covered := by
        intro hone hall hok x hx hlt hage
        rcases hw.covered hone (hpe ▸ hall) hok x hx hlt hage with
          heq | ⟨m, hm, hxm⟩ | ⟨w, hmem, hrest⟩
        · exact Or.inl heq
        · rw [hs] at hm
          cases hm
          exact Or.inr (Or.inr ⟨_, mem_append_right _ (mem_singleton_self _), hnew, 0, n,
            rfl, Nat.zero_le _, by omega⟩)
        · exact Or.inr (Or.inr ⟨w, mem_append_left _ hmem, hrest⟩) }

/-! ### Appending entries -/

variable {log : Log} {n e : ℕ}

def grown (s : State) (log : Log) : State :=
  { s with
    leader := log
    history :=
      { s.history with
        travelled := s.history.travelled + gap s.leader.len s.leader.endOff log.endOff } }

theorem observe_append : observe s { s with leader := log } = grown s log := by
  have hno : ¬ (isAdjusting s.server.nextLrStep = true ∧ s.server.nextLrStep = .updateLog) := by
    rintro ⟨hadj, hlog⟩
    rw [hlog] at hadj
    cases hadj
  have hno' : (s.server.nextLrStep == .updateEnd && s.server.nextLrStep == .updateLog) = false := by
    cases s.server.nextLrStep <;> rfl
  unfold observe grown
  rw [if_neg hno, hno', Bool.or_false]

theorem gap_grown (h : Advances n s.leader log) (he : e ≤ s.leader.len)
    (hend : s.leader.endOff ≤ s.leader.len)
    (hr : gap s.leader.len e s.leader.endOff + n < s.leader.len) :
    gap log.len e log.endOff =
      gap s.leader.len e s.leader.endOff + gap s.leader.len s.leader.endOff log.endOff := by
  have hle := h.gap_le
  rw [h.len_eq]
  exact gap_add he hend (by omega)

theorem age_grown (h : Advances n s.leader log) (hend : s.leader.endOff ≤ s.leader.len) {x : ℕ}
    (hx : x < log.len)
    (hold : gap s.leader.len s.leader.endOff log.endOff < age log.len log.endOff x) :
    age log.len log.endOff x =
        age s.leader.len s.leader.endOff x + gap s.leader.len s.leader.endOff log.endOff ∧
      log.entries x = s.leader.entries x := by
  rw [h.len_eq] at hx hold ⊢
  exact ⟨age_of_gap_lt hend hx hold, h.kept x hx hold⟩

theorem Progress.grown (hp : Progress s e) (h : Advances n s.leader log)
    (hend : s.leader.endOff ≤ s.leader.len)
    (hr : gap s.leader.len e s.leader.endOff + n < s.leader.len) :
    Progress (grown s log) e := by
  have hgap := gap_grown h hp.le_len hend hr
  have hle := h.gap_le
  refine ⟨?_, ?_, ?_, ?_, ?_, ?_⟩
  · exact h.len_eq ▸ hp.le_len
  · exact h.len_eq ▸ hp.adjusted_le
  · change gap log.len e log.endOff ≤ _ + _
    have := hp.le_travelled
    omega
  · intro ht
    change s.history.travelled + _ < log.len at ht
    change gap log.len s.history.adjustedEnd e + gap log.len e log.endOff = _ + _
    have hlen := h.len_eq
    have hway := hp.on_the_way (by omega)
    rw [hgap, hlen]
    omega
  · exact fun hf => (hp.full_circle (hf.trans h.len_eq)).trans h.len_eq.symm
  · intro x hx hlt hage
    change gap log.len e log.endOff < age log.len log.endOff x at hlt
    change age log.len log.endOff x ≤ _ + _ at hage
    obtain ⟨hsum, hs⟩ := age_grown h hend hx (by omega)
    change s.follower.entries x = log.entries x
    rw [hs]
    exact hp.bytes x (h.len_eq ▸ hx) (by omega) (by omega)

theorem Writing.grown (hw : Writing i s) (h : Advances n s.leader log)
    (hend : s.leader.endOff ≤ s.leader.len) (hle : s.offsetsEnd ≤ s.leader.len)
    (hr : unsent s + n < s.leader.len) : Writing i (grown s log) := by
  have hb := hw.between
  have hc := gap_grown h (Nat.le_of_lt hw.cached_lt) hend (by omega)
  have hu : unsent (Ring.grown s log) =
      unsent s + gap s.leader.len s.leader.endOff log.endOff := gap_grown h hle hend hr
  exact { hw with
    cached_lt := h.len_eq ▸ hw.cached_lt
    between := by
      change gap log.len s.offsetsEnd s.server.cachedEndOffset +
        gap log.len s.server.cachedEndOffset log.endOff = _
      rw [hc, hu, ← hb, h.len_eq]
      omega
    covered := by
      intro hone hall hok x hx hlt hage
      change gap log.len s.server.cachedEndOffset log.endOff < age log.len log.endOff x at hlt
      change age log.len log.endOff x ≤ _ at hage
      obtain ⟨hsum, hs⟩ := age_grown h hend hx (by omega)
      change s.follower.entries x = log.entries x ∨ _
      rw [hs]
      exact hw.covered hone hall hok x (h.len_eq ▸ hx) (by omega) (by omega) }

theorem appendSpan_lt (hl : 2 * maxEntryLen ≤ log.len) (body : EntryBody) :
    appendSpan log body < log.len := by
  have hmax := len_le_maxEntryLen body
  have hmin := sizeofEntry_le_len body
  unfold appendSpan
  split
  · omega
  · simp only [sizeofEntry] at hmin
    omega

theorem inv_append (h : Inv i s) {term reqId cltId ret : ℕ} {body : EntryBody}
    (happend : logAppendEntry s.leader term reqId cltId body = some (log, ret))
    (hc : isAdjusting s.server.nextLrStep = false →
      unsent s + appendSpan s.leader body < s.leader.len) :
    Inv i (observe s { s with leader := log }) := by
  have hl : maxEntryLen ≤ s.leader.len := by have := h.large; omega
  have hadv := logAppendEntry_advances happend h.end_le hl (appendSpan_lt h.large body)
  rw [observe_append]
  refine ⟨h.len_eq.trans hadv.len_eq.symm, hadv.len_eq ▸ h.large, hadv.len_eq ▸ hadv.end_le,
    ⟨h.wired.1, h.wired.2, h.wired.3, h.wired.4, h.wired.5, h.wired.6⟩, ?_⟩
  have hat := h.atStep
  change AtStep i _ s.server.nextLrStep
  cases hs : s.server.nextLrStep with
  | getWrite =>
    rw [hs] at hat
    exact ⟨⟨hat.1.commit_lt, hat.1.filled, hadv.len_eq ▸ hat.1.ack⟩, hat.2⟩
  | getNceLen =>
    rw [hs] at hat
    obtain ⟨⟨hun, hco⟩, ha⟩ := hat
    exact ⟨⟨⟨hun.commit_lt, hun.filled, hadv.len_eq ▸ hun.ack⟩, hco⟩,
      { ha with }⟩
  | getNce =>
    rw [hs] at hat
    obtain ⟨⟨hun, hco⟩, hlen, ha⟩ := hat
    exact ⟨⟨⟨hun.commit_lt, hun.filled, hadv.len_eq ▸ hun.ack⟩, hco⟩, hlen,
      ⟨ha.pending_le, ha.op_eq, fun hyes => hadv.len_eq ▸ ha.done hyes⟩⟩
  | setEnd =>
    rw [hs] at hat
    obtain ⟨hd, hle, ha⟩ := hat
    exact ⟨hadv.len_eq ▸ hd, hadv.len_eq ▸ hle, { ha with }⟩
  | updateLog =>
    rw [hs] at hat hc
    obtain ⟨hp, he, hw⟩ := hat
    have hr := hc rfl
    exact ⟨hp.grown hadv h.end_le hr, he,
      fun hf => (hw hf).grown hadv h.end_le hp.le_len hr⟩
  | updateEnd =>
    rw [hs] at hat hc
    obtain ⟨hp, hlt, hle, hgap, hset, ha⟩ := hat
    have hr := hc rfl
    refine ⟨hp.grown hadv h.end_le (by omega), hadv.len_eq ▸ hlt, hadv.len_eq ▸ hle, ?_, hset,
      { ha with }⟩
    have hca := gap_grown hadv (Nat.le_of_lt hlt) h.end_le (by omega)
    have hu : unsent (grown s log) =
        unsent s + gap s.leader.len s.leader.endOff log.endOff :=
      gap_grown hadv hle h.end_le hr
    change gap log.len s.server.cachedEndOffset log.endOff ≤ _
    omega

end VmFt.Dare.Ring
