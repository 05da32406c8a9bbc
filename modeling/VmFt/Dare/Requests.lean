import VmFt.Dare.Tailq

/-! # Requests reach the log and the backup

A queued request is taken off the queue whether or not the log had room for it,
so none is lost only as long as every append succeeds. What the backup applies
is the submitted data as long as its size fits in 16 bits.
-/

namespace VmFt.Dare.Ring

open Option List

variable {term : ℕ} {log log' : Log} {n : TailqEntry} {tailq : List TailqEntry}

/-! ### The queue -/

inductive AppendedAll (term : ℕ) : Log → List TailqEntry → Log → Prop
  | nil (log : Log) : AppendedAll term log [] log
  | cons {log log₁ log₂ : Log} {n : TailqEntry} {idx : ℕ} {tailq : List TailqEntry}
      (happend : appendRequest term log n = some (log₁, idx)) (hidx : idx ≠ 0)
      (hentry : Appended term log n log₁ idx) (hrest : AppendedAll term log₁ tailq log₂) :
      AppendedAll term log (n :: tailq) log₂

/-- `get_tailq_message` returns and has appended what it took off the queue. -/
def NoneLost (term : ℕ) (s : Intake) : Prop :=
  ∃ s' removed, getTailqMessage term s = some s' ∧ s.tailq = removed ++ s'.tailq ∧
    AppendedAll term s.log removed s'.log

/-- None of the entries of the given lengths is refused. -/
def Room (head len : ℕ) : ℕ → List ℕ → Prop
  | _, [] => True
  | endOff, l :: ls => ¬ Refuses head len endOff l ∧ Room head len (entryStart len endOff l + l) ls

theorem Appended.endOff_eq {idx : ℕ} (h : Appended term log n log' idx) :
    log'.endOff = entryStart log.len log.endOff n.entryLen + n.entryLen :=
  h.end_eq.trans (congrArg (· + n.entryLen) h.tail_eq)

theorem logGetTail_of_appended {idx : ℕ} (h : Appended term log n log' idx)
    (hl : maxEntryLen ≤ log.len) : logGetTail log' = some log'.tail := by
  have hpos : 48 ≤ n.entryLen := sizeofEntry_le_len (.cmd n.type n.cmd)
  have hlen : 48 ≤ log.len := Nat.le_trans (Nat.le_add_right _ _) hl
  refine if_pos ?_
  rw [h.tail_eq, h.len_eq, entryStart]
  change (if n.entryLen ≤ _ then _ else _) ≠ _
  split <;> omega

theorem getTailqMessageLoop_tailq {last : ℕ} {s' : Intake}
    (h : getTailqMessageLoop term log last tailq = some s') : s'.tailq = [] := by
  induction tailq generalizing log last with
  | nil =>
    obtain rfl := Option.some.inj h
    rfl
  | cons n tailq ih =>
    rw [getTailqMessageLoop] at h
    split at h
    · cases h
    · exact ih h

theorem appendedAll_of_room {last : ℕ} (hl : maxEntryLen ≤ log.len)
    (ht : tailq = [] ∨ (logGetTail log).isSome)
    (hr : Room log.head log.len log.endOff (tailq.map (·.entryLen))) :
    ∃ s', getTailqMessageLoop term log last tailq = some s' ∧
      AppendedAll term log tailq s'.log := by
  induction tailq generalizing log last with
  | nil => exact ⟨_, rfl, .nil log⟩
  | cons n tailq ih =>
    obtain ⟨hf, hrest⟩ := hr
    obtain ⟨tail, ht⟩ := isSome_iff_exists.mp (ht.resolve_left nofun)
    obtain ⟨log₁, idx, happend, hc⟩ := appendRequest_some term n ht hl
    obtain ⟨-, hidx, hentry⟩ := hc.resolve_left fun h => hf h.1
    obtain ⟨s', hlo, hall⟩ := @ih log₁ idx (hentry.len_eq ▸ hl)
      (.inr (by rw [logGetTail_of_appended hentry hl]; rfl))
      (by rw [hentry.endOff_eq, hentry.head_eq, hentry.len_eq]; exact hrest)
    refine ⟨s', ?_, .cons happend hidx hentry hall⟩
    rw [getTailqMessageLoop, happend]
    exact hlo

theorem AppendedAll.room (h : AppendedAll term log tailq log') (hl : maxEntryLen ≤ log.len) :
    (tailq = [] ∨ (logGetTail log).isSome) ∧
      Room log.head log.len log.endOff (tailq.map (·.entryLen)) := by
  induction h with
  | nil log => exact ⟨.inl rfl, trivial⟩
  | @cons log log₁ log₂ n idx tailq happend hidx hentry hrest ih =>
    cases ht : logGetTail log with
    | none =>
      rw [appendRequest_none ht] at happend
      cases happend
    | some tail =>
      obtain ⟨log₁', idx', ha', hc⟩ :=
        appendRequest_some term n ht hl
      cases happend.symm.trans ha'
      refine ⟨.inr rfl, (hc.resolve_left fun h => hidx h.2).1, ?_⟩
      have := (ih (hentry.len_eq ▸ hl)).2
      rwa [hentry.endOff_eq, hentry.head_eq, hentry.len_eq] at this

theorem noneLost_iff (term : ℕ) (s : Intake) (hl : maxEntryLen ≤ s.log.len) :
    NoneLost term s ↔ (s.tailq = [] ∨ (logGetTail s.log).isSome) ∧
      Room s.log.head s.log.len s.log.endOff (s.tailq.map (·.entryLen)) := by
  constructor
  · rintro ⟨s', removed, hrun, hs, hall⟩
    rw [getTailqMessageLoop_tailq hrun, List.append_nil] at hs
    exact hs ▸ hall.room hl
  · rintro ⟨ht, hr⟩
    obtain ⟨s', hlo, hall⟩ := appendedAll_of_room hl ht hr
    refine ⟨s', s.tailq, hlo, ?_, hall⟩
    rw [getTailqMessageLoop_tailq hlo, List.append_nil]

/-! ### The entries outlast the call -/

/-- Twice the bytes of the entries made from the requests: an append skips fewer bytes than it
writes. -/
def queueSpan (tailq : List TailqEntry) : ℕ := (tailq.map fun n => 2 * n.entryLen).sum

theorem age_add {len a b x : ℕ} (ha : a ≤ len) (hx : x < len)
    (h : age len a x + gap len a b ≤ len) : age len b x = age len a x + gap len a b := by
  unfold gap age wrap at *
  split_ifs at * <;> omega

theorem Advances.trans {log'' : Log} {k k' : ℕ} (h : Advances k log log')
    (h' : Advances k' log' log'') (hend : log.endOff ≤ log.len) (hk : k + k' < log.len) :
    Advances (k + k') log log'' := by
  have hgap := h.gap_le
  have hgap' := h'.gap_le
  have hend'' := h'.end_le
  rw [h.len_eq] at hgap' hend''
  have hadd := gap_add hend h.end_le (c := log''.endOff) (by omega)
  constructor
  · exact h'.len_eq.trans h.len_eq
  · exact hend''
  · omega
  · intro x hx hage
    rw [hadd] at hage
    have hage' := age_of_gap_lt h.end_le hx (b := log''.endOff) (by omega)
    rw [h'.kept x (by rwa [h.len_eq]) (by rw [h.len_eq]; omega)]
    exact h.kept x hx (by omega)

theorem appendRequest_advances {idx : ℕ} (happend : appendRequest term log n = some (log', idx))
    (hend : log.endOff ≤ log.len) (hl : maxEntryLen ≤ log.len)
    (hs : 2 * n.entryLen < log.len) : Advances (2 * n.entryLen) log log' := by
  have hle : appendSpan log (.cmd n.type n.cmd) ≤ 2 * n.entryLen := by
    unfold appendSpan TailqEntry.entryLen
    split <;> omega
  have h := logAppendEntry_advances happend hend hl (by omega)
  exact ⟨h.len_eq, h.end_le, Nat.le_trans h.gap_le hle, h.kept⟩

/-- The request stands in the log as an entry at the offset. -/
def Recorded (term : ℕ) (log : Log) (n : TailqEntry) (off : ℕ) : Prop :=
  ∃ idx, EntryAt log.entries off idx term n.reqId.toNat n.connectionId.toNat n.type n.cmd

theorem AppendedAll.recorded (h : AppendedAll term log tailq log') (hend : log.endOff ≤ log.len)
    (hl : maxEntryLen ≤ log.len) (hs : queueSpan tailq < log.len) :
    Advances (queueSpan tailq) log log' ∧ ∃ offs, List.Forall₂ (Recorded term log') tailq offs := by
  induction h with
  | nil log => exact ⟨.refl hend _, [], .nil⟩
  | @cons log log₁ log₂ n idx tailq happend hidx hentry hrest ih =>
    rw [queueSpan, map_cons, sum_cons] at hs
    change _ + queueSpan tailq < _ at hs
    have hadv := appendRequest_advances happend hend hl (by omega)
    have hlen := hentry.len_eq
    obtain ⟨hadv', offs, ho⟩ := ih (hlen ▸ hadv.end_le) (hlen ▸ hl) (by omega)
    refine ⟨hadv.trans hadv' hend hs, log₁.tail :: offs, .cons ⟨idx, ?_⟩ ho⟩
    -- the bytes of the entry are young, so the later appends do not come round to them
    have hend₁ : log₁.endOff = log₁.tail + n.entryLen := hentry.end_eq
    have hle₁ := hadv.end_le
    have hpos : 48 ≤ n.entryLen := sizeofEntry_le_len (.cmd n.type n.cmd)
    refine hentry.entry.congr fun x hx hx' => ?_
    change x < log₁.tail + n.entryLen at hx'
    have hy : age log₁.len log₁.endOff x ≤ n.entryLen := by
      rw [hlen]
      unfold age wrap
      split_ifs <;> omega
    have hgap := hadv'.gap_le
    have hage := @age_add log₁.len log₁.endOff log₂.endOff x (by omega) (by omega) (by omega)
    have hold := @age_pos log₁.len log₁.endOff x (by omega) (by omega)
    exact hadv'.kept x (by omega) (by omega)

/-- No request is lost if and only if no append is refused. The entries are then all in the log
when the call returns, unless the queue is so long that it overruns itself. -/
theorem getTailqMessage_keeps_requests (term : ℕ) (s : Intake) (hend : s.log.endOff ≤ s.log.len)
    (hlarge : maxEntryLen ≤ s.log.len) :
    (NoneLost term s ↔ (s.tailq = [] ∨ (logGetTail s.log).isSome) ∧
      Room s.log.head s.log.len s.log.endOff (s.tailq.map (·.entryLen))) ∧
    (NoneLost term s → queueSpan s.tailq < s.log.len → ∃ s' offs, getTailqMessage term s = some s' ∧
        List.Forall₂ (Recorded term s'.log) s.tailq offs) := by
  refine ⟨noneLost_iff term s hlarge, ?_⟩
  rintro ⟨s', removed, hrun, hsplit, hall⟩ hspan
  rw [getTailqMessageLoop_tailq hrun, List.append_nil] at hsplit
  subst hsplit
  obtain ⟨-, offs, hoffs⟩ := hall.recorded hend hlarge hspan
  exact ⟨s', offs, hrun, hoffs⟩

/-- Three requests for a log of 2 MB whose end is 100 bytes in front of that of its buffer. -/
def wrappingIntake : Intake :=
  ⟨{ logNew (2 ^ 21) with head := 4096, endOff := 2 ^ 21 - 100, tail := 2 ^ 21 - 148 }, 0,
    [⟨MIRROR, MIRROR_CONNECTION, 1, tailqCmd [1, 2, 3, 4, 5]⟩,
      ⟨MIRROR, MIRROR_CONNECTION, 2, tailqCmd [6, 7, 8]⟩,
      ⟨CHECKPOINT, CHECKPOINT_CTRL_CONNECTION, 3, tailqCmd []⟩]⟩

/-- The first request fits in behind the end, the others follow at the front of the buffer. -/
theorem getTailqMessage_keeps_wrapping_requests :
    NoneLost 1 wrappingIntake ∧
      ∃ s' offs, getTailqMessage 1 wrappingIntake = some s' ∧
        List.Forall₂ (Recorded 1 s'.log) wrappingIntake.tailq offs := by
  obtain ⟨hiff, hrecorded⟩ :=
    getTailqMessage_keeps_requests 1 wrappingIntake (by decide) (by decide)
  have hkept : NoneLost 1 wrappingIntake :=
    hiff.mpr ⟨.inr rfl, by decide, by decide, by decide, trivial⟩
  exact ⟨hkept, hrecorded hkept (by decide)⟩

/-- A request that meets a full log leaves the queue and nothing is appended. -/
theorem getTailqMessage_of_full_log :
    let log : Log := { logNew (2 ^ 21) with head := 48, endOff := 48, tail := 0 }
    let n3 : TailqEntry := ⟨CHECKPOINT, CHECKPOINT_CTRL_CONNECTION, 1, tailqCmd []⟩
    getTailqMessage 1 ⟨log, 7, [n3]⟩ = some ⟨log, 0, []⟩ ∧ ¬ NoneLost 1 ⟨log, 7, [n3]⟩ := by
  refine ⟨rfl, ?_⟩
  rw [noneLost_iff _ _ (by decide)]
  rintro ⟨-, hroom, -⟩
  exact hroom (.inl rfl)

/-! ### The backup's action -/

section Apply

variable {follower : Log} {idx : ℕ}

/-- The entry between the two ends stands on the follower as on the leader and is the next one to
apply: the follower's apply offset is where the leader's end was, its commit offset has passed the
entry. -/
structure NextToApply (log log' follower : Log) : Prop where
  len_eq : follower.len = log.len
  same : ∀ x < log.len, OnArc log.len log.endOff log'.endOff x →
    follower.entries x = log'.entries x
  apply_eq : follower.apply = log.endOff ∨ log.endOff = log.len ∧ follower.apply = 0
  apply_lt : logIsOffsetLarger follower log'.endOff follower.apply
  committed : ¬ logIsOffsetLarger follower log'.endOff follower.commit

def TailqEntry.action (n : TailqEntry) : Action :=
  ⟨n.connectionId.toNat, n.type.code, n.cmd.cmd.length, n.cmd.cmd⟩

theorem entryAction_of_entryAt {off : ℕ}
    (h : EntryAt log.entries off idx term n.reqId.toNat n.connectionId.toNat n.type n.cmd) :
    entryAction log off = n.action := by
  have hclt : entryCltId log off = n.connectionId.toNat :=
    h.cltId_eq.trans (Nat.mod_eq_of_lt n.connectionId.toNat_lt)
  have hlen : entryCmdLen log off = n.cmd.cmd.length := h.len_eq
  have hcmd : entryCmd log off = n.cmd.cmd := by
    unfold entryCmd
    rw [hlen]
    exact h.cmd_eq
  unfold entryAction TailqEntry.action
  rw [hclt, hlen, hcmd]
  exact congrArg (Action.mk _ · _ _) h.type_eq

theorem logGetEntry_of_behind {c a : ℕ} (h : logIsOffsetLarger log c a) :
    logGetEntry log a = some (if logFitEntryHeader log a then a else 0) := by
  have hd : logOffsetEndDistance log c < logOffsetEndDistance log a := of_decide_eq_true h
  have hempty : ¬ isLogEmpty log = true := by
    intro hempty
    simp [logOffsetEndDistance, hempty] at hd
  unfold logGetEntry
  rw [if_neg hempty, if_neg (by omega)]
  split <;> rfl

theorem applyStep_of_entryAt {off : ℕ} (hb : logIsOffsetLarger log log.commit log.apply)
    (hoff : off = if logFitEntryHeader log log.apply then log.apply else 0)
    (hentry : EntryAt log.entries off idx term n.reqId.toNat n.connectionId.toNat n.type n.cmd)
    (hfit : n.entryLen ≤ log.len - off) :
    applyStep log = some ({ log with apply := off + n.entryLen }, [n.action]) := by
  have hlen : logEntryLen log off = n.entryLen := hentry.logEntryLen_eq
  have ht : entryType log off = n.type.code := hentry.type_eq
  have hs := n.type.not_special
  unfold applyStep
  rw [if_pos hb, logGetEntry_of_behind hb, ← hoff, map_some, logFitEntry, hlen,
    if_pos (decide_eq_true hfit), ht, if_neg (by omega), entryAction_of_entryAt hentry]

theorem applyStep_of_stub (hb : logIsOffsetLarger log log.commit log.apply)
    (hh : sizeofEntry ≤ log.len - log.apply)
    (hs : log.len - log.apply < logEntryLen log log.apply) :
    applyStep log = some ({ log with apply := 0 }, []) := by
  have hn : ¬ logFitEntry log log.apply log.apply = true := by
    intro hfit
    have := of_decide_eq_true hfit
    omega
  unfold applyStep
  rw [if_pos hb, logGetEntry_of_behind hb, if_pos (logFitEntryHeader_iff.mpr hh),
    map_some, if_neg hn]

theorem NextToApply.dist (h : NextToApply log log' follower) :
    logOffsetEndDistance follower follower.commit ≤ logOffsetEndDistance follower log'.endOff ∧
      logOffsetEndDistance follower log'.endOff < logOffsetEndDistance follower follower.apply :=
  ⟨Nat.not_lt.mp fun hlt => h.committed (decide_eq_true hlt), of_decide_eq_true h.apply_lt⟩

theorem NextToApply.behind (h : NextToApply log log' follower) :
    logIsOffsetLarger follower follower.commit follower.apply := by
  have hd := h.dist
  exact decide_eq_true (by omega)

theorem NextToApply.behind_zero (h : NextToApply log log' follower)
    (hend : log.endOff ≤ log.len) (ha : follower.apply = log.endOff)
    (hpos : 0 < log'.endOff) (hb : log'.endOff < log.endOff) :
    logIsOffsetLarger follower follower.commit 0 := by
  obtain ⟨hle, hlt⟩ := h.dist
  have hz : logOffsetEndDistance follower log'.endOff < logOffsetEndDistance follower 0 := by
    rw [ha] at hlt
    have hlen := h.len_eq
    unfold logOffsetEndDistance at hlt ⊢
    split_ifs at hlt ⊢ <;> omega
  exact decide_eq_true (Nat.lt_of_le_of_lt hle hz)

theorem NextToApply.logEntryLen_stub (h : NextToApply log log' follower)
    (hh : sizeofEntry ≤ log.len - log.endOff) (hb : log'.endOff < log.endOff) :
    logEntryLen follower log.endOff = logEntryLen log' log.endOff := by
  simp only [sizeofEntry] at hh
  have hs : ∀ x, log.endOff ≤ x → x < log.endOff + 48 →
      follower.entries x = log'.entries x := by
    intro x hx hx'
    refine h.same x (by omega) ?_
    rw [OnArc, if_neg (by omega)]
    exact .inl ⟨hx, by omega⟩
  have ht : entryType follower log.endOff = entryType log' log.endOff :=
    Memory.load_congr fun x hx hx' => hs x (by omega) (by omega)
  have hlen : follower.entries.load 2 (log.endOff + 32) = log'.entries.load 2 (log.endOff + 32) :=
    Memory.load_congr fun x hx hx' => hs x (by omega) (by omega)
  unfold logEntryLen
  rw [ht, hlen]

theorem NextToApply.entryAt (h : NextToApply log log' follower)
    (ha : Appended term log n log' idx) (hend : log.endOff ≤ log.len)
    (hl : 2 * maxEntryLen ≤ log.len) :
    EntryAt follower.entries log'.tail idx term n.reqId.toNat n.connectionId.toNat n.type
      n.cmd := by
  have hmax : n.entryLen ≤ maxEntryLen := len_le_maxEntryLen _
  have ht : log'.tail = entryStart log.len log.endOff n.entryLen := ha.tail_eq
  have hend' : log'.endOff = log'.tail + n.entryLen := ha.end_eq
  refine ha.entry.congr fun x hx hx' => ?_
  change x < log'.tail + n.entryLen at hx'
  unfold entryStart at ht
  split at ht
  · refine h.same x (by omega) ?_
    rw [OnArc, if_pos (by omega)]
    omega
  · refine h.same x (by omega) ?_
    rw [OnArc, if_neg (by omega)]
    exact .inr (by omega)

theorem head_applyCommittedEntries (h : NextToApply log log' follower)
    (hap : Appended term log n log' idx) (hend : log.endOff ≤ log.len)
    (hl : 2 * maxEntryLen ≤ log.len) {fuel : ℕ} :
    (applyCommittedEntries (fuel + 2) follower).2.head? = some n.action := by
  have hmax : n.entryLen ≤ maxEntryLen := len_le_maxEntryLen _
  have hmin : 48 ≤ n.entryLen := sizeofEntry_le_len (.cmd n.type n.cmd)
  have ht : log'.tail = entryStart log.len log.endOff n.entryLen := hap.tail_eq
  have hend' : log'.endOff = log'.tail + n.entryLen := hap.end_eq
  have hentry := h.entryAt hap hend hl
  have hlen := h.len_eq
  unfold entryStart at ht
  by_cases hr : n.entryLen ≤ log.len - log.endOff
  · rw [if_pos hr] at ht
    have ha : follower.apply = log.endOff := h.apply_eq.resolve_right (by omega)
    have hs := applyStep_of_entryAt h.behind (by
      rw [if_pos (logFitEntryHeader_iff.mpr (by rw [sizeofEntry]; omega)), ha, ht])
      hentry (by omega)
    rw [applyCommittedEntries, hs]
    rfl
  · rw [if_neg hr] at ht
    by_cases hh : sizeofEntry ≤ log.len - log.endOff
    · have ha : follower.apply = log.endOff := h.apply_eq.resolve_right (by
        rw [sizeofEntry] at hh
        omega)
      have hst : logEntryLen follower log.endOff = n.entryLen :=
        (h.logEntryLen_stub hh (by omega)).trans
          (hap.stub hh (by change n.entryLen ≤ _; omega))
      have hs := applyStep_of_stub h.behind (by rwa [ha, hlen]) (by
        rw [ha, hst]
        omega)
      have hs' := @applyStep_of_entryAt term { follower with apply := 0 } n idx log'.tail
        (h.behind_zero hend ha (by omega) (by omega)) (by simp [ht]) hentry (by
          change _ ≤ follower.len - _
          omega)
      rw [applyCommittedEntries, hs]
      simp only [applyCommittedEntries, hs']
      rfl
    · have hz : log'.tail = if logFitEntryHeader follower follower.apply then follower.apply
          else 0 := by
        rcases h.apply_eq with ha | ⟨-, ha⟩
        · rw [if_neg (by rwa [logFitEntryHeader_iff, ha, hlen]), ht]
        · rw [ha, ite_self, ht]
      have hs := applyStep_of_entryAt h.behind hz hentry (by omega)
      rw [applyCommittedEntries, hs]
      rfl

/-- A submitted request that was appended reaches the action of the backup with its length and
data if and only if its size fits in the 16 bits of the queue's length. -/
theorem submitted_data_reaches_action {proxy proxy' : Proxy} {buf : List UInt8} {type : CmdType}
    {curRec : ℕ} (hsubmit : leaderHandleSubmitReq proxy buf type = some (proxy', curRec))
    (hqueued : proxy'.tailq = proxy.tailq ++ [n])
    (happend : appendRequest term log n = some (log', idx)) (hidx : idx ≠ 0)
    (hend : log.endOff ≤ log.len) (hlarge : 2 * maxEntryLen ≤ log.len)
    (hnext : NextToApply log log' follower) (fuel : ℕ) :
    (∃ action, (applyCommittedEntries (fuel + 2) follower).2.head? = some action ∧
      action.len = buf.length ∧ action.cmd = buf) ↔ buf.length < 2 ^ 16 := by
  have hcmd : n.cmd = tailqCmd buf := by
    unfold leaderHandleSubmitReq at hsubmit
    split at hsubmit
    · cases hsubmit
      have hsingle := append_cancel_left hqueued
      exact (congrArg TailqEntry.cmd (List.cons.inj hsingle).1).symm
    · cases hsubmit
  have happended : Appended term log n log' idx := by
    cases htail : logGetTail log with
    | none =>
      rw [appendRequest_none htail] at happend
      cases happend
    | some tail =>
      obtain ⟨_, _, happend', hcases⟩ := appendRequest_some term n htail (by omega)
      cases happend.symm.trans happend'
      exact (hcases.resolve_left fun h => hidx h.2).2.2
  rw [head_applyCommittedEntries hnext happended hend hlarge]
  have hlen : n.cmd.cmd.length = buf.length % 2 ^ 16 := by
    rw [hcmd]
    simp only [tailqCmd, length_take]
    exact Nat.min_eq_left (Nat.mod_le _ _)
  constructor
  · rintro ⟨action, haction, hsize, -⟩
    obtain rfl := Option.some.inj haction
    have : n.cmd.cmd.length = buf.length := hsize
    rw [← this]
    exact n.cmd.length_lt
  · intro hsize
    rw [Nat.mod_eq_of_lt hsize] at hlen
    refine ⟨_, rfl, hlen, ?_⟩
    change n.cmd.cmd = buf
    rw [hcmd]
    simp only [tailqCmd]
    rw [Nat.mod_eq_of_lt hsize, take_length]

/-- The follower of a leader that appended the first request, with the entry committed. -/
def firstFollower (log' : Log) : Log := { log' with apply := 0, commit := log'.endOff }

theorem first_request (n : TailqEntry) :
    ∃ log' idx, appendRequest 1 (logNew (2 ^ 21)) n = some (log', idx) ∧ idx ≠ 0 ∧
      Appended 1 (logNew (2 ^ 21)) n log' idx ∧
      NextToApply (logNew (2 ^ 21)) log' (firstFollower log') := by
  have hmax : n.entryLen ≤ maxEntryLen := len_le_maxEntryLen _
  have hmin : 48 ≤ n.entryLen := sizeofEntry_le_len (.cmd n.type n.cmd)
  obtain ⟨log', idx, happend, hc⟩ :=
    @appendRequest_some (logNew (2 ^ 21)) 1 n _ rfl (by decide)
  have hf : ¬ Refuses 0 (2 ^ 21) (2 ^ 21) n.entryLen := by
    unfold Refuses sizeofEntry
    omega
  obtain ⟨-, hidx, ha⟩ := hc.resolve_left fun h => hf h.1
  refine ⟨log', idx, happend, hidx, ha, ha.len_eq, fun _ _ _ => rfl, .inr ⟨rfl, rfl⟩, ?_, ?_⟩
  · have hlen : log'.len = 2 ^ 21 := ha.len_eq
    have hend : log'.endOff = n.entryLen := by
      have ht : log'.tail = 0 :=
        ha.tail_eq.trans (if_neg (by change ¬ n.entryLen ≤ _; simp [logNew]; omega))
      rw [ha.end_eq, ht, Nat.zero_add]
      rfl
    have hm : maxEntryLen = 65583 := by decide
    refine decide_eq_true ?_
    simp only [logOffsetEndDistance, firstFollower, isLogEmpty, hlen, hend, beq_iff_eq]
    split_ifs <;> omega
  · simp [logIsOffsetLarger, firstFollower]

/-- Three bytes submitted to a fresh log reach the action. -/
theorem three_bytes_reach_action : ∃ log' idx, appendRequest 1 (logNew (2 ^ 21))
        ⟨MIRROR, MIRROR_CONNECTION, 1, tailqCmd [1, 2, 3]⟩ = some (log', idx) ∧
      ∃ action, (applyCommittedEntries 2 (firstFollower log')).2.head? = some action ∧
        action.len = 3 ∧ action.cmd = [1, 2, 3] := by
  obtain ⟨log', idx, happend, hidx, -, hnext⟩ :=
    first_request ⟨MIRROR, MIRROR_CONNECTION, 1, tailqCmd [1, 2, 3]⟩
  have hsubmit : leaderHandleSubmitReq ⟨0, 0, 0, []⟩ [1, 2, 3] MIRROR =
      some (⟨1, 0, 1, [⟨MIRROR, MIRROR_CONNECTION, 1, tailqCmd [1, 2, 3]⟩]⟩, 1) := rfl
  refine ⟨log', idx, happend, ?_⟩
  exact (submitted_data_reaches_action hsubmit rfl happend hidx (by decide) (by decide) hnext
    0).mpr (by decide)

/-- Of 65536 submitted bytes none reaches the action. -/
theorem large_request_is_truncated : let n : TailqEntry :=
      ⟨MIRROR, MIRROR_CONNECTION, 1, tailqCmd (replicate 65536 1)⟩
    leaderHandleSubmitReq ⟨0, 0, 0, []⟩ (replicate 65536 1) MIRROR =
      some (⟨1, 0, 1, [n]⟩, 1) ∧
    ∃ log' idx, appendRequest 1 (logNew (2 ^ 21)) n = some (log', idx) ∧ idx ≠ 0 ∧
      NextToApply (logNew (2 ^ 21)) log' (firstFollower log') ∧
      ∀ fuel, (applyCommittedEntries (fuel + 2) (firstFollower log')).2.head? =
        some ⟨13, 7, 0, []⟩ := by
  intro n
  constructor
  · unfold leaderHandleSubmitReq
    rw [if_pos (by rw [length_replicate]; decide)]
    rfl
  · obtain ⟨log', idx, happend, hidx, happended, hnext⟩ := first_request n
    refine ⟨log', idx, happend, hidx, hnext, fun fuel => ?_⟩
    rw [head_applyCommittedEntries hnext happended (by decide) (by decide)]
    have hcmd : n.cmd.cmd = [] := by
      simp only [n, tailqCmd, length_replicate]
      exact take_zero
    unfold TailqEntry.action
    rw [hcmd]
    rfl

end Apply

end VmFt.Dare.Ring
