import Mathlib.Data.List.Perm.Basic
import VmFt.Dare.Pipeline

/-! # The invariant of the replication pipeline

A request is counted as pending until its completion is handled; the invariant
says, step by step, what the pending requests can still do and what their
success means. A step that leaves the pipeline where it stands keeps it.
-/

namespace VmFt.Dare.Ring

open VmFt.System List Option

variable (i : ℕ)

/-- The requests the pipeline waits for: posted, completed, or still to be posted. -/
def pending (s : State) : ℕ :=
  s.sendQueue.countP (fun w => isNext i s.server w.id) +
    s.compQueue.countP (fun c => isNext i s.server c.1) + s.second.toList.length

def Succeeded (s : State) : Prop := ∃ c ∈ s.compQueue, isNext i s.server c.1 ∧ c.2 = .success

/-- The bytes of the leader's log the server is not known to have. -/
def unsent (s : State) : ℕ := gap s.leader.len s.offsetsEnd s.leader.endOff

/-- The byte at `x` lies between the adjusted end and the recorded end offset, and the leader's
log has not come round to it since. -/
def Replicated (s : State) (x : ℕ) : Prop :=
  x < s.leader.len ∧ unsent s < age s.leader.len s.leader.endOff x ∧
    age s.leader.len s.leader.endOff x ≤ s.history.travelled

instance (s : State) (x : ℕ) : Decidable (Replicated s x) :=
  inferInstanceAs (Decidable (_ ∧ _))

/-- Server `i` holds the leader's bytes from the adjusted end up to the offset `e`. -/
structure Progress (s : State) (e : ℕ) : Prop where
  le_len : e ≤ s.leader.len
  adjusted_le : s.history.adjustedEnd ≤ s.leader.len
  le_travelled : gap s.leader.len e s.leader.endOff ≤ s.history.travelled
  on_the_way : s.history.travelled < s.leader.len →
    gap s.leader.len s.history.adjustedEnd e + gap s.leader.len e s.leader.endOff =
      s.history.travelled
  full_circle : e = s.leader.len → s.history.adjustedEnd = s.leader.len
  bytes : ∀ x < s.leader.len, gap s.leader.len e s.leader.endOff <
      age s.leader.len s.leader.endOff x →
    age s.leader.len s.leader.endOff x ≤ s.history.travelled →
    s.follower.entries x = s.leader.entries x

structure Wired (s : State) : Prop where
  next_eq : ∃ k ≤ s.ssn, s.server.nextWrId = ⟨k, i, false, false⟩
  send_le : ∀ w ∈ s.sendQueue, w.id.ssn ≤ s.ssn
  comp_le : ∀ c ∈ s.compQueue, c.1.ssn ≤ s.ssn
  idle : s.server.sendFlag = true → pending i s = 0
  second : s.second ≠ none →
    s.server.nextWrId = ⟨s.ssn, i, false, false⟩ ∧ s.server.nextLrStep = .updateLog
  aside : ∀ w ∈ s.sendQueue, isNext i s.server w.id = false →
    w.op = .other ∨ isAdjusting s.server.nextLrStep = false ∧ ∃ c, w.op = .writeCommit c

/-- One request at most is pending; it does `op`, and its success means `done`. -/
structure Awaits (s : State) (op : Op) (done : Prop) : Prop where
  pending_le : pending i s ≤ 1
  op_eq : ∀ w ∈ s.sendQueue, isNext i s.server w.id → w.op = op
  done : Succeeded i s → done

/-- The server has not been written to since it filled its NC buffer. -/
structure Untouched (s : State) : Prop where
  commit_lt : s.follower.commit < s.follower.len
  filled : logEntriesToNcBuf s.follower = some s.published
  ack : s.voteAck = s.leader.len ∨ s.voteAck = s.follower.commit

structure Writing (s : State) : Prop where
  cached_lt : s.server.cachedEndOffset < s.leader.len
  between : gap s.leader.len s.offsetsEnd s.server.cachedEndOffset +
    gap s.leader.len s.server.cachedEndOffset s.leader.endOff = unsent s
  pending_le : pending i s ≤ max 1 s.server.sendCount
  count_le : s.server.sendCount ≤ 2
  op_eq : ∀ w ∈ s.sendQueue, isNext i s.server w.id → ∃ a n, w.op = .writeLog a n
  covered : 1 ≤ s.server.sendCount → pending i s = s.server.sendCount →
    (∀ c ∈ s.compQueue, isNext i s.server c.1 → c.2 = .success) →
    ∀ x < s.leader.len, gap s.leader.len s.server.cachedEndOffset s.leader.endOff <
        age s.leader.len s.leader.endOff x →
      age s.leader.len s.leader.endOff x ≤ unsent s →
      s.follower.entries x = s.leader.entries x ∨ (∃ n, s.second = some n ∧ x < n) ∨
        ∃ w ∈ s.sendQueue, isNext i s.server w.id ∧
          ∃ a n, w.op = .writeLog a n ∧ a ≤ x ∧ x < a + n

/-- The end offset of server `i` is the recorded one; an empty log keeps its mark until the
first update. -/
def EndKnown (s : State) : Prop :=
  s.follower.endOff = s.offsetsEnd ∨
    s.history.updated = false ∧ s.ncBuf.len = 0 ∧ s.follower.endOff = s.follower.len

def AtStep (s : State) : LrStep → Prop
  | .getWrite => Untouched s ∧ s.server.sendFlag = true
  | .getNceLen =>
    (Untouched s ∧ s.offsetsCommit = s.follower.commit) ∧
      Awaits i s .readNcLen (s.ncBuf.len = s.published.len)
  | .getNce =>
    (Untouched s ∧ s.offsetsCommit = s.follower.commit) ∧ s.ncBuf.len = s.published.len ∧
      Awaits i s (.readNc s.ncBuf.len) (∀ d ∈ s.ncBuf.entries, d.offset ≤ s.leader.len)
  | .setEnd =>
    (∀ d ∈ s.ncBuf.entries, d.offset ≤ s.leader.len) ∧
      (s.server.sendFlag = false → s.offsetsEnd ≤ s.leader.len) ∧
      Awaits i s (.writeEnd s.offsetsEnd) (s.follower.endOff = s.offsetsEnd)
  | .updateLog =>
    Progress s s.offsetsEnd ∧ EndKnown s ∧ (s.server.sendFlag = false → Writing i s)
  | .updateEnd =>
    Progress s s.server.cachedEndOffset ∧ s.server.cachedEndOffset < s.leader.len ∧
      s.offsetsEnd ≤ s.leader.len ∧
      gap s.leader.len s.server.cachedEndOffset s.leader.endOff ≤ unsent s ∧
      (s.server.sendFlag = false → s.offsetsEnd = s.server.cachedEndOffset) ∧
      Awaits i s (.writeEnd s.offsetsEnd) (s.follower.endOff = s.offsetsEnd)

structure Inv (s : State) : Prop where
  len_eq : s.follower.len = s.leader.len
  large : 2 * maxEntryLen ≤ s.leader.len
  end_le : s.leader.endOff ≤ s.leader.len
  wired : Wired i s
  atStep : AtStep i s s.server.nextLrStep

/-- The conditions on a step: no append of the leader comes round to bytes the server does not
have yet, the server appends nothing to its own log, and its NC buffer does not overflow. -/
def Clean (s : State) : Event → Prop
  | .append _ _ _ body =>
    isAdjusting s.server.nextLrStep = false → unsent s + appendSpan s.leader body < s.leader.len
  | .tailqAppend _ _ _ _ => False
  | .serverToFollower =>
    (logEntriesToNcBuf s.follower).all (fun buf => buf.len ≤ maxNcEntries) = true
  | _ => True

instance (s : State) (e : Event) : Decidable (Clean s e) := by
  unfold Clean
  cases e <;> infer_instance

/-! ### Pending requests -/

section Pending

variable {i} {s t : State} {server : Server} {id : WrId} {op : Op} {done : Prop}

theorem isNext_iff :
    isNext i server id = true ↔ id.conn = i ∧ id.unsetTag.unsetWa = server.nextWrId := by
  simp [isNext]

theorem isNext_congr {server' : Server} (h : server'.nextWrId = server.nextWrId) :
    isNext i server' = isNext i server := by
  funext id
  simp [isNext, h]

theorem isNext_of_ssn_ne {k : ℕ} (hn : server.nextWrId = ⟨k, i, false, false⟩)
    (h : id.ssn ≠ k) : isNext i server id = false :=
  eq_false_of_ne_true fun hyes =>
    h (congrArg WrId.ssn ((isNext_iff.mp hyes).2.trans hn))

theorem pending_pos_of_send {w : WorkRequest} (hw : w ∈ s.sendQueue)
    (hn : isNext i s.server w.id = true) : 0 < pending i s := by
  have hpos : 0 < s.sendQueue.countP (fun w => isNext i s.server w.id) :=
    countP_pos_iff.mpr ⟨w, hw, hn⟩
  unfold pending
  omega

theorem pending_pos_of_comp {c : WrId × WcRc} (hc : c ∈ s.compQueue)
    (hn : isNext i s.server c.1 = true) : 0 < pending i s := by
  have hpos : 0 < s.compQueue.countP (fun c => isNext i s.server c.1) :=
    countP_pos_iff.mpr ⟨c, hc, hn⟩
  unfold pending
  omega

theorem second_of_pending_zero (hz : pending i s = 0) : s.second = none := by
  unfold pending at hz
  cases hs : s.second with
  | none => rfl
  | some n =>
    rw [hs] at hz
    simp at hz

theorem awaits_of_pending_zero (hz : pending i t = 0) : Awaits i t op done where
  pending_le := by omega
  op_eq := fun _ hw hn => absurd hz (Nat.ne_of_gt (pending_pos_of_send hw hn))
  done := fun ⟨_, hc, hn, _⟩ => absurd hz (Nat.ne_of_gt (pending_pos_of_comp hc hn))

namespace Wired

theorem flag_of_pending (h : Wired i s) (hp : 0 < pending i s) : s.server.sendFlag = false :=
  eq_false_of_ne_true fun hf => absurd (h.idle hf) (Nat.ne_of_gt hp)

theorem second_of_idle (h : Wired i s) (hf : s.server.sendFlag = true) : s.second = none :=
  second_of_pending_zero (h.idle hf)

theorem aside_of_idle (h : Wired i s) (hf : s.server.sendFlag = true) {w : WorkRequest}
    (hw : w ∈ s.sendQueue) :
    w.op = .other ∨ isAdjusting s.server.nextLrStep = false ∧ ∃ c, w.op = .writeCommit c :=
  h.aside w hw (eq_false_of_ne_true fun hn =>
    absurd (h.idle hf) (Nat.ne_of_gt (pending_pos_of_send hw hn)))

/-- The pipeline waits for the same request; requests are over or posted. -/
theorem change (h : Wired i s) (hn : t.server.nextWrId = s.server.nextWrId) (hssn : s.ssn ≤ t.ssn)
    (hadj : isAdjusting s.server.nextLrStep = false → isAdjusting t.server.nextLrStep = false)
    (hsend : ∀ w ∈ t.sendQueue, w ∈ s.sendQueue ∨ w.id.ssn ≤ t.ssn ∧
      (isNext i s.server w.id = false →
        w.op = .other ∨ isAdjusting s.server.nextLrStep = false ∧ ∃ c, w.op = .writeCommit c))
    (hcomp : ∀ c ∈ t.compQueue, c ∈ s.compQueue ∨ c.1.ssn ≤ t.ssn)
    (hidle : t.server.sendFlag = true → pending i t = 0)
    (hs : t.second ≠ none →
      s.second ≠ none ∧ t.ssn = s.ssn ∧ t.server.nextLrStep = s.server.nextLrStep) :
    Wired i t where
  next_eq := by
    obtain ⟨k, hk, heq⟩ := h.next_eq
    exact ⟨k, Nat.le_trans hk hssn, hn.trans heq⟩
  send_le := fun w hw =>
    (hsend w hw).elim (fun hold => Nat.le_trans (h.send_le w hold) hssn) And.left
  comp_le := fun c hc => (hcomp c hc).elim (fun hold => Nat.le_trans (h.comp_le c hold) hssn) id
  idle := hidle
  second := by
    intro hyes
    obtain ⟨hsec, hssn', hst⟩ := hs hyes
    rw [hn, hssn', hst]
    exact h.second hsec
  aside := by
    intro w hw hnot
    rw [isNext_congr hn] at hnot
    have ha := (hsend w hw).elim (fun hold => h.aside w hold hnot) fun hnew => hnew.2 hnot
    exact ha.imp_right fun ⟨hst, hop⟩ => ⟨hadj hst, hop⟩

theorem mono (h : Wired i s) (hssn : s.ssn ≤ t.ssn)
    (hn : t.server.nextWrId = s.server.nextWrId) (hse : t.sendQueue = s.sendQueue)
    (hco : t.compQueue = s.compQueue) (hs : t.second = s.second)
    (hf : t.server.sendFlag = true → s.server.sendFlag = true)
    (hadj : isAdjusting s.server.nextLrStep = false → isAdjusting t.server.nextLrStep = false)
    (hst : s.second ≠ none → t.ssn = s.ssn ∧ t.server.nextLrStep = s.server.nextLrStep) :
    Wired i t := by
  refine h.change hn hssn hadj (hse ▸ fun _ => Or.inl) (hco ▸ fun _ => Or.inl) (fun hyes => ?_)
    (fun hyes => ⟨hs ▸ hyes, hst (hs ▸ hyes)⟩)
  rw [pending, hse, hco, hs, isNext_congr hn]
  exact h.idle (hf hyes)

end Wired

end Pending

/-! ### The history -/

section History

variable {s t : State} {e : ℕ}

theorem observe_of_still
    (hs : t.server.nextLrStep = .updateLog → s.server.nextLrStep = .updateLog)
    (hend : t.leader.endOff = s.leader.endOff) (hh : t.history = s.history) :
    observe s t = t := by
  have hno : ¬ (isAdjusting s.server.nextLrStep = true ∧ t.server.nextLrStep = .updateLog) := by
    rintro ⟨hadj, hlog⟩
    rw [hs hlog] at hadj
    cases hadj
  have hno' : (s.server.nextLrStep == .updateEnd && t.server.nextLrStep == .updateLog) = false := by
    rw [Bool.eq_false_iff]
    intro hyes
    simp only [Bool.and_eq_true, beq_iff_eq] at hyes
    rw [hs hyes.2] at hyes
    cases hyes.1
  unfold observe
  rw [if_neg hno, hend, gap_self, hno', Bool.or_false, Nat.add_zero, ← hh]

theorem progress_start (he : t.offsetsEnd ≤ t.leader.len)
    (hh : t.history = ⟨t.offsetsEnd, gap t.leader.len t.offsetsEnd t.leader.endOff, false⟩) :
    Progress t t.offsetsEnd where
  le_len := he
  adjusted_le := by rw [hh]; exact he
  le_travelled := by rw [hh]
  on_the_way := by
    intro _
    rw [hh]
    simp [gap_self]
  full_circle := by
    intro hf
    rw [hh]
    exact hf
  bytes := by
    intro x hx hlt hle
    rw [hh] at hle
    simp only at hle
    omega

theorem Progress.congr (h : Progress s e) (hlen : t.leader.len = s.leader.len)
    (hend : t.leader.endOff = s.leader.endOff) (he : t.leader.entries = s.leader.entries)
    (ha : t.history.adjustedEnd = s.history.adjustedEnd)
    (ht : t.history.travelled = s.history.travelled)
    (hb : ∀ x, s.follower.entries x = s.leader.entries x →
      t.follower.entries x = s.leader.entries x) : Progress t e where
  le_len := by rw [hlen]; exact h.le_len
  adjusted_le := by rw [hlen, ha]; exact h.adjusted_le
  le_travelled := by rw [hlen, hend, ht]; exact h.le_travelled
  on_the_way := by rw [hlen, hend, ha, ht]; exact h.on_the_way
  full_circle := by rw [hlen, ha]; exact h.full_circle
  bytes := by
    rw [hlen, hend, ht, he]
    exact fun x hx hlt hle => hb x (h.bytes x hx hlt hle)

end History

/-! ### Steps that leave the pipeline where it stands -/

section Steady

variable {i} {s t : State} {op : Op} {done : Prop}

structure Steady (s t : State) : Prop where
  len_eq : t.leader.len = s.leader.len
  end_eq : t.leader.endOff = s.leader.endOff
  entries_eq : t.leader.entries = s.leader.entries
  follower_len_eq : t.follower.len = s.follower.len
  follower_end_eq : t.follower.endOff = s.follower.endOff
  ncBuf_eq : t.ncBuf = s.ncBuf
  offsetsEnd_eq : t.offsetsEnd = s.offsetsEnd
  history_eq : t.history = s.history
  cached_eq : t.server.cachedEndOffset = s.server.cachedEndOffset
  step_eq : t.server.nextLrStep = s.server.nextLrStep
  idle : s.server.sendFlag = true → t.server.sendFlag = true
  bytes : ∀ x, s.follower.entries x = s.leader.entries x →
    t.follower.entries x = s.leader.entries x
  untouched : isAdjusting s.server.nextLrStep = true → Untouched s →
    Untouched t ∧ t.published = s.published ∧
      (s.offsetsCommit = s.follower.commit → t.offsetsCommit = t.follower.commit)

namespace Steady

theorem flag (h : Steady s t) (hf : t.server.sendFlag = false) : s.server.sendFlag = false :=
  eq_false_of_ne_true fun hyes => absurd ((h.idle hyes).symm.trans hf) nofun

theorem progress (h : Steady s t) {e : ℕ} (hp : Progress s e) : Progress t e :=
  hp.congr h.len_eq h.end_eq h.entries_eq (by rw [h.history_eq]) (by rw [h.history_eq]) h.bytes

theorem unsent_eq (h : Steady s t) : unsent t = unsent s := by
  rw [unsent, h.len_eq, h.end_eq, h.offsetsEnd_eq]
  rfl

theorem endKnown (h : Steady s t) (he : EndKnown s) : EndKnown t := by
  unfold EndKnown
  rw [h.follower_end_eq, h.offsetsEnd_eq, h.history_eq, h.ncBuf_eq, h.follower_len_eq]
  exact he

/-- What is known of the step holds on if that of the pending requests does. -/
theorem atStep (h : Steady s t)
    (ha : ∀ op done, Awaits i s op done → Awaits i t op done)
    (hw : t.server.sendFlag = false → Writing i s → Writing i t)
    (hat : AtStep i s s.server.nextLrStep) : AtStep i t t.server.nextLrStep := by
  rw [h.step_eq]
  cases hs : s.server.nextLrStep with
  | getWrite =>
    rw [hs] at hat
    exact ⟨(h.untouched (by rw [hs]; rfl) hat.1).1, h.idle hat.2⟩
  | getNceLen =>
    rw [hs] at hat
    obtain ⟨⟨hun, hc⟩, hat⟩ := hat
    obtain ⟨hun', hpub, hc'⟩ := h.untouched (by rw [hs]; rfl) hun
    refine ⟨⟨hun', hc' hc⟩, ?_⟩
    rw [h.ncBuf_eq, hpub]
    exact ha _ _ hat
  | getNce =>
    rw [hs] at hat
    obtain ⟨⟨hun, hc⟩, hlen, hat⟩ := hat
    obtain ⟨hun', hpub, hc'⟩ := h.untouched (by rw [hs]; rfl) hun
    refine ⟨⟨hun', hc' hc⟩, ?_, ?_⟩
    · rw [h.ncBuf_eq, hpub]
      exact hlen
    · rw [h.ncBuf_eq, h.len_eq]
      exact ha _ _ hat
  | setEnd =>
    rw [hs] at hat
    obtain ⟨hd, hle, hat⟩ := hat
    refine ⟨?_, fun hf => ?_, ?_⟩
    · rw [h.ncBuf_eq, h.len_eq]
      exact hd
    · rw [h.offsetsEnd_eq, h.len_eq]
      exact hle (h.flag hf)
    · rw [h.offsetsEnd_eq, h.follower_end_eq]
      exact ha _ _ hat
  | updateLog =>
    rw [hs] at hat
    obtain ⟨hp, he, hwr⟩ := hat
    refine ⟨?_, h.endKnown he, fun hf => hw hf (hwr (h.flag hf))⟩
    rw [h.offsetsEnd_eq]
    exact h.progress hp
  | updateEnd =>
    rw [hs] at hat
    obtain ⟨hp, hlt, hle, hgap, hset, hat⟩ := hat
    rw [AtStep, h.cached_eq, h.len_eq, h.end_eq, h.unsent_eq, h.offsetsEnd_eq, h.follower_end_eq]
    exact ⟨h.progress hp, hlt, hle, hgap, fun hf => hset (h.flag hf), ha _ _ hat⟩

theorem inv (h : Steady s t) (hinv : Inv i s) (hwired : Wired i t)
    (ha : ∀ op done, Awaits i s op done → Awaits i t op done)
    (hw : t.server.sendFlag = false → Writing i s → Writing i t) : Inv i (observe s t) := by
  rw [observe_of_still (fun hlog => h.step_eq.symm.trans hlog) h.end_eq h.history_eq]
  exact {
    len_eq := by rw [h.follower_len_eq, h.len_eq, hinv.len_eq]
    large := by rw [h.len_eq]; exact hinv.large
    end_le := by rw [h.end_eq, h.len_eq]; exact hinv.end_le
    wired := hwired
    atStep := h.atStep ha hw hinv.atStep }

end Steady

/-- The pending requests are the same as well. -/
structure Alike (i : ℕ) (s t : State) : Prop extends Steady s t where
  follower_entries_eq : t.follower.entries = s.follower.entries
  next_eq : t.server.nextWrId = s.server.nextWrId
  count_eq : t.server.sendCount = s.server.sendCount
  second_eq : t.second = s.second
  pending_eq : pending i t = pending i s
  send_iff : ∀ w : WorkRequest, isNext i s.server w.id = true →
    (w ∈ t.sendQueue ↔ w ∈ s.sendQueue)
  comp_iff : ∀ c : WrId × WcRc, isNext i s.server c.1 = true →
    (c ∈ t.compQueue ↔ c ∈ s.compQueue)

namespace Alike

theorem isNext_eq (h : Alike i s t) : isNext i t.server = isNext i s.server :=
  isNext_congr h.next_eq

theorem awaits (h : Alike i s t) (ha : Awaits i s op done) : Awaits i t op done where
  pending_le := by rw [h.pending_eq]; exact ha.pending_le
  op_eq := by
    intro w hw hn
    rw [h.isNext_eq] at hn
    exact ha.op_eq w ((h.send_iff w hn).mp hw) hn
  done := by
    rintro ⟨c, hc, hn, hok⟩
    rw [h.isNext_eq] at hn
    exact ha.done ⟨c, (h.comp_iff c hn).mp hc, hn, hok⟩

theorem writing (h : Alike i s t) (hw : Writing i s) : Writing i t where
  cached_lt := by rw [h.cached_eq, h.len_eq]; exact hw.cached_lt
  between := by
    rw [h.unsent_eq, h.cached_eq, h.len_eq, h.end_eq, h.offsetsEnd_eq]
    exact hw.between
  pending_le := by rw [h.pending_eq, h.count_eq]; exact hw.pending_le
  count_le := by rw [h.count_eq]; exact hw.count_le
  op_eq := by
    intro w hmem hn
    rw [h.isNext_eq] at hn
    exact hw.op_eq w ((h.send_iff w hn).mp hmem) hn
  covered := by
    rw [h.count_eq, h.pending_eq, h.isNext_eq, h.unsent_eq, h.cached_eq, h.len_eq, h.end_eq,
      h.entries_eq, h.follower_entries_eq, h.second_eq]
    intro hone hall hok x hx hlt hle
    have hok' : ∀ c ∈ s.compQueue, isNext i s.server c.1 = true → c.2 = .success :=
      fun c hc hn => hok c ((h.comp_iff c hn).mpr hc) hn
    rcases hw.covered hone hall hok' x hx hlt hle with heq | hsec | ⟨w, hmem, hn, hr⟩
    · exact Or.inl heq
    · exact Or.inr (Or.inl hsec)
    · exact Or.inr (Or.inr ⟨w, (h.send_iff w hn).mpr hmem, hn, hr⟩)

theorem inv (h : Alike i s t) (hinv : Inv i s) (hw : Wired i t) : Inv i (observe s t) :=
  h.toSteady.inv hinv hw (fun _ _ => h.awaits) fun _ => h.writing

end Alike

/-- The leader's other offsets, the count of failures, the connection, the vote ACK and the NC
buffer of the server do not concern the pipeline. -/
theorem inv_of_other (h : Inv i s) (head commit voteAck failCount : ℕ) (up : Bool) (buf : NcBuf)
    (hack : voteAck = s.voteAck ∨ voteAck = s.follower.commit)
    (hbuf : buf = s.published ∨ logEntriesToNcBuf s.follower = some buf) :
    Inv i (observe s
      { s with
        leader := { s.leader with head := head, commit := commit }, voteAck := voteAck
        server := { s.server with failCount := failCount, rcConnected := up }
        published := buf }) := by
  refine Alike.inv ⟨⟨rfl, rfl, rfl, rfl, rfl, rfl, rfl, rfl, rfl, rfl, id, fun _ => id, ?_⟩, rfl,
    rfl, rfl, rfl, rfl, fun _ _ => Iff.rfl, fun _ _ => Iff.rfl⟩ h ?_
  · intro _ hun
    have hpub : buf = s.published := hbuf.elim id fun hf => some.inj (hf.symm.trans hun.filled)
    exact ⟨⟨hun.commit_lt, hpub ▸ hun.filled, hack.elim (· ▸ hun.ack) Or.inr⟩, hpub, id⟩
  · exact h.wired.mono (Nat.le_refl _) rfl rfl rfl rfl id id fun _ => ⟨rfl, rfl⟩

theorem inv_postAside (h : Inv i s) (hs : s.second = none) {w : WorkRequest} {c : ℕ}
    (hssn : w.id.ssn = s.ssn + 1)
    (hop : w.op = .other ∨
      isAdjusting s.server.nextLrStep = false ∧ ∃ c, w.op = .writeCommit c)
    (hco : isAdjusting s.server.nextLrStep = true → c = s.offsetsCommit) :
    Inv i (observe s
      { s with ssn := s.ssn + 1, offsetsCommit := c, sendQueue := s.sendQueue ++ [w] }) := by
  obtain ⟨k, hk, hn⟩ := h.wired.next_eq
  have hnot : isNext i s.server w.id = false := isNext_of_ssn_ne hn (by omega)
  have hp : pending i
      { s with ssn := s.ssn + 1, offsetsCommit := c, sendQueue := s.sendQueue ++ [w] } =
      pending i s := by
    unfold pending
    simp [countP_append, hnot]
  refine Alike.inv ⟨⟨rfl, rfl, rfl, rfl, rfl, rfl, rfl, rfl, rfl, rfl, id, fun _ => id, ?_⟩, rfl,
    rfl, rfl, rfl, hp, ?_, fun _ _ => Iff.rfl⟩ h ?_
  · exact fun hadj hun =>
      ⟨{ hun with }, rfl, fun heq => (hco hadj).trans heq⟩
  · intro w' hn
    refine ⟨fun hmem => ?_, mem_append_left _⟩
    rcases mem_append.mp hmem with hold | hnew
    · exact hold
    · rw [mem_singleton.mp hnew, hnot] at hn
      cases hn
  · refine h.wired.change rfl (Nat.le_succ _) id (fun w' hmem => ?_) (fun _ => Or.inl)
      (fun hf => hp.trans (h.wired.idle hf)) (absurd hs)
    rcases mem_append.mp hmem with hold | hnew
    · exact Or.inl hold
    · rw [mem_singleton.mp hnew]
      exact Or.inr ⟨Nat.le_of_eq hssn, fun _ => hop⟩

end Steady

end VmFt.Dare.Ring
