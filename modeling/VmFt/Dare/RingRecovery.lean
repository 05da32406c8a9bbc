import VmFt.Dare.RingQueue

/-! # The offsets of a recovering server

A server that joins takes its head offset from the reply of the leader, its
apply offset from the snapshot of one server and its commit and end offsets,
with the entries, from the log of another one. A log that wraps around is cut at
the end of the buffer. The four offsets are in order on the copy exactly if they
are on the log that is copied, read up to the cut.
-/

namespace VmFt.Dare.Ring

open Spool VmFt.System

/-- The part of `handle_server_join_reply` that concerns the log. -/
def handleServerJoinReply (log : Log) (head : ℕ) : Log := { log with head := head }

/-- `rc_recover_sm`, with the offset of the last entry in the snapshot. -/
def rcRecoverSm (log : Log) (lastEntryOffset : ℕ) : Log := { log with apply := lastEntryOffset }

/-- `rc_recover_log`, with the offsets and then the entries read from the target. -/
def rcRecoverLog (log : Log) (rmtCommit rmtEnd : ℕ) (rmtEntries : Memory) : Log :=
  if rmtEnd = log.len then log
  else
    let log := { log with endOff := rmtEnd }
    -- The entries wrap around: those at the start of the buffer are left to the leader.
    let endOff := if 0 < rmtEnd ∧ rmtEnd < log.head then 0 else rmtEnd
    let commit := if logIsOffsetLarger log rmtCommit endOff then endOff else rmtCommit
    let log := { log with endOff := endOff, commit := commit }
    { log with
      entries := log.entries.copy rmtEntries log.head (logOffsetEndDistance log log.head) }

/-- The log of a server that has recovered from a snapshot and from the log of `target`. -/
def recovered (head lastEntryOffset : ℕ) (target : Log) : Log :=
  rcRecoverLog (rcRecoverSm (handleServerJoinReply (logNew target.len) head) lastEntryOffset)
    target.commit target.endOff target.entries

/-- The offset behind `n` entries, which are passed as in `apply_committed_entries`. -/
def passEntries (log : Log) : ℕ → ℕ → Option ℕ
  | 0, offset => some offset
  | n + 1, offset =>
    (logGetEntry log (settle log offset)).bind fun off =>
      passEntries log n (off + logEntryLen log off)

/-- Walking the log from the offset `off` meets the entry boundary `off'`, under one of its
names. -/
def Boundary (log : Log) (off off' : ℕ) : Prop :=
  ∃ n o, passEntries log n off = some o ∧ (off' = o ∨ off' = settle log o)

structure Ordered (log : Log) : Prop where
  apply : Boundary log log.head log.apply
  commit : Boundary log log.apply log.commit
  endOff : isLogEmpty log = false → Boundary log log.commit log.endOff
  head_le : logIsOffsetLarger log log.head log.apply = false
  apply_le : logIsOffsetLarger log log.apply log.commit = false
  commit_le : logIsOffsetLarger log log.commit log.endOff = false

/-- From the offset `head` on the log holds entries one behind the other to its end. -/
def Legible (head : ℕ) (log : Log) : Prop :=
  isLogEmpty log = true ∨ ∃ p items, head = p % log.len ∧ Reaches log p items

/-- The log of the target up to where it is read: to the end of the buffer if it wraps around. -/
def cutLog (head : ℕ) (target : Log) : Log :=
  { target with endOff := if target.endOff < head then 0 else target.endOff }

/-- The snapshot ends at a boundary of the log in front of the cut, and the commit offset is a
boundary behind it or lies behind the cut. -/
def Consistent (head lastEntryOffset : ℕ) (target : Log) : Prop :=
  if isLogEmpty target then head = 0 ∧ lastEntryOffset = 0
  else Boundary (cutLog head target) head lastEntryOffset ∧
    (logIsOffsetLarger target target.commit (cutLog head target).endOff = true ∨
      Boundary (cutLog head target) lastEntryOffset target.commit)

variable {log target : Log} {p q e head lastEntryOffset off : ℕ} {it : Item}
variable {items items' : List Item}

/-! ### Logs that end at a position -/

theorem logIsOffsetLarger_of_le {q r : ℕ} (hend : log.endOff = e % log.len) (hqr : q ≤ r)
    (hle : r ≤ e) (hlap : e < q + log.len) :
    logIsOffsetLarger log (q % log.len) (r % log.len) = false := by
  rw [logIsOffsetLarger, distance_of_end hend (by omega) hlap, distance_of_end hend hle (by omega),
    decide_eq_false_iff_not]
  omega

theorem logGetEntry_end (hend : log.endOff = e % log.len) (hlen : 0 < log.len) :
    logGetEntry log log.endOff = none := by
  have hd := distance_of_end hend le_rfl (by omega)
  rw [← hend, Nat.sub_self] at hd
  rw [logGetEntry, if_pos hd, ite_self]

theorem logIsOffsetLarger_end (hend : log.endOff = e % log.len) (hlen : 0 < log.len) (off : ℕ) :
    logIsOffsetLarger log off log.endOff = false := by
  have hd := distance_of_end hend le_rfl (by omega)
  rw [← hend, Nat.sub_self] at hd
  rw [logIsOffsetLarger, hd]
  rfl

theorem settle_of_lt (hend : log.endOff = e % log.len) (hlt : p < e) (hlap : e < p + log.len)
    (hl : LaidAt log p it) :
    settle log (p % log.len) = slot log.len p it.body.len % log.len := by
  rw [settle, logGetEntry_of_lt hend hlt hlap, hl.slot_eq]

theorem passEntries_succ (hend : log.endOff = e % log.len)
    (hle : behind log.len p it.body.len ≤ e) (hlap : e < p + log.len) (hl : LaidAt log p it)
    (n : ℕ) : passEntries log (n + 1) (p % log.len) =
      passEntries log n (behind log.len p it.body.len % log.len) := by
  have hlt : slot log.len p it.body.len < behind log.len p it.body.len :=
    Nat.lt_add_of_pos_right (len_pos _)
  have hsl : p ≤ slot log.len p it.body.len := le_slot ((Nat.zero_le _).trans_lt hl.short)
  rw [passEntries, settle_of_lt hend (by omega) hlap hl,
    logGetEntry_of_lt hend (by omega) (by omega), Option.bind_some, hl.name_slot, hl.stored.len,
    behind_mod hl.short]

/-- The entries of a log from the position `p` on, whose end is the position `e`: behind the last
of them there is nothing or an entry that starts with the cut. -/
structure Covers (log : Log) (p e : ℕ) (items : List Item) : Prop where
  laid : Laid log p items
  endOff : log.endOff = e % log.len
  le : finish log.len p (lens items) ≤ e
  lap : e < p + log.len
  stop : settle log (finish log.len p (lens items) % log.len) = log.endOff

namespace Covers

theorem len_pos (h : Covers log p e items) : 0 < log.len := by
  have hle := h.le
  have hlap := h.lap
  cases items with
  | nil =>
    rw [lens_nil, finish_nil] at hle
    omega
  | cons it items => exact (Nat.zero_le _).trans_lt h.laid.1.short

theorem drop (h : Covers log p e (items ++ items')) :
    Covers log (finish log.len p (lens items)) e items' where
  laid := (laid_append.mp h.laid).2
  endOff := h.endOff
  le := by
    have hle := h.le
    rwa [lens_append, finish_append] at hle
  lap := by
    have hle : p ≤ finish log.len p (lens items) := le_finish h.len_pos
    have hlap := h.lap
    omega
  stop := by
    have hs := h.stop
    rwa [lens_append, finish_append] at hs

theorem at_slot (h : Covers log p e (it :: items)) :
    Covers log (slot log.len p it.body.len) e (it :: items) := by
  have hsl : p ≤ slot log.len p it.body.len := le_slot h.len_pos
  have hb := behind_slot (p := p) h.laid.1.short
  have hlap := h.lap
  refine ⟨⟨h.laid.1.at_slot, ?_⟩, h.endOff, ?_, by omega, ?_⟩
  · rw [hb]
    exact h.laid.2
  · rw [lens_cons, finish_cons, hb]
    exact h.le
  · rw [lens_cons, finish_cons, hb]
    exact h.stop

theorem at_end (h : Covers log p e items) : Covers log e e [] := by
  have hpos := h.len_pos
  refine ⟨trivial, h.endOff, le_rfl, by omega, ?_⟩
  rw [lens_nil, finish_nil, ← h.endOff, settle, logGetEntry_end h.endOff hpos]

theorem passEntries_eq (h : Covers log p e items) (n : ℕ) :
    passEntries log n (p % log.len) = some off ↔
      n ≤ items.length ∧ off = finish log.len p (lens (items.take n)) % log.len := by
  induction items generalizing p n with
  | nil =>
    cases n with
    | zero => simp [passEntries, eq_comm]
    | succ n =>
      have hs := h.stop
      rw [lens_nil, finish_nil] at hs
      simp [passEntries, hs, logGetEntry_end h.endOff h.len_pos]
  | cons it items ih =>
    cases n with
    | zero => simp [passEntries, eq_comm]
    | succ n =>
      have hrest : Covers log (behind log.len p it.body.len) e items := by
        rw [← List.singleton_append] at h
        exact h.drop
      rw [passEntries_succ h.endOff ((behind_le_finish h.len_pos).trans h.le) h.lap h.laid.1,
        ih hrest]
      simp

/-- The offset to which the walk moves from the position `p`. -/
def spot (len p e : ℕ) : List Item → ℕ
  | [] => e % len
  | it :: _ => slot len p it.body.len % len

theorem settle_eq (h : Covers log p e items) :
    settle log (p % log.len) = spot log.len p e items := by
  cases items with
  | nil =>
    have hs := h.stop
    rw [lens_nil, finish_nil] at hs
    exact hs.trans h.endOff
  | cons it items =>
    have hlt : p < behind log.len p it.body.len := lt_behind h.len_pos (Ring.len_pos _)
    have hle := (behind_le_finish h.len_pos).trans h.le
    exact settle_of_lt h.endOff (hlt.trans_le hle) h.lap h.laid.1

theorem boundary_iff (h : Covers log p e items) :
    Boundary log (p % log.len) off ↔ ∃ front rest, items = front ++ rest ∧
      (off = finish log.len p (lens front) % log.len ∨
        off = spot log.len (finish log.len p (lens front)) e rest) := by
  constructor
  · rintro ⟨n, o, hn, hoff⟩
    obtain ⟨-, rfl⟩ := (h.passEntries_eq n).mp hn
    have hitems := (List.take_append_drop n items).symm
    refine ⟨_, _, hitems, ?_⟩
    rw [hitems] at h
    rwa [h.drop.settle_eq] at hoff
  · rintro ⟨front, rest, rfl, hoff⟩
    refine ⟨front.length, _, (h.passEntries_eq _).mpr ⟨by simp, rfl⟩, ?_⟩
    rwa [List.take_left, h.drop.settle_eq]

theorem boundary_end (h : Covers log p e items) : Boundary log (p % log.len) log.endOff := by
  refine h.boundary_iff.mpr ⟨items, [], (List.append_nil items).symm, .inr ?_⟩
  exact h.endOff

/-- A boundary is a position from which the entries that are left are covered, in every log with
these entries. -/
theorem of_boundary (h : Covers log p e items) (hb : Boundary log (p % log.len) off) :
    ∃ q rest, off = q % log.len ∧ p ≤ q ∧ q ≤ e ∧
      ∀ log', log'.len = log.len → Covers log' p e items → Covers log' q e rest := by
  obtain ⟨front, rest, rfl, hoff⟩ := h.boundary_iff.mp hb
  have hp : p ≤ finish log.len p (lens front) := le_finish h.len_pos
  have hle : finish log.len p (lens front) ≤ e :=
    le_trans (le_finish h.len_pos) h.drop.le
  rcases hoff with rfl | rfl
  · refine ⟨_, rest, rfl, hp, hle, fun log' hlen h' => ?_⟩
    rw [← hlen]
    exact h'.drop
  · cases rest with
    | nil => exact ⟨e, [], rfl, hp.trans hle, le_rfl, fun _ _ h' => h'.at_end⟩
    | cons it rest =>
      have hs := h.drop.at_slot
      refine ⟨_, it :: rest, rfl, hp.trans (le_slot h.len_pos), ?_, fun log' hlen h' => ?_⟩
      · exact le_trans (le_finish h.len_pos) hs.le
      · rw [← hlen]
        exact h'.drop.at_slot

theorem boundary_congr {log' : Log} (h : Covers log p e items) (h' : Covers log' p e items)
    (hlen : log'.len = log.len) :
    Boundary log' (p % log.len) off ↔ Boundary log (p % log.len) off := by
  rw [h.boundary_iff, ← hlen, h'.boundary_iff]

theorem ordered_iff (h : Covers log p e items) (hh : log.head = p % log.len) :
    Ordered log ↔ Boundary log log.head log.apply ∧ Boundary log log.apply log.commit := by
  refine ⟨fun ho => ⟨ho.apply, ho.commit⟩, fun ⟨ha, hc⟩ => ?_⟩
  obtain ⟨q, rest, hq, hpq, hqe, hcov⟩ := h.of_boundary (hh ▸ ha)
  have hc' := hc
  rw [hq] at hc'
  obtain ⟨r, rest', hr, hqr, hre, hcov'⟩ := (hcov log rfl h).of_boundary hc'
  have hend := hcov' log rfl (hcov log rfl h)
  have hlap := h.lap
  refine ⟨ha, hc, fun _ => ?_, ?_, ?_, logIsOffsetLarger_end h.endOff h.len_pos _⟩
  · rw [hr]
    exact hend.boundary_end
  · rw [hh, hq]
    exact logIsOffsetLarger_of_le h.endOff hpq hqe hlap
  · rw [hq, hr]
    exact logIsOffsetLarger_of_le h.endOff hqr hre (by omega)

end Covers

/-! ### The copy -/

/-- A log with the end `e` that has the bytes of the target from the position `p` on. -/
structure Copied (target log : Log) (p e : ℕ) : Prop where
  len : log.len = target.len
  endOff : log.endOff = e % log.len
  lap : e < p + log.len
  copied : ∀ y, p ≤ y → y < e → log.entries (y % log.len) = target.entries (y % log.len)

theorem Copied.laid (h : Copied target log p e) {q : ℕ} (hq : p ≤ q) (hl : Laid target q items)
    (hle : finish log.len q (lens items) ≤ e) : Laid log q items := by
  refine hl.congr h.len fun y hy hy' => ?_
  rw [← h.len] at hy' ⊢
  exact h.copied y (by omega) (by omega)

theorem Copied.settle_eq (h : Copied target log p e) {q : ℕ} (hle : p ≤ q) (hlt : q < e)
    (hcut : e = (q / log.len + 1) * log.len) (hl : LaidAt target q it)
    (hsl : slot log.len q it.body.len = e) : settle log (q % log.len) = 0 := by
  have hlap := h.lap
  have hsi := sizeofEntry_le_len it.body
  rw [settle, logGetEntry_of_lt h.endOff hlt (by omega)]
  dsimp only
  rw [name]
  split_ifs with hh hfit
  · -- The stub has been copied, and its entry does not fit behind it.
    have hi := hl.inside
    have hs := hl.headed
    rw [← h.len] at hi hs
    rw [name, if_pos hh] at hs
    have hc : Headed log (q % log.len) it := by
      refine hs.congr fun x hx hx' => ?_
      have hn := next_lap log.len q
      have hmod := Nat.mod_le q log.len
      have hb := h.copied (q + (x - q % log.len)) (by omega) (by omega)
      rw [(Cursor.add_of_lt (by omega)).1] at hb
      rwa [Nat.add_sub_cancel' hx] at hb
    rw [logFitEntry, hc.len, decide_eq_true_eq] at hfit
    have ho : ¬ q % log.len + it.body.len < log.len := by
      intro hfits
      rw [slot_of_lt hfits] at hsl
      omega
    have hla := Nat.mod_lt q (show 0 < log.len by omega)
    omega
  · rfl
  · rfl
  · rfl

theorem Copied.covers_end (h : Copied target log p (finish target.len p (lens items)))
    (hl : Laid target p items) : Covers log p (finish target.len p (lens items)) items := by
  have hend := h.endOff
  have hlap := h.lap
  have hle : p ≤ finish target.len p (lens items) := by
    cases items with
    | nil => exact le_rfl
    | cons it items => exact le_finish ((Nat.zero_le _).trans_lt hl.1.short)
  rw [← h.len] at hend hlap hle h ⊢
  refine ⟨h.laid le_rfl hl le_rfl, hend, le_rfl, hlap, ?_⟩
  rw [← hend, settle, logGetEntry_end hend (by omega)]

theorem Copied.covers_cut (hl : Laid target p (items ++ it :: items')) (h : Copied target log p e)
    (hcut : e = (p / target.len + 1) * target.len)
    (hlt : finish target.len p (lens items) < e)
    (hsl : slot target.len (finish target.len p (lens items)) it.body.len = e) :
    Covers log p e items := by
  have hlap := h.lap
  obtain ⟨hf, hc, -⟩ := laid_append.mp hl
  have hpos : 0 < target.len := (Nat.zero_le _).trans_lt hc.short
  rw [← h.len] at hpos hcut hlt hsl hc
  have hle : p ≤ finish log.len p (lens items) := le_finish hpos
  have hdiv := div_of_lt_next_lap hle (hcut ▸ hlt)
  refine ⟨h.laid le_rfl hf hlt.le, h.endOff, hlt.le, hlap, ?_⟩
  rw [h.settle_eq hle hlt (by rw [hdiv]; exact hcut) hc hsl, h.endOff, hcut, Nat.mul_mod_left]

theorem recovered_eq (hend : target.endOff ≠ target.len)
    (hpos : target.endOff < head → 0 < target.endOff) :
    recovered head lastEntryOffset target =
      { head := head, apply := lastEntryOffset
        commit := if logIsOffsetLarger target target.commit (cutLog head target).endOff then
          (cutLog head target).endOff else target.commit
        endOff := (cutLog head target).endOff, tail := target.len, len := target.len
        entries := Memory.copy (fun _ => 0) target.entries head
          (logOffsetEndDistance (cutLog head target) head) } := by
  have hcut : (0 < target.endOff ∧ target.endOff < head) ↔ target.endOff < head :=
    ⟨And.right, fun hlt => ⟨hpos hlt, hlt⟩⟩
  have heq : recovered head lastEntryOffset target = _ := if_neg hend
  simp only [rcRecoverSm, handleServerJoinReply, logNew, hcut] at heq
  exact heq

/-- The recovered log and the log that is read cover the same entries. -/
theorem exists_covers (hr : Reaches target p items) (lastEntryOffset : ℕ) :
    ∃ e items', Covers (cutLog (p % target.len) target) p e items' ∧
      Covers (recovered (p % target.len) lastEntryOffset target) p e items' := by
  have hpos := hr.len_pos
  have hend := hr.endOff
  have hls := Nat.mod_lt (finish target.len p (lens items)) hpos
  have hlap := hr.lap
  have hle : p ≤ finish target.len p (lens items) := le_finish hpos
  have hlc := lap_cases hle hlap
  rw [recovered_eq (by omega) hr.endOff_pos_of_lt]
  rcases Nat.lt_or_ge target.endOff (p % target.len) with hlt | hge
  · -- The log is cut at the end of the buffer, which is the start of the next lap.
    have hend_pos := hr.endOff_pos_of_lt hlt
    have hn := next_lap target.len p
    have hmod := Nat.mod_le p target.len
    have hla := Nat.mod_lt p hpos
    have hcut : (p / target.len + 1) * target.len % target.len = 0 := Nat.mul_mod_left _ _
    have hzero : (cutLog (p % target.len) target).endOff = 0 := if_pos hlt
    obtain ⟨ls, l, ls', hs, hlt', hsl⟩ := exists_split_lap hpos
      (show (p / target.len + 1) * target.len < finish target.len p (lens items) by omega)
    obtain ⟨front, rest, rfl, rfl, hrest⟩ := List.map_eq_append_iff.mp hs
    obtain ⟨it, rest, rfl, rfl, rfl⟩ := List.map_eq_cons_iff.mp hrest
    have hd : logOffsetEndDistance (cutLog (p % target.len) target) (p % target.len) =
        (p / target.len + 1) * target.len - p :=
      distance_of_end (hzero.trans hcut.symm) (lt_next_lap hpos).le
        (show (p / target.len + 1) * target.len < p + target.len by omega)
    refine ⟨(p / target.len + 1) * target.len, front, ?_, ?_⟩
    · refine Copied.covers_cut hr.laid ⟨rfl, hzero.trans hcut.symm, ?_, fun _ _ _ => rfl⟩ rfl hlt'
        hsl
      change _ < p + target.len
      omega
    · refine Copied.covers_cut hr.laid ⟨rfl, hzero.trans hcut.symm, ?_, ?_⟩ rfl hlt' hsl
      · dsimp only
        omega
      · intro y hy hy'
        have hp := lap_cases hy (show y < p + target.len by omega)
        have hp' := Nat.mod_lt y hpos
        dsimp only
        rw [hd, Memory.copy_of_inside (by omega)]
  · have hsame : (cutLog (p % target.len) target).endOff = target.endOff := if_neg (by omega)
    have hd : logOffsetEndDistance (cutLog (p % target.len) target) (p % target.len) =
        finish target.len p (lens items) - p :=
      distance_of_end (hsame.trans hend) hle hlap
    refine ⟨finish target.len p (lens items), items, ?_, ?_⟩
    · exact Copied.covers_end ⟨rfl, hsame.trans hend, hlap, fun _ _ _ => rfl⟩ hr.laid
    · refine Copied.covers_end ⟨rfl, hsame.trans hend, hlap, ?_⟩ hr.laid
      intro y hy hy'
      have hp := lap_cases hy (show y < p + target.len by omega)
      have hp' := Nat.mod_lt y hpos
      dsimp only
      rw [hd, Memory.copy_of_inside (by omega)]

/-! ### The order of the offsets -/

theorem ordered_empty_iff (h : isLogEmpty target = true) :
    Ordered (recovered head lastEntryOffset target) ↔ head = 0 ∧ lastEntryOffset = 0 := by
  obtain ⟨log, hlog⟩ : ∃ log, log = recovered head lastEntryOffset target := ⟨_, rfl⟩
  have heq : log = { logNew target.len with head := head, apply := lastEntryOffset } :=
    hlog.trans (if_pos (show target.endOff = target.len by simpa [isLogEmpty] using h))
  have hempty : isLogEmpty log = true := by simp [heq, isLogEmpty, logNew]
  have hnone : ∀ off, logGetEntry log off = none := fun off => if_pos hempty
  have hsettle : ∀ off, settle log off = off := fun off => by rw [settle, hnone]
  have hb : ∀ off off', Boundary log off off' ↔ off' = off := by
    intro off off'
    constructor
    · rintro ⟨n, o, hn, hoff⟩
      rw [hsettle, or_self] at hoff
      cases n with
      | zero => exact hoff.trans (Option.some.inj hn).symm
      | succ n =>
        rw [passEntries, hnone] at hn
        cases hn
    · rintro rfl
      exact ⟨0, _, rfl, .inl rfl⟩
  have hle : ∀ off off', logIsOffsetLarger log off off' = false := by
    intro off off'
    simp [logIsOffsetLarger, logOffsetEndDistance, hempty]
  rw [← hlog]
  constructor
  · intro ho
    have happly := (hb _ _).mp ho.apply
    have hcommit := (hb _ _).mp ho.commit
    rw [heq] at happly hcommit
    exact ⟨happly.symm.trans hcommit.symm, hcommit.symm⟩
  · rintro ⟨rfl, rfl⟩
    refine ⟨?_, ?_, fun hne => ?_, hle _ _, hle _ _, hle _ _⟩
    · rw [hb, heq]
    · rw [hb, heq]
      rfl
    · rw [hempty] at hne
      cases hne

/-- After the recovery the offsets are in order exactly if they are on the log that is read. -/
theorem recovered_ordered_iff (h : Legible head target) :
    Ordered (recovered head lastEntryOffset target) ↔ Consistent head lastEntryOffset target := by
  unfold Consistent
  cases hempty : isLogEmpty target with
  | true => exact ordered_empty_iff hempty
  | false =>
    obtain ⟨p, items, rfl, hreach⟩ := h.resolve_left (by simp [hempty])
    obtain ⟨e, items, hcut, hrec⟩ := exists_covers hreach lastEntryOffset
    have heq : recovered (p % target.len) lastEntryOffset target = _ := recovered_eq
      (by simpa [isLogEmpty] using hempty) hreach.endOff_pos_of_lt
    have hlen : (recovered (p % target.len) lastEntryOffset target).len = target.len := by rw [heq]
    have hhead : (recovered (p % target.len) lastEntryOffset target).head = p % target.len := by
      rw [heq]
    have happly : (recovered (p % target.len) lastEntryOffset target).apply = lastEntryOffset := by
      rw [heq]
    rw [hrec.ordered_iff (by rw [hlen, hhead]), hhead, happly, congrArg Log.commit heq,
      if_neg Bool.false_ne_true]
    refine (and_congr_left' (hcut.boundary_congr hrec hlen)).trans ?_
    refine and_congr_right fun hlast => ?_
    -- From the snapshot on the two logs cover the same entries again.
    obtain ⟨q, rest, rfl, -, -, hcov⟩ := hcut.of_boundary hlast
    have hcut' := hcov _ rfl hcut
    rw [hcut'.boundary_congr (hcov _ hlen hrec) hlen]
    split_ifs with hlarger
    · exact iff_of_true hcut'.boundary_end (.inl hlarger)
    · simp [hlarger]

theorem Kept.legible {s : Queue} (h : Kept s) : Legible s.log.head s.log := by
  rcases h with hf | ⟨p, hh⟩
  · exact .inl hf.isLogEmpty_eq
  · exact .inr ⟨p, s.items, hh.head, hh.reaches⟩

theorem Legible.set_commit (h : Legible head log) (commit : ℕ) :
    Legible head { log with commit := commit } := by
  rcases h with hempty | ⟨p, items, hh, hr⟩
  · exact .inl hempty
  · exact .inr ⟨p, items, hh, hr.congr rfl rfl rfl⟩

/-- A log that wraps around with its commit offset behind the cut. -/
theorem recovered_ordered_wrapped :
    ∃ s, ring.Run hasRoom (start 200) s ∧ s.log.endOff < s.log.head ∧
      Ordered (recovered s.log.head 144 { s.log with commit := 68 }) := by
  obtain ⟨s, hrun, hempty, hlt, hlast, hlarger⟩ :=
    System.exists_run_of_exec (M := ring) (s := start 200) hasRoom
      (p := fun s => isLogEmpty { s.log with commit := 68 } = false ∧ s.log.endOff < s.log.head ∧
        passEntries (cutLog s.log.head { s.log with commit := 68 }) 1 s.log.head = some 144 ∧
        logIsOffsetLarger { s.log with commit := 68 } 68
          (cutLog s.log.head { s.log with commit := 68 }).endOff = true)
      [.append 1 0 0 .noop, .append 1 0 0 .noop, .append 1 0 0 .noop, .advance 2 false,
        .append 1 7 3 (bytesCmd 20)] (by decide +kernel)
  refine ⟨s, hrun, hlt, (recovered_ordered_iff ((kept_of_run hrun).legible.set_commit 68)).mpr ?_⟩
  rw [Consistent, hempty, if_neg Bool.false_ne_true]
  exact ⟨⟨1, 144, hlast, .inl rfl⟩, .inl hlarger⟩

/-- The snapshot is ahead of the commit offset of the server whose log is copied. -/
theorem recovered_apply_ahead :
    ∃ s, ring.Run hasRoom (start 200) s ∧ skip s.log 1 s.log.head = some 48 ∧
      skip s.log 2 s.log.head = some s.log.endOff ∧
      ¬ Ordered (recovered s.log.head s.log.endOff { s.log with commit := 48 }) := by
  obtain ⟨s, hrun, hone, htwo, hlarger⟩ :=
    System.exists_run_of_exec (M := ring) (s := start 200) hasRoom
      (p := fun s => skip s.log 1 s.log.head = some 48 ∧
        skip s.log 2 s.log.head = some s.log.endOff ∧
        logIsOffsetLarger (recovered s.log.head s.log.endOff { s.log with commit := 48 })
          (recovered s.log.head s.log.endOff { s.log with commit := 48 }).apply
          (recovered s.log.head s.log.endOff { s.log with commit := 48 }).commit = true)
      [.append 1 0 0 .noop, .append 1 0 0 .noop] (by decide +kernel)
  refine ⟨s, hrun, hone, htwo, fun hordered => ?_⟩
  rw [hordered.apply_le] at hlarger
  cases hlarger

end VmFt.Dare.Ring
