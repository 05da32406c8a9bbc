import Mathlib.Data.List.Chain
import VmFt.Lib.Transition
import VmFt.Dare.RingLayout

/-! # The circular log as a queue

Appends and advances of the head on a log that starts empty. The queue of the
entries between head and end is kept beside the log. As long as every entry
finds room in front of the head, without ending exactly at the end of the
buffer, the log holds that queue.
-/

namespace VmFt.Dare.Ring

open Spool VmFt.System Option List

/-- The offset `n` entries further on. -/
def skip (log : Log) : ℕ → ℕ → Option ℕ
  | 0, offset => some offset
  | n + 1, offset => (logGetEntry log offset).bind fun off => skip log n (nextOffset log off)

/-- The offset that `apply_committed_entries` makes of the one of its next entry. -/
def settle (log : Log) (offset : ℕ) : ℕ :=
  match logGetEntry log offset with
  | none => offset
  | some off => if logFitEntry log off off then off else 0

/-- A log with the entries between its head and its end. -/
structure Queue where
  log : Log
  items : List Item
  /-- An append has succeeded. -/
  appended : Bool

/-- What is done to the log. An advance passes `n` entries; the boundary it moves the head to has
two names if the next entry starts with the next lap. -/
inductive QueueOp
  | append (term reqId cltId : ℕ) (body : EntryBody)
  | advance (n : ℕ) (settled : Bool)

def queueStep (s : Queue) : QueueOp → Option Queue
  | .append term reqId cltId body =>
    (logAppendEntry s.log term reqId cltId body).map fun (log, ret) =>
      if ret = 0 then { s with log := log }
      else ⟨log, s.items ++ [⟨ret, term, reqId, cltId, body⟩], true⟩
  | .advance n settled =>
    (skip s.log n s.log.head).map fun offset =>
      { s with
        log := { s.log with head := if settled then settle s.log offset else offset }
        items := s.items.drop n }

def ring : System Queue QueueOp := ⟨queueStep⟩

def start (len : ℕ) : Queue := ⟨logNew len, [], false⟩

/-- The entry does not end exactly at the end of the buffer. -/
def EndsInside (log : Log) (l : ℕ) : Prop := log.endOff + l ≠ log.len ∧ l < log.len

/-- The entry ends in front of the head and does not end at the end of the buffer. -/
def HasRoom (log : Log) (l : ℕ) : Prop :=
  if isLogEmpty log then l < log.len
  else if log.endOff < log.head then log.endOff + l < log.head
  else log.endOff + l < log.len ∨ (log.len < log.endOff + l ∧ l < log.head)

def NoOverrun (log : Log) (l : ℕ) : Prop :=
  if isLogEmpty log then l < log.len
  else if log.endOff < log.head then log.endOff + l ≤ log.head
  else log.endOff + l < log.len ∨ (log.len < log.endOff + l ∧ l ≤ log.head)

def endsInside (s : Queue) : QueueOp → Prop
  | .append _ _ _ body => EndsInside s.log body.len
  | .advance _ _ => True

def hasRoom (s : Queue) : QueueOp → Prop
  | .append _ _ _ body => HasRoom s.log body.len
  | .advance _ _ => True

def noOverrun (s : Queue) : QueueOp → Prop
  | .append _ _ _ body => NoOverrun s.log body.len
  | .advance _ _ => True

instance (log : Log) (l : ℕ) : Decidable (EndsInside log l) := by
  unfold EndsInside
  infer_instance

instance (log : Log) (l : ℕ) : Decidable (HasRoom log l) := by
  unfold HasRoom
  infer_instance

instance (log : Log) (l : ℕ) : Decidable (NoOverrun log l) := by
  unfold NoOverrun
  infer_instance

instance (s : Queue) (op : QueueOp) : Decidable (endsInside s op) := by
  cases op <;> unfold endsInside <;> infer_instance

instance (s : Queue) (op : QueueOp) : Decidable (hasRoom s op) := by
  cases op <;> unfold hasRoom <;> infer_instance

instance (s : Queue) (op : QueueOp) : Decidable (noOverrun s op) := by
  cases op <;> unfold noOverrun <;> infer_instance

variable {len : ℕ} {s t : Queue} {log log' : Log} {it : Item}

/-! ### The end offset -/

section End

theorem startOffset_of_not_fit (h : log.len - log.endOff < sizeofEntry) : startOffset log = 0 :=
  if_neg (by rw [logFitEntryHeader_iff]; omega)

theorem startOffset_of_fit (h : sizeofEntry ≤ log.len - log.endOff) :
    startOffset log = log.endOff :=
  if_pos (logFitEntryHeader_iff.mpr h)

theorem placeEntry_end (hend : log.endOff ≤ log.len) (h : EndsInside log it.body.len) :
    placeEntry log it.idx it.term it.reqId it.cltId it.body = (log, 0) ∨
      (placeEntry log it.idx it.term it.reqId it.cltId it.body).1.endOff < log.len ∧
      (placeEntry log it.idx it.term it.reqId it.cltId it.body).1.len = log.len := by
  obtain ⟨hf, hs⟩ := h
  have hsi := sizeofEntry_le_len it.body
  cases hfu : isLogFull log with
  | true => exact .inl (placeEntry_of_full hfu)
  | false =>
    right
    by_cases hfit : it.body.len ≤ log.len - startOffset log
    · rw [placeEntry_of_fit hfu hfit]
      refine ⟨?_, rfl⟩
      by_cases hh : sizeofEntry ≤ log.len - log.endOff
      · rw [startOffset_of_fit hh] at hfit ⊢
        simp only [place]
        omega
      · rw [startOffset_of_not_fit (by omega)]
        simp only [place]
        omega
    · rw [placeEntry_of_not_fit hfu (by omega) (by omega)]
      split_ifs
      · exact ⟨by simp only; omega, rfl⟩
      · refine ⟨?_, rfl⟩
        simp only [place]
        omega

theorem exists_placeEntry {term reqId cltId ret : ℕ} {body : EntryBody}
    (h : logAppendEntry log term reqId cltId body = some (log', ret)) : ∃ tail idx, idx ≠ 0 ∧
      placeEntry { log with tail := tail } idx term reqId cltId body = (log', ret) := by
  obtain ⟨tail, -, hp⟩ := map_eq_some_iff.mp h
  refine ⟨tail, _, ?_, hp⟩
  split
  · exact Nat.succ_ne_zero _
  · exact Nat.one_ne_zero

theorem logAppendEntry_end {term reqId cltId ret : ℕ} {body : EntryBody}
    (h : logAppendEntry log term reqId cltId body = some (log', ret))
    (hend : log.endOff ≤ log.len) (hi : EndsInside log body.len) :
    log'.len = log.len ∧ (ret = 0 ∧ log'.endOff = log.endOff ∨ log'.endOff < log.len) := by
  obtain ⟨tail, idx, -, hp⟩ := exists_placeEntry h
  have key := @placeEntry_end { log with tail := tail } ⟨idx, term, reqId, cltId, body⟩ hend hi
  dsimp only at key
  rw [hp] at key
  rcases key with hs | ⟨hlt, hlen⟩
  · obtain ⟨rfl, rfl⟩ := Prod.mk.inj hs
    exact ⟨rfl, .inl ⟨rfl, rfl⟩⟩
  · exact ⟨hlen, .inr hlt⟩

/-- Once an append has succeeded the log never looks empty again, if no entry ends exactly at the
end of the buffer. -/
theorem not_empty_of_appended (h : ring.Run endsInside (start len) s) (happ : s.appended = true) :
    isLogEmpty s.log = false := by
  suffices hinv : s.log.endOff ≤ s.log.len ∧ (s.appended = true → s.log.endOff < s.log.len) by
    have := hinv.2 happ
    simp only [isLogEmpty, beq_eq_false_iff_ne]
    omega
  refine Run.invariant (I := fun s : Queue =>
    s.log.endOff ≤ s.log.len ∧ (s.appended = true → s.log.endOff < s.log.len)) h ?_ ?_
  · exact ⟨Nat.le_refl _, fun h => by cases h⟩
  · rintro a op b ⟨hend, hlt⟩ hok hstep
    cases op with
    | append term reqId cltId body =>
      obtain ⟨⟨log', ret⟩, happend, rfl⟩ := map_eq_some_iff.mp hstep
      obtain ⟨hlen, ⟨hret, hend'⟩ | hend'⟩ := logAppendEntry_end happend hend hok
      · dsimp only
        rw [if_pos hret, hlen, hend']
        exact ⟨hend, hlt⟩
      · dsimp only
        split_ifs <;> exact ⟨by simp only; omega, fun _ => by simp only; omega⟩
    | advance n settled =>
      obtain ⟨offset, -, rfl⟩ := map_eq_some_iff.mp hstep
      exact ⟨hend, hlt⟩

theorem not_empty_of_appended_noop :
    ∃ s, ring.Run endsInside (start 100) s ∧ s.appended = true ∧ isLogEmpty s.log = false := by
  obtain ⟨s, hrun, happ⟩ := System.exists_run_of_exec (M := ring) (s := start 100) endsInside
    (p := fun s => s.appended = true) [.append 1 0 0 .noop, .append 1 0 0 .noop]
    (by decide +kernel)
  exact ⟨s, hrun, happ, not_empty_of_appended hrun happ⟩

/-- Two blank entries fill a buffer of 96 bytes, and the log looks as if it were new. -/
theorem empty_after_noops :
    ∃ s, ring.Run anyStep (start 96) s ∧ s.appended = true ∧ isLogEmpty s.log = true :=
  System.exists_run_of_exec (M := ring) (s := start 96) anyStep
    (p := fun s => s.appended = true ∧ isLogEmpty s.log = true)
    [.append 1 0 0 .noop, .append 1 0 0 .noop] (by decide +kernel)

end End

/-! ### An append with room -/

section Append

variable {p : ℕ} {items : List Item}

def roomOffset (log : Log) (l : ℕ) : ℕ := if log.endOff + l < log.len then log.endOff else 0

def stubbed (log : Log) (it : Item) : Memory :=
  if log.endOff + it.body.len < log.len ∨ log.len - log.endOff < sizeofEntry then log.entries
  else putStub log.entries log.endOff it

theorem placeEntry_of_room (hfu : isLogFull log = false) (hend : log.endOff ≤ log.len)
    (hi : EndsInside log it.body.len)
    (hhe : log.len - log.endOff < it.body.len → sizeofEntry ≤ log.len - log.endOff → log.head ≠ 0) :
    placeEntry log it.idx it.term it.reqId it.cltId it.body =
      (place log (stubbed log it) (roomOffset log it.body.len) it, it.idx) := by
  obtain ⟨hf, hsh⟩ := hi
  have hsi := sizeofEntry_le_len it.body
  by_cases hh : sizeofEntry ≤ log.len - log.endOff
  · have hs := startOffset_of_fit hh
    by_cases hfit : log.endOff + it.body.len < log.len
    · rw [placeEntry_of_fit hfu (by omega), hs, stubbed, if_pos (.inl hfit), roomOffset,
        if_pos hfit]
    · rw [placeEntry_of_not_fit hfu (by omega) (by omega), if_neg (hhe (by omega) hh),
        hs, stubbed, if_neg (by omega), roomOffset, if_neg hfit]
  · have hs : startOffset log = 0 := startOffset_of_not_fit (by omega)
    rw [placeEntry_of_fit hfu (by omega), hs, stubbed, if_pos (by omega), roomOffset,
      if_neg (by omega)]

theorem place_of_outside {x : ℕ}
    (hentry : x < roomOffset log it.body.len ∨ roomOffset log it.body.len + it.body.len ≤ x)
    (hs : log.len ≤ log.endOff + it.body.len → sizeofEntry ≤ log.len - log.endOff →
      x < log.endOff ∨ log.endOff + sizeofEntry ≤ x) :
    (place log (stubbed log it) (roomOffset log it.body.len) it).entries x = log.entries x := by
  refine (putEntry_of_outside hentry).trans ?_
  unfold stubbed
  split_ifs with h
  · rfl
  · exact putStub_of_outside (hs (by omega) (by omega))

theorem roomOffset_eq (hend : log.endOff = p % log.len) (l : ℕ) :
    roomOffset log l = slot log.len p l % log.len := by
  rw [slot_mod, roomOffset, hend]

theorem laidAt_place (hend : log.endOff = p % log.len) (hi : EndsInside log it.body.len)
    (hs : log.len ≤ log.endOff + it.body.len → it.body.len ≤ log.endOff) :
    LaidAt (place log (stubbed log it) (roomOffset log it.body.len) it) p it where
  short := hi.2
  inside := hend ▸ hi.1
  stored := by
    rw [roomOffset_eq hend]
    exact stored_putEntry rfl
  headed := by
    have hsi := sizeofEntry_le_len it.body
    have hf := hi.1
    have hn : name log.len p = if sizeofEntry ≤ log.len - log.endOff then log.endOff else 0 := by
      rw [name, hend]
    change Headed _ (name log.len p) it
    rw [hn]
    by_cases hfit : log.endOff + it.body.len < log.len
    · rw [if_pos (by omega), roomOffset, if_pos hfit]
      exact (stored_putEntry rfl).toHeaded
    · rw [roomOffset, if_neg hfit]
      split_ifs with hh
      · have hr := hs (by omega)
        have hl : Headed { log with entries := stubbed log it } log.endOff it := by
          refine headed_putStub (m := log.entries) ?_
          rw [stubbed, if_neg (by omega)]
        exact hl.congr fun x hx _ => putEntry_of_outside (.inr (by omega))
      · exact (stored_putEntry rfl).toHeaded

/-- What room means for the positions of head and end. -/
structure Spare (log : Log) (p e l : ℕ) : Prop where
  inside : EndsInside log l
  behind_lt : behind log.len e l < p + log.len
  stub : log.len ≤ log.endOff + l → l ≤ log.endOff ∧ log.head ≠ 0

theorem HasRoom.room {e l : ℕ} (h : HasRoom log l) (hh : log.head = p % log.len)
    (hend : log.endOff = e % log.len) (hle : p ≤ e) (hlap : e < p + log.len) : Spare log p e l := by
  have hlen : 0 < log.len := by omega
  have hp := Nat.mod_lt p hlen
  have he := Nat.mod_lt e hlen
  have hl := lap_cases hle hlap
  have hempty : isLogEmpty log = false := isLogEmpty_eq_false_iff.mpr (by omega)
  simp only [HasRoom, hempty, Bool.false_eq_true, if_false] at h
  rw [hend, hh] at h
  by_cases hfit : e % log.len + l < log.len
  · refine ⟨by unfold EndsInside; omega, ?_, by omega⟩
    rw [behind, slot_of_lt hfit]
    split_ifs at h <;> omega
  · have hw : log.len < e % log.len + l ∧ l < p % log.len ∧ p % log.len ≤ e % log.len := by
      split_ifs at h <;> omega
    refine ⟨by unfold EndsInside; omega, ?_, by omega⟩
    have := Nat.mod_le e log.len
    rw [behind, slot_of_le (by omega), next_lap]
    omega

theorem place_kept {e y : ℕ} (hend : log.endOff = e % log.len)
    (hr : Spare log p e it.body.len) (hy : p ≤ y) (hy' : y < e) :
    (place log (stubbed log it) (roomOffset log it.body.len) it).entries (y % log.len) =
      log.entries (y % log.len) := by
  have hs := hr.inside.2
  have hsi := sizeofEntry_le_len it.body
  have hb := hr.behind_lt
  have hsl : e ≤ slot log.len e it.body.len := le_slot (by omega)
  have hfit := slot_mod_add_lt (p := e) hs
  unfold behind at hb
  apply place_of_outside
  · rw [roomOffset_eq hend]
    by_contra hin
    have hne : y % log.len ≠ slot log.len e it.body.len % log.len +
        (y % log.len - slot log.len e it.body.len % log.len) :=
      place_ne (by omega) (by omega) (by omega)
    omega
  · intro _ hh
    rw [hend] at hh ⊢
    unfold sizeofEntry at hh hsi ⊢
    by_contra hin
    have hne : y % log.len ≠ e % log.len + (y % log.len - e % log.len) :=
      place_ne (by omega) (by omega) (by omega)
    omega

theorem Reaches.append (h : Reaches log p items)
    (hr : Spare log p (finish log.len p (lens items)) it.body.len) :
    Reaches (place log (stubbed log it) (roomOffset log it.body.len) it) p (items ++ [it]) where
  laid := by
    refine laid_append.mpr ⟨?_, ?_, trivial⟩
    · exact h.laid.congr rfl fun y hy hy' => place_kept h.endOff hr hy hy'
    · exact laidAt_place h.endOff hr.inside fun hw => (hr.stub hw).1
  endOff := by
    have hmod := behind_mod (p := finish log.len p (lens items)) hr.inside.2
    rw [lens_append, finish_append]
    change roomOffset log it.body.len + it.body.len =
      behind log.len (finish log.len p (lens items)) it.body.len % log.len
    rw [hmod, roomOffset_eq h.endOff]
  lap := by
    rw [lens_append, finish_append]
    exact hr.behind_lt

theorem reaches_first (hend : log.endOff = log.len) (hl : it.body.len < log.len) :
    Reaches (place log (stubbed log it) (roomOffset log it.body.len) it) 0 [it] := by
  have hoff : roomOffset log it.body.len = 0 := if_neg (by omega)
  have hsl : slot log.len 0 it.body.len = 0 := slot_of_lt (by rwa [Nat.zero_mod, Nat.zero_add])
  have hn : name log.len 0 = 0 := by
    unfold name
    rw [Nat.zero_mod, ite_self]
  have hs : Stored (place log (stubbed log it) 0 it) 0 it := stored_putEntry rfl
  rw [hoff]
  refine ⟨⟨⟨hl, ?_, ?_, ?_⟩, trivial⟩, ?_, ?_⟩
  · change 0 % log.len + it.body.len ≠ log.len
    rw [Nat.zero_mod, Nat.zero_add]
    exact hl.ne
  · change Headed _ (name log.len 0) it
    rw [hn]
    exact hs.toHeaded
  · change Stored _ (slot log.len 0 it.body.len % log.len) it
    rw [hsl, Nat.zero_mod]
    exact hs
  · change 0 + it.body.len = (slot log.len 0 it.body.len + it.body.len) % log.len
    rw [hsl, Nat.zero_add, Nat.mod_eq_of_lt hl]
  · change slot log.len 0 it.body.len + it.body.len < 0 + log.len
    omega

end Append

/-! ### The queue -/

section Queue

/-- The log holds the queue: from the position `p` of the head on lie the entries, numbered one
after the other. -/
structure Holds (s : Queue) (p : ℕ) : Prop where
  reaches : Reaches s.log p s.items
  head : s.log.head = p % s.log.len
  tail_lt : s.log.tail < s.log.len
  tail : ∀ items it, s.items = items ++ [it] →
    s.log.tail = slot s.log.len (finish s.log.len p (lens items)) it.body.len % s.log.len
  chain : s.items.IsChain fun it it' => it'.idx = it.idx % 2 ^ 64 + 1

structure Fresh (s : Queue) : Prop where
  items : s.items = []
  head : s.log.head = 0
  endOff : s.log.endOff = s.log.len
  tail : s.log.tail = s.log.len

variable {p : ℕ} {items : List Item} {term reqId cltId ret : ℕ} {body : EntryBody}

theorem Fresh.isLogEmpty_eq (h : Fresh s) : isLogEmpty s.log = true := by
  simp [isLogEmpty, h.endOff]

theorem Fresh.logGetEntry_eq (h : Fresh s) (offset : ℕ) : logGetEntry s.log offset = none :=
  if_pos h.isLogEmpty_eq

theorem Fresh.logAppendEntry_eq (h : Fresh s) (term reqId cltId : ℕ) (body : EntryBody) :
    logAppendEntry s.log term reqId cltId body =
      some (placeEntry s.log 1 term reqId cltId body) := by
  have ht : logGetTail s.log = some s.log.tail := by
    rw [logGetTail, if_neg (not_not.mpr h.tail), if_pos h.isLogEmpty_eq, h.tail]
  rw [logAppendEntry, ht, map_some]
  dsimp only
  rw [h.logGetEntry_eq]

theorem Fresh.append (h : Fresh s) (hr : HasRoom s.log body.len) :
    logAppendEntry s.log term reqId cltId body =
      some (place s.log (stubbed s.log ⟨1, term, reqId, cltId, body⟩)
        (roomOffset s.log body.len) ⟨1, term, reqId, cltId, body⟩, 1) := by
  have hl : body.len < s.log.len := by simpa [HasRoom, h.isLogEmpty_eq] using hr
  have hpos := len_pos body
  have hf : isLogFull s.log = false := by
    simp only [isLogFull, h.endOff, h.head, beq_eq_false_iff_ne]
    omega
  have hp := @placeEntry_of_room s.log ⟨1, term, reqId, cltId, body⟩ hf h.endOff.le
    ⟨by rw [h.endOff]; simp only; omega, hl⟩ (by
      intro _ hh
      rw [h.endOff, Nat.sub_self] at hh
      cases hh)
  rw [h.logAppendEntry_eq]
  exact congrArg some hp

theorem Fresh.holds (h : Fresh s) (hl : it.body.len < s.log.len) :
    Holds ⟨place s.log (stubbed s.log it) (roomOffset s.log it.body.len) it, [it], true⟩ 0 where
  reaches := reaches_first h.endOff hl
  head := h.head.trans (Nat.zero_mod _).symm
  tail_lt := by
    change roomOffset s.log it.body.len < s.log.len
    rw [roomOffset, if_neg (by rw [h.endOff]; omega)]
    omega
  tail := by
    rintro items it' heq
    obtain ⟨rfl, rfl⟩ : items = [] ∧ it' = it := by
      cases items <;> simp_all
    change roomOffset s.log it'.body.len = slot s.log.len 0 it'.body.len % s.log.len
    rw [roomOffset, if_neg (by rw [h.endOff]; omega),
      slot_of_lt (by rwa [Nat.zero_mod, Nat.zero_add]), Nat.zero_mod]
  chain := .singleton _

theorem Holds.isLogFull_nil (h : Holds s p) (hi : s.items = []) : isLogFull s.log = true := by
  have hend := h.reaches.endOff
  rw [hi, lens_nil, finish_nil] at hend
  simp [isLogFull, hend, h.head]

theorem Holds.lt_finish (h : Holds s p) (hi : s.items ≠ []) :
    p < finish s.log.len p (lens s.items) := by
  obtain ⟨it, items, heq⟩ := exists_cons_of_ne_nil hi
  rw [heq, lens_cons, finish_cons]
  exact (lt_behind h.reaches.len_pos (len_pos _)).trans_le (le_finish h.reaches.len_pos)

theorem Holds.isLogFull_cons (h : Holds s p) (hi : s.items ≠ []) : isLogFull s.log = false := by
  have hne := Cursor.slot_ne (h.lt_finish hi) h.reaches.lap
  simp only [isLogFull, beq_eq_false_iff_ne, h.reaches.endOff, h.head]
  exact hne.symm

theorem Holds.logGetTail_eq (h : Holds s p) : logGetTail s.log = some s.log.tail :=
  if_pos h.tail_lt.ne

theorem Holds.append_nil (h : Holds s p) (hi : s.items = []) :
    logAppendEntry s.log term reqId cltId body = some (s.log, 0) := by
  rw [logAppendEntry, h.logGetTail_eq, map_some]
  exact congrArg some (@placeEntry_of_full s.log ⟨_, term, reqId, cltId, body⟩ (h.isLogFull_nil hi))

theorem Holds.tail_entry (h : Holds s p) (hi : s.items = items ++ [it]) :
    logGetEntry s.log s.log.tail = some s.log.tail ∧
      entryIdx s.log s.log.tail = it.idx % 2 ^ 64 := by
  have hl := h.reaches
  rw [hi] at hl
  have hs := hl.drop.at_slot
  have hget := hs.logGetEntry_cons
  rw [h.tail items it hi]
  constructor
  · rw [hget, hl.drop.laid.1.name_slot]
  · exact hl.drop.laid.1.stored.idx

theorem Holds.append (h : Holds s p) (hi : s.items = items ++ [it]) (hne : s.items ≠ [])
    (hr : HasRoom s.log body.len) : logAppendEntry s.log term reqId cltId body =
      some (place s.log (stubbed s.log ⟨it.idx % 2 ^ 64 + 1, term, reqId, cltId, body⟩)
        (roomOffset s.log body.len) ⟨it.idx % 2 ^ 64 + 1, term, reqId, cltId, body⟩,
        it.idx % 2 ^ 64 + 1) := by
  have hr' := hr.room h.head h.reaches.endOff (h.lt_finish hne).le h.reaches.lap
  obtain ⟨hget, hidx⟩ := h.tail_entry hi
  have hend := Nat.mod_lt (finish s.log.len p (lens s.items)) h.reaches.len_pos
  rw [← h.reaches.endOff] at hend
  have hp := @placeEntry_of_room s.log ⟨it.idx % 2 ^ 64 + 1, term, reqId, cltId, body⟩
    (h.isLogFull_cons hne) hend.le hr'.inside
    fun hw _ => (hr'.stub (by simp only at hw; omega)).2
  rw [logAppendEntry, h.logGetTail_eq, map_some]
  dsimp only
  rw [hget]
  dsimp only
  rw [hidx]
  exact congrArg some hp

theorem Holds.push (h : Holds s p) {it' : Item} (hi : s.items = items ++ [it])
    (hidx : it'.idx = it.idx % 2 ^ 64 + 1)
    (hr : Spare s.log p (finish s.log.len p (lens s.items)) it'.body.len) :
    Holds ⟨place s.log (stubbed s.log it') (roomOffset s.log it'.body.len) it',
      s.items ++ [it'], true⟩ p where
  reaches := h.reaches.append hr
  head := h.head
  tail_lt := by
    change roomOffset s.log it'.body.len < s.log.len
    rw [roomOffset_eq h.reaches.endOff]
    exact Nat.mod_lt _ h.reaches.len_pos
  tail := by
    intro items' it'' heq
    obtain ⟨rfl, rfl⟩ := append_inj' heq rfl |>.imp id (fun h => (List.cons.inj h).1)
    exact roomOffset_eq h.reaches.endOff _
  chain := by
    change (s.items ++ [it']).IsChain _
    rw [hi, append_assoc]
    refine isChain_append_cons_cons.mpr ⟨?_, hidx, .singleton _⟩
    exact hi ▸ h.chain

theorem Reaches.skip_eq (h : Reaches log p items) {n offset : ℕ}
    (hs : skip log n (p % log.len) = some offset) :
    n ≤ items.length ∧ offset = finish log.len p (lens (items.take n)) % log.len := by
  induction n generalizing p items with
  | zero => exact ⟨Nat.zero_le _, by simpa [skip] using hs.symm⟩
  | succ n ih =>
    rw [skip] at hs
    cases items with
    | nil =>
      rw [h.logGetEntry_nil] at hs
      cases hs
    | cons it items =>
      rw [h.logGetEntry_cons, bind_some, h.laid.1.nextOffset_eq] at hs
      obtain ⟨hle, heq⟩ := ih h.rest hs
      exact ⟨Nat.succ_le_succ hle, heq⟩

theorem Reaches.settle_cons (h : Reaches log p (it :: items)) :
    settle log (p % log.len) = slot log.len p it.body.len % log.len := by
  rw [settle, h.logGetEntry_cons, h.laid.1.slot_eq]

theorem Reaches.settle_nil (h : Reaches log p []) : settle log (p % log.len) = p % log.len := by
  rw [settle, h.logGetEntry_nil]

theorem Holds.advance (h : Holds s p) {n offset : ℕ} (settled : Bool)
    (hs : skip s.log n s.log.head = some offset) : ∃ q, Holds { s with
      log := { s.log with head := if settled then settle s.log offset else offset }
      items := s.items.drop n } q := by
  rw [h.head] at hs
  obtain ⟨-, rfl⟩ := h.reaches.skip_eq hs
  have hr := h.reaches
  rw [← take_append_drop n s.items] at hr
  have hrest := hr.drop
  have hc := h.chain.drop n
  have ht : ∀ items it, s.items.drop n = items ++ [it] → s.log.tail =
      slot s.log.len (finish s.log.len (finish s.log.len p (lens (s.items.take n))) (lens items))
        it.body.len % s.log.len := by
    intro items it heq
    rw [← finish_append, ← lens_append]
    refine h.tail _ _ ?_
    rw [append_assoc, ← heq, take_append_drop]
  cases hi : s.items.drop n with
  | nil =>
    rw [hi] at hrest
    refine ⟨_, hrest.congr rfl rfl rfl, ?_, h.tail_lt, ?_, .nil⟩
    · dsimp only
      rw [hrest.settle_nil, ite_self]
    · intro items it heq
      exact absurd heq.symm (by simp)
  | cons it rest =>
    rw [hi] at hrest hc ht
    cases settled with
    | false => exact ⟨_, hrest.congr rfl rfl rfl, rfl, h.tail_lt, ht, hc⟩
    | true =>
      refine ⟨_, hrest.at_slot.congr rfl rfl rfl, hrest.settle_cons, h.tail_lt, ?_, hc⟩
      intro items it' heq
      rw [ht items it' heq]
      -- The first entry stays where it is under the new name of the head.
      cases items with
      | nil =>
        obtain ⟨rfl, -⟩ := List.cons.inj heq
        change _ = slot s.log.len (slot s.log.len _ it.body.len) it.body.len % s.log.len
        rw [slot_slot hrest.laid.1.short]
        rfl
      | cons it₂ items =>
        obtain ⟨rfl, -⟩ := List.cons.inj heq
        dsimp only
        rw [lens_cons, finish_cons, finish_cons, behind_slot hrest.laid.1.short]

def Kept (s : Queue) : Prop := Fresh s ∨ ∃ p, Holds s p

theorem Kept.append (h : Kept s) (hr : HasRoom s.log body.len)
    (happend : logAppendEntry s.log term reqId cltId body = some (log', ret)) (hret : ret ≠ 0) :
    log' = place s.log (stubbed s.log ⟨ret, term, reqId, cltId, body⟩)
        (roomOffset s.log body.len) ⟨ret, term, reqId, cltId, body⟩ ∧
      ((Fresh s ∧ Holds ⟨log', [⟨ret, term, reqId, cltId, body⟩], true⟩ 0) ∨
        ∃ p, Holds s p ∧ Holds ⟨log', s.items ++ [⟨ret, term, reqId, cltId, body⟩], true⟩ p ∧
          Spare s.log p (finish s.log.len p (lens s.items)) body.len) := by
  rcases h with hf | ⟨p, hh⟩
  · have hl : body.len < s.log.len := by simpa [HasRoom, hf.isLogEmpty_eq] using hr
    rw [hf.append hr] at happend
    cases happend
    refine ⟨rfl, .inl ⟨hf, ?_⟩⟩
    exact @Fresh.holds s ⟨1, term, reqId, cltId, body⟩ hf hl
  · by_cases hne : s.items = []
    · rw [hh.append_nil hne] at happend
      cases happend
      exact absurd rfl hret
    · obtain ⟨items, it, hi⟩ := (eq_nil_or_concat' s.items).resolve_left hne
      have hr' := hr.room hh.head hh.reaches.endOff (hh.lt_finish hne).le
        hh.reaches.lap
      rw [hh.append hi hne hr] at happend
      cases happend
      refine ⟨rfl, .inr ⟨p, hh, ?_, hr'⟩⟩
      exact @Holds.push s it p items hh ⟨it.idx % 2 ^ 64 + 1, term, reqId, cltId, body⟩ hi
        rfl hr'

theorem Kept.refused (h : Kept s) (hr : HasRoom s.log body.len)
    (happend : logAppendEntry s.log term reqId cltId body = some (log', 0)) : log' = s.log := by
  rcases h with hf | ⟨p, hh⟩
  · rw [hf.append hr] at happend
    cases happend
  · by_cases hne : s.items = []
    · rw [hh.append_nil hne] at happend
      cases happend
      rfl
    · obtain ⟨items, it, hi⟩ := (eq_nil_or_concat' s.items).resolve_left hne
      rw [hh.append hi hne hr] at happend
      cases happend

theorem Kept.step (h : Kept s) {op : QueueOp} (hok : hasRoom s op)
    (hst : ring.step s op = some t) : Kept t := by
  cases op with
  | append term reqId cltId body =>
    obtain ⟨⟨log', ret⟩, happend, rfl⟩ := map_eq_some_iff.mp hst
    by_cases hret : ret = 0
    · subst hret
      obtain rfl := h.refused hok happend
      exact h
    · dsimp only
      rw [if_neg hret]
      obtain ⟨-, ⟨hf, hh⟩ | ⟨p, -, hh, -⟩⟩ := h.append hok happend hret
      · rw [hf.items]
        exact .inr ⟨0, hh⟩
      · exact .inr ⟨p, hh⟩
  | advance n settled =>
    obtain ⟨offset, hs, rfl⟩ := map_eq_some_iff.mp hst
    rcases h with hf | ⟨p, hh⟩
    · cases n with
      | zero =>
        obtain rfl : s.log.head = offset := Option.some.inj hs
        refine .inl ⟨by simp [hf.items], ?_, hf.endOff, hf.tail⟩
        dsimp only
        rw [settle, hf.logGetEntry_eq, ite_self, hf.head]
      | succ n =>
        rw [skip, hf.logGetEntry_eq] at hs
        cases hs
    · exact .inr (hh.advance settled hs)

theorem kept_of_run (h : ring.Run hasRoom (start len) s) : Kept s :=
  Run.invariant (I := Kept) h (.inl ⟨rfl, rfl, rfl, rfl⟩) fun _ _ _ hk hok hs =>
    hk.step hok hs

theorem Fresh.logWalk_eq (h : Fresh s) {fuel : ℕ} (hf : 0 < fuel) (offset : ℕ) :
    logWalk s.log fuel offset = some [] := by
  obtain ⟨fuel, rfl⟩ : ∃ k, fuel = k + 1 := ⟨fuel - 1, by omega⟩
  rw [logWalk, h.logGetEntry_eq]

theorem length_names (len p : ℕ) (items : List Item) :
    (names len p items).length = items.length := by
  induction items generalizing p with
  | nil => rfl
  | cons it items ih => rw [names, length_cons, ih, length_cons]

theorem names_append (len p : ℕ) (items : List Item) (it : Item) :
    names len p (items ++ [it]) = names len p items ++ [name len (finish len p (lens items))] := by
  induction items generalizing p with
  | nil => rfl
  | cons it items ih => rw [cons_append, names, ih]; rfl

theorem exists_position {e x : ℕ} (hle : p ≤ e) (hlap : e < p + len)
    (h : OnArc len (p % len) (e % len) x) : ∃ y, p ≤ y ∧ y < e ∧ y % len = x := by
  have hl := lap_cases hle hlap
  have hlen : 0 < len := by omega
  have hp := Nat.mod_lt p hlen
  have he := Nat.mod_lt e hlen
  unfold OnArc at h
  have hc : (p % len ≤ x ∧ x < len ∧ p + x < e + p % len) ∨
      (x < e % len ∧ p + e % len ≤ e + x) := by
    split_ifs at h <;> omega
  rcases hc with ⟨hlo, hhi, hlt⟩ | ⟨hlt, hlo⟩
  · refine ⟨p + (x - p % len), by omega, by omega, ?_⟩
    rw [(Cursor.add_of_lt (by omega)).1]
    omega
  · have hmod := Nat.mod_le e len
    refine ⟨e - (e % len - x), by omega, by omega, ?_⟩
    have hdiv := Nat.div_add_mod e len
    have heq : e - (e % len - x) = x + len * (e / len) := by omega
    rw [heq, Nat.add_mul_mod_self_left, Nat.mod_eq_of_lt (by omega)]

theorem Holds.logWalk_append (h : Holds ⟨log', items ++ [it], true⟩ p) :
    (∀ fuel > items.length + 1, logWalk log' fuel log'.head =
      some (names log'.len p items ++ [name log'.len (finish log'.len p (lens items))])) ∧
      Stored log' (if logFitEntry log' (name log'.len (finish log'.len p (lens items)))
        (name log'.len (finish log'.len p (lens items)))
        then name log'.len (finish log'.len p (lens items)) else 0) it := by
  have hl : LaidAt log' (finish log'.len p (lens items)) it :=
    (laid_append.mp h.reaches.laid).2.1
  constructor
  · intro fuel hf
    have hw : logWalk log' fuel (p % log'.len) = _ :=
      h.reaches.logWalk_eq (by simpa using hf)
    rw [names_append] at hw
    exact h.head ▸ hw
  · rw [← hl.slot_eq]
    exact hl.stored

/-- An append with room keeps every byte from the head to the old end; walking from the head meets
the old entries and then the new one. -/
theorem append_keeps_entries (hrun : ring.Run hasRoom (start len) s)
    (hroom : HasRoom s.log body.len)
    (happend : logAppendEntry s.log term reqId cltId body = some (log', ret)) (hret : ret ≠ 0) :
    log'.head = s.log.head ∧
      (isLogEmpty s.log = false → ∀ x, OnArc s.log.len s.log.head s.log.endOff x →
        log'.entries x = s.log.entries x) ∧
      ∃ offs off, (∀ fuel > offs.length, logWalk s.log fuel s.log.head = some offs) ∧
        (∀ fuel > offs.length + 1, logWalk log' fuel log'.head = some (offs ++ [off])) ∧
        Stored log' (if logFitEntry log' off off then off else 0)
          ⟨ret, term, reqId, cltId, body⟩ := by
  obtain ⟨hplace, hcases⟩ := (kept_of_run hrun).append hroom happend hret
  have hlen : log'.len = s.log.len := by rw [hplace]; rfl
  refine ⟨by rw [hplace]; rfl, ?_, ?_⟩
  · intro hempty x hx
    rcases hcases with ⟨hfresh, -⟩ | ⟨p, hholds, -, hroom'⟩
    · rw [hfresh.isLogEmpty_eq] at hempty
      cases hempty
    · rw [hholds.head, hholds.reaches.endOff] at hx
      obtain ⟨y, hp, he, rfl⟩ :=
        exists_position (le_finish hholds.reaches.len_pos) hholds.reaches.lap hx
      rw [hplace]
      exact place_kept hholds.reaches.endOff hroom' hp he
  · rcases hcases with ⟨hfresh, hholds'⟩ | ⟨p, hholds, hholds', -⟩
    · rw [← nil_append [_]] at hholds'
      obtain ⟨hwalk, hstored⟩ := hholds'.logWalk_append
      exact ⟨[], _, fun fuel hfuel => hfresh.logWalk_eq hfuel _, hwalk, hstored⟩
    · obtain ⟨hwalk, hstored⟩ := hholds'.logWalk_append
      rw [hlen] at hwalk hstored
      refine ⟨_, _, ?_, by rwa [length_names], hstored⟩
      intro fuel hfuel
      rw [length_names] at hfuel
      rw [hholds.head]
      exact hholds.reaches.logWalk_eq hfuel

/-- A client command of `n` bytes. -/
def bytesCmd (n : Fin 256) : EntryBody :=
  .cmd ⟨CSM, by decide, by decide⟩ ⟨replicate n 1, by rw [length_replicate]; omega⟩

/-- A command that leaves a stub in front of the end of the buffer. -/
theorem append_keeps_entries_stub :
    ∃ s log' ret, ring.Run hasRoom (start 200) s ∧ HasRoom s.log (bytesCmd 20).len ∧
      logAppendEntry s.log 1 7 3 (bytesCmd 20) = some (log', ret) ∧ ret ≠ 0 ∧
      log'.head = s.log.head ∧
      ∃ offs off, (∀ fuel > offs.length + 1, logWalk log' fuel log'.head = some (offs ++ [off])) ∧
        Stored log' (if logFitEntry log' off off then off else 0) ⟨ret, 1, 7, 3, bytesCmd 20⟩ := by
  obtain ⟨s, hrun, hroom, hsome⟩ := System.exists_run_of_exec (M := ring) (s := start 200) hasRoom
    (p := fun s => HasRoom s.log (bytesCmd 20).len ∧
      (logAppendEntry s.log 1 7 3 (bytesCmd 20)).any fun r => decide (r.2 ≠ 0))
    [.append 1 0 0 .noop, .append 1 0 0 .noop, .append 1 0 0 .noop, .advance 2 false]
    (by decide +kernel)
  cases happend : logAppendEntry s.log 1 7 3 (bytesCmd 20) with
  | none => simp [happend] at hsome
  | some r =>
    have hret : r.2 ≠ 0 := by simpa [happend] using hsome
    obtain ⟨hhead, -, offs, off, -, hwalk, hstored⟩ :=
      append_keeps_entries hrun hroom happend hret
    exact ⟨s, r.1, r.2, hrun, hroom, happend, hret, hhead, offs, off, hwalk, hstored⟩

/-- A command that starts with the next lap runs over the entry at the head. -/
theorem append_over_head : ∃ s t, ring.Run anyStep (start 200) s ∧
      ring.step s (.append 1 7 3 (bytesCmd 30)) = some t ∧
      s.log.endOff ≠ s.log.len ∧ t.items.length = s.items.length + 1 ∧
      logWalk s.log 3 s.log.head = some [48, 96] ∧ entryIdx t.log 48 ≠ entryIdx s.log 48 :=
  System.exists_step_of_exec (M := ring) (s := start 200) anyStep
    (p := fun s t => s.log.endOff ≠ s.log.len ∧ t.items.length = s.items.length + 1 ∧
      logWalk s.log 3 s.log.head = some [48, 96] ∧ entryIdx t.log 48 ≠ entryIdx s.log 48)
    [.append 1 0 0 .noop, .append 1 0 0 .noop, .append 1 0 0 .noop, .advance 1 false]
    (.append 1 7 3 (bytesCmd 30)) (by decide +kernel)

theorem isChain_entryIdx {offs : List ℕ} (h : List.Forall₂ (Headed log) offs items)
    (hc : items.IsChain fun it it' => it'.idx = it.idx % 2 ^ 64 + 1) :
    offs.IsChain fun off off' => entryIdx log off' = (entryIdx log off + 1) % 2 ^ 64 := by
  induction h with
  | nil => exact .nil
  | cons hfirst hrest ih =>
    cases hrest with
    | nil => exact .singleton _
    | cons hs hrest =>
      obtain ⟨hidx, hc⟩ := isChain_cons_cons.mp hc
      refine isChain_cons_cons.mpr ⟨?_, ih hc⟩
      rw [hs.idx, hfirst.idx, hidx]

theorem Fresh.applyWalk_eq (h : Fresh s) {fuel : ℕ} (hf : 0 < fuel) (stop offset : ℕ) :
    applyWalk s.log stop fuel offset = some [] := by
  obtain ⟨fuel, rfl⟩ : ∃ k, fuel = k + 1 := ⟨fuel - 1, by omega⟩
  have hd : logIsOffsetLarger s.log stop offset = false := by
    simp [logIsOffsetLarger, logOffsetEndDistance, h.isLogEmpty_eq]
  rw [applyWalk, if_neg (by simp [hd])]

/-- The log is a queue: both ways of walking from the head to the end terminate and visit the
entries of the queue in order, with indices that go up by one. -/
theorem log_refines_queue (hrun : ring.Run hasRoom (start len) s) : ∃ offs offs',
      (∀ fuel > s.items.length, logWalk s.log fuel s.log.head = some offs) ∧
      (∀ fuel > 2 * s.items.length, applyWalk s.log s.log.endOff fuel s.log.head = some offs') ∧
      List.Forall₂ (Headed s.log) offs s.items ∧ List.Forall₂ (Stored s.log) offs' s.items ∧
      List.Forall₂ (fun off off' => off' = if logFitEntry s.log off off then off else 0)
        offs offs' ∧
      offs.IsChain fun off off' => entryIdx s.log off' = (entryIdx s.log off + 1) % 2 ^ 64 := by
  rcases kept_of_run hrun with hfresh | ⟨p, hholds⟩
  · rw [hfresh.items]
    exact ⟨[], [], fun fuel hfuel => hfresh.logWalk_eq (by simpa using hfuel) _,
      fun fuel hfuel => hfresh.applyWalk_eq (by simpa using hfuel) _ _, .nil, .nil, .nil, .nil⟩
  · have hlaid := hholds.reaches.laid
    refine ⟨_, _, ?_, ?_, forall₂_names hlaid, forall₂_slots hlaid, forall₂_names_slots hlaid,
      isChain_entryIdx (forall₂_names hlaid) hholds.chain⟩
    · intro fuel hfuel
      rw [hholds.head]
      exact hholds.reaches.logWalk_eq hfuel
    · intro fuel hfuel
      rw [hholds.head]
      have hreach := hholds.reaches
      rw [← List.append_nil s.items] at hreach
      exact hreach.applyWalk_eq hholds.reaches.endOff hfuel

theorem log_refines_queue_stub : ∃ s, ring.Run hasRoom (start 200) s ∧ s.items.length = 2 ∧
      ∃ offs offs', logWalk s.log 3 s.log.head = some offs ∧
        applyWalk s.log s.log.endOff 5 s.log.head = some offs' ∧
        List.Forall₂ (Headed s.log) offs s.items ∧
        List.Forall₂ (Stored s.log) offs' s.items ∧ offs ≠ offs' := by
  obtain ⟨s, hrun, hlen, hne⟩ := System.exists_run_of_exec (M := ring) (s := start 200) hasRoom
    (p := fun s => s.items.length = 2 ∧
      logWalk s.log 3 s.log.head ≠ applyWalk s.log s.log.endOff 5 s.log.head)
    [.append 1 0 0 .noop, .append 1 0 0 .noop, .append 1 0 0 .noop, .advance 2 false,
      .append 1 7 3 (bytesCmd 20)] (by decide +kernel)
  obtain ⟨offs, offs', hwalk, happly, hheaded, hstored, -⟩ := log_refines_queue hrun
  have hwalk' := hwalk 3 (by omega)
  have happly' := happly 5 (by omega)
  refine ⟨s, hrun, hlen, offs, offs', hwalk', happly', hheaded, hstored, ?_⟩
  rintro rfl
  exact hne (hwalk'.trans happly'.symm)

/-- A log filled exactly up to its head shows none of its entries. -/
theorem walk_of_filled : ∃ s, ring.Run noOverrun (start 150) s ∧ s.items.length = 3 ∧
      logWalk s.log 1 s.log.head = some [] :=
  System.exists_run_of_exec (M := ring) (s := start 150) noOverrun
    (p := fun s => s.items.length = 3 ∧ logWalk s.log 1 s.log.head = some [])
    [.append 1 0 0 .noop, .append 1 0 0 .noop, .append 1 0 0 .noop, .advance 1 false,
      .append 1 0 0 .noop] (by decide +kernel)

end Queue

/-! ### A refused append -/

section Refused

variable {term reqId cltId : ℕ} {body : EntryBody}

def entryBytes (log : Log) (off : ℕ) : List UInt8 :=
  log.entries.read (logEntryLen log off) (if logFitEntry log off off then off else 0)

/-- The entries seen by walking the log from its head, if `fuel` steps get to the end. -/
def seen (log : Log) (fuel : ℕ) : Option (List (ℕ × List UInt8)) :=
  (logWalk log fuel log.head).map fun offs => offs.map fun off => (off, entryBytes log off)

/-- The offsets of the log and the entries in it are the same. -/
structure Unchanged (log log' : Log) : Prop where
  head : log'.head = log.head
  apply : log'.apply = log.apply
  commit : log'.commit = log.commit
  endOff : log'.endOff = log.endOff
  seen : ∀ fuel, seen log' fuel = seen log fuel

theorem logWalk_tail (log : Log) (tail fuel offset : ℕ) :
    logWalk { log with tail := tail } fuel offset = logWalk log fuel offset := by
  induction fuel generalizing offset with
  | zero => rfl
  | succ fuel ih =>
    have hget : logGetEntry { log with tail := tail } offset = logGetEntry log offset := rfl
    rw [logWalk, logWalk, hget]
    cases logGetEntry log offset with
    | none => rfl
    | some off => exact congrArg (Option.map (off :: ·)) (ih (nextOffset log off))

theorem unchanged_tail (log : Log) (tail : ℕ) : Unchanged log { log with tail := tail } where
  head := rfl
  apply := rfl
  commit := rfl
  endOff := rfl
  seen := fun fuel => congrArg (Option.map _) (logWalk_tail log tail fuel log.head)

theorem placeEntry_refused (hlen : sizeofEntry ≤ log.len) (hidx : it.idx ≠ 0)
    (hf : isLogFull log = false)
    (hp : placeEntry log it.idx it.term it.reqId it.cltId it.body = (log', 0)) :
    log.head = 0 ∧ log'.endOff = 0 := by
  by_cases hfit : it.body.len ≤ log.len - startOffset log
  · rw [placeEntry_of_fit hf hfit] at hp
    exact absurd (Prod.mk.inj hp).2 hidx
  · rw [placeEntry_of_not_fit hf (by omega) hlen] at hp
    split_ifs at hp with hh
    · exact ⟨hh, by rw [← (Prod.mk.inj hp).1]⟩
    · exact absurd (Prod.mk.inj hp).2 hidx

/-- A refused append leaves the log as it was exactly if it was refused at once. -/
theorem refused_unchanged_iff (hlen : sizeofEntry ≤ log.len)
    (happend : logAppendEntry log term reqId cltId body = some (log', 0)) :
    Unchanged log log' ↔ log.endOff = log.head := by
  obtain ⟨tail, idx, hidx, hplace⟩ := exists_placeEntry happend
  constructor
  · intro hsame
    by_contra hne
    have hfull : isLogFull { log with tail := tail } = false := by
      simpa [isLogFull] using hne
    obtain ⟨hhead, hend⟩ := @placeEntry_refused { log with tail := tail } log'
      ⟨idx, term, reqId, cltId, body⟩ hlen hidx hfull hplace
    exact hne ((hsame.endOff.symm.trans hend).trans hhead.symm)
  · intro hend
    have hfull : isLogFull { log with tail := tail } = true := by
      simpa [isLogFull] using hend
    obtain rfl : { log with tail := tail } = log' := by
      have hsame := @placeEntry_of_full { log with tail := tail }
        ⟨idx, term, reqId, cltId, body⟩ hfull
      exact (Prod.mk.inj (hsame.symm.trans hplace)).1
    exact unchanged_tail log tail

/-- A log whose entries have all been passed refuses every entry. -/
theorem refused_unchanged_drained : ∃ s log', ring.Run hasRoom (start 200) s ∧
      logAppendEntry s.log 1 7 3 (bytesCmd 20) = some (log', 0) ∧ Unchanged s.log log' := by
  obtain ⟨s, hrun, hlen, hend, hsome⟩ := System.exists_run_of_exec (M := ring) (s := start 200)
    hasRoom (p := fun s => sizeofEntry ≤ s.log.len ∧ s.log.endOff = s.log.head ∧
      (logAppendEntry s.log 1 7 3 (bytesCmd 20)).any fun r => decide (r.2 = 0))
    [.append 1 0 0 .noop, .append 1 0 0 .noop, .advance 2 false] (by decide +kernel)
  cases happend : logAppendEntry s.log 1 7 3 (bytesCmd 20) with
  | none => simp [happend] at hsome
  | some r =>
    obtain ⟨log', ret⟩ := r
    obtain rfl : ret = 0 := by simpa [happend] using hsome
    exact ⟨s, log', hrun, happend, (refused_unchanged_iff hlen happend).mpr hend⟩

/-- A command whose header alone fits is refused by a log that starts at offset zero, and the
entries of the log are gone. -/
theorem refused_loses_entries : ∃ s, ring.Run hasRoom (start 200) s ∧ s.log.endOff = 144 ∧
      logWalk s.log 4 s.log.head = some [0, 48, 96] ∧
      (logAppendEntry s.log 1 7 3 (bytesCmd 20)).any fun (log', ret) =>
        decide (ret = 0 ∧ log'.endOff = 0 ∧ logWalk log' 4 log'.head = some []) :=
  System.exists_run_of_exec (M := ring) (s := start 200) hasRoom
    (p := fun s => s.log.endOff = 144 ∧ logWalk s.log 4 s.log.head = some [0, 48, 96] ∧
      (logAppendEntry s.log 1 7 3 (bytesCmd 20)).any fun (log', ret) =>
        decide (ret = 0 ∧ log'.endOff = 0 ∧ logWalk log' 4 log'.head = some []))
    [.append 1 0 0 .noop, .append 1 0 0 .noop, .append 1 0 0 .noop] (by decide +kernel)

end Refused

end VmFt.Dare.Ring
