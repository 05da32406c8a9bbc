import VmFt.Lib.Spool
import VmFt.Dare.RingAppend

/-! # Entries one behind the other

A list of entries laid out on the ring from a position on, as records of a
spool. Walking the log from the place of that position meets these entries, in
the style of `log_entries_to_nc_buf` under the offset of a stub if there is one,
in the style of `apply_committed_entries` where the entry is whole.
-/

namespace VmFt.Dare.Ring

open Spool

/-- The entries visited by the loop of `apply_committed_entries` up to the offset `stop`, if `fuel`
rounds get there. -/
def applyWalk (log : Log) (stop : ℕ) : ℕ → ℕ → Option (List ℕ)
  | 0, _ => none
  | fuel + 1, offset =>
    if logIsOffsetLarger log stop offset then
      match logGetEntry log offset with
      -- The entry cannot be missing; the source would read through a null pointer.
      | none => none
      | some off =>
        if logFitEntry log off off then
          (applyWalk log stop fuel (off + logEntryLen log off)).map (off :: ·)
        else applyWalk log stop fuel 0
    else some []

def lens (items : List Item) : List ℕ := items.map fun it => it.body.len

/-- The offset that `log_get_entry` makes of the place of a position. -/
def name (len p : ℕ) : ℕ := if sizeofEntry ≤ len - p % len then p % len else 0

/-- The offsets under which the entries from a position on are met first. -/
def names (len : ℕ) : ℕ → List Item → List ℕ
  | _, [] => []
  | p, it :: items => name len p :: names len (behind len p it.body.len) items

/-- The offsets at which the entries from a position on are whole. -/
def slots (len : ℕ) : ℕ → List Item → List ℕ
  | _, [] => []
  | p, it :: items => slot len p it.body.len % len :: slots len (behind len p it.body.len) items

/-- An entry lies behind a position, with a stub if it starts with the next lap and its header fits
in front of that. -/
structure LaidAt (log : Log) (p : ℕ) (it : Item) : Prop where
  short : it.body.len < log.len
  inside : p % log.len + it.body.len ≠ log.len
  headed : Headed log (name log.len p) it
  stored : Stored log (slot log.len p it.body.len % log.len) it

/-- The entries `items` lie one behind the other from the position `p` on. -/
def Laid (log : Log) : ℕ → List Item → Prop
  | _, [] => True
  | p, it :: items => LaidAt log p it ∧ Laid log (behind log.len p it.body.len) items

/-- The entries from the position `p` on reach to the end of the log, within a lap. -/
structure Reaches (log : Log) (p : ℕ) (items : List Item) : Prop where
  laid : Laid log p items
  endOff : log.endOff = finish log.len p (lens items) % log.len
  lap : finish log.len p (lens items) < p + log.len

variable {log : Log} {p : ℕ} {it : Item} {items items' : List Item}

@[simp]
theorem lens_nil : lens [] = [] := rfl

@[simp]
theorem lens_cons : lens (it :: items) = it.body.len :: lens items := rfl

@[simp]
theorem lens_append : lens (items ++ items') = lens items ++ lens items' := List.map_append

theorem len_pos (body : EntryBody) : 0 < body.len :=
  Nat.lt_of_lt_of_le (by decide : 0 < sizeofEntry) (sizeofEntry_le_len body)

/-! ### A single entry -/

namespace LaidAt

theorem nextOffset_eq (h : LaidAt log p it) :
    nextOffset log (name log.len p) = behind log.len p it.body.len % log.len := by
  have hsi := sizeofEntry_le_len it.body
  have hs := h.short
  have hi := h.inside
  rw [behind_mod hs, slot_mod, nextOffset, logFitEntry, h.headed.len]
  simp only [decide_eq_true_eq]
  unfold name sizeofEntry
  unfold sizeofEntry at hsi
  split_ifs <;> omega

theorem name_slot (h : LaidAt log p it) :
    name log.len (slot log.len p it.body.len) = slot log.len p it.body.len % log.len := by
  have hs := sizeofEntry_le_len it.body
  have hfit := slot_mod_add_lt (p := p) h.short
  exact if_pos (by omega)

theorem fit_slot (h : LaidAt log p it) : logFitEntry log (name log.len (slot log.len p it.body.len))
      (name log.len (slot log.len p it.body.len)) = true := by
  have hfit := slot_mod_add_lt (p := p) h.short
  rw [h.name_slot, logFitEntry, h.stored.len, decide_eq_true_eq]
  omega

theorem at_slot (h : LaidAt log p it) : LaidAt log (slot log.len p it.body.len) it where
  short := h.short
  inside := (slot_mod_add_lt h.short).ne
  headed := h.name_slot ▸ h.stored.toHeaded
  stored := by
    rw [slot_slot h.short]
    exact h.stored

theorem slot_eq (h : LaidAt log p it) : slot log.len p it.body.len % log.len =
      if logFitEntry log (name log.len p) (name log.len p) then name log.len p else 0 := by
  have hsi := sizeofEntry_le_len it.body
  have hs := h.short
  have hi := h.inside
  rw [logFitEntry, h.headed.len, slot_mod]
  simp only [decide_eq_true_eq]
  unfold name sizeofEntry
  unfold sizeofEntry at hsi
  split_ifs <;> omega

theorem congr {log' : Log} (h : LaidAt log p it) (hlen : log'.len = log.len)
    (heq : ∀ y, p ≤ y → y < behind log.len p it.body.len →
      log'.entries (y % log.len) = log.entries (y % log.len)) : LaidAt log' p it := by
  have hsi := sizeofEntry_le_len it.body
  have hs := h.short
  have hpos := len_pos it.body
  have hsl : p ≤ slot log.len p it.body.len := le_slot (by omega)
  have hfit := slot_mod_add_lt (p := p) hs
  -- The bytes of the whole entry are those of the positions behind its slot.
  have hw : ∀ x, slot log.len p it.body.len % log.len ≤ x →
      x < slot log.len p it.body.len % log.len + it.body.len →
      log'.entries x = log.entries x := by
    intro x hx hx'
    have key := heq (slot log.len p it.body.len + (x - slot log.len p it.body.len % log.len))
      (by omega) (by unfold behind; omega)
    rw [(Cursor.add_of_lt (by omega)).1] at key
    rwa [Nat.add_sub_cancel' hx] at key
  constructor
  · rwa [hlen]
  · rw [hlen]
    exact h.inside
  · rw [hlen]
    refine h.headed.congr fun x hx hx' => ?_
    unfold name at hx hx'
    split_ifs at hx hx' with hh
    · have key := heq (p + (x - p % log.len)) (by omega) (by unfold behind; omega)
      rw [(Cursor.add_of_lt (by omega)).1] at key
      rwa [Nat.add_sub_cancel' hx] at key
    · have hz : slot log.len p it.body.len % log.len = 0 := by
        rw [slot_mod, if_neg (by omega)]
      exact hw x (by omega) (by omega)
  · rw [hlen]
    exact h.stored.congr hw

end LaidAt

/-! ### The list of entries -/

theorem laid_append : Laid log p (items ++ items') ↔
    Laid log p items ∧ Laid log (finish log.len p (lens items)) items' := by
  induction items generalizing p with
  | nil => simp [Laid]
  | cons it items ih => simp [Laid, ih, and_assoc]

theorem Laid.congr {log' : Log} (h : Laid log p items) (hlen : log'.len = log.len)
    (heq : ∀ y, p ≤ y → y < finish log.len p (lens items) →
      log'.entries (y % log.len) = log.entries (y % log.len)) : Laid log' p items := by
  induction items generalizing p with
  | nil => trivial
  | cons it items ih =>
    obtain ⟨hfirst, hrest⟩ := h
    have hpos : 0 < log.len := (Nat.zero_le _).trans_lt hfirst.short
    have hle : behind log.len p it.body.len ≤ finish log.len p (lens (it :: items)) :=
      le_finish hpos
    have hlt : p < behind log.len p it.body.len := lt_behind hpos (len_pos _)
    constructor
    · exact hfirst.congr hlen fun y hy hy' => heq y hy (by omega)
    · rw [hlen]
      exact ih hrest fun y hy hy' => heq y (by omega) hy'

theorem forall₂_names (h : Laid log p items) :
    List.Forall₂ (Headed log) (names log.len p items) items := by
  induction items generalizing p with
  | nil => exact .nil
  | cons it items ih => exact .cons h.1.headed (ih h.2)

theorem forall₂_slots (h : Laid log p items) :
    List.Forall₂ (Stored log) (slots log.len p items) items := by
  induction items generalizing p with
  | nil => exact .nil
  | cons it items ih => exact .cons h.1.stored (ih h.2)

theorem forall₂_names_slots (h : Laid log p items) :
    List.Forall₂ (fun off off' => off' = if logFitEntry log off off then off else 0)
      (names log.len p items) (slots log.len p items) := by
  induction items generalizing p with
  | nil => exact .nil
  | cons it items ih => exact .cons h.1.slot_eq (ih h.2)

/-! ### Walking -/

theorem distance_of_end {e : ℕ} (hend : log.endOff = e % log.len) (hle : p ≤ e)
    (hlap : e < p + log.len) : logOffsetEndDistance log (p % log.len) = e - p := by
  have hl := Nat.mod_lt e (show 0 < log.len by omega)
  have hempty : isLogEmpty log = false := isLogEmpty_eq_false_iff.mpr (by omega)
  rw [logOffsetEndDistance_of_not_empty hempty, hend]
  exact Spool.distance_eq hle hlap

theorem logGetEntry_of_lt {e : ℕ} (hend : log.endOff = e % log.len) (hlt : p < e)
    (hlap : e < p + log.len) : logGetEntry log (p % log.len) = some (name log.len p) := by
  have hl := Nat.mod_lt e (show 0 < log.len by omega)
  have hempty : isLogEmpty log = false := isLogEmpty_eq_false_iff.mpr (by omega)
  have hd := distance_of_end hend hlt.le hlap
  rw [logGetEntry, if_neg (by simp [hempty]), if_neg (by omega)]
  unfold name
  simp only [logFitEntryHeader, decide_eq_true_eq]
  split_ifs <;> rfl

namespace Reaches

theorem len_pos (h : Reaches log p items) : 0 < log.len := by
  have hlap := h.lap
  by_contra hz
  obtain rfl | ⟨it, rest, rfl⟩ : items = [] ∨ ∃ it rest, items = it :: rest := by
    cases items <;> simp
  · simp at hlap
    omega
  · have := h.laid.1.short
    omega

theorem rest (h : Reaches log p (it :: items)) :
    Reaches log (behind log.len p it.body.len) items where
  laid := h.laid.2
  endOff := h.endOff
  lap := by
    have hlap := h.lap
    have hlt : p < behind log.len p it.body.len := lt_behind h.len_pos (Ring.len_pos _)
    rw [lens_cons, finish_cons] at hlap
    omega

theorem drop (h : Reaches log p (items ++ items')) :
    Reaches log (finish log.len p (lens items)) items' where
  laid := (laid_append.mp h.laid).2
  endOff := by rw [h.endOff, lens_append, finish_append]
  lap := by
    have hle : p ≤ finish log.len p (lens items) := le_finish h.len_pos
    have hlap := h.lap
    rw [lens_append, finish_append] at hlap
    omega

theorem congr {log' : Log} (h : Reaches log p items) (hlen : log'.len = log.len)
    (hend : log'.endOff = log.endOff) (heq : log'.entries = log.entries) :
    Reaches log' p items where
  laid := h.laid.congr hlen fun _ _ _ => by rw [heq]
  endOff := by rw [hend, hlen, h.endOff]
  lap := by
    rw [hlen]
    exact h.lap

theorem at_slot (h : Reaches log p (it :: items)) :
    Reaches log (slot log.len p it.body.len) (it :: items) := by
  have hsl : p ≤ slot log.len p it.body.len := le_slot h.len_pos
  have hs := h.laid.1.short
  have hb := behind_slot (p := p) hs
  refine ⟨⟨h.laid.1.at_slot, ?_⟩, ?_, ?_⟩
  · rw [hb]
    exact h.laid.2
  · rw [h.endOff, lens_cons, finish_cons, finish_cons, hb]
  · have hlap := h.lap
    rw [lens_cons, finish_cons] at hlap ⊢
    rw [hb]
    omega

theorem not_empty (h : Reaches log p items) : isLogEmpty log = false := by
  have := Nat.mod_lt (finish log.len p (lens items)) h.len_pos
  simp only [isLogEmpty, beq_eq_false_iff_ne, h.endOff]
  omega

theorem endOff_pos (h : Reaches log p items) (hne : items ≠ []) : 0 < log.endOff := by
  obtain ⟨init, it, rfl⟩ := (List.eq_nil_or_concat' items).resolve_left hne
  have hl := h.laid
  have hend := h.endOff
  rw [lens_append, finish_append, lens_cons, finish_cons, lens_nil, finish_nil,
    behind_mod (laid_append.mp hl).2.1.short] at hend
  have := Ring.len_pos it.body
  omega

theorem endOff_pos_of_lt (h : Reaches log p items) (hlt : log.endOff < p % log.len) :
    0 < log.endOff := by
  refine h.endOff_pos ?_
  rintro rfl
  exact hlt.ne h.endOff

theorem distance_eq (h : Reaches log p items) {q : ℕ} (hp : p ≤ q)
    (hq : q ≤ finish log.len p (lens items)) :
    logOffsetEndDistance log (q % log.len) = finish log.len p (lens items) - q := by
  have hlap := h.lap
  exact distance_of_end h.endOff hq (by omega)

theorem logGetEntry_nil (h : Reaches log p []) : logGetEntry log (p % log.len) = none := by
  have hd := h.distance_eq le_rfl le_rfl
  rw [lens_nil, finish_nil, Nat.sub_self] at hd
  rw [logGetEntry, if_neg (by simp [h.not_empty]), if_pos hd]

theorem logGetEntry_cons (h : Reaches log p (it :: items)) :
    logGetEntry log (p % log.len) = some (name log.len p) := by
  have hlt : p < behind log.len p it.body.len := lt_behind h.len_pos (Ring.len_pos _)
  exact logGetEntry_of_lt h.endOff (hlt.trans_le (behind_le_finish h.len_pos)) h.lap

theorem logWalk_eq (h : Reaches log p items) {fuel : ℕ} (hf : items.length < fuel) :
    logWalk log fuel (p % log.len) = some (names log.len p items) := by
  induction items generalizing p fuel with
  | nil =>
    obtain ⟨fuel, rfl⟩ : ∃ k, fuel = k + 1 := ⟨fuel - 1, by omega⟩
    rw [logWalk, h.logGetEntry_nil]
    rfl
  | cons it items ih =>
    rw [List.length_cons] at hf
    obtain ⟨fuel, rfl⟩ : ∃ k, fuel = k + 1 := ⟨fuel - 1, by omega⟩
    rw [logWalk, h.logGetEntry_cons]
    dsimp only
    rw [h.laid.1.nextOffset_eq, ih h.rest (by omega)]
    rfl

theorem applyWalk_visit (h : Reaches log p (it :: items)) {stop fuel : ℕ}
    (hs : logIsOffsetLarger log stop (p % log.len) = true)
    (hfit : logFitEntry log (name log.len p) (name log.len p) = true) :
    applyWalk log stop (fuel + 1) (p % log.len) =
      (applyWalk log stop fuel (behind log.len p it.body.len % log.len)).map
        (slot log.len p it.body.len % log.len :: ·) := by
  have hn := h.laid.1.slot_eq
  rw [if_pos hfit] at hn
  rw [applyWalk, if_pos hs, h.logGetEntry_cons]
  dsimp only
  rw [if_pos hfit, h.laid.1.headed.len, ← hn, behind_mod h.laid.1.short]

theorem logIsOffsetLarger_iff (h : Reaches log p items) {q r : ℕ} (hp : p ≤ q) (hq : p ≤ r)
    (hr : q ≤ finish log.len p (lens items)) (hr' : r ≤ finish log.len p (lens items)) :
    logIsOffsetLarger log (r % log.len) (q % log.len) = true ↔ q < r := by
  rw [logIsOffsetLarger, h.distance_eq hp hr, h.distance_eq hq hr', decide_eq_true_eq]
  omega

theorem applyWalk_eq (h : Reaches log p (items ++ items')) {stop fuel : ℕ}
    (hs : stop = finish log.len p (lens items) % log.len) (hf : 2 * items.length < fuel) :
    applyWalk log stop fuel (p % log.len) = some (slots log.len p items) := by
  induction items generalizing p fuel with
  | nil =>
    obtain ⟨fuel, rfl⟩ : ∃ k, fuel = k + 1 := ⟨fuel - 1, by omega⟩
    have hle : p ≤ finish log.len p (lens ([] ++ items')) := le_finish h.len_pos
    have hd := h.logIsOffsetLarger_iff le_rfl le_rfl hle hle
    rw [lens_nil, finish_nil] at hs
    rw [applyWalk, hs, if_neg (by rw [hd]; omega)]
    rfl
  | cons it items ih =>
    rw [List.length_cons] at hf
    rw [List.cons_append] at h
    rw [lens_cons, finish_cons] at hs
    have hsl : p ≤ slot log.len p it.body.len := le_slot h.len_pos
    have hlt : slot log.len p it.body.len < behind log.len p it.body.len :=
      Nat.lt_add_of_pos_right (Ring.len_pos _)
    have hle : behind log.len p it.body.len ≤
        finish log.len (behind log.len p it.body.len) (lens items) := le_finish h.len_pos
    have hend : finish log.len (behind log.len p it.body.len) (lens items) ≤
        finish log.len p (lens (it :: (items ++ items'))) := by
      rw [lens_cons, finish_cons, lens_append]
      exact finish_mono_left h.len_pos _ _
    have hm := h.logIsOffsetLarger_iff (r := finish log.len (behind log.len p it.body.len)
      (lens items)) le_rfl (by omega) (by omega) hend
    obtain ⟨fuel, rfl⟩ : ∃ k, fuel = k + 2 := ⟨fuel - 2, by omega⟩
    by_cases hfit : logFitEntry log (name log.len p) (name log.len p) = true
    · rw [h.applyWalk_visit (by rw [hs, hm]; omega) hfit, ih h.rest hs (by omega)]
      rfl
    · -- The offset of the stub is given up for that of the whole entry.
      have hn := h.laid.1.slot_eq
      rw [if_neg hfit] at hn
      have ha := h.logIsOffsetLarger_iff (r := finish log.len (behind log.len p it.body.len)
        (lens items)) hsl (by omega) (by omega) hend
      have hw : applyWalk log stop (fuel + 1) (slot log.len p it.body.len % log.len) = _ :=
        h.at_slot.applyWalk_visit (by rw [hs, ha]; omega) h.laid.1.fit_slot
      rw [applyWalk, if_pos (by rw [hs, hm]; omega), h.logGetEntry_cons]
      dsimp only
      rw [if_neg hfit, ← hn, hw, slot_slot h.laid.1.short, behind_slot h.laid.1.short,
        ih h.rest hs (by omega)]
      rfl

end Reaches

end VmFt.Dare.Ring
