import VmFt.Dare.RingLayout

/-! # The entries behind an offset

What lies behind an offset of the circular log, in the terms of the code: an entry is
whole at one offset, its header may lie at another one as a stub, and of two offsets the
later one is closer to the end. An entry may end exactly at the end of the buffer as long
as the log does not end there. Entries that are laid out on the ring lie behind the place
of their position.
-/

namespace VmFt.Dare.Ring

open Spool

/-- The entry `it` is the next one behind the offset `o` and is whole at `w`. -/
structure Next (log : Log) (o w : ℕ) (it : Item) : Prop where
  place : w = if it.body.len ≤ log.len - o then o else 0
  fits : it.body.len ≤ log.len - w
  headed : sizeofEntry ≤ log.len - o → Headed log o it
  stored : Stored log w it
  reach : logOffsetEndDistance log w = logOffsetEndDistance log (w + it.body.len) + it.body.len
  gap : logOffsetEndDistance log w ≤ logOffsetEndDistance log o

/-- The entries from the offset `o` to the offset `e`, with the offsets at which they are whole. -/
def Trail (log : Log) : ℕ → List (ℕ × Item) → ℕ → Prop
  | o, [], e => o = e
  | o, (w, it) :: xs, e => Next log o w it ∧ Trail log (w + it.body.len) xs e

/-- The entries `xs` are those from the offset `o` to the end of the log. -/
def Scans (log : Log) (o : ℕ) (xs : List (ℕ × Item)) : Prop :=
  if isLogEmpty log then xs = [] else Trail log o xs log.endOff

/-- The offset that `log_get_entry` makes of an offset. -/
def entryOffset (log : Log) (o : ℕ) : ℕ := if logFitEntryHeader log o then o else 0

/-- The offsets under which `log_get_entry` finds the entries behind an offset. -/
def entryOffsets (log : Log) : ℕ → List (ℕ × Item) → List ℕ
  | _, [] => []
  | o, (w, it) :: xs => entryOffset log o :: entryOffsets log (w + it.body.len) xs

instance (log : Log) (off : ℕ) (it : Item) : Decidable (Headed log off it) :=
  decidable_of_iff (entryIdx log off = it.idx % 2 ^ 64 ∧ entryTerm log off = it.term % 2 ^ 64 ∧
      entryReqId log off = it.reqId % 2 ^ 64 ∧ entryCltId log off = it.cltId % 2 ^ 16 ∧
      entryType log off = it.body.type ∧ logEntryLen log off = it.body.len)
    ⟨fun ⟨h₁, h₂, h₃, h₄, h₅, h₆⟩ => ⟨h₁, h₂, h₃, h₄, h₅, h₆⟩,
      fun h => ⟨h.idx, h.term, h.reqId, h.cltId, h.type, h.len⟩⟩

instance (log : Log) (off : ℕ) (it : Item) : Decidable (Stored log off it) :=
  decidable_of_iff (Headed log off it ∧
      log.entries.read it.body.bytes.length (off + 32) = it.body.bytes)
    ⟨fun ⟨h₁, h₂⟩ => ⟨h₁, h₂⟩, fun h => ⟨h.toHeaded, h.data⟩⟩

instance (log : Log) (o w : ℕ) (it : Item) : Decidable (Next log o w it) :=
  decidable_of_iff (w = (if it.body.len ≤ log.len - o then o else 0) ∧
      it.body.len ≤ log.len - w ∧ (sizeofEntry ≤ log.len - o → Headed log o it) ∧
      Stored log w it ∧ logOffsetEndDistance log w =
        logOffsetEndDistance log (w + it.body.len) + it.body.len ∧
      logOffsetEndDistance log w ≤ logOffsetEndDistance log o)
    ⟨fun ⟨h₁, h₂, h₃, h₄, h₅, h₆⟩ => ⟨h₁, h₂, h₃, h₄, h₅, h₆⟩,
      fun h => ⟨h.place, h.fits, h.headed, h.stored, h.reach, h.gap⟩⟩

instance decidableTrail (log : Log) : (o : ℕ) → (xs : List (ℕ × Item)) → (e : ℕ) →
    Decidable (Trail log o xs e)
  | o, [], e => inferInstanceAs (Decidable (o = e))
  | _, (w, it) :: xs, e =>
    haveI := decidableTrail log (w + it.body.len) xs e
    inferInstanceAs (Decidable (Next log _ w it ∧ Trail log (w + it.body.len) xs e))

variable {log : Log} {o w e : ℕ} {it : Item} {xs ys : List (ℕ × Item)}

theorem logGetEntry_of_pos (hempty : isLogEmpty log = false)
    (hpos : 0 < logOffsetEndDistance log o) : logGetEntry log o = some (entryOffset log o) := by
  rw [logGetEntry, if_neg (by simp [hempty]), if_neg hpos.ne', entryOffset]
  split_ifs <;> rfl

theorem logGetEntry_of_zero (hend : logOffsetEndDistance log o = 0) : logGetEntry log o = none := by
  unfold logGetEntry
  split_ifs
  · rfl
  · rfl

namespace Next

theorem pos (h : Next log o w it) : 0 < logOffsetEndDistance log o := by
  have hlen := len_pos it.body
  have hr := h.reach
  have hgap := h.gap
  omega

theorem not_empty (h : Next log o w it) : isLogEmpty log = false := by
  cases hempty : isLogEmpty log with
  | false => rfl
  | true =>
    have hpos := h.pos
    rw [logOffsetEndDistance, if_pos hempty] at hpos
    exact absurd hpos (Nat.lt_irrefl 0)

theorem logGetEntry_eq (h : Next log o w it) : logGetEntry log o = some (entryOffset log o) :=
  logGetEntry_of_pos h.not_empty h.pos

theorem entryOffset_eq (h : Next log o w it) : (entryOffset log o = w ∧ it.body.len ≤ log.len - w) ∨
      (entryOffset log o = o ∧ w = 0 ∧ log.len - o < it.body.len) := by
  have hs := sizeofEntry_le_len it.body
  have hp := h.place
  unfold entryOffset
  split_ifs at hp ⊢ with hh hfit hfit
  · exact .inl ⟨hp.symm, h.fits⟩
  · exact .inr ⟨rfl, hp, by omega⟩
  · rw [logFitEntryHeader_iff] at hh
    omega
  · exact .inl ⟨hp.symm, h.fits⟩

theorem headed_entryOffset (h : Next log o w it) : Headed log (entryOffset log o) it := by
  by_cases hh : logFitEntryHeader log o = true
  · rw [entryOffset, if_pos hh]
    exact h.headed (logFitEntryHeader_iff.mp hh)
  · have hz : entryOffset log o = 0 := if_neg hh
    rcases h.entryOffset_eq with ⟨heq, -⟩ | ⟨-, hw, -⟩
    · rw [heq]
      exact h.stored.toHeaded
    · rw [hz, ← hw]
      exact h.stored.toHeaded

theorem fit_iff (h : Next log o w it) :
    logFitEntry log (entryOffset log o) (entryOffset log o) = true ↔ entryOffset log o = w := by
  have hfits := h.fits
  rw [logFitEntry, h.headed_entryOffset.len, decide_eq_true_eq]
  rcases h.entryOffset_eq with ⟨heq, -⟩ | ⟨heq, hw, hl⟩
  · rw [heq]
    exact ⟨fun _ => rfl, fun _ => hfits⟩
  · rw [heq]
    constructor
    · omega
    · rintro rfl
      exact hfits

theorem nextOffset_eq (h : Next log o w it) :
    nextOffset log (entryOffset log o) = w + it.body.len := by
  rw [nextOffset, h.headed_entryOffset.len]
  rcases h.entryOffset_eq with ⟨heq, -⟩ | ⟨heq, hw, hl⟩
  · rw [if_pos (h.fit_iff.mpr heq), heq]
  · have hfit : ¬ logFitEntry log (entryOffset log o) (entryOffset log o) = true := by
      rw [logFitEntry, h.headed_entryOffset.len, heq, decide_eq_true_eq]
      omega
    rw [if_neg hfit, hw]

theorem at_whole (h : Next log o w it) : Next log w w it where
  place := (if_pos h.fits).symm
  fits := h.fits
  headed := fun _ => h.stored.toHeaded
  stored := h.stored
  reach := h.reach
  gap := Nat.le_refl _

theorem entryOffset_whole (h : Next log o w it) : entryOffset log w = w :=
  if_pos (logFitEntryHeader_iff.mpr ((sizeofEntry_le_len it.body).trans h.fits))

theorem lt_of_zero (h : Next log o 0 it) (hne : o ≠ 0) (hlt : o < log.len) :
    logOffsetEndDistance log 0 < logOffsetEndDistance log o := by
  have hgap := h.gap
  simp only [logOffsetEndDistance_of_not_empty h.not_empty] at hgap ⊢
  split_ifs at * <;> omega

end Next

namespace Trail

theorem append_iff : Trail log o (xs ++ ys) e ↔ ∃ m, Trail log o xs m ∧ Trail log m ys e := by
  induction xs generalizing o with
  | nil => simp [Trail]
  | cons x xs ih =>
    obtain ⟨w, it⟩ := x
    simp only [List.cons_append, Trail, ih]
    constructor
    · rintro ⟨hn, m, hxs, hys⟩
      exact ⟨m, ⟨hn, hxs⟩, hys⟩
    · rintro ⟨m, ⟨hn, hxs⟩, hys⟩
      exact ⟨hn, m, hxs, hys⟩

theorem distance_le (h : Trail log o xs e) :
    sizeofEntry * xs.length + logOffsetEndDistance log e ≤ logOffsetEndDistance log o := by
  induction xs generalizing o with
  | nil =>
    obtain rfl : o = e := h
    simp
  | cons x xs ih =>
    obtain ⟨w, it⟩ := x
    obtain ⟨hn, hrest⟩ := h
    have hih := ih hrest
    have hs := sizeofEntry_le_len it.body
    have hr := hn.reach
    have hgap := hn.gap
    rw [List.length_cons, Nat.mul_add, Nat.mul_one]
    omega

theorem next_mem (h : Trail log o xs e) {x : ℕ × Item} (hx : x ∈ xs) :
    ∃ o', Next log o' x.1 x.2 ∧ logOffsetEndDistance log o' ≤ logOffsetEndDistance log o := by
  obtain ⟨ys, zs, rfl⟩ := List.append_of_mem hx
  obtain ⟨m, hys, hn, -⟩ := append_iff.mp h
  exact ⟨m, hn, (Nat.le_add_left _ _).trans hys.distance_le⟩

theorem logWalk_eq (h : Trail log o xs e) (hend : logOffsetEndDistance log e = 0) {fuel : ℕ}
    (hf : xs.length < fuel) : logWalk log fuel o = some (entryOffsets log o xs) := by
  induction xs generalizing o fuel with
  | nil =>
    obtain rfl : o = e := h
    obtain ⟨fuel, rfl⟩ : ∃ k, fuel = k + 1 := ⟨fuel - 1, by omega⟩
    rw [logWalk, logGetEntry_of_zero hend]
    rfl
  | cons x xs ih =>
    obtain ⟨w, it⟩ := x
    obtain ⟨hn, hrest⟩ := h
    rw [List.length_cons] at hf
    obtain ⟨fuel, rfl⟩ : ∃ k, fuel = k + 1 := ⟨fuel - 1, by omega⟩
    rw [logWalk, hn.logGetEntry_eq]
    dsimp only
    rw [hn.nextOffset_eq, ih hrest (by omega)]
    rfl

theorem le_len (h : Trail log o xs e) (hne : xs ≠ []) : e ≤ log.len := by
  induction xs generalizing o with
  | nil => exact absurd rfl hne
  | cons x xs ih =>
    obtain ⟨w, it⟩ := x
    obtain ⟨hn, hrest⟩ := h
    cases xs with
    | nil =>
      have hfits := hn.fits
      have hpos := len_pos it.body
      obtain rfl : w + it.body.len = e := hrest
      omega
    | cons y ys => exact ih hrest (List.cons_ne_nil _ _)

theorem endOff_le (h : Trail log o xs e) (hend : logOffsetEndDistance log e = 0)
    (hne : xs ≠ []) : log.endOff ≤ log.len := by
  have hle := h.le_len hne
  have hempty : isLogEmpty log = false := by
    obtain ⟨⟨w, it⟩, xs, rfl⟩ := List.exists_cons_of_ne_nil hne
    exact h.1.not_empty
  rw [logOffsetEndDistance_of_not_empty hempty] at hend
  split_ifs at hend <;> omega

theorem length_lt_len (h : Trail log o xs e) (hend : logOffsetEndDistance log e = 0)
    (hpos : 0 < log.len) : xs.length < log.len := by
  by_cases hne : xs = []
  · rwa [hne]
  · have hle := h.endOff_le hend hne
    have hd := h.distance_le
    have hmax : logOffsetEndDistance log o ≤ log.len := by
      unfold logOffsetEndDistance
      split_ifs <;> omega
    have hlen := List.length_pos_iff.mpr hne
    unfold sizeofEntry at hd
    omega

end Trail

/-! ### Entries that are laid out on the ring -/

theorem LaidAt.place_eq {p : ℕ} (h : LaidAt log p it) : slot log.len p it.body.len % log.len =
      if it.body.len ≤ log.len - p % log.len then p % log.len else 0 := by
  have hi := h.inside
  have hs := h.short
  have hpos := len_pos it.body
  rw [slot_mod]
  split_ifs <;> omega

theorem Reaches.next {p : ℕ} {items : List Item} (h : Reaches log p (it :: items)) :
    Next log (p % log.len) (slot log.len p it.body.len % log.len) it where
  place := h.laid.1.place_eq
  fits := by
    have := slot_mod_add_lt (p := p) h.laid.1.short
    omega
  headed := by
    intro hhe
    have hh := h.laid.1.headed
    rwa [name, if_pos hhe] at hh
  stored := h.laid.1.stored
  reach := by
    have hs : p ≤ slot log.len p it.body.len := le_slot h.len_pos
    have hle : behind log.len p it.body.len ≤ finish log.len p (lens (it :: items)) :=
      le_finish h.len_pos
    have hf := h.distance_eq hs ((Nat.le_add_right _ _).trans hle)
    have hto := h.distance_eq (hs.trans (Nat.le_add_right _ _)) hle
    have hmod := behind_mod (p := p) h.laid.1.short
    unfold behind at hle hmod
    rw [hmod] at hto
    rw [hf, hto]
    omega
  gap := by
    have hs : p ≤ slot log.len p it.body.len := le_slot h.len_pos
    have hle : behind log.len p it.body.len ≤ finish log.len p (lens (it :: items)) :=
      le_finish h.len_pos
    have hend := (Nat.le_add_right _ _).trans hle
    rw [h.distance_eq hs hend, h.distance_eq (Nat.le_refl p) (hs.trans hend)]
    omega

theorem Reaches.trail {p : ℕ} {items : List Item} (h : Reaches log p items) :
    Trail log (p % log.len) ((slots log.len p items).zip items) log.endOff := by
  induction items generalizing p with
  | nil => exact h.endOff.symm
  | cons it items ih =>
    refine ⟨h.next, ?_⟩
    rw [← behind_mod h.laid.1.short]
    exact ih h.rest

end VmFt.Dare.Ring
