import VmFt.Lib.Cursor

/-! # Records on a ring

Records of varying length are written one behind the other onto a ring of `len`
places. Positions are counted from the start and never wrap; the place of a
position is its remainder. A record that would not end in front of the end of a
lap starts with the next lap.
-/

namespace VmFt.Spool

variable {len p q l x : ℕ} {ls : List ℕ}

/-- Where a record of length `l` starts if everything up to `p` is taken. -/
def slot (len p l : ℕ) : ℕ := if p % len + l < len then p else (p / len + 1) * len

/-- The position behind a record of length `l` that follows the position `p`. -/
def behind (len p l : ℕ) : ℕ := slot len p l + l

/-- The position behind a list of records. -/
def finish (len p : ℕ) (ls : List ℕ) : ℕ := ls.foldl (behind len) p

@[simp]
theorem finish_nil : finish len p [] = p := rfl

@[simp]
theorem finish_cons : finish len p (l :: ls) = finish len (behind len p l) ls := rfl

@[simp]
theorem finish_append (ls ls' : List ℕ) :
    finish len p (ls ++ ls') = finish len (finish len p ls) ls' :=
  List.foldl_append

theorem slot_of_lt (h : p % len + l < len) : slot len p l = p := if_pos h

theorem slot_of_le (h : len ≤ p % len + l) : slot len p l = (p / len + 1) * len :=
  if_neg (not_lt.mpr h)

theorem next_lap (len p : ℕ) : (p / len + 1) * len = p - p % len + len := by
  rw [Nat.add_mul, Nat.one_mul, Nat.mul_comm]
  have := Nat.div_add_mod p len
  omega

theorem le_slot (hlen : 0 < len) : p ≤ slot len p l := by
  unfold slot
  split_ifs
  · exact le_rfl
  · have := Nat.mod_lt p hlen
    have := Nat.mod_le p len
    rw [next_lap]
    omega

theorem slot_mod (len p l : ℕ) : slot len p l % len = if p % len + l < len then p % len else 0 := by
  unfold slot
  split_ifs
  · rfl
  · exact Nat.mul_mod_left _ _

theorem slot_mod_add_lt (hl : l < len) : slot len p l % len + l < len := by
  rw [slot_mod]
  split_ifs with h
  · exact h
  · rwa [Nat.zero_add]

theorem behind_mod (hl : l < len) : behind len p l % len = slot len p l % len + l :=
  (Cursor.add_of_lt (slot_mod_add_lt hl)).1

theorem slot_slot (hl : l < len) : slot len (slot len p l) l = slot len p l :=
  slot_of_lt (slot_mod_add_lt hl)

theorem behind_slot (hl : l < len) : behind len (slot len p l) l = behind len p l := by
  unfold behind
  rw [slot_slot hl]

theorem lt_behind (hlen : 0 < len) (hl : 0 < l) : p < behind len p l := by
  have : p ≤ slot len p l := le_slot hlen
  unfold behind
  omega

theorem le_finish (hlen : 0 < len) : p ≤ finish len p ls := by
  induction ls generalizing p with
  | nil => exact le_rfl
  | cons l ls ih =>
    have hs : p ≤ slot len p l := le_slot hlen
    exact (hs.trans (Nat.le_add_right _ _)).trans ih

theorem finish_mono_left (hlen : 0 < len) (ls ls' : List ℕ) :
    finish len p ls ≤ finish len p (ls ++ ls') := by
  rw [finish_append]
  exact le_finish hlen

theorem lap_cases (hle : p ≤ q) (hlap : q < p + len) :
    p % len ≤ q % len ∧ q + p % len = p + q % len ∨
      q % len < p % len ∧ q + p % len = p + q % len + len := by
  have hlen : 0 < len := by omega
  have hp := Nat.div_add_mod p len
  have hq := Nat.div_add_mod q len
  have hla := Nat.mod_lt p hlen
  have hla' := Nat.mod_lt q hlen
  obtain ⟨hl, hl'⟩ := Cursor.lap_le hlen hle hlap.le
  rcases Nat.lt_or_eq_of_le hl with hn | hs
  · have hone : q / len = p / len + 1 := by omega
    rw [hone, Nat.mul_add, Nat.mul_one] at hq
    omega
  · rw [← hs] at hq
    omega

theorem distance_eq (hle : p ≤ q) (hlap : q < p + len) :
    (if p % len ≤ q % len then q % len - p % len else len - (p % len - q % len)) = q - p := by
  have hla := Nat.mod_lt p (show 0 < len by omega)
  have hl := lap_cases hle hlap
  split_ifs <;> omega

theorem lt_next_lap (hlen : 0 < len) : p < (p / len + 1) * len := by
  have := Nat.mod_lt p hlen
  have := Nat.mod_le p len
  rw [next_lap]
  omega

theorem div_of_lt_next_lap (hle : p ≤ q) (hlt : q < (p / len + 1) * len) : q / len = p / len := by
  have hlo : p / len ≤ q / len := Nat.div_le_div_right hle
  have hhi : q / len < p / len + 1 := Nat.div_lt_of_lt_mul (by rwa [Nat.mul_comm])
  omega

theorem behind_le_finish {l : ℕ} (hlen : 0 < len) : behind len p l ≤ finish len p (l :: ls) :=
  le_finish hlen

theorem exists_split_lap (hlen : 0 < len) (h : (p / len + 1) * len < finish len p ls) :
    ∃ ls₁ l ls₂, ls = ls₁ ++ l :: ls₂ ∧ finish len p ls₁ < (p / len + 1) * len ∧
      slot len (finish len p ls₁) l = (p / len + 1) * len := by
  induction ls generalizing p with
  | nil =>
    have := lt_next_lap (p := p) hlen
    rw [finish_nil] at h
    omega
  | cons l ls ih =>
    by_cases hfit : p % len + l < len
    · have hb : behind len p l = p + l := by rw [behind, slot_of_lt hfit]
      have hlap : behind len p l / len = p / len := hb ▸ (Cursor.add_of_lt hfit).2
      rw [finish_cons, ← hlap] at h
      obtain ⟨ls₁, l', ls₂, rfl, hlt, hs⟩ := ih h
      rw [hlap] at hlt hs
      exact ⟨l :: ls₁, l', ls₂, rfl, hlt, hs⟩
    · exact ⟨[], l, ls, rfl, lt_next_lap hlen, slot_of_le (not_lt.mp hfit)⟩

theorem place_ne {y k : ℕ} (hy : y < p) (hlap : p + k < y + len) (hfit : p % len + k < len) :
    y % len ≠ p % len + k := by
  rw [← (Cursor.add_of_lt hfit).1]
  exact Cursor.slot_ne (by omega) hlap

end VmFt.Spool
