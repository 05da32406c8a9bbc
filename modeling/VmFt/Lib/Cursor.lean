import Mathlib.Algebra.Order.Group.Nat

/-! # Cursors on a ring

A cursor that has moved on `p` times stands in slot `p % len` of a ring, in its
lap `p / len`. Of two cursors that are at most one lap apart the ring keeps a
flag that says whether the leading one is a lap ahead.
-/

namespace VmFt.Cursor

/-- The cursor at `p` has begun a lap that the one at `q` has not. -/
def ahead (len q p : ℕ) : Bool := decide (p / len ≠ q / len)

variable {len p q n : ℕ}

theorem add_of_lt (h : p % len + n < len) :
    (p + n) % len = p % len + n ∧ (p + n) / len = p / len := by
  have hp : p + n = len * (p / len) + (p % len + n) := by
    have := Nat.div_add_mod p len
    omega
  constructor
  · rw [hp, Nat.mul_add_mod, Nat.mod_eq_of_lt h]
  · rw [hp, Nat.mul_add_div (by omega), Nat.div_eq_of_lt h, Nat.add_zero]

theorem add_of_eq (hlen : 0 < len) (h : p % len + n = len) :
    (p + n) % len = 0 ∧ (p + n) / len = p / len + 1 := by
  have hp : p + n = len * (p / len + 1) := by
    have := Nat.div_add_mod p len
    rw [Nat.mul_add, Nat.mul_one]
    omega
  constructor
  · rw [hp, Nat.mul_mod_right]
  · rw [hp, Nat.mul_div_cancel_left _ hlen]

theorem lap_le (hlen : 0 < len) (hle : q ≤ p) (hlap : p ≤ q + len) :
    q / len ≤ p / len ∧ p / len ≤ q / len + 1 := by
  constructor
  · exact Nat.div_le_div_right hle
  · rw [← Nat.add_div_right q hlen]
    exact Nat.div_le_div_right hlap

theorem move_eq (hlen : 0 < len) (h : p % len + n ≤ len) :
    (if (decide (len ≤ p % len + n) : Bool) then p % len + n - len else p % len + n) =
      (p + n) % len := by
  by_cases hw : len ≤ p % len + n
  · rw [if_pos (decide_eq_true hw), (add_of_eq hlen (h.antisymm hw)).1]
    omega
  · rw [if_neg (by simpa using hw), (add_of_lt (not_le.mp hw)).1]

theorem ahead_add_left (hlen : 0 < len) (hle : q ≤ p) (h : p % len + n ≤ len) :
    ahead len q (p + n) = (decide (len ≤ p % len + n) || ahead len q p) := by
  have hlap : q / len ≤ p / len := Nat.div_le_div_right hle
  unfold ahead
  by_cases hw : len ≤ p % len + n
  · rw [(add_of_eq hlen (h.antisymm hw)).2, decide_eq_true hw, Bool.true_or]
    exact decide_eq_true (by omega)
  · rw [(add_of_lt (not_le.mp hw)).2, decide_eq_false hw, Bool.false_or]

theorem ahead_add_right (hlen : 0 < len) (hle : q + n ≤ p) (hlap : p ≤ q + len)
    (h : q % len + n ≤ len) :
    ahead len (q + n) p = (!decide (len ≤ q % len + n) && ahead len q p) := by
  have hl := lap_le hlen (by omega) hlap
  have hl' : (q + n) / len ≤ p / len := Nat.div_le_div_right hle
  unfold ahead
  by_cases hw : len ≤ q % len + n
  · rw [(add_of_eq hlen (h.antisymm hw)).2] at hl' ⊢
    rw [decide_eq_true hw, Bool.not_true, Bool.false_and]
    exact decide_eq_false (by omega)
  · rw [(add_of_lt (not_le.mp hw)).2, decide_eq_false hw, Bool.not_false, Bool.true_and]

theorem lt_iff (hle : q ≤ p) : (q % len < p % len ∨ ahead len q p = true) ↔ q < p := by
  rw [ahead, decide_eq_true_iff]
  have hq := Nat.div_add_mod q len
  have hp := Nat.div_add_mod p len
  constructor
  · rintro (hs | hlap)
    · exact lt_of_le_of_ne hle fun heq => by subst heq; omega
    · exact lt_of_le_of_ne hle fun heq => hlap (by rw [heq])
  · intro hlt
    by_cases hlap : p / len = q / len
    · rw [hlap] at hp
      left
      omega
    · exact .inr hlap

theorem slot_ne (hlt : q < p) (hlap : p < q + len) : q % len ≠ p % len := by
  intro heq
  have hdvd : len ∣ p - q := Nat.dvd_of_mod_eq_zero (Nat.sub_mod_eq_zero_of_mod_eq heq.symm)
  have := Nat.le_of_dvd (by omega) hdvd
  omega

end VmFt.Cursor
