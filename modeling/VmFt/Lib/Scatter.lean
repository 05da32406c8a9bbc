import Mathlib.Data.List.TakeDrop
import Mathlib.Data.Nat.Notation

/-! # Scatter lists

A sequence may be stored in chunks of any lengths. A position is translated into a
chunk and an offset, and reading and writing go on from there chunk by chunk. What
they do is what is done at that position of the sequence as a whole.
-/

namespace VmFt.Scatter

open List Option

universe u

variable {α : Type u}

/-- The index of the chunk that holds a position, and the offset in it. -/
def locate : List (List α) → ℕ → Option (ℕ × ℕ)
  | [], _ => none
  | c :: cs, pos =>
    if pos < c.length then some (0, pos)
    else (locate cs (pos - c.length)).map fun p => (p.1 + 1, p.2)

/-- Read from an offset of the first chunk on. -/
def copyOut : List (List α) → ℕ → ℕ → Option (List α)
  | [], _, n => if n = 0 then some [] else none
  | c :: cs, offset, n =>
    if n = 0 then some []
    else
      let toCopy := min (c.length - offset) n
      (copyOut cs 0 (n - toCopy)).map ((c.drop offset).take toCopy ++ ·)

/-- Write from an offset of the first chunk on. -/
def copyIn : List (List α) → ℕ → List α → Option (List (List α))
  | [], _, src => if src.isEmpty then some [] else none
  | c :: cs, offset, src =>
    if src.isEmpty then some (c :: cs)
    else
      let toCopy := min (c.length - offset) src.length
      (copyIn cs 0 (src.drop toCopy)).map
        ((c.take offset ++ src.take toCopy ++ c.drop (offset + toCopy)) :: ·)

/-- Write into a sequence, which may become longer. -/
def overwrite (l : List α) (pos : ℕ) (src : List α) : List α :=
  l.take pos ++ src ++ l.drop (pos + src.length)

variable {chunks : List (List α)} {pos offset n i : ℕ} {src : List α}

theorem locate_eq_none_iff : locate chunks pos = none ↔ chunks.flatten.length ≤ pos := by
  induction chunks generalizing pos with
  | nil => simp [locate]
  | cons c cs ih =>
    rw [locate, flatten_cons, length_append]
    split
    · simp only [reduceCtorEq, false_iff]
      omega
    · rw [map_eq_none_iff, ih]
      omega

structure Located (chunks : List (List α)) (pos i offset : ℕ) : Prop where
  before : (chunks.take i).flatten.length + offset = pos
  inside : ∃ c cs, chunks.drop i = c :: cs ∧ offset < c.length

theorem located_of_locate (h : locate chunks pos = some (i, offset)) :
    Located chunks pos i offset := by
  induction chunks generalizing pos i with
  | nil => cases h
  | cons c cs ih =>
    rw [locate] at h
    split at h
    · rename_i hlt
      cases h
      exact ⟨by simp, c, cs, rfl, hlt⟩
    · rename_i hge
      obtain ⟨⟨i, offset⟩, hrest, heq⟩ := map_eq_some_iff.mp h
      cases heq
      obtain ⟨hb, hi⟩ := ih hrest
      refine ⟨?_, hi⟩
      simp only [take_succ_cons, flatten_cons, length_append]
      omega

theorem Located.offset_le (h : Located chunks pos i offset) :
    offset ≤ ((chunks.drop i).headD []).length := by
  obtain ⟨c, cs, hd, hlt⟩ := h.inside
  rw [hd]
  exact Nat.le_of_lt hlt

theorem Located.length_add (h : Located chunks pos i offset) :
    pos + (chunks.drop i).flatten.length = offset + chunks.flatten.length := by
  conv_rhs => rw [← take_append_drop i chunks, flatten_append, length_append]
  rw [← h.before]
  omega

theorem Located.drop_eq (h : Located chunks pos i offset) :
    (chunks.drop i).flatten.drop offset = chunks.flatten.drop pos := by
  conv_rhs => rw [← take_append_drop i chunks, flatten_append, ← h.before]
  rw [drop_length_add_append]

theorem copyOut_eq (ho : offset ≤ (chunks.headD []).length)
    (hn : offset + n ≤ chunks.flatten.length) :
    copyOut chunks offset n = some ((chunks.flatten.drop offset).take n) := by
  induction chunks generalizing offset n with
  | nil =>
    obtain rfl : n = 0 := by simpa using Nat.le_trans (Nat.le_add_left n offset) hn
    rfl
  | cons c cs ih =>
    rw [flatten_cons, length_append] at hn
    rw [headD_cons] at ho
    rw [copyOut]
    split
    · rename_i hz
      simp [hz]
    · dsimp only
      rw [ih (Nat.zero_le _) (by omega), map_some, drop_zero, flatten_cons,
        drop_append_of_le_length ho, take_append, length_drop]
      congr 2
      · rw [take_eq_take_iff, length_drop]
        omega
      · congr 1
        omega

@[simp] theorem overwrite_nil (l : List α) (pos : ℕ) : overwrite l pos [] = l := by
  simp [overwrite]

theorem overwrite_append {c r : List α} (ho : offset ≤ c.length) : overwrite (c ++ r) offset src =
      c.take offset ++ src.take (min (c.length - offset) src.length) ++
        c.drop (offset + min (c.length - offset) src.length) ++
        overwrite r 0 (src.drop (min (c.length - offset) src.length)) := by
  unfold overwrite
  rw [take_append_of_le_length ho, drop_append]
  rcases Nat.le_total src.length (c.length - offset) with hle | hge
  · rw [Nat.min_eq_right hle, show offset + src.length - c.length = 0 by omega]
    simp
  · rw [Nat.min_eq_left hge, show offset + (c.length - offset) = c.length by omega,
      drop_of_length_le (by omega : c.length ≤ offset + src.length)]
    have hlen : (src.drop (c.length - offset)).length = offset + src.length - c.length := by
      rw [length_drop]
      omega
    simp only [hlen, take_zero, drop_length, List.append_nil, nil_append,
      Nat.zero_add, append_assoc]
    rw [← append_assoc (src.take _), take_append_drop]

theorem take_overwrite {l : List α} {m : ℕ} (hpos : pos ≤ m) (hm : m ≤ l.length) :
    (overwrite l pos src).take (max m (pos + src.length)) = overwrite (l.take m) pos src := by
  unfold overwrite
  have hlen : (l.take pos ++ src).length = pos + src.length := by
    rw [length_append, length_take]
    omega
  rw [take_append, take_of_length_le (by omega), hlen, take_take,
    Nat.min_eq_left hpos, drop_take]
  congr 2
  omega

theorem length_overwrite {l : List α} (h : pos + src.length ≤ l.length) :
    (overwrite l pos src).length = l.length := by
  simp only [overwrite, length_append, length_take, length_drop]
  omega

theorem overwrite_overwrite {l : List α} (a b : List α) (h : pos ≤ l.length) :
    overwrite (overwrite l pos a) (pos + a.length) b = overwrite l pos (a ++ b) := by
  have hlen : (l.take pos ++ a).length = pos + a.length := by
    rw [length_append, length_take, Nat.min_eq_left h]
  unfold overwrite
  rw [← hlen, take_left, drop_length_add_append, drop_drop, hlen, length_append]
  simp only [append_assoc, Nat.add_assoc]

theorem take_overwrite_zero (l src : List α) : (overwrite l 0 src).take src.length = src := by
  simp [overwrite]

theorem map_length_copyIn {chunks' : List (List α)} (h : copyIn chunks offset src = some chunks') :
    chunks'.map length = chunks.map length := by
  induction chunks generalizing offset src chunks' with
  | nil =>
    rw [copyIn] at h
    split at h
    · cases h
      rfl
    · cases h
  | cons c cs ih =>
    rw [copyIn] at h
    split at h
    · cases h
      rfl
    · obtain ⟨rest, hrest, rfl⟩ := map_eq_some_iff.mp h
      rw [map_cons, map_cons, ih hrest]
      congr 1
      simp only [length_append, length_take, length_drop]
      omega

theorem exists_copyIn_eq (src : List α) (ho : offset ≤ (chunks.headD []).length)
    (hn : offset + src.length ≤ chunks.flatten.length) :
    ∃ chunks', copyIn chunks offset src = some chunks' ∧
      chunks'.flatten = overwrite chunks.flatten offset src := by
  induction chunks generalizing offset src with
  | nil =>
    obtain rfl : src = [] := by simpa using Nat.le_trans (Nat.le_add_left src.length offset) hn
    exact ⟨[], rfl, by simp⟩
  | cons c cs ih =>
    rw [flatten_cons, length_append] at hn
    rw [headD_cons] at ho
    rw [copyIn]
    split
    · rename_i hempty
      rw [List.isEmpty_iff.mp hempty]
      exact ⟨c :: cs, rfl, by simp⟩
    · obtain ⟨rest, hrest, hf⟩ :=
        ih (src.drop (min (c.length - offset) src.length)) (Nat.zero_le _)
          (by rw [length_drop]; omega)
      dsimp only
      rw [hrest, map_some]
      refine ⟨_, rfl, ?_⟩
      rw [flatten_cons, flatten_cons, hf, overwrite_append ho]

theorem Located.overwrite_eq (h : Located chunks pos i offset) {rest : List (List α)}
    (hrest : rest.flatten = overwrite (chunks.drop i).flatten offset src) :
    (chunks.take i ++ rest).flatten = overwrite chunks.flatten pos src := by
  conv_rhs => rw [← take_append_drop i chunks, flatten_append, ← h.before]
  unfold overwrite at hrest ⊢
  rw [flatten_append, hrest, take_length_add_append, Nat.add_assoc,
    drop_length_add_append]
  simp only [append_assoc]

end VmFt.Scatter
