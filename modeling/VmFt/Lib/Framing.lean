import VmFt.Lib.Memory

/-! # Records in a buffer

Records are put into a buffer one behind the other and taken out again by a loop
that finds the length of each in the record itself. The offset is a counter that
wraps around, and the loop stands still where it finds no record.
-/

namespace VmFt.Framing

open VmFt.Memory

variable {σ : Type*} (wrap : ℕ) (frame : Memory → ℕ → Option ℕ) (use : σ → List UInt8 → σ)

def put : ℕ → List (List UInt8) → Memory → Memory
  | _, [], m => m
  | off, r :: rs, m => put ((off + r.length) % wrap) rs (m.store off r)

/-- The loop over the records in front of `size`; `frame` finds the length of a record. -/
def unframe (m : Memory) (size : ℕ) : ℕ → ℕ → σ → Option σ
  | 0, _, _ => none
  | fuel + 1, off, s =>
    if off < size then
      match frame m off with
      | some n => unframe m size fuel ((off + n) % wrap) (use s (m.read n off))
      | none => unframe m size fuel off s
    else some s

/-- The length of the record is found wherever its bytes stand. -/
def Framed (r : List UInt8) : Prop :=
  0 < r.length ∧ ∀ m off, m.read r.length off = r → frame m off = some r.length

variable {wrap frame use} {rs : List (List UInt8)} {m : Memory} {off : ℕ}

theorem put_eq_store (h : off + rs.flatten.length < wrap) :
    put wrap off rs m = m.store off rs.flatten := by
  induction rs generalizing off m with
  | nil => simp [put]
  | cons r rs ih =>
    rw [List.flatten_cons, List.length_append] at h
    rw [put, Nat.mod_eq_of_lt (by omega), ih (by omega), store_store_append, List.flatten_cons]

theorem unframe_of_read {fuel : ℕ} {s : σ} (hf : ∀ r ∈ rs, Framed frame r)
    (hre : m.read rs.flatten.length off = rs.flatten)
    (hw : off + rs.flatten.length < wrap) (hfu : rs.length < fuel) :
    unframe wrap frame use m (off + rs.flatten.length) fuel off s = some (rs.foldl use s) := by
  induction rs generalizing fuel off s with
  | nil =>
    cases fuel with
    | zero => exact absurd hfu (Nat.not_lt_zero _)
    | succ fuel => simp [unframe]
  | cons r rs ih =>
    cases fuel with
    | zero => exact absurd hfu (Nat.not_lt_zero _)
    | succ fuel =>
      obtain ⟨hpos, hfr⟩ := hf r List.mem_cons_self
      rw [List.flatten_cons, List.length_append] at hre hw ⊢
      rw [read_add] at hre
      obtain ⟨hr, hrest⟩ := List.append_inj hre (length_read ..)
      rw [unframe, if_pos (by omega), hfr m off hr]
      simp only
      rw [Nat.mod_eq_of_lt (by omega), hr, ← Nat.add_assoc, List.foldl_cons]
      exact ih (fun x hx => hf x (List.mem_cons_of_mem _ hx)) hrest (by omega)
        (by simpa using hfu)

theorem unframe_put {s : σ} (hf : ∀ r ∈ rs, Framed frame r) (hw : rs.flatten.length < wrap) :
    unframe wrap frame use (put wrap 0 rs m) rs.flatten.length (rs.length + 1) 0 s =
      some (rs.foldl use s) := by
  rw [put_eq_store (by omega)]
  have h : unframe wrap frame use (m.store 0 rs.flatten) (0 + rs.flatten.length) (rs.length + 1)
      0 s = some (rs.foldl use s) :=
    unframe_of_read hf (read_store ..) (by omega) (Nat.lt_succ_self _)
  rwa [Nat.zero_add] at h

end VmFt.Framing
