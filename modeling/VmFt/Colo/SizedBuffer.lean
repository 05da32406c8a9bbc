import Mathlib.Algebra.BigOperators.Group.List.Basic
import Mathlib.Algebra.Ring.Nat
import VmFt.Lib.Scatter

/-! # Sized buffers

A `QEMUSizedBuffer` is a scatter list with chunks of two sizes, of which the first
`used` bytes are in use. It grows by whole chunks when a write goes beyond its end.
Writing at a position and reading from it act on the bytes in use as on one sequence.
-/

namespace VmFt.Qsb

open VmFt.Scatter List

def QSB_CHUNK_SIZE : ℕ := 1024

def QSB_MAX_CHUNK_SIZE : ℕ := 16 * QSB_CHUNK_SIZE

/-- The chunks are allocated by `qsb_create` and `qsb_grow` only. -/
structure SizedBuffer where
  iov : List (List UInt8)
  used : ℕ
  bounded : ∀ n ∈ iov.map length, 0 < n ∧ n ≤ QSB_MAX_CHUNK_SIZE
  used_le : used ≤ (iov.map length).sum

namespace SizedBuffer

def layout (qsb : SizedBuffer) : List ℕ := qsb.iov.map length

def size (qsb : SizedBuffer) : ℕ := qsb.layout.sum

/-- The bytes in use. -/
def content (qsb : SizedBuffer) : List UInt8 := qsb.iov.flatten.take qsb.used

def withChunks (qsb : SizedBuffer) (iov : List (List UInt8))
    (h : iov.map length = qsb.layout) : SizedBuffer where
  iov := iov
  used := qsb.used
  bounded := h ▸ qsb.bounded
  used_le := h ▸ qsb.used_le

def withUsed (qsb : SizedBuffer) (used : ℕ) (h : used ≤ qsb.size) : SizedBuffer where
  iov := qsb.iov
  used := used
  bounded := qsb.bounded
  used_le := h

theorem length_flatten (qsb : SizedBuffer) : qsb.iov.flatten.length = qsb.size := by
  rw [List.length_flatten]
  rfl

theorem used_le_size (qsb : SizedBuffer) : qsb.used ≤ qsb.size := qsb.used_le

theorem length_content (qsb : SizedBuffer) : qsb.content.length = qsb.used := by
  rw [content, length_take, qsb.length_flatten, Nat.min_eq_left qsb.used_le_size]

end SizedBuffer

/-- `chunk_size` and the number of chunks for a buffer that lacks some bytes. -/
def chunksFor (sizeDiff : ℕ) : List ℕ :=
  let chunkSize := if QSB_MAX_CHUNK_SIZE < sizeDiff then QSB_MAX_CHUNK_SIZE else QSB_CHUNK_SIZE
  replicate ((sizeDiff + chunkSize - 1) / chunkSize) chunkSize

theorem bounded_chunksFor (sizeDiff : ℕ) :
    ∀ n ∈ chunksFor sizeDiff, 0 < n ∧ n ≤ QSB_MAX_CHUNK_SIZE := by
  intro n hn
  obtain ⟨-, rfl⟩ := mem_replicate.mp hn
  split <;> decide

theorem le_sum_chunksFor (sizeDiff : ℕ) : sizeDiff ≤ (chunksFor sizeDiff).sum := by
  have hr : ∀ k : ℕ, 0 < k → sizeDiff ≤ (sizeDiff + k - 1) / k * k := by
    intro k hk
    have := Nat.div_add_mod (sizeDiff + k - 1) k
    have := Nat.mod_lt (sizeDiff + k - 1) hk
    rw [Nat.mul_comm]
    omega
  rw [chunksFor, sum_replicate_nat]
  split
  · exact hr _ (by decide)
  · exact hr _ (by decide)

/-- The lengths of the chunks after `qsb_grow`. -/
def grownLayout (layout : List ℕ) (newSize : ℕ) : List ℕ :=
  layout ++ if layout.sum < newSize then chunksFor (newSize - layout.sum) else []

theorem le_sum_grownLayout (layout : List ℕ) (newSize : ℕ) :
    newSize ≤ (grownLayout layout newSize).sum := by
  rw [grownLayout, sum_append]
  split
  · have := le_sum_chunksFor (newSize - layout.sum)
    omega
  · rw [sum_nil]
    omega

theorem map_length_zeros (layout : List ℕ) :
    (layout.map (replicate · (0 : UInt8))).map length = layout := by
  rw [map_map]
  conv_rhs => rw [← map_id layout]
  exact map_congr_left fun n _ => length_replicate

/-- The buffer that `qsb_create` makes of no bytes. -/
def qsbCreate (len : ℕ) : SizedBuffer where
  iov := (chunksFor (if len = 0 then QSB_CHUNK_SIZE else len)).map (replicate · 0)
  used := 0
  bounded := by
    rw [map_length_zeros]
    exact bounded_chunksFor _
  used_le := Nat.zero_le _

theorem layout_qsbCreate (len : ℕ) :
    (qsbCreate len).layout = chunksFor (if len = 0 then QSB_CHUNK_SIZE else len) :=
  map_length_zeros _

/-- The allocations of `qsb_grow` succeed; the new chunks hold zeros. -/
def qsbGrow (qsb : SizedBuffer) (newSize : ℕ) : SizedBuffer where
  iov := qsb.iov ++
    if qsb.size < newSize then (chunksFor (newSize - qsb.size)).map (replicate · 0) else []
  used := qsb.used
  bounded := by
    intro n hn
    rw [map_append, mem_append] at hn
    rcases hn with hn | hn
    · exact qsb.bounded n hn
    · split at hn
      · rw [map_length_zeros] at hn
        exact bounded_chunksFor _ n hn
      · cases hn
  used_le := by
    rw [map_append, sum_append]
    exact Nat.le_add_right_of_le qsb.used_le

section Grow

variable (qsb : SizedBuffer) (newSize : ℕ)

theorem layout_qsbGrow : (qsbGrow qsb newSize).layout = grownLayout qsb.layout newSize := by
  unfold SizedBuffer.layout qsbGrow grownLayout
  rw [map_append]
  congr 1
  change map _ (if qsb.size < newSize then _ else _) = if qsb.size < newSize then _ else _
  split
  · exact map_length_zeros _
  · rfl

theorem le_size_qsbGrow : newSize ≤ (qsbGrow qsb newSize).size := by
  rw [SizedBuffer.size, layout_qsbGrow]
  exact le_sum_grownLayout _ _

theorem content_qsbGrow : (qsbGrow qsb newSize).content = qsb.content := by
  have hle : qsb.used ≤ qsb.iov.flatten.length := qsb.length_flatten ▸ qsb.used_le_size
  unfold SizedBuffer.content qsbGrow
  rw [flatten_append, take_append_of_le_length hle]

end Grow

/-- The chunk of a position and the offset in it. -/
def qsbGetIovec (qsb : SizedBuffer) (pos : ℕ) : Option (ℕ × ℕ) :=
  if qsb.used < pos then none else locate qsb.iov pos

/-- The bytes copied; no result when the loop runs off the chunks. -/
def qsbGetBuffer (qsb : SizedBuffer) (start count : ℕ) : Option (List UInt8) :=
  if qsb.used < start then some []
  else
    let allCopy := min (qsb.used - start) count
    match qsbGetIovec qsb start with
    | none => some []
    | some (index, sOff) => copyOut (qsb.iov.drop index) sOff allCopy

inductive Errno | EINVAL
  deriving DecidableEq

/-- The buffer grown to a length, all of it in use. -/
def qsbReserve (qsb : SizedBuffer) (len : ℕ) : SizedBuffer :=
  (qsbGrow qsb len).withUsed (max qsb.used len)
    (Nat.max_le.mpr ⟨(qsbGrow qsb len).used_le_size, le_size_qsbGrow ..⟩)

def qsbCopyIn (qsb : SizedBuffer) (source : List UInt8) (pos : ℕ) :
    Option (SizedBuffer × Except Errno ℕ) :=
  match qsbGetIovec qsb pos with
  | none => some (qsb, .error .EINVAL)
  | some (index, dOff) =>
    match h : copyIn (qsb.iov.drop index) dOff source with
    | none => none
    | some written =>
      some (qsb.withChunks (qsb.iov.take index ++ written) (by
          rw [map_append, map_length_copyIn h, ← map_append, take_append_drop]
          rfl), .ok source.length)

def qsbWriteAt (qsb : SizedBuffer) (source : List UInt8) (pos : ℕ) :
    Option (SizedBuffer × Except Errno ℕ) :=
  qsbCopyIn (qsbReserve qsb (pos + source.length)) source pos

variable {qsb : SizedBuffer} {pos : ℕ}

theorem qsbGetIovec_cases (hpos : pos ≤ qsb.used) : qsbGetIovec qsb pos = none ∧ qsb.size ≤ pos ∨
      ∃ index offset, qsbGetIovec qsb pos = some (index, offset) ∧
        Located qsb.iov pos index offset := by
  rw [qsbGetIovec, if_neg (Nat.not_lt.mpr hpos)]
  cases h : locate qsb.iov pos with
  | none =>
    have := locate_eq_none_iff.mp h
    rw [qsb.length_flatten] at this
    exact .inl ⟨rfl, this⟩
  | some p => exact .inr ⟨p.1, p.2, rfl, located_of_locate h⟩

theorem qsbGetBuffer_eq (qsb : SizedBuffer) (start count : ℕ) :
    qsbGetBuffer qsb start count = some ((qsb.content.drop start).take count) := by
  unfold qsbGetBuffer
  split
  · rename_i hlt
    rw [drop_of_length_le (by rw [qsb.length_content]; omega), take_nil]
  · rename_i hge
    dsimp only
    rcases qsbGetIovec_cases (Nat.not_lt.mp hge) with ⟨hn, hs⟩ | ⟨index, offset, hsome, hat⟩
    · have := qsb.used_le_size
      rw [hn, drop_of_length_le (by rw [qsb.length_content]; omega), take_nil]
    · rw [hsome]
      have hle := qsb.used_le_size
      have hlen := hat.length_add
      rw [qsb.length_flatten] at hlen
      dsimp only
      rw [copyOut_eq hat.offset_le (by omega), hat.drop_eq, SizedBuffer.content,
        drop_take, take_take, Nat.min_comm]

theorem exists_qsbCopyIn_eq (qsb : SizedBuffer) (source : List UInt8)
    (hpos : pos + source.length ≤ qsb.used) :
    ∃ qsb' result, qsbCopyIn qsb source pos = some (qsb', result) ∧ qsb'.used = qsb.used ∧
      qsb'.iov.flatten = overwrite qsb.iov.flatten pos source ∧ qsb'.layout = qsb.layout := by
  have hu := qsb.used_le_size
  unfold qsbCopyIn
  rcases qsbGetIovec_cases (Nat.le_of_add_right_le hpos) with
    ⟨hn, hfu⟩ | ⟨index, offset, hsome, hat⟩
  · -- Nothing is to be written, at the end of a full buffer.
    obtain rfl : source = [] := eq_nil_of_length_eq_zero (by omega)
    rw [hn]
    exact ⟨qsb, .error .EINVAL, rfl, rfl, by simp, rfl⟩
  · have hlen := hat.length_add
    rw [qsb.length_flatten] at hlen
    obtain ⟨written, hw, hf⟩ := exists_copyIn_eq source hat.offset_le (by omega)
    rw [hsome]
    dsimp only
    split
    · rename_i hn
      rw [hw] at hn
      cases hn
    · rename_i written' hs'
      obtain rfl : written = written' := Option.some.inj (hw.symm.trans hs')
      refine ⟨_, _, rfl, rfl, hat.overwrite_eq hf, ?_⟩
      change map length (_ ++ written) = _
      rw [map_append, map_length_copyIn hw, ← map_append, take_append_drop]
      rfl

theorem exists_qsbWriteAt_eq (source : List UInt8) (hpos : pos ≤ qsb.used) :
    ∃ qsb' result, qsbWriteAt qsb source pos = some (qsb', result) ∧
      qsb'.content = overwrite qsb.content pos source ∧
      qsb'.layout = grownLayout qsb.layout (pos + source.length) := by
  have hle := (qsbGrow qsb (pos + source.length)).used_le_size
  rw [← SizedBuffer.length_flatten] at hle
  obtain ⟨qsb', result, hw, hu, hf, hl⟩ :=
    exists_qsbCopyIn_eq (qsbReserve qsb (pos + source.length)) source
      (Nat.le_max_right ..)
  refine ⟨qsb', result, hw, ?_, hl.trans (layout_qsbGrow ..)⟩
  rw [← content_qsbGrow qsb (pos + source.length), SizedBuffer.content, hf, hu]
  exact take_overwrite hpos hle

end VmFt.Qsb
