import Mathlib.Data.Int.Notation
import VmFt.Colo.SizedBuffer

/-! # The device state

At a checkpoint the primary writes the device state to a sized buffer and copies the
bytes in use to a flat buffer, from which the secondary fills a sized buffer of its
own and reads. Both copies count the bytes of the flat buffer in an `int`.
-/

namespace VmFt.Qsb

open VmFt.Scatter List Option

/-- A value stored in an `int`. -/
def asInt (n : ℤ) : ℤ := n.bmod (2 ^ 32)

theorem asInt_of_lt {n : ℕ} (h : n < 2 ^ 31) : asInt n = n := by
  rw [asInt, Int.bmod_def]
  omega

theorem asInt_lt_zero {n : ℕ} (hle : 2 ^ 31 ≤ n) (hlt : n < 2 ^ 32) : asInt n < 0 := by
  rw [asInt, Int.bmod_def]
  omega

/-- `memcpy` into a buffer; no result when it writes outside. -/
def memcpy (buf : List UInt8) (index : ℤ) (bytes : List UInt8) : Option (List UInt8) :=
  if 0 ≤ index ∧ index.toNat + bytes.length ≤ buf.length then
    some (overwrite buf index.toNat bytes)
  else none

/-- The loop of `mc_qsb_put_buffer`. -/
def putLoop : List (List UInt8) → List UInt8 → ℤ → ℕ → Option (List UInt8)
  | [], buf, _, _ => some buf
  | c :: cs, buf, bufIndex, size =>
    if size = 0 then some buf
    else do
      let l := min c.length size
      let buf ← memcpy buf bufIndex (c.take l)
      putLoop cs buf (asInt (bufIndex + l)) (size - l)

def mcQsbPutBuffer (buf : List UInt8) (qsb : SizedBuffer) (size : ℕ) : Option (List UInt8) :=
  putLoop qsb.iov buf 0 size

/-- The variables of `mc_qsb_fill_buffer` that both its loops change. -/
structure Fill where
  srcIndex : ℤ
  pending : ℕ
  used : ℕ

def Fill.advance (f : Fill) (readone : ℕ) : Fill :=
  ⟨asInt (f.srcIndex + readone), f.pending - readone, f.used + readone⟩

@[simp] theorem Fill.used_advance (f : Fill) (readone : ℕ) :
    (f.advance readone).used = f.used + readone := rfl

@[simp] theorem Fill.pending_advance (f : Fill) (readone : ℕ) :
    (f.advance readone).pending = f.pending - readone := rfl

structure ChunkFill where
  chunk : List UInt8
  fill : Fill
  returned : Bool

/-- The inner loop, which copies to the start of the chunk in every round. An index below zero
is above every `size_t` that it is compared with. -/
def fillChunk (src : List UInt8) (size : ℕ) : ℕ → List UInt8 → ℕ → Fill → ChunkFill
  | 0, chunk, _, f => ⟨chunk, f, false⟩
  | fuel + 1, chunk, doneone, f =>
    if doneone < chunk.length ∧ 0 < f.pending then
      if f.srcIndex < 0 ∨ (size : ℤ) ≤ f.srcIndex then ⟨chunk, f, true⟩
      else
        let readone := min (chunk.length - doneone) f.pending
        fillChunk src size fuel
          (overwrite chunk 0 ((src.drop f.srcIndex.toNat).take readone)) (doneone + readone)
          (f.advance readone)
    else ⟨chunk, f, false⟩

def fillLoop (src : List UInt8) (size : ℕ) : List (List UInt8) → Fill → List (List UInt8) × Fill
  | [], f => ([], f)
  | c :: cs, f =>
    if f.pending = 0 then (c :: cs, f)
    else
      let r := fillChunk src size c.length c 0 f
      if r.returned then (r.chunk :: cs, r.fill)
      else
        let rest := fillLoop src size cs r.fill
        (r.chunk :: rest.1, rest.2)

variable {src : List UInt8} {size fuel doneone : ℕ} {c : List UInt8} {cs : List (List UInt8)}
  {f : Fill}

theorem fillChunk_bounds (src : List UInt8) (size fuel : ℕ) (c : List UInt8) (doneone : ℕ)
    (f : Fill) : (fillChunk src size fuel c doneone f).chunk.length = c.length ∧
      (fillChunk src size fuel c doneone f).fill.used ≤ f.used + (c.length - doneone) := by
  induction fuel generalizing c doneone f with
  | zero => exact ⟨rfl, Nat.le_add_right ..⟩
  | succ fuel ih =>
    rw [fillChunk]
    split
    · split
      · exact ⟨rfl, Nat.le_add_right ..⟩
      · have hlen : (overwrite c 0 ((src.drop f.srcIndex.toNat).take
            (min (c.length - doneone) f.pending))).length = c.length := by
          exact length_overwrite (by rw [length_take]; omega)
        dsimp only
        obtain ⟨hc, hu⟩ := ih (overwrite c 0 ((src.drop f.srcIndex.toNat).take
          (min (c.length - doneone) f.pending))) (doneone + min (c.length - doneone) f.pending)
          (f.advance (min (c.length - doneone) f.pending))
        rw [hlen] at hc hu
        rw [Fill.used_advance] at hu
        exact ⟨hc, by omega⟩
    · exact ⟨rfl, Nat.le_add_right ..⟩

theorem fillLoop_bounds (src : List UInt8) (size : ℕ) (iov : List (List UInt8)) (f : Fill) :
    (fillLoop src size iov f).1.map length = iov.map length ∧
      (fillLoop src size iov f).2.used ≤ f.used + (iov.map length).sum := by
  induction iov generalizing f with
  | nil => exact ⟨rfl, Nat.le_add_right ..⟩
  | cons c cs ih =>
    obtain ⟨hc, hus⟩ := fillChunk_bounds src size c.length c 0 f
    rw [fillLoop]
    split
    · exact ⟨rfl, Nat.le_add_right ..⟩
    · dsimp only
      split
      · rw [map_cons, map_cons, sum_cons, hc]
        exact ⟨rfl, by dsimp only; omega⟩
      · obtain ⟨hrest, hu⟩ := ih (fillChunk src size c.length c 0 f).fill
        rw [map_cons, map_cons, sum_cons, hc, hrest]
        exact ⟨rfl, by dsimp only; omega⟩

def mcQsbFillBuffer (qsb : SizedBuffer) (src : List UInt8) (size : ℕ) : SizedBuffer :=
  let grown := qsbGrow qsb size
  let filled := fillLoop src size grown.iov ⟨0, size, 0⟩
  have h := fillLoop_bounds src size grown.iov ⟨0, size, 0⟩
  { iov := filled.1
    used := filled.2.used
    bounded := h.1 ▸ grown.bounded
    used_le := by
      rw [h.1]
      exact Nat.zero_add (grown.iov.map length).sum ▸ h.2 }

/-- Read on from a position, in pieces of given sizes. -/
def qsbGetPieces (qsb : SizedBuffer) : ℕ → List ℕ → Option (List UInt8)
  | _, [] => some []
  | start, count :: counts => do
    let buf ← qsbGetBuffer qsb start count
    let rest ← qsbGetPieces qsb (start + buf.length) counts
    some (buf ++ rest)

theorem qsbGetPieces_eq (qsb : SizedBuffer) (start : ℕ) (counts : List ℕ) :
    qsbGetPieces qsb start counts = some ((qsb.content.drop start).take counts.sum) := by
  induction counts generalizing start with
  | nil => simp [qsbGetPieces]
  | cons count counts ih =>
    have hn : qsb.content.drop (start + ((qsb.content.drop start).take count).length) =
        qsb.content.drop (start + count) := by
      rw [length_take, length_drop]
      rcases Nat.le_total count (qsb.content.length - start) with hle | hge
      · rw [Nat.min_eq_left hle]
      · rw [drop_of_length_le (by omega), drop_of_length_le (by omega)]
    rw [qsbGetPieces, qsbGetBuffer_eq, bind_eq_bind, bind_some, ih, hn,
      bind_some, sum_cons, take_add, drop_drop]

theorem fillChunk_of_not (h : ¬(doneone < c.length ∧ 0 < f.pending)) :
    fillChunk src size fuel c doneone f = ⟨c, f, false⟩ := by
  cases fuel with
  | zero => rfl
  | succ fuel => rw [fillChunk, if_neg h]

theorem fillChunk_eq (src : List UInt8) (size : ℕ) (hc : 0 < c.length) (hp : 0 < f.pending) :
    fillChunk src size c.length c 0 f =
      if f.srcIndex < 0 ∨ (size : ℤ) ≤ f.srcIndex then ⟨c, f, true⟩ else
        ⟨overwrite c 0 ((src.drop f.srcIndex.toNat).take (min c.length f.pending)),
          f.advance (min c.length f.pending), false⟩ := by
  obtain ⟨fuel, hf⟩ := Nat.exists_eq_succ_of_ne_zero hc.ne'
  have hlen : (overwrite c 0 ((src.drop f.srcIndex.toNat).take
      (min c.length f.pending))).length = c.length :=
    length_overwrite (by rw [length_take]; omega)
  rw [show fillChunk src size c.length = fillChunk src size (fuel + 1) by rw [hf], fillChunk,
    if_pos ⟨hc, hp⟩]
  refine if_congr Iff.rfl rfl ?_
  dsimp only
  rw [Nat.sub_zero, Nat.zero_add]
  exact fillChunk_of_not (by rw [hlen, Fill.pending_advance]; omega)

/-- No chunk that holds some of the first bytes begins where an `int` cannot point; the chunks
themselves begin at an offset. -/
def IndexableFrom (offset : ℕ) (layout : List ℕ) (size : ℕ) : Prop :=
  ∀ i, 2 ^ 31 ≤ offset + (layout.take i).sum → size ≤ (layout.take i).sum

variable {offset n : ℕ} {layout : List ℕ}

theorem indexableFrom_cons : IndexableFrom offset (n :: layout) size ↔
      (2 ^ 31 ≤ offset → size = 0) ∧ IndexableFrom (offset + n) layout (size - n) := by
  constructor
  · intro h
    constructor
    · intro ho
      simpa using h 0 ho
    · intro i hi
      have := h (i + 1) (by rw [take_succ_cons, sum_cons]; omega)
      rw [take_succ_cons, sum_cons] at this
      omega
  · rintro ⟨hz, hrest⟩ i hi
    cases i with
    | zero => exact (hz hi).le
    | succ i =>
      rw [take_succ_cons, sum_cons] at hi ⊢
      have := hrest i (by omega)
      omega

theorem putLoop_zero (iov : List (List UInt8)) (buf : List UInt8) (bufIndex : ℤ) :
    putLoop iov buf bufIndex 0 = some buf := by
  cases iov with
  | nil => rfl
  | cons c cs => rw [putLoop, if_pos rfl]

section Put

variable {iov : List (List UInt8)} {buf : List UInt8} {bufIndex : ℤ}

theorem putLoop_eq (offset size : ℕ) (hi : IndexableFrom offset (iov.map length) size)
    (hin : bufIndex = asInt offset) (hs : size ≤ iov.flatten.length)
    (hbuf : offset + size ≤ buf.length) :
    putLoop iov buf bufIndex size = some (overwrite buf offset (iov.flatten.take size)) := by
  induction iov generalizing offset buf bufIndex size with
  | nil =>
    obtain rfl : size = 0 := Nat.le_zero.mp hs
    simp [putLoop]
  | cons c cs ih =>
    rw [putLoop]
    split
    · rename_i hz
      simp [hz]
    · rename_i hpos
      obtain ⟨ho, hrest⟩ := indexableFrom_cons.mp hi
      have hlt : offset < 2 ^ 31 := by
        by_contra hge
        exact hpos (ho (by omega))
      rw [flatten_cons, length_append] at hs
      have hc : memcpy buf bufIndex (c.take (min c.length size)) =
          some (overwrite buf offset (c.take (min c.length size))) := by
        rw [hin, asInt_of_lt hlt, memcpy, if_pos]
        · rfl
        · rw [length_take, Int.toNat_natCast]
          omega
      dsimp only
      rw [hc, bind_eq_bind, bind_some]
      rcases Nat.le_total size c.length with hle | hge
      · rw [Nat.min_eq_right hle, Nat.sub_self, putLoop_zero, flatten_cons,
          take_append_of_le_length hle]
      · have hlen : (overwrite buf offset c).length = buf.length := length_overwrite (by omega)
        rw [Nat.min_eq_left hge, take_length, ih (offset + c.length) (size - c.length) hrest
            (by rw [hin, asInt_of_lt hlt, Int.natCast_add]) (by omega) (by omega),
          overwrite_overwrite c _ (by omega), flatten_cons, take_append,
          take_of_length_le hge]

theorem putLoop_eq_none (offset size : ℕ) (hi : ¬IndexableFrom offset (iov.map length) size)
    (hin : bufIndex = asInt offset) (ho : offset < 2 ^ 31 + QSB_MAX_CHUNK_SIZE + 1)
    (hb : ∀ n ∈ iov.map length, 0 < n ∧ n ≤ QSB_MAX_CHUNK_SIZE)
    (hs : size ≤ iov.flatten.length) : putLoop iov buf bufIndex size = none := by
  have hmax : QSB_MAX_CHUNK_SIZE = 16384 := rfl
  induction iov generalizing offset buf bufIndex size with
  | nil =>
    obtain rfl : size = 0 := Nat.le_zero.mp hs
    exact absurd (fun i _ => Nat.zero_le _) hi
  | cons c cs ih =>
    have hpos : size ≠ 0 := by
      rintro rfl
      exact hi fun i _ => Nat.zero_le _
    rw [flatten_cons, length_append] at hs
    rw [map_cons, forall_mem_cons] at hb
    rw [putLoop, if_neg hpos]
    by_cases hge : 2 ^ 31 ≤ offset
    · have hneg : bufIndex < 0 := hin ▸ asInt_lt_zero hge (by omega)
      dsimp only
      rw [memcpy, if_neg (by omega)]
      rfl
    · have hrest : ¬IndexableFrom (offset + c.length) (cs.map length) (size - c.length) :=
        fun h => hi (indexableFrom_cons.mpr ⟨fun h => absurd h hge, h⟩)
      have hlt : c.length < size := by
        by_contra hle
        rw [Nat.sub_eq_zero_of_le (Nat.not_lt.mp hle)] at hrest
        exact hrest fun i _ => Nat.zero_le _
      dsimp only
      rw [Nat.min_eq_left hlt.le, bind_eq_bind, bind_eq_none_iff]
      intro buf' _
      exact ih (offset + c.length) (size - c.length) hrest
        (by rw [hin, asInt_of_lt (by omega), Int.natCast_add]) (by omega) hb.2 (by omega)

end Put

section FillLoop

variable {iov : List (List UInt8)}

theorem fillLoop_zero (iov : List (List UInt8)) (hp : f.pending = 0) :
    fillLoop src size iov f = (iov, f) := by
  cases iov with
  | nil => rfl
  | cons c cs => rw [fillLoop, if_pos hp]

theorem fillLoop_cons (hc : 0 < c.length) (hp : 0 < f.pending)
    (hi : ¬(f.srcIndex < 0 ∨ (size : ℤ) ≤ f.srcIndex)) : fillLoop src size (c :: cs) f =
      (overwrite c 0 ((src.drop f.srcIndex.toNat).take (min c.length f.pending)) ::
        (fillLoop src size cs (f.advance (min c.length f.pending))).1,
        (fillLoop src size cs (f.advance (min c.length f.pending))).2) := by
  rw [fillLoop, if_neg hp.ne', fillChunk_eq src size hc hp, if_neg hi]
  rfl

theorem fillLoop_cons_stuck (hc : 0 < c.length) (hp : 0 < f.pending)
    (hi : f.srcIndex < 0) : fillLoop src size (c :: cs) f = (c :: cs, f) := by
  have hs : f.srcIndex < 0 ∨ (size : ℤ) ≤ f.srcIndex := .inl hi
  rw [fillLoop, if_neg hp.ne', fillChunk_eq src size hc hp, if_pos hs]
  rfl

theorem fillLoop_eq (offset : ℕ) (f : Fill)
    (hi : IndexableFrom offset (iov.map length) f.pending)
    (hin : f.srcIndex = asInt offset) (hsum : offset + f.pending = size)
    (hsrc : size ≤ src.length) (hs : f.pending ≤ iov.flatten.length)
    (hb : ∀ n ∈ iov.map length, 0 < n ∧ n ≤ QSB_MAX_CHUNK_SIZE) :
    (fillLoop src size iov f).1.flatten =
        overwrite iov.flatten 0 ((src.drop offset).take f.pending) ∧
      (fillLoop src size iov f).2.used = f.used + f.pending := by
  induction iov generalizing offset f with
  | nil =>
    have hz : f.pending = 0 := Nat.le_zero.mp hs
    simp [fillLoop, hz]
  | cons c cs ih =>
    rcases Nat.eq_zero_or_pos f.pending with hz | hpos
    · rw [fillLoop_zero _ hz]
      simp [hz]
    obtain ⟨ho, hrest⟩ := indexableFrom_cons.mp hi
    have hlt : offset < 2 ^ 31 := by
      by_contra hge
      exact hpos.ne' (ho (by omega))
    have hat : f.srcIndex = offset := hin.trans (asInt_of_lt hlt)
    rw [map_cons, forall_mem_cons] at hb
    rw [flatten_cons, length_append] at hs
    have hlen : ((src.drop offset).take f.pending).length = f.pending := by
      rw [length_take, length_drop]
      omega
    rw [fillLoop_cons hb.1.1 hpos (by omega), hat, Int.toNat_natCast, flatten_cons,
      flatten_cons, overwrite_append (Nat.zero_le _), hlen, Nat.sub_zero, Nat.zero_add]
    rcases Nat.le_total f.pending c.length with hle | hge
    · rw [Nat.min_eq_right hle, fillLoop_zero cs (Nat.sub_self _), drop_of_length_le hlen.le]
      simp [overwrite, take_take, hlen]
    · obtain ⟨hf, hu⟩ := ih (offset + c.length) (f.advance c.length) hrest
        (by rw [Fill.advance, hat, Int.natCast_add]) (by rw [Fill.pending_advance]; omega)
        (by rw [Fill.pending_advance]; omega) hb.2
      have ht : (src.drop offset).take c.length =
          ((src.drop offset).take f.pending).take c.length := by
        rw [take_take, Nat.min_eq_left hge]
      have hd : (src.drop (offset + c.length)).take (f.pending - c.length) =
          ((src.drop offset).take f.pending).drop c.length := by
        rw [drop_take, drop_drop]
      rw [Nat.min_eq_left hge, hf, hu, Fill.pending_advance, Fill.used_advance, hd, ht]
      constructor
      · simp [overwrite, hlen, hge]
      · omega

theorem used_fillLoop_lt (src : List UInt8) (offset : ℕ) (f : Fill)
    (hi : ¬IndexableFrom offset (iov.map length) f.pending)
    (hin : f.srcIndex = asInt offset) (hsum : offset + f.pending = size)
    (ho : offset < 2 ^ 31 + QSB_MAX_CHUNK_SIZE + 1) (hs : f.pending ≤ iov.flatten.length)
    (hb : ∀ n ∈ iov.map length, 0 < n ∧ n ≤ QSB_MAX_CHUNK_SIZE) :
    (fillLoop src size iov f).2.used < f.used + f.pending := by
  have hmax : QSB_MAX_CHUNK_SIZE = 16384 := rfl
  induction iov generalizing offset f with
  | nil =>
    rw [Nat.le_zero.mp hs] at hi
    exact absurd (fun i _ => Nat.zero_le _) hi
  | cons c cs ih =>
    have hpos : 0 < f.pending := by
      rcases Nat.eq_zero_or_pos f.pending with hz | hpos
      · rw [hz] at hi
        exact absurd (fun i _ => Nat.zero_le _) hi
      · exact hpos
    rw [flatten_cons, length_append] at hs
    rw [map_cons, forall_mem_cons] at hb
    by_cases hge : 2 ^ 31 ≤ offset
    · rw [fillLoop_cons_stuck hb.1.1 hpos (hin ▸ asInt_lt_zero hge (by omega))]
      exact Nat.lt_add_of_pos_right hpos
    · have hat : f.srcIndex = offset := hin.trans (asInt_of_lt (by omega))
      have hrest : ¬IndexableFrom (offset + c.length) (cs.map length)
          (f.pending - c.length) :=
        fun h => hi (indexableFrom_cons.mpr ⟨fun h => absurd h hge, h⟩)
      have hlt : c.length < f.pending := by
        by_contra hle
        rw [Nat.sub_eq_zero_of_le (Nat.not_lt.mp hle)] at hrest
        exact hrest fun i _ => Nat.zero_le _
      have := ih (offset + c.length) (f.advance c.length) hrest
        (by rw [Fill.advance, hat, Int.natCast_add]) (by rw [Fill.pending_advance]; omega)
        (by omega) (by rw [Fill.pending_advance]; omega) hb.2
      rw [Fill.pending_advance, Fill.used_advance] at this
      rw [fillLoop_cons hb.1.1 hpos (by omega), Nat.min_eq_left hlt.le]
      dsimp only
      omega

end FillLoop

structure Write where
  pos : ℕ
  source : List UInt8

def ValidWrites : ℕ → List Write → Prop
  | _, [] => True
  | used, w :: ws => w.pos ≤ used ∧ ValidWrites (max used (w.pos + w.source.length)) ws

def qsbWrites : SizedBuffer → List Write → Option SizedBuffer
  | qsb, [] => some qsb
  | qsb, w :: ws => do
    let r ← qsbWriteAt qsb w.source w.pos
    qsbWrites r.1 ws

def written (bytes : List UInt8) (writes : List Write) : List UInt8 :=
  writes.foldl (fun bytes w => overwrite bytes w.pos w.source) bytes

def writtenLayout (layout : List ℕ) (writes : List Write) : List ℕ :=
  writes.foldl (fun layout w => grownLayout layout (w.pos + w.source.length)) layout

theorem exists_qsbWrites_eq {qsb : SizedBuffer} {writes : List Write}
    (h : ValidWrites qsb.used writes) :
    ∃ qsb', qsbWrites qsb writes = some qsb' ∧ qsb'.content = written qsb.content writes ∧
      qsb'.layout = writtenLayout qsb.layout writes := by
  induction writes generalizing qsb with
  | nil => exact ⟨qsb, rfl, rfl, rfl⟩
  | cons w ws ih =>
    obtain ⟨hpos, hrest⟩ := h
    obtain ⟨qsb', result, hw, hc, hl⟩ := exists_qsbWriteAt_eq w.source hpos
    have hu : qsb'.used = max qsb.used (w.pos + w.source.length) := by
      have hlen := congrArg length hc
      rw [qsb'.length_content, overwrite] at hlen
      simp only [length_append, length_take, length_drop, qsb.length_content] at hlen
      omega
    obtain ⟨qsb'', hwr, hc', hl'⟩ := ih (hu ▸ hrest)
    refine ⟨qsb'', ?_, ?_, ?_⟩
    · rw [qsbWrites, hw, bind_eq_bind, bind_some, hwr]
    · rw [hc', hc]
      rfl
    · rw [hl', hl]
      rfl

/-- The receiver's buffer after the writes and both copies. -/
def transfer (rdmaBuffer : List UInt8) (sender receiver : SizedBuffer) (writes : List Write) :
    Option SizedBuffer := do
  let sender ← qsbWrites sender writes
  let rdmaBuffer ← mcQsbPutBuffer rdmaBuffer sender sender.used
  some (mcQsbFillBuffer receiver rdmaBuffer sender.used)

/-- The receiver has as many bytes in use as were written and reads exactly those, in pieces of
any sizes. -/
def RoundTrips (rdmaBuffer : List UInt8) (sender receiver : SizedBuffer) (writes : List Write) :
    Prop :=
  ∃ received, transfer rdmaBuffer sender receiver writes = some received ∧
    received.used = (written sender.content writes).length ∧
    ∀ counts : List ℕ, qsbGetPieces received 0 counts =
      some ((written sender.content writes).take counts.sum)

/-- No chunk that holds some of the first bytes begins where an `int` cannot point. -/
def Indexable (layout : List ℕ) (size : ℕ) : Prop :=
  ∀ i, 2 ^ 31 ≤ (layout.take i).sum → size ≤ (layout.take i).sum

theorem indexableFrom_zero : IndexableFrom 0 layout size ↔ Indexable layout size := by
  unfold IndexableFrom Indexable
  simp only [Nat.zero_add]

theorem indexable_of_le (h : size ≤ 2 ^ 31) : Indexable layout size :=
  fun _ hi => h.trans hi

section

variable {qsb : SizedBuffer} {buf : List UInt8}

theorem mcQsbPutBuffer_eq (hl : Indexable qsb.layout qsb.used) (hbuf : qsb.used ≤ buf.length) :
    mcQsbPutBuffer buf qsb qsb.used = some (overwrite buf 0 qsb.content) :=
  putLoop_eq 0 qsb.used (indexableFrom_zero.mpr hl) rfl
    (qsb.length_flatten ▸ qsb.used_le_size) (by omega)

theorem mcQsbPutBuffer_eq_none (hl : ¬Indexable qsb.layout qsb.used) :
    mcQsbPutBuffer buf qsb qsb.used = none :=
  putLoop_eq_none 0 qsb.used (mt indexableFrom_zero.mp hl) rfl (Nat.succ_pos _) qsb.bounded
    (qsb.length_flatten ▸ qsb.used_le_size)

theorem content_mcQsbFillBuffer (src : List UInt8)
    (hl : Indexable (grownLayout qsb.layout size) size) (hsrc : size ≤ src.length) :
    (mcQsbFillBuffer qsb src size).content = src.take size ∧
      (mcQsbFillBuffer qsb src size).used = size := by
  have hs := le_size_qsbGrow qsb size
  rw [← SizedBuffer.length_flatten] at hs
  rw [← layout_qsbGrow, ← indexableFrom_zero] at hl
  obtain ⟨hf, hu⟩ := fillLoop_eq 0 ⟨0, size, 0⟩ hl rfl (Nat.zero_add _) hsrc hs
    (qsbGrow qsb size).bounded
  have hu' : (mcQsbFillBuffer qsb src size).used = size := hu.trans (Nat.zero_add _)
  refine ⟨?_, hu'⟩
  rw [SizedBuffer.content, hu']
  change (fillLoop src size (qsbGrow qsb size).iov ⟨0, size, 0⟩).1.flatten.take size = _
  have ht := take_overwrite_zero (qsbGrow qsb size).iov.flatten (src.take size)
  rwa [length_take_of_le hsrc, ← drop_zero (l := src), ← hf, drop_zero]
    at ht

theorem used_mcQsbFillBuffer_lt (src : List UInt8)
    (hl : ¬Indexable (grownLayout qsb.layout size) size) :
    (mcQsbFillBuffer qsb src size).used < size := by
  have hs := le_size_qsbGrow qsb size
  rw [← SizedBuffer.length_flatten] at hs
  rw [← layout_qsbGrow, ← indexableFrom_zero] at hl
  have := used_fillLoop_lt src 0 ⟨0, size, 0⟩ hl rfl (Nat.zero_add _)
    (Nat.succ_pos _) hs (qsbGrow qsb size).bounded
  exact this.trans_eq (Nat.zero_add _)

end

section

variable {rdmaBuffer : List UInt8} {sender receiver : SizedBuffer} {writes : List Write}

theorem indexable_of_roundTrips (hw : ValidWrites sender.used writes)
    (hb : (written sender.content writes).length ≤ rdmaBuffer.length)
    (h : RoundTrips rdmaBuffer sender receiver writes) :
    Indexable (writtenLayout sender.layout writes) (written sender.content writes).length ∧
      Indexable (grownLayout receiver.layout (written sender.content writes).length)
        (written sender.content writes).length := by
  obtain ⟨sender', hs, hc, hl⟩ := exists_qsbWrites_eq hw
  obtain ⟨received, ht, hr, -⟩ := h
  rw [← hc, sender'.length_content] at hb hr ⊢
  rw [← hl]
  rw [transfer, hs, bind_eq_bind, bind_some, bind_eq_bind] at ht
  by_cases hput : Indexable sender'.layout sender'.used
  · rw [mcQsbPutBuffer_eq hput hb, bind_some] at ht
    cases ht
    refine ⟨hput, ?_⟩
    by_contra hf
    exact (used_mcQsbFillBuffer_lt _ hf).ne hr
  · rw [mcQsbPutBuffer_eq_none hput] at ht
    cases ht

theorem roundTrips_of_indexable (hw : ValidWrites sender.used writes)
    (hb : (written sender.content writes).length ≤ rdmaBuffer.length)
    (hput : Indexable (writtenLayout sender.layout writes) (written sender.content writes).length)
    (hfi : Indexable (grownLayout receiver.layout (written sender.content writes).length)
      (written sender.content writes).length) : RoundTrips rdmaBuffer sender receiver writes := by
  obtain ⟨sender', hs, hc, hl⟩ := exists_qsbWrites_eq hw
  unfold RoundTrips
  rw [← hc, sender'.length_content] at hb hput hfi ⊢
  rw [← hl] at hput
  have hlen : (overwrite rdmaBuffer 0 sender'.content).length = rdmaBuffer.length :=
    length_overwrite (by rw [sender'.length_content]; omega)
  obtain ⟨hf, hu⟩ := content_mcQsbFillBuffer (overwrite rdmaBuffer 0 sender'.content)
    hfi (by rw [hlen]; exact hb)
  refine ⟨mcQsbFillBuffer receiver (overwrite rdmaBuffer 0 sender'.content) sender'.used, ?_,
    hu, ?_⟩
  · rw [transfer, hs, bind_eq_bind, bind_some, mcQsbPutBuffer_eq hput hb,
      bind_eq_bind, bind_some]
  · intro counts
    have ht := take_overwrite_zero rdmaBuffer sender'.content
    rw [sender'.length_content] at ht
    rw [qsbGetPieces_eq, drop_zero, hf, ht]

/-- The device state arrives as it was written exactly when no chunk that holds some of it, of
the sender's after the writes and of the receiver's once grown, begins where an `int` cannot
point. -/
theorem roundTrips_iff (hwrites : ValidWrites sender.used writes)
    (hbuffer : (written sender.content writes).length ≤ rdmaBuffer.length) :
    RoundTrips rdmaBuffer sender receiver writes ↔
      Indexable (writtenLayout sender.layout writes) (written sender.content writes).length ∧
        Indexable (grownLayout receiver.layout (written sender.content writes).length)
          (written sender.content writes).length :=
  ⟨indexable_of_roundTrips hwrites hbuffer,
    fun ⟨hput, hfill⟩ => roundTrips_of_indexable hwrites hbuffer hput hfill⟩

end

def COLO_BUFFER_BASE_SIZE : ℕ := 4 * 1024 * 1024

def twoWrites : List Write := [⟨0, [1, 2, 3]⟩, ⟨2, [4, 5]⟩]

theorem twoWrites_roundTrips : written [] twoWrites = [1, 2, 4, 5] ∧
      RoundTrips [0, 0, 0, 0, 0] (qsbCreate COLO_BUFFER_BASE_SIZE) (qsbCreate 0) twoWrites := by
  have hvalid : ValidWrites (qsbCreate COLO_BUFFER_BASE_SIZE).used twoWrites :=
    ⟨Nat.le_refl 0, by decide, trivial⟩
  have hlen : (written (qsbCreate COLO_BUFFER_BASE_SIZE).content twoWrites).length = 4 := by
    simp [SizedBuffer.content, qsbCreate, twoWrites, written, overwrite]
  refine ⟨rfl, (roundTrips_iff hvalid (by rw [hlen]; decide)).mpr ⟨?_, ?_⟩⟩
  · exact indexable_of_le (by rw [hlen]; decide)
  · exact indexable_of_le (by rw [hlen]; decide)

def oneWrite (source : List UInt8) : List Write := [⟨0, source⟩]

theorem written_oneWrite (len : ℕ) (source : List UInt8) :
    written (qsbCreate len).content (oneWrite source) = source := by
  simp [written, oneWrite, overwrite, SizedBuffer.content, qsbCreate]

theorem writtenLayout_oneWrite {source : List UInt8}
    (h : COLO_BUFFER_BASE_SIZE + QSB_MAX_CHUNK_SIZE < source.length) :
    writtenLayout (qsbCreate COLO_BUFFER_BASE_SIZE).layout (oneWrite source) =
      replicate (256 + (source.length - COLO_BUFFER_BASE_SIZE + 16384 - 1) / 16384) 16384 := by
  have hf : (qsbCreate COLO_BUFFER_BASE_SIZE).layout = replicate 256 16384 :=
    layout_qsbCreate _
  have hsum : (replicate 256 16384).sum = COLO_BUFFER_BASE_SIZE := sum_replicate_nat
  change grownLayout _ (0 + source.length) = _
  rw [hf, grownLayout, hsum, if_pos (by omega), Nat.zero_add, chunksFor, if_pos (by omega)]
  exact replicate_append_replicate

theorem long_not_roundTrips {source : List UInt8} (h : source.length = 2 ^ 31 + 1) :
    ValidWrites (qsbCreate COLO_BUFFER_BASE_SIZE).used (oneWrite source) ∧
      ¬RoundTrips source (qsbCreate COLO_BUFFER_BASE_SIZE) (qsbCreate COLO_BUFFER_BASE_SIZE)
        (oneWrite source) := by
  have hv : ValidWrites (qsbCreate COLO_BUFFER_BASE_SIZE).used (oneWrite source) :=
    ⟨Nat.le_refl 0, trivial⟩
  refine ⟨hv, fun hr => ?_⟩
  obtain ⟨hput, -⟩ := indexable_of_roundTrips hv (by rw [written_oneWrite]) hr
  rw [written_oneWrite, writtenLayout_oneWrite (by rw [h]; decide), h] at hput
  have hs := hput 131072
  rw [take_replicate, sum_replicate_nat] at hs
  exact absurd (hs (by decide)) (by decide)

/-- One byte more than an `int` can count. -/
theorem zeros_not_roundTrips : ValidWrites (qsbCreate COLO_BUFFER_BASE_SIZE).used
        (oneWrite (replicate (2 ^ 31 + 1) 0)) ∧
      ¬RoundTrips (replicate (2 ^ 31 + 1) 0) (qsbCreate COLO_BUFFER_BASE_SIZE)
        (qsbCreate COLO_BUFFER_BASE_SIZE) (oneWrite (replicate (2 ^ 31 + 1) 0)) :=
  long_not_roundTrips length_replicate

end VmFt.Qsb
