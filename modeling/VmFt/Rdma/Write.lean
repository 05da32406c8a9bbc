import VmFt.Rdma.Blocks

/-! # Writing the pages

The source holds a range of pages that it has not yet written. A page that
continues the range is merged with it; before any other page the range is written.
A write waits while the bit of its chunk is set, and its completion clears the bit
that it finds in the identifier of the request.
-/

namespace VmFt.Rdma

open List Option

def TARGET_PAGE_SIZE : ℕ := 4096

def MC_RDMA_MERGE_MAX : ℕ := 2 * 1024 * 1024

/-- `1UL << MC_RDMA_REG_CHUNK_SHIFT` -/
def chunkSize : ℕ := 2 ^ 20

/-- The RAM blocks of the source. A block has a length that an `int` can count in chunks, and
no address behind its end is reached. -/
structure LocalRam where
  blocks : List LocalBlock
  index_eq : ∀ i (block : LocalBlock), blocks[i]? = some block → block.index = i
  length_pos : ∀ block ∈ blocks, 0 < block.length
  length_lt : ∀ block ∈ blocks, block.length < 2 ^ 51
  fits : ∀ block ∈ blocks, block.offset + block.length ≤ 2 ^ 64 ∧
    block.localHostAddr + block.length ≤ 2 ^ 64 ∧ block.remoteHostAddr + block.length ≤ 2 ^ 64
  disjoint : blocks.Pairwise fun a b =>
    a.offset + a.length ≤ b.offset ∨ b.offset + b.length ≤ a.offset

/-! ### Chunks and identifiers -/

def chunkIndex (start host : ℕ) : ℕ := (host - start) / chunkSize

def chunkStart (block : LocalBlock) (i : ℕ) : ℕ := block.localHostAddr + i * chunkSize

def chunkEnd (block : LocalBlock) (i : ℕ) : ℕ :=
  min (chunkStart block i + chunkSize) (block.localHostAddr + block.length)

def MC_RDMA_WRID_RDMA_WRITE : ℕ := 1

def makeWrid (wrId index chunk : ℕ) : ℕ :=
  (wrId % 2 ^ 16 ||| index <<< 16 ||| chunk <<< 30) % 2 ^ 64

/-- The block that `mc_rdma_poll` finds in an identifier. -/
def wridBlock (wrId : ℕ) : ℕ := wrId / 2 ^ 16 % 2 ^ 14

def wridChunk (wrId : ℕ) : ℕ := wrId / 2 ^ 30

/-- A request that was posted, with the block and the chunk it was posted for. -/
structure RdmaWrite where
  index : ℕ
  chunk : ℕ
  addr : ℕ
  length : ℕ
  remoteAddr : ℕ
  rkey : UInt32
  deriving DecidableEq

def RdmaWrite.wrId (w : RdmaWrite) : ℕ := makeWrid MC_RDMA_WRID_RDMA_WRITE w.index w.chunk

/-! ### The context -/

/-- The fields of the context that the writes use, with the requests whose completion was not yet
polled and all the requests that were posted. -/
structure Outgoing where
  nbSent : ℕ
  currentAddr : ℕ
  currentLength : ℕ
  currentIndex : ℤ
  currentChunk : ℤ
  transit : ℕ → ℕ → Bool
  outstanding : List RdmaWrite
  posted : List RdmaWrite

/-- `mc_rdma_data_init` -/
def dataInit : Outgoing := ⟨0, 0, 0, -1, -1, fun _ _ => false, [], []⟩

def setBit (bits : ℕ → ℕ → Bool) (index chunk : ℕ) (v : Bool) : ℕ → ℕ → Bool := fun i c =>
  if i = index ∧ c = chunk then v else bits i c

namespace Outgoing

/-- `mc_rdma_poll` on a completion with an identifier. -/
def poll (wrId : ℕ) (rdma : Outgoing) : Outgoing :=
  if wrId % 2 ^ 16 = MC_RDMA_WRID_RDMA_WRITE then
    { rdma with
      transit := setBit rdma.transit (wridBlock wrId) (wridChunk wrId) false
      nbSent := rdma.nbSent - 1 }
  else rdma

def complete (w : RdmaWrite) (rdma : Outgoing) : Outgoing :=
  { rdma.poll w.wrId with outstanding := rdma.outstanding.erase w }

def post (w : RdmaWrite) (rdma : Outgoing) : Outgoing :=
  { rdma with
    transit := setBit rdma.transit w.index w.chunk true
    outstanding := rdma.outstanding ++ [w]
    posted := rdma.posted ++ [w] }

/-- The range was written. -/
def sent (rdma : Outgoing) : Outgoing :=
  { rdma with nbSent := rdma.nbSent + 1, currentLength := 0, currentAddr := 0 }

end Outgoing

/-- What the device does during a call: which of the outstanding requests completes next, and how
many completions are there when the call ends. -/
structure Device where
  next : List RdmaWrite → ℕ
  ready : ℕ

def pollNext (dev : Device) (rdma : Outgoing) : Option Outgoing :=
  (rdma.outstanding[dev.next rdma.outstanding % rdma.outstanding.length]?).map fun w =>
    rdma.complete w

/-- A loop around `mc_rdma_block_for_wrid`. It never ends when it goes on after all the
outstanding requests have completed. -/
def pollWhile (dev : Device) (c : Outgoing → Bool) : ℕ → Outgoing → Option Outgoing
  | 0, rdma => if c rdma then none else some rdma
  | n + 1, rdma => if c rdma then (pollNext dev rdma).bind (pollWhile dev c n) else some rdma

/-- The loop at the end of `mc_rdma_save_page`. -/
def pollReady (dev : Device) : ℕ → Outgoing → Outgoing
  | 0, rdma => rdma
  | n + 1, rdma =>
    match pollNext dev rdma with
    | none => rdma
    | some rdma => pollReady dev n rdma

/-! ### The functions -/

variable (ram : LocalRam) (dev : Device)

def requestFor (block : LocalBlock) (index addr length : ℕ) : RdmaWrite where
  index := index
  chunk := chunkIndex block.localHostAddr (block.localHostAddr + (addr - block.offset))
  addr := block.localHostAddr + (addr - block.offset)
  length := length
  remoteAddr := block.remoteHostAddr + (addr - block.offset)
  rkey := block.remoteRkey

def writeOne (index addr length : ℕ) (rdma : Outgoing) : Option Outgoing := do
  let block ← ram.blocks[index]?
  let w := requestFor block index addr length
  let rdma ← pollWhile dev (fun rdma => rdma.transit index w.chunk) rdma.outstanding.length rdma
  return rdma.post w

def writeFlush (rdma : Outgoing) : Option Outgoing :=
  if rdma.currentLength = 0 then some rdma
  else (writeOne ram dev rdma.currentIndex.toNat rdma.currentAddr rdma.currentLength rdma).map
    Outgoing.sent

def bufferMergable (rdma : Outgoing) (offset len : ℕ) : Bool :=
  match ram.blocks[rdma.currentIndex.toNat]? with
  | none => false
  | some block =>
    decide (0 ≤ rdma.currentIndex ∧ 0 ≤ rdma.currentChunk ∧ rdma.currentLength ≠ 0 ∧
      offset = rdma.currentAddr + rdma.currentLength ∧ block.offset ≤ offset ∧
      offset + len ≤ block.offset + block.length ∧
      block.localHostAddr + (offset - block.offset) + len ≤ chunkEnd block rdma.currentChunk.toNat)

/-- `mc_rdma_search_ram_block`; its assertions end the process. -/
def searchRamBlock (blockOffset offset length : ℕ) : Option (ℕ × ℕ) := do
  let block ← ram.blocks.find? fun block => decide (block.offset = blockOffset)
  if block.offset ≤ blockOffset + offset ∧
      blockOffset + offset + length ≤ block.offset + block.length then
    return (block.index, chunkIndex block.localHostAddr
      (block.localHostAddr + (blockOffset + offset - block.offset)))
  else none

def startRange (blockOffset offset len : ℕ) (rdma : Outgoing) : Option Outgoing := do
  let (index, chunk) ← searchRamBlock ram blockOffset offset len
  return { rdma with
    currentLength := 0, currentAddr := blockOffset + offset
    currentIndex := index, currentChunk := chunk }

def write (blockOffset offset len : ℕ) (rdma : Outgoing) : Option Outgoing := do
  let rdma ←
    if bufferMergable ram rdma (blockOffset + offset) len then some rdma
    else (writeFlush ram dev rdma).bind (startRange ram blockOffset offset len)
  let rdma := { rdma with currentLength := rdma.currentLength + len }
  if MC_RDMA_MERGE_MAX ≤ rdma.currentLength then writeFlush ram dev rdma else some rdma

def savePage (blockOffset offset size : ℕ) (rdma : Outgoing) : Option Outgoing :=
  (write ram dev blockOffset offset size rdma).map (pollReady dev dev.ready)

def drainCq (rdma : Outgoing) : Option Outgoing := do
  let rdma ← writeFlush ram dev rdma
  pollWhile dev (fun rdma => decide (rdma.nbSent ≠ 0)) rdma.outstanding.length rdma

/-! ### The identifiers -/

theorem wridBlock_lt (wrId : ℕ) : wridBlock wrId < 2 ^ 14 := Nat.mod_lt _ (by decide)

theorem makeWrid_eq {index chunk : ℕ} (hi : index < 2 ^ 14) (hc : chunk < 2 ^ 34) :
    makeWrid MC_RDMA_WRID_RDMA_WRITE index chunk = chunk * 2 ^ 30 + index * 2 ^ 16 + 1 := by
  have hlow : 1 ||| index <<< 16 = index * 2 ^ 16 + 1 := by
    rw [Nat.or_comm, ← Nat.shiftLeft_add_eq_or_of_lt (by decide), Nat.shiftLeft_eq]
  have hall : (index * 2 ^ 16 + 1) ||| chunk <<< 30 = chunk * 2 ^ 30 + (index * 2 ^ 16 + 1) := by
    rw [Nat.or_comm, ← Nat.shiftLeft_add_eq_or_of_lt (by omega), Nat.shiftLeft_eq]
  have ht : MC_RDMA_WRID_RDMA_WRITE % 2 ^ 16 = 1 := rfl
  rw [makeWrid, ht, hlow, hall]
  omega

theorem wrid_decodes {w : RdmaWrite} (hi : w.index < 2 ^ 14) (hc : w.chunk < 2 ^ 34) :
    wridBlock w.wrId = w.index ∧ wridChunk w.wrId = w.chunk := by
  rw [RdmaWrite.wrId, makeWrid_eq hi hc, wridBlock, wridChunk]
  omega

theorem wrId_mod (w : RdmaWrite) : w.wrId % 2 ^ 16 = MC_RDMA_WRID_RDMA_WRITE := by
  have hi : w.index <<< 16 % 2 ^ 16 = 0 := by
    rw [Nat.shiftLeft_eq, Nat.mul_mod_left]
  have hc : w.chunk <<< 30 % 2 ^ 16 = 0 := by
    rw [Nat.shiftLeft_eq]
    omega
  rw [RdmaWrite.wrId, makeWrid, Nat.mod_mod_of_dvd _ (by decide), Nat.or_mod_two_pow,
    Nat.or_mod_two_pow, hi, hc]
  rfl

/-! ### The polls -/

theorem Outgoing.complete_eq (w : RdmaWrite) (rdma : Outgoing) : rdma.complete w = { rdma with
      transit := setBit rdma.transit (wridBlock w.wrId) (wridChunk w.wrId) false
      nbSent := rdma.nbSent - 1
      outstanding := rdma.outstanding.erase w } := by
  rw [complete, poll, if_pos (wrId_mod w)]

theorem Outgoing.outstanding_complete (w : RdmaWrite) (rdma : Outgoing) :
    (rdma.complete w).outstanding = rdma.outstanding.erase w := rfl

section

variable {dev} {s : Outgoing} {I : Outgoing → Prop}

theorem pollNext_cases (dev : Device) (s : Outgoing) :
    (s.outstanding = [] ∧ pollNext dev s = none) ∨
      ∃ w ∈ s.outstanding, pollNext dev s = some (s.complete w) := by
  rcases eq_nil_or_concat s.outstanding with h | ⟨_, _, h⟩
  · exact .inl ⟨h, by simp [pollNext, h]⟩
  · have hlt : dev.next s.outstanding % s.outstanding.length < s.outstanding.length :=
      Nat.mod_lt _ (by simp [h])
    exact .inr ⟨_, getElem_mem hlt, by rw [pollNext, List.getElem?_eq_getElem hlt]; rfl⟩

theorem pollWhile_cases (dev : Device) (c : Outgoing → Bool) {n : ℕ}
    (hp : ∀ s w, w ∈ s.outstanding → I s → I (s.complete w)) (hs : I s)
    (hn : s.outstanding.length ≤ n) : (∃ t, pollWhile dev c n s = some t ∧ I t ∧ c t = false) ∨
      pollWhile dev c n s = none ∧ ∃ t, I t ∧ t.outstanding = [] ∧ c t = true := by
  induction n generalizing s with
  | zero =>
    rw [pollWhile]
    by_cases hc : c s = true
    · exact .inr ⟨if_pos hc, s, hs, length_eq_zero_iff.mp (Nat.le_zero.mp hn), hc⟩
    · exact .inl ⟨s, if_neg hc, hs, by simpa using hc⟩
  | succ n ih =>
    rw [pollWhile]
    by_cases hc : c s = true
    · rw [if_pos hc]
      obtain ⟨hnil, hno⟩ | ⟨w, hw, hsome⟩ := pollNext_cases dev s
      · exact .inr ⟨by rw [hno]; rfl, s, hs, hnil, hc⟩
      · rw [hsome, bind_some]
        refine ih (hp s w hw hs) ?_
        have hlen := length_erase_of_mem hw
        rw [Outgoing.outstanding_complete]
        omega
    · exact .inl ⟨s, if_neg hc, hs, by simpa using hc⟩

theorem pollReady_keeps (dev : Device) (n : ℕ)
    (hp : ∀ s w, w ∈ s.outstanding → I s → I (s.complete w)) (hs : I s) :
    I (pollReady dev n s) := by
  induction n generalizing s with
  | zero => exact hs
  | succ n ih =>
    obtain ⟨-, hn⟩ | ⟨w, hw, hsome⟩ := pollNext_cases dev s
    · rwa [pollReady, hn]
    · rw [pollReady, hsome]
      exact ih (hp s w hw hs)

end

/-! ### The blocks -/

section

variable {ram} {i j x : ℕ} {a b : LocalBlock}

theorem LocalRam.index_unique (ha : ram.blocks[i]? = some a) (hb : ram.blocks[j]? = some b)
    (hxa : a.offset ≤ x ∧ x < a.offset + a.length) (hxb : b.offset ≤ x ∧ x < b.offset + b.length) :
    i = j := by
  obtain ⟨hi, rfl⟩ := List.getElem?_eq_some_iff.mp ha
  obtain ⟨hj, rfl⟩ := List.getElem?_eq_some_iff.mp hb
  have hd := pairwise_iff_getElem.mp ram.disjoint
  rcases lt_trichotomy i j with hij | hij | hij
  · have := hd i j hi hj hij
    omega
  · exact hij
  · have := hd j i hj hi hij
    omega

theorem searchRamBlock_eq {offset length : ℕ} (ha : ram.blocks[i]? = some a)
    (hl : offset + length ≤ a.length) :
    searchRamBlock ram a.offset offset length = some (i, offset / chunkSize) := by
  have hmem := mem_of_getElem? ha
  obtain ⟨b, hb⟩ :
      ∃ b, ram.blocks.find? (fun block => decide (block.offset = a.offset)) = some b := by
    rw [← isSome_iff_exists, List.find?_isSome]
    exact ⟨a, hmem, decide_eq_true rfl⟩
  have ho : b.offset = a.offset := by simpa using List.find?_some hb
  obtain ⟨j, hj⟩ := mem_iff_getElem?.mp (List.mem_of_find?_eq_some hb)
  -- both blocks hold the address at which they start
  have hpos := ram.length_pos a hmem
  have hpos' := ram.length_pos b (mem_of_getElem? hj)
  obtain rfl : i = j := ram.index_unique (x := a.offset) ha hj (by omega) (by omega)
  obtain rfl : a = b := Option.some.inj (ha.symm.trans hj)
  rw [searchRamBlock, hb]
  simp only [bind_eq_bind, bind_some]
  rw [if_pos (by omega), ram.index_eq i a ha, chunkIndex, Nat.add_sub_cancel_left,
    Nat.add_sub_cancel_left]
  rfl

theorem searchRamBlock_eq_some {blockOffset offset length chunk : ℕ}
    (h : searchRamBlock ram blockOffset offset length = some (i, chunk)) :
    ∃ block, ram.blocks[i]? = some block ∧
      blockOffset + offset + length ≤ block.offset + block.length := by
  simp only [searchRamBlock, bind_eq_bind, bind_eq_some_iff,
    ite_none_right_eq_some, Option.pure_def, Option.some.injEq, Prod.mk.injEq] at h
  obtain ⟨block, hf, ⟨-, hend⟩, hi, -⟩ := h
  obtain ⟨j, hj⟩ := mem_iff_getElem?.mp (List.mem_of_find?_eq_some hf)
  rw [ram.index_eq j block hj] at hi
  exact ⟨block, hi ▸ hj, hend⟩

end

end VmFt.Rdma
