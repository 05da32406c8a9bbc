import VmFt.Lib.Ranking
import VmFt.Net.Mirror

/-! # The pairing of the RAM blocks

Both hosts list their RAM blocks in an order of their own. The source announces
its blocks by name and the destination notes the number of each announcement,
sorts its list by these numbers and sends the addresses and keys of its blocks.
The source takes them over by position.
-/

namespace VmFt.Rdma

open VmFt.Net List Option Function

def MC_RDMA_CONTROL_MAX_BUFFER : ℕ := 512 * 1024 * 516

/-- The size of an `MC_RDMADestBlock`. -/
def destBlockSize : ℕ := 32

/-- The size of an `MC_RDMAControlHeader`. -/
def controlHeaderSize : ℕ := 16

/-- A RAM block as `qemu_ram_foreach_block` shows it. -/
structure RamBlock where
  idstr : String
  host : ℕ
  offset : ℕ
  usedLength : ℕ
  host_pos : 0 < host
  usedLength_pos : 0 < usedLength
  host_le : host + usedLength ≤ 2 ^ 64
  offset_le : offset + usedLength ≤ 2 ^ 64

structure LocalBlock where
  blockName : String
  localHostAddr : ℕ
  remoteHostAddr : ℕ
  offset : ℕ
  length : ℕ
  mr : Option UInt32
  remoteRkey : UInt32
  index : ℕ
  srcIndex : ℕ
  deriving DecidableEq

/-- A host: its list of RAM blocks, and the key that the `i`-th call of `ibv_reg_mr` returns. -/
structure Host where
  ram : List RamBlock
  regMr : ℕ → Option UInt32
  nodup : (ram.map RamBlock.idstr).Nodup
  length_lt : ram.length < 2 ^ 31

def RamBlock.entry (block : RamBlock) (index : ℕ) : LocalBlock where
  blockName := block.idstr
  localHostAddr := block.host
  remoteHostAddr := 0
  offset := block.offset
  length := block.usedLength
  mr := none
  remoteRkey := 0
  index := index
  srcIndex := 2 ^ 32 - 1

def addBlock (blocks : List LocalBlock) (block : RamBlock) : List LocalBlock :=
  blocks ++ [block.entry blocks.length]

def initRamBlocks (ram : List RamBlock) : List LocalBlock :=
  ram.foldl addBlock []

def regWholeRamBlocks (regMr : ℕ → Option UInt32) : ℕ → List LocalBlock → Option (List LocalBlock)
  | _, [] => some []
  | i, block :: blocks => do
    let key ← regMr i
    let blocks ← regWholeRamBlocks regMr (i + 1) blocks
    return { block with mr := some key } :: blocks

/-! ### The destination -/

structure Incoming where
  blocks : List LocalBlock
  nextSrcIndex : ℕ
  deriving DecidableEq

/-- `mc_block_notification_handle`; a name that no block has is an error. -/
def blockNotificationHandle (rdma : Incoming) (name : String) : Option Incoming :=
  (rdma.blocks.findIdx? fun block => decide (block.blockName = name)).map fun found =>
    { blocks := rdma.blocks.modify found fun block =>
        { block with srcIndex := rdma.nextSrcIndex },
      nextSrcIndex := (rdma.nextSrcIndex + 1) % 2 ^ 32 }

def destRamSortFunc (a b : LocalBlock) : ℤ :=
  if a.srcIndex < b.srcIndex then -1 else if a.srcIndex ≠ b.srcIndex then 1 else 0

def sortBlocks (blocks : List LocalBlock) : List LocalBlock :=
  blocks.mergeSort fun a b => decide (destRamSortFunc a b ≤ 0)

structure DestBlock where
  remoteHostAddr : ℕ
  offset : ℕ
  length : ℕ
  remoteRkey : UInt32
  deriving DecidableEq

def htonll (v : ℕ) : List UInt8 := htonl (v / 2 ^ 32) ++ htonl (v % 2 ^ 32)

def ntohll (bytes : List UInt8) : ℕ :=
  ntohl (bytes.take 4) * 2 ^ 32 + ntohl (bytes.drop 4)

namespace DestBlock

/-- The bytes of a description behind `mc_dest_block_to_network`. -/
def toNetwork (block : DestBlock) : List UInt8 :=
  htonll block.remoteHostAddr ++ (htonll block.offset ++ (htonll block.length ++
    (htonl block.remoteRkey.toNat ++ replicate 4 0)))

def ofNetwork (bytes : List UInt8) : DestBlock where
  remoteHostAddr := ntohll (bytes.take 8)
  offset := ntohll ((bytes.drop 8).take 8)
  length := ntohll ((bytes.drop 16).take 8)
  remoteRkey := UInt32.ofNat (ntohl ((bytes.drop 24).take 4))

end DestBlock

def LocalBlock.describe (block : LocalBlock) : DestBlock where
  remoteHostAddr := block.localHostAddr
  offset := block.offset
  length := block.length
  remoteRkey := block.mr.getD 0

structure ControlMessage where
  len : ℕ
  data : List UInt8
  deriving DecidableEq

/-- `mc_rdma_post_send_control`; a message that does not fit the buffer ends the process. -/
def postSendControl (len : ℕ) (buf : List UInt8) : Option ControlMessage :=
  if len ≤ MC_RDMA_CONTROL_MAX_BUFFER - controlHeaderSize then some ⟨len, buf.take len⟩ else none

/-- The answer to `MC_RDMA_CONTROL_RAM_BLOCKS_REQUEST`. -/
def ramBlocksRequest (regMr : ℕ → Option UInt32) (rdma : Incoming) :
    Option (List LocalBlock × ControlMessage) := do
  let blocks ← regWholeRamBlocks regMr 0 (sortBlocks rdma.blocks)
  let buf := blocks.flatMap fun block => block.describe.toNetwork
  let blocksResult ← postSendControl (blocks.length * destBlockSize % 2 ^ 32) buf
  return (blocks, blocksResult)

/-! ### The source -/

/-- `mc_rdma_exchange_get_response` on a message of the type that was expected. -/
def exchangeGetResponse (resp : ControlMessage) : Option ControlMessage :=
  if resp.len ≤ MC_RDMA_CONTROL_MAX_BUFFER - controlHeaderSize ∧
      controlHeaderSize + resp.len = controlHeaderSize + resp.data.length then
    some resp
  else none

def adoptDestBlocks : List LocalBlock → List UInt8 → Option (List LocalBlock)
  | [], _ => some []
  | block :: blocks, data =>
    let dest := DestBlock.ofNetwork (data.take destBlockSize)
    if dest.length ≠ block.length then none
    else (adoptDestBlocks blocks (data.drop destBlockSize)).map fun blocks =>
      { block with remoteHostAddr := dest.remoteHostAddr, remoteRkey := dest.remoteRkey } :: blocks

/-- `mc_rdma_registration_stop` for `RAM_CONTROL_SETUP`. -/
def registrationStop (regMr : ℕ → Option UInt32) (blocks : List LocalBlock)
    (answer : ControlMessage) : Option (List LocalBlock) := do
  let blocks ← regWholeRamBlocks regMr 0 blocks
  let resp ← exchangeGetResponse answer
  if blocks.length ≠ resp.len / destBlockSize then none
  else adoptDestBlocks blocks resp.data

/-- The announcements and the exchange: the blocks of the source and of the destination. -/
def pairBlocks (source dest : Host) : Option (List LocalBlock × List LocalBlock) := do
  let rdma ← (source.ram.map RamBlock.idstr).foldlM blockNotificationHandle
    ⟨initRamBlocks dest.ram, 0⟩
  let (destBlocks, answer) ← ramBlocksRequest dest.regMr rdma
  let blocks ← registrationStop source.regMr (initRamBlocks source.ram) answer
  return (blocks, destBlocks)

/-- What a list says of a RAM block: its name, its address, its offset and its length. -/
def RamBlock.view (block : RamBlock) : String × ℕ × ℕ × ℕ :=
  (block.idstr, block.host, block.offset, block.usedLength)

def LocalBlock.view (block : LocalBlock) : String × ℕ × ℕ × ℕ :=
  (block.blockName, block.localHostAddr, block.offset, block.length)

variable {blocks : List LocalBlock} {ram : List RamBlock} {regMr : ℕ → Option UInt32}

theorem map_view_foldl_addBlock : (ram.foldl addBlock blocks).map LocalBlock.view =
      blocks.map LocalBlock.view ++ ram.map RamBlock.view := by
  induction ram generalizing blocks with
  | nil => simp
  | cons r ram ih => simp [ih, addBlock, LocalBlock.view, RamBlock.view, RamBlock.entry]

theorem map_view_initRamBlocks : (initRamBlocks ram).map LocalBlock.view = ram.map RamBlock.view :=
  map_view_foldl_addBlock

theorem map_blockName_initRamBlocks :
    (initRamBlocks ram).map LocalBlock.blockName = ram.map RamBlock.idstr := by
  have hn := congrArg (map Prod.fst) (@map_view_initRamBlocks ram)
  rwa [List.map_map, List.map_map] at hn

theorem map_length_of_view {entries : List LocalBlock}
    (h : blocks.map LocalBlock.view = entries.map LocalBlock.view) :
    blocks.map LocalBlock.length = entries.map LocalBlock.length := by
  have hl := congrArg (map fun v => v.2.2.2) h
  rwa [List.map_map, List.map_map] at hl

theorem map_blockName_of_view {entries : List LocalBlock}
    (h : blocks.map LocalBlock.view = entries.map LocalBlock.view) :
    blocks.map LocalBlock.blockName = entries.map LocalBlock.blockName := by
  have hn := congrArg (map Prod.fst) h
  rwa [List.map_map, List.map_map] at hn

/-! ### Registering the blocks -/

theorem regWholeRamBlocks_eq_some {i : ℕ} {registered : List LocalBlock}
    (h : regWholeRamBlocks regMr i blocks = some registered) :
    registered.map LocalBlock.view = blocks.map LocalBlock.view ∧
      ∀ block ∈ registered, ∃ key, block.mr = some key := by
  induction blocks generalizing i registered with
  | nil =>
    obtain rfl : [] = registered := by simpa [regWholeRamBlocks] using h
    simp
  | cons b blocks ih =>
    simp only [regWholeRamBlocks, bind_eq_bind, bind_eq_some_iff, Option.pure_def,
      Option.some.injEq] at h
    obtain ⟨key, -, rest, hrest, rfl⟩ := h
    obtain ⟨hv, hmr⟩ := ih hrest
    refine ⟨by simp [hv, LocalBlock.view], ?_⟩
    rintro block hb
    rcases mem_cons.mp hb with rfl | hb
    · exact ⟨key, rfl⟩
    · exact hmr block hb

theorem exists_regWholeRamBlocks {i : ℕ}
    (h : ∀ j < blocks.length, ∃ key, regMr (i + j) = some key) :
    ∃ registered, regWholeRamBlocks regMr i blocks = some registered := by
  induction blocks generalizing i with
  | nil => exact ⟨[], rfl⟩
  | cons b blocks ih =>
    obtain ⟨key, hkey⟩ := h 0 (Nat.succ_pos _)
    rw [Nat.add_zero] at hkey
    obtain ⟨rest, hrest⟩ := ih (i := i + 1) fun j hj => by
      rw [Nat.add_assoc, Nat.add_comm 1]
      exact h (j + 1) (Nat.succ_lt_succ hj)
    rw [regWholeRamBlocks, hkey, hrest]
    exact ⟨_, rfl⟩

/-! ### The announcements -/

def LocalBlock.number (next : ℕ) (names : List String) (block : LocalBlock) : LocalBlock :=
  if block.blockName ∈ names then
    { block with srcIndex := next + names.idxOf block.blockName }
  else block

@[simp]
theorem LocalBlock.view_number (next : ℕ) (names : List String) (block : LocalBlock) :
    (block.number next names).view = block.view := by
  unfold number
  split <;> rfl

@[simp]
theorem LocalBlock.blockName_number (next : ℕ) (names : List String) (block : LocalBlock) :
    (block.number next names).blockName = block.blockName :=
  congrArg Prod.fst (block.view_number next names)

@[simp]
theorem LocalBlock.number_nil (next : ℕ) : LocalBlock.number next [] = id :=
  funext fun _ => if_neg not_mem_nil

theorem LocalBlock.number_cons {next : ℕ} {name : String} {names : List String}
    (hn : name ∉ names) (block : LocalBlock) : block.number next (name :: names) =
      (if block.blockName = name then { block with srcIndex := next } else block).number
        (next + 1) names := by
  by_cases h : block.blockName = name
  · simp [number, h, hn]
  · by_cases hmem : block.blockName ∈ names
    · simp [number, h, hmem, idxOf_cons_ne _ (Ne.symm h), Nat.add_assoc, Nat.add_comm 1]
    · simp [number, h, hmem]

theorem blockNotificationHandle_eq {name : String} {next : ℕ}
    (hb : (blocks.map LocalBlock.blockName).Nodup)
    (hn : name ∈ blocks.map LocalBlock.blockName) (hne : next + 1 < 2 ^ 32) :
    blockNotificationHandle ⟨blocks, next⟩ name = some ⟨blocks.map fun block =>
        if block.blockName = name then { block with srcIndex := next } else block, next + 1⟩ := by
  obtain ⟨i, hi, hm⟩ := Ranking.modify_findIdx?
    (fun block : LocalBlock => { block with srcIndex := next }) hb hn
  dsimp only [blockNotificationHandle]
  rw [hi, map_some, hm, Nat.mod_eq_of_lt hne]

theorem foldlM_blockNotificationHandle {names : List String} {next : ℕ} (hna : names.Nodup)
    (hb : (blocks.map LocalBlock.blockName).Nodup)
    (hsub : ∀ name ∈ names, name ∈ blocks.map LocalBlock.blockName)
    (hne : next + names.length < 2 ^ 32) : names.foldlM blockNotificationHandle ⟨blocks, next⟩ =
      some ⟨blocks.map (LocalBlock.number next names), next + names.length⟩ := by
  induction names generalizing blocks next with
  | nil => simp
  | cons name names ih =>
    obtain ⟨hnm, hna⟩ := nodup_cons.mp hna
    rw [length_cons] at hne
    have hk : (blocks.map fun block => if block.blockName = name then
        { block with srcIndex := next } else block).map LocalBlock.blockName =
        blocks.map LocalBlock.blockName := by
      rw [List.map_map]
      refine map_congr_left fun block _ => ?_
      dsimp only [comp_apply]
      split <;> rfl
    rw [foldlM_cons, blockNotificationHandle_eq hb (hsub name mem_cons_self)
      (by omega), bind_eq_bind, bind_some, ih hna (by rwa [hk])
        (fun n hn => by rw [hk]; exact hsub n (mem_cons_of_mem _ hn)) (by omega), List.map_map]
    simp only [comp_def, ← LocalBlock.number_cons hnm, length_cons, Nat.add_assoc,
      Nat.add_comm 1]

theorem sortBlocks_eq : sortBlocks blocks = blocks.mergeSort fun a b =>
    decide (a.srcIndex ≤ b.srcIndex) := by
  have h : ∀ a b : LocalBlock, destRamSortFunc a b ≤ 0 ↔ a.srcIndex ≤ b.srcIndex := by
    intro a b
    unfold destRamSortFunc
    split_ifs <;> omega
  simp only [sortBlocks, h]

/-! ### The descriptions on the wire -/

theorem ntohll_htonll {v : ℕ} (h : v < 2 ^ 64) : ntohll (htonll v) = v := by
  have hh : v / 2 ^ 32 < 2 ^ 32 := by omega
  have hlow : v % 2 ^ 32 < 2 ^ 32 := by omega
  rw [ntohll, htonll, take_left' (length_htonl _), drop_left' (length_htonl _),
    ntohl_htonl hh, ntohl_htonl hlow]
  omega

@[simp]
theorem length_htonll (v : ℕ) : (htonll v).length = 8 := by
  rw [htonll, length_append, length_htonl, length_htonl]

@[simp]
theorem DestBlock.length_toNetwork (block : DestBlock) :
    block.toNetwork.length = destBlockSize := by
  simp [toNetwork, destBlockSize]

theorem DestBlock.ofNetwork_toNetwork {block : DestBlock} (ha : block.remoteHostAddr < 2 ^ 64)
    (ho : block.offset < 2 ^ 64) (hl : block.length < 2 ^ 64) :
    ofNetwork block.toNetwork = block := by
  have h : ofNetwork block.toNetwork =
      ⟨ntohll (htonll block.remoteHostAddr), ntohll (htonll block.offset),
        ntohll (htonll block.length), UInt32.ofNat (ntohl (htonl block.remoteRkey.toNat))⟩ := by
    simp [ofNetwork, toNetwork, drop_append, drop_eq_nil_of_le]
  rw [h, ntohll_htonll ha, ntohll_htonll ho, ntohll_htonll hl,
    ntohl_htonl block.remoteRkey.toNat_lt, UInt32.ofNat_toNat]

/-! ### The exchange -/

def LocalBlock.adopt (block dest : LocalBlock) : LocalBlock :=
  { block with remoteHostAddr := dest.localHostAddr, remoteRkey := dest.mr.getD 0 }

/-- The numbers of the block fit the fields of a description. -/
def LocalBlock.Fits (block : LocalBlock) : Prop :=
  block.localHostAddr < 2 ^ 64 ∧ block.offset < 2 ^ 64 ∧ block.length < 2 ^ 64

theorem adoptDestBlocks_eq {dests : List LocalBlock} (hfits : ∀ dest ∈ dests, dest.Fits)
    (hl : blocks.map LocalBlock.length = dests.map LocalBlock.length) :
    adoptDestBlocks blocks (dests.flatMap fun dest => dest.describe.toNetwork) =
      some (zipWith LocalBlock.adopt blocks dests) := by
  induction blocks generalizing dests with
  | nil => simp [adoptDestBlocks]
  | cons block blocks ih =>
    cases dests with
    | nil => simp at hl
    | cons dest dests =>
      obtain ⟨hh, ht⟩ := List.cons.inj hl
      obtain ⟨ha, ho, hlen⟩ := hfits dest mem_cons_self
      have hw : DestBlock.ofNetwork dest.describe.toNetwork = dest.describe :=
        DestBlock.ofNetwork_toNetwork ha ho hlen
      have hrest := ih (fun d hd => hfits d (mem_cons_of_mem _ hd)) ht
      rw [flatMap_cons, adoptDestBlocks, take_left' (DestBlock.length_toNetwork _),
        drop_left' (DestBlock.length_toNetwork _), hw, hrest]
      simp [LocalBlock.describe, LocalBlock.adopt, hh]

theorem length_flatMap_toNetwork (dests : List LocalBlock) :
    (dests.flatMap fun dest => dest.describe.toNetwork).length = dests.length * destBlockSize := by
  simp [length_flatMap]

theorem map_view_zipWith_adopt {dests : List LocalBlock} (hl : blocks.length = dests.length) :
    (zipWith LocalBlock.adopt blocks dests).map LocalBlock.view =
      blocks.map LocalBlock.view := by
  refine ext_getElem (by simp [hl]) fun i hi hi' => ?_
  simp [LocalBlock.adopt, LocalBlock.view]

theorem exists_of_mem_zipWith_adopt {dests : List LocalBlock} {b : LocalBlock}
    (hn : blocks.map LocalBlock.blockName = dests.map LocalBlock.blockName)
    (hmr : ∀ d ∈ dests, ∃ key, d.mr = some key)
    (hb : b ∈ zipWith LocalBlock.adopt blocks dests) :
    ∃ d ∈ dests, d.blockName = b.blockName ∧ b.remoteHostAddr = d.localHostAddr ∧
      d.mr = some b.remoteRkey := by
  induction blocks generalizing dests with
  | nil => simp at hb
  | cons block blocks ih =>
    cases dests with
    | nil => simp at hb
    | cons dest dests =>
      obtain ⟨hh, ht⟩ := List.cons.inj hn
      rcases mem_cons.mp hb with rfl | hb
      · obtain ⟨key, hkey⟩ := hmr dest mem_cons_self
        exact ⟨dest, mem_cons_self, hh.symm, rfl, by simp [LocalBlock.adopt, hkey]⟩
      · obtain ⟨d, hd, hp⟩ := ih ht (fun d hd => hmr d (mem_cons_of_mem _ hd)) hb
        exact ⟨d, mem_cons_of_mem _ hd, hp⟩

/-- The list of `n` blocks fits a control message. -/
def FitsMessage (n : ℕ) : Prop := n * destBlockSize + controlHeaderSize ≤ MC_RDMA_CONTROL_MAX_BUFFER

instance (n : ℕ) : Decidable (FitsMessage n) := by unfold FitsMessage; infer_instance

theorem answer_bind_registrationStop {dests registered : List LocalBlock}
    (hr : regWholeRamBlocks regMr 0 blocks = some registered) (hfits : ∀ dest ∈ dests, dest.Fits)
    (hl : registered.map LocalBlock.length = dests.map LocalBlock.length) :
    ((postSendControl (dests.length * destBlockSize % 2 ^ 32)
      (dests.flatMap fun dest => dest.describe.toNetwork)).bind (registrationStop regMr blocks)) =
      if FitsMessage dests.length then some (zipWith LocalBlock.adopt registered dests)
      else none := by
  have hc : registered.length = dests.length := by
    simpa using congrArg List.length hl
  by_cases hfit : FitsMessage dests.length
  · have hs := hfit
    simp only [FitsMessage, MC_RDMA_CONTROL_MAX_BUFFER, controlHeaderSize, destBlockSize] at hs
    have hlen : dests.length * destBlockSize % 2 ^ 32 = dests.length * destBlockSize :=
      Nat.mod_eq_of_lt (by unfold destBlockSize; omega)
    have hle : dests.length * destBlockSize ≤ MC_RDMA_CONTROL_MAX_BUFFER - controlHeaderSize :=
      Nat.le_sub_of_add_le hfit
    have hdiv : dests.length * destBlockSize / destBlockSize = dests.length :=
      Nat.mul_div_cancel _ (by decide)
    rw [if_pos hfit, hlen, postSendControl, if_pos hle, bind_some,
      take_of_length_le (length_flatMap_toNetwork _).le, registrationStop, hr,
      exchangeGetResponse, if_pos ⟨hle, by rw [length_flatMap_toNetwork]⟩]
    simp only [bind_eq_bind, bind_some, hdiv, hc, ne_eq, not_true_eq_false, if_false]
    exact adoptDestBlocks_eq hfits hl
  · rw [if_neg hfit, postSendControl]
    split
    case isFalse => rfl
    case isTrue hle =>
      -- the length in the header was cut off and stands for fewer blocks
      have hd : dests.length ≠ dests.length * destBlockSize % 2 ^ 32 / destBlockSize := by
        simp only [FitsMessage, MC_RDMA_CONTROL_MAX_BUFFER, controlHeaderSize, destBlockSize]
          at hfit hle ⊢
        omega
      rw [bind_some, registrationStop, hr, exchangeGetResponse]
      split
      · simp only [bind_eq_bind, bind_some, hc]
        exact if_pos hd
      · rfl

def sortedBlocks (source dest : Host) : List LocalBlock :=
  sortBlocks ((initRamBlocks dest.ram).map (LocalBlock.number 0 (source.ram.map RamBlock.idstr)))

def SameBlocks (source dest : Host) : Prop :=
  (dest.ram.map fun block => (block.idstr, block.usedLength)).Perm
    (source.ram.map fun block => (block.idstr, block.usedLength))

section

variable {source dest : Host}

theorem view_sortedBlocks (source dest : Host) :
    ((sortedBlocks source dest).map LocalBlock.view).Perm (dest.ram.map RamBlock.view) := by
  have h := (mergeSort_perm ((initRamBlocks dest.ram).map
    (LocalBlock.number 0 (source.ram.map RamBlock.idstr))) fun a b =>
      decide (destRamSortFunc a b ≤ 0)).map LocalBlock.view
  rw [List.map_map] at h
  simp only [comp_def, LocalBlock.view_number] at h
  rwa [← map_view_initRamBlocks]

theorem SameBlocks.idstr_perm (h : SameBlocks source dest) :
    (dest.ram.map RamBlock.idstr).Perm (source.ram.map RamBlock.idstr) := by
  have hn := h.map Prod.fst
  rwa [List.map_map, List.map_map] at hn

theorem SameBlocks.blockName_sortedBlocks (h : SameBlocks source dest) :
    (sortedBlocks source dest).map LocalBlock.blockName = source.ram.map RamBlock.idstr := by
  rw [sortedBlocks, sortBlocks_eq]
  refine Ranking.map_mergeSort source.nodup ?_ ?_
  · rw [List.map_map]
    simp only [comp_def, LocalBlock.blockName_number]
    rw [map_blockName_initRamBlocks]
    exact h.idstr_perm
  · intro block hb
    obtain ⟨entry, hentry, rfl⟩ := List.mem_map.mp hb
    have hmem : entry.blockName ∈ source.ram.map RamBlock.idstr := by
      rw [← h.idstr_perm.mem_iff, ← map_blockName_initRamBlocks]
      exact List.mem_map_of_mem hentry
    rw [LocalBlock.number, if_pos hmem]
    exact Nat.zero_add _

theorem SameBlocks.foldlM_eq (h : SameBlocks source dest) :
    (source.ram.map RamBlock.idstr).foldlM blockNotificationHandle ⟨initRamBlocks dest.ram, 0⟩ =
      some ⟨(initRamBlocks dest.ram).map (LocalBlock.number 0 (source.ram.map RamBlock.idstr)),
        source.ram.length⟩ := by
  have hl := source.length_lt
  have hne : 0 + (source.ram.map RamBlock.idstr).length < 2 ^ 32 := by
    rw [length_map]
    omega
  have hall := foldlM_blockNotificationHandle source.nodup
    (map_blockName_initRamBlocks ▸ dest.nodup)
    (fun name hn => map_blockName_initRamBlocks ▸ h.idstr_perm.mem_iff.mpr hn) hne
  rwa [length_map, Nat.zero_add] at hall

theorem SameBlocks.length_sortedBlocks (h : SameBlocks source dest) :
    (sortedBlocks source dest).map LocalBlock.length =
      (initRamBlocks source.ram).map LocalBlock.length := by
  have hv := (view_sortedBlocks source dest).map fun v => (v.1, v.2.2.2)
  rw [List.map_map, List.map_map] at hv
  have hn : ((sortedBlocks source dest).map fun b => (b.blockName, b.length)).map Prod.fst =
      (source.ram.map fun r => (r.idstr, r.usedLength)).map Prod.fst := by
    rw [List.map_map, List.map_map]
    exact h.blockName_sortedBlocks
  have hno : ((source.ram.map fun r => (r.idstr, r.usedLength)).map Prod.fst).Nodup := by
    rw [List.map_map]
    exact source.nodup
  have heq := congrArg (map Prod.snd)
    (Ranking.eq_of_perm_of_map_eq (hn ▸ hno) (hv.trans h) hn)
  have hs := congrArg (map fun v => v.2.2.2) (@map_view_initRamBlocks source.ram)
  rw [List.map_map, List.map_map] at heq hs
  exact heq.trans hs.symm

theorem RamBlock.fits_of_view {block : RamBlock} {entry : LocalBlock}
    (h : entry.view = block.view) : entry.Fits := by
  have hh := block.host_pos
  have hl := block.usedLength_pos
  have hend := block.host_le
  have ho := block.offset_le
  obtain ⟨-, h₁, h₂, h₃⟩ : entry.blockName = block.idstr ∧ entry.localHostAddr = block.host ∧
      entry.offset = block.offset ∧ entry.length = block.usedLength := by
    simpa [LocalBlock.view, RamBlock.view] using h
  unfold LocalBlock.Fits
  omega

theorem SameBlocks.pairBlocks_eq (h : SameBlocks source dest) : pairBlocks source dest =
      (regWholeRamBlocks dest.regMr 0 (sortedBlocks source dest)).bind fun dests =>
        (regWholeRamBlocks source.regMr 0 (initRamBlocks source.ram)).bind fun registered =>
          if FitsMessage dests.length then
            some (zipWith LocalBlock.adopt registered dests, dests) else none := by
  rw [pairBlocks, h.foldlM_eq]
  simp only [ramBlocksRequest, bind_eq_bind, bind_some, Option.pure_def,
    bind_assoc]
  change (regWholeRamBlocks dest.regMr 0 (sortedBlocks source dest)).bind _ = _
  refine Option.bind_congr fun dests hde => ?_
  rw [← bind_assoc]
  cases hs : regWholeRamBlocks source.regMr 0 (initRamBlocks source.ram) with
  | none =>
    have hst : registrationStop source.regMr (initRamBlocks source.ram) = fun _ => none := by
      funext answer
      rw [registrationStop, hs]
      rfl
    simp [hst]
  | some registered =>
    obtain ⟨hv, -⟩ := regWholeRamBlocks_eq_some hde
    have hl : registered.map LocalBlock.length = dests.map LocalBlock.length := by
      rw [map_length_of_view (regWholeRamBlocks_eq_some hs).1, map_length_of_view hv,
        h.length_sortedBlocks]
    have hfits : ∀ d ∈ dests, d.Fits := by
      intro d hd
      have hmem : d.view ∈ dest.ram.map RamBlock.view := by
        rw [← (view_sortedBlocks source dest).mem_iff, ← hv]
        exact List.mem_map_of_mem hd
      obtain ⟨r, -, hr⟩ := List.mem_map.mp hmem
      exact RamBlock.fits_of_view hr.symm
    rw [answer_bind_registrationStop hs hfits hl, bind_some]
    split <;> rfl

def Host.Registers (host : Host) : Prop := ∀ i < host.ram.length, ∃ key, host.regMr i = some key

theorem Host.Registers.exists_regWholeRamBlocks {host : Host} (h : host.Registers)
    (hl : blocks.length = host.ram.length) :
    ∃ registered, regWholeRamBlocks host.regMr 0 blocks = some registered := by
  refine Rdma.exists_regWholeRamBlocks fun j hj => ?_
  rw [Nat.zero_add]
  exact h j (hl ▸ hj)

/-- The two hosts pair their blocks by name: the exchange succeeds unless a registration fails or
the list does not fit a message, and then each block of the source holds the address and the key
of the block with its name. -/
theorem paired_by_name (h : SameBlocks source dest) :
    (source.Registers → dest.Registers → FitsMessage dest.ram.length →
        ∃ result, pairBlocks source dest = some result) ∧
      ∀ blocks dests, pairBlocks source dest = some (blocks, dests) →
        blocks.map LocalBlock.view = source.ram.map RamBlock.view ∧
        (dests.map LocalBlock.view).Perm (dest.ram.map RamBlock.view) ∧
        ∀ b ∈ blocks, ∃ d ∈ dests, d.blockName = b.blockName ∧
          b.remoteHostAddr = d.localHostAddr ∧ d.mr = some b.remoteRkey := by
  rw [h.pairBlocks_eq]
  constructor
  · intro hsource hdest hfit
    have hcount : (sortedBlocks source dest).length = dest.ram.length := by
      simpa using (view_sortedBlocks source dest).length_eq
    have hown : (initRamBlocks source.ram).length = source.ram.length := by
      simpa using congrArg List.length (@map_view_initRamBlocks source.ram)
    obtain ⟨dests, hdests⟩ := hdest.exists_regWholeRamBlocks hcount
    obtain ⟨registered, hregister⟩ := hsource.exists_regWholeRamBlocks hown
    have hlen : dests.length = dest.ram.length := by
      simpa [hcount] using congrArg List.length (regWholeRamBlocks_eq_some hdests).1
    rw [hdests, bind_some, hregister, bind_some, if_pos (hlen ▸ hfit)]
    exact ⟨_, rfl⟩
  · intro _ _ hpair
    simp only [bind_eq_some_iff, ite_none_right_eq_some, Option.some.injEq,
      Prod.mk.injEq] at hpair
    obtain ⟨dests, hdests, registered, hregister, -, rfl, rfl⟩ := hpair
    obtain ⟨hview, hmr⟩ := regWholeRamBlocks_eq_some hdests
    obtain ⟨hown, -⟩ := regWholeRamBlocks_eq_some hregister
    have hname : registered.map LocalBlock.blockName = dests.map LocalBlock.blockName := by
      rw [map_blockName_of_view hown, map_blockName_of_view hview, map_blockName_initRamBlocks,
        h.blockName_sortedBlocks]
    have hlength : registered.length = dests.length := by
      simpa using congrArg List.length hname
    refine ⟨?_, hview ▸ view_sortedBlocks source dest,
      fun b hb => exists_of_mem_zipWith_adopt hname hmr hb⟩
    rw [map_view_zipWith_adopt hlength, hown, map_view_initRamBlocks]

end

def pageBlock (idstr : String) (page offset : Fin 64) : RamBlock where
  idstr := idstr
  host := (page + 1) * 4096
  offset := offset * 4096
  usedLength := 4096
  host_pos := Nat.mul_pos (Nat.succ_pos _) (Nat.succ_pos _)
  usedLength_pos := Nat.succ_pos _
  host_le := by omega
  offset_le := by omega

def ramFirst : Host where
  ram := [pageBlock "pc.ram" 4 0, pageBlock "vga.vram" 9 1]
  regMr := fun i => some (UInt32.ofNat (i + 7))
  nodup := by decide
  length_lt := by decide

def vramFirst : Host where
  ram := [pageBlock "vga.vram" 2 0, pageBlock "pc.ram" 3 1]
  regMr := fun i => some (UInt32.ofNat (i + 40))
  nodup := by decide
  length_lt := by decide

theorem ramFirst_paired_by_name : SameBlocks ramFirst vramFirst ∧ ∃ blocks dests,
      pairBlocks ramFirst vramFirst = some (blocks, dests) ∧
      ∀ b ∈ blocks, ∃ d ∈ dests, d.blockName = b.blockName ∧
        b.remoteHostAddr = d.localHostAddr ∧ d.mr = some b.remoteRkey := by
  have h : SameBlocks ramFirst vramFirst := by
    unfold SameBlocks
    decide
  obtain ⟨⟨blocks, dests⟩, hpair⟩ := (paired_by_name h).1 (fun i _ => ⟨_, rfl⟩)
    (fun i _ => ⟨_, rfl⟩) (by decide)
  exact ⟨h, blocks, dests, hpair, ((paired_by_name h).2 blocks dests hpair).2.2⟩

end VmFt.Rdma
