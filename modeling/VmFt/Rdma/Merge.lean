import Mathlib.Data.List.SplitBy
import VmFt.Rdma.Write

/-! # The merged writes

The pages that are saved fall into runs: as long as each page follows the last one
within a chunk, they belong together. One write is posted for each run. A block
that has no place in the identifier of a request keeps the bit of a chunk set, so
that a second run in the chunk waits for ever.
-/

namespace VmFt.Rdma

open List Option

structure Page where
  index : ℕ
  number : ℕ
  deriving DecidableEq

def Page.chunk (p : Page) : ℕ := p.number * TARGET_PAGE_SIZE / chunkSize

/-- A call of `mc_rdma_save_page` and what the device does during the call. -/
structure Call where
  page : Page
  device : Device

variable (ram : LocalRam)

def save (rdma : Outgoing) (call : Call) : Option Outgoing := do
  let block ← ram.blocks[call.page.index]?
  savePage ram call.device block.offset (call.page.number * TARGET_PAGE_SIZE) TARGET_PAGE_SIZE rdma

/-- The calls, and `mc_rdma_drain_cq` at their end. -/
def saveRound (calls : List Call) (dev : Device) (rdma : Outgoing) : Option Outgoing :=
  (calls.foldlM (save ram) rdma).bind (drainCq ram dev)

def LocalRam.HasPage (p : Page) : Prop :=
  ∃ block, ram.blocks[p.index]? = some block ∧
    p.number * TARGET_PAGE_SIZE + TARGET_PAGE_SIZE ≤ block.length

/-! ### What the writes are to be -/

def LocalRam.HoldsByte (p : Page) (x : ℕ) : Prop :=
  ∃ block, ram.blocks[p.index]? = some block ∧
    block.localHostAddr + p.number * TARGET_PAGE_SIZE ≤ x ∧
    x < block.localHostAddr + p.number * TARGET_PAGE_SIZE + TARGET_PAGE_SIZE

/-- The write is inside a chunk of a block and goes to the same place in the block of the peer. -/
def RdmaWrite.Inside (w : RdmaWrite) : Prop :=
  ∃ block ∈ ram.blocks, chunkStart block w.chunk ≤ w.addr ∧
    w.addr + w.length ≤ chunkEnd block w.chunk ∧
    w.remoteAddr = block.remoteHostAddr + (w.addr - block.localHostAddr) ∧
    w.rkey = block.remoteRkey

/-- Nothing is pending and nothing is outstanding. -/
structure Idle (s : Outgoing) : Prop where
  nbSent : s.nbSent = 0
  currentLength : s.currentLength = 0
  outstanding : s.outstanding = []
  transit : ∀ index chunk, index < 2 ^ 14 → s.transit index chunk = false

theorem idle_dataInit : Idle dataInit := ⟨rfl, rfl, rfl, fun _ _ _ => rfl⟩

/-- The calls and the drain return, and the writes that were posted cover the saved pages. -/
def CoversPages (calls : List Call) (dev : Device) (s : Outgoing) : Prop :=
  ∃ t writes, saveRound ram calls dev s = some t ∧ t.posted = s.posted ++ writes ∧
    Idle t ∧ (∀ w ∈ writes, w.Inside ram) ∧
    ∀ x, (∃ w ∈ writes, w.addr ≤ x ∧ x < w.addr + w.length) ↔
      ∃ call ∈ calls, ram.HoldsByte call.page x

/-! ### The runs -/

/-- The second page follows the first within its chunk. -/
def joins (p q : Page) : Bool :=
  decide (q.index = p.index ∧ q.number = p.number + 1 ∧ q.chunk = p.chunk)

def runChunk : List Page → ℕ × ℕ
  | [] => (0, 0)
  | p :: _ => (p.index, p.chunk)

/-- No two runs are in one chunk of a block that has no place in the identifier, and no run is in
a chunk of such a block that is busy already. -/
def Clear (busy : ℕ → ℕ → Bool) (runs : List (List Page)) : Prop :=
  (∀ run ∈ runs, 2 ^ 14 ≤ (runChunk run).1 → busy (runChunk run).1 (runChunk run).2 = false) ∧
    runs.Pairwise fun a b => 2 ^ 14 ≤ (runChunk a).1 → runChunk a ≠ runChunk b

section

variable {busy busy' : ℕ → ℕ → Bool} {run : List Page} {runs : List (List Page)}

theorem clear_nil : Clear busy [] := ⟨by simp, List.Pairwise.nil⟩

theorem Clear.congr (h : ∀ index chunk, 2 ^ 14 ≤ index → busy' index chunk = busy index chunk) :
    Clear busy runs ↔ Clear busy' runs := by
  refine and_congr_left fun _ => forall₂_congr fun run _ => ?_
  refine imp_congr_right fun hi => ?_
  rw [h _ _ hi]

theorem clear_cons : Clear busy (run :: runs) ↔
      (2 ^ 14 ≤ (runChunk run).1 → busy (runChunk run).1 (runChunk run).2 = false) ∧
        Clear (setBit busy (runChunk run).1 (runChunk run).2 true) runs := by
  unfold Clear
  rw [forall_mem_cons, pairwise_cons, and_assoc]
  refine and_congr_right fun _ => ?_
  rw [← and_assoc]
  refine and_congr_left fun _ => ?_
  rw [← forall₂_and]
  refine forall₂_congr fun b _ => ?_
  by_cases heq : runChunk run = runChunk b
  · have hset : setBit busy (runChunk b).1 (runChunk b).2 true (runChunk b).1 (runChunk b).2 =
        true := if_pos ⟨rfl, rfl⟩
    rw [heq, hset]
    exact ⟨fun h hi => absurd rfl (h.2 hi), fun h => ⟨fun hi => absurd (h hi) (by simp),
        fun hi => absurd (h hi) (by simp)⟩⟩
  · have hne : ¬((runChunk b).1 = (runChunk run).1 ∧ (runChunk b).2 = (runChunk run).2) :=
      fun h => heq (Prod.ext h.1.symm h.2.symm)
    simp [setBit, hne, heq]

theorem Clear.left {runs' : List (List Page)} (h : Clear busy (runs ++ runs')) : Clear busy runs :=
  ⟨fun run hrun => h.1 run (mem_append_left _ hrun), (pairwise_append.mp h.2).1⟩

end

/-! ### Runs of pages -/

section

variable {ram} {p q : Page} {run : List Page} {block : LocalBlock}

theorem joins_iff : joins p q = true ↔
    q.index = p.index ∧ q.number = p.number + 1 ∧ q.chunk = p.chunk :=
  decide_eq_true_iff

theorem isChain_getElem (h : (p :: run).IsChain fun a b => joins a b) {k : ℕ}
    (hk : k < (p :: run).length) :
    (p :: run)[k].index = p.index ∧ (p :: run)[k].number = p.number + k ∧
      (p :: run)[k].chunk = p.chunk := by
  induction k with
  | zero => exact ⟨rfl, rfl, rfl⟩
  | succ k ih =>
    obtain ⟨hin, hnu, hch⟩ := ih (Nat.lt_of_succ_lt hk)
    obtain ⟨hi, hn, hc⟩ := joins_iff.mp (isChain_iff_getElem.mp h k hk)
    exact ⟨hi.trans hin, by rw [hn, hnu, Nat.add_assoc], hc.trans hch⟩

theorem isChain_getLast (h : (p :: run).IsChain fun a b => joins a b)
    (hq : q ∈ (p :: run).getLast?) :
    q.index = p.index ∧ q.number = p.number + run.length ∧ q.chunk = p.chunk := by
  rw [getLast?_eq_getElem?] at hq
  obtain ⟨hk, rfl⟩ := List.getElem?_eq_some_iff.mp hq
  exact isChain_getElem h hk

theorem isChain_length (h : (p :: run).IsChain fun a b => joins a b) :
    p.number * TARGET_PAGE_SIZE + (run.length + 1) * TARGET_PAGE_SIZE ≤
      (p.chunk + 1) * chunkSize := by
  obtain ⟨-, hn, hc⟩ := isChain_getElem h (k := run.length) (by simp)
  simp only [Page.chunk, TARGET_PAGE_SIZE, chunkSize] at hn hc ⊢
  omega

end

/-! ### Waiting -/

/-- The writes that are outstanding account for the counter and for the bits of the blocks that
have a place in the identifier. -/
structure Sound (s : Outgoing) : Prop where
  nbSent : s.nbSent = s.outstanding.length
  transit : ∀ index chunk, index < 2 ^ 14 → s.transit index chunk = true →
    ∃ w ∈ s.outstanding, wridBlock w.wrId = index ∧ wridChunk w.wrId = chunk

structure Polled (s t : Outgoing) : Prop where
  currentAddr : t.currentAddr = s.currentAddr
  currentLength : t.currentLength = s.currentLength
  currentIndex : t.currentIndex = s.currentIndex
  currentChunk : t.currentChunk = s.currentChunk
  posted : t.posted = s.posted
  transit : ∀ index chunk, 2 ^ 14 ≤ index → t.transit index chunk = s.transit index chunk

section

variable {dev : Device} {s t : Outgoing} {w : RdmaWrite}

theorem Polled.refl (s : Outgoing) : Polled s s := ⟨rfl, rfl, rfl, rfl, rfl, fun _ _ _ => rfl⟩

theorem Polled.complete (h : Polled s t) (w : RdmaWrite) : Polled s (t.complete w) := by
  rw [Outgoing.complete_eq]
  refine ⟨h.1, h.2, h.3, h.4, h.5, fun index chunk hi => ?_⟩
  have hlt := wridBlock_lt w.wrId
  rw [← h.transit index chunk hi]
  exact if_neg (by omega)

theorem Sound.complete (h : Sound s) (hw : w ∈ s.outstanding) : Sound (s.complete w) := by
  rw [Outgoing.complete_eq]
  refine ⟨?_, fun index chunk hi hbit => ?_⟩
  · dsimp only
    rw [h.nbSent, length_erase_of_mem hw]
  · dsimp only [setBit] at hbit
    by_cases hown : index = wridBlock w.wrId ∧ chunk = wridChunk w.wrId
    · rw [if_pos hown] at hbit
      exact absurd hbit Bool.false_ne_true
    · rw [if_neg hown] at hbit
      obtain ⟨v, hv, hb, hc⟩ := h.transit index chunk hi hbit
      -- the bit belongs to another request, which is still outstanding
      have hne : v ≠ w := by
        rintro rfl
        exact hown ⟨hb.symm, hc.symm⟩
      exact ⟨v, (mem_erase_of_ne hne).mpr hv, hb, hc⟩

theorem Sound.post (h : Sound s) (hc : w.chunk < 2 ^ 34) : Sound (s.post w).sent := by
  refine ⟨?_, fun index chunk hi hbit => ?_⟩
  · simp [Outgoing.post, Outgoing.sent, h.nbSent]
  · dsimp only [Outgoing.post, Outgoing.sent, setBit] at hbit ⊢
    by_cases hown : index = w.index ∧ chunk = w.chunk
    · obtain ⟨rfl, rfl⟩ := hown
      exact ⟨w, by simp, wrid_decodes hi hc⟩
    · rw [if_neg hown] at hbit
      obtain ⟨v, hv, hd⟩ := h.transit index chunk hi hbit
      exact ⟨v, mem_append_left _ hv, hd⟩

theorem Sound.polled_complete (u : Outgoing) (v : RdmaWrite) (hv : v ∈ u.outstanding)
    (h : Sound u ∧ Polled s u) : Sound (u.complete v) ∧ Polled s (u.complete v) :=
  ⟨h.1.complete hv, h.2.complete v⟩

theorem Sound.await (h : Sound s) (dev : Device) {index chunk : ℕ}
    (hf : 2 ^ 14 ≤ index → s.transit index chunk = false) :
    ∃ t, pollWhile dev (fun t => t.transit index chunk) s.outstanding.length s = some t ∧
      Sound t ∧ Polled s t := by
  obtain ⟨t, ht, hk, -⟩ | ⟨-, t, ⟨hs, hp⟩, hnil, hbit⟩ :=
    pollWhile_cases dev (fun t => t.transit index chunk)
      (I := fun t => Sound t ∧ Polled s t) Sound.polled_complete ⟨h, Polled.refl s⟩ (le_refl _)
  · exact ⟨t, ht, hk⟩
  · exfalso
    rcases Nat.lt_or_ge index (2 ^ 14) with hi | hi
    · obtain ⟨w, hw, -⟩ := hs.transit index chunk hi hbit
      rw [hnil] at hw
      exact not_mem_nil hw
    · rw [hp.transit index chunk hi, hf hi] at hbit
      exact Bool.false_ne_true hbit

theorem await_eq_none {index chunk : ℕ} (hi : 2 ^ 14 ≤ index)
    (hbit : s.transit index chunk = true) :
    pollWhile dev (fun t => t.transit index chunk) s.outstanding.length s = none := by
  obtain ⟨t, -, hp, hclear⟩ | ⟨hn, -⟩ :=
    pollWhile_cases dev (fun t => t.transit index chunk) (I := Polled s)
      (fun _ w _ h => h.complete w) (Polled.refl s) (le_refl _)
  · rw [hp.transit index chunk hi, hbit] at hclear
    exact absurd hclear (by simp)
  · exact hn

theorem Sound.drain (h : Sound s) (dev : Device) :
    ∃ t, pollWhile dev (fun t => decide (t.nbSent ≠ 0)) s.outstanding.length s = some t ∧
      Sound t ∧ Polled s t ∧ t.outstanding = [] := by
  obtain ⟨t, ht, ⟨hs, hp⟩, hz⟩ | ⟨-, t, ⟨hs, -⟩, hnil, hbit⟩ :=
    pollWhile_cases dev (fun t => decide (t.nbSent ≠ 0))
      (I := fun t => Sound t ∧ Polled s t) Sound.polled_complete ⟨h, Polled.refl s⟩ (le_refl _)
  · refine ⟨t, ht, hs, hp, ?_⟩
    have hl := hs.nbSent
    simp only [ne_eq, decide_not, Bool.not_eq_eq_eq_not, Bool.not_false, decide_eq_true_eq]
      at hz
    exact length_eq_zero_iff.mp (hl.symm.trans hz)
  · have hl := hs.nbSent
    simp [hnil] at hl
    simp [hl] at hbit

end

/-! ### The pending run -/

/-- The range that is not yet written consists of the pages of the run. -/
def Pending (s : Outgoing) : List Page → Prop
  | [] => s.currentLength = 0
  | p :: run => ∃ block, ram.blocks[p.index]? = some block ∧
    s.currentIndex = p.index ∧ s.currentChunk = p.chunk ∧
    s.currentAddr = block.offset + p.number * TARGET_PAGE_SIZE ∧
    s.currentLength = (run.length + 1) * TARGET_PAGE_SIZE ∧
    p.number * TARGET_PAGE_SIZE + (run.length + 1) * TARGET_PAGE_SIZE ≤ block.length ∧
    (p :: run).IsChain fun a b => joins a b

def WritesRun (run : List Page) (w : RdmaWrite) : Prop :=
  ∃ p rest block, run = p :: rest ∧ ram.blocks[p.index]? = some block ∧
    p.number * TARGET_PAGE_SIZE + (rest.length + 1) * TARGET_PAGE_SIZE ≤ block.length ∧
    (p :: rest).IsChain (fun a b => joins a b) ∧
    w = requestFor block p.index (block.offset + p.number * TARGET_PAGE_SIZE)
      ((rest.length + 1) * TARGET_PAGE_SIZE)

section

variable {ram} {dev : Device} {s t : Outgoing} {run : List Page} {p q : Page} {block : LocalBlock}

theorem Pending.isChain (h : Pending ram s run) : run.IsChain fun a b => joins a b := by
  cases run with
  | nil => exact isChain_nil
  | cons p run => exact h.choose_spec.2.2.2.2.2.2

theorem Pending.polled (h : Pending ram s run) (hp : Polled s t) : Pending ram t run := by
  cases run with
  | nil => exact hp.currentLength.trans h
  | cons p run =>
    obtain ⟨block, hb, hi, hc, ha, hl, hrest⟩ := h
    exact ⟨block, hb, hp.currentIndex.trans hi, hp.currentChunk.trans hc,
      hp.currentAddr.trans ha, hp.currentLength.trans hl, hrest⟩

theorem requestFor_chunk (block : LocalBlock) (p : Page) (length : ℕ) :
    (requestFor block p.index (block.offset + p.number * TARGET_PAGE_SIZE) length).chunk =
      p.chunk := by
  simp [requestFor, chunkIndex, Page.chunk]

theorem chunk_lt (hb : ram.blocks[p.index]? = some block)
    (hl : p.number * TARGET_PAGE_SIZE ≤ block.length) : p.chunk < 2 ^ 34 := by
  have hlt := ram.length_lt block (mem_of_getElem? hb)
  simp only [Page.chunk, chunkSize] at hl ⊢
  omega

theorem Pending.writeFlush_eq (hp : Pending ram s (p :: run))
    (hb : ram.blocks[p.index]? = some block) (dev : Device) : writeFlush ram dev s =
      (pollWhile dev (fun t => t.transit p.index p.chunk) s.outstanding.length s).map fun t =>
        (t.post (requestFor block p.index (block.offset + p.number * TARGET_PAGE_SIZE)
          ((run.length + 1) * TARGET_PAGE_SIZE))).sent := by
  obtain ⟨block', hb', hi, hc, ha, hl, -⟩ := hp
  obtain rfl : block' = block := Option.some.inj (hb'.symm.trans hb)
  have hne : s.currentLength ≠ 0 := by
    rw [hl]
    exact Nat.mul_ne_zero (Nat.succ_ne_zero _) (by decide)
  rw [writeFlush, if_neg hne, writeOne, hi, Int.toNat_natCast, hb, ha, hl]
  simp only [bind_eq_bind, bind_some, Option.pure_def, requestFor_chunk,
    map_eq_bind, bind_assoc, Function.comp_def]

theorem Pending.exists_writeFlush (hp : Pending ram s run) (hs : Sound s) (dev : Device)
    (hclear : Clear s.transit (run.splitBy joins)) :
    ∃ t writes, writeFlush ram dev s = some t ∧ Sound t ∧ t.currentLength = 0 ∧
      t.posted = s.posted ++ writes ∧ List.Forall₂ (WritesRun ram) (run.splitBy joins) writes ∧
      ∀ runs, Clear s.transit (run.splitBy joins ++ runs) ↔ Clear t.transit runs := by
  cases run with
  | nil =>
    refine ⟨s, [], if_pos hp, hs, hp, by simp, by simp, fun runs => ?_⟩
    simp
  | cons p run =>
    have hc := hp.isChain
    rw [splitBy_of_isChain (cons_ne_nil _ _) hc] at hclear ⊢
    have hf : 2 ^ 14 ≤ p.index → s.transit p.index p.chunk = false := (clear_cons.mp hclear).1
    obtain ⟨t, ht, hso, hpo⟩ := hs.await dev hf
    obtain ⟨block, hb, -, -, -, -, hfits, -⟩ := id hp
    have hch := chunk_lt (p := p) hb (by omega)
    rw [hp.writeFlush_eq hb, ht, map_some]
    refine ⟨_, [_], rfl, hso.post (by rwa [requestFor_chunk]), rfl, ?_,
      .cons ⟨p, run, block, rfl, hb, hfits, hc, rfl⟩ .nil, fun runs => ?_⟩
    · simp [Outgoing.post, Outgoing.sent, hpo.posted]
    · rw [singleton_append, clear_cons]
      refine (and_iff_right hf).trans (Clear.congr fun index chunk hi => ?_)
      simp only [Outgoing.post, Outgoing.sent, requestFor_chunk, setBit, runChunk,
        hpo.transit index chunk hi]
      rfl

theorem Pending.writeFlush_eq_none (hp : Pending ram s run) (dev : Device)
    (hclear : ¬ Clear s.transit (run.splitBy joins)) : writeFlush ram dev s = none := by
  cases run with
  | nil => exact absurd clear_nil hclear
  | cons p run =>
    rw [splitBy_of_isChain (cons_ne_nil _ _) hp.isChain, clear_cons,
      and_iff_left clear_nil, Classical.not_imp, Bool.not_eq_false] at hclear
    obtain ⟨hi, hbit⟩ : 2 ^ 14 ≤ p.index ∧ s.transit p.index p.chunk = true := hclear
    obtain ⟨block, hb, -⟩ := id hp
    rw [hp.writeFlush_eq hb, await_eq_none hi hbit, map_none]

/-! ### Saving a page -/

theorem bufferMergable_eq_false {offset len : ℕ} (h : s.currentLength = 0) :
    bufferMergable ram s offset len = false := by
  unfold bufferMergable
  split
  · rfl
  · simp [h]

theorem bufferMergable_iff {offset len : ℕ} (hb : ram.blocks[s.currentIndex.toNat]? = some block) :
    bufferMergable ram s offset len = true ↔
      0 ≤ s.currentIndex ∧ 0 ≤ s.currentChunk ∧ s.currentLength ≠ 0 ∧
      offset = s.currentAddr + s.currentLength ∧ block.offset ≤ offset ∧
      offset + len ≤ block.offset + block.length ∧
      block.localHostAddr + (offset - block.offset) + len ≤
        chunkEnd block s.currentChunk.toNat := by
  rw [bufferMergable, hb]
  exact decide_eq_true_iff

theorem le_chunkEnd_iff (hfits : q.number * TARGET_PAGE_SIZE + TARGET_PAGE_SIZE ≤ block.length)
    (hle : p.number ≤ q.number) :
    block.localHostAddr + q.number * TARGET_PAGE_SIZE + TARGET_PAGE_SIZE ≤
        chunkEnd block p.chunk ↔ q.chunk = p.chunk := by
  simp only [chunkEnd, chunkStart, Page.chunk, TARGET_PAGE_SIZE, chunkSize] at hfits ⊢
  omega

theorem Pending.bufferMergable_iff (hp : Pending ram s run) (hb : ram.blocks[q.index]? = some block)
    (hfits : q.number * TARGET_PAGE_SIZE + TARGET_PAGE_SIZE ≤ block.length) :
    bufferMergable ram s (block.offset + q.number * TARGET_PAGE_SIZE) TARGET_PAGE_SIZE = true ↔
      ∃ last ∈ run.getLast?, joins last q = true := by
  cases run with
  | nil => simp [bufferMergable_eq_false (show s.currentLength = 0 from hp)]
  | cons p run =>
    obtain ⟨own, hown, hin, hchu, had, hle, hend, hch⟩ := hp
    obtain ⟨last, hlas⟩ : ∃ last, last ∈ (p :: run).getLast? :=
      ⟨_, getLast?_eq_some_getLast (cons_ne_nil _ _)⟩
    obtain ⟨hla, hls, hl⟩ := isChain_getLast hch hlas
    have hj : (∃ last ∈ (p :: run).getLast?, joins last q = true) ↔ joins last q = true := by
      rw [mem_def.mp hlas]
      simp
    have hpos : 0 < TARGET_PAGE_SIZE := by decide
    have hc : ram.blocks[s.currentIndex.toNat]? = some own := by
      rw [hin, Int.toNat_natCast, hown]
    have hnx : s.currentAddr + s.currentLength =
        own.offset + (p.number + run.length + 1) * TARGET_PAGE_SIZE := by
      rw [had, hle, Nat.add_assoc, ← Nat.add_mul, ← Nat.add_assoc]
    rw [hj, joins_iff, hla, hls, hl, Rdma.bufferMergable_iff hc, hnx, hin, hchu, Int.toNat_natCast]
    constructor
    · rintro ⟨-, -, -, ha, hs, hst, hi⟩
      -- the page is in the block of the run, since blocks do not overlap
      have hsa : q.index = p.index := ram.index_unique hb hown
        (x := block.offset + q.number * TARGET_PAGE_SIZE) (by omega) (by omega)
      obtain rfl : own = block := by
        rw [hsa, hown] at hb
        exact Option.some.inj hb
      have hn : q.number = p.number + run.length + 1 :=
        Nat.eq_of_mul_eq_mul_right hpos (Nat.add_left_cancel ha)
      rw [Nat.add_sub_cancel_left, le_chunkEnd_iff hfits (by omega)] at hi
      exact ⟨hsa, hn, hi⟩
    · rintro ⟨hsa, hn, hi⟩
      obtain rfl : own = block := by
        rw [hsa, hown] at hb
        exact Option.some.inj hb
      have hne : s.currentLength ≠ 0 := by
        rw [hle]
        exact Nat.mul_ne_zero (Nat.succ_ne_zero _) hpos.ne'
      refine ⟨Int.natCast_nonneg _, Int.natCast_nonneg _, hne, by rw [hn],
        Nat.le_add_right _ _, by omega, ?_⟩
      rw [Nat.add_sub_cancel_left]
      exact (le_chunkEnd_iff hfits (by omega)).mpr hi

theorem Pending.currentLength_lt (h : Pending ram s run) : s.currentLength < MC_RDMA_MERGE_MAX := by
  cases run with
  | nil =>
    rw [show s.currentLength = 0 from h]
    decide
  | cons p run =>
    have hl := isChain_length h.isChain
    obtain ⟨-, -, -, -, -, hc, -⟩ := h
    simp only [hc, Page.chunk, MC_RDMA_MERGE_MAX, TARGET_PAGE_SIZE, chunkSize] at hl ⊢
    omega

theorem Pending.concat (h : Pending ram s run) (hb : ram.blocks[q.index]? = some block)
    (hfits : q.number * TARGET_PAGE_SIZE + TARGET_PAGE_SIZE ≤ block.length)
    (hj : ∃ last ∈ run.getLast?, joins last q = true) :
    Pending ram { s with currentLength := s.currentLength + TARGET_PAGE_SIZE } (run ++ [q]) := by
  obtain ⟨last, hls, hjo⟩ := hj
  cases run with
  | nil => simp at hls
  | cons p run =>
    obtain ⟨own, hown, hi, hch, ha, hle, hend, hc⟩ := h
    obtain ⟨hl, hla, -⟩ := isChain_getLast hc hls
    obtain ⟨hs, hn, -⟩ := joins_iff.mp hjo
    obtain rfl : own = block := by
      rw [hs, hl, hown] at hb
      exact Option.some.inj hb
    have hlen : (run ++ [q]).length = run.length + 1 := by simp
    rw [cons_append]
    refine ⟨own, hown, hi, hch, ha, ?_, ?_, ?_⟩
    · dsimp only
      rw [hle, hlen]
      exact (Nat.add_one_mul (run.length + 1) TARGET_PAGE_SIZE).symm
    · rw [← Nat.add_one_mul, hn, hla] at hfits
      rw [hlen, ← Nat.add_mul, ← Nat.add_assoc, ← Nat.add_assoc]
      exact hfits
    · refine hc.append (isChain_singleton _) ?_
      rintro x hx y hy
      obtain rfl : last = x := mem_unique hls hx
      obtain rfl : q = y := by simpa using hy
      exact hjo

def Carries (s t : Outgoing) : Prop :=
  t.posted = s.posted ∧
    ∀ index chunk, 2 ^ 14 ≤ index → t.transit index chunk = s.transit index chunk

theorem Pending.pollReady (h : Pending ram s run) (hs : Sound s) (dev : Device) (n : ℕ) :
    Pending ram (pollReady dev n s) run ∧ Sound (pollReady dev n s) ∧
      Carries s (pollReady dev n s) := by
  obtain ⟨hso, hp⟩ := pollReady_keeps dev n
    (I := fun t => Sound t ∧ Polled s t) Sound.polled_complete ⟨hs, Polled.refl s⟩
  exact ⟨h.polled hp, hso, hp.posted, hp.transit⟩

theorem Pending.save_concat {call : Call} (h : Pending ram s run) (hs : Sound s)
    (hpa : ram.HasPage call.page) (hj : ∃ last ∈ run.getLast?, joins last call.page = true) :
    ∃ t, save ram s call = some t ∧ Pending ram t (run ++ [call.page]) ∧ Sound t ∧ Carries s t := by
  obtain ⟨block, hb, hfits⟩ := hpa
  have hc := h.concat hb hfits hj
  have hw : write ram call.device block.offset (call.page.number * TARGET_PAGE_SIZE)
      TARGET_PAGE_SIZE s = some { s with currentLength := s.currentLength + TARGET_PAGE_SIZE } := by
    rw [write, if_pos ((h.bufferMergable_iff hb hfits).mpr hj)]
    simp only [bind_eq_bind, bind_some]
    rw [if_neg (not_le.mpr hc.currentLength_lt)]
  obtain ⟨hp, hso, hca⟩ := hc.pollReady ⟨hs.1, hs.2⟩ call.device
    call.device.ready
  refine ⟨_, ?_, hp, hso, hca⟩
  rw [save, hb, bind_eq_bind, bind_some, savePage, hw, map_some]

theorem Pending.save_start {call : Call} (h : Pending ram s run) (hpa : ram.HasPage call.page)
    (hj : ¬ ∃ last ∈ run.getLast?, joins last call.page = true) :
    (writeFlush ram call.device s = none → save ram s call = none) ∧
      ∀ t, writeFlush ram call.device s = some t → Sound t →
        ∃ u, save ram s call = some u ∧ Pending ram u [call.page] ∧ Sound u ∧ Carries t u := by
  obtain ⟨block, hb, hfits⟩ := hpa
  have hw : write ram call.device block.offset (call.page.number * TARGET_PAGE_SIZE)
      TARGET_PAGE_SIZE s = (writeFlush ram call.device s).map fun t =>
        { t with
          currentLength := TARGET_PAGE_SIZE
          currentAddr := block.offset + call.page.number * TARGET_PAGE_SIZE
          currentIndex := call.page.index
          currentChunk := call.page.chunk } := by
    rw [write, if_neg (fun hm => hj ((h.bufferMergable_iff hb hfits).mp hm))]
    simp only [startRange, searchRamBlock_eq hb hfits, bind_eq_bind, bind_some,
      bind_assoc, Option.pure_def, map_eq_bind, Nat.zero_add]
    refine Option.bind_congr fun t _ => ?_
    exact if_neg (by decide)
  rw [save, hb, bind_eq_bind, bind_some, savePage, hw]
  constructor
  · intro hn
    rw [hn]
    rfl
  · intro t hf ht
    rw [hf, map_some, map_some]
    have hp : Pending ram { t with
        currentLength := TARGET_PAGE_SIZE
        currentAddr := block.offset + call.page.number * TARGET_PAGE_SIZE
        currentIndex := call.page.index
        currentChunk := call.page.chunk } [call.page] :=
      ⟨block, hb, rfl, rfl, rfl, by simp, by simpa using hfits, isChain_singleton _⟩
    exact ⟨_, rfl, hp.pollReady ⟨ht.1, ht.2⟩ call.device call.device.ready⟩

/-! ### The whole round -/

theorem saveRound_cons (call : Call) (calls : List Call) (dev : Device) (s : Outgoing) :
    saveRound ram (call :: calls) dev s =
      (save ram s call).bind fun t => saveRound ram calls dev t := by
  simp only [saveRound, foldlM_cons, bind_eq_bind, bind_assoc]

theorem clear_of_carries {runs : List (List Page)} (h : Carries s t) :
    Clear s.transit runs ↔ Clear t.transit runs :=
  Clear.congr h.2

theorem splitBy_start {pages : List Page} (h : ¬ ∃ last ∈ run.getLast?, joins last q = true) :
    (run ++ q :: pages).splitBy joins = run.splitBy joins ++ (q :: pages).splitBy joins :=
  splitBy_append_cons pages fun last hl =>
    Bool.eq_false_iff.mpr fun hj => h ⟨last, hl, hj⟩

theorem Pending.exists_saveRound {calls : List Call} (h : Pending ram s run) (hs : Sound s)
    (dev : Device) (hpa : ∀ call ∈ calls, ram.HasPage call.page)
    (hclear : Clear s.transit ((run ++ calls.map Call.page).splitBy joins)) :
    ∃ t writes, saveRound ram calls dev s = some t ∧ Idle t ∧ t.posted = s.posted ++ writes ∧
      List.Forall₂ (WritesRun ram) ((run ++ calls.map Call.page).splitBy joins) writes := by
  induction calls generalizing s run with
  | nil =>
    rw [map_nil, List.append_nil] at hclear ⊢
    obtain ⟨t, writes, hf, ht, hz, hp, hru, -⟩ := h.exists_writeFlush hs dev hclear
    obtain ⟨u, hd, hu, hpo, hnil⟩ := ht.drain dev
    refine ⟨u, writes, ?_, ⟨?_, hpo.currentLength.trans hz, hnil, ?_⟩, hpo.posted.trans hp, hru⟩
    · rw [saveRound, foldlM_nil, Option.pure_def, bind_some, drainCq, hf]
      exact hd
    · rw [hu.nbSent, hnil, length_nil]
    · intro index chunk hi
      by_contra hbit
      obtain ⟨w, hw, -⟩ := hu.transit index chunk hi (by simpa using hbit)
      rw [hnil] at hw
      exact not_mem_nil hw
  | cons call calls ih =>
    rw [saveRound_cons]
    have hpg := hpa call mem_cons_self
    have hrest := fun c hc => hpa c (mem_cons_of_mem _ hc)
    rw [map_cons] at hclear ⊢
    by_cases hj : ∃ last ∈ run.getLast?, joins last call.page = true
    · obtain ⟨t, hsa, ht, hso, hca⟩ := h.save_concat hs hpg hj
      rw [append_cons] at hclear ⊢
      obtain ⟨u, writes, hr, hidle, hp, hru⟩ :=
        ih ht hso hrest ((clear_of_carries hca).mp hclear)
      exact ⟨u, writes, by rw [hsa]; exact hr, hidle, hca.1 ▸ hp, hru⟩
    · rw [splitBy_start hj] at hclear ⊢
      obtain ⟨t, first, hf, ht, -, hp, hfirst, hm⟩ :=
        h.exists_writeFlush hs call.device hclear.left
      obtain ⟨u, hsa, hu, hso, hca⟩ := (h.save_start hpg hj).2 t hf ht
      obtain ⟨v, writes, hr, hidle, hp', hru⟩ :=
        ih hu hso hrest ((clear_of_carries hca).mp ((hm _).mp hclear))
      refine ⟨v, first ++ writes, by rw [hsa]; exact hr, hidle, ?_,
        rel_append hfirst hru⟩
      rw [hp', hca.1, hp, append_assoc]

theorem Pending.saveRound_eq_none {calls : List Call} (h : Pending ram s run) (hs : Sound s)
    (hp : ∀ call ∈ calls, ram.HasPage call.page)
    (hclear : ¬ Clear s.transit ((run ++ calls.map Call.page).splitBy joins)) :
    saveRound ram calls dev s = none := by
  induction calls generalizing s run with
  | nil =>
    rw [map_nil, List.append_nil] at hclear
    rw [saveRound, foldlM_nil, Option.pure_def, bind_some, drainCq,
      h.writeFlush_eq_none dev hclear]
    rfl
  | cons call calls ih =>
    rw [saveRound_cons]
    have hpa := hp call mem_cons_self
    have hrest := fun c hc => hp c (mem_cons_of_mem _ hc)
    rw [map_cons] at hclear
    by_cases hj : ∃ last ∈ run.getLast?, joins last call.page = true
    · obtain ⟨t, hsa, ht, hso, hca⟩ := h.save_concat hs hpa hj
      rw [append_cons, clear_of_carries hca] at hclear
      rw [hsa]
      exact ih ht hso hrest hclear
    · rw [splitBy_start hj] at hclear
      by_cases hfirst : Clear s.transit (run.splitBy joins)
      · obtain ⟨t, first, hf, ht, -, -, -, hm⟩ :=
          h.exists_writeFlush hs call.device hfirst
        obtain ⟨u, hsa, hu, hso, hca⟩ := (h.save_start hpa hj).2 t hf ht
        rw [hm, clear_of_carries hca] at hclear
        rw [hsa]
        exact ih hu hso hrest hclear
      · rw [(h.save_start hpa hj).1 (h.writeFlush_eq_none call.device hfirst)]
        rfl

/-! ### What the writes cover -/

theorem WritesRun.inside {w : RdmaWrite} (h : WritesRun ram run w) : w.Inside ram := by
  obtain ⟨p, rest, block, rfl, hb, hfits, hc, rfl⟩ := h
  have hl := isChain_length hc
  refine ⟨block, mem_of_getElem? hb, ?_⟩
  rw [requestFor_chunk]
  simp only [requestFor, chunkEnd, chunkStart, Page.chunk, TARGET_PAGE_SIZE, chunkSize,
    Nat.add_sub_cancel_left, and_true] at hfits hl ⊢
  omega

theorem WritesRun.holdsByte_iff {w : RdmaWrite} (h : WritesRun ram run w) (x : ℕ) :
    w.addr ≤ x ∧ x < w.addr + w.length ↔ ∃ p ∈ run, ram.HoldsByte p x := by
  obtain ⟨p, rest, block, rfl, hb, -, hc, rfl⟩ := h
  simp only [requestFor, Nat.add_sub_cancel_left, TARGET_PAGE_SIZE, LocalRam.HoldsByte]
  constructor
  · rintro ⟨hle, hlt⟩
    -- the page is found from the distance to the start of the run
    have hk : (x - (block.localHostAddr + p.number * 4096)) / 4096 < (p :: rest).length := by
      rw [length_cons]
      omega
    obtain ⟨hi, hn, -⟩ := isChain_getElem hc hk
    refine ⟨_, getElem_mem hk, block, by rw [hi, hb], ?_⟩
    rw [hn]
    omega
  · rintro ⟨q, hq, own, hown, hle, hlt⟩
    obtain ⟨k, hk, rfl⟩ := mem_iff_getElem.mp hq
    obtain ⟨hi, hn, -⟩ := isChain_getElem hc hk
    obtain rfl : block = own := by
      rw [hi, hb] at hown
      exact Option.some.inj hown
    rw [hn] at hle hlt
    rw [length_cons] at hk
    omega

theorem holdsByte_iff_of_forall₂ {runs : List (List Page)} {writes : List RdmaWrite}
    (h : List.Forall₂ (WritesRun ram) runs writes) (x : ℕ) :
    (∃ w ∈ writes, w.addr ≤ x ∧ x < w.addr + w.length) ↔ ∃ p ∈ runs.flatten, ram.HoldsByte p x := by
  induction h with
  | nil => simp
  | cons hrun _ ih =>
    rw [exists_mem_cons_iff, hrun.holdsByte_iff, ih, flatten_cons]
    simp only [mem_append, or_and_right, exists_or]

theorem inside_of_forall₂ {runs : List (List Page)} {writes : List RdmaWrite}
    (h : List.Forall₂ (WritesRun ram) runs writes) : ∀ w ∈ writes, w.Inside ram := by
  induction h with
  | nil => simp
  | cons hrun _ ih => exact forall_mem_cons.mpr ⟨hrun.inside, ih⟩

theorem Idle.sound (h : Idle s) : Sound s :=
  ⟨by rw [h.nbSent, h.outstanding, length_nil], fun index chunk hi hbit =>
    absurd (h.transit index chunk hi) (by simp [hbit])⟩

theorem not_coversPages {calls : List Call} (hidle : Idle s)
    (hp : ∀ call ∈ calls, ram.HasPage call.page)
    (hclear : ¬ Clear s.transit ((calls.map Call.page).splitBy joins)) :
    ¬ CoversPages ram calls dev s := by
  rintro ⟨t, _, hr, -⟩
  have hpe : Pending ram s [] := hidle.currentLength
  rw [hpe.saveRound_eq_none hidle.sound hp hclear] at hr
  exact absurd hr (by simp)

/-- A round of calls returns and its writes cover the saved pages, each write inside a chunk and at
its place in the block of the peer, if and only if no two runs are in one chunk of a block that has
no place in the identifier of a request. -/
theorem coversPages_iff {calls : List Call} (hidle : Idle s)
    (hpages : ∀ call ∈ calls, ram.HasPage call.page) :
    CoversPages ram calls dev s ↔ Clear s.transit ((calls.map Call.page).splitBy joins) := by
  constructor
  · intro hcovers
    by_contra hclear
    exact not_coversPages hidle hpages hclear hcovers
  · intro hclear
    have hpending : Pending ram s [] := hidle.currentLength
    obtain ⟨t, writes, hround, ht, hposted, hruns⟩ :=
      hpending.exists_saveRound hidle.sound dev hpages hclear
    refine ⟨t, writes, hround, hposted, ht, inside_of_forall₂ hruns, fun x => ?_⟩
    rw [holdsByte_iff_of_forall₂ hruns, nil_append, flatten_splitBy]
    simp only [List.mem_map, exists_exists_and_eq_and]

end

/-! ### Many blocks -/

def chunkBlock (i : ℕ) : LocalBlock where
  blockName := "ram"
  localHostAddr := (i + 1) * 2 ^ 20
  remoteHostAddr := (i + 7) * 2 ^ 20
  offset := i * 2 ^ 20
  length := 2 ^ 20
  mr := none
  remoteRkey := 0
  index := i
  srcIndex := 2 ^ 32 - 1

def chunkBlocks (n : Fin (2 ^ 15)) : LocalRam where
  blocks := (range n).map chunkBlock
  index_eq := by
    intro i block h
    obtain ⟨k, hk, rfl⟩ := map_eq_some_iff.mp (List.getElem?_map ▸ h)
    exact (List.getElem?_eq_some_iff.mp hk).2 ▸ getElem_range _
  length_pos := by simp [chunkBlock]
  length_lt := by simp [chunkBlock]
  fits := by
    simp only [List.forall_mem_map, mem_range, chunkBlock]
    omega
  disjoint := by
    rw [pairwise_map]
    refine pairwise_lt_range.imp fun h => ?_
    simp only [chunkBlock]
    omega

theorem hasPage_chunkBlocks {n : Fin (2 ^ 15)} {p : Page} (hi : p.index < n)
    (hn : p.number < 256) : (chunkBlocks n).HasPage p := by
  refine ⟨chunkBlock p.index, ?_, ?_⟩
  · simp [chunkBlocks, hi]
  · simp only [chunkBlock, TARGET_PAGE_SIZE]
    omega

def inOrder (ready : ℕ) : Device := ⟨fun _ => 0, ready⟩

instance (busy : ℕ → ℕ → Bool) (runs : List (List Page)) : Decidable (Clear busy runs) := by
  unfold Clear
  infer_instance

/-- Two pages side by side, and the first of them again. -/
theorem coversPages_repeated :
    CoversPages (chunkBlocks 1) [⟨⟨0, 0⟩, inOrder 0⟩, ⟨⟨0, 1⟩, inOrder 1⟩, ⟨⟨0, 0⟩, inOrder 0⟩]
      (inOrder 0) dataInit :=
  (coversPages_iff idle_dataInit (by
    simp only [forall_mem_cons]
    exact ⟨hasPage_chunkBlocks (by decide) (by decide), hasPage_chunkBlocks (by decide) (by decide),
      hasPage_chunkBlocks (by decide) (by decide), by simp⟩)).mpr (by decide)

/-- The second write to a chunk of block 16384 waits for ever: the completion of the first one
clears a bit of block 0. -/
theorem second_write_waits :
    ¬ CoversPages (chunkBlocks 16385) [⟨⟨16384, 0⟩, inOrder 0⟩, ⟨⟨16384, 2⟩, inOrder 0⟩]
      (inOrder 0) dataInit :=
  not_coversPages idle_dataInit (by
    simp only [forall_mem_cons]
    exact ⟨hasPage_chunkBlocks (by decide) (by decide), hasPage_chunkBlocks (by decide) (by decide),
      by simp⟩) (by decide)

end VmFt.Rdma
