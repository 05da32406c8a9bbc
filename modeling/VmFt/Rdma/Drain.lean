import Mathlib.Algebra.Ring.Int.Defs
import VmFt.Lib.Transition
import VmFt.Rdma.Merge

/-! # Draining the writes

The steps of the source between its polls. Completions are polled in any order, by
the waits for a write and by the waits for a control message alike. A drain returns
when the counter of the writes is down to zero; only then the end of the round is
announced to the destination.
-/

namespace VmFt.Rdma

open VmFt.System List Option

def MC_RDMA_WRID_SEND_CONTROL : ℕ := 2000

def MC_RDMA_WRID_RECV_CONTROL : ℕ := 4000

/-- The identifiers of the control requests: the send, and the receives for `MC_RDMA_WRID_READY`
and `MC_RDMA_WRID_DATA`. -/
def controlWrids : List ℕ :=
  [MC_RDMA_WRID_SEND_CONTROL, MC_RDMA_WRID_RECV_CONTROL, MC_RDMA_WRID_RECV_CONTROL + 1]

/-- `mc_rdma_drain_cq` was called, and it returned 0. -/
inductive Phase | running | draining | drained
  deriving DecidableEq

structure Source where
  rdma : Outgoing
  control : List ℕ
  phase : Phase

inductive Event
  /-- A page is added to the range that is not yet written. -/
  | save (blockOffset offset : ℕ)
  /-- The range is written. -/
  | flush
  | postControl (wrId : ℕ)
  /-- The completion of a write is polled, of success or of failure. -/
  | poll (w : RdmaWrite) (success : Bool)
  | pollControl (wrId : ℕ) (success : Bool)
  | drain
  | drainFails
  | drained
  /-- `MC_RDMA_CONTROL_REGISTER_FINISHED` is sent. -/
  | finish

variable (ram : LocalRam)

/-- `mc_rdma_write` without the flush before it. -/
def addPage (blockOffset offset len : ℕ) (rdma : Outgoing) : Option Outgoing :=
  (if bufferMergable ram rdma (blockOffset + offset) len then some rdma
    else if rdma.currentLength = 0 then startRange ram blockOffset offset len rdma else none).map
    fun rdma => { rdma with currentLength := rdma.currentLength + len }

def flushRange (rdma : Outgoing) : Option Outgoing := do
  let block ← ram.blocks[rdma.currentIndex.toNat]?
  let w := requestFor block rdma.currentIndex.toNat rdma.currentAddr rdma.currentLength
  guarded (rdma.currentLength ≠ 0 ∧ rdma.transit w.index w.chunk = false) (rdma.post w).sent

/-- The completion of a write is polled; one that failed changes nothing in the context. -/
def pollWrite (w : RdmaWrite) (success : Bool) (rdma : Outgoing) : Outgoing :=
  if success then rdma.complete w else { rdma with outstanding := rdma.outstanding.erase w }

def sourceStep (s : Source) : Event → Option Source
  | .save blockOffset offset =>
    if s.phase = .running then
      (addPage ram blockOffset offset TARGET_PAGE_SIZE s.rdma).map fun rdma => { s with rdma }
    else none
  | .flush =>
    if s.phase ≠ .drained then (flushRange ram s.rdma).map fun rdma => { s with rdma } else none
  | .postControl wrId => guarded (wrId ∈ controlWrids) { s with control := s.control ++ [wrId] }
  | .poll w success =>
    guarded (w ∈ s.rdma.outstanding) { s with rdma := pollWrite w success s.rdma }
  | .pollControl wrId success =>
    guarded (wrId ∈ s.control)
      { s with
        rdma := if success then s.rdma.poll wrId else s.rdma
        control := s.control.erase wrId }
  | .drain => guarded (s.phase = .running) { s with phase := .draining }
  | .drainFails => guarded (s.phase = .draining) { s with phase := .running }
  | .drained =>
    guarded (s.phase = .draining ∧ s.rdma.currentLength = 0 ∧ s.rdma.nbSent = 0)
      { s with phase := .drained }
  | .finish => guarded (s.phase = .drained) { s with phase := .running }

def source : System Source Event := ⟨sourceStep ram⟩

def startSource : Source := ⟨dataInit, [], .running⟩

/-- The block that is written has a place in the identifier, and no write fails. -/
def decodable (s : Source) : Event → Prop
  | .flush => s.rdma.currentIndex < 2 ^ 14
  | .poll _ success => success = true
  | _ => True

instance (s : Source) (e : Event) : Decidable (decodable s e) := by
  rcases e <;> unfold decodable <;> infer_instance

/-- The chunk that a write goes to. -/
def RdmaWrite.target (w : RdmaWrite) : ℕ × ℕ := (w.index, w.chunk)

/-- The counter counts the writes that are outstanding, the bits show their chunks, no two of them
are in one chunk, and there are none when a drain has returned. -/
structure Accounted (s : Source) : Prop where
  nbSent : s.rdma.nbSent = s.rdma.outstanding.length
  transit : ∀ index chunk, s.rdma.transit index chunk = true ↔
    (index, chunk) ∈ s.rdma.outstanding.map RdmaWrite.target
  distinct : (s.rdma.outstanding.map RdmaWrite.target).Nodup
  drained : s.phase = .drained → s.rdma.outstanding = []

/-! ### The writes -/

/-- The counter and the bits are those of the outstanding writes, whose identifiers can be
decoded. -/
structure Ledger (rdma : Outgoing) : Prop where
  nbSent : rdma.nbSent = rdma.outstanding.length
  transit : ∀ index chunk, rdma.transit index chunk = true ↔
    (index, chunk) ∈ rdma.outstanding.map RdmaWrite.target
  distinct : (rdma.outstanding.map RdmaWrite.target).Nodup
  decodes : ∀ w ∈ rdma.outstanding, w.index < 2 ^ 14 ∧ w.chunk < 2 ^ 34

variable {ram} {rdma next : Outgoing} {w : RdmaWrite}

theorem ledger_dataInit : Ledger dataInit :=
  ⟨rfl, by simp [dataInit], nodup_nil, by simp [dataInit]⟩

theorem Ledger.post (h : Ledger rdma) (hi : w.index < 2 ^ 14) (hc : w.chunk < 2 ^ 34)
    (hf : rdma.transit w.index w.chunk = false) : Ledger (rdma.post w).sent := by
  have hnew : w.target ∉ rdma.outstanding.map RdmaWrite.target := by
    rw [RdmaWrite.target, ← h.transit, hf]
    exact Bool.false_ne_true
  refine ⟨?_, fun index chunk => ?_, ?_, ?_⟩
  · simp [Outgoing.post, Outgoing.sent, h.nbSent]
  · simp only [Outgoing.post, Outgoing.sent, map_append, mem_append, map_singleton,
      mem_singleton, RdmaWrite.target, Prod.mk.injEq, setBit]
    by_cases hown : index = w.index ∧ chunk = w.chunk
    · simp [hown]
    · rw [if_neg hown, h.transit]
      simp only [hown, or_false]
  · simp only [Outgoing.post, Outgoing.sent, map_append, map_singleton]
    exact nodup_append.mpr ⟨h.distinct, nodup_singleton _, by
      rintro x hx y hy rfl
      exact hnew (mem_singleton.mp hy ▸ hx)⟩
  · simp only [Outgoing.post, Outgoing.sent, mem_append, mem_singleton]
    rintro v (hv | rfl)
    · exact h.decodes v hv
    · exact ⟨hi, hc⟩

theorem Ledger.mem_erase_iff (h : Ledger rdma) (hw : w ∈ rdma.outstanding) (target : ℕ × ℕ) :
    target ∈ (rdma.outstanding.erase w).map RdmaWrite.target ↔
      target ∈ rdma.outstanding.map RdmaWrite.target ∧ target ≠ w.target := by
  have hn : rdma.outstanding.Nodup := h.distinct.of_map
  simp only [List.mem_map, hn.mem_erase_iff]
  constructor
  · rintro ⟨v, ⟨hne, hv⟩, rfl⟩
    exact ⟨⟨v, hv, rfl⟩, fun heq => hne (inj_on_of_nodup_map h.distinct hv hw heq)⟩
  · rintro ⟨⟨v, hv, rfl⟩, hne⟩
    exact ⟨v, ⟨fun heq => hne (heq ▸ rfl), hv⟩, rfl⟩

theorem Ledger.complete (h : Ledger rdma) (hw : w ∈ rdma.outstanding) :
    Ledger (rdma.complete w) := by
  obtain ⟨hb, hc⟩ := wrid_decodes (h.decodes w hw).1 (h.decodes w hw).2
  rw [Outgoing.complete_eq, hb, hc]
  refine ⟨?_, fun index chunk => ?_, ?_, fun v hv => h.decodes v (mem_of_mem_erase hv)⟩
  · dsimp only
    rw [h.nbSent, length_erase_of_mem hw]
  · dsimp only [setBit]
    rw [h.mem_erase_iff hw, ← h.transit, RdmaWrite.target, ne_eq, Prod.mk.injEq]
    split_ifs with hown <;> simp [hown]
  · exact h.distinct.sublist ((erase_sublist ..).map _)

/-! ### The range -/

def RangeInBlock (ram : LocalRam) (rdma : Outgoing) : Prop :=
  rdma.currentLength ≠ 0 → ∃ block, ram.blocks[rdma.currentIndex.toNat]? = some block ∧
    rdma.currentAddr + rdma.currentLength ≤ block.offset + block.length

theorem rangeInBlock_of_mergable {offset len : ℕ} (h : bufferMergable ram rdma offset len = true) :
    RangeInBlock ram { rdma with currentLength := rdma.currentLength + len } := by
  intro _
  unfold bufferMergable at h
  split at h
  · exact absurd h Bool.false_ne_true
  · rename_i block hb
    obtain ⟨-, -, -, rfl, -, hend, -⟩ := of_decide_eq_true h
    exact ⟨block, hb, Nat.add_assoc .. ▸ hend⟩

theorem rangeInBlock_startRange {blockOffset offset len : ℕ}
    (h : startRange ram blockOffset offset len rdma = some next) :
    RangeInBlock ram { next with currentLength := next.currentLength + len } := by
  intro _
  simp only [startRange, bind_eq_bind, bind_eq_some_iff, Option.pure_def,
    Option.some.injEq] at h
  obtain ⟨⟨index, chunk⟩, hs, rfl⟩ := h
  obtain ⟨block, hb, hend⟩ := searchRamBlock_eq_some hs
  exact ⟨block, hb, (Nat.zero_add len).symm ▸ hend⟩

theorem addPage_eq_some {blockOffset offset len : ℕ}
    (h : addPage ram blockOffset offset len rdma = some next) :
    ∃ range, next = { range with currentLength := range.currentLength + len } ∧
      (bufferMergable ram rdma (blockOffset + offset) len = true ∧ range = rdma ∨
        startRange ram blockOffset offset len rdma = some range) := by
  obtain ⟨range, hr, rfl⟩ := map_eq_some_iff.mp h
  refine ⟨range, rfl, ?_⟩
  split_ifs at hr with hm
  · exact .inl ⟨hm, (Option.some.inj hr).symm⟩
  · exact .inr hr

theorem rangeInBlock_addPage {blockOffset offset len : ℕ}
    (h : addPage ram blockOffset offset len rdma = some next) : RangeInBlock ram next := by
  obtain ⟨range, rfl, ⟨hm, rfl⟩ | hs⟩ := addPage_eq_some h
  · exact rangeInBlock_of_mergable hm
  · exact rangeInBlock_startRange hs

theorem Ledger.addPage {blockOffset offset len : ℕ} (hl : Ledger rdma)
    (h : addPage ram blockOffset offset len rdma = some next) : Ledger next := by
  obtain ⟨range, rfl, ⟨-, rfl⟩ | hs⟩ := addPage_eq_some h
  · exact ⟨hl.1, hl.2, hl.3, hl.4⟩
  · obtain ⟨⟨index, chunk⟩, -, hr⟩ := bind_eq_some_iff.mp hs
    obtain rfl := Option.some.inj hr
    exact ⟨hl.1, hl.2, hl.3, hl.4⟩

theorem flushRange_eq_some (h : flushRange ram rdma = some next) :
    ∃ block, ram.blocks[rdma.currentIndex.toNat]? = some block ∧ rdma.currentLength ≠ 0 ∧
      let w := requestFor block rdma.currentIndex.toNat rdma.currentAddr rdma.currentLength
      rdma.transit w.index w.chunk = false ∧ next = (rdma.post w).sent := by
  obtain ⟨block, hb, hg⟩ := bind_eq_some_iff.mp h
  obtain ⟨⟨hl, hf⟩, rfl⟩ := guarded_eq_some.mp hg
  exact ⟨block, hb, hl, hf, rfl⟩

theorem Ledger.flushRange (hl : Ledger rdma) (hr : RangeInBlock ram rdma)
    (hi : rdma.currentIndex < 2 ^ 14) (h : flushRange ram rdma = some next) : Ledger next := by
  obtain ⟨block, hb, hle, hf, rfl⟩ := flushRange_eq_some h
  obtain ⟨own, hown, hend⟩ := hr hle
  obtain rfl : own = block := Option.some.inj (hown.symm.trans hb)
  have hlt := ram.length_lt own (mem_of_getElem? hb)
  refine hl.post ?_ ?_ hf
  · dsimp only [requestFor]
    omega
  · dsimp only [requestFor, chunkIndex, chunkSize]
    omega

/-! ### The steps -/

structure Inv (ram : LocalRam) (s : Source) : Prop where
  ledger : Ledger s.rdma
  range : RangeInBlock ram s.rdma
  control : ∀ wrId ∈ s.control, wrId ∈ controlWrids
  drained : s.phase = .drained → s.rdma.outstanding = []

variable {s t : Source}

theorem inv_startSource : Inv ram startSource :=
  ⟨ledger_dataInit, fun h => absurd rfl h, by simp [startSource], fun _ => rfl⟩

theorem Inv.accounted (h : Inv ram s) : Accounted s :=
  ⟨h.ledger.nbSent, h.ledger.transit, h.ledger.distinct, h.drained⟩

theorem poll_control {wrId : ℕ} (h : wrId ∈ controlWrids) : rdma.poll wrId = rdma := by
  have hne : ∀ id ∈ controlWrids, id % 2 ^ 16 ≠ MC_RDMA_WRID_RDMA_WRITE := by decide
  exact if_neg (hne wrId h)

theorem rangeInBlock_complete (h : RangeInBlock ram rdma) (w : RdmaWrite) :
    RangeInBlock ram (rdma.complete w) := by
  rw [Outgoing.complete_eq]
  exact h

theorem rangeInBlock_flushRange (h : flushRange ram rdma = some next) : RangeInBlock ram next := by
  obtain ⟨block, -, -, -, rfl⟩ := flushRange_eq_some h
  exact fun hne => absurd rfl hne

theorem Inv.step {e : Event} (h : Inv ram s) (hok : decodable s e)
    (hs : (source ram).step s e = some t) : Inv ram t := by
  simp only [source, sourceStep] at hs
  cases e with
  | save blockOffset offset =>
    rw [ite_none_right_eq_some] at hs
    obtain ⟨hp, hs⟩ := hs
    obtain ⟨next, hadd, rfl⟩ := map_eq_some_iff.mp hs
    exact ⟨h.ledger.addPage hadd, rangeInBlock_addPage hadd, h.control,
      fun hd => absurd (hp.symm.trans hd) (by decide)⟩
  | flush =>
    rw [ite_none_right_eq_some] at hs
    obtain ⟨hp, hs⟩ := hs
    obtain ⟨next, hf, rfl⟩ := map_eq_some_iff.mp hs
    exact ⟨h.ledger.flushRange h.range hok hf, rangeInBlock_flushRange hf, h.control,
      fun hd => absurd hd hp⟩
  | postControl wrId =>
    obtain ⟨hid, rfl⟩ := guarded_eq_some.mp hs
    exact ⟨h.ledger, h.range, forall_mem_append.mpr ⟨h.control, by simpa using hid⟩, h.drained⟩
  | poll w success =>
    obtain ⟨hw, rfl⟩ := guarded_eq_some.mp hs
    obtain rfl : success = true := hok
    refine ⟨h.ledger.complete hw, rangeInBlock_complete h.range w, h.control, fun hd => ?_⟩
    rw [h.drained hd] at hw
    exact absurd hw not_mem_nil
  | pollControl wrId success =>
    obtain ⟨hid, rfl⟩ := guarded_eq_some.mp hs
    have hsa : (if success then s.rdma.poll wrId else s.rdma) = s.rdma := by
      rw [poll_control (h.control wrId hid), ite_self]
    rw [hsa]
    exact ⟨h.ledger, h.range, fun id hmem => h.control id (mem_of_mem_erase hmem), h.drained⟩
  | drain | drainFails | finish =>
    obtain ⟨-, rfl⟩ := guarded_eq_some.mp hs
    exact { h with drained := nofun }
  | drained =>
    obtain ⟨⟨-, -, hz⟩, rfl⟩ := guarded_eq_some.mp hs
    exact { h with drained := fun _ =>
      length_eq_zero_iff.mp (h.ledger.nbSent.symm.trans hz) }

theorem inv_of_run (h : (source ram).Run decodable startSource t) : Inv ram t :=
  h.invariant inv_startSource fun _ _ _ => Inv.step

theorem Accounted.finish (h : Accounted s) (hs : (source ram).step s .finish = some t) :
    s.rdma.outstanding = [] :=
  h.drained (guarded_eq_some.mp hs).1

/-- As long as only blocks are written that have a place in the identifier and no write fails,
every write is accounted for, and none is outstanding when the end of the round is announced. -/
theorem writes_accounted (h : (source ram).Run decodable startSource s) :
    Accounted s ∧ ∀ t, (source ram).step s .finish = some t → s.rdma.outstanding = [] :=
  have haccounted := (inv_of_run h).accounted
  ⟨haccounted, fun _ => haccounted.finish⟩

/-- A page is written, its completion is polled, and the drain returns. -/
theorem one_write_accounted :
    ∃ s, (source (chunkBlocks 1)).Run decodable startSource s ∧ s.phase = .drained ∧
      s.rdma.posted.length = 1 ∧ Accounted s := by
  obtain ⟨s, hrun, hphase, hposted⟩ := exists_run_of_exec (M := source (chunkBlocks 1))
    (s := startSource) decodable (p := fun s => s.phase = .drained ∧ s.rdma.posted.length = 1)
    [.save 0 0, .drain, .flush,
      .poll (requestFor (chunkBlock 0) 0 0 TARGET_PAGE_SIZE) true, .drained] (by decide +kernel)
  exact ⟨s, hrun, hphase, hposted, (writes_accounted hrun).1⟩

/-- The completion of a write to block 16384 clears a bit of block 0. The drain returns and the
bit of the chunk stays set. -/
theorem bit_stays_set :
    ∃ s, (source (chunkBlocks 16385)).Run anyStep startSource s ∧ s.phase = .drained ∧
      ¬ Accounted s := by
  obtain ⟨s, hrun, hphase, hbit, hnone⟩ := exists_run_of_exec (M := source (chunkBlocks 16385))
    (s := startSource) anyStep
    (p := fun s => s.phase = .drained ∧ s.rdma.transit 16384 0 = true ∧ s.rdma.outstanding = [])
    [.save (16384 * 2 ^ 20) 0, .drain, .flush,
      .poll (requestFor (chunkBlock 16384) 16384 (16384 * 2 ^ 20) TARGET_PAGE_SIZE) true, .drained]
    (by decide +kernel)
  refine ⟨s, hrun, hphase, fun h => ?_⟩
  have hmem := (h.transit 16384 0).mp hbit
  rw [hnone] at hmem
  exact not_mem_nil hmem

/-! ### The functions as runs -/

section

variable {dev : Device} {control : List ℕ} {phase : Phase}

def Moves (ram : LocalRam) (control : List ℕ) (phase : Phase) (rdma next : Outgoing) : Prop :=
  (source ram).Run decodable ⟨rdma, control, phase⟩ ⟨next, control, phase⟩

theorem Moves.trans {last : Outgoing} (h : Moves ram control phase rdma next)
    (h' : Moves ram control phase next last) : Moves ram control phase rdma last :=
  Run.trans h h'

theorem run_of_step {e : Event} (hok : decodable s e) (hs : sourceStep ram s e = some t) :
    (source ram).Run decodable s t :=
  Run.cons e hok hs Run.refl

theorem moves_complete (hw : w ∈ rdma.outstanding) :
    Moves ram control phase rdma (rdma.complete w) :=
  run_of_step (e := .poll w true) rfl (if_pos hw)

theorem moves_pollWhile {c : Outgoing → Bool}
    (h : pollWhile dev c rdma.outstanding.length rdma = some next) :
    Moves ram control phase rdma next ∧ Polled rdma next ∧ c next = false := by
  obtain ⟨t, ht, ⟨hm, hp⟩, hc⟩ | ⟨hn, -⟩ := pollWhile_cases dev c
    (I := fun t => Moves ram control phase rdma t ∧ Polled rdma t)
    (fun u w hw hu => ⟨hu.1.trans (moves_complete hw), hu.2.complete w⟩)
    ⟨Run.refl, Polled.refl rdma⟩ (le_refl _)
  · obtain rfl := Option.some.inj (ht.symm.trans h)
    exact ⟨hm, hp, hc⟩
  · rw [hn] at h
    exact absurd h (by simp)

theorem moves_writeFlush (hc : ram.blocks.length ≤ 2 ^ 14) (hph : phase ≠ .drained)
    (h : writeFlush ram dev rdma = some next) : Moves ram control phase rdma next := by
  unfold writeFlush at h
  split_ifs at h with hz
  · obtain rfl := Option.some.inj h
    exact Run.refl
  · obtain ⟨posted, hw, rfl⟩ := map_eq_some_iff.mp h
    obtain ⟨block, hb, hwa⟩ := bind_eq_some_iff.mp hw
    obtain ⟨idle, hpo, hps⟩ := bind_eq_some_iff.mp hwa
    obtain rfl := Option.some.inj hps
    obtain ⟨hm, hp, hfr⟩ := moves_pollWhile hpo
    have hlt := (List.getElem?_eq_some_iff.mp hb).1
    rw [← hp.currentIndex] at hb hlt hfr ⊢
    rw [← hp.currentAddr, ← hp.currentLength] at hfr ⊢
    refine hm.trans (run_of_step (e := .flush) ?_ ?_)
    · dsimp only [decodable]
      omega
    · have hf : flushRange ram idle = some (idle.post (requestFor block
          idle.currentIndex.toNat idle.currentAddr idle.currentLength)).sent := by
        rw [flushRange, hb]
        exact if_pos ⟨hp.currentLength ▸ hz, hfr⟩
      rw [sourceStep, if_pos hph, hf]
      rfl

theorem currentLength_writeFlush (h : writeFlush ram dev rdma = some next) :
    next.currentLength = 0 := by
  unfold writeFlush at h
  split_ifs at h with hz
  · obtain rfl := Option.some.inj h
    exact hz
  · obtain ⟨posted, -, rfl⟩ := map_eq_some_iff.mp h
    rfl

theorem write_eq_some {blockOffset offset len : ℕ}
    (h : write ram dev blockOffset offset len rdma = some next) :
    ∃ flushed added, (flushed = rdma ∨ writeFlush ram dev rdma = some flushed) ∧
      addPage ram blockOffset offset len flushed = some added ∧
      (next = added ∨ writeFlush ram dev added = some next) := by
  have hl : ∀ added, (if MC_RDMA_MERGE_MAX ≤ added.currentLength then writeFlush ram dev added
      else some added) = some next → next = added ∨ writeFlush ram dev added = some next := by
    intro added ha
    split_ifs at ha
    · exact .inr ha
    · exact .inl (Option.some.inj ha).symm
  unfold write at h
  by_cases hm : bufferMergable ram rdma (blockOffset + offset) len = true
  · rw [if_pos hm] at h
    refine ⟨rdma, _, .inl rfl, ?_, hl _ h⟩
    rw [addPage, if_pos hm]
    rfl
  · rw [if_neg hm] at h
    obtain ⟨range, hr, hn⟩ := bind_eq_some_iff.mp h
    obtain ⟨flushed, hf, hs⟩ := bind_eq_some_iff.mp hr
    have hz := currentLength_writeFlush hf
    refine ⟨flushed, _, .inr hf, ?_, hl _ hn⟩
    rw [addPage, if_neg (by simp [bufferMergable_eq_false hz]), if_pos hz, hs]
    rfl

theorem moves_savePage {blockOffset offset : ℕ} (hc : ram.blocks.length ≤ 2 ^ 14)
    (h : savePage ram dev blockOffset offset TARGET_PAGE_SIZE rdma = some next) :
    Moves ram control .running rdma next := by
  obtain ⟨written, hwr, rfl⟩ := map_eq_some_iff.mp h
  obtain ⟨flushed, added, hfl, hadd, hl⟩ := write_eq_some hwr
  have hf : Moves ram control .running rdma flushed := by
    obtain rfl | hfl := hfl
    · exact Run.refl
    · exact moves_writeFlush hc (by decide) hfl
  have ha : Moves ram control .running flushed added :=
    run_of_step (e := .save blockOffset offset) trivial (by
      rw [sourceStep, if_pos rfl, hadd]
      rfl)
  have hwri : Moves ram control .running added written := by
    obtain rfl | hfl := hl
    · exact Run.refl
    · exact moves_writeFlush hc (by decide) hfl
  exact pollReady_keeps dev dev.ready (I := Moves ram control .running rdma)
    (fun _ _ hw hm => hm.trans (moves_complete hw))
    ((hf.trans ha).trans hwri)

theorem run_drainCq (hc : ram.blocks.length ≤ 2 ^ 14) (h : drainCq ram dev rdma = some next) :
    (source ram).Run decodable ⟨rdma, control, .running⟩ ⟨next, control, .drained⟩ := by
  obtain ⟨flushed, hfl, hw⟩ := bind_eq_some_iff.mp h
  obtain ⟨hm, hp, hz⟩ : Moves ram control .draining flushed next ∧ _ ∧ _ :=
    moves_pollWhile hw
  have hl := hp.currentLength.trans (currentLength_writeFlush hfl)
  have hs : next.nbSent = 0 := by simpa using hz
  have hdr : (source ram).Run decodable ⟨next, control, .draining⟩
      ⟨next, control, .drained⟩ :=
    run_of_step (e := .drained) trivial (if_pos ⟨rfl, hl, hs⟩)
  have hd : (source ram).Run decodable ⟨rdma, control, .running⟩ ⟨rdma, control, .draining⟩ :=
    run_of_step (e := .drain) trivial rfl
  have hf : Moves ram control .draining rdma flushed :=
    moves_writeFlush hc (by decide) hfl
  exact hd.trans (Run.trans hf (Run.trans hm hdr))

theorem run_saveRound {calls : List Call} (hc : ram.blocks.length ≤ 2 ^ 14)
    (h : saveRound ram calls dev rdma = some next) :
    (source ram).Run decodable ⟨rdma, control, .running⟩ ⟨next, control, .drained⟩ := by
  induction calls generalizing rdma with
  | nil => exact run_drainCq hc h
  | cons call calls ih =>
    rw [saveRound_cons] at h
    obtain ⟨saved, hs, hrest⟩ := bind_eq_some_iff.mp h
    obtain ⟨block, -, hp⟩ := bind_eq_some_iff.mp hs
    exact Run.trans (moves_savePage hc hp) (ih hrest)

end

/-- When a round ends, after whatever rounds and polls, no write is outstanding and no chunk is
marked. -/
theorem saveRound_drained {calls : List Call} {dev : Device} {control : List ℕ}
    (hr : (source ram).Run decodable startSource ⟨rdma, control, .running⟩)
    (hc : ram.blocks.length ≤ 2 ^ 14) (h : saveRound ram calls dev rdma = some next) :
    next.outstanding = [] ∧ next.nbSent = 0 ∧ ∀ index chunk, next.transit index chunk = false := by
  have hinv := inv_of_run (hr.trans (run_saveRound hc h))
  have ho : next.outstanding = [] := hinv.drained rfl
  refine ⟨ho, hinv.ledger.nbSent.trans (by simp [ho]), fun index chunk => ?_⟩
  rw [← Bool.not_eq_true, hinv.ledger.transit, ho]
  exact not_mem_nil

theorem saveRound_drained_page :
    ∃ next, saveRound (chunkBlocks 1) [⟨⟨0, 0⟩, inOrder 0⟩] (inOrder 0) dataInit = some next ∧
      next.outstanding = [] := by
  have h : saveRound (chunkBlocks 1) [⟨⟨0, 0⟩, inOrder 0⟩] (inOrder 0) dataInit = some _ := rfl
  exact ⟨_, h, (saveRound_drained Run.refl (by decide) h).1⟩

end VmFt.Rdma
