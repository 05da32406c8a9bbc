import Mathlib.Algebra.Ring.Int.Defs
import VmFt.Net.InputRing

/-! # The length of a batch

A batch holds every packet that has come since the last one. The proxy takes at
most `IO_BUF_SIZE` bytes at once, and its argument for the length is an `int`.
-/

namespace VmFt.Net

open VmFt.System VmFt.Dare.Ring List Function

/-- The argument of `proxy_on_mirror` for a batch. -/
def mirrorLength (iovs : List Packet) : ℤ := ((encodeBatch iovs).length : ℤ).bmod (2 ^ 32)

/-- What `leader_handle_submit_req` asserts, with the sign that it does not look at. -/
def Submittable (iovs : List Packet) : Prop :=
  0 ≤ mirrorLength iovs ∧ mirrorLength iovs ≤ IO_BUF_SIZE

/-- The packets in the slots from `cur` on. -/
def window (s : InputRing) (cur count : ℕ) : List Packet :=
  (range' cur count).map s.iovList

def waiting (s : InputRing) : List Packet :=
  window s s.consensusHead (s.bufferHead - s.consensusHead)

/-- The table of lengths and the packets take at most `IO_BUF_SIZE` bytes, up to multiples of
2^32. -/
def SmallBatch (iovs : List Packet) : Prop :=
  ((iovs.length + 1) * 8 + (iovs.map length).sum) % 2 ^ 32 ≤ IO_BUF_SIZE

instance (iovs : List Packet) : Decidable (SmallBatch iovs) := by
  unfold SmallBatch
  infer_instance

def NoWrap (len : ℕ) (s : InputRing) : RingEvent → Prop
  | .receiveIov _ => s.bufferHead + 1 < len
  | _ => True

def SmallRounds (len : ℕ) (s : InputRing) : RingEvent → Prop
  | .receiveIov _ => s.bufferHead + 1 < len
  | .saveHeads => hasWaiting s = true → SmallBatch (waiting s)
  | _ => True

instance (len : ℕ) (s : InputRing) (e : RingEvent) : Decidable (NoWrap len s e) := by
  rcases e <;> unfold NoWrap <;> infer_instance

instance (len : ℕ) (s : InputRing) (e : RingEvent) : Decidable (SmallRounds len s e) := by
  rcases e <;> unfold SmallRounds <;> infer_instance

theorem bmod_mem_iff (n : ℕ) :
    (0 ≤ (n : ℤ).bmod (2 ^ 32) ∧ (n : ℤ).bmod (2 ^ 32) ≤ (IO_BUF_SIZE : ℤ)) ↔
      n % 2 ^ 32 ≤ IO_BUF_SIZE := by
  unfold Int.bmod IO_BUF_SIZE
  dsimp only
  split <;> omega

theorem submittable_iff (iovs : List Packet) : Submittable iovs ↔ SmallBatch iovs := by
  have hlen : (encodeBatch iovs).length = (iovs.length + 1) * 8 + (iovs.map length).sum := by
    rw [length_encodeBatch, List.length_flatten]
  refine (bmod_mem_iff (encodeBatch iovs).length).trans ?_
  rw [hlen]
  exact Iff.rfl

/-! ### Rounds without a wrap -/

/-- The round of the thread lies between the cursors, and what it has read is in its slots. -/
def RoundSlots (s : InputRing) : Thread → Prop
  | .idle => True
  | .reading cur count iovs => cur = s.consensusHead ∧ cur + count ≤ s.bufferHead ∧
      iovs.length ≤ count ∧ iovs = window s cur iovs.length
  | .mirroring count _ | .mirrored count => s.consensusHead + count ≤ s.bufferHead
  | .crashed => False

/-- The buffer head is ahead of the mark and has not wrapped around. -/
structure Straight (len : ℕ) (s : InputRing) : Prop where
  order : s.consensusHead ≤ s.bufferHead
  inRing : s.bufferHead < len
  bufferWrap : s.bufferWrap = false
  round : RoundSlots s s.thread

/-- The batch that the thread puts together. -/
def InputRing.pending (s : InputRing) : List (List Packet) :=
  match s.thread with
  | .reading cur count _ => [window s cur count]
  | _ => []

def InputRing.rounds (s : InputRing) : List (List Packet) := s.batches ++ s.pending

def begun (s : InputRing) : RingEvent → List (List Packet)
  | .saveHeads => if hasWaiting s then [waiting s] else []
  | _ => []

variable {len : ℕ} {s t : InputRing} {e : RingEvent}

@[simp] theorem length_window (s : InputRing) (cur count : ℕ) :
    (window s cur count).length = count := by
  simp [window]

theorem window_succ (s : InputRing) (cur count : ℕ) :
    window s cur (count + 1) = window s cur count ++ [s.iovList (cur + count)] := by
  simp [window, range'_concat]

theorem window_receiveIov {iov : List Packet} {cur count : ℕ} (h : cur + count ≤ s.bufferHead) :
    window (receiveIov len iov s) cur count = window s cur count := by
  refine map_congr_left fun k hk => ?_
  have hlt := (mem_range'_1.mp hk).2
  exact update_of_ne (by omega) ..

theorem exists_rhandler_eq (len taken : ℕ) (s : InputRing) :
    ∃ tail wrap delivered, rhandler len taken s =
      { s with bufferTail := tail, consensusWrap := wrap, delivered := delivered } := by
  induction taken generalizing s with
  | zero => exact ⟨_, _, _, rfl⟩
  | succ taken ih =>
    rw [rhandler]
    split
    · obtain ⟨tail, wrap, delivered, heq⟩ := ih (sendToGuest len s)
      exact ⟨tail, wrap, delivered, heq⟩
    · exact ⟨_, _, _, rfl⟩

theorem Straight.receiveIov {iov : List Packet} (h : Straight len s)
    (hro : s.bufferHead + 1 < len) :
    Straight len (receiveIov len iov s) ∧ (receiveIov len iov s).rounds = s.rounds := by
  have hr := h.round
  have hh : (Net.receiveIov len iov s).bufferHead = s.bufferHead + 1 :=
    if_neg (by simpa using hro)
  have hw : (Net.receiveIov len iov s).bufferWrap = false := by
    simp [Net.receiveIov, h.bufferWrap, hro]
  have ht : (Net.receiveIov len iov s).thread = s.thread := rfl
  refine ⟨⟨?_, ?_, hw, ?_⟩, ?_⟩
  · rw [hh]
    exact Nat.le_succ_of_le h.order
  · rwa [hh]
  · rw [ht]
    cases hs : s.thread with
    | idle => trivial
    | reading cur count iovs =>
      rw [hs] at hr
      obtain ⟨hcur, hle, hlen, hi⟩ := hr
      refine ⟨hcur, by rw [hh]; omega, hlen, ?_⟩
      rw [window_receiveIov (by omega)]
      exact hi
    | mirroring count iovs | mirrored count =>
      rw [hs] at hr
      change s.consensusHead + count ≤ _
      rw [hh]
      exact Nat.le_succ_of_le hr
    | crashed =>
      rw [hs] at hr
      exact hr
  · unfold InputRing.rounds InputRing.pending
    rw [ht]
    cases hs : s.thread with
    | reading cur count iovs =>
      rw [hs] at hr
      dsimp only
      rw [window_receiveIov hr.2.1]
      rfl
    | idle | mirroring | mirrored | crashed => rfl

theorem Straight.saveHeads (h : Straight len s) (hidle : s.thread = .idle) :
    Straight len (saveHeads true s) ∧
      (saveHeads true s).rounds = s.rounds ++ begun s .saveHeads := by
  unfold Net.saveHeads begun
  by_cases hw : hasWaiting s = true
  · rw [if_pos hw, if_pos rfl, if_neg (Nat.not_lt.mpr h.order), if_pos hw]
    have ho := h.order
    refine ⟨⟨h.order, h.inRing, h.bufferWrap, ?_⟩, ?_⟩
    · refine ⟨rfl, ?_, Nat.zero_le _, rfl⟩
      change s.consensusHead + (s.bufferHead - s.consensusHead) ≤ s.bufferHead
      omega
    · simp only [InputRing.rounds, InputRing.pending, hidle, List.append_nil]
      rfl
  · rw [if_neg hw, if_neg hw, List.append_nil]
    exact ⟨h, rfl⟩

theorem Straight.step (h : Straight len s) (hok : NoWrap len s e)
    (hst : (inputRing len true).step s e = some t) :
    Straight len t ∧ t.rounds = s.rounds ++ begun s e := by
  have hr := h.round
  cases e with
  | receiveIov iov =>
    cases hst
    simpa [begun] using h.receiveIov hok
  | saveHeads =>
    obtain ⟨hidle, rfl⟩ := guarded_eq_some.mp hst
    exact h.saveHeads hidle
  | readSlot =>
    simp only [inputRing, ringStep] at hst
    split at hst
    · rename_i cur count iovs hs
      obtain ⟨hlt, rfl⟩ := guarded_eq_some.mp hst
      rw [hs] at hr
      obtain ⟨hcur, hle, -, hio⟩ := hr
      refine ⟨⟨h.order, h.inRing, h.bufferWrap, hcur, hle, ?_, ?_⟩, ?_⟩
      · rw [length_append, length_singleton]
        exact hlt
      · rw [length_append, length_singleton, window_succ]
        nth_rewrite 1 [hio]
        rfl
      · simp only [InputRing.rounds, InputRing.pending, hs, begun, List.append_nil]
        rfl
    · cases hst
  | proxyOnMirror =>
    simp only [inputRing, ringStep] at hst
    split at hst
    · rename_i cur count iovs hs
      obtain ⟨hlen, rfl⟩ := guarded_eq_some.mp hst
      rw [hs] at hr
      obtain ⟨hcur, hle, -, hio⟩ := hr
      refine ⟨⟨h.order, h.inRing, h.bufferWrap, ?_⟩, ?_⟩
      · exact hcur ▸ hle
      · rw [hlen] at hio
        simp [InputRing.rounds, InputRing.pending, hs, begun, ← hio]
    · cases hst
  | mirrorReturns =>
    simp only [inputRing, ringStep] at hst
    split at hst
    · rename_i count iovs hs
      cases hst
      rw [hs] at hr
      exact ⟨⟨h.order, h.inRing, h.bufferWrap, hr⟩,
        by simp [InputRing.rounds, InputRing.pending, hs, begun]⟩
    · cases hst
  | advanceMark =>
    simp only [inputRing, ringStep] at hst
    split at hst
    · rename_i count hs
      cases hst
      rw [hs] at hr
      change s.consensusHead + count ≤ s.bufferHead at hr
      have hi := h.inRing
      have hw : ¬ len ≤ s.consensusHead + count := by omega
      refine ⟨⟨?_, h.inRing, ?_, trivial⟩, ?_⟩
      · simpa [Net.advanceMark, hw] using hr
      · simp [Net.advanceMark, hw, h.bufferWrap]
      · simp [InputRing.rounds, InputRing.pending, Net.advanceMark, hs, begun]
    · cases hst
  | rhandler taken =>
    cases hst
    obtain ⟨tail, wrap, delivered, heq⟩ := exists_rhandler_eq len taken s
    rw [heq]
    exact ⟨⟨h.order, h.inRing, h.bufferWrap, hr⟩, (List.append_nil _).symm⟩

/-! ### The limit -/

theorem smallRounds_iff :
    SmallRounds len s e ↔ NoWrap len s e ∧ ∀ batch ∈ begun s e, SmallBatch batch := by
  cases e with
  | saveHeads =>
    by_cases hw : hasWaiting s = true <;> simp [SmallRounds, NoWrap, begun, hw]
  | receiveIov | readSlot | proxyOnMirror | mirrorReturns | advanceMark | rhandler =>
    simp [SmallRounds, NoWrap, begun]

structure Small (len : ℕ) (s : InputRing) : Prop extends Straight len s where
  small : ∀ batch ∈ s.rounds, SmallBatch batch

structure Large (len : ℕ) (s : InputRing) : Prop extends Straight len s where
  large : ∃ batch ∈ s.rounds, ¬ SmallBatch batch

theorem Small.step (h : Small len s) (hok : SmallRounds len s e)
    (hst : (inputRing len true).step s e = some t) : Small len t := by
  obtain ⟨hn, hbe⟩ := smallRounds_iff.mp hok
  obtain ⟨hs, hr⟩ := h.toStraight.step hn hst
  refine ⟨hs, fun batch hb => ?_⟩
  rw [hr] at hb
  rcases mem_append.mp hb with hold | hnew
  · exact h.small batch hold
  · exact hbe batch hnew

theorem Small.large (h : Small len s) (hn : NoWrap len s e) (hok : ¬ SmallRounds len s e)
    (hst : (inputRing len true).step s e = some t) : Large len t := by
  obtain ⟨hs, hr⟩ := h.toStraight.step hn hst
  rw [smallRounds_iff, not_and] at hok
  obtain ⟨batch, hb, hl⟩ : ∃ batch ∈ begun s e, ¬ SmallBatch batch := by
    simpa using hok hn
  exact ⟨hs, batch, hr ▸ mem_append_right _ hb, hl⟩

theorem Large.step (h : Large len s) (hok : NoWrap len s e)
    (hst : (inputRing len true).step s e = some t) : Large len t := by
  obtain ⟨hs, hr⟩ := h.toStraight.step hok hst
  obtain ⟨batch, hb, hl⟩ := h.large
  exact ⟨hs, batch, hr ▸ mem_append_left _ hb, hl⟩

/-- Without a wrap every batch can be submitted exactly if every round begins with few enough bytes
waiting. -/
theorem submittable_batches_iff {es : List RingEvent} (hstart : Straight len s)
    (hnone : s.rounds = []) (hexec : (inputRing len true).exec (NoWrap len) s es = some t)
    (hdone : t.pending = []) : (∀ batch ∈ t.batches, Submittable batch) ↔
      (inputRing len true).exec (SmallRounds len) s es = some t := by
  have hsmall : Small len s := ⟨hstart, by simp [hnone]⟩
  have hrounds : t.rounds = t.batches := by rw [InputRing.rounds, hdone, List.append_nil]
  constructor
  · intro hfits
    refine (exec_or_of_breach (I := Small len) (D := Large len) hexec hsmall
      (fun _ _ _ ha hok hstep => ha.step hok hstep)
      (fun _ _ _ ha hnoWrap hok hstep => ha.large hnoWrap hok hstep)
      (fun _ _ _ ha hok hstep => ha.step hok hstep)).resolve_right fun hlarge => ?_
    obtain ⟨batch, hbatch, hlarge⟩ := hlarge.large
    exact hlarge ((submittable_iff batch).mp (hfits batch (hrounds ▸ hbatch)))
  · intro hsmallRounds batch hbatch
    have ht : Small len t := (exec_run hsmallRounds).invariant hsmall
      fun _ _ _ ha hok hstep => ha.step hok hstep
    exact (submittable_iff batch).mpr (ht.small batch (hrounds ▸ hbatch))

theorem Straight.init (hlen : 0 < len) : Straight len .init :=
  ⟨Nat.le_refl _, hlen, rfl, trivial⟩

def twoPackets : List RingEvent :=
  [.receiveIov [[1, 2]], .receiveIov [[3]], .saveHeads, .readSlot, .readSlot, .proxyOnMirror]

theorem twoPackets_submittable : ∃ t, (inputRing 4 true).exec (NoWrap 4) .init twoPackets = some t ∧
      t.batches = [[[1, 2], [3]]] ∧ ∀ batch ∈ t.batches, Submittable batch := by
  have hstart : Straight 4 .init := .init (by decide)
  exact ⟨_, rfl, rfl, (@submittable_batches_iff 4 _ _ twoPackets hstart rfl rfl rfl).mpr rfl⟩

/-! ### Every batch is submitted -/

theorem waiting_receiveIov {iov : List Packet} (h : Straight len s) (hr : s.bufferHead + 1 < len) :
    waiting (receiveIov len iov s) = waiting s ++ [iov.headD []] := by
  have hh : (receiveIov len iov s).bufferHead = s.bufferHead + 1 :=
    if_neg (by simpa using hr)
  have ho := h.order
  have hc : s.bufferHead + 1 - s.consensusHead = s.bufferHead - s.consensusHead + 1 := by omega
  unfold waiting
  rw [hh, show (receiveIov len iov s).consensusHead = s.consensusHead from rfl, hc,
    window_succ, window_receiveIov (by omega), Nat.add_sub_cancel' ho]
  congr 2
  exact update_self ..

theorem exists_run_receive (ps : List Packet) (h : Straight len s)
    (hr : s.bufferHead + ps.length < len) :
    ∃ t, (inputRing len true).Run (NoWrap len) s t ∧ Straight len t ∧ t.thread = s.thread ∧
      t.batches = s.batches ∧ waiting t = waiting s ++ ps := by
  induction ps generalizing s with
  | nil => exact ⟨s, Run.refl, h, rfl, rfl, by simp⟩
  | cons p ps ih =>
    rw [length_cons] at hr
    have hone : s.bufferHead + 1 < len := by omega
    have hh : (receiveIov len [p] s).bufferHead = s.bufferHead + 1 :=
      if_neg (by simpa using hone)
    obtain ⟨t, hrun, ht, hth, hb, hw⟩ :=
      ih (s := receiveIov len [p] s) (h.receiveIov hone).1 (by rw [hh]; omega)
    refine ⟨t, Run.cons (.receiveIov [p]) hone rfl hrun, ht, hth, hb, ?_⟩
    rw [hw, waiting_receiveIov h hone]
    simp

theorem exists_run_read {cur count : ℕ} {iovs : List Packet} (len n : ℕ)
    (hs : s.thread = .reading cur count iovs) (hn : iovs.length + n = count) :
    ∃ iovs', (inputRing len true).Run (NoWrap len) s { s with thread := .reading cur count iovs' } ∧
      iovs'.length = count := by
  induction n generalizing s iovs with
  | zero => exact ⟨iovs, by rw [← hs]; exact Run.refl, hn⟩
  | succ n ih =>
    let next : InputRing :=
      { s with thread := .reading cur count (iovs ++ [s.iovList (cur + iovs.length)]) }
    have hst : (inputRing len true).step s .readSlot = some next := by
      simp only [inputRing, ringStep, hs]
      exact guarded_eq_some.mpr ⟨by omega, rfl⟩
    obtain ⟨iovs', hrun, hl⟩ := ih (s := next) rfl (by simp; omega)
    exact ⟨iovs', Run.cons .readSlot trivial hst hrun, hl⟩

theorem exists_run_round (ps : List Packet) (h : Straight len s) (hidle : s.thread = .idle)
    (hempty : waiting s = []) (hps : ps ≠ []) (hro : s.bufferHead + ps.length < len) :
    ∃ t, (inputRing len true).Run (NoWrap len) s t ∧ t.batches = s.batches ++ [ps] := by
  obtain ⟨u, hr, hu, ht, hb, hw⟩ := exists_run_receive ps h hro
  rw [hempty, nil_append] at hw
  rw [hidle] at ht
  have hc : u.bufferHead - u.consensusHead = ps.length := by
    rw [← hw, waiting, length_window]
  have hpos : 0 < ps.length := length_pos_iff.mpr hps
  have hhas : hasWaiting u = true := by
    rw [hasWaiting, Bool.or_eq_true, decide_eq_true_iff]
    omega
  -- the round begins
  let reading : InputRing := { u with thread := .reading u.consensusHead ps.length [] }
  have hsa : (inputRing len true).step u .saveHeads = some reading := by
    refine guarded_eq_some.mpr ⟨ht, ?_⟩
    rw [saveHeads, if_pos hhas, if_pos rfl, if_neg (Nat.not_lt.mpr hu.order), hc]
  obtain ⟨iovs, hre, hl⟩ :=
    exists_run_read (s := reading) len ps.length rfl (Nat.zero_add _)
  have hrun : (inputRing len true).Run (NoWrap len) u
      { reading with thread := .reading u.consensusHead ps.length iovs } :=
    Run.cons .saveHeads trivial hsa hre
  have hs : iovs = ps := by
    have hst := hrun.invariant hu fun _ _ _ ha hok hste => (ha.step hok hste).1
    obtain ⟨-, -, -, hi⟩ := hst.round
    rw [hl] at hi
    rw [waiting, hc] at hw
    exact hi.trans hw
  refine ⟨_, hr.trans (hrun.trans (Run.cons .proxyOnMirror trivial
    (guarded_eq_some.mpr ⟨hl, rfl⟩) Run.refl)), ?_⟩
  rw [hs, ← hb]

theorem smallBatch_replicate (n m : ℕ) : SmallBatch (replicate n (replicate m 0)) ↔
      ((n + 1) * 8 + n * m) % 2 ^ 32 ≤ IO_BUF_SIZE := by
  simp [SmallBatch]

/-- Five packets of 65535 bytes that arrive between two rounds are one batch, whose length the
proxy does not accept. -/
theorem five_packets_not_submittable :
    ∃ s, (inputRing IOV_LIST_MAXLEN true).Run (NoWrap IOV_LIST_MAXLEN) .init s ∧
      s.batches = [replicate 5 (replicate 65535 0)] ∧
      ∀ batch ∈ s.batches, ¬ Submittable batch := by
  have hstart : Straight IOV_LIST_MAXLEN .init := .init (by decide)
  have hroom : InputRing.init.bufferHead +
      (replicate 5 (replicate 65535 (0 : UInt8))).length < IOV_LIST_MAXLEN := by
    rw [length_replicate]
    decide
  obtain ⟨s, hrun, hbatches⟩ := exists_run_round (replicate 5 (replicate 65535 0))
    hstart rfl rfl (cons_ne_nil _ _) hroom
  refine ⟨s, hrun, hbatches, fun batch hbatch => ?_⟩
  rw [hbatches] at hbatch
  rw [mem_singleton.mp hbatch, submittable_iff, smallBatch_replicate]
  decide

end VmFt.Net
