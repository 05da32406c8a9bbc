import Mathlib.Data.List.Infix
import VmFt.Lib.Cursor
import VmFt.Lib.Transition
import VmFt.Net.Mirror

/-! # The input ring of the e1000

Packets for the guest of a leader wait in a ring. The consensus thread submits
them to the proxy, one by one or in batches, and moves a mark past those that
are agreed on; the I/O handler hands the packets behind the mark to the guest.
-/

namespace VmFt.Net

open VmFt.System VmFt.Cursor List Function

def IOV_LIST_MAXLEN : ℕ := 33554432

/-- Where `make_consensus` is: between two rounds, copying the packets of a round that starts at
the saved mark, in `proxy_on_mirror`, or back from it. -/
inductive Thread where
  | idle
  | reading (curConsensusHead count : ℕ) (iovs : List Packet)
  | mirroring (count : ℕ) (iovs : List Packet)
  | mirrored (count : ℕ)
  | crashed
  deriving DecidableEq

/-- The static variables of `e1000.c`, and the history of the packets: those that arrived, the
arguments of the calls of `proxy_on_mirror`, those whose call returned, those the guest got. -/
structure InputRing where
  iovList : ℕ → Packet
  bufferHead : ℕ
  consensusHead : ℕ
  bufferTail : ℕ
  bufferWrap : Bool
  consensusWrap : Bool
  thread : Thread
  arrived : List Packet
  batches : List (List Packet)
  returned : List Packet
  delivered : List Packet

def InputRing.init : InputRing := ⟨fun _ => [], 0, 0, 0, false, false, .idle, [], [], [], []⟩

def InputRing.submitted (s : InputRing) : List Packet := s.batches.flatten

inductive RingEvent where
  | receiveIov (iov : List Packet)
  | saveHeads
  | readSlot
  | proxyOnMirror
  | mirrorReturns
  | advanceMark
  | rhandler (taken : ℕ)

section Steps

variable (len : ℕ)

/-- `e1000_receive_iov` of a leader, which takes the first element of the vector. -/
def receiveIov (iov : List Packet) (s : InputRing) : InputRing :=
  let wraps : Bool := len ≤ s.bufferHead + 1
  { s with
    iovList := Function.update s.iovList s.bufferHead (iov.headD [])
    bufferHead := if wraps then s.bufferHead + 1 - len else s.bufferHead + 1
    bufferWrap := wraps || s.bufferWrap
    arrived := s.arrived ++ [iov.flatten] }

/-- The test of `make_consensus`. -/
def hasWaiting (s : InputRing) : Bool := s.consensusHead < s.bufferHead || s.bufferWrap

/-- The test of the loop in `rhandler`. -/
def hasReady (s : InputRing) : Bool := s.bufferTail < s.consensusHead || s.consensusWrap

/-- The start of a round: the number of packets of a batch is the difference of the saved cursors.
For a negative one the header is written outside of what `malloc` returned. -/
def saveHeads (batching : Bool) (s : InputRing) : InputRing :=
  if hasWaiting s then
    if batching then
      if s.bufferHead < s.consensusHead then { s with thread := .crashed }
      else { s with thread := .reading s.consensusHead (s.bufferHead - s.consensusHead) [] }
    else { s with thread := .reading s.consensusHead 1 [] }
  else s

/-- The end of a round, under the lock. -/
def advanceMark (count : ℕ) (s : InputRing) : InputRing :=
  let wraps : Bool := len ≤ s.consensusHead + count
  { s with
    consensusHead := if wraps then s.consensusHead + count - len else s.consensusHead + count
    bufferWrap := !wraps && s.bufferWrap
    consensusWrap := wraps || s.consensusWrap
    thread := .idle }

/-- One turn of the loop in `rhandler` in which `send_to_guest` succeeds. -/
def sendToGuest (s : InputRing) : InputRing :=
  let wraps : Bool := len ≤ s.bufferTail + 1
  { s with
    bufferTail := if wraps then s.bufferTail + 1 - len else s.bufferTail + 1
    consensusWrap := !wraps && s.consensusWrap
    delivered := s.delivered ++ [s.iovList s.bufferTail] }

/-- `rhandler` with a guest that takes at most `taken` packets. -/
def rhandler : ℕ → InputRing → InputRing
  | 0, s => s
  | taken + 1, s => if hasReady s then rhandler taken (sendToGuest len s) else s

/-- The critical sections of a leader, the unlocked reads of the consensus thread and its call
of `proxy_on_mirror`. -/
def ringStep (batching : Bool) (s : InputRing) : RingEvent → Option InputRing
  | .receiveIov iov => some (receiveIov len iov s)
  | .saveHeads => guarded (s.thread = .idle) (saveHeads batching s)
  | .readSlot =>
    match s.thread with
    | .reading cur count iovs => guarded (iovs.length < count)
        { s with thread := .reading cur count (iovs ++ [s.iovList (cur + iovs.length)]) }
    | _ => none
  | .proxyOnMirror =>
    match s.thread with
    | .reading _ count iovs => guarded (iovs.length = count)
        { s with thread := .mirroring count iovs, batches := s.batches ++ [iovs] }
    | _ => none
  | .mirrorReturns =>
    match s.thread with
    | .mirroring count iovs =>
      some { s with thread := .mirrored count, returned := s.returned ++ iovs }
    | _ => none
  | .advanceMark =>
    match s.thread with
    | .mirrored count => some (advanceMark len count s)
    | _ => none
  | .rhandler taken => some (rhandler len taken s)

end Steps

def inputRing (len : ℕ) (batching : Bool) : System InputRing RingEvent := ⟨ringStep len batching⟩

variable {len : ℕ} {batching : Bool} {s t : InputRing}

/-- A packet arrives only while fewer packets than the ring has slots are undelivered. -/
def Bounded (len : ℕ) (s : InputRing) : RingEvent → Prop
  | .receiveIov _ => s.arrived.length < s.delivered.length + len
  | _ => True

/-- Besides, every packet arrives in one piece, and no batch is begun while the buffer head has
wrapped around and the mark has not. -/
def Unwrapped (len : ℕ) (batching : Bool) (s : InputRing) : RingEvent → Prop
  | .receiveIov iov => s.arrived.length < s.delivered.length + len ∧ iov.length = 1
  | .saveHeads => batching = true → s.bufferWrap = false
  | _ => True

instance (e : RingEvent) : Decidable (Bounded len s e) := by
  cases e <;> unfold Bounded <;> infer_instance

instance (e : RingEvent) : Decidable (Unwrapped len batching s e) := by
  cases e <;> unfold Unwrapped <;> infer_instance

/-- The ring is a queue with a mark: packets are submitted in the order of their arrival, handed
out in the same order and only once agreed on, and neither the consensus thread nor the handler
mistakes what is left for them to do. -/
structure Fifo (s : InputRing) : Prop where
  submitted : s.submitted <+: s.arrived
  returned : s.returned <+: s.submitted
  delivered : s.delivered <+: s.returned
  waiting : s.thread = .idle → (hasWaiting s = true ↔ s.submitted ≠ s.arrived)
  ready : s.thread = .idle → (hasReady s = true ↔ s.delivered ≠ s.returned)
  nonempty : ∀ count iovs, s.thread = .mirroring count iovs → iovs ≠ []
  running : s.thread ≠ .crashed

/-! ### The cursors and the packets between them -/

theorem prefix_snoc {α : Type} {l a : List α} {x : α} (h : l <+: a) (hx : a[l.length]? = some x) :
    l ++ [x] <+: a := by
  obtain ⟨rest, rfl⟩ := h
  rw [List.getElem?_append_right (Nat.le_refl _), Nat.sub_self] at hx
  cases rest with
  | nil => cases hx
  | cons y rest =>
    obtain rfl : y = x := by simpa using hx
    exact ⟨rest, by rw [append_assoc]; rfl⟩

theorem prefix_append_drop {α : Type} {l m a : List α} (h : l <+: a) (hm : m <+: a.drop l.length) :
    l ++ m <+: a := by
  obtain ⟨rest, rfl⟩ := h
  rw [drop_left] at hm
  exact (prefix_append_right_inj l).mpr hm

def Upto (arrived ps : List Packet) (n : ℕ) : Prop := ps <+: arrived ∧ ps.length = n

/-- A round takes packets that have arrived, from slots in one piece. -/
structure Span (len : ℕ) (arrived : List Packet) (mark count : ℕ) : Prop where
  pos : 0 < count
  arrived : mark + count ≤ arrived.length
  slots : mark % len + count ≤ len

def Round (len : ℕ) (arrived submitted returned : List Packet) (mark : ℕ) : Thread → Prop
  | .idle => Upto arrived submitted mark ∧ Upto arrived returned mark
  | .reading cur count iovs => Span len arrived mark count ∧ cur = mark % len ∧
      iovs.length ≤ count ∧ iovs <+: arrived.drop mark ∧
      Upto arrived submitted mark ∧ Upto arrived returned mark
  | .mirroring count iovs => Span len arrived mark count ∧ iovs.length = count ∧
      iovs <+: arrived.drop mark ∧ Upto arrived submitted (mark + count) ∧
      Upto arrived returned mark
  | .mirrored count => Span len arrived mark count ∧
      Upto arrived submitted (mark + count) ∧ Upto arrived returned (mark + count)
  | .crashed => False

/-- The cursors stand where the packets that arrived, the mark and the packets handed out say. -/
structure RingInv (len : ℕ) (s : InputRing) (mark : ℕ) : Prop where
  delivered_le : s.delivered.length ≤ mark
  mark_le : mark ≤ s.arrived.length
  room : s.arrived.length ≤ s.delivered.length + len
  head : s.bufferHead = s.arrived.length % len
  consensus : s.consensusHead = mark % len
  tail : s.bufferTail = s.delivered.length % len
  bufferWrap : s.bufferWrap = ahead len mark s.arrived.length
  consensusWrap : s.consensusWrap = ahead len s.delivered.length mark
  slots : ∀ k, s.delivered.length ≤ k → k < s.arrived.length →
    s.arrived[k]? = some (s.iovList (k % len))
  delivered : s.delivered <+: s.arrived
  round : Round len s.arrived s.submitted s.returned mark s.thread

variable {mark : ℕ} {th : Thread} {arrived arrived' submitted returned ps : List Packet} {n : ℕ}

theorem Upto.arrive (h : Upto arrived ps n) (ha : arrived <+: arrived') : Upto arrived' ps n :=
  ⟨h.1.trans ha, h.2⟩

theorem Span.arrive (h : Span len arrived mark n) (ha : arrived <+: arrived') :
    Span len arrived' mark n :=
  ⟨h.pos, h.arrived.trans ha.length_le, h.slots⟩

theorem Round.arrive (h : Round len arrived submitted returned mark th)
    (ha : arrived <+: arrived') : Round len arrived' submitted returned mark th := by
  have hd : arrived.drop mark <+: arrived'.drop mark := ha.drop mark
  cases th with
  | idle => exact ⟨h.1.arrive ha, h.2.arrive ha⟩
  | reading cur count iovs =>
    obtain ⟨hs, hcur, hle, hi, hsub, hret⟩ := h
    exact ⟨hs.arrive ha, hcur, hle, hi.trans hd, hsub.arrive ha, hret.arrive ha⟩
  | mirroring count iovs =>
    obtain ⟨hs, hle, hi, hsub, hret⟩ := h
    exact ⟨hs.arrive ha, hle, hi.trans hd, hsub.arrive ha, hret.arrive ha⟩
  | mirrored count =>
    obtain ⟨hs, hsub, hret⟩ := h
    exact ⟨hs.arrive ha, hsub.arrive ha, hret.arrive ha⟩
  | crashed => exact h

section Invariant

variable (hlen : 0 < len) (h : RingInv len s mark)

include h in
theorem RingInv.hasWaiting_iff : hasWaiting s = true ↔ mark < s.arrived.length := by
  rw [hasWaiting, h.consensus, h.head, h.bufferWrap, Bool.or_eq_true, decide_eq_true_iff]
  exact lt_iff h.mark_le

include h in
theorem RingInv.hasReady_iff : hasReady s = true ↔ s.delivered.length < mark := by
  rw [hasReady, h.consensus, h.tail, h.consensusWrap, Bool.or_eq_true, decide_eq_true_iff]
  exact lt_iff h.delivered_le

include hlen h

theorem RingInv.receiveIov {p : Packet} (hr : s.arrived.length < s.delivered.length + len) :
    RingInv len (receiveIov len [p] s) mark := by
  have hs : s.arrived.length % len + 1 ≤ len := Nat.mod_lt _ hlen
  have hl : (Net.receiveIov len [p] s).arrived.length = s.arrived.length + 1 := by
    simp [Net.receiveIov]
  have ha : s.arrived <+: (Net.receiveIov len [p] s).arrived := prefix_append ..
  refine ⟨h.delivered_le, ?_, ?_, ?_, h.consensus, h.tail, ?_, h.consensusWrap, ?_,
    h.delivered.trans ha, h.round.arrive ha⟩
  · exact h.mark_le.trans ha.length_le
  · rw [hl]
    exact hr
  · rw [hl, ← move_eq hlen hs, ← h.head]
    rfl
  · rw [hl, ahead_add_left hlen h.mark_le hs, ← h.bufferWrap, ← h.head]
    rfl
  · intro k hk hlt
    rw [hl] at hlt
    rcases Nat.lt_succ_iff_lt_or_eq.mp hlt with hlt | rfl
    · have hne : k % len ≠ s.bufferHead := by
        rw [h.head]
        exact slot_ne hlt (by change s.delivered.length ≤ k at hk; omega)
      have hold := h.slots k hk hlt
      rw [show (Net.receiveIov len [p] s).iovList (k % len) = s.iovList (k % len) from
        update_of_ne hne .., ← hold]
      exact List.getElem?_append_left hlt
    · rw [← h.head, show (Net.receiveIov len [p] s).iovList s.bufferHead = p from
        update_self ..]
      simp [Net.receiveIov]

theorem RingInv.sendToGuest (hr : s.delivered.length < mark) :
    RingInv len (sendToGuest len s) mark := by
  have hs : s.delivered.length % len + 1 ≤ len := Nat.mod_lt _ hlen
  have hl : (Net.sendToGuest len s).delivered.length = s.delivered.length + 1 := by
    simp [Net.sendToGuest]
  have hm := h.mark_le
  have hro := h.room
  refine ⟨?_, h.mark_le, ?_, h.head, h.consensus, ?_, h.bufferWrap, ?_, ?_, ?_, h.round⟩
  · rw [hl]
    exact hr
  · rw [hl]
    exact hro.trans (by omega)
  · rw [hl, ← move_eq hlen hs, ← h.tail]
    rfl
  · rw [hl, ahead_add_right hlen hr (by omega) hs, ← h.consensusWrap, ← h.tail]
    rfl
  · intro k hk hlt
    rw [hl] at hk
    exact h.slots k (by omega) hlt
  · refine prefix_snoc h.delivered ?_
    rw [h.tail]
    exact h.slots _ (Nat.le_refl _) (by omega)

theorem RingInv.rhandler (taken : ℕ) : RingInv len (rhandler len taken s) mark := by
  induction taken generalizing s with
  | zero => exact h
  | succ taken ih =>
    rw [Net.rhandler]
    split
    · rename_i hr
      exact ih (h.sendToGuest hlen (h.hasReady_iff.mp hr))
    · exact h

theorem RingInv.advanceMark {count : ℕ} (ht : s.thread = .mirrored count) :
    RingInv len (advanceMark len count s) (mark + count) := by
  have hr := h.round
  rw [ht] at hr
  obtain ⟨hs, hsub, hret⟩ := hr
  have hro := h.room
  have hd := h.delivered_le
  refine ⟨hd.trans (Nat.le_add_right ..), hs.arrived, h.room, h.head, ?_, h.tail, ?_,
    ?_, h.slots, h.delivered, hsub, hret⟩
  · rw [← move_eq hlen hs.slots, ← h.consensus]
    rfl
  · change _ = ahead len (mark + count) s.arrived.length
    rw [ahead_add_right hlen hs.arrived (by omega) hs.slots, ← h.bufferWrap, ← h.consensus]
    rfl
  · change _ = ahead len s.delivered.length (mark + count)
    rw [ahead_add_left hlen h.delivered_le hs.slots, ← h.consensusWrap, ← h.consensus]
    rfl

omit hlen in
theorem RingInv.withRound {batches : List (List Packet)}
    (hr : Round len s.arrived batches.flatten returned mark th) :
    RingInv len { s with thread := th, batches := batches, returned := returned } mark :=
  { h with round := hr }

theorem RingInv.saveHeads (hidle : s.thread = .idle)
    (hwr : batching = true → s.bufferWrap = false) : RingInv len (saveHeads batching s) mark := by
  have hr := h.round
  rw [hidle] at hr
  obtain ⟨hsub, hret⟩ := hr
  unfold Net.saveHeads
  split
  · rename_i hw
    have hlt := h.hasWaiting_iff.mp hw
    split
    · rename_i hb
      have hbu := h.bufferWrap
      rw [hwr hb, eq_comm, ahead, decide_eq_false_iff_not, not_not] at hbu
      have hdiv := Nat.div_add_mod s.arrived.length len
      have hdiv' := Nat.div_add_mod mark len
      have hsl := Nat.mod_lt s.arrived.length hlen
      have hh := h.head
      have hc := h.consensus
      rw [hbu] at hdiv
      rw [if_neg (by omega)]
      have hs : Span len s.arrived mark (s.bufferHead - s.consensusHead) :=
        ⟨by omega, by omega, by omega⟩
      apply h.withRound
      exact ⟨hs, h.consensus, Nat.zero_le _, nil_prefix, hsub, hret⟩
    · have hs : Span len s.arrived mark 1 := ⟨Nat.one_pos, hlt, Nat.mod_lt _ hlen⟩
      apply h.withRound
      exact ⟨hs, h.consensus, Nat.zero_le _, nil_prefix, hsub, hret⟩
  · exact h

omit hlen in
theorem RingInv.readSlot {cur count : ℕ} {iovs : List Packet}
    (ht : s.thread = .reading cur count iovs) (hlt : iovs.length < count) : RingInv len
      { s with thread := .reading cur count (iovs ++ [s.iovList (cur + iovs.length)]) } mark := by
  have hr := h.round
  rw [ht] at hr
  obtain ⟨hsp, rfl, hle, hi, hsub, hret⟩ := hr
  have hs := hsp.slots
  have ha := hsp.arrived
  have hd := h.delivered_le
  refine h.withRound ⟨hsp, rfl, ?_, ?_, hsub, hret⟩
  · rw [length_append]
    exact hlt
  · refine prefix_snoc hi ?_
    rw [List.getElem?_drop, ← (add_of_lt (by omega)).1]
    exact h.slots _ (by omega) (by omega)

omit hlen in
theorem RingInv.proxyOnMirror {cur count : ℕ} {iovs : List Packet}
    (ht : s.thread = .reading cur count iovs) (hc : iovs.length = count) : RingInv len
      { s with thread := .mirroring count iovs, batches := s.batches ++ [iovs] } mark := by
  have hr := h.round
  rw [ht] at hr
  obtain ⟨hs, rfl, hle, hi, hsub, hret⟩ := hr
  refine h.withRound ⟨hs, hc, hi, ?_, hret⟩
  have hf : (s.batches ++ [iovs]).flatten = s.submitted ++ iovs := by
    rw [flatten_append, flatten_singleton]
    rfl
  rw [hf]
  constructor
  · exact prefix_append_drop hsub.1 (by rwa [hsub.2])
  · rw [length_append, hsub.2, hc]

omit hlen in
theorem RingInv.mirrorReturns {count : ℕ} {iovs : List Packet}
    (ht : s.thread = .mirroring count iovs) :
    RingInv len { s with thread := .mirrored count, returned := s.returned ++ iovs } mark := by
  have hr := h.round
  rw [ht] at hr
  obtain ⟨hs, hc, hi, hsub, hret⟩ := hr
  refine h.withRound ⟨hs, hsub, ?_, ?_⟩
  · exact prefix_append_drop hret.1 (by rwa [hret.2])
  · rw [length_append, hret.2, hc]

theorem RingInv.step {e : RingEvent} (hok : Unwrapped len batching s e)
    (hs : (inputRing len batching).step s e = some t) : ∃ mark', RingInv len t mark' := by
  change ringStep len batching s e = some t at hs
  unfold ringStep at hs
  cases e with
  | receiveIov iov =>
    obtain ⟨hr, hone⟩ := hok
    obtain ⟨p, rfl⟩ := length_eq_one_iff.mp hone
    cases hs
    exact ⟨mark, h.receiveIov hlen hr⟩
  | saveHeads =>
    obtain ⟨hidle, rfl⟩ := guarded_eq_some.mp hs
    exact ⟨mark, h.saveHeads hlen hidle hok⟩
  | readSlot =>
    dsimp only at hs
    split at hs
    · rename_i ht
      obtain ⟨hlt, rfl⟩ := guarded_eq_some.mp hs
      exact ⟨mark, h.readSlot ht hlt⟩
    · cases hs
  | proxyOnMirror =>
    dsimp only at hs
    split at hs
    · rename_i ht
      obtain ⟨hc, rfl⟩ := guarded_eq_some.mp hs
      exact ⟨mark, h.proxyOnMirror ht hc⟩
    · cases hs
  | mirrorReturns =>
    dsimp only at hs
    split at hs
    · rename_i ht
      cases hs
      exact ⟨mark, h.mirrorReturns ht⟩
    · cases hs
  | advanceMark =>
    dsimp only at hs
    split at hs
    · rename_i ht
      cases hs
      exact ⟨_, h.advanceMark hlen ht⟩
    · cases hs
  | rhandler taken =>
    cases hs
    exact ⟨mark, h.rhandler hlen taken⟩

end Invariant

theorem ringInv_init (len : ℕ) : RingInv len .init 0 := by
  have hz : ahead len 0 0 = false := decide_eq_false (by simp)
  refine ⟨Nat.le_refl _, Nat.le_refl _, Nat.zero_le _, ?_, ?_, ?_, hz.symm, hz.symm, ?_,
    List.nil_prefix, ⟨List.nil_prefix, rfl⟩, ⟨List.nil_prefix, rfl⟩⟩
  · exact (Nat.zero_mod len).symm
  · exact (Nat.zero_mod len).symm
  · exact (Nat.zero_mod len).symm
  · exact fun k _ hk => absurd hk (Nat.not_lt_zero k)

theorem ne_iff_of_prefix {ps qs : List Packet} (h : ps <+: qs) :
    ps.length < qs.length ↔ ps ≠ qs := by
  constructor
  · rintro hlt rfl
    omega
  · exact fun hne => lt_of_le_of_ne h.length_le fun heq => hne (h.eq_of_length heq)

theorem Round.prefixes (h : Round len arrived submitted returned mark th) :
    submitted <+: arrived ∧ returned <+: submitted ∧ returned <+: arrived ∧
      mark ≤ returned.length := by
  have hp : ∀ {a b : ℕ}, Upto arrived submitted a → Upto arrived returned b → b ≤ a →
      returned <+: submitted := fun hsub hret hle =>
    prefix_of_prefix_length_le hret.1 hsub.1 (by rw [hsub.2, hret.2]; exact hle)
  cases th with
  | idle =>
    obtain ⟨hsub, hret⟩ := h
    exact ⟨hsub.1, hp hsub hret (Nat.le_refl _), hret.1, hret.2.ge⟩
  | reading cur count iovs =>
    obtain ⟨-, -, -, -, hsub, hret⟩ := h
    exact ⟨hsub.1, hp hsub hret (Nat.le_refl _), hret.1, hret.2.ge⟩
  | mirroring count iovs =>
    obtain ⟨-, -, -, hsub, hret⟩ := h
    exact ⟨hsub.1, hp hsub hret (Nat.le_add_right ..), hret.1, hret.2.ge⟩
  | mirrored count =>
    obtain ⟨-, hsub, hret⟩ := h
    exact ⟨hsub.1, hp hsub hret (Nat.le_refl _), hret.1, by rw [hret.2]; omega⟩
  | crashed => exact h.elim

theorem RingInv.fifo (h : RingInv len s mark) : Fifo s := by
  have hro := h.round
  obtain ⟨hsub, hr, hret, hm⟩ := hro.prefixes
  have hd : s.delivered <+: s.returned :=
    prefix_of_prefix_length_le h.delivered hret (h.delivered_le.trans hm)
  refine ⟨hsub, hr, hd, fun hidle => ?_, fun hidle => ?_, ?_, ?_⟩
  · rw [hidle] at hro
    rw [h.hasWaiting_iff, ← hro.1.2]
    exact ne_iff_of_prefix hsub
  · rw [hidle] at hro
    rw [h.hasReady_iff, ← hro.2.2]
    exact ne_iff_of_prefix hd
  · intro count iovs ht
    rw [ht] at hro
    obtain ⟨hs, hc, -⟩ := hro
    exact ne_nil_of_length_pos (hc ▸ hs.pos)
  · intro ht
    rw [ht] at hro
    exact hro

def EmptyRound : Thread → Prop
  | .idle => True
  | .reading _ count iovs => count = 0 ∧ iovs = []
  | .mirroring count iovs => count = 0 ∧ iovs = []
  | .mirrored count => count = 0
  | .crashed => False

/-- As many packets as the ring has slots have arrived, and every round is empty. -/
structure Stuck (len : ℕ) (s : InputRing) : Prop where
  head : s.bufferHead = 0
  consensus : s.consensusHead = 0
  tail : s.bufferTail = 0
  bufferWrap : s.bufferWrap = true
  consensusWrap : s.consensusWrap = false
  arrived : s.arrived.length = len
  delivered : s.delivered = []
  submitted : s.submitted = []
  thread : EmptyRound s.thread

theorem Stuck.withThread (h : Stuck len s) {batches : List (List Packet)}
    (hb : batches.flatten = []) (hth : EmptyRound th) :
    Stuck len { s with thread := th, batches := batches, returned := returned } :=
  { h with submitted := hb, thread := hth }

theorem Stuck.saveHeads (h : Stuck len s) : Stuck len (saveHeads true s) := by
  have hh := h.head
  have hc := h.consensus
  unfold Net.saveHeads
  split
  · rw [if_pos rfl, if_neg (by omega)]
    apply h.withThread h.submitted
    exact ⟨by omega, rfl⟩
  · exact h

theorem Stuck.advanceMark (hlen : 0 < len) (h : Stuck len s) : Stuck len (advanceMark len 0 s) := by
  have hw : decide (len ≤ s.consensusHead + 0) = false := by
    rw [h.consensus]
    exact decide_eq_false (by omega)
  unfold Net.advanceMark
  rw [hw]
  exact { h with thread := trivial }

theorem Stuck.rhandler (h : Stuck len s) (taken : ℕ) : rhandler len taken s = s := by
  cases taken with
  | zero => rfl
  | succ taken =>
    rw [Net.rhandler, hasReady, h.tail, h.consensus, h.consensusWrap]
    rfl

theorem Stuck.step {e : RingEvent} (hlen : 0 < len) (h : Stuck len s) (hok : Bounded len s e)
    (hs : (inputRing len true).step s e = some t) : Stuck len t := by
  change ringStep len true s e = some t at hs
  have ht := h.thread
  unfold ringStep at hs
  cases e with
  | receiveIov iov =>
    change s.arrived.length < s.delivered.length + len at hok
    rw [h.arrived, h.delivered, length_nil] at hok
    omega
  | saveHeads =>
    obtain ⟨-, rfl⟩ := guarded_eq_some.mp hs
    exact h.saveHeads
  | readSlot =>
    dsimp only at hs
    split at hs
    · rename_i heq
      obtain ⟨hlt, -⟩ := guarded_eq_some.mp hs
      rw [heq] at ht
      obtain ⟨rfl, -⟩ := ht
      exact absurd hlt (Nat.not_lt_zero _)
    · cases hs
  | proxyOnMirror =>
    dsimp only at hs
    split at hs
    · rename_i heq
      obtain ⟨-, rfl⟩ := guarded_eq_some.mp hs
      rw [heq] at ht
      obtain ⟨rfl, rfl⟩ := ht
      apply h.withThread
      · rw [flatten_append, flatten_singleton, List.append_nil]
        exact h.submitted
      · exact ⟨rfl, rfl⟩
    · cases hs
  | mirrorReturns =>
    dsimp only at hs
    split at hs
    · rename_i heq
      cases hs
      rw [heq] at ht
      obtain ⟨rfl, rfl⟩ := ht
      apply h.withThread h.submitted
      rfl
    · cases hs
  | advanceMark =>
    dsimp only at hs
    split at hs
    · rename_i heq
      cases hs
      rw [heq] at ht
      obtain rfl := ht
      exact h.advanceMark hlen
    · cases hs
  | rhandler taken =>
    cases hs
    rw [h.rhandler taken]
    exact h

theorem run_receiveIov (batching : Bool) (hlen : 0 < len) (n : ℕ) (hn : n ≤ len) :
    ∃ s, (inputRing len batching).Run (Bounded len) .init s ∧ RingInv len s 0 ∧
      s.thread = .idle ∧ s.arrived.length = n := by
  induction n with
  | zero => exact ⟨.init, Run.refl, ringInv_init len, rfl, rfl⟩
  | succ n ih =>
    obtain ⟨s, hrun, hinv, hidle, hl⟩ := ih (by omega)
    have hr : s.arrived.length < s.delivered.length + len := by omega
    refine ⟨receiveIov len [[0]] s, hrun.tail ⟨.receiveIov [[0]], hr, rfl⟩,
      hinv.receiveIov hlen hr, hidle, ?_⟩
    simp [receiveIov, hl]

theorem stuck_of_full (batching : Bool) (hlen : 0 < len) :
    ∃ s, (inputRing len batching).Run (Bounded len) .init s ∧ Stuck len s := by
  obtain ⟨s, hrun, hinv, hidle, hl⟩ :=
    run_receiveIov batching hlen len (Nat.le_refl _)
  have hd : s.delivered = [] :=
    length_eq_zero_iff.mp (Nat.le_zero.mp hinv.delivered_le)
  have hr := hinv.round
  rw [hidle] at hr
  refine ⟨s, hrun, ?_, ?_, ?_, ?_, ?_, hl, hd, length_eq_zero_iff.mp hr.1.2, ?_⟩
  · rw [hinv.head, hl, Nat.mod_self]
  · rw [hinv.consensus, Nat.zero_mod]
  · rw [hinv.tail, hd, length_nil, Nat.zero_mod]
  · rw [hinv.bufferWrap, hl, ahead, Nat.div_self hlen, Nat.zero_div]
    rfl
  · rw [hinv.consensusWrap, hd, ahead, length_nil]
    simp
  · rw [hidle]
    trivial

end VmFt.Net
