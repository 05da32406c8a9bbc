import Mathlib.Data.List.TakeDrop
import VmFt.Net.InputRing

/-! # Handing a packet to the guest

The e1000 writes a packet into the buffers of the receive ring that the guest has set
up. A packet that finds no room is refused and offered again later. When the guest
has asked for it, a VLAN tag is taken out of the packet first, and this is done in
the place where the packet is stored.
-/

namespace VmFt.Net.Rx

open List Function

def E1000_STATUS_LU : BitVec 32 := 0x2
def E1000_CTRL_VME : BitVec 32 := 0x40000000
def E1000_RCTL_EN : BitVec 32 := 0x2
def E1000_RCTL_SBP : BitVec 32 := 0x4
def E1000_RCTL_LPE : BitVec 32 := 0x20
def E1000_RCTL_SECRC : BitVec 32 := 0x04000000
def E1000_RXD_STAT_DD : BitVec 8 := 0x01
def E1000_RXD_STAT_EOP : BitVec 8 := 0x02
def E1000_RXD_STAT_IXSM : BitVec 8 := 0x04
def E1000_RXD_STAT_VP : BitVec 8 := 0x08

def MIN_BUF_SIZE : ℕ := 60
def MAXIMUM_ETHERNET_VLAN_SIZE : ℕ := 1522
def MAXIMUM_ETHERNET_LPE_SIZE : ℕ := 16384

structure RxDesc where
  bufferAddr : ℕ
  length : ℕ
  status : BitVec 8
  special : ℕ
deriving DecidableEq

/-- The registers that are read, and the descriptors in the memory of the guest. The writer of
`RDLEN` keeps the length of the ring a number of whole descriptors. -/
structure Nic where
  status : BitVec 32
  ctrl : BitVec 32
  rctl : BitVec 32
  vet : BitVec 32
  rdh : ℕ
  rdt : ℕ
  rdlen : ℕ
  rxbufSize : ℕ
  ring : ℕ → RxDesc
  aligned : 16 ∣ rdlen

/-- The number of descriptors. -/
def Nic.count (nic : Nic) : ℕ := nic.rdlen / 16

def vlanEnabled (nic : Nic) : Bool := nic.ctrl &&& E1000_CTRL_VME ≠ 0

/-- The two bytes at an offset, in network order. -/
def be16 (buf : Packet) (offset : ℕ) : ℕ :=
  (buf.getD offset 0).toNat * 256 + (buf.getD (offset + 1) 0).toNat

def isVlanPacket (nic : Nic) (buf : Packet) : Bool := be16 buf 12 = nic.vet.toNat % 65536

def fcsLen (nic : Nic) : ℕ := if nic.rctl &&& E1000_RCTL_SECRC ≠ 0 then 0 else 4

/-- The product is one of unsigned 32-bit numbers. -/
def e1000HasRxbufs (nic : Nic) (totalSize : ℕ) : Bool :=
  if totalSize ≤ nic.rxbufSize then nic.rdh ≠ nic.rdt
  else if nic.rdh < nic.rdt then totalSize ≤ (nic.rdt - nic.rdh) * nic.rxbufSize % 2 ^ 32
  else if nic.rdt < nic.rdh then
    totalSize ≤ (nic.count + nic.rdt + 2 ^ 32 - nic.rdh) % 2 ^ 32 * nic.rxbufSize % 2 ^ 32
  else false

/-- A packet as it goes to the guest: its bytes, the length with the checksum, and what the
descriptors say of a tag. -/
structure RxFrame where
  data : Packet
  totalSize : ℕ
  special : ℕ
  vlanStatus : BitVec 8
deriving DecidableEq

/-- The variables of the loop over the descriptors. -/
structure RxState where
  rdh : ℕ
  ring : ℕ → RxDesc
  writes : List (ℕ × Packet)
  descOffset : ℕ

/-- One turn of the loop; descriptors without a buffer are skipped. -/
def rxStep (nic : Nic) (frame : RxFrame) (st : RxState) : RxState :=
  let desc := st.ring st.rdh
  let desc := { desc with
    special := frame.special
    status := desc.status ||| (frame.vlanStatus ||| E1000_RXD_STAT_DD) }
  let rdh := if nic.rdlen ≤ (st.rdh + 1) * 16 then 0 else st.rdh + 1
  if desc.bufferAddr = 0 then { st with rdh, ring := Function.update st.ring st.rdh desc }
  else
    let descSize := min (frame.totalSize - st.descOffset) nic.rxbufSize
    let descOffset := st.descOffset + descSize
    let desc := { desc with
      length := descSize
      status :=
        if frame.totalSize ≤ descOffset then
          desc.status ||| (E1000_RXD_STAT_EOP ||| E1000_RXD_STAT_IXSM)
        else desc.status &&& ~~~E1000_RXD_STAT_EOP }
    let writes :=
      if st.descOffset < frame.data.length then
        st.writes ++ [(desc.bufferAddr,
          (frame.data.drop st.descOffset).take (min (frame.data.length - st.descOffset)
            nic.rxbufSize))]
      else st.writes
    { rdh, ring := Function.update st.ring st.rdh desc, writes, descOffset }

def rxLoop (nic : Nic) (frame : RxFrame) : ℕ → RxState → Bool × RxState
  | 0, st => (false, st)
  | fuel + 1, st =>
    let st := rxStep nic frame st
    if st.rdh = nic.rdh ∨ nic.count ≤ nic.rdh then (false, st)
    else if st.descOffset < frame.totalSize then rxLoop nic frame fuel st
    else (true, st)

/-- What `send_to_guest` does: why it refuses, or that it drops or hands on the packet. -/
inductive Outcome
  | linkDown | disabled | oversized | overrun | taken
deriving DecidableEq

/-- Whether `send_to_guest` returns -1. -/
def Outcome.refused : Outcome → Bool
  | .linkDown | .disabled | .overrun => true
  | .oversized | .taken => false

structure Sent where
  outcome : Outcome
  /-- The packet in `iov_list` afterwards. -/
  stored : Packet
  /-- What the descriptors say of a tag. -/
  special : ℕ
  vlanStatus : BitVec 8
  rdh : ℕ
  ring : ℕ → RxDesc
  writes : List (ℕ × Packet)

def padded (stored : Packet) : Packet :=
  if stored.length < MIN_BUF_SIZE then
    stored ++ replicate (MIN_BUF_SIZE - stored.length) 0
  else stored

def oversized (nic : Nic) (size : ℕ) : Bool :=
  (MAXIMUM_ETHERNET_LPE_SIZE < size ||
    (MAXIMUM_ETHERNET_VLAN_SIZE < size && nic.rctl &&& E1000_RCTL_LPE = 0)) &&
    nic.rctl &&& E1000_RCTL_SBP = 0

def moveAddresses (buf : Packet) : Packet := buf.take 4 ++ buf.take 12 ++ buf.drop 16

/-- Whether the tag is taken out. -/
def strips (nic : Nic) (buf : Packet) : Bool := vlanEnabled nic && isVlanPacket nic buf

def rxFrame (nic : Nic) (buf : Packet) : RxFrame :=
  if strips nic buf then
    ⟨(moveAddresses buf).drop 4, buf.length - 4 + fcsLen nic, be16 buf 14, E1000_RXD_STAT_VP⟩
  else ⟨buf, buf.length + fcsLen nic, 0, 0⟩

/-- The outcome without any effect. -/
def untouched (nic : Nic) (stored : Packet) (outcome : Outcome) : Sent :=
  ⟨outcome, stored, 0, 0, nic.rdh, nic.ring, []⟩

/-- The part of `send_to_guest` behind the checks of the registers and the length. -/
def fillRing (nic : Nic) (stored : Packet) : Sent :=
  let frame := rxFrame nic (padded stored)
  -- a short packet is changed in its copy only
  let stored :=
    if strips nic (padded stored) && !decide (stored.length < MIN_BUF_SIZE) then
      moveAddresses stored
    else stored
  if e1000HasRxbufs nic frame.totalSize then
    let (done, st) := rxLoop nic frame (nic.count + 1) ⟨nic.rdh, nic.ring, [], 0⟩
    ⟨if done then .taken else .overrun, stored, frame.special, frame.vlanStatus, st.rdh, st.ring,
      st.writes⟩
  else untouched nic stored .overrun

def sendToGuest (nic : Nic) (stored : Packet) : Sent :=
  if nic.status &&& E1000_STATUS_LU = 0 then untouched nic stored .linkDown
  else if nic.rctl &&& E1000_RCTL_EN = 0 then untouched nic stored .disabled
  else if oversized nic (padded stored).length then untouched nic stored .oversized
  else fillRing nic stored

/-! ### The loop over the ring -/

section Loop

variable {nic : Nic} {frame : RxFrame} {st : RxState}

/-- The number of buffers among the first descriptors from `RDH` on. -/
def buffers (nic : Nic) : ℕ → ℕ
  | 0 => 0
  | j + 1 =>
    buffers nic j + if (nic.ring ((nic.rdh + j) % nic.count)).bufferAddr = 0 then 0 else 1

/-- There are buffers enough before the ring is used up. -/
def Room (nic : Nic) (totalSize : ℕ) : Prop :=
  nic.rdh < nic.count ∧ totalSize ≤ buffers nic (nic.count - 1) * nic.rxbufSize

instance (nic : Nic) (totalSize : ℕ) : Decidable (Room nic totalSize) := by
  unfold Room
  infer_instance

theorem buffers_mono (nic : Nic) {i j : ℕ} (h : i ≤ j) : buffers nic i ≤ buffers nic j := by
  induction h with
  | refl => exact Nat.le_refl _
  | step _ ih => exact Nat.le_trans ih (Nat.le_add_right _ _)

structure After (nic : Nic) (frame : RxFrame) (j : ℕ) (st : RxState) : Prop where
  rdh : st.rdh = (nic.rdh + j) % nic.count
  ring : ∀ i, (st.ring i).bufferAddr = (nic.ring i).bufferAddr
  offset : st.descOffset = min frame.totalSize (buffers nic j * nic.rxbufSize)
  writes : (st.writes.map Prod.snd).flatten = frame.data.take st.descOffset

theorem rdlen_eq (nic : Nic) : nic.rdlen = nic.count * 16 :=
  (Nat.div_mul_cancel nic.aligned).symm

theorem After.start (h : nic.rdh < nic.count) : After nic frame 0 ⟨nic.rdh, nic.ring, [], 0⟩ :=
  ⟨(Nat.mod_eq_of_lt h).symm, fun _ => rfl, by simp [buffers], by simp⟩

theorem next_rdh {j r : ℕ} (hr : r = (nic.rdh + j) % nic.count) (hpos : 0 < nic.count) :
    (if nic.rdlen ≤ (r + 1) * 16 then 0 else r + 1) = (nic.rdh + (j + 1)) % nic.count := by
  have hlt : r < nic.count := by
    rw [hr]
    exact Nat.mod_lt _ hpos
  rw [rdlen_eq, ← Nat.add_assoc, ← Nat.mod_add_mod, ← hr]
  by_cases hl : r + 1 = nic.count
  · rw [if_pos (by omega), hl, Nat.mod_self]
  · rw [if_neg (by omega), Nat.mod_eq_of_lt (by omega)]

theorem take_append_chunk (data : Packet) {total : ℕ} (ht : data.length ≤ total) (offset size : ℕ) :
    data.take offset ++ (data.drop offset).take (min (data.length - offset) size) =
      data.take (offset + min (total - offset) size) := by
  rw [take_add]
  congr 1
  rw [take_eq_take_iff, length_drop]
  omega

theorem After.step {j : ℕ} (h : After nic frame j st) (hpos : 0 < nic.count)
    (ht : frame.data.length ≤ frame.totalSize) : After nic frame (j + 1) (rxStep nic frame st) := by
  have hrdh := next_rdh h.rdh hpos
  have ha : (st.ring st.rdh).bufferAddr =
      (nic.ring ((nic.rdh + j) % nic.count)).bufferAddr := by
    rw [h.ring, h.rdh]
  have hr (desc : RxDesc) (hde : desc.bufferAddr = (st.ring st.rdh).bufferAddr) (i : ℕ) :
      (Function.update st.ring st.rdh desc i).bufferAddr = (nic.ring i).bufferAddr := by
    by_cases hi : i = st.rdh
    · rw [hi, update_self, hde, h.ring]
    · rw [update_of_ne hi, h.ring]
  unfold rxStep
  dsimp only
  split
  · rename_i hn
    refine ⟨hrdh, hr _ rfl, ?_, h.writes⟩
    dsimp only
    rw [buffers, if_pos (ha ▸ hn), Nat.add_zero, h.offset]
  · rename_i hb
    refine ⟨hrdh, hr _ rfl, ?_, ?_⟩
    · dsimp only
      rw [buffers, if_neg (ha ▸ hb), Nat.succ_mul, h.offset]
      omega
    · dsimp only
      rw [← take_append_chunk frame.data ht, ← h.writes]
      split
      · simp
      · rename_i hd
        rw [Nat.sub_eq_zero_of_le (Nat.le_of_not_lt hd)]
        simp

theorem After.rdh_ne {j : ℕ} (h : After nic frame j st) (hs : nic.rdh < nic.count)
    (hpos : 0 < j) (hj : j < nic.count) : st.rdh ≠ nic.rdh := by
  rw [h.rdh]
  rcases Nat.lt_or_ge (nic.rdh + j) nic.count with hlt | hge
  · rw [Nat.mod_eq_of_lt hlt]
    omega
  · rw [Nat.mod_eq_sub_mod hge, Nat.mod_eq_of_lt (by omega)]
    omega

theorem After.rdh_eq (h : After nic frame nic.count st) (hs : nic.rdh < nic.count) :
    st.rdh = nic.rdh := by
  rw [h.rdh, Nat.add_mod_right, Nat.mod_eq_of_lt hs]

theorem After.rxLoop {j : ℕ} (fuel : ℕ) (h : After nic frame j st) (hs : nic.rdh < nic.count)
    (ht : frame.data.length ≤ frame.totalSize) (hj : j < nic.count)
    (hf : nic.count ≤ j + fuel) (hmo : st.descOffset < frame.totalSize) :
    ∃ i, After nic frame i (rxLoop nic frame fuel st).2 ∧ ((rxLoop nic frame fuel st).1 = true ↔
        frame.totalSize ≤ buffers nic (nic.count - 1) * nic.rxbufSize) ∧
      ((rxLoop nic frame fuel st).1 = true →
        frame.totalSize ≤ (rxLoop nic frame fuel st).2.descOffset) := by
  induction fuel generalizing j st with
  | zero => omega
  | succ fuel ih =>
    have hn := h.step (by omega) ht
    rw [Rx.rxLoop]
    by_cases hl : j + 1 = nic.count
    · -- the whole ring was tried
      rw [if_pos (.inl ((hl ▸ hn).rdh_eq hs))]
      refine ⟨j + 1, hn, ⟨nofun, fun he => ?_⟩, nofun⟩
      have ho := h.offset
      rw [show j = nic.count - 1 by omega, Nat.min_eq_left he] at ho
      omega
    · have hrdh := hn.rdh_ne hs (by omega) (by omega)
      rw [if_neg (not_or.mpr ⟨hrdh, Nat.not_le.mpr hs⟩)]
      by_cases hrest : (rxStep nic frame st).descOffset < frame.totalSize
      · rw [if_pos hrest]
        exact ih hn (by omega) (by omega) hrest
      · rw [if_neg hrest]
        refine ⟨j + 1, hn, ⟨fun _ => ?_, fun _ => rfl⟩, fun _ => Nat.le_of_not_lt hrest⟩
        have hm : buffers nic (j + 1) * nic.rxbufSize ≤
            buffers nic (nic.count - 1) * nic.rxbufSize :=
          Nat.mul_le_mul_right _ (buffers_mono nic (by omega))
        have ho := hn.offset
        omega

theorem rxLoop_spec (nic : Nic) (ht : frame.data.length ≤ frame.totalSize)
    (hpos : 0 < frame.totalSize) :
    ((rxLoop nic frame (nic.count + 1) ⟨nic.rdh, nic.ring, [], 0⟩).1 = true ↔
        Room nic frame.totalSize) ∧
      ((rxLoop nic frame (nic.count + 1) ⟨nic.rdh, nic.ring, [], 0⟩).1 = true →
        ((rxLoop nic frame (nic.count + 1) ⟨nic.rdh, nic.ring, [], 0⟩).2.writes.map
          Prod.snd).flatten = frame.data) := by
  by_cases hs : nic.rdh < nic.count
  · obtain ⟨i, ha, hiff, hd⟩ :=
      (After.start hs).rxLoop (nic.count + 1) hs ht (by omega) (by omega) hpos
    refine ⟨hiff.trans (and_iff_right hs).symm, fun htr => ?_⟩
    rw [ha.writes]
    exact take_of_length_le (ht.trans (hd htr))
  · have hf : (rxLoop nic frame (nic.count + 1) ⟨nic.rdh, nic.ring, [], 0⟩).1 = false := by
      rw [rxLoop, if_pos (.inr (Nat.le_of_not_lt hs))]
    rw [hf]
    exact ⟨⟨nofun, fun hr => absurd hr.1 hs⟩, nofun⟩

end Loop

/-! ### Refused packets -/

section Refused

variable {nic : Nic} {stored : Packet}

def Receiving (nic : Nic) : Prop :=
  nic.status &&& E1000_STATUS_LU ≠ 0 ∧ nic.rctl &&& E1000_RCTL_EN ≠ 0

/-- The packet gets as far as the receive ring. -/
def Offered (nic : Nic) (stored : Packet) : Prop :=
  Receiving nic ∧ oversized nic (padded stored).length = false

/-- The ring takes the packet. -/
def Fits (nic : Nic) (stored : Packet) : Prop :=
  e1000HasRxbufs nic (rxFrame nic (padded stored)).totalSize = true ∧
    Room nic (rxFrame nic (padded stored)).totalSize

/-- The call changes the packet where it is stored. -/
def Moves (nic : Nic) (stored : Packet) : Prop :=
  Offered nic stored ∧ strips nic stored = true ∧ MIN_BUF_SIZE ≤ stored.length ∧
    moveAddresses stored ≠ stored

theorem padded_of_le (h : MIN_BUF_SIZE ≤ stored.length) : padded stored = stored :=
  if_neg (Nat.not_lt.mpr h)

theorem le_length_padded (stored : Packet) : MIN_BUF_SIZE ≤ (padded stored).length := by
  unfold padded
  split
  · simp only [length_append, length_replicate]
    omega
  · omega

theorem rxFrame_sizes (nic : Nic) (h : MIN_BUF_SIZE ≤ stored.length) :
    (rxFrame nic stored).data.length ≤ (rxFrame nic stored).totalSize ∧
      0 < (rxFrame nic stored).totalSize := by
  unfold MIN_BUF_SIZE at h
  unfold rxFrame moveAddresses
  split
  · simp only [length_drop, length_append, length_take]
    omega
  · dsimp only
    omega

theorem sendToGuest_of_offered (h : Offered nic stored) :
    sendToGuest nic stored = fillRing nic stored := by
  unfold sendToGuest
  rw [if_neg h.1.1, if_neg h.1.2, if_neg (by simp [h.2])]

theorem sendToGuest_of_not_offered (h : ¬ Offered nic stored) :
    ∃ outcome, sendToGuest nic stored = untouched nic stored outcome ∧ outcome ≠ .taken ∧
      (outcome.refused = true ↔ ¬ Receiving nic) := by
  unfold sendToGuest
  split
  · rename_i hdo
    exact ⟨.linkDown, rfl, nofun, iff_of_true rfl fun hr => hr.1 hdo⟩
  · split
    · rename_i hd
      exact ⟨.disabled, rfl, nofun, iff_of_true rfl fun hr => hr.2 hd⟩
    · rename_i hup he
      have hs : oversized nic (padded stored).length = true := by
        by_contra hs
        exact h ⟨⟨hup, he⟩, (Bool.not_eq_true _).mp hs⟩
      rw [if_pos hs]
      exact ⟨.oversized, rfl, nofun, iff_of_false nofun (not_not_intro ⟨hup, he⟩)⟩

theorem fillRing_stored : (fillRing nic stored).stored =
      if strips nic stored = true ∧ MIN_BUF_SIZE ≤ stored.length then moveAddresses stored
      else stored := by
  have hs : (fillRing nic stored).stored =
      if strips nic (padded stored) && !decide (stored.length < MIN_BUF_SIZE) then
        moveAddresses stored
      else stored := by
    unfold fillRing
    dsimp only
    split <;> rfl
  rw [hs]
  by_cases hlen : MIN_BUF_SIZE ≤ stored.length
  · simp [padded_of_le hlen, hlen]
  · simp [hlen]

theorem sendToGuest_stored_eq_iff :
    (sendToGuest nic stored).stored = stored ↔ ¬ Moves nic stored := by
  by_cases ho : Offered nic stored
  · rw [sendToGuest_of_offered ho, fillRing_stored]
    split
    · rename_i hs
      simp [Moves, ho, hs]
    · rename_i hs
      simp only [true_iff]
      rintro ⟨-, hst, hlen, -⟩
      exact hs ⟨hst, hlen⟩
  · obtain ⟨outcome, hse, -⟩ := sendToGuest_of_not_offered ho
    rw [hse]
    exact iff_of_true rfl fun hm => ho hm.1

def Refuses (nic : Nic) (stored : Packet) : Prop :=
  ¬ Receiving nic ∨ Offered nic stored ∧ ¬ Fits nic stored

theorem fillRing_spec (nic : Nic) (stored : Packet) :
    ((fillRing nic stored).outcome = .taken ∧ Fits nic stored ∧
        ((fillRing nic stored).writes.map Prod.snd).flatten = (rxFrame nic (padded stored)).data) ∨
      ((fillRing nic stored).outcome = .overrun ∧ ¬ Fits nic stored) := by
  obtain ⟨ht, hpos⟩ := rxFrame_sizes nic (le_length_padded stored)
  obtain ⟨hr, hw⟩ := rxLoop_spec nic ht hpos
  by_cases hb : e1000HasRxbufs nic (rxFrame nic (padded stored)).totalSize = true
  · cases hl : (rxLoop nic (rxFrame nic (padded stored)) (nic.count + 1)
      ⟨nic.rdh, nic.ring, [], 0⟩).1 with
    | true =>
      refine .inl ⟨by simp [fillRing, hb, hl], ⟨hb, hr.mp hl⟩, ?_⟩
      rw [← hw hl]
      simp [fillRing, hb]
    | false =>
      refine .inr ⟨by simp [fillRing, hb, hl], fun hfits => ?_⟩
      exact absurd (hl.symm.trans (hr.mpr hfits.2)) nofun
  · exact .inr ⟨by simp [fillRing, hb, untouched], fun hfits => hb hfits.1⟩

theorem refused_sendToGuest_iff :
    (sendToGuest nic stored).outcome.refused = true ↔ Refuses nic stored := by
  by_cases ho : Offered nic stored
  · rw [sendToGuest_of_offered ho]
    unfold Refuses
    rcases fillRing_spec nic stored with ⟨ht, hfits, -⟩ | ⟨hov, hfits⟩
    · simp [ht, Outcome.refused, hfits, ho.1]
    · simp [hov, Outcome.refused, hfits, ho]
  · obtain ⟨outcome, hs, -, hr⟩ := sendToGuest_of_not_offered ho
    rw [hs, untouched, hr, Refuses]
    simp [ho]

/-- What the guest sees of a call. -/
def Sent.seen (sent : Sent) : Outcome × ℕ × BitVec 8 × (ℕ → RxDesc) × List (ℕ × Packet) :=
  (sent.outcome, sent.special, sent.vlanStatus, sent.ring, sent.writes)

/-- The calls of `rhandler` for one packet, between which the guest may do what it likes: as long as
they are refused the packet stays what it was, and a call that is not refused does what it would
have done with that packet. -/
def Retried (packet : Packet) : Packet → List Nic → Prop
  | _, [] => True
  | stored, nic :: nics =>
    if (sendToGuest nic stored).outcome.refused then
      (sendToGuest nic stored).stored = packet ∧
        Retried packet (sendToGuest nic stored).stored nics
    else (sendToGuest nic stored).seen = (sendToGuest nic packet).seen

/-- No call that is refused moves the addresses of the packet. -/
def Harmless (packet : Packet) : List Nic → Prop
  | [] => True
  | nic :: nics => Refuses nic packet → ¬ Moves nic packet ∧ Harmless packet nics

/-- A packet is offered to the guest unchanged exactly if no call that is refused took out a tag
before. -/
theorem retried_iff (packet : Packet) (nics : List Nic) :
    Retried packet packet nics ↔ Harmless packet nics := by
  induction nics with
  | nil => exact Iff.rfl
  | cons nic nics ih =>
    rw [Retried, Harmless, ← refused_sendToGuest_iff, ← sendToGuest_stored_eq_iff]
    split
    · rename_i hrefused
      simp only [hrefused, forall_const]
      refine and_congr_right fun hstored => ?_
      rw [hstored]
      exact ih
    · rename_i hrefused
      exact iff_of_true rfl fun h => absurd h hrefused

/-- A card in VLAN mode with four buffers, of which the guest has given away those before `rdt`. -/
def vlanNic (rdt : ℕ) : Nic where
  status := E1000_STATUS_LU
  ctrl := E1000_CTRL_VME
  rctl := E1000_RCTL_EN
  vet := 0x8100
  rdh := 0
  rdt
  rdlen := 64
  rxbufSize := 2048
  ring := fun i => ⟨4096 * (i + 1), 0, 0, 0⟩
  aligned := ⟨4, rfl⟩

def tagged : Packet :=
  [1, 2, 3, 4, 5, 6, 7, 8, 9, 10, 11, 12, 0x81, 0x00, 0x00, 0x05] ++ replicate 48 0

/-- The packet finds no buffer at first; when it is taken, its tag is gone and its addresses are
wrong. -/
theorem tagged_not_retried : ¬ Retried tagged tagged [vlanNic 0, vlanNic 3] ∧
      (sendToGuest (vlanNic 3) (sendToGuest (vlanNic 0) tagged).stored).vlanStatus = 0 ∧
      (sendToGuest (vlanNic 3) tagged).vlanStatus = E1000_RXD_STAT_VP := by
  refine ⟨?_, by decide +kernel, by decide +kernel⟩
  have hrefused : (sendToGuest (vlanNic 0) tagged).outcome.refused = true := by decide +kernel
  rw [Retried, if_pos hrefused]
  rintro ⟨hstored, -⟩
  exact absurd hstored (by decide +kernel)

end Refused

end VmFt.Net.Rx
