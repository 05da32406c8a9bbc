import Mathlib.Algebra.Ring.Nat
import VmFt.ColoProxy.Compare

/-! # The order of the released packets

The comparison takes the packets of the primary from the tail of their queue. They
are released in the order of arrival as long as none is found the same as a packet
of the secondary while an older one of its connection waits, and the table of
connections is not cleared.
-/

namespace VmFt.ColoProxy

open VmFt.GQueue VmFt.System List

def Ahead (a b : Packet) : Prop := (b.data.thSeq - a.data.thSeq).toNat < 2 ^ 31

instance (a b : Packet) : Decidable (Ahead a b) := inferInstanceAs (Decidable (_ < _))

theorem seqSorter_le_zero {a b : Packet} (h : Ahead a b) : seqSorter a b ≤ 0 := by
  unfold Ahead at h
  have ha := a.data.thSeq.isLt
  have hb := b.data.thSeq.isLt
  rw [BitVec.toNat_sub] at h
  rw [seqSorter, BitVec.toInt_eq_toNat_cond, BitVec.toNat_sub]
  split <;> omega

/-- The packet does not make `connection_get` clear the table. -/
def TableKept (s : CompareState) : CompareEvent → Prop
  | .arrives _ frame => ¬Clears s.table (fillConnectionKey frame)
  | .checkpoint => True

variable (key : ConnectionKey)

/-- The packets of a TCP connection arrive in ascending order, within a window of those that
wait. -/
def Sequenced (s : CompareState) : CompareEvent → Prop
  | .arrives .primaryIn frame =>
    fillConnectionKey frame = key → key.ipProto = IPPROTO_TCP →
      ∀ q ∈ (s.conn key).primaryList, Ahead q (s.packetNew frame)
  | _ => True

/-- No packet of the connection is found the same as one of the secondary while an older one
waits: a new packet of the primary, or the last one that waits when the secondary's comes. -/
def InTurn (s : CompareState) : CompareEvent → Prop
  | .arrives .primaryIn frame =>
    fillConnectionKey frame = key → (s.conn key).primaryList = [] ∨
      ∀ q ∈ (s.conn key).secondaryList, ¬Same key.ipProto q (s.packetNew frame)
  | .arrives .secondaryIn frame =>
    fillConnectionKey frame = key → (s.conn key).primaryList.length ≤ 1 ∨
      ∀ last ∈ (s.conn key).primaryList.getLast?,
        ∀ q ∈ (s.conn key).secondaryList ++ [s.packetNew frame], ¬Same key.ipProto q last
  | .checkpoint => True

variable {key}

/-- The next comparison takes no packet before an older one. -/
def Ready (conn : Connection) : Prop :=
  conn.primaryList.length ≤ 1 ∨
    ∀ last ∈ conn.primaryList.getLast?, ∀ q ∈ conn.secondaryList, ¬Same conn.ipProto q last

theorem compareLoop_of_forall_not {ipProto : BitVec 8} {pkt : Packet} {secondary : List Packet}
    (primary : List Packet) (h : ∀ q ∈ secondary, ¬Same ipProto q pkt) :
    (compareLoop ipProto (pkt :: primary) secondary).sent = [] ∧
      (compareLoop ipProto (pkt :: primary) secondary).primary = pkt :: primary ∧
      ∀ q ∈ (compareLoop ipProto (pkt :: primary) secondary).secondary, ¬Same ipProto q pkt := by
  rw [compareLoop]
  split
  · exact ⟨rfl, rfl, h⟩
  · rw [gQueueFindCustom_of_forall_not h]
    refine ⟨rfl, rfl, ?_⟩
    intro q hq
    obtain ⟨q₀, hq₀, rfl⟩ := mem_map.mp hq
    exact mt same_rewritten.mp (h q₀ hq₀)

theorem reverse_of_length_le_one {l : List Packet} (h : l.length ≤ 1) : l.reverse = l := by
  rcases l with _ | ⟨a, _ | ⟨b, l⟩⟩
  · rfl
  · rfl
  · simp at h

theorem Ready.afterCompare {conn : Connection} (h : Ready conn) :
    conn.compared.sent.map Prod.fst ++ conn.afterCompare.primaryList = conn.primaryList ∧
      Ready conn.afterCompare := by
  by_cases hlen : conn.primaryList.length ≤ 1
  · have hs := compared_primary conn
    rw [reverse_of_length_le_one hlen] at hs
    have hle : conn.afterCompare.primaryList.length ≤ 1 := by
      rw [← hs, length_append, length_reverse] at hlen
      omega
    rw [reverse_of_length_le_one hle] at hs
    exact ⟨hs, .inl hle⟩
  · have hl := h.resolve_left hlen
    rcases eq_nil_or_concat' conn.primaryList with hnil | ⟨older, last, hp⟩
    · exact absurd (by rw [hnil]; exact Nat.zero_le 1) hlen
    have hc : conn.compared =
        compareLoop conn.ipProto (last :: older.reverse) conn.secondaryList := by
      rw [Connection.compared, hp, reverse_append]
      rfl
    obtain ⟨hsn, hk, hse⟩ := compareLoop_of_forall_not older.reverse
      (hl last (by rw [hp]; simp))
    rw [← hc] at hsn hk hse
    have ha : conn.afterCompare.primaryList = conn.primaryList := by
      rw [Connection.afterCompare, hk, hp]
      simp
    refine ⟨by rw [hsn, ha]; rfl, .inr ?_⟩
    intro last' hl' q hq
    rw [ha, hp, getLast?_append_cons] at hl'
    obtain rfl : last = last' := by simpa using hl'
    exact hse q hq

structure Orderly (key : ConnectionKey) (s : CompareState) : Prop where
  filed : Filed s
  inOrder : (s.released key ++ (s.conn key).primaryList).Sublist (s.arrived key)
  ready : Ready (s.conn key)
  sorted : key.ipProto = IPPROTO_TCP → (s.conn key).primaryList.Pairwise Ahead

section Steps

variable {s t : CompareState} {e : CompareEvent} {key' : ConnectionKey}

theorem Orderly.coloCompareConnection (h : Orderly key s) (key' : ConnectionKey) :
    Orderly key (s.coloCompareConnection key') := by
  obtain ⟨hse, hre⟩ := h.ready.afterCompare
  have hc := s.conn_coloCompareConnection key' key
  have hr := released_coloCompareConnection h.filed key key'
  by_cases hkey : key = key'
  · subst hkey
    rw [if_pos rfl] at hc hr
    refine ⟨h.filed.coloCompareConnection key, ?_, hc ▸ hre, ?_⟩
    · rw [hr, hc, append_assoc, hse]
      exact h.inOrder
    · intro htcp
      have hs := h.sorted htcp
      rw [← hse, pairwise_append] at hs
      exact hc ▸ hs.2.1
  · rw [if_neg hkey] at hc hr
    rw [List.append_nil] at hr
    refine ⟨h.filed.coloCompareConnection key', ?_, hc ▸ h.ready, hc ▸ h.sorted⟩
    rw [hr, hc]
    exact h.inOrder

theorem Orderly.coloFlushConnection (h : Orderly key s) (key' : ConnectionKey) :
    Orderly key (s.coloFlushConnection key') := by
  have hc := s.conn_coloFlushConnection key' key
  have hr := released_coloFlushConnection h.filed key key'
  by_cases hkey : key = key'
  · subst hkey
    rw [if_pos rfl] at hc hr
    refine ⟨h.filed.coloFlushConnection key, ?_, ?_, ?_⟩
    · rw [hr, hc, List.append_nil]
      exact h.inOrder
    · rw [hc]
      exact .inl (Nat.zero_le 1)
    · rw [hc]
      exact fun _ => .nil
  · rw [if_neg hkey] at hc hr
    rw [List.append_nil] at hr
    refine ⟨h.filed.coloFlushConnection key', ?_, hc ▸ h.ready, hc ▸ h.sorted⟩
    rw [hr, hc]
    exact h.inOrder

theorem pushPacket_eq_append {ipProto : BitVec 8} {queue : List Packet} {pkt : Packet}
    (h : ipProto = IPPROTO_TCP → (queue ++ [pkt]).Pairwise Ahead) :
    pushPacket ipProto queue pkt = queue ++ [pkt] := by
  unfold pushPacket
  split
  · rename_i htcp
    exact sort_eq_self ((h htcp).imp fun ha => decide_eq_true (seqSorter_le_zero ha))
  · rfl

theorem Orderly.received_primary {frame : Frame} (h : Orderly key s)
    (hkey : fillConnectionKey frame = key) (hse : Sequenced key s (.arrives .primaryIn frame))
    (ht : InTurn key s (.arrives .primaryIn frame)) :
    Orderly key (s.received .primaryIn frame) := by
  have ha := arrived_received s .primaryIn frame key
  rw [if_pos ⟨rfl, hkey⟩] at ha
  have hc := s.conn_received .primaryIn frame key
  rw [if_pos hkey.symm, Connection.enqueue] at hc
  dsimp only at hc
  have hr : (s.received .primaryIn frame).released key = s.released key := rfl
  have hp := h.filed.ipProto key
  have hs : key.ipProto = IPPROTO_TCP →
      ((s.conn key).primaryList ++ [s.packetNew frame]).Pairwise Ahead := by
    intro htcp
    rw [pairwise_append]
    exact ⟨h.sorted htcp, pairwise_singleton .., by simpa using hse hkey htcp⟩
  split at hc
  · rw [pushPacket_eq_append (hp ▸ hs)] at hc
    refine ⟨h.filed.received .primaryIn frame, ?_, ?_, ?_⟩
    · rw [hr, ha, hc, ← append_assoc]
      exact h.inOrder.append (List.Sublist.refl _)
    · rw [hc]
      rcases ht hkey with hnil | hnot
      · exact .inl (by rw [hnil]; exact Nat.le_refl 1)
      · refine .inr ?_
        intro last hl q hq
        obtain rfl : s.packetNew frame = last := by simpa using hl
        exact hp ▸ hnot q hq
    · rw [hc]
      exact hs
  · refine ⟨h.filed.received .primaryIn frame, ?_, ?_, ?_⟩
    · rw [hr, ha, hc]
      exact h.inOrder.trans (sublist_append_left ..)
    · rw [hc]
      exact h.ready
    · rw [hc]
      exact h.sorted

theorem Orderly.received_secondary {frame : Frame} (h : Orderly key s)
    (hkey : fillConnectionKey frame = key) (ht : InTurn key s (.arrives .secondaryIn frame)) :
    Orderly key (s.received .secondaryIn frame) := by
  have hc := s.conn_received .secondaryIn frame key
  rw [if_pos hkey.symm] at hc
  have hp : ((s.received .secondaryIn frame).conn key).primaryList =
      (s.conn key).primaryList := by
    rw [hc, Connection.enqueue]
    dsimp only
    split <;> rfl
  have hpr : ((s.received .secondaryIn frame).conn key).ipProto = key.ipProto :=
    (h.filed.received .secondaryIn frame).ipProto key
  refine ⟨h.filed.received .secondaryIn frame, ?_, ?_, hp ▸ h.sorted⟩
  · rw [hp]
    exact h.inOrder
  · unfold Ready
    rw [hp, hpr]
    refine (ht hkey).imp_right ?_
    intro hnot last hl q hq
    rw [hc] at hq
    rcases mem_secondaryList_enqueue hq with hq | ⟨-, rfl⟩
    · exact hnot last hl q (mem_append_left _ hq)
    · exact hnot last hl _ (by simp)

theorem Orderly.received_other {frame : Frame} (h : Orderly key s) (mode : Mode)
    (hkey : fillConnectionKey frame ≠ key) (hk : ¬Clears s.table (fillConnectionKey frame)) :
    Orderly key (s.received mode frame) := by
  have ha := arrived_received s mode frame key
  rw [if_neg fun h => hkey h.2, List.append_nil] at ha
  have hr : (s.received mode frame).released key = s.released key := by
    rw [CompareState.released, CompareState.sent_received]
    rfl
  have hc := s.conn_received mode frame key
  rw [if_neg hkey.symm, if_neg hk] at hc
  refine ⟨h.filed.received mode frame, ?_, hc ▸ h.ready, hc ▸ h.sorted⟩
  rw [hr, ha, hc]
  exact h.inOrder

theorem Orderly.step (h : Orderly key s) (hk : TableKept s e) (hse : Sequenced key s e)
    (ht : InTurn key s e) (hst : compareSystem.step s e = some t) : Orderly key t := by
  cases e with
  | arrives mode frame =>
    cases hst
    have hr : Orderly key (s.received mode frame) := by
      by_cases hkey : fillConnectionKey frame = key
      · cases mode with
        | primaryIn => exact h.received_primary hkey hse ht
        | secondaryIn => exact h.received_secondary hkey ht
      · exact h.received_other mode hkey hk
    exact foldlRecOn (motive := Orderly key) _ _ hr
      fun s hs key' _ => hs.coloCompareConnection key'
  | checkpoint =>
    cases hst
    exact foldlRecOn (motive := Orderly key) _ _ h
      fun s hs key' _ => hs.coloFlushConnection key'

end Steps

theorem orderly_init : Orderly key CompareState.init :=
  ⟨filed_init, .slnil, .inl (Nat.zero_le 1), fun _ => .nil⟩

/-- The packets of a connection are passed on in the order of their arrival, and those of a TCP
connection in the order of their sequence numbers if they arrive in it. -/
def InOrder (key : ConnectionKey) (s : CompareState) : Prop :=
  (s.released key).Pairwise (fun a b => a.address < b.address) ∧
    (key.ipProto = IPPROTO_TCP → (s.arrived key).Pairwise Ahead → (s.released key).Pairwise Ahead)

theorem released_inOrder {s : CompareState}
    (h : compareSystem.Run (fun s e => TableKept s e ∧ Sequenced key s e ∧ InTurn key s e)
      .init s) : InOrder key s := by
  have hinv : Orderly key s ∧ Numbered s := by
    refine Run.invariant (I := fun s => Orderly key s ∧ Numbered s) h
      ⟨orderly_init, numbered_init⟩ ?_
    rintro a e b ⟨horderly, hnumbered⟩ ⟨hkept, hsequenced, hturn⟩ hstep
    exact ⟨horderly.step hkept hsequenced hturn hstep, hnumbered.step hstep⟩
  have hsublist : (s.released key).Sublist (s.arrived key) :=
    (sublist_append_left ..).trans hinv.1.inOrder
  constructor
  · exact hinv.2.primary.sublist (hsublist.trans filter_sublist)
  · intro _ hahead
    exact hahead.sublist hsublist

instance (s : CompareState) (e : CompareEvent) : Decidable (TableKept s e) := by
  rcases e <;> unfold TableKept <;> infer_instance

instance (key : ConnectionKey) (s : CompareState) (e : CompareEvent) :
    Decidable (Sequenced key s e) := by
  rcases e with ⟨_ | _, _⟩ | _ <;> unfold Sequenced <;> infer_instance

instance (key : ConnectionKey) (s : CompareState) (e : CompareEvent) :
    Decidable (InTurn key s e) := by
  rcases e with ⟨_ | _, _⟩ | _ <;> unfold InTurn <;> infer_instance

instance (key : ConnectionKey) (s : CompareState) : Decidable (InOrder key s) := by
  unfold InOrder
  infer_instance

/-- Each packet of the primary is followed by the secondary's. -/
def turns : List CompareEvent :=
  [.arrives .primaryIn (datagram 1), .arrives .secondaryIn (datagram 1),
    .arrives .primaryIn (datagram 2), .arrives .secondaryIn (datagram 2)]

theorem turns_inOrder :
    ∃ s, compareSystem.exec
        (fun s e => TableKept s e ∧ Sequenced datagramKey s e ∧ InTurn datagramKey s e) .init
        turns = some s ∧ (s.released datagramKey).length = 2 ∧ InOrder datagramKey s :=
  ⟨_, rfl, by decide, released_inOrder (@exec_run _ _ compareSystem _ _ _ _ turns rfl)⟩

/-- Both packets of the secondary come after both of the primary. -/
def burst : List CompareEvent :=
  [.arrives .primaryIn (datagram 1), .arrives .primaryIn (datagram 2),
    .arrives .secondaryIn (datagram 1), .arrives .secondaryIn (datagram 2)]

theorem burst_not_inOrder : ∃ s, compareSystem.exec (Sequenced datagramKey) .init burst = some s ∧
      s.primaryIn.map Packet.data = s.secondaryIn.map Packet.data ∧
      (s.released datagramKey).map Packet.data = [datagram 2, datagram 1] ∧
      ¬InOrder datagramKey s := by
  refine ⟨_, rfl, ?_, ?_, ?_⟩ <;> decide

end VmFt.ColoProxy
