import VmFt.ColoProxy.Connection
import VmFt.Lib.GQueue
import VmFt.Lib.Transition

/-! # The comparison of the COLO proxy

The packets of the primary wait in the queue of their connection until the secondary
has sent the same packet or a checkpoint releases them. After each packet of either
side all connections are compared. The comparison takes the packets of the primary
from the tail of their queue, a checkpoint from the head.
-/

namespace VmFt.ColoProxy

open VmFt.GQueue VmFt.System List

def MAX_QUEUE_SIZE : ℕ := 1024
def ETH_HLEN : ℕ := 14
def IP_DF : BitVec 16 := 0x4000

/-- The size of a frame without the header fields, which take the same room in all frames. -/
def Frame.size (f : Frame) : ℕ := f.ethernet.length + f.rest.length

/-- The bytes from `ETH_HLEN` on. -/
def Frame.behindEthernet (f : Frame) : Frame := { f with ethernet := f.ethernet.drop ETH_HLEN }

def Frame.df (f : Frame) : Bool := f.ipOff &&& IP_DF != 0

def seqSorter (a b : Packet) : ℤ := (a.data.thSeq - b.data.thSeq).toInt

def coloPacketCompare (ppkt spkt : Frame) : Bool := ppkt == spkt

/-- Whether the packets are the same, and what becomes of the secondary's. -/
def coloPacketCompareTcp (spkt ppkt : Frame) : Frame × Bool :=
  if ppkt.size ≠ spkt.size then (spkt, false)
  else
    let spkt := if ppkt.df then { spkt with ipId := ppkt.ipId, ipSum := ppkt.ipSum } else spkt
    (spkt, ppkt.behindEthernet == spkt.behindEthernet)

def coloPacketCompareUdp (spkt ppkt : Frame) : Frame × Bool := (spkt, coloPacketCompare ppkt spkt)

/-- The length of the network header was checked when the packet was parsed. -/
def coloPacketCompareIcmp (spkt ppkt : Frame) : Frame × Bool :=
  if ppkt.size ≠ spkt.size then (spkt, false) else (spkt, coloPacketCompare ppkt spkt)

def coloPacketCompareOther (spkt ppkt : Frame) : Frame × Bool := (spkt, coloPacketCompare ppkt spkt)

/-- The comparison that `colo_compare_connection` chooses for a protocol. -/
def compareFor (ipProto : BitVec 8) : Frame → Frame → Frame × Bool :=
  if ipProto = IPPROTO_TCP then coloPacketCompareTcp
  else if ipProto = IPPROTO_UDP then coloPacketCompareUdp
  else if ipProto = IPPROTO_ICMP then coloPacketCompareIcmp
  else coloPacketCompareOther

def Same (ipProto : BitVec 8) (spkt ppkt : Packet) : Prop :=
  (compareFor ipProto spkt.data ppkt.data).2 = true

instance (ipProto : BitVec 8) (spkt ppkt : Packet) : Decidable (Same ipProto spkt ppkt) :=
  inferInstanceAs (Decidable (_ = _))

/-- The packet of the secondary after a comparison. -/
def rewritten (ipProto : BitVec 8) (ppkt spkt : Packet) : Packet :=
  { spkt with data := (compareFor ipProto spkt.data ppkt.data).1 }

def gQueueFindCustom (ipProto : BitVec 8) (ppkt : Packet) (secondary : List Packet) :
    List Packet × Option Packet :=
  findCustom (fun spkt => (rewritten ipProto ppkt spkt, decide (Same ipProto spkt ppkt))) secondary

def gQueueRemove (secondary : List Packet) (result : Packet) : List Packet :=
  secondary.eraseP fun spkt => spkt.address == result.address

/-- The outcome of a comparison: both queues, the primary's last packet first, the packets sent,
each with the one it was found the same as, and whether a checkpoint is asked for. -/
structure Compared where
  primary : List Packet
  secondary : List Packet
  sent : List (Packet × Packet)
  notify : Bool

/-- The loop of `colo_compare_connection` on the queue of the primary, the last packet first. -/
def compareLoop (ipProto : BitVec 8) : List Packet → List Packet → Compared
  | [], secondary => ⟨[], secondary, [], false⟩
  | pkt :: primary, secondary =>
    if secondary.isEmpty then ⟨pkt :: primary, secondary, [], false⟩
    else
      let search := gQueueFindCustom ipProto pkt secondary
      match search.2 with
      | none => ⟨pkt :: primary, search.1, [], true⟩
      | some result =>
        let rest := compareLoop ipProto primary (gQueueRemove search.1 result)
        { rest with sent := (pkt, result) :: rest.sent }

def Connection.compared (conn : Connection) : Compared :=
  compareLoop conn.ipProto conn.primaryList.reverse conn.secondaryList

def Connection.afterCompare (conn : Connection) : Connection :=
  { conn with
    primaryList := conn.compared.primary.reverse
    secondaryList := conn.compared.secondary }

/-- A call of `compare_chr_send`, after a comparison or at a checkpoint. -/
inductive Sent
  | same (pkt result : Packet)
  | flushed (pkt : Packet)
deriving DecidableEq

def Sent.pkt : Sent → Packet
  | .same pkt _ => pkt
  | .flushed pkt => pkt

/-- The state of the comparison with the packets received from both sides and all that was sent,
in order. -/
structure CompareState where
  table : Table
  connList : List ConnectionKey
  checkpointResult : Bool
  sent : List Sent
  primaryIn : List Packet
  secondaryIn : List Packet

def CompareState.init : CompareState := ⟨∅, [], false, [], [], []⟩

inductive Mode | primaryIn | secondaryIn
deriving DecidableEq

/-- `g_queue_push_tail`, and `g_queue_sort` for TCP. -/
def pushPacket (ipProto : BitVec 8) (queue : List Packet) (pkt : Packet) : List Packet :=
  if ipProto = IPPROTO_TCP then sort (fun a b => decide (seqSorter a b ≤ 0)) (queue ++ [pkt])
  else queue ++ [pkt]

/-- The connection with a packet in one of its queues, unless that is full. -/
def Connection.enqueue (conn : Connection) (mode : Mode) (pkt : Packet) : Connection :=
  match mode with
  | .primaryIn =>
    if conn.primaryList.length ≤ MAX_QUEUE_SIZE then
      { conn with primaryList := pushPacket conn.ipProto conn.primaryList pkt }
    else conn
  | .secondaryIn =>
    if conn.secondaryList.length ≤ MAX_QUEUE_SIZE then
      { conn with secondaryList := pushPacket conn.ipProto conn.secondaryList pkt }
    else conn

namespace CompareState

def conn (s : CompareState) (key : ConnectionKey) : Connection := connectionOf s.table key

/-- The list of connections is cleared with the table. -/
def packetEnqueue (s : CompareState) (mode : Mode) (pkt : Packet) : CompareState :=
  let key := fillConnectionKey pkt.data
  let connList := if Clears s.table key then [] else s.connList
  let table := connectionGet s.table key
  let conn := connectionOf table key
  { s with
    table := table.insert key ({ conn with processing := true }.enqueue mode pkt)
    connList := if conn.processing then connList else connList ++ [key] }

def coloCompareConnection (s : CompareState) (key : ConnectionKey) : CompareState :=
  { s with
    table := s.table.insert key (s.conn key).afterCompare
    sent := s.sent ++ (s.conn key).compared.sent.map fun x => .same x.1 x.2
    checkpointResult := s.checkpointResult || (s.conn key).compared.notify }

/-- The packets of the secondary are dropped. -/
def coloFlushConnection (s : CompareState) (key : ConnectionKey) : CompareState :=
  { s with
    table := s.table.insert key { s.conn key with primaryList := [], secondaryList := [] }
    sent := s.sent ++ (s.conn key).primaryList.map .flushed }

def coloCompareDoCheckpoint (s : CompareState) : CompareState :=
  s.connList.foldl coloFlushConnection s

def packetNew (s : CompareState) (frame : Frame) : Packet :=
  ⟨s.primaryIn.length + s.secondaryIn.length, frame⟩

/-- The state when a packet is in its queue and the comparison starts. -/
def received (s : CompareState) (mode : Mode) (frame : Frame) : CompareState :=
  let pkt := s.packetNew frame
  match mode with
  | .primaryIn => { s with primaryIn := s.primaryIn ++ [pkt] }.packetEnqueue mode pkt
  | .secondaryIn => { s with secondaryIn := s.secondaryIn ++ [pkt] }.packetEnqueue mode pkt

/-- `compare_pri_rs_finalize` and `compare_sec_rs_finalize`. -/
def finalize (s : CompareState) (mode : Mode) (frame : Frame) : CompareState :=
  let s := s.received mode frame
  s.connList.foldl coloCompareConnection s

end CompareState

inductive CompareEvent
  | arrives (mode : Mode) (frame : Frame)
  | checkpoint

def compareSystem : System CompareState CompareEvent where
  step s
    | .arrives mode frame => some (s.finalize mode frame)
    | .checkpoint => some s.coloCompareDoCheckpoint

section Frames

variable {ipProto : BitVec 8} {p q : Packet} {a b c : Frame}

theorem exists_compareFor_fst (ipProto : BitVec 8) (a b : Frame) : (compareFor ipProto a b).1 = a ∨
      ipProto = IPPROTO_TCP ∧ b.df = true ∧ a.size = b.size ∧
        (compareFor ipProto a b).1 = { a with ipId := b.ipId, ipSum := b.ipSum } := by
  unfold compareFor
  split_ifs with htcp hudp hi
  · unfold coloPacketCompareTcp
    split_ifs with hs hdf
    · exact .inl rfl
    · exact .inr ⟨htcp, hdf, (not_not.mp hs).symm, rfl⟩
    · exact .inl rfl
  · exact .inl rfl
  · unfold coloPacketCompareIcmp
    split_ifs <;> exact .inl rfl
  · exact .inl rfl

theorem same_rewritten : Same ipProto (rewritten ipProto p q) p ↔ Same ipProto q p := by
  unfold Same rewritten
  rcases exists_compareFor_fst ipProto q.data p.data with h | ⟨rfl, hdf, hs, h⟩
  · rw [h]
  · rw [h]
    unfold Frame.size at hs
    simp [compareFor, coloPacketCompareTcp, Frame.size, Frame.behindEthernet, hdf, hs]

end Frames

theorem gQueueFindCustom_of_forall_not {ipProto : BitVec 8} {ppkt : Packet}
    {secondary : List Packet} (h : ∀ q ∈ secondary, ¬Same ipProto q ppkt) :
    gQueueFindCustom ipProto ppkt secondary = (secondary.map (rewritten ipProto ppkt), none) := by
  have hn : (gQueueFindCustom ipProto ppkt secondary).2 = none := by
    rw [gQueueFindCustom, findCustom_eq_none_iff]
    exact fun q hq => decide_eq_false (h q hq)
  exact Prod.ext (findCustom_fst_of_none hn) hn

/-- What comparisons may have made of a packet of the secondary. -/
structure Derived (ipProto : BitVec 8) (q q' : Packet) : Prop where
  address : q'.address = q.address
  data : q'.data = { q.data with ipId := q'.data.ipId, ipSum := q'.data.ipSum }
  unchanged : ipProto ≠ IPPROTO_TCP → q'.data = q.data

section Derived

variable {ipProto : BitVec 8} {p q q' q'' : Packet} {primary secondary : List Packet}

theorem Derived.refl (q : Packet) : Derived ipProto q q := ⟨rfl, rfl, fun _ => rfl⟩

theorem Derived.trans (h : Derived ipProto q q') (h' : Derived ipProto q' q'') :
    Derived ipProto q q'' := by
  refine ⟨h'.address.trans h.address, ?_, fun hne => (h'.unchanged hne).trans (h.unchanged hne)⟩
  conv_lhs => rw [h'.data, h.data]

theorem derived_rewritten : Derived ipProto q (rewritten ipProto p q) := by
  unfold rewritten
  rcases exists_compareFor_fst ipProto q.data p.data with h | ⟨htcp, -, -, h⟩
  · rw [h]
    exact .refl q
  · rw [h]
    exact ⟨rfl, rfl, fun hne => absurd htcp hne⟩

theorem Derived.fillConnectionKey_eq (h : Derived ipProto q q') :
    fillConnectionKey q'.data = fillConnectionKey q.data := by
  rw [h.data]
  rfl

theorem derived_of_mem_gQueueFindCustom (h : q' ∈ (gQueueFindCustom ipProto p secondary).1) :
    ∃ q ∈ secondary, Derived ipProto q q' := by
  cases hf : (gQueueFindCustom ipProto p secondary).2 with
  | none =>
    rw [gQueueFindCustom, findCustom_fst_of_none hf] at h
    obtain ⟨q, hq, rfl⟩ := mem_map.mp h
    exact ⟨q, hq, derived_rewritten⟩
  | some r =>
    obtain ⟨before, x, after, rfl, -, rfl, hl⟩ := exists_of_findCustom hf
    rw [gQueueFindCustom, hl, mem_append, mem_cons] at h
    rcases h with h | rfl | h
    · obtain ⟨q, hq, rfl⟩ := mem_map.mp h
      exact ⟨q, mem_append_left _ hq, derived_rewritten⟩
    · exact ⟨x, by simp, derived_rewritten⟩
    · exact ⟨q', by simp [h], .refl q'⟩

theorem derived_of_found (h : (gQueueFindCustom ipProto p secondary).2 = some q') :
    Same ipProto q' p ∧ ∃ q ∈ secondary, Derived ipProto q q' := by
  obtain ⟨before, x, after, rfl, hs, rfl, -⟩ := exists_of_findCustom h
  exact ⟨same_rewritten.mpr (of_decide_eq_true hs), x, by simp, derived_rewritten⟩

theorem compareLoop_primary (ipProto : BitVec 8) (primary secondary : List Packet) :
    (compareLoop ipProto primary secondary).sent.map Prod.fst ++
      (compareLoop ipProto primary secondary).primary = primary := by
  induction primary generalizing secondary with
  | nil => rfl
  | cons pkt primary ih =>
    rw [compareLoop]
    split
    · rfl
    · dsimp only
      split
      · rfl
      · exact congrArg (pkt :: ·) (ih _)

theorem derived_of_mem_compareLoop (h : q' ∈ (compareLoop ipProto primary secondary).secondary) :
    ∃ q ∈ secondary, Derived ipProto q q' := by
  induction primary generalizing secondary with
  | nil => exact ⟨q', h, .refl q'⟩
  | cons pkt primary ih =>
    rw [compareLoop] at h
    split at h
    · exact ⟨q', h, .refl q'⟩
    · dsimp only at h
      split at h
      · exact derived_of_mem_gQueueFindCustom h
      · obtain ⟨q, hq, hd⟩ := ih h
        obtain ⟨q₀, hq₀, hd₀⟩ := derived_of_mem_gQueueFindCustom (mem_of_mem_eraseP hq)
        exact ⟨q₀, hq₀, hd₀.trans hd⟩

theorem same_of_mem_compareLoop {x : Packet × Packet}
    (h : x ∈ (compareLoop ipProto primary secondary).sent) :
    Same ipProto x.2 x.1 ∧ ∃ q ∈ secondary, Derived ipProto q x.2 := by
  induction primary generalizing secondary with
  | nil => cases h
  | cons pkt primary ih =>
    rw [compareLoop] at h
    split at h
    · cases h
    · dsimp only at h
      split at h
      · cases h
      · rename_i result hf
        rcases mem_cons.mp h with rfl | h
        · exact derived_of_found hf
        · obtain ⟨hs, q, hq, hd⟩ := ih h
          obtain ⟨q₀, hq₀, hd₀⟩ :=
            derived_of_mem_gQueueFindCustom (mem_of_mem_eraseP hq)
          exact ⟨hs, q₀, hq₀, hd₀.trans hd⟩

end Derived

section Queues

variable {conn : Connection} {mode : Mode} {pkt q : Packet} {queue : List Packet}

theorem pushPacket_perm (ipProto : BitVec 8) (queue : List Packet) (pkt : Packet) :
    (pushPacket ipProto queue pkt).Perm (queue ++ [pkt]) := by
  unfold pushPacket
  split
  · exact sort_perm _
  · exact .refl _

@[simp] theorem ipProto_enqueue : (conn.enqueue mode pkt).ipProto = conn.ipProto := by
  cases mode <;> unfold Connection.enqueue <;> dsimp only <;> split <;> rfl

theorem mem_primaryList_enqueue (h : q ∈ (conn.enqueue mode pkt).primaryList) :
    q ∈ conn.primaryList ∨ mode = .primaryIn ∧ q = pkt := by
  unfold Connection.enqueue at h
  cases mode with
  | primaryIn =>
    dsimp only at h
    split at h
    · rcases mem_append.mp ((pushPacket_perm _ _ _).mem_iff.mp h) with h | h
      · exact .inl h
      · exact .inr ⟨rfl, mem_singleton.mp h⟩
    · exact .inl h
  | secondaryIn =>
    dsimp only at h
    split at h <;> exact .inl h

theorem mem_secondaryList_enqueue (h : q ∈ (conn.enqueue mode pkt).secondaryList) :
    q ∈ conn.secondaryList ∨ mode = .secondaryIn ∧ q = pkt := by
  unfold Connection.enqueue at h
  cases mode with
  | primaryIn =>
    dsimp only at h
    split at h <;> exact .inl h
  | secondaryIn =>
    dsimp only at h
    split at h
    · rcases mem_append.mp ((pushPacket_perm _ _ _).mem_iff.mp h) with h | h
      · exact .inl h
      · exact .inr ⟨rfl, mem_singleton.mp h⟩
    · exact .inl h

end Queues

namespace CompareState

variable (s : CompareState) (mode : Mode) (frame : Frame) (key k : ConnectionKey)

theorem conn_coloCompareConnection : (s.coloCompareConnection key).conn k =
      if k = key then (s.conn key).afterCompare else s.conn k :=
  connectionOf_insert

theorem conn_coloFlushConnection : (s.coloFlushConnection key).conn k =
      if k = key then { s.conn key with primaryList := [], secondaryList := [] }
      else s.conn k :=
  connectionOf_insert

theorem conn_packetEnqueue (pkt : Packet) : (s.packetEnqueue mode pkt).conn k =
      if k = fillConnectionKey pkt.data then { s.conn k with processing := true }.enqueue mode pkt
      else if Clears s.table (fillConnectionKey pkt.data) then connectionNew k else s.conn k := by
  have hget : ∀ j, connectionOf (connectionGet s.table (fillConnectionKey pkt.data)) j =
      if Clears s.table (fillConnectionKey pkt.data) then connectionNew j
      else connectionOf s.table j := fun j => connectionOf_connectionGet
  unfold packetEnqueue conn
  rw [connectionOf_insert, hget k]
  refine if_ctx_congr Iff.rfl (fun hkey => ?_) fun _ => rfl
  rw [← hkey] at hget ⊢
  rw [hget k]
  split
  · rename_i hc
    rw [connectionOf, hc.1, Option.getD_none]
  · rfl

theorem conn_received : (s.received mode frame).conn k = if k = fillConnectionKey frame then
        { s.conn k with processing := true }.enqueue mode (s.packetNew frame)
      else if Clears s.table (fillConnectionKey frame) then connectionNew k else s.conn k := by
  cases mode with
  | primaryIn =>
    exact conn_packetEnqueue { s with primaryIn := s.primaryIn ++ [s.packetNew frame] } .primaryIn k
      (s.packetNew frame)
  | secondaryIn =>
    exact conn_packetEnqueue { s with secondaryIn := s.secondaryIn ++ [s.packetNew frame] }
      .secondaryIn k (s.packetNew frame)

theorem connList_received (h : ¬Clears s.table (fillConnectionKey frame)) :
    (s.received mode frame).connList =
      if (s.conn (fillConnectionKey frame)).processing then s.connList
      else s.connList ++ [fillConnectionKey frame] := by
  have hget : connectionOf (connectionGet s.table (fillConnectionKey frame))
      (fillConnectionKey frame) = s.conn (fillConnectionKey frame) := by
    rw [connectionOf_connectionGet, if_neg h]
    rfl
  have hl : (s.received mode frame).connList =
      if (connectionOf (connectionGet s.table (fillConnectionKey frame))
        (fillConnectionKey frame)).processing then
          if Clears s.table (fillConnectionKey frame) then [] else s.connList
      else (if Clears s.table (fillConnectionKey frame) then [] else s.connList) ++
        [fillConnectionKey frame] := by
    cases mode <;> rfl
  rw [hl, hget, if_neg h]

@[simp] theorem sent_received : (s.received mode frame).sent = s.sent := by
  cases mode <;> rfl

theorem in_foldl (f : CompareState → ConnectionKey → CompareState)
    (hf : ∀ s key, (f s key).primaryIn = s.primaryIn ∧ (f s key).secondaryIn = s.secondaryIn)
    (keys : List ConnectionKey) :
    (keys.foldl f s).primaryIn = s.primaryIn ∧ (keys.foldl f s).secondaryIn = s.secondaryIn :=
  foldlRecOn (motive := fun t => t.primaryIn = s.primaryIn ∧ t.secondaryIn = s.secondaryIn)
    keys f ⟨rfl, rfl⟩ fun t ht key _ => ⟨(hf t key).1.trans ht.1, (hf t key).2.trans ht.2⟩

end CompareState

structure Filed (s : CompareState) : Prop where
  ipProto : ∀ key, (s.conn key).ipProto = key.ipProto
  primary : ∀ key, ∀ p ∈ (s.conn key).primaryList, fillConnectionKey p.data = key
  secondary : ∀ key, ∀ q ∈ (s.conn key).secondaryList, fillConnectionKey q.data = key

section Filed

variable {s t : CompareState} {e : CompareEvent}

theorem filed_init : Filed CompareState.init :=
  ⟨fun _ => rfl, fun _ _ hp => (not_mem_nil hp).elim, fun _ _ hq => (not_mem_nil hq).elim⟩

theorem compared_primary (conn : Connection) :
    conn.compared.sent.map Prod.fst ++ conn.afterCompare.primaryList.reverse =
      conn.primaryList.reverse := by
  rw [Connection.afterCompare, reverse_reverse]
  exact compareLoop_primary ..

theorem mem_of_mem_compared_sent {conn : Connection} {x : Packet × Packet}
    (h : x ∈ conn.compared.sent) : x.1 ∈ conn.primaryList := by
  rw [← mem_reverse, ← compared_primary]
  exact mem_append_left _ (mem_map_of_mem h)

theorem mem_of_mem_afterCompare {conn : Connection} {p : Packet}
    (h : p ∈ conn.afterCompare.primaryList) : p ∈ conn.primaryList := by
  rw [← mem_reverse, ← compared_primary]
  exact mem_append_right _ (mem_reverse.mpr h)

theorem Filed.coloCompareConnection (h : Filed s) (key : ConnectionKey) :
    Filed (s.coloCompareConnection key) := by
  constructor
  · intro k
    rw [CompareState.conn_coloCompareConnection]
    split
    · rename_i hk
      exact hk ▸ h.ipProto key
    · exact h.ipProto k
  · intro k p hp
    rw [CompareState.conn_coloCompareConnection] at hp
    split at hp
    · rename_i hk
      exact hk ▸ h.primary key p (mem_of_mem_afterCompare hp)
    · exact h.primary k p hp
  · intro k q hq
    rw [CompareState.conn_coloCompareConnection] at hq
    split at hq
    · rename_i hk
      obtain ⟨q₀, hq₀, hd⟩ := derived_of_mem_compareLoop hq
      exact hk ▸ hd.fillConnectionKey_eq.trans (h.secondary key q₀ hq₀)
    · exact h.secondary k q hq

theorem Filed.coloFlushConnection (h : Filed s) (key : ConnectionKey) :
    Filed (s.coloFlushConnection key) := by
  constructor
  · intro k
    rw [CompareState.conn_coloFlushConnection]
    split
    · rename_i hk
      exact hk ▸ h.ipProto key
    · exact h.ipProto k
  · intro k p hp
    rw [CompareState.conn_coloFlushConnection] at hp
    split at hp
    · cases hp
    · exact h.primary k p hp
  · intro k q hq
    rw [CompareState.conn_coloFlushConnection] at hq
    split at hq
    · cases hq
    · exact h.secondary k q hq

theorem Filed.received (h : Filed s) (mode : Mode) (frame : Frame) :
    Filed (s.received mode frame) := by
  constructor
  · intro k
    rw [CompareState.conn_received]
    split_ifs
    · rw [ipProto_enqueue]
      exact h.ipProto k
    · rfl
    · exact h.ipProto k
  · intro k p hp
    rw [CompareState.conn_received] at hp
    split_ifs at hp with hk
    · rcases mem_primaryList_enqueue hp with hp | ⟨-, rfl⟩
      · exact h.primary k p hp
      · exact hk.symm
    · cases hp
    · exact h.primary k p hp
  · intro k q hq
    rw [CompareState.conn_received] at hq
    split_ifs at hq with hk
    · rcases mem_secondaryList_enqueue hq with hq | ⟨-, rfl⟩
      · exact h.secondary k q hq
      · exact hk.symm
    · cases hq
    · exact h.secondary k q hq

end Filed

structure Numbered (s : CompareState) : Prop where
  primary : s.primaryIn.Pairwise fun a b => a.address < b.address
  secondary : s.secondaryIn.Pairwise fun a b => a.address < b.address
  primary_lt : ∀ p ∈ s.primaryIn, p.address < s.primaryIn.length + s.secondaryIn.length
  secondary_lt : ∀ q ∈ s.secondaryIn, q.address < s.primaryIn.length + s.secondaryIn.length

section Numbered

variable {s t : CompareState} {e : CompareEvent}

theorem numbered_init : Numbered CompareState.init :=
  ⟨.nil, .nil, fun _ hp => (not_mem_nil hp).elim, fun _ hq => (not_mem_nil hq).elim⟩

theorem Numbered.eq_of_address_eq {q q' : Packet} (h : Numbered s) (hq : q ∈ s.secondaryIn)
    (hq' : q' ∈ s.secondaryIn) (ha : q.address = q'.address) : q = q' := by
  have hn : (s.secondaryIn.map Packet.address).Nodup :=
    pairwise_map.mpr (h.secondary.imp Nat.ne_of_lt)
  exact inj_on_of_nodup_map hn hq hq' ha

theorem Numbered.of_eq (h : Numbered s) (hp : t.primaryIn = s.primaryIn)
    (hs : t.secondaryIn = s.secondaryIn) : Numbered t := by
  obtain ⟨h₁, h₂, h₃, h₄⟩ := h
  rw [← hp] at h₁ h₃
  rw [← hs] at h₂ h₄
  exact ⟨h₁, h₂, hs ▸ h₃, hp ▸ h₄⟩

theorem Numbered.received (h : Numbered s) (mode : Mode) (frame : Frame) :
    Numbered (s.received mode frame) := by
  have ha : (s.packetNew frame).address = s.primaryIn.length + s.secondaryIn.length := rfl
  cases mode with
  | primaryIn =>
    have hpr : (s.received .primaryIn frame).primaryIn = s.primaryIn ++ [s.packetNew frame] :=
      rfl
    have hs : (s.received .primaryIn frame).secondaryIn = s.secondaryIn := rfl
    constructor
    · rw [hpr, pairwise_append]
      exact ⟨h.primary, pairwise_singleton .., by simpa [ha] using h.primary_lt⟩
    · exact h.secondary
    · intro p hp
      rw [hpr, mem_append, mem_singleton] at hp
      rw [hpr, hs, length_append, length_singleton]
      rcases hp with hp | rfl
      · have := h.primary_lt p hp
        omega
      · omega
    · intro q hq
      rw [hpr, hs, length_append, length_singleton]
      have := h.secondary_lt q hq
      omega
  | secondaryIn =>
    have hpr : (s.received .secondaryIn frame).primaryIn = s.primaryIn := rfl
    have hs : (s.received .secondaryIn frame).secondaryIn =
        s.secondaryIn ++ [s.packetNew frame] := rfl
    constructor
    · exact h.primary
    · rw [hs, pairwise_append]
      exact ⟨h.secondary, pairwise_singleton .., by simpa [ha] using h.secondary_lt⟩
    · intro p hp
      rw [hpr, hs, length_append, length_singleton]
      have := h.primary_lt p hp
      omega
    · intro q hq
      rw [hs, mem_append, mem_singleton] at hq
      rw [hpr, hs, length_append, length_singleton]
      rcases hq with hq | rfl
      · have := h.secondary_lt q hq
        omega
      · omega

theorem Numbered.step (h : Numbered s) (hst : compareSystem.step s e = some t) : Numbered t := by
  cases e with
  | arrives mode frame =>
    cases hst
    obtain ⟨hp, hs⟩ := (s.received mode frame).in_foldl
      CompareState.coloCompareConnection (fun _ _ => ⟨rfl, rfl⟩) (s.received mode frame).connList
    exact (h.received mode frame).of_eq hp hs
  | checkpoint =>
    cases hst
    obtain ⟨hp, hs⟩ :=
      s.in_foldl CompareState.coloFlushConnection (fun _ _ => ⟨rfl, rfl⟩) s.connList
    exact h.of_eq hp hs

end Numbered

def ofKey (key : ConnectionKey) (l : List Packet) : List Packet :=
  l.filter fun p => fillConnectionKey p.data = key

section OfKey

variable {key : ConnectionKey} {l l' : List Packet}

theorem ofKey_append : ofKey key (l ++ l') = ofKey key l ++ ofKey key l' := filter_append ..

theorem ofKey_of_forall {key' : ConnectionKey} (h : ∀ p ∈ l, fillConnectionKey p.data = key') :
    ofKey key l = if key = key' then l else [] := by
  split
  · rename_i hkey
    exact filter_eq_self.mpr fun p hp => decide_eq_true (hkey ▸ h p hp)
  · rename_i hkey
    exact filter_eq_nil_iff.mpr fun p hp heq =>
      hkey ((of_decide_eq_true heq).symm.trans (h p hp))

end OfKey

namespace CompareState

/-- The packets of a connection that were passed on, in order. -/
def released (s : CompareState) (key : ConnectionKey) : List Packet :=
  ofKey key (s.sent.map Sent.pkt)

/-- The packets of a connection that came from the primary, in order. -/
def arrived (s : CompareState) (key : ConnectionKey) : List Packet := ofKey key s.primaryIn

end CompareState

section Traffic

variable {s : CompareState}

theorem released_coloCompareConnection (h : Filed s) (key key' : ConnectionKey) :
    (s.coloCompareConnection key').released key =
      s.released key ++ if key = key' then (s.conn key').compared.sent.map Prod.fst else [] := by
  have hf : ∀ p ∈ (s.conn key').compared.sent.map Prod.fst,
      fillConnectionKey p.data = key' := by
    intro p hp
    obtain ⟨x, hx, rfl⟩ := mem_map.mp hp
    exact h.primary key' _ (mem_of_mem_compared_sent hx)
  rw [CompareState.released, CompareState.coloCompareConnection, map_append, ofKey_append,
    map_map, ← ofKey_of_forall hf]
  rfl

theorem released_coloFlushConnection (h : Filed s) (key key' : ConnectionKey) :
    (s.coloFlushConnection key').released key =
      s.released key ++ if key = key' then (s.conn key').primaryList else [] := by
  have hs : (s.conn key').primaryList.map (Sent.pkt ∘ Sent.flushed) =
      (s.conn key').primaryList := map_id _
  rw [CompareState.released, CompareState.coloFlushConnection, map_append, ofKey_append,
    map_map, hs, ofKey_of_forall (h.primary key')]
  rfl

theorem arrived_received (s : CompareState) (mode : Mode) (frame : Frame) (key : ConnectionKey) :
    (s.received mode frame).arrived key = s.arrived key ++
        if mode = .primaryIn ∧ fillConnectionKey frame = key then [s.packetNew frame] else [] := by
  cases mode with
  | primaryIn =>
    change ofKey key (s.primaryIn ++ [s.packetNew frame]) = _
    rw [ofKey_append]
    by_cases hkey : fillConnectionKey frame = key
    · simp [ofKey, CompareState.packetNew, CompareState.arrived, hkey]
    · simp [ofKey, CompareState.packetNew, CompareState.arrived, hkey]
  | secondaryIn => exact (List.append_nil _).symm

end Traffic

def datagram (payload : BitVec 8) : Frame :=
  ⟨[], 0, 0, 0, IPPROTO_UDP, 1, 2, 10, 20, 0, 0, 0, 0, [payload]⟩

def datagramKey : ConnectionKey := ⟨1, 2, 10, 20, IPPROTO_UDP⟩

end VmFt.ColoProxy
