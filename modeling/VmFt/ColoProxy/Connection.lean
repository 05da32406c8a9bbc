import Mathlib.Data.List.AList
import Mathlib.Data.Nat.Notation

/-! # The connections of the COLO proxy

The filters of the proxy sort the packets of a network card by connection. A hash
table holds a record for each connection that was seen. When a new connection is
met while the table is too large, the whole table is cleared first.
-/

namespace VmFt.ColoProxy

/-- The bytes of an IPv4 packet as the filters read them: the header fields they use, in host order,
and all other bytes behind the Ethernet header. -/
structure Frame where
  ethernet : List (BitVec 8)
  ipId : BitVec 16
  ipOff : BitVec 16
  ipSum : BitVec 16
  ipProto : BitVec 8
  ipSrc : BitVec 32
  ipDst : BitVec 32
  srcPort : BitVec 16
  dstPort : BitVec 16
  thSeq : BitVec 32
  thAck : BitVec 32
  thFlags : BitVec 8
  thSum : BitVec 16
  rest : List (BitVec 8)
deriving DecidableEq

structure Packet where
  address : ℕ
  data : Frame
deriving DecidableEq

def IPPROTO_ICMP : BitVec 8 := 1
def IPPROTO_TCP : BitVec 8 := 6
def IPPROTO_UDP : BitVec 8 := 17
def IPPROTO_DCCP : BitVec 8 := 33
def IPPROTO_ESP : BitVec 8 := 50
def IPPROTO_AH : BitVec 8 := 51
def IPPROTO_SCTP : BitVec 8 := 132
def IPPROTO_UDPLITE : BitVec 8 := 136

def HASHTABLE_MAX_SIZE : ℕ := 16384

structure ConnectionKey where
  src : BitVec 32
  dst : BitVec 32
  srcPort : BitVec 16
  dstPort : BitVec 16
  ipProto : BitVec 8
deriving DecidableEq

/-- The key of a packet. The protocols without ports share one connection whatever the addresses
are, and the ports of an authentication header are read from its second word. -/
def fillConnectionKey (pkt : Frame) : ConnectionKey :=
  if pkt.ipProto ∈ [IPPROTO_TCP, IPPROTO_UDP, IPPROTO_DCCP, IPPROTO_ESP, IPPROTO_SCTP,
      IPPROTO_UDPLITE] then
    ⟨pkt.ipSrc, pkt.ipDst, pkt.srcPort, pkt.dstPort, pkt.ipProto⟩
  else if pkt.ipProto = IPPROTO_AH then
    ⟨pkt.ipSrc, pkt.ipDst, pkt.thSeq.extractLsb' 16 16, pkt.thSeq.extractLsb' 0 16, pkt.ipProto⟩
  else ⟨0, 0, 0, 0, pkt.ipProto⟩

def reverseConnectionKey (key : ConnectionKey) : ConnectionKey :=
  { key with src := key.dst, dst := key.src, srcPort := key.dstPort, dstPort := key.srcPort }

structure Connection where
  primaryList : List Packet
  secondaryList : List Packet
  processing : Bool
  ipProto : BitVec 8
  offset : BitVec 32
  synFlag : Bool
deriving DecidableEq

def connectionNew (key : ConnectionKey) : Connection := ⟨[], [], false, key.ipProto, 0, false⟩

abbrev Table : Type := AList fun _ : ConnectionKey => Connection

def Table.size (table : Table) : ℕ := table.keys.length

/-- Whether `connection_get` clears the table. -/
def Clears (table : Table) (key : ConnectionKey) : Prop :=
  table.lookup key = none ∧ HASHTABLE_MAX_SIZE < table.size

instance (table : Table) (key : ConnectionKey) : Decidable (Clears table key) := by
  unfold Clears
  infer_instance

/-- The table after `connection_get`, in which the key has a connection. -/
def connectionGet (table : Table) (key : ConnectionKey) : Table :=
  match table.lookup key with
  | some _ => table
  | none =>
    (if HASHTABLE_MAX_SIZE < table.size then ∅ else table).insert key (connectionNew key)

/-- The connection of a key as `connection_get` would return it. -/
def connectionOf (table : Table) (key : ConnectionKey) : Connection :=
  (table.lookup key).getD (connectionNew key)

variable {table : Table} {key key' : ConnectionKey} {conn : Connection}

theorem lookup_connectionGet :
    (connectionGet table key).lookup key = some (connectionOf table key) := by
  unfold connectionGet connectionOf
  cases h : table.lookup key <;> simp [h]

theorem connectionOf_connectionGet : connectionOf (connectionGet table key') key =
      if Clears table key' then connectionNew key else connectionOf table key := by
  by_cases hkey : key = key'
  · subst hkey
    rw [connectionOf, lookup_connectionGet, Option.getD_some]
    split
    · rename_i h
      rw [connectionOf, h.1, Option.getD_none]
    · rfl
  · unfold connectionGet Clears
    split
    · rename_i h
      simp [h]
    · rename_i h
      rw [connectionOf, AList.lookup_insert_ne hkey]
      by_cases hs : HASHTABLE_MAX_SIZE < table.size <;> simp [h, hs, connectionOf]

theorem connectionOf_insert : connectionOf (table.insert key' conn) key =
      if key = key' then conn else connectionOf table key := by
  by_cases hkey : key = key'
  · subst hkey
    simp [connectionOf]
  · rw [if_neg hkey, connectionOf, AList.lookup_insert_ne hkey, connectionOf]

end VmFt.ColoProxy
