import VmFt.ColoProxy.Connection

/-! # Rewriting the TCP numbers of the secondary

Both guests answer a client, but each chooses its own initial sequence number. The
rewriter of the secondary adds the difference to the acknowledgements of the client
and takes it from the sequence numbers of the guest. It learns the difference from
the handshake: the number of the secondary from its SYN-ACK, that of the primary
from the first acknowledgement of the client.
-/

namespace VmFt.ColoProxy

def TH_SYN : BitVec 8 := 0x02
def TH_ACK : BitVec 8 := 0x10

section Handlers

variable (checksum : Frame → BitVec 16)

def netChecksumCalculate (pkt : Frame) : Frame := { pkt with thSum := checksum pkt }

/-- A packet to the secondary guest. -/
def handlePrimaryTcpPkt (conn : Connection) (pkt : Frame) : Connection × Frame :=
  let conn :=
    if pkt.thFlags &&& (TH_ACK ||| TH_SYN) = TH_SYN then { conn with synFlag := true } else conn
  if pkt.thFlags &&& (TH_ACK ||| TH_SYN) = TH_ACK then
    let conn :=
      if conn.synFlag then
        { conn with offset := conn.offset - (pkt.thAck - 1), synFlag := false }
      else conn
    (conn, netChecksumCalculate checksum { pkt with thAck := pkt.thAck + conn.offset })
  else (conn, pkt)

/-- A packet from the secondary guest. -/
def handleSecondaryTcpPkt (conn : Connection) (pkt : Frame) : Connection × Frame :=
  let conn :=
    if pkt.thFlags &&& (TH_ACK ||| TH_SYN) = TH_ACK ||| TH_SYN then
      { conn with offset := pkt.thSeq }
    else conn
  if pkt.thFlags &&& (TH_ACK ||| TH_SYN) = TH_ACK then
    (conn, netChecksumCalculate checksum { pkt with thSeq := pkt.thSeq - conn.offset })
  else (conn, pkt)

/-- A packet on its way to the guest, whose sender is the network device, or from the guest. -/
structure Arrival where
  toGuest : Bool
  pkt : Frame
deriving DecidableEq

/-- The packets of both directions are one connection. -/
def Arrival.key (e : Arrival) : ConnectionKey :=
  if e.toGuest then reverseConnectionKey (fillConnectionKey e.pkt) else fillConnectionKey e.pkt

def Arrival.handle (e : Arrival) (conn : Connection) : Connection × Frame :=
  if e.toGuest then handlePrimaryTcpPkt checksum conn e.pkt
  else handleSecondaryTcpPkt checksum conn e.pkt

/-- The table and the packet that is passed on. -/
def coloRewriterReceiveIov (table : Table) (e : Arrival) : Table × Frame :=
  if e.pkt.ipProto = IPPROTO_TCP then
    let table := connectionGet table e.key
    let (conn, pkt) := e.handle checksum (connectionOf table e.key)
    (table.insert e.key conn, pkt)
  else (table, e.pkt)

end Handlers

/-- What a packet is to the rewriter. -/
inductive Kind
  | clientSyn | clientAck | synAck | guestAck | other
deriving DecidableEq

def Arrival.kind (e : Arrival) : Kind :=
  if e.pkt.ipProto ≠ IPPROTO_TCP then .other
  else if e.toGuest then
    if e.pkt.thFlags &&& (TH_ACK ||| TH_SYN) = TH_SYN then .clientSyn
    else if e.pkt.thFlags &&& (TH_ACK ||| TH_SYN) = TH_ACK then .clientAck else .other
  else
    if e.pkt.thFlags &&& (TH_ACK ||| TH_SYN) = TH_ACK ||| TH_SYN then .synAck
    else if e.pkt.thFlags &&& (TH_ACK ||| TH_SYN) = TH_ACK then .guestAck else .other

/-- What a packet does to its connection. -/
def Arrival.next (e : Arrival) (conn : Connection) : Connection :=
  match e.kind with
  | .clientSyn => { conn with synFlag := true }
  | .clientAck =>
    if conn.synFlag then { conn with offset := conn.offset - (e.pkt.thAck - 1), synFlag := false }
    else conn
  | .synAck => { conn with offset := e.pkt.thSeq }
  | .guestAck | .other => conn

variable {checksum : Frame → BitVec 16} {conn : Connection} {e : Arrival} {table : Table}
  {k : ConnectionKey}

theorem handle_fst (htcp : e.pkt.ipProto = IPPROTO_TCP) :
    (e.handle checksum conn).1 = e.next conn := by
  have hne : TH_SYN ≠ TH_ACK := by decide
  have hne' : TH_ACK ||| TH_SYN ≠ TH_ACK := by decide
  unfold Arrival.handle Arrival.next Arrival.kind
  cases e.toGuest with
  | true =>
    by_cases hsyn : e.pkt.thFlags &&& (TH_ACK ||| TH_SYN) = TH_SYN
    · simp [handlePrimaryTcpPkt, htcp, hsyn, hne]
    · by_cases hack : e.pkt.thFlags &&& (TH_ACK ||| TH_SYN) = TH_ACK <;>
        simp [handlePrimaryTcpPkt, htcp, hsyn, hack, hne.symm]
  | false =>
    by_cases hsyn : e.pkt.thFlags &&& (TH_ACK ||| TH_SYN) = TH_ACK ||| TH_SYN
    · simp [handleSecondaryTcpPkt, htcp, hsyn, hne']
    · by_cases hack : e.pkt.thFlags &&& (TH_ACK ||| TH_SYN) = TH_ACK <;>
        simp [handleSecondaryTcpPkt, htcp, hsyn, hack, hne'.symm]

theorem ipProto_of_kind (h : e.kind ≠ .other) : e.pkt.ipProto = IPPROTO_TCP := by
  by_contra hp
  exact h (by simp [Arrival.kind, hp])

theorem of_kind_clientAck (h : e.kind = .clientAck) :
    e.toGuest = true ∧ e.pkt.thFlags &&& (TH_ACK ||| TH_SYN) = TH_ACK := by
  unfold Arrival.kind at h
  split_ifs at h
  exact ⟨by assumption, by assumption⟩

theorem of_kind_guestAck (h : e.kind = .guestAck) :
    e.toGuest = false ∧ e.pkt.thFlags &&& (TH_ACK ||| TH_SYN) = TH_ACK := by
  unfold Arrival.kind at h
  split_ifs at h with _ hg
  exact ⟨(Bool.not_eq_true _).mp hg, by assumption⟩

theorem handle_clientAck (h : e.kind = .clientAck) :
    (e.handle checksum conn).2.thAck = e.pkt.thAck + (e.next conn).offset := by
  obtain ⟨hg, hf⟩ := of_kind_clientAck h
  have hne : TH_ACK ≠ TH_SYN := by decide
  simp [Arrival.handle, Arrival.next, h, handlePrimaryTcpPkt, netChecksumCalculate, hg, hf, hne]

theorem handle_guestAck (h : e.kind = .guestAck) :
    (e.handle checksum conn).2.thSeq = e.pkt.thSeq - conn.offset := by
  obtain ⟨hg, hf⟩ := of_kind_guestAck h
  have hne : TH_ACK ≠ TH_ACK ||| TH_SYN := by decide
  simp [Arrival.handle, handleSecondaryTcpPkt, netChecksumCalculate, hg, hf, hne]

/-! ### One connection in the table -/

/-- The connection as it is when the packet is handled. -/
def found (table : Table) (e : Arrival) (k : ConnectionKey) : Connection :=
  if e.pkt.ipProto = IPPROTO_TCP ∧ Clears table e.key then connectionNew k
  else connectionOf table k

theorem connectionOf_receive : connectionOf (coloRewriterReceiveIov checksum table e).1 k =
      if e.key = k then e.next (found table e k) else found table e k := by
  unfold coloRewriterReceiveIov found
  by_cases htcp : e.pkt.ipProto = IPPROTO_TCP
  · rw [if_pos htcp]
    dsimp only
    rw [connectionOf_insert, connectionOf_connectionGet, handle_fst htcp]
    simp only [htcp, true_and, eq_comm (a := k)]
    split
    · rename_i hkey
      rw [hkey]
    · rw [connectionOf_connectionGet]
  · rw [if_neg htcp]
    simp [htcp, Arrival.next, Arrival.kind]

theorem receive_snd (htcp : e.pkt.ipProto = IPPROTO_TCP) :
    (coloRewriterReceiveIov checksum table e).2 = (e.handle checksum (found table e e.key)).2 := by
  unfold coloRewriterReceiveIov found
  rw [if_pos htcp]
  dsimp only
  rw [connectionOf_connectionGet]
  simp [htcp]

/-! ### What is asked of the rewriter -/

/-- An acknowledgement of the connection is moved by the difference of the initial numbers. -/
structure Rewritten (checksum : Frame → BitVec 16) (k : ConnectionKey) (diff : BitVec 32)
    (table : Table) (e : Arrival) : Prop where
  toGuest : e.key = k → e.kind = .clientAck →
    (coloRewriterReceiveIov checksum table e).2.thAck = e.pkt.thAck + diff
  fromGuest : e.key = k → e.kind = .guestAck →
    (coloRewriterReceiveIov checksum table e).2.thSeq = e.pkt.thSeq - diff

def AllRewritten (checksum : Frame → BitVec 16) (k : ConnectionKey) (diff : BitVec 32) :
    Table → List Arrival → Prop
  | _, [] => True
  | table, e :: es =>
    Rewritten checksum k diff table e ∧
      AllRewritten checksum k diff (coloRewriterReceiveIov checksum table e).1 es

def receiveAll (checksum : Frame → BitVec 16) (table : Table) (es : List Arrival) : Table :=
  es.foldl (fun table e => (coloRewriterReceiveIov checksum table e).1) table

/-! ### When it does -/

/-- What the offset of a connection stands for: what was there before the connection was opened; the
number of a SYN-ACK; the difference of the two numbers; what is left of the first when the client
acknowledges before the SYN-ACK; or nothing, when the table was cleared. -/
inductive Base
  | unset | synAck | settled | early | cleared
deriving DecidableEq

/-- The initial numbers of both guests, and the offset before the connection was opened. -/
structure Numbers where
  primary : BitVec 32
  secondary : BitVec 32
  before : BitVec 32
deriving DecidableEq

def Numbers.diff (n : Numbers) : BitVec 32 := n.secondary - n.primary

def Base.value (n : Numbers) : Base → BitVec 32
  | .unset => n.before
  | .synAck => n.secondary
  | .settled => n.diff
  | .early => n.before - n.primary
  | .cleared => 0

/-- What the offset stands for, and whether a SYN of the client came after its last
acknowledgement. -/
structure Phase where
  base : Base
  syn : Bool
deriving DecidableEq

/-- The phase when a packet is handled. -/
def Phase.found (p : Phase) (table : Table) (e : Arrival) : Phase :=
  if e.pkt.ipProto = IPPROTO_TCP ∧ Clears table e.key then ⟨.cleared, false⟩ else p

def Phase.next (p : Phase) (k : ConnectionKey) (e : Arrival) : Phase :=
  if e.key ≠ k then p
  else
    match e.kind with
    | .clientSyn => { p with syn := true }
    | .clientAck => ⟨.settled, false⟩
    | .synAck => { p with base := .synAck }
    | .guestAck | .other => p

/-- An acknowledgement finds the difference, or the client's leads to it. -/
structure Phase.Sound (p : Phase) (n : Numbers) (k : ConnectionKey) (e : Arrival) : Prop where
  clientAck : e.key = k → e.kind = .clientAck →
    (if p.syn then p.base.value n - (e.pkt.thAck - 1) else p.base.value n) = n.diff
  guestAck : e.key = k → e.kind = .guestAck → p.base.value n = n.diff

def AllSound (checksum : Frame → BitVec 16) (n : Numbers) (k : ConnectionKey) :
    Table → Phase → List Arrival → Prop
  | _, _, [] => True
  | table, p, e :: es =>
    (p.found table e).Sound n k e ∧
      AllSound checksum n k (coloRewriterReceiveIov checksum table e).1
        ((p.found table e).next k e) es

structure InPhase (n : Numbers) (p : Phase) (conn : Connection) : Prop where
  offset : conn.offset = p.base.value n
  syn : conn.synFlag = p.syn

variable {n : Numbers} {p : Phase} {es : List Arrival}

theorem InPhase.found (h : InPhase n p (connectionOf table k)) :
    InPhase n (p.found table e) (found table e k) := by
  unfold Phase.found ColoProxy.found
  split
  · exact ⟨rfl, rfl⟩
  · exact h

theorem InPhase.offset_clientAck (h : InPhase n p conn) (hk : e.kind = .clientAck) :
    (e.next conn).offset =
      if p.syn then p.base.value n - (e.pkt.thAck - 1) else p.base.value n := by
  rw [Arrival.next, hk, ← h.syn, ← h.offset]
  dsimp only
  split <;> rfl

theorem InPhase.next (h : InPhase n p conn) (hkey : e.key = k) (hs : p.Sound n k e)
    (hseq : e.kind = .synAck → e.pkt.thSeq = n.secondary) :
    InPhase n (p.next k e) (e.next conn) := by
  rw [Phase.next, if_neg (not_not_intro hkey)]
  cases hk : e.kind with
  | clientSyn => exact ⟨by simp [Arrival.next, hk, h.offset], by simp [Arrival.next, hk]⟩
  | clientAck =>
    refine ⟨(h.offset_clientAck hk).trans (hs.clientAck hkey hk), ?_⟩
    cases hsyn : conn.synFlag <;> simp [Arrival.next, hk, hsyn]
  | synAck => exact ⟨by simp [Arrival.next, hk, hseq hk, Base.value],
      by simp [Arrival.next, hk, h.syn]⟩
  | guestAck | other => exact ⟨by simp [Arrival.next, hk, h.offset],
      by simp [Arrival.next, hk, h.syn]⟩

theorem rewritten_iff_sound (h : InPhase n p (connectionOf table k)) :
    Rewritten checksum k n.diff table e ↔ (p.found table e).Sound n k e := by
  have hc (hkey : e.key = k) (hk : e.kind = .clientAck) :
      (coloRewriterReceiveIov checksum table e).2.thAck = e.pkt.thAck +
        if (p.found table e).syn then (p.found table e).base.value n - (e.pkt.thAck - 1)
        else (p.found table e).base.value n := by
    rw [receive_snd (ipProto_of_kind (by simp [hk])), handle_clientAck hk, hkey,
      h.found.offset_clientAck hk]
  have hg (hkey : e.key = k) (hk : e.kind = .guestAck) :
      (coloRewriterReceiveIov checksum table e).2.thSeq =
        e.pkt.thSeq - (p.found table e).base.value n := by
    rw [receive_snd (ipProto_of_kind (by simp [hk])), handle_guestAck hk, hkey, h.found.offset]
  constructor
  · rintro ⟨ht, hf⟩
    constructor
    · intro hkey hk
      exact (BitVec.add_right_inj _).mp ((hc hkey hk).symm.trans (ht hkey hk))
    · intro hkey hk
      have heq := (hg hkey hk).symm.trans (hf hkey hk)
      bv_omega
  · rintro ⟨hack, hseq⟩
    constructor
    · intro hkey hk
      rw [hc hkey hk, hack hkey hk]
    · intro hkey hk
      rw [hg hkey hk, hseq hkey hk]

theorem allRewritten_iff_allSound (h : InPhase n p (connectionOf table k))
    (hseq : ∀ e ∈ es, e.key = k → e.kind = .synAck → e.pkt.thSeq = n.secondary) :
    AllRewritten checksum k n.diff table es ↔ AllSound checksum n k table p es := by
  induction es generalizing table p with
  | nil => exact Iff.rfl
  | cons e es ih =>
    rw [AllRewritten, AllSound, rewritten_iff_sound h]
    refine and_congr_right fun hs => ih ?_ fun e he => hseq e (List.mem_cons_of_mem _ he)
    rw [connectionOf_receive]
    split
    · rename_i hkey
      exact h.found.next hkey hs (hseq e (List.mem_cons_self ..) hkey)
    · rename_i hkey
      rw [Phase.next, if_pos hkey]
      exact h.found

/-! ### The handshake -/

/-- The packets between the first SYN and the first acknowledgement of the client: SYNs and SYN-ACKs
of the connection, and any packets of others as long as the table is not cleared. -/
def Opening (checksum : Frame → BitVec 16) (n : Numbers) (k : ConnectionKey) :
    Table → List Arrival → Prop
  | _, [] => True
  | table, e :: es =>
    (e.key = k → e.kind = .clientSyn ∨ e.kind = .synAck ∧ e.pkt.thSeq = n.secondary) ∧
      ¬ (e.pkt.ipProto = IPPROTO_TCP ∧ Clears table e.key) ∧
      Opening checksum n k (coloRewriterReceiveIov checksum table e).1 es

def Answered (k : ConnectionKey) (es : List Arrival) : Prop :=
  ∃ e ∈ es, e.key = k ∧ e.kind = .synAck

instance (k : ConnectionKey) (es : List Arrival) : Decidable (Answered k es) := by
  unfold Answered
  infer_instance

/-- A connection is opened by the SYN and the acknowledgement of a client. -/
structure Handshake (checksum : Frame → BitVec 16) (n : Numbers) (k : ConnectionKey)
    (table : Table) (syn : Arrival) (middle : List Arrival) (ack : Arrival) : Prop where
  opened : syn.key = k ∧ syn.kind = .clientSyn
  before : n.before = (connectionOf table k).offset
  opening : Opening checksum n k (coloRewriterReceiveIov checksum table syn).1 middle
  acked : ack.key = k ∧ ack.kind = .clientAck ∧ ack.pkt.thAck = n.primary + 1

@[simp] theorem receiveAll_cons : receiveAll checksum table (e :: es) =
      receiveAll checksum (coloRewriterReceiveIov checksum table e).1 es := rfl

theorem answered_cons : Answered k (e :: es) ↔ (e.key = k ∧ e.kind = .synAck) ∨ Answered k es := by
  simp [Answered]

theorem InPhase.opening {base : Base} (ho : Opening checksum n k table es)
    (h : InPhase n ⟨base, true⟩ (connectionOf table k)) :
    InPhase n ⟨if Answered k es then .synAck else base, true⟩
      (connectionOf (receiveAll checksum table es) k) := by
  induction es generalizing table base with
  | nil => simpa [Answered, receiveAll] using h
  | cons e es ih =>
    obtain ⟨hk, hc, hrest⟩ := ho
    have hf : ColoProxy.found table e k = connectionOf table k := if_neg hc
    have hco : connectionOf (coloRewriterReceiveIov checksum table e).1 k =
        if e.key = k then e.next (connectionOf table k) else connectionOf table k := by
      rw [connectionOf_receive, hf]
    by_cases hkey : e.key = k
    · rw [if_pos hkey] at hco
      rcases hk hkey with hsyn | ⟨hack, hseq⟩
      · have hn : InPhase n ⟨base, true⟩
            (connectionOf (coloRewriterReceiveIov checksum table e).1 k) := by
          rw [hco]
          exact ⟨by simp [Arrival.next, hsyn, h.offset], by simp [Arrival.next, hsyn]⟩
        simpa [answered_cons, hsyn] using ih hrest hn
      · have hn : InPhase n ⟨.synAck, true⟩
            (connectionOf (coloRewriterReceiveIov checksum table e).1 k) := by
          rw [hco]
          exact ⟨by simp [Arrival.next, hack, hseq, Base.value],
            by simp [Arrival.next, hack, h.syn]⟩
        simpa [answered_cons, hack, hkey] using ih hrest hn
    · rw [if_neg hkey] at hco
      rw [← hco] at h
      simpa [answered_cons, hkey] using ih hrest h

theorem found_of_synFlag (h : (connectionOf table k).synFlag = true) (hkey : e.key = k) :
    found table e k = connectionOf table k := by
  refine if_neg ?_
  rintro ⟨-, hn, -⟩
  rw [connectionOf, ← hkey, hn] at h
  exact Bool.false_ne_true h

theorem Handshake.inPhase {syn ack : Arrival} {middle : List Arrival}
    (h : Handshake checksum n k table syn middle ack) :
    InPhase n ⟨if Answered k middle then .settled else .early, false⟩
      (connectionOf (receiveAll checksum table (syn :: middle ++ [ack])) k) := by
  obtain ⟨⟨hkey, hsyn⟩, hb, hop, hkey', hack, hfirst⟩ := h
  -- clearing the table makes no difference to a connection that is not there
  have hf : (found table syn k).offset = n.before := by
    unfold found
    split
    · rename_i hc
      rw [hb, connectionOf, ← hkey, hc.2.1]
      rfl
    · exact hb.symm
  have ho : InPhase n ⟨.unset, true⟩
      (connectionOf (coloRewriterReceiveIov checksum table syn).1 k) := by
    rw [connectionOf_receive, if_pos hkey]
    exact ⟨by simp [Arrival.next, hsyn, hf, Base.value], by simp [Arrival.next, hsyn]⟩
  have hw := ho.opening hop
  have hr : receiveAll checksum table (syn :: middle ++ [ack]) =
      (coloRewriterReceiveIov checksum
        (receiveAll checksum (coloRewriterReceiveIov checksum table syn).1 middle) ack).1 := by
    simp [receiveAll]
  rw [hr, connectionOf_receive, if_pos hkey', found_of_synFlag hw.syn hkey']
  refine ⟨?_, by simp [Arrival.next, hack, hw.syn]⟩
  rw [hw.offset_clientAck hack, if_pos rfl, hfirst]
  by_cases ha : Answered k middle
  · simp [ha, Base.value, Numbers.diff, BitVec.add_sub_cancel]
  · simp [ha, Base.value, BitVec.add_sub_cancel]

/-- Nothing opens the connection again, and the table is not cleared. -/
def Quiet (checksum : Frame → BitVec 16) (k : ConnectionKey) : Table → List Arrival → Prop
  | _, [] => True
  | table, e :: es =>
    (e.key = k → e.kind ≠ .clientSyn ∧ e.kind ≠ .synAck) ∧
      ¬ (e.pkt.ipProto = IPPROTO_TCP ∧ Clears table e.key) ∧
      Quiet checksum k (coloRewriterReceiveIov checksum table e).1 es

theorem allSound_of_quiet (h : Quiet checksum k table es) :
    AllSound checksum n k table ⟨.settled, false⟩ es := by
  induction es generalizing table with
  | nil => trivial
  | cons e es ih =>
    obtain ⟨hki, hc, hrest⟩ := h
    have hf : Phase.found ⟨.settled, false⟩ table e = ⟨.settled, false⟩ := if_neg hc
    have hn : Phase.next ⟨.settled, false⟩ k e = ⟨.settled, false⟩ := by
      unfold Phase.next
      split
      · rfl
      · rename_i hkey
        obtain ⟨hsyn, hs⟩ := hki (not_not.mp hkey)
        cases hk : e.kind <;> simp_all
    rw [AllSound, hf, hn]
    exact ⟨⟨fun _ _ => rfl, fun _ _ => rfl⟩, ih hrest⟩

/-- After the handshake every acknowledgement of a connection is moved by the difference of the
initial numbers, exactly if each of them finds the offset so or makes it so. -/
theorem allRewritten_iff {syn ack : Arrival} {middle : List Arrival}
    (hopen : Handshake checksum n k table syn middle ack)
    (hseq : ∀ e ∈ es, e.key = k → e.kind = .synAck → e.pkt.thSeq = n.secondary) :
    AllRewritten checksum k n.diff (receiveAll checksum table (syn :: middle ++ [ack])) es ↔
      AllSound checksum n k (receiveAll checksum table (syn :: middle ++ [ack]))
        ⟨if Answered k middle then .settled else .early, false⟩ es :=
  allRewritten_iff_allSound hopen.inPhase hseq

def segment (toGuest : Bool) (flags : BitVec 8) (seq ack : BitVec 32) : Arrival where
  toGuest
  pkt :=
    { ethernet := [], ipId := 0, ipOff := 0, ipSum := 0, ipProto := IPPROTO_TCP
      ipSrc := if toGuest then 1 else 2
      ipDst := if toGuest then 2 else 1
      srcPort := if toGuest then 3 else 4
      dstPort := if toGuest then 4 else 3
      thSeq := seq, thAck := ack, thFlags := flags, thSum := 0, rest := [] }

def segmentKey : ConnectionKey := ⟨2, 1, 4, 3, IPPROTO_TCP⟩

theorem segment_handshake :
    Handshake (fun _ => 0) ⟨1000, 5000, 0⟩ segmentKey ∅ (segment true TH_SYN 7 0)
      [segment false (TH_ACK ||| TH_SYN) 5000 8] (segment true TH_ACK 8 1001) := by
  refine ⟨by decide, by decide, ⟨fun _ => .inr (by decide), by decide, trivial⟩, by decide⟩

theorem segment_allRewritten : AllRewritten (fun _ => 0) segmentKey 4000
      (receiveAll (fun _ => 0) ∅ [segment true TH_SYN 7 0,
        segment false (TH_ACK ||| TH_SYN) 5000 8, segment true TH_ACK 8 1001])
      [segment false TH_ACK 5001 8, segment true TH_ACK 8 1101] :=
  (allRewritten_iff segment_handshake (by decide)).mpr
    (allSound_of_quiet ⟨by decide, by decide, by decide, by decide, trivial⟩)

/-- After a SYN-ACK or a SYN that is sent again the acknowledgements are moved by other numbers. -/
theorem segment_not_allRewritten : ¬ AllRewritten (fun _ => 0) segmentKey 4000
        (receiveAll (fun _ => 0) ∅ [segment true TH_SYN 7 0,
          segment false (TH_ACK ||| TH_SYN) 5000 8, segment true TH_ACK 8 1001])
        [segment false (TH_ACK ||| TH_SYN) 5000 8, segment false TH_ACK 5001 8] ∧
      ¬ AllRewritten (fun _ => 0) segmentKey 4000
        (receiveAll (fun _ => 0) ∅ [segment true TH_SYN 7 0,
          segment false (TH_ACK ||| TH_SYN) 5000 8, segment true TH_ACK 8 1001])
        [segment true TH_SYN 7 0, segment true TH_ACK 8 1001] := by
  constructor
  · rintro ⟨-, ⟨-, hfromGuest⟩, -⟩
    exact absurd (hfromGuest (by decide) (by decide)) (by decide)
  · rintro ⟨-, ⟨htoGuest, -⟩, -⟩
    exact absurd (htoGuest (by decide) (by decide)) (by decide)

end VmFt.ColoProxy
