import VmFt.ColoProxy.Compare

/-! # The output of the primary

Every packet of the primary is passed on once: when a packet of the secondary that
waits is found the same, and else by the next checkpoint. It gets lost when the queue
of its connection is full or the table of the connections is cleared.
-/

namespace VmFt.ColoProxy

open VmFt.GQueue VmFt.System List

def Frame.withoutId (f : Frame) : Frame := { f.behindEthernet with ipId := 0, ipSum := 0 }

/-- The packets are equal; for TCP with DF, up to Ethernet header, IP id and IP checksum. -/
def Equals (p q : Frame) : Prop :=
  if p.ipProto = IPPROTO_TCP ∧ p.df then p.size = q.size ∧ p.withoutId = q.withoutId else p = q

section Equality

variable {ipProto : BitVec 8} {p q r : Packet}

theorem fillConnectionKey_ipProto (f : Frame) : (fillConnectionKey f).ipProto = f.ipProto := by
  unfold fillConnectionKey
  split_ifs <;> rfl

theorem same_tcp (h : Same IPPROTO_TCP r p) (hdf : p.data.df = true) :
    p.data.size = r.data.size ∧ p.data.withoutId = r.data.withoutId := by
  rw [Same, compareFor, if_pos rfl, coloPacketCompareTcp, if_pos hdf] at h
  split at h
  · cases h
  · rename_i hs
    have hf := congrArg (fun f : Frame => { f with ipId := 0, ipSum := 0 }) (eq_of_beq h)
    exact ⟨not_not.mp hs, hf⟩

theorem eq_of_same (h : Same ipProto r p) (hne : ipProto ≠ IPPROTO_TCP) : p.data = r.data := by
  rw [Same, compareFor, if_neg hne] at h
  split_ifs at h
  · exact eq_of_beq h
  · unfold coloPacketCompareIcmp at h
    split at h
    · cases h
    · exact eq_of_beq h
  · exact eq_of_beq h

theorem equals_of_same (h : Same ipProto r p) (hd : Derived ipProto q r)
    (hp : p.data.ipProto = ipProto) (hdf : ipProto = IPPROTO_TCP → p.data.df = true) :
    Equals p.data q.data := by
  unfold Equals
  by_cases htcp : ipProto = IPPROTO_TCP
  · subst htcp
    obtain ⟨hs, hf⟩ := same_tcp h (hdf rfl)
    rw [if_pos ⟨hp, hdf rfl⟩]
    rw [hd.data] at hs hf
    exact ⟨hs, hf⟩
  · rw [if_neg fun hand => htcp (hp ▸ hand.1)]
    exact (eq_of_same h htcp).trans (hd.unchanged htcp)

end Equality

/-- The packet of the secondary that a packet was found the same as. -/
def Sent.used : Sent → Option ℕ
  | .same _ result => some result.address
  | .flushed _ => none

def CompareState.used (s : CompareState) : List ℕ := s.sent.filterMap Sent.used

/-- A packet is neither turned away from a full queue nor lost with the table, and a TCP packet
of the primary must not be fragmented. -/
def Kept (s : CompareState) : CompareEvent → Prop
  | .arrives mode frame =>
    ¬Clears s.table (fillConnectionKey frame) ∧
      (mode = .primaryIn → (s.conn (fillConnectionKey frame)).primaryList.length ≤ MAX_QUEUE_SIZE ∧
          (frame.ipProto = IPPROTO_TCP → frame.df = true))
  | .checkpoint => True

/-- A packet was found the same as one of the secondary that waited in its connection. -/
def Justified (s : CompareState) (x : Packet × Packet) : Prop :=
  ∃ q ∈ s.secondaryIn, q.address = x.2.address ∧
    fillConnectionKey q.data = fillConnectionKey x.1.data ∧ Equals x.1.data q.data ∧
    q.address ∈ (s.conn (fillConnectionKey x.1.data)).secondaryList.map Packet.address

/-- What a step from `s` to `t` has to do. -/
structure Conserves (s : CompareState) (e : CompareEvent) (t : CompareState) : Prop where
  nodup : t.primaryIn.Nodup
  once : ∀ key, (t.released key ++ (t.conn key).primaryList).Perm (t.arrived key)
  flushed : e = .checkpoint → ∀ key, (t.conn key).primaryList = []
  justified : ∀ mode frame, e = .arrives mode frame →
    ∃ pairs : List (Packet × Packet),
      t.sent = s.sent ++ pairs.map (fun x => .same x.1 x.2) ∧
        ∀ x ∈ pairs, Justified (s.received mode frame) x
  single : t.used.Nodup

theorem gQueueRemove_perm {secondary : List Packet} {result : Packet} (h : result ∈ secondary) :
    (result.address :: (gQueueRemove secondary result).map Packet.address).Perm
      (secondary.map Packet.address) := by
  obtain ⟨found, before, after, -, hf, rfl, hr⟩ :=
    exists_of_eraseP (p := fun q => q.address == result.address) h (beq_self_eq_true _)
  rw [gQueueRemove, hr, map_append, map_append, map_cons, beq_iff_eq.mp hf]
  exact perm_middle.symm

theorem compareLoop_addresses (ipProto : BitVec 8) (primary secondary : List Packet) :
    ((compareLoop ipProto primary secondary).sent.map (fun x => x.2.address) ++
      (compareLoop ipProto primary secondary).secondary.map Packet.address).Perm
        (secondary.map Packet.address) := by
  induction primary generalizing secondary with
  | nil => exact .refl _
  | cons pkt primary ih =>
    have hs : (gQueueFindCustom ipProto pkt secondary).1.map Packet.address =
        secondary.map Packet.address := map_findCustom fun _ => rfl
    rw [compareLoop]
    split
    · exact .refl _
    · dsimp only
      split
      · rw [hs]
        exact .refl _
      · rename_i result hf
        rw [← hs]
        exact ((ih _).cons result.address).trans (gQueueRemove_perm (mem_findCustom hf))

structure Accounted (s : CompareState) : Prop where
  filed : Filed s
  numbered : Numbered s
  once : ∀ key, (s.released key ++ (s.conn key).primaryList).Perm (s.arrived key)
  df : ∀ key, key.ipProto = IPPROTO_TCP → ∀ p ∈ (s.conn key).primaryList, p.data.df = true
  processing : ∀ key, (s.conn key).processing = true → key ∈ s.connList
  listed : ∀ key, key ∉ s.connList → (s.conn key).primaryList = []

structure Matched (s : CompareState) : Prop where
  origin : ∀ key, ∀ q ∈ (s.conn key).secondaryList,
    ∃ q₀ ∈ s.secondaryIn, Derived key.ipProto q₀ q
  distinct : ∀ key, ((s.conn key).secondaryList.map Packet.address).Nodup
  single : s.used.Nodup
  used_origin : ∀ a ∈ s.used, ∃ q ∈ s.secondaryIn, q.address = a
  unused : ∀ key, ∀ q ∈ (s.conn key).secondaryList, q.address ∉ s.used

theorem accounted_init : Accounted CompareState.init where
  filed := filed_init
  numbered := numbered_init
  once _ := .refl _
  df _ _ _ hp := (not_mem_nil hp).elim
  processing _ h := nomatch h
  listed _ _ := rfl

theorem matched_init : Matched CompareState.init where
  origin _ _ hq := (not_mem_nil hq).elim
  distinct _ := .nil
  single := .nil
  used_origin _ ha := (not_mem_nil ha).elim
  unused _ _ hq := (not_mem_nil hq).elim

section Comparing

variable {s : CompareState} {key key' : ConnectionKey} {q q' : Packet}

theorem compared_perm (conn : Connection) :
    (conn.compared.sent.map Prod.fst ++ conn.afterCompare.primaryList).Perm conn.primaryList := by
  have hr := reverse_perm conn.primaryList
  rw [← compared_primary] at hr
  exact ((reverse_perm _).symm.append_left _).trans hr

theorem Accounted.coloCompareConnection (h : Accounted s) (key' : ConnectionKey) :
    Accounted (s.coloCompareConnection key') := by
  have hc := s.conn_coloCompareConnection key'
  refine ⟨h.filed.coloCompareConnection key', h.numbered.of_eq rfl rfl, ?_, ?_, ?_, ?_⟩
  · intro key
    rw [released_coloCompareConnection h.filed, hc]
    split
    · rename_i hkey
      subst hkey
      rw [append_assoc]
      exact ((compared_perm _).append_left _).trans (h.once key)
    · rw [List.append_nil]
      exact h.once key
  · intro key htcp p hp
    rw [hc] at hp
    split at hp
    · rename_i hkey
      subst hkey
      exact h.df key htcp p (mem_of_mem_afterCompare hp)
    · exact h.df key htcp p hp
  · intro key hpr
    rw [hc] at hpr
    split at hpr
    · rename_i hkey
      subst hkey
      exact h.processing key hpr
    · exact h.processing key hpr
  · intro key hl
    rw [hc]
    split
    · rename_i hkey
      subst hkey
      refine eq_nil_iff_forall_not_mem.mpr fun p hp => ?_
      exact eq_nil_iff_forall_not_mem.mp (h.listed key hl) p (mem_of_mem_afterCompare hp)
    · exact h.listed key hl

theorem Matched.key_eq (h : Matched s) (hf : Filed s) (hn : Numbered s)
    (hq : q ∈ (s.conn key).secondaryList) (hq' : q' ∈ (s.conn key').secondaryList)
    (ha : q.address = q'.address) : key = key' := by
  obtain ⟨o, ho, hd⟩ := h.origin key q hq
  obtain ⟨o', ho', hd'⟩ := h.origin key' q' hq'
  have hs : o = o' := hn.eq_of_address_eq ho ho'
    (by rw [← hd.address, ← hd'.address, ha])
  calc
    key = fillConnectionKey q.data := (hf.secondary key q hq).symm
    _ = fillConnectionKey o.data := hd.fillConnectionKey_eq
    _ = fillConnectionKey o'.data := by rw [hs]
    _ = fillConnectionKey q'.data := hd'.fillConnectionKey_eq.symm
    _ = key' := hf.secondary key' q' hq'

theorem used_coloCompareConnection (s : CompareState) (key : ConnectionKey) :
    (s.coloCompareConnection key).used =
      s.used ++ (s.conn key).compared.sent.map fun x => x.2.address := by
  rw [CompareState.used, CompareState.coloCompareConnection, filterMap_append,
    filterMap_map, ← filterMap_eq_map]
  rfl

theorem compared_addresses (conn : Connection) : ((conn.compared.sent.map fun x => x.2.address) ++
      conn.afterCompare.secondaryList.map Packet.address).Perm
        (conn.secondaryList.map Packet.address) :=
  compareLoop_addresses ..

theorem Matched.coloCompareConnection (h : Matched s) (hf : Filed s) (hnu : Numbered s)
    (key' : ConnectionKey) : Matched (s.coloCompareConnection key') := by
  have hc := s.conn_coloCompareConnection key'
  have hu := used_coloCompareConnection s key'
  have hn := (compared_addresses (s.conn key')).nodup_iff.mpr (h.distinct key')
  have hdi := disjoint_of_nodup_append hn
  have hsub : ∀ a ∈ (s.conn key').compared.sent.map (fun x => x.2.address),
      ∃ q ∈ (s.conn key').secondaryList, q.address = a := by
    intro a ha
    exact mem_map.mp ((compared_addresses _).mem_iff.mp (mem_append_left _ ha))
  have hl : ∀ q ∈ (s.conn key').afterCompare.secondaryList,
      ∃ q₀ ∈ (s.conn key').secondaryList, Derived key'.ipProto q₀ q := by
    intro q hq
    rw [← hf.ipProto key']
    exact derived_of_mem_compareLoop hq
  constructor
  · intro key q hq
    rw [hc] at hq
    split at hq
    · rename_i hkey
      subst hkey
      obtain ⟨q₁, hq₁, hd₁⟩ := hl q hq
      obtain ⟨q₀, hq₀, hd₀⟩ := h.origin key q₁ hq₁
      exact ⟨q₀, hq₀, hd₀.trans hd₁⟩
    · exact h.origin key q hq
  · intro key
    rw [hc]
    split
    · exact hn.of_append_right
    · exact h.distinct key
  · rw [hu]
    refine h.single.append hn.of_append_left fun a ha ha' => ?_
    obtain ⟨q, hq, rfl⟩ := hsub a ha'
    exact h.unused key' q hq ha
  · intro a ha
    rw [hu, mem_append] at ha
    rcases ha with ha | ha
    · exact h.used_origin a ha
    · obtain ⟨q, hq, had⟩ := hsub a ha
      obtain ⟨q₀, hq₀, hd⟩ := h.origin key' q hq
      exact ⟨q₀, hq₀, hd.address.symm.trans had⟩
  · intro key q hq
    rw [hu, mem_append]
    rw [hc] at hq
    rintro (ha | ha)
    · split at hq
      · obtain ⟨q₀, hq₀, hd⟩ := hl q hq
        exact h.unused key' q₀ hq₀ (hd.address ▸ ha)
      · exact h.unused key q hq ha
    · split at hq
      · exact hdi ha (mem_map_of_mem hq)
      · rename_i hkey
        obtain ⟨q', hq', had⟩ := hsub _ ha
        exact hkey (h.key_eq hf hnu hq hq' had.symm)

end Comparing

section Flushing

variable {s : CompareState}

theorem Accounted.coloFlushConnection (h : Accounted s) (key' : ConnectionKey) :
    Accounted (s.coloFlushConnection key') := by
  have hc := s.conn_coloFlushConnection key'
  refine ⟨h.filed.coloFlushConnection key', h.numbered.of_eq rfl rfl, ?_, ?_, ?_, ?_⟩
  · intro key
    rw [released_coloFlushConnection h.filed, hc]
    split
    · rename_i hkey
      subst hkey
      rw [List.append_nil]
      exact h.once key
    · rw [List.append_nil]
      exact h.once key
  · intro key htcp p hp
    rw [hc] at hp
    split at hp
    · cases hp
    · exact h.df key htcp p hp
  · intro key hpr
    rw [hc] at hpr
    split at hpr
    · rename_i hkey
      subst hkey
      exact h.processing key hpr
    · exact h.processing key hpr
  · intro key hl
    rw [hc]
    split
    · rfl
    · exact h.listed key hl

theorem used_coloFlushConnection (s : CompareState) (key : ConnectionKey) :
    (s.coloFlushConnection key).used = s.used := by
  rw [CompareState.used, CompareState.coloFlushConnection, filterMap_append,
    filterMap_map]
  simp [Sent.used, Function.comp_def, CompareState.used]

theorem Matched.coloFlushConnection (h : Matched s) (key' : ConnectionKey) :
    Matched (s.coloFlushConnection key') := by
  have hc := s.conn_coloFlushConnection key'
  have hu := used_coloFlushConnection s key'
  refine ⟨?_, ?_, hu ▸ h.single, hu ▸ h.used_origin, ?_⟩
  · intro key q hq
    rw [hc] at hq
    split at hq
    · cases hq
    · exact h.origin key q hq
  · intro key
    rw [hc]
    split
    · exact .nil
    · exact h.distinct key
  · intro key q hq
    rw [hu]
    rw [hc] at hq
    split at hq
    · cases hq
    · exact h.unused key q hq

theorem primaryList_foldl_coloFlushConnection (keys : List ConnectionKey) (s : CompareState)
    (key : ConnectionKey) : ((keys.foldl CompareState.coloFlushConnection s).conn key).primaryList =
      if key ∈ keys then [] else (s.conn key).primaryList := by
  induction keys generalizing s with
  | nil => rfl
  | cons key' keys ih =>
    rw [foldl_cons, ih, s.conn_coloFlushConnection]
    by_cases hk : key ∈ keys
    · simp [hk]
    · by_cases hkey : key = key'
      · simp [hkey]
      · simp [hk, hkey]

end Flushing

section Receiving

variable {s : CompareState} {mode : Mode} {frame : Frame}

theorem primaryList_enqueue_perm (conn : Connection) (pkt : Packet)
    (h : mode = .primaryIn → conn.primaryList.length ≤ MAX_QUEUE_SIZE) :
    (conn.enqueue mode pkt).primaryList.Perm
      (conn.primaryList ++ if mode = .primaryIn then [pkt] else []) := by
  cases mode with
  | primaryIn =>
    rw [Connection.enqueue, if_pos (h rfl)]
    exact pushPacket_perm ..
  | secondaryIn =>
    rw [if_neg (by decide), List.append_nil, Connection.enqueue]
    split <;> exact .refl _

theorem nodup_secondaryList_enqueue {conn : Connection} {pkt : Packet}
    (h : (conn.secondaryList.map Packet.address).Nodup)
    (hpkt : pkt.address ∉ conn.secondaryList.map Packet.address) :
    ((conn.enqueue mode pkt).secondaryList.map Packet.address).Nodup := by
  unfold Connection.enqueue
  cases mode with
  | primaryIn =>
    dsimp only
    split <;> exact h
  | secondaryIn =>
    dsimp only
    split
    · refine ((pushPacket_perm _ _ _).map _).nodup_iff.mpr ?_
      rw [map_append, map_singleton]
      exact h.append (nodup_singleton _) (by simpa using hpkt)
    · exact h

theorem mem_connList_received (hk : ¬Clears s.table (fillConnectionKey frame))
    (key : ConnectionKey) : key ∈ (s.received mode frame).connList ↔ key ∈ s.connList ∨
        (s.conn (fillConnectionKey frame)).processing = false ∧ key = fillConnectionKey frame := by
  rw [s.connList_received mode frame hk]
  split
  · rename_i hp
    simp [hp]
  · rename_i hp
    simp [hp]

theorem Accounted.received (h : Accounted s) (hk : Kept s (.arrives mode frame)) :
    Accounted (s.received mode frame) := by
  obtain ⟨hc, hpri⟩ := hk
  have hco := s.conn_received mode frame
  simp only [if_neg hc] at hco
  refine ⟨h.filed.received mode frame, h.numbered.received mode frame, ?_, ?_, ?_, ?_⟩
  · intro key
    have hr : (s.received mode frame).released key = s.released key := by
      rw [CompareState.released, CompareState.sent_received]
      rfl
    rw [hr, arrived_received, hco]
    by_cases hkey : key = fillConnectionKey frame
    · subst hkey
      rw [if_pos rfl]
      simp only [and_true]
      refine ((primaryList_enqueue_perm { s.conn _ with processing := true } _
        fun hm => (hpri hm).1).append_left _).trans ?_
      rw [← append_assoc]
      exact (h.once _).append_right _
    · rw [if_neg hkey, if_neg fun hand => hkey hand.2.symm, List.append_nil]
      exact h.once key
  · intro key htcp p hp
    rw [hco] at hp
    split at hp
    · rename_i hkey
      rcases mem_primaryList_enqueue hp with hp | ⟨hm, rfl⟩
      · exact h.df key htcp p hp
      · rw [hkey, fillConnectionKey_ipProto] at htcp
        exact (hpri hm).2 htcp
    · exact h.df key htcp p hp
  · intro key hpr
    rw [mem_connList_received hc]
    rw [hco] at hpr
    split at hpr
    · rename_i hkey
      by_cases hold : (s.conn key).processing = true
      · exact .inl (h.processing key hold)
      · rw [← hkey]
        exact .inr ⟨(Bool.not_eq_true _).mp hold, rfl⟩
    · exact .inl (h.processing key hpr)
  · intro key hl
    rw [mem_connList_received hc, not_or] at hl
    rw [hco]
    split
    · rename_i hkey
      subst hkey
      by_cases hold : (s.conn (fillConnectionKey frame)).processing = true
      · exact absurd (h.processing _ hold) hl.1
      · exact absurd ⟨(Bool.not_eq_true _).mp hold, rfl⟩ hl.2
    · exact h.listed key hl.1

theorem Matched.received (h : Matched s) (hn : Numbered s)
    (hc : ¬Clears s.table (fillConnectionKey frame)) : Matched (s.received mode frame) := by
  have hco := s.conn_received mode frame
  simp only [if_neg hc] at hco
  have hmem : ∀ q ∈ s.secondaryIn, q ∈ (s.received mode frame).secondaryIn := by
    intro q hq
    cases mode with
    | primaryIn => exact hq
    | secondaryIn => exact mem_append_left _ hq
  have hu : (s.received mode frame).used = s.used := by
    rw [CompareState.used, CompareState.sent_received]
    rfl
  -- The new packet has an address of its own.
  have hnew : ∀ q ∈ s.secondaryIn, q.address ≠ (s.packetNew frame).address :=
    fun q hq => (hn.secondary_lt q hq).ne
  constructor
  · intro key q hq
    rw [hco] at hq
    split at hq
    · rcases mem_secondaryList_enqueue hq with hq | ⟨rfl, rfl⟩
      · obtain ⟨q₀, hq₀, hd⟩ := h.origin key q hq
        exact ⟨q₀, hmem q₀ hq₀, hd⟩
      · exact ⟨s.packetNew frame, mem_append_right _ mem_cons_self, .refl _⟩
    · obtain ⟨q₀, hq₀, hd⟩ := h.origin key q hq
      exact ⟨q₀, hmem q₀ hq₀, hd⟩
  · intro key
    rw [hco]
    split
    · refine nodup_secondaryList_enqueue (h.distinct key) fun had => ?_
      obtain ⟨q, hq, had⟩ := mem_map.mp had
      obtain ⟨q₀, hq₀, hd⟩ := h.origin key q hq
      exact hnew q₀ hq₀ (hd.address.symm.trans had)
    · exact h.distinct key
  · exact hu ▸ h.single
  · intro a ha
    obtain ⟨q, hq, had⟩ := h.used_origin a (hu ▸ ha)
    exact ⟨q, hmem q hq, had⟩
  · intro key q hq
    rw [hu]
    rw [hco] at hq
    split at hq
    · rcases mem_secondaryList_enqueue hq with hq | ⟨-, rfl⟩
      · exact h.unused key q hq
      · intro ha
        obtain ⟨q, hq, had⟩ := h.used_origin _ ha
        exact hnew q hq had
    · exact h.unused key q hq

end Receiving

structure Compares (u t : CompareState) : Prop where
  accounted : Accounted t
  matched : Matched t
  waited : ∀ key, ∀ q ∈ (t.conn key).secondaryList,
    ∃ q₀ ∈ (u.conn key).secondaryList, Derived key.ipProto q₀ q
  sent : ∃ pairs : List (Packet × Packet),
    t.sent = u.sent ++ pairs.map (fun x => .same x.1 x.2) ∧ ∀ x ∈ pairs, Justified u x

section Steps

variable {s t u : CompareState} {e : CompareEvent}

theorem Compares.refl (ha : Accounted u) (hm : Matched u) : Compares u u :=
  ⟨ha, hm, fun _ q hq => ⟨q, hq, .refl q⟩, [], by simp⟩

theorem Compares.justified (h : Compares u t) (hm : Matched u) (hf : Filed u)
    {key : ConnectionKey} {x : Packet × Packet} (hx : x ∈ (t.conn key).compared.sent) :
    Justified u x := by
  have hpkt := mem_of_mem_compared_sent hx
  have hkey : fillConnectionKey x.1.data = key := h.accounted.filed.primary key _ hpkt
  obtain ⟨hs, q₁, hq₁, hd₁⟩ := same_of_mem_compareLoop hx
  rw [h.accounted.filed.ipProto key] at hs hd₁
  obtain ⟨q₂, hq₂, hd₂⟩ := h.waited key q₁ hq₁
  obtain ⟨q, hq, hd⟩ := hm.origin key q₂ hq₂
  have hall := (hd.trans hd₂).trans hd₁
  refine ⟨q, hq, hall.address.symm, ?_, ?_, ?_⟩
  · rw [hkey, ← hd.fillConnectionKey_eq]
    exact hf.secondary key q₂ hq₂
  · refine equals_of_same hs hall ?_ fun htcp => h.accounted.df key htcp _ hpkt
    rw [← fillConnectionKey_ipProto, hkey]
  · rw [hkey, ← hd.address]
    exact mem_map_of_mem hq₂

theorem Compares.coloCompareConnection (h : Compares u t) (hm : Matched u)
    (hf : Filed u) (key' : ConnectionKey) : Compares u (t.coloCompareConnection key') := by
  refine ⟨h.accounted.coloCompareConnection key',
    h.matched.coloCompareConnection h.accounted.filed h.accounted.numbered key', ?_, ?_⟩
  · intro key q hq
    rw [t.conn_coloCompareConnection] at hq
    split at hq
    · rename_i hkey
      subst hkey
      obtain ⟨q₁, hq₁, hd₁⟩ := derived_of_mem_compareLoop hq
      rw [h.accounted.filed.ipProto key] at hd₁
      obtain ⟨q₀, hq₀, hd₀⟩ := h.waited key q₁ hq₁
      exact ⟨q₀, hq₀, hd₀.trans hd₁⟩
    · exact h.waited key q hq
  · obtain ⟨pairs, hs, hp⟩ := h.sent
    refine ⟨pairs ++ (t.conn key').compared.sent, ?_, ?_⟩
    · rw [CompareState.coloCompareConnection, hs, map_append, append_assoc]
    · intro x hx
      rcases mem_append.mp hx with hx | hx
      · exact hp x hx
      · exact h.justified hm hf hx

theorem compares_finalize {mode : Mode} {frame : Frame} (ha : Accounted s)
    (hm : Matched s) (hk : Kept s (.arrives mode frame)) :
    Compares (s.received mode frame) (s.finalize mode frame) := by
  have ha' := ha.received hk
  have hm' : Matched (s.received mode frame) :=
    hm.received ha.numbered hk.1
  exact foldlRecOn (motive := Compares (s.received mode frame)) _ _
    (.refl ha' hm')
    fun t ht key _ => ht.coloCompareConnection hm' ha'.filed key

theorem accounted_checkpoint (ha : Accounted s) (hm : Matched s) :
    Accounted s.coloCompareDoCheckpoint ∧ Matched s.coloCompareDoCheckpoint :=
  foldlRecOn (motive := fun t => Accounted t ∧ Matched t) _ _ ⟨ha, hm⟩
    fun _ ht key _ => ⟨ht.1.coloFlushConnection key, ht.2.coloFlushConnection key⟩

theorem accounted_step (ha : Accounted s) (hm : Matched s) (hk : Kept s e)
    (hs : compareSystem.step s e = some t) : Accounted t ∧ Matched t := by
  cases e with
  | arrives mode frame =>
    cases hs
    have hc := compares_finalize ha hm hk
    exact ⟨hc.accounted, hc.matched⟩
  | checkpoint =>
    cases hs
    exact accounted_checkpoint ha hm

/-- In every run that loses no packet at the door, each packet of the primary is passed on once,
by a checkpoint at the latest and before only for a packet of the secondary that waits and is the
same, each of which counts once. -/
theorem conserves_of_run (h : compareSystem.Run Kept .init s) (hkept : Kept s e)
    (hstep : compareSystem.step s e = some t) : Conserves s e t := by
  have hinv : Accounted s ∧ Matched s :=
    Run.invariant (I := fun s => Accounted s ∧ Matched s) h ⟨accounted_init, matched_init⟩
      fun _ _ _ ha hok hs => accounted_step ha.1 ha.2 hok hs
  obtain ⟨haccounted, hmatched⟩ := accounted_step hinv.1 hinv.2 hkept hstep
  refine ⟨?_, haccounted.once, ?_, ?_, hmatched.single⟩
  · exact haccounted.numbered.primary.imp fun hlt heq => hlt.ne (congrArg Packet.address heq)
  · rintro rfl key
    cases hstep
    rw [CompareState.coloCompareDoCheckpoint, primaryList_foldl_coloFlushConnection]
    split
    · rfl
    · rename_i hlisted
      exact hinv.1.listed key hlisted
  · rintro mode frame rfl
    cases hstep
    have hsent := (compares_finalize hinv.1 hinv.2 hkept).sent
    rwa [CompareState.sent_received] at hsent

end Steps

instance (s : CompareState) (e : CompareEvent) : Decidable (Kept s e) := by
  rcases e with ⟨_, _⟩ | _ <;> unfold Kept <;> infer_instance

def firstDatagram : List CompareEvent := [.arrives .primaryIn (datagram 1)]

theorem datagram_conserves : ∃ s t, compareSystem.exec Kept .init firstDatagram = some s ∧
      Kept s (.arrives .secondaryIn (datagram 1)) ∧
      compareSystem.step s (.arrives .secondaryIn (datagram 1)) = some t ∧ t.sent.length = 1 ∧
      Conserves s (.arrives .secondaryIn (datagram 1)) t :=
  ⟨_, _, rfl, by decide, rfl, by decide,
    conserves_of_run (@exec_run _ _ compareSystem _ _ _ _ firstDatagram rfl) (by decide) rfl⟩

/-- Datagrams of the primary alone. -/
def flood (n : ℕ) : List CompareEvent := replicate n (.arrives .primaryIn (datagram 0))

structure Flooded (n : ℕ) (s : CompareState) : Prop where
  sent : s.sent = []
  quiet : ∀ key, (s.conn key).secondaryList = []
  full : (s.conn datagramKey).primaryList.length ≤ MAX_QUEUE_SIZE + 1
  arrived : (s.arrived datagramKey).length = n

section Flood

variable {n : ℕ} {s : CompareState}

theorem compareLoop_nil (ipProto : BitVec 8) (primary : List Packet) :
    compareLoop ipProto primary [] = ⟨primary, [], [], false⟩ := by
  cases primary <;> rfl

theorem Flooded.coloCompareConnection (h : Flooded n s) (key' : ConnectionKey) :
    Flooded n (s.coloCompareConnection key') := by
  have hc : (s.conn key').compared =
      ⟨(s.conn key').primaryList.reverse, [], [], false⟩ := by
    rw [Connection.compared, h.quiet key', compareLoop_nil]
  have hco := s.conn_coloCompareConnection key'
  refine ⟨?_, ?_, ?_, h.arrived⟩
  · rw [CompareState.coloCompareConnection, h.sent, hc]
    rfl
  · intro key
    rw [hco]
    split
    · rw [Connection.afterCompare, hc]
    · exact h.quiet key
  · rw [hco]
    split
    · rename_i hkey
      rw [Connection.afterCompare, hc, reverse_reverse, ← hkey]
      exact h.full
    · exact h.full

theorem Flooded.received (h : Flooded n s) :
    Flooded (n + 1) (s.received .primaryIn (datagram 0)) := by
  have hkey : fillConnectionKey (datagram 0) = datagramKey := by decide
  have hc := s.conn_received .primaryIn (datagram 0)
  rw [hkey] at hc
  refine ⟨h.sent, ?_, ?_, ?_⟩
  · intro key
    rw [hc]
    split_ifs
    · rw [Connection.enqueue]
      split <;> exact h.quiet key
    · rfl
    · exact h.quiet key
  · rw [hc, if_pos rfl, Connection.enqueue]
    split
    · rename_i hr
      rw [(pushPacket_perm _ _ _).length_eq, length_append, length_singleton]
      exact Nat.succ_le_succ hr
    · exact h.full
  · rw [arrived_received, if_pos ⟨rfl, hkey⟩, length_append, h.arrived]
    rfl

theorem Flooded.finalize (h : Flooded n s) : Flooded (n + 1) (s.finalize .primaryIn (datagram 0)) :=
  foldlRecOn (motive := Flooded (n + 1)) _ _ h.received
    fun _ ht key _ => ht.coloCompareConnection key

theorem exists_exec_flood (m : ℕ) (h : Flooded n s) :
    ∃ t, compareSystem.exec anyStep s (flood m) = some t ∧ Flooded (n + m) t := by
  induction m generalizing n s with
  | zero => exact ⟨s, rfl, h⟩
  | succ m ih =>
    obtain ⟨t, he, ht⟩ := ih h.finalize
    refine ⟨t, he, ?_⟩
    rwa [Nat.add_assoc, Nat.add_comm 1] at ht

end Flood

/-- The packet that comes to a full queue is neither passed on nor does it wait. -/
theorem flood_not_conserves :
    ∃ s t, compareSystem.exec anyStep .init (flood (MAX_QUEUE_SIZE + 1)) = some s ∧
      compareSystem.step s (.arrives .primaryIn (datagram 0)) = some t ∧
      ¬Conserves s (.arrives .primaryIn (datagram 0)) t := by
  obtain ⟨s, hexec, hs⟩ := exists_exec_flood (n := 0) (s := .init) (MAX_QUEUE_SIZE + 1)
    ⟨rfl, fun _ => rfl, Nat.zero_le _, rfl⟩
  refine ⟨s, _, hexec, rfl, fun hconserves => ?_⟩
  have ht := hs.finalize
  have hlength := (hconserves.once datagramKey).length_eq
  rw [CompareState.released, ht.sent, ht.arrived] at hlength
  have hfull := ht.full
  rw [length_append] at hlength
  change 0 + _ = _ at hlength
  omega

end VmFt.ColoProxy
