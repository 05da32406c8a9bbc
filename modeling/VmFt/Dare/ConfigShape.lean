import VmFt.Dare.Reconfigure

/-! # The shape of a configuration

A resize goes through the states EXTENDED and TRANSIT back to STABLE and makes
the group larger by one. Every configuration that a server has, that stands in a
log or that is on its way has the shape of one of these states, as long as no
unstable CONFIG entry is applied by a leader that is already back in STABLE and
no server joins a group of the largest size.
-/

namespace VmFt.Dare.Config

open VmFt.System List Function

structure Shaped (cid : Cid) : Prop where
  pos : 1 ≤ cid.size
  le : cid.size ≤ maxServerCount
  stable : cid.state = .stable → cid.newSize = 0
  unstable : cid.state ≠ .stable → cid.newSize = cid.size + 1 ∧ cid.newSize ≤ maxServerCount
  bits : ∀ i, getExtendedGroupSize cid ≤ i → isServerOn cid i = false

/-- The leader is about to move a configuration on because of an unstable entry. -/
def Resizes (m : Member) : Prop :=
  match m.leader, m.log[m.apply]? with
  | true, some ⟨_, _, _, _, .config, .cid cid⟩ =>
    cid.state ≠ .stable ∧ m.cid.epoch ≤ cid.epoch
  | _, _ => False

instance (m : Member) : Decidable (Resizes m) := by
  unfold Resizes
  split <;> infer_instance

/-- A server joins only where there is a place, and the leader applies an unstable CONFIG entry
only in an unstable configuration. -/
def orderly (s : State) : Event → Prop
  | .join i _ _ => (s.members i).cid.size < maxServerCount ∨
      ∃ k < (s.members i).cid.size, isServerOn (s.members i).cid k = false
  | .apply i _ => Resizes (s.members i) → (s.members i).cid.state ≠ .stable
  | _ => True

instance (s : State) (e : Event) : Decidable (orderly s e) := by
  rcases e <;> unfold orderly <;> infer_instance

variable {s t : State} {m m' : Member} {cid cid' : Cid} {room : Bool} {e : Event}

/-! ### The configurations of the leader -/

theorem Shaped.narrow (h : Shaped cid) (hn : Narrows cid cid') : Shaped cid' := by
  have hs : getExtendedGroupSize cid' = getExtendedGroupSize cid := by
    unfold getExtendedGroupSize
    rw [hn.state, hn.size, hn.newSize]
  constructor
  · rw [hn.size]
    exact h.pos
  · rw [hn.size]
    exact h.le
  · rw [hn.state, hn.newSize]
    exact h.stable
  · rw [hn.state, hn.newSize, hn.size]
    exact h.unstable
  · intro i hi
    rw [hs] at hi
    by_contra hon
    have := hn.on i (by simpa using hon)
    rw [h.bits i hi] at this
    cases this

theorem Shaped.extended_eq (h : Shaped cid) (hs : cid.state ≠ .stable) :
    getExtendedGroupSize cid = cid.newSize := by
  have hnew := (h.unstable hs).1
  rw [getExtendedGroupSize, if_neg hs, if_pos (by omega)]

theorem Shaped.toTransit (h : Shaped cid) (hs : cid.state ≠ .stable) :
    Shaped { cid with state := .transit } := by
  have hnew := (h.unstable hs).1
  refine ⟨h.pos, h.le, nofun, fun _ => h.unstable hs, ?_⟩
  intro i hi
  refine h.bits i ?_
  rw [getExtendedGroupSize, if_neg (by simp), if_pos (by simp only; omega)] at hi
  rwa [h.extended_eq hs]

theorem Shaped.toStable (h : Shaped cid) (hst : cid.state ≠ .stable)
    (hs : cid'.state = .stable) (hsi : cid'.size = cid.newSize) (hnew : cid'.newSize = 0)
    (hon : ∀ i, isServerOn cid' i = true → isServerOn cid i = true) : Shaped cid' := by
  obtain ⟨hn, hmax⟩ := h.unstable hst
  constructor
  · omega
  · omega
  · exact fun _ => hnew
  · exact fun h => absurd hs h
  · intro i hi
    by_contra hi'
    have hset := hon i (by simpa using hi')
    rw [getExtendedGroupSize, if_pos hs] at hi
    rw [h.bits i (by rw [h.extended_eq hst]; omega)] at hset
    cases hset

theorem findEmpty_spec {lids : ℕ → ℕ} {lid n empty place : ℕ}
    (h : findEmpty cid lids lid n empty = some place) :
    (∀ i < n, isServerOn cid i = true → lids i ≠ lid) ∧
      (place = empty ∧ (∀ i < n, isServerOn cid i = true) ∨
        place < n ∧ isServerOn cid place = false) := by
  induction n generalizing empty with
  | zero =>
    obtain rfl := Option.some.inj h
    exact ⟨by simp, .inl ⟨rfl, by simp⟩⟩
  | succ n ih =>
    rw [findEmpty] at h
    split_ifs at h with hon hlid
    · obtain ⟨hl, hp⟩ := ih h
      constructor
      · intro i hi hion
        rcases Nat.lt_succ_iff_lt_or_eq.mp hi with hlt | rfl
        · exact hl i hlt hion
        · exact hlid
      · refine hp.imp (fun hf => ⟨hf.1, ?_⟩) fun hoff => ⟨by omega, hoff.2⟩
        intro i hi
        rcases Nat.lt_succ_iff_lt_or_eq.mp hi with hlt | rfl
        · exact hf.2 i hlt
        · exact hon
    · obtain ⟨hl, hp⟩ := ih h
      constructor
      · intro i hi hion
        rcases Nat.lt_succ_iff_lt_or_eq.mp hi with hlt | rfl
        · exact hl i hlt hion
        · exact absurd hion hon
      · right
        rcases hp with ⟨rfl, -⟩ | ⟨hlt, hoff⟩
        · exact ⟨by omega, by simpa using hon⟩
        · exact ⟨by omega, hoff⟩

theorem Shaped.addServer (h : Shaped cid) (hs : cid.state = .stable) {place : ℕ}
    (hp : place < cid.size ∨ place = cid.size ∧ cid.size < maxServerCount) :
    Shaped (addServer cid place) := by
  have hext : getExtendedGroupSize cid = cid.size := if_pos hs
  have hle := h.le
  unfold Config.addServer
  dsimp only
  unfold maxServerCount at *
  split_ifs with hl
  · have hnew : (cid.size + 1) % 256 = cid.size + 1 := Nat.mod_eq_of_lt (by omega)
    rw [hnew]
    refine ⟨h.pos, hle, nofun, fun _ => ⟨rfl, ?_⟩, ?_⟩
    · simp only [maxServerCount]
      omega
    · intro i hi
      rw [getExtendedGroupSize, if_neg (by simp), if_pos (by simp [serverAdd])] at hi
      change cid.size + 1 ≤ i at hi
      change isServerOn (serverAdd cid place) i = false
      rw [isServerOn_serverAdd, h.bits i (by omega), Bool.false_or, decide_eq_false_iff_not]
      omega
  · refine ⟨h.pos, hle, h.stable, fun hne => absurd hs hne, ?_⟩
    intro i hi
    have hext' : getExtendedGroupSize (serverAdd cid place) = cid.size := if_pos hs
    rw [hext'] at hi
    rw [isServerOn_serverAdd, h.bits i (by omega), Bool.false_or, decide_eq_false_iff_not]
    omega

theorem cid_appendConfig (reqId cltId : ℕ) (m : Member) :
    (appendConfig room reqId cltId m).cid = m.cid := by
  unfold appendConfig logAppendEntry
  split_ifs <;> rfl

theorem shaped_join (h : Shaped m.cid) (pkt : Packet)
    (hp : m.cid.size < maxServerCount ∨ ∃ k < m.cid.size, isServerOn m.cid k = false) :
    Shaped (handleServerJoinRequest room pkt m).1.cid := by
  rcases handleServerJoinRequest_cases room pkt m with
    ⟨eps, replies, down, heq, -⟩ | ⟨eps, empty, hs, hempty, heq⟩
  · rw [heq]
    exact h
  · rw [heq, cid_appendConfig]
    refine h.addServer hs ?_
    rcases (findEmpty_spec hempty).2 with ⟨rfl, hf⟩ | ⟨hlt, -⟩
    · rcases hp with hlt | ⟨k, hk, hoff⟩
      · exact .inr ⟨rfl, hlt⟩
      · rw [hf k hk] at hoff
        cases hoff
    · exact .inl hlt

theorem shaped_suspect (h : Shaped m.cid) (suspects : List ℕ) :
    Shaped (checkFailureCount room suspects m).cid := by
  have hf := fun is => h.narrow (narrows_foldl is m.cid)
  unfold checkFailureCount
  dsimp only
  split_ifs
  all_goals first
    | exact h
    | (rw [cid_appendConfig]; exact hf _)
    | (rw [cid_appendConfig]; exact h)

theorem shaped_force (h : Shaped m.cid) (target : ℕ) :
    Shaped (forceLogPruning room target m).cid := by
  unfold forceLogPruning
  split_ifs
  · rw [cid_appendConfig]
    exact h.narrow (narrows_serverRm _ _)
  · exact h

theorem shaped_applyConfig (h : Shaped m.cid) (entry : Entry)
    (hst : cid.state ≠ .stable → m.cid.epoch ≤ cid.epoch → m.cid.state ≠ .stable) :
    Shaped (applyConfig room entry cid m).cid := by
  unfold applyConfig
  cases hcid : cid.state with
  | stable =>
    dsimp only
    obtain ⟨eps, replies, down, heq, -⟩ := udSendCltReply_eq entry.cltId entry.reqId m
    rw [heq]
    split_ifs <;> exact h
  | extended =>
    dsimp only
    obtain ⟨eps, replies, down, heq, -⟩ := udSendCltReply_eq entry.cltId entry.reqId
      { m with cid := { m.cid with state := .transit } }
    rw [heq]
    split_ifs with he
    · exact h
    all_goals
      rw [cid_appendConfig]
      exact h.toTransit (hst (by simp [hcid]) (not_lt.mp he))
  | transit =>
    dsimp only
    split_ifs with he
    · exact h
    · obtain ⟨cid', die, heq, hs, hsi, hnew, -, hon⟩ :=
        toStable_eq (range' m.cid.newSize (m.cid.size - m.cid.newSize)) m
      rw [heq, cid_appendConfig]
      exact h.toStable (hst (by simp [hcid]) (not_lt.mp he)) hs hsi hnew hon

theorem shaped_blank (h : Shaped m.cid) (extended : Bool) :
    Shaped (addBlankEntry room extended m).cid := by
  unfold addBlankEntry
  split_ifs with hs
  · rw [cid_appendConfig]
    exact h
  · unfold logAppendEntry
    split_ifs <;> exact h
  · rw [cid_appendConfig]
    exact h.toTransit hs
  · obtain ⟨cid', die, heq, hst, hsi, hnew, -, hon⟩ := toStable_eq
      (range' (m.cid.newSize + 1) (m.cid.size - 1 - m.cid.newSize)).reverse m
    dsimp only
    rw [heq, cid_appendConfig]
    exact h.toStable hs hst hsi hnew hon

/-! ### Every configuration of the group -/

/-- The configuration of a server, those in its log and those in its replies are in shape. -/
structure InShape (m : Member) : Prop where
  cid : Shaped m.cid
  log : ∀ entry ∈ m.log, entry.type = .config → ∀ cid, entry.data = .cid cid → Shaped cid
  replies : ∀ r ∈ m.replies, Shaped r.cid

structure GroupInShape (s : State) : Prop where
  members : ∀ i, InShape (s.members i)
  requests : ∀ cid ∈ s.requests, Shaped cid

theorem InShape.effect (h : InShape m) (he : Effect room m m') (hcid : Shaped m'.cid) :
    InShape m' := by
  refine ⟨hcid, ?_, ?_⟩
  · intro entry hentry ht cid hd
    rcases he.log with ⟨-, hlog | ⟨entry', ht', -, hlog⟩⟩ |
      ⟨entry', -, hd', -, hlog⟩ | ⟨-, hlog⟩
    · exact h.log entry (hlog ▸ hentry) ht cid hd
    · rw [hlog] at hentry
      rcases mem_append.mp hentry with hold | hnew
      · exact h.log entry hold ht cid hd
      · exact absurd ht (mem_singleton.mp hnew ▸ ht')
    · rw [hlog] at hentry
      rcases mem_append.mp hentry with hold | hnew
      · exact h.log entry hold ht cid hd
      · rw [mem_singleton.mp hnew, hd'] at hd
        exact EntryData.cid.inj hd ▸ hcid
    · exact h.log entry (hlog ▸ hentry) ht cid hd
  · intro r hr
    rcases he.replies r hr with hold | hnew
    · exact h.replies r hold
    · rw [hnew]
      exact hcid

theorem InShape.updateCid (h : InShape m) (hcid : Shaped cid) : InShape (updateCid cid m) :=
  ⟨hcid, h.log, h.replies⟩

theorem InShape.pollEntry (h : InShape m) {entry : Entry}
    (hentry : entry.type = .config → ∀ cid, entry.data = .cid cid → Shaped cid) :
    InShape (pollEntry m entry) := by
  unfold Config.pollEntry
  split
  · rename_i cid ht hd
    split_ifs
    · exact ⟨hentry ht cid hd, h.log, h.replies⟩
    · exact h
  · exact h

theorem InShape.foldl (h : InShape m) {entries : List Entry} (he : ∀ entry ∈ entries,
    entry.type = .config → ∀ cid, entry.data = .cid cid → Shaped cid) :
    InShape (entries.foldl Config.pollEntry m) := by
  induction entries generalizing m with
  | nil => exact h
  | cons entry entries ih =>
    rw [forall_mem_cons] at he
    exact ih (h.pollEntry he.1) he.2

theorem InShape.append (h : InShape m) {reqId cltId : ℕ} {type : EntryType} {data : EntryData}
    (ht : type ≠ .config) : InShape (logAppendEntry room reqId cltId type data m) := by
  unfold logAppendEntry
  split_ifs
  · refine ⟨h.cid, ?_, h.replies⟩
    intro entry hentry ht' cid hd
    rcases mem_append.mp hentry with hold | hnew
    · exact h.log entry hold ht' cid hd
    · rw [mem_singleton.mp hnew] at ht'
      exact absurd ht' ht
  · exact h

theorem InShape.poll (h : InShape m) : InShape (pollConfigEntries m) := by
  have hf : InShape ((m.found.drop m.cidOffset).foldl Config.pollEntry m) :=
    h.foldl fun entry hentry => h.log entry (Member.mem_log_of_found (mem_of_mem_drop hentry))
  exact { hf with }

theorem InShape.apply (h : InShape m) (hs : Resizes m → m.cid.state ≠ .stable)
    (ha : applyCommittedEntry room m = some m') : InShape m' := by
  obtain ⟨-, entry, next, hentry, hn, rfl⟩ := applyCommittedEntry_cases ha
  suffices hg : InShape next from { hg with }
  rcases hn with ⟨cid, hl, ht, hd, rfl⟩ | rfl
  · refine h.effect (effect_applyConfig _ _ _) (shaped_applyConfig h.cid _ ?_)
    intro hu he
    refine hs ?_
    obtain ⟨idx, term, reqId, cltId, type, data⟩ := entry
    obtain rfl : type = .config := ht
    obtain rfl : data = .cid cid := hd
    simp only [Resizes, hl, hentry]
    exact ⟨hu, he⟩
  · exact h

theorem InShape.act (h : GroupInShape s) (hok : orderly s e)
    (hact : act s (s.members e.server) e = some m') : InShape m' := by
  have hm := h.members e.server
  cases e with
  | join i room pkt =>
    obtain ⟨-, rfl⟩ := guarded_eq_some.mp hact
    exact hm.effect (effect_join _ _) (shaped_join hm.cid _ hok)
  | suspect i room suspects =>
    obtain rfl := Option.some.inj hact
    exact hm.effect (effect_suspect _ _) (shaped_suspect hm.cid _)
  | force i room target =>
    obtain ⟨-, rfl⟩ := guarded_eq_some.mp hact
    exact hm.effect (effect_force _ _) (shaped_force hm.cid _)
  | append i reqId cltId type data =>
    obtain ⟨⟨-, ht⟩, rfl⟩ := guarded_eq_some.mp hact
    exact hm.append ht
  | prune i room head =>
    obtain ⟨-, rfl⟩ := guarded_eq_some.mp hact
    have hp : InShape { s.members i with head := head } := { hm with }
    exact hp.append (by decide)
  | apply i room => exact hm.apply hok hact
  | commit i offset | reachEnd i | commitOwn i offset =>
    obtain ⟨-, rfl⟩ := guarded_eq_some.mp hact
    exact { hm with }
  | extend i k n =>
    obtain ⟨-, rfl⟩ := guarded_eq_some.mp hact
    refine ⟨hm.cid, ?_, hm.replies⟩
    intro entry hentry
    rcases mem_append.mp hentry with hold | hnew
    · exact hm.log entry hold
    · exact (h.members k).log entry (mem_of_mem_drop (mem_of_mem_take hnew))
  | truncate i offset =>
    obtain ⟨-, rfl⟩ := guarded_eq_some.mp hact
    exact ⟨hm.cid, fun entry hentry => hm.log entry (mem_of_mem_take hentry), hm.replies⟩
  | poll i =>
    obtain ⟨-, rfl⟩ := guarded_eq_some.mp hact
    exact hm.poll
  | request i =>
    obtain rfl := Option.some.inj hact
    exact hm
  | vote i cid =>
    obtain ⟨⟨-, hcid⟩, rfl⟩ := guarded_eq_some.mp hact
    exact hm.updateCid (h.requests cid hcid)
  | elected i term =>
    obtain ⟨-, rfl⟩ := guarded_eq_some.mp hact
    exact InShape.poll { hm with }
  | blank i room extended =>
    obtain ⟨-, rfl⟩ := guarded_eq_some.mp hact
    exact hm.effect (effect_blank _ _) (shaped_blank hm.cid _)
  | stepDown i =>
    obtain rfl := Option.some.inj hact
    exact { hm with }
  | recover i k r source endOff commit apply =>
    obtain ⟨⟨-, hr, -⟩, rfl⟩ := guarded_eq_some.mp hact
    exact ⟨(h.members k).replies r hr, fun entry hentry =>
      (h.members source).log entry (mem_of_mem_take hentry), hm.replies⟩

theorem GroupInShape.step (h : GroupInShape s) (hok : orderly s e)
    (hs : group.step s e = some t) : GroupInShape t := by
  obtain ⟨-, m', hact, hm, hr⟩ := groupStep_eq hs
  constructor
  · intro i
    rw [hm]
    by_cases hi : i = e.server
    · subst hi
      rw [update_self]
      exact InShape.act h hok hact
    · rw [update_of_ne hi]
      exact h.members i
  · intro cid hcid
    rcases hr cid hcid with hold | rfl
    · exact h.requests cid hold
    · exact (h.members _).cid

theorem shaped_initialCid {size : ℕ} (hpos : 1 ≤ size) (hle : size ≤ maxServerCount) :
    Shaped (initialCid size) := by
  refine ⟨hpos, hle, fun _ => rfl, fun h => absurd rfl h, ?_⟩
  intro i hi
  change size ≤ i at hi
  change (2 ^ size - 1).testBit i = false
  rw [Nat.testBit_two_pow_sub_one, decide_eq_false_iff_not]
  omega

theorem groupInShape_start {size : ℕ} (hpos : 1 ≤ size) (hle : size ≤ maxServerCount) :
    GroupInShape (start size) :=
  ⟨fun _ => ⟨shaped_initialCid hpos hle, nofun, nofun⟩, nofun⟩

end VmFt.Dare.Config
