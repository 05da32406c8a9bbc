import VmFt.Lib.Transition
import VmFt.Dare.Config

/-! # Runs of a group that reconfigures itself

The servers of a group with every step that touches a configuration. Log entries
travel between the servers position by position; a log can be cut back to its
commit offset, votes carry the configuration of the candidate, and a server that
joins takes over the configuration in the reply of a leader.
-/

namespace VmFt.Dare.Config

open VmFt.System

structure State where
  members : ℕ → Member
  /-- The configurations in the vote requests sent so far. -/
  requests : List Cid

inductive Event
  | join (i : ℕ) (room : Bool) (pkt : Packet)
  | suspect (i : ℕ) (room : Bool) (suspects : List ℕ)
  | force (i : ℕ) (room : Bool) (target : ℕ)
  /-- An entry other than a CONFIG entry. -/
  | append (i : ℕ) (reqId cltId : ℕ) (type : EntryType) (data : EntryData)
  /-- The leader advances its head offset. -/
  | prune (i : ℕ) (room : Bool) (head : ℕ)
  | apply (i : ℕ) (room : Bool)
  | commit (i offset : ℕ)
  /-- The leader's own commit offset, with the offset for CONFIG entries. -/
  | commitOwn (i offset : ℕ)
  /-- The last entry ends exactly with the buffer. -/
  | reachEnd (i : ℕ)
  | extend (i k n : ℕ)
  | truncate (i offset : ℕ)
  | poll (i : ℕ)
  | request (i : ℕ)
  | vote (i : ℕ) (cid : Cid)
  | elected (i term : ℕ)
  | blank (i : ℕ) (room extended : Bool)
  | stepDown (i : ℕ)
  | recover (i k : ℕ) (r : Reply) (source endOff commit apply : ℕ)

def Event.server : Event → ℕ
  | .join i _ _ | .suspect i _ _ | .force i _ _ | .append i _ _ _ _ | .prune i _ _ | .apply i _
  | .commit i _ | .commitOwn i _ | .reachEnd i | .extend i _ _ | .truncate i _ | .poll i
  | .request i | .vote i _ | .elected i _ | .blank i _ _ | .stepDown i
  | .recover i _ _ _ _ _ _ => i

/-- What a server does in a step, none if it does not take it. -/
def act (s : State) (m : Member) : Event → Option Member
  | .join _ room pkt => guarded (m.leader = true) (handleServerJoinRequest room pkt m).1
  | .suspect _ room suspects => some (checkFailureCount room suspects m)
  | .force _ room target => guarded (m.leader = true) (forceLogPruning room target m)
  | .append _ reqId cltId type data =>
    guarded (m.leader = true ∧ type ≠ .config) (logAppendEntry true reqId cltId type data m)
  | .prune _ room head =>
    guarded (m.leader = true ∧ m.head < head ∧ head ≤ m.apply)
      (logAppendEntry room 0 0 .head (.head head) { m with head := head })
  | .apply _ room => applyCommittedEntry room m
  | .commit _ offset =>
    guarded (m.commit ≤ offset ∧ offset ≤ m.log.length) { m with commit := offset }
  | .commitOwn _ offset =>
    guarded (m.leader = true ∧ m.atEnd = false ∧ m.commit ≤ offset ∧ offset ≤ m.log.length)
      { m with commit := offset, cidOffset := offset }
  | .reachEnd _ => guarded (m.log ≠ []) { m with atEnd := true }
  | .extend _ k n =>
    guarded (m.leader = false)
      { m with
        log := m.log ++ ((s.members k).log.drop m.log.length).take n, atEnd := false }
  | .truncate _ offset =>
    guarded (m.leader = false ∧ m.commit ≤ offset)
      { m with log := m.log.take offset, atEnd := false }
  | .poll _ => guarded (m.leader = false) (pollConfigEntries m)
  | .request _ => some m
  | .vote _ cid => guarded (m.leader = false ∧ cid ∈ s.requests) (updateCid cid m)
  | .elected _ term => guarded (m.leader = false) (winElection term m)
  | .blank _ room extended =>
    guarded (m.leader = true ∧ m.apply = m.commit) (addBlankEntry room extended m)
  | .stepDown _ => some { m with leader := false }
  | .recover _ k r source endOff commit apply =>
    guarded (m.leader = false ∧ r ∈ (s.members k).replies ∧ r.head ≤ commit ∧ commit ≤ endOff ∧
        endOff ≤ (s.members source).log.length)
      (recover r (s.members source).log endOff commit apply m)

def groupStep (s : State) (e : Event) : Option State :=
  let m := s.members e.server
  if m.down then none
  else (act s m e).map fun m' =>
    { members := Function.update s.members e.server m'
      requests := match e with
        | .request _ => s.requests ++ [m.cid]
        | _ => s.requests }

def group : System State Event := ⟨groupStep⟩

/-- The configuration a server is started with. -/
def initialCid (size : ℕ) : Cid := ⟨0, size, 0, .stable, 2 ^ size - 1⟩

def initialMember (size idx : ℕ) : Member :=
  { idx := idx, cid := initialCid size, cidOffset := 0, cidIdx := 0, reqId := 0, cltId := 0
    lids := fun _ => 0, eps := fun _ => none, log := [], atEnd := false, head := 0, apply := 0
    commit := 0, term := 0, leader := false, dieAfCommit := false, down := false, replies := [] }

def start (size : ℕ) : State := ⟨initialMember size, []⟩

variable {s t : State} {m m' : Member} {room : Bool} {e : Event}

theorem groupStep_eq (h : group.step s e = some t) :
    (s.members e.server).down = false ∧ ∃ m', act s (s.members e.server) e = some m' ∧
      t.members = Function.update s.members e.server m' ∧
      ∀ cid ∈ t.requests, cid ∈ s.requests ∨ cid = (s.members e.server).cid := by
  change groupStep s e = some t at h
  unfold groupStep at h
  dsimp only at h
  split_ifs at h with hd
  obtain ⟨m', hact, rfl⟩ := Option.map_eq_some_iff.mp h
  refine ⟨by simpa using hd, m', hact, rfl, ?_⟩
  intro cid hcid
  cases e
  case request i =>
    rcases List.mem_append.mp hcid with hold | hnew
    · exact .inl hold
    · exact .inr (List.mem_singleton.mp hnew)
  all_goals exact .inl hcid

theorem applyCommittedEntry_cases (h : applyCommittedEntry room m = some m') :
    m.apply < m.commit ∧ ∃ entry next, m.log[m.apply]? = some entry ∧
      ((∃ cid, m.leader = true ∧ entry.type = .config ∧ entry.data = .cid cid ∧
          next = applyConfig room entry cid m) ∨ next = m) ∧
      m' = { next with apply := m.apply + 1 } := by
  unfold applyCommittedEntry at h
  split_ifs at h with hlt
  obtain ⟨entry, hentry, rfl⟩ := Option.map_eq_some_iff.mp h
  have hin : m.log[m.apply]? = some entry := by
    unfold Member.found at hentry
    split_ifs at hentry
    · cases hentry
    · exact hentry
  refine ⟨hlt, entry, _, hin, ?_, rfl⟩
  split
  · rename_i cid hl ht hd
    exact .inl ⟨cid, hl, ht, hd, rfl⟩
  · exact .inr rfl

/-! ### What the steps of a leader do -/

structure Narrows (cid cid' : Cid) : Prop where
  epoch : cid'.epoch = cid.epoch
  size : cid'.size = cid.size
  newSize : cid'.newSize = cid.newSize
  state : cid'.state = cid.state
  on : ∀ i, isServerOn cid' i = true → isServerOn cid i = true

theorem Narrows.refl (cid : Cid) : Narrows cid cid := ⟨rfl, rfl, rfl, rfl, fun _ h => h⟩

theorem Narrows.trans {a b c : Cid} (h : Narrows a b) (h' : Narrows b c) : Narrows a c where
  epoch := h'.epoch.trans h.epoch
  size := h'.size.trans h.size
  newSize := h'.newSize.trans h.newSize
  state := h'.state.trans h.state
  on := fun i hi => h.on i (h'.on i hi)

theorem isServerOn_serverAdd {cid : Cid} {i j : ℕ} :
    isServerOn (serverAdd cid i) j = (isServerOn cid j || decide (i = j)) := by
  simp [isServerOn, serverAdd, Nat.shiftLeft_eq, Nat.testBit_two_pow]

theorem isServerOn_serverRm {cid : Cid} {i j : ℕ} :
    isServerOn (serverRm cid i) j = (isServerOn cid j && !decide (i = j)) := by
  simp [isServerOn, serverRm, Nat.testBit_ldiff, Nat.shiftLeft_eq, Nat.testBit_two_pow]

theorem narrows_serverRm (cid : Cid) (i : ℕ) : Narrows cid (serverRm cid i) := by
  refine ⟨rfl, rfl, rfl, rfl, fun j hj => ?_⟩
  rw [isServerOn_serverRm] at hj
  exact (Bool.and_eq_true_iff.mp hj).1

theorem narrows_foldl (is : List ℕ) (cid : Cid) : Narrows cid (is.foldl serverRm cid) := by
  induction is generalizing cid with
  | nil => exact .refl cid
  | cons i is ih => exact (narrows_serverRm cid i).trans (ih _)

theorem removeServers_eq (is : List ℕ) (m : Member) :
    ∃ cid die, removeServers is m = { m with cid := cid, dieAfCommit := die } ∧
      Narrows m.cid cid := by
  induction is generalizing m with
  | nil => exact ⟨m.cid, m.dieAfCommit, rfl, .refl _⟩
  | cons i is ih =>
    rw [removeServers]
    split_ifs
    · obtain ⟨cid, die, heq, hn⟩ := ih { m with cid := serverRm m.cid i, dieAfCommit := true }
      exact ⟨cid, die, heq, (narrows_serverRm _ _).trans hn⟩
    · obtain ⟨cid, die, heq, hn⟩ := ih { m with cid := serverRm m.cid i }
      exact ⟨cid, die, heq, (narrows_serverRm _ _).trans hn⟩
    · exact ih m

theorem toStable_eq (places : List ℕ) (m : Member) :
    ∃ cid die, toStable places m = { m with cid := cid, dieAfCommit := die } ∧
      cid.state = .stable ∧ cid.size = m.cid.newSize ∧ cid.newSize = 0 ∧
      cid.epoch = m.cid.epoch ∧ ∀ i, isServerOn cid i = true → isServerOn m.cid i = true := by
  obtain ⟨cid, die, heq, hn⟩ :=
    removeServers_eq places { m with cid := { m.cid with state := .stable } }
  refine ⟨{ cid with size := cid.newSize, newSize := 0 }, die, ?_, hn.state, hn.newSize,
    rfl, hn.epoch, hn.on⟩
  rw [toStable, heq]

theorem udSendCltReply_eq (lid reqId : ℕ) (m : Member) :
    ∃ eps replies down, udSendCltReply lid reqId m =
        { m with eps := eps, replies := replies, down := down } ∧
      ∀ r ∈ replies, r ∈ m.replies ∨ r.cid = m.cid := by
  unfold udSendCltReply
  cases m.eps lid with
  | none => exact ⟨m.eps, m.replies, true, rfl, fun r hr => .inl hr⟩
  | some ep =>
    refine ⟨_, _, m.down, rfl, fun r hr => ?_⟩
    rcases List.mem_append.mp hr with hold | hnew
    · exact .inl hold
    · rw [List.mem_singleton.mp hnew]
      exact .inr rfl

/-- What a leader does to its configuration and its log: a new configuration goes with a CONFIG
entry that holds it, unless the log has no room. -/
structure Effect (room : Bool) (m m' : Member) : Prop where
  idx : m'.idx = m.idx
  cidOffset : m'.cidOffset = m.cidOffset
  cidIdx : m'.cidIdx = m.cidIdx
  atEnd : m'.atEnd = true → m.atEnd = true
  head : m'.head = m.head
  commit : m'.commit = m.commit
  leader : m'.leader = m.leader
  log : m'.cid = m.cid ∧ (m'.log = m.log ∨
      ∃ e, e.type ≠ .config ∧ e.idx = nextIdx m.found ∧ m'.log = m.log ++ [e]) ∨
    (∃ e, e.type = .config ∧ e.data = .cid m'.cid ∧ e.idx = nextIdx m.found ∧
      m'.log = m.log ++ [e]) ∨
    room = false ∧ m'.log = m.log
  replies : ∀ r ∈ m'.replies, r ∈ m.replies ∨ r.cid = m'.cid

theorem Effect.refl (room : Bool) (m : Member) : Effect room m m :=
  ⟨rfl, rfl, rfl, id, rfl, rfl, rfl, .inl ⟨rfl, .inl rfl⟩, fun _ hr => .inl hr⟩

theorem effect_appendConfig (reqId cltId : ℕ) (hidx : m'.idx = m.idx)
    (ho : m'.cidOffset = m.cidOffset) (hc : m'.cidIdx = m.cidIdx) (ha : m'.atEnd = m.atEnd)
    (hh : m'.head = m.head) (hco : m'.commit = m.commit) (hl : m'.leader = m.leader)
    (hlog : m'.log = m.log) (hr : ∀ r ∈ m'.replies, r ∈ m.replies ∨ r.cid = m'.cid) :
    Effect room m (appendConfig room reqId cltId m') := by
  unfold appendConfig logAppendEntry
  split_ifs with hro
  · refine ⟨hidx, ho, hc, nofun, hh, hco, hl, .inr (.inl ?_), hr⟩
    exact ⟨⟨nextIdx m'.found, m'.term, reqId, cltId, .config, .cid m'.cid⟩, rfl, rfl,
      by rw [Member.found, ha, hlog, ← Member.found], by rw [hlog]⟩
  · exact ⟨hidx, ho, hc, ha.symm.trans, hh, hco, hl, .inr (.inr ⟨by simpa using hro, hlog⟩), hr⟩

theorem handleServerJoinRequest_cases (room : Bool) (pkt : Packet) (m : Member) :
    (∃ eps replies down, handleServerJoinRequest room pkt m =
        ({ m with eps := eps, replies := replies, down := down }, false) ∧
      ∀ r ∈ replies, r ∈ m.replies ∨ r.cid = m.cid) ∨ ∃ eps empty, m.cid.state = .stable ∧
      findEmpty m.cid m.lids pkt.lid m.cid.size m.cid.size = some empty ∧
      handleServerJoinRequest room pkt m = (appendConfig room pkt.id pkt.slid { m with
            cid := addServer m.cid empty
            reqId := pkt.id
            cltId := pkt.lid
            lids := Function.update m.lids empty pkt.slid
            eps := eps }, true) := by
  by_cases hs : m.cid.state ≠ .stable
  · exact .inl ⟨m.eps, m.replies, m.down, if_pos hs, fun _ hr => .inl hr⟩
  · unfold handleServerJoinRequest
    rw [if_neg hs]
    dsimp only
    cases hempty : findEmpty m.cid m.lids pkt.lid m.cid.size m.cid.size with
    | none =>
      left
      dsimp only
      generalize (m.eps pkt.slid).getD ⟨0, 0, false⟩ = ep
      by_cases ha : ep.lastReqId = pkt.id ∧ ep.committed = true
      · rw [if_pos ha]
        obtain ⟨eps, replies, down, heq, hre⟩ := udSendCltReply_eq pkt.lid pkt.id
          { m with eps := Function.update m.eps pkt.slid (some ep) }
        exact ⟨eps, replies, down, by rw [heq], hre⟩
      · rw [if_neg ha]
        exact ⟨_, m.replies, m.down, rfl, fun _ hr => .inl hr⟩
    | some empty => exact .inr ⟨_, empty, not_not.mp hs, rfl, rfl⟩

theorem effect_join (pkt : Packet) (m : Member) :
    Effect room m (handleServerJoinRequest room pkt m).1 := by
  rcases handleServerJoinRequest_cases room pkt m with
    ⟨eps, replies, down, heq, hre⟩ | ⟨eps, empty, -, -, heq⟩
  · rw [heq]
    exact ⟨rfl, rfl, rfl, id, rfl, rfl, rfl, .inl ⟨rfl, .inl rfl⟩, hre⟩
  · rw [heq]
    exact effect_appendConfig _ _ rfl rfl rfl rfl rfl rfl rfl rfl fun _ hr => .inl hr

theorem effect_suspect (suspects : List ℕ) (m : Member) :
    Effect room m (checkFailureCount room suspects m) := by
  unfold checkFailureCount
  dsimp only
  split_ifs
  · exact ⟨rfl, rfl, rfl, id, rfl, rfl, rfl, .inl ⟨rfl, .inl rfl⟩, fun _ hr => .inl hr⟩
  all_goals first
    | exact effect_appendConfig _ _ rfl rfl rfl rfl rfl rfl rfl rfl fun _ hr => .inl hr
    | exact .refl _ _

theorem effect_force (target : ℕ) (m : Member) : Effect room m (forceLogPruning room target m) := by
  unfold forceLogPruning
  split_ifs
  · exact effect_appendConfig _ _ rfl rfl rfl rfl rfl rfl rfl rfl fun _ hr => .inl hr
  · exact .refl _ _

theorem effect_applyConfig (entry : Entry) (cid : Cid) (m : Member) :
    Effect room m (applyConfig room entry cid m) := by
  unfold applyConfig
  cases cid.state with
  | stable =>
    dsimp only
    split_ifs
    · obtain ⟨eps, replies, down, heq, hre⟩ := udSendCltReply_eq entry.cltId entry.reqId m
      rw [heq]
      exact ⟨rfl, rfl, rfl, id, rfl, rfl, rfl, .inl ⟨rfl, .inl rfl⟩, hre⟩
    · obtain ⟨eps, replies, down, heq, hre⟩ := udSendCltReply_eq entry.cltId entry.reqId m
      rw [heq]
      exact ⟨rfl, rfl, rfl, id, rfl, rfl, rfl, .inl ⟨rfl, .inl rfl⟩, hre⟩
    · exact .refl _ _
  | extended =>
    dsimp only
    split_ifs
    · exact .refl _ _
    · obtain ⟨eps, replies, down, heq, hre⟩ := udSendCltReply_eq entry.cltId entry.reqId
        { m with cid := { m.cid with state := .transit } }
      rw [heq]
      exact effect_appendConfig _ _ rfl rfl rfl rfl rfl rfl rfl rfl hre
    · exact effect_appendConfig _ _ rfl rfl rfl rfl rfl rfl rfl rfl fun _ hr => .inl hr
  | transit =>
    dsimp only
    split_ifs
    · exact .refl _ _
    · obtain ⟨cid', die, heq, -⟩ :=
        toStable_eq (List.range' m.cid.newSize (m.cid.size - m.cid.newSize)) m
      rw [heq]
      exact effect_appendConfig _ _ rfl rfl rfl rfl rfl rfl rfl rfl fun _ hr => .inl hr

theorem effect_blank (extended : Bool) (m : Member) :
    Effect room m (addBlankEntry room extended m) := by
  unfold addBlankEntry
  split_ifs
  · exact effect_appendConfig _ _ rfl rfl rfl rfl rfl rfl rfl rfl fun _ hr => .inl hr
  · unfold logAppendEntry
    split_ifs
    · exact ⟨rfl, rfl, rfl, nofun, rfl, rfl, rfl, .inl ⟨rfl, .inr ⟨_, by simp, rfl, rfl⟩⟩,
        fun _ hr => .inl hr⟩
    · exact .refl _ _
  · exact effect_appendConfig _ _ rfl rfl rfl rfl rfl rfl rfl rfl fun _ hr => .inl hr
  · obtain ⟨cid', die, heq, -⟩ := toStable_eq
      (List.range' (m.cid.newSize + 1) (m.cid.size - 1 - m.cid.newSize)).reverse m
    dsimp only
    rw [heq]
    exact effect_appendConfig _ _ rfl rfl rfl rfl rfl rfl rfl rfl fun _ hr => .inl hr

end VmFt.Dare.Config
