import VmFt.Dare.ConfigLog

/-! # A resize that a new leader finishes

A committed unstable configuration is moved on by the leader that applies its
CONFIG entry, or by the next leader when it wins the election. The second piece of
code reads the state from the entry its scan has visited last, whatever this
entry carries, and removes servers between other bounds than the first.
-/

namespace VmFt.Dare.Config

open List

/-! ### The rest of an election -/

/-- `CID_STABLE`, `CID_TRANSIT` and `CID_EXTENDED` -/
def stateCode : CidState → UInt8
  | .stable => 0
  | .transit => 1
  | .extended => 2

/-- `entry->data.cid.state`. In a command this is the byte 8; data that end in front of it leave
there what was in the memory before. -/
def dataCidState (stale : UInt8) (e : Entry) : UInt8 :=
  match e.data with
  | .cid cid => stateCode cid.state
  | .cmd bytes => bytes.getD 8 stale
  | .head _ => stale
  | .none => stale

/-- The state in the entry that was visited last; without one the pointer is not initialised. -/
def visitedState (stale : UInt8) (entries : List Entry) : UInt8 :=
  match entries.getLast? with
  | some e => dataCidState stale e
  | none => stale

/-- `apply_committed_entries`, for as many entries as are not applied. -/
def applyCommittedEntries : ℕ → Member → Member
  | 0, m => m
  | n + 1, m =>
    match applyCommittedEntry true m with
    | some m' => applyCommittedEntries n m'
    | none => m

/-- `poll_vote_count` of a candidate that has won, in a log that has room. -/
def pollVoteCount (stale : UInt8) (term : ℕ) (m : Member) : Member :=
  let m := winElection term m
  let m := applyCommittedEntries (m.commit - m.apply) m
  addBlankEntry true (visitedState stale (m.found.drop m.cidOffset) == stateCode .extended) m

/-! ### The configuration that follows -/

/-- What becomes of a configuration: EXTENDED becomes TRANSIT, TRANSIT becomes STABLE without the
servers at the new size and above. -/
def nextCid (cid : Cid) : Cid :=
  match cid.state with
  | .stable => cid
  | .extended => { cid with state := .transit }
  | .transit =>
    { cid with
      state := .stable, size := cid.newSize, newSize := 0
      bitmask := cid.bitmask % 2 ^ cid.newSize }

/-- The entry `e` with the unstable configuration `cid` is committed and applied when the server
wins, no CONFIG entry follows it and the server has the configuration. In a log that ends exactly
with its buffer nothing is applied. -/
structure Pending (term : ℕ) (m : Member) (e : Entry) (cid : Cid) : Prop where
  applied : m.apply = m.commit ∨ m.atEnd = true
  committed : m.commit ≤ m.log.length
  entry : ∃ k < m.commit, m.log[k]? = some e ∧ ∀ e' ∈ m.log.drop (k + 1), e'.type ≠ .config
  type : e.type = .config
  data : e.data = .cid cid
  own : (winElection term m).cid = cid
  unstable : cid.state ≠ .stable
  size : 0 < cid.size

/-- The entry of `poll_vote_count` carries the configuration that applying `e` gives, and so does
the server. -/
structure FinishesResize (stale : UInt8) (term : ℕ) (m : Member) (e : Entry) (cid : Cid) :
    Prop where
  own : (pollVoteCount stale term m).cid = nextCid cid
  applied : (applyConfig true e cid (winElection term m)).cid = nextCid cid
  entry : ∃ reqId cltId, (pollVoteCount stale term m).log =
    m.log ++ [⟨nextIdx m.found, term, reqId, cltId, .config, .cid (nextCid cid)⟩]
  appliedEntry : ∃ reqId cltId, (applyConfig true e cid (winElection term m)).log =
    m.log ++ [⟨nextIdx m.found, term, reqId, cltId, .config, .cid (nextCid cid)⟩]

/-- The state that is read is that of the configuration, and no server is on where the two loops
differ or behind the group. -/
def Readable (stale : UInt8) (m : Member) (cid : Cid) : Prop :=
  (visitedState stale (m.found.drop m.commit) = stateCode .extended ↔ cid.state = .extended) ∧
    (cid.state = .transit →
      ∀ i, isServerOn cid i = true → cid.newSize ≤ i → cid.newSize < i ∧ i < cid.size)

/-- The entry of `poll_vote_count` names the same request as the one that applying `e` appends. -/
def SameRequest (term : ℕ) (m : Member) (e : Entry) (cid : Cid) : Prop :=
  let m := winElection term m
  if cid.state = .extended ∧ e.reqId ≠ 0 then m.reqId = 0 ∧ m.cltId = 0
  else m.reqId = e.reqId ∧ m.cltId = e.cltId

/-! ### The removal of servers -/

variable {stale : UInt8} {term : ℕ} {m : Member} {e : Entry} {cid : Cid}

theorem cid_ext {cid' : Cid} (he : cid.epoch = cid'.epoch) (hsi : cid.size = cid'.size)
    (hnew : cid.newSize = cid'.newSize) (hs : cid.state = cid'.state)
    (hon : ∀ i, isServerOn cid i = isServerOn cid' i) : cid = cid' := by
  rcases cid with ⟨epoch, size, newSize, state, bitmask⟩
  rcases cid' with ⟨epoch', size', newSize', state', bitmask'⟩
  obtain rfl : bitmask = bitmask' := Nat.eq_of_testBit_eq hon
  cases he
  cases hsi
  cases hnew
  cases hs
  rfl

theorem serverRm_of_off {i : ℕ} (h : isServerOn cid i = false) : serverRm cid i = cid := by
  refine cid_ext rfl rfl rfl rfl fun j => ?_
  rw [isServerOn_serverRm]
  by_cases heq : i = j
  · rw [← heq, h]
    rfl
  · simp [heq]

theorem removeServers_cid (is : List ℕ) (m : Member) :
    (removeServers is m).cid = is.foldl serverRm m.cid := by
  induction is generalizing m with
  | nil => rfl
  | cons i is ih =>
    rw [removeServers, foldl_cons]
    split_ifs with hidx hon
    · exact ih _
    · exact ih _
    · rw [serverRm_of_off (by simpa using hon)]
      exact ih m

theorem isServerOn_foldl_serverRm (is : List ℕ) (cid : Cid) (j : ℕ) :
    isServerOn (is.foldl serverRm cid) j = (isServerOn cid j && !decide (j ∈ is)) := by
  induction is generalizing cid with
  | nil => simp
  | cons i is ih =>
    rw [foldl_cons, ih, isServerOn_serverRm]
    by_cases heq : i = j
    · simp [heq]
    · simp [heq, Ne.symm heq]

theorem toStable_cid (places : List ℕ) (m : Member) : (toStable places m).cid =
      { places.foldl serverRm { m.cid with state := .stable } with
        size := m.cid.newSize, newSize := 0 } := by
  have hn := narrows_foldl places { m.cid with state := .stable }
  unfold toStable
  dsimp only
  rw [removeServers_cid, hn.newSize]

theorem toStable_cid_eq_nextCid (places : List ℕ) (hs : m.cid.state = .transit) :
    (toStable places m).cid = nextCid m.cid ↔
      ∀ i, isServerOn m.cid i = true → (m.cid.newSize ≤ i ↔ i ∈ places) := by
  have hn := narrows_foldl places { m.cid with state := .stable }
  have hne : ∀ i, isServerOn (nextCid m.cid) i =
      (decide (i < m.cid.newSize) && isServerOn m.cid i) := fun i => by
    simp only [nextCid, hs, isServerOn, Nat.testBit_mod_two_pow]
  have hon : ∀ i, isServerOn (toStable places m).cid i =
      (isServerOn m.cid i && !decide (i ∈ places)) := fun i => by
    rw [toStable_cid]
    exact isServerOn_foldl_serverRm ..
  constructor
  · intro heq i hi
    have hi' := hon i
    rw [heq, hne, hi, Bool.eq_iff_iff] at hi'
    simp only [Bool.and_true, decide_eq_true_eq, Bool.true_and, Bool.not_eq_true',
      decide_eq_false_iff_not] at hi'
    rw [← not_lt, hi', not_not]
  · intro hp
    have hcid := toStable_cid places m
    refine cid_ext ?_ ?_ ?_ ?_ fun i => ?_
    · rw [hcid]
      simp [nextCid, hs, hn.epoch]
    · rw [hcid]
      simp [nextCid, hs]
    · rw [hcid]
      simp [nextCid, hs]
    · rw [hcid]
      simp [nextCid, hs, hn.state]
    · rw [hon, hne]
      by_cases hi : isServerOn m.cid i = true
      · rw [hi, Bool.eq_iff_iff]
        simp [← hp i hi]
      · simp [hi]

/-! ### The two pieces of code -/

variable (term) in
theorem winElection_eq (h : m.commit ≤ m.log.length) :
    ∃ cid reqId cltId down cidOffset head, winElection term m = { m with
        leader := true, term := term, cid := cid, reqId := reqId, cltId := cltId, down := down
        cidOffset := cidOffset, head := head } ∧
      m.found.drop cidOffset = m.found.drop m.commit := by
  obtain ⟨cid, reqId, cltId, down, heq, -, -⟩ :=
    foldl_pollEntry_eq (m.found.drop m.cidOffset) { m with leader := true, term := term }
  unfold winElection pollConfigEntries
  rw [show Member.found { m with leader := true, term := term } = m.found from rfl]
  dsimp only
  rw [heq]
  refine ⟨cid, reqId, cltId, down, _, _, rfl, ?_⟩
  cases hend : m.atEnd with
  | true => simp [Member.found, hend]
  | false =>
    -- The offset comes to the commit offset.
    rw [Member.found_of_inside hend]
    congr 1
    by_cases hnil : m.log.drop m.cidOffset = []
    · have hle := drop_eq_nil_iff.mp hnil
      simp only [hnil, if_true, true_and]
      split_ifs <;> omega
    · simp only [hnil, if_false, true_and]
      split_ifs <;> omega

theorem appendConfig_spec (reqId cltId : ℕ) (m : Member) :
    (appendConfig true reqId cltId m).cid = m.cid ∧ (appendConfig true reqId cltId m).log =
        m.log ++ [⟨nextIdx m.found, m.term, reqId, cltId, .config, .cid m.cid⟩] :=
  ⟨rfl, rfl⟩

theorem Pending.no_config (h : Pending term m e cid) (cidIdx : ℕ) :
    (m.found.drop m.commit).any (isConfig cidIdx) = false := by
  obtain ⟨k, hk, -, hl⟩ := h.entry
  rw [any_eq_false]
  intro e' he' hc
  have hmem : e' ∈ m.log.drop (k + 1) := by
    unfold Member.found at he'
    split_ifs at he'
    · simp at he'
    rw [show m.commit = (k + 1) + (m.commit - (k + 1)) by omega, ← drop_drop] at he'
    exact mem_of_mem_drop he'
  simp [isConfig, hl e' hmem] at hc

/-- The state to which `poll_vote_count` takes the server when it does not go by the CONFIG
entry. -/
def moveOn (extended : Bool) (m : Member) : Member :=
  if extended then { m with cid := { m.cid with state := .transit } }
  else toStable (range' (m.cid.newSize + 1) (m.cid.size - 1 - m.cid.newSize)).reverse m

theorem applyCommittedEntries_of_applied (n : ℕ) (h : m.apply = m.commit ∨ m.atEnd = true) :
    applyCommittedEntries n m = m := by
  have hnone : applyCommittedEntry true m = none := by
    unfold applyCommittedEntry
    rcases h with happlied | hend
    · rw [if_neg (by omega)]
    · simp [Member.found, hend]
  cases n with
  | zero => rfl
  | succ n => rw [applyCommittedEntries, hnone]

variable (stale) in
theorem pollVoteCount_eq (h : Pending term m e cid) : pollVoteCount stale term m =
      let m' := winElection term m
      appendConfig true m'.reqId m'.cltId
        (moveOn (visitedState stale (m.found.drop m.commit) == stateCode .extended) m') := by
  obtain ⟨cid', reqId, cltId, down, cidOffset, head, heq, hdrop⟩ :=
    winElection_eq term h.committed
  have hdone : (winElection term m).apply = (winElection term m).commit ∨
      (winElection term m).atEnd = true := by
    rw [heq]
    exact h.applied
  have hfound : (winElection term m).found.drop (winElection term m).cidOffset =
      m.found.drop m.commit := by
    rw [heq]
    exact hdrop
  have hstate : (winElection term m).cid.state ≠ .stable := by
    rw [h.own]
    exact h.unstable
  unfold pollVoteCount
  dsimp only
  rw [applyCommittedEntries_of_applied _ hdone, addBlankEntry, if_neg hstate, hfound, h.no_config,
    if_neg Bool.false_ne_true, moveOn]
  split_ifs <;> rfl

theorem moveOn_keeps (extended : Bool) (m : Member) : (moveOn extended m).log = m.log ∧
      (moveOn extended m).found = m.found ∧ (moveOn extended m).term = m.term := by
  unfold moveOn
  split_ifs
  · exact ⟨rfl, rfl, rfl⟩
  · obtain ⟨cid, die, heq, -⟩ := toStable_eq
      (range' (m.cid.newSize + 1) (m.cid.size - 1 - m.cid.newSize)).reverse m
    rw [heq]
    exact ⟨rfl, rfl, rfl⟩

theorem mem_skipping {n size i : ℕ} :
    i ∈ (range' (n + 1) (size - 1 - n)).reverse ↔ n < i ∧ i < size := by
  rw [mem_reverse, mem_range'_1]
  omega

theorem moveOn_cid (extended : Bool) (hs : m.cid.state ≠ .stable) :
    (moveOn extended m).cid = nextCid m.cid ↔ (extended = true ↔ m.cid.state = .extended) ∧
        (m.cid.state = .transit → ∀ i, isServerOn m.cid i = true → m.cid.newSize ≤ i →
          m.cid.newSize < i ∧ i < m.cid.size) := by
  cases hc : m.cid.state with
  | stable => exact absurd hc hs
  | extended =>
    cases extended with
    | true => simp [moveOn, nextCid, hc]
    | false =>
      have hne : (moveOn false m).cid ≠ nextCid m.cid := fun heq => by
        have hst := congrArg Cid.state heq
        simp only [moveOn, Bool.false_eq_true, if_false, toStable_cid, nextCid, hc,
          (narrows_foldl _ _).state] at hst
        cases hst
      simp [hne]
  | transit =>
    cases extended with
    | true =>
      have hne : (moveOn true m).cid ≠ nextCid m.cid := fun heq => by
        have hst := congrArg Cid.state heq
        simp only [moveOn, if_true, nextCid, hc] at hst
        cases hst
      simp [hne]
    | false =>
      have hp := toStable_cid_eq_nextCid
        (range' (m.cid.newSize + 1) (m.cid.size - 1 - m.cid.newSize)).reverse hc
      simp only [mem_skipping] at hp
      simp only [moveOn, Bool.false_eq_true, if_false, hp, reduceCtorEq, iff_self, true_and,
        forall_const]
      refine forall₂_congr fun i _ => ⟨Iff.mp, fun himp => ⟨himp, fun hi => hi.1.le⟩⟩

theorem applyConfig_spec (hs : cid.state ≠ .stable) (hown : m.cid = cid) :
    let m' := applyConfig true e cid m
    let answered := cid.state = .extended ∧ e.reqId ≠ 0
    m'.log = m.log ++ [⟨nextIdx m.found, m.term, if answered then 0 else e.reqId,
      if answered then 0 else e.cltId, .config, .cid m'.cid⟩] ∧
    (m'.cid = nextCid cid ↔ (cid.state = .transit →
      ∀ i, isServerOn cid i = true → cid.newSize ≤ i → i < cid.size)) := by
  subst hown
  cases hc : m.cid.state with
  | stable => exact absurd hc hs
  | extended =>
    by_cases hreq : e.reqId = 0
    · simp [applyConfig, hc, hreq, appendConfig, logAppendEntry, nextCid, Member.found]
    · obtain ⟨eps, replies, down, heq, -⟩ := udSendCltReply_eq e.cltId e.reqId
        { m with cid := { m.cid with state := .transit } }
      simp only at heq
      simp [applyConfig, hc, hreq, heq, appendConfig, logAppendEntry, nextCid, Member.found]
  | transit =>
    have hp := toStable_cid_eq_nextCid
      (range' m.cid.newSize (m.cid.size - m.cid.newSize)) hc
    obtain ⟨cid', die, heq, -⟩ := toStable_eq
      (range' m.cid.newSize (m.cid.size - m.cid.newSize)) m
    rw [heq] at hp
    simp only [applyConfig, hc, lt_irrefl, if_false, heq, appendConfig, logAppendEntry,
      Member.found, if_true, reduceCtorEq, false_and, true_and, forall_const, hp, mem_range'_1]
    refine forall₂_congr fun i _ => ⟨fun hiff hle => ?_, fun himp => ?_⟩
    · have := hiff.mp hle
      omega
    · exact ⟨fun hle => ⟨hle, by have := himp hle; omega⟩, fun hi => hi.1⟩

/-- A new leader finishes the resize as applying its entry does exactly if the state that it reads
is the right one and the servers that only one of the loops removes are off. The entries also name
the same request exactly if the server kept the one of `e` and had not answered it. -/
theorem finishesResize_iff (h : Pending term m e cid) :
    (FinishesResize stale term m e cid ↔ Readable stale m cid) ∧
      (FinishesResize stale term m e cid ∧
        (pollVoteCount stale term m).log = (applyConfig true e cid (winElection term m)).log ↔
        Readable stale m cid ∧ SameRequest term m e cid) := by
  obtain ⟨cid', reqId, cltId, down, cidOffset, head, heq, -⟩ := winElection_eq term h.committed
  have hlog : (winElection term m).log = m.log := by rw [heq]
  have hfound : (winElection term m).found = m.found := by
    rw [heq]
    rfl
  have hterm : (winElection term m).term = term := by rw [heq]
  obtain ⟨hkeep, hkeep', hkeep''⟩ := moveOn_keeps
    (visitedState stale (m.found.drop m.commit) == stateCode .extended) (winElection term m)
  have hmoved := moveOn_cid (m := winElection term m)
    (visitedState stale (m.found.drop m.commit) == stateCode .extended)
    (by rw [h.own]; exact h.unstable)
  rw [h.own, beq_iff_eq] at hmoved
  obtain ⟨happlied, happlied'⟩ := applyConfig_spec (e := e) h.unstable h.own
  rw [hlog, hfound, hterm] at happlied
  have hpoll := pollVoteCount_eq stale h
  dsimp only at hpoll
  generalize moveOn _ (winElection term m) = moved at hkeep hkeep' hkeep'' hmoved hpoll
  have hpolled : (pollVoteCount stale term m).log = m.log ++
      [⟨nextIdx m.found, term, (winElection term m).reqId, (winElection term m).cltId, .config,
        .cid moved.cid⟩] := by
    rw [hpoll, (appendConfig_spec _ _ _).2, hkeep, hkeep', hkeep'', hlog, hfound, hterm]
  have hiff : FinishesResize stale term m e cid ↔ Readable stale m cid := by
    constructor
    · intro hfin
      apply hmoved.mp
      rw [← hfin.own, hpoll, (appendConfig_spec _ _ _).1]
    · intro hread
      have hnext := hmoved.mpr hread
      have hcid := happlied'.mpr fun htransit i hon hle => (hread.2 htransit i hon hle).2
      rw [hnext] at hpolled
      rw [hcid] at happlied
      refine ⟨?_, hcid, ⟨_, _, hpolled⟩, ⟨_, _, happlied⟩⟩
      rw [hpoll, (appendConfig_spec _ _ _).1, hnext]
  refine ⟨hiff, ?_⟩
  rw [hiff, and_congr_right_iff]
  intro hread
  have hfin := hiff.mpr hread
  rw [hpolled, happlied, hmoved.mpr hread, hfin.applied, SameRequest]
  by_cases hanswered : cid.state = .extended ∧ e.reqId ≠ 0
  · simp [hanswered]
  · simp [hanswered]

/-- A group of three servers that takes in a fourth one. -/
def growing (state : CidState) : Cid := ⟨1, 3, 4, state, 15⟩

/-- A server that has applied the CONFIG entry of an unstable configuration. -/
def resizing (state : CidState) (behind : List Entry) : Member :=
  { initialMember 3 0 with
    cid := growing state, log := ⟨1, 1, 0, 0, .config, .cid (growing state)⟩ :: behind
    cidOffset := 1, apply := 1, commit := 1 }

/-- In TRANSIT with nothing behind the CONFIG entry, memory that does not hold 2 reads right. -/
theorem finishesResize_transit :
    Pending 2 (resizing .transit []) ⟨1, 1, 0, 0, .config, .cid (growing .transit)⟩
        (growing .transit) ∧
      (FinishesResize 0 2 (resizing .transit []) ⟨1, 1, 0, 0, .config, .cid (growing .transit)⟩
        (growing .transit) ↔ Readable 0 (resizing .transit []) (growing .transit)) := by
  have hpending : Pending 2 (resizing .transit [])
      ⟨1, 1, 0, 0, .config, .cid (growing .transit)⟩ (growing .transit) :=
    ⟨.inl rfl, by decide, ⟨0, by decide, rfl, by simp [resizing]⟩, rfl, rfl, rfl, by decide,
      by decide⟩
  exact ⟨hpending, (finishesResize_iff hpending).1⟩

/-- In EXTENDED with a command behind the CONFIG entry, a byte of the command is read and the group
goes to STABLE at once. -/
theorem extended_not_finishesResize :
    Pending 2 (resizing .extended [⟨2, 1, 1, 1, .csm, .cmd (replicate 9 0)⟩])
        ⟨1, 1, 0, 0, .config, .cid (growing .extended)⟩ (growing .extended) ∧
      ¬ FinishesResize 0 2 (resizing .extended [⟨2, 1, 1, 1, .csm, .cmd (replicate 9 0)⟩])
        ⟨1, 1, 0, 0, .config, .cid (growing .extended)⟩ (growing .extended) := by
  constructor
  · exact ⟨.inl rfl, by decide, ⟨0, by decide, rfl, by simp [resizing]⟩, rfl, rfl, rfl, by decide,
      by decide⟩
  · intro hfin
    exact absurd hfin.own (by decide +kernel)

end VmFt.Dare.Config
