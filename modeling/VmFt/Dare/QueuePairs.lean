import VmFt.Lib.Transition
import VmFt.Dare.Sid
import VmFt.Dare.Log

/-! # The LOG queue pairs of a server

A server grants access to its log by connecting the LOG queue pair of another
server and revokes it by resetting the queue pair. Which queue pairs it has to
reset it knows from a flag of its own. The handshake connects LOG queue pairs
of a leader without setting that flag, and a disconnect does not clear it.
-/

namespace VmFt.Dare.QueuePairs

open VmFt.System

/-- The states a queue pair is left in: the ones on the way to `rts` are passed within one call. -/
inductive QpState | reset | rts | err
  deriving DecidableEq, Repr

/-- `dare_ib_ep_t` as far as the LOG queue pair is concerned; `qpError` is the state `RC_QP_ERROR`
the server keeps itself. -/
structure Ep where
  rcConnected : Bool
  logAccess : Bool
  logQp : QpState
  qpError : Bool
  deriving DecidableEq, Repr

structure Node where
  idx : ℕ
  idx_lt : idx < 256
  sid : ℕ
  cid : Cid
  ep : ℕ → Ep

def cidIsServerOn (cid : Cid) (i : ℕ) : Bool := cid.bitmask.testBit i

def getExtendedGroupSize (cid : Cid) : ℕ :=
  if cid.state = .stable then cid.size
  else if cid.size < cid.newSize then cid.newSize
  else cid.size

/-- All servers of a configuration have a place in it. -/
def CidOk (cid : Cid) : Prop := cid.bitmask < 2 ^ getExtendedGroupSize cid

instance (cid : Cid) : Decidable (CidOk cid) := inferInstanceAs (Decidable (_ < _))

def isLeader (n : Node) : Bool := sidGetL n.sid && sidGetIdx n.sid == n.idx

def rcQpReset (ep : Ep) : Ep := { ep with logQp := .reset }

/-- `rc_qp_reset_to_rts`, `rc_qp_restart` and `rc_connect_server`. -/
def rcQpResetToRts (ep : Ep) : Ep := { ep with logQp := .rts, qpError := false }

def setEp (n : Node) (j : ℕ) (ep : Ep) : Node := { n with ep := Function.update n.ep j ep }

/-- The servers both loops go over. -/
def isPeer (n : Node) (j : ℕ) : Bool :=
  j < getExtendedGroupSize n.cid && j != n.idx && cidIsServerOn n.cid j

def rcRevokeLogAccess (n : Node) : Node :=
  { n with ep := fun j =>
      if isPeer n j && (n.ep j).rcConnected && (n.ep j).logAccess then
        { rcQpReset (n.ep j) with logAccess := false }
      else n.ep j }

/-- The branch of `rc_restore_log_access` for a leader. -/
def grantAll (n : Node) : Node :=
  { n with ep := fun j =>
      if isPeer n j && (n.ep j).rcConnected && !(n.ep j).logAccess then
        { rcQpResetToRts (n.ep j) with logAccess := true }
      else n.ep j }

def rcRestoreLogAccess (n : Node) : Option Node :=
  let leader := sidGetIdx n.sid
  if leader ≠ n.idx then
    if cidIsServerOn n.cid leader = false then none
    else if (n.ep leader).rcConnected = false then none
    else if (n.ep leader).logAccess then some n
    else some (setEp n leader { rcQpResetToRts (n.ep leader) with logAccess := true })
  else if sidGetL n.sid then some (grantAll n)
  else some n

def rcDisconnectServer (n : Node) (j : ℕ) : Node :=
  if (n.ep j).rcConnected then setEp n j { rcQpReset (n.ep j) with rcConnected := false } else n

/-- `update_cid`; the servers of the new configuration are visited up to its larger size. -/
def updateCid (n : Node) (cid : Cid) : Node :=
  { n with
    cid := cid
    ep := fun j =>
      if j < max cid.size cid.newSize ∧ cidIsServerOn n.cid j ∧ cidIsServerOn cid j = false then
        (rcDisconnectServer n j).ep j
      else n.ep j }

/-- The part of `handle_rc_syn` that touches the connection. -/
def handleRcSyn (n : Node) (j size : ℕ) : Node :=
  if cidIsServerOn n.cid j = false ∨ size ≤ n.idx then n
  else if (n.ep j).rcConnected = false ∧ isLeader n then setEp n j (rcQpResetToRts (n.ep j))
  else n

def handleRcSynack (n : Node) (j : ℕ) : Node :=
  if cidIsServerOn n.cid j = false then n
  else if (n.ep j).rcConnected then n
  else if isLeader n then setEp n j { rcQpResetToRts (n.ep j) with rcConnected := true }
  else setEp n j { n.ep j with rcConnected := true }

def handleRcAck (n : Node) (j : ℕ) : Node :=
  if cidIsServerOn n.cid j then setEp n j { n.ep j with rcConnected := true } else n

/-- The configuration in which a leader takes a server into an empty place, or behind the last. -/
def cidAfterJoin (cid : Cid) (j : ℕ) : Cid :=
  let cid := { cid with bitmask := cid.bitmask ||| 2 ^ j }
  if j = cid.size then
    { cid with state := .extended, newSize := cid.size + 1, epoch := cid.epoch + 1 }
  else cid

def cidAfterRemoval (cid : Cid) (j : ℕ) : Cid :=
  { cid with bitmask := cid.bitmask ^^^ (cid.bitmask &&& 2 ^ j) }

inductive Event where
  | handleRcSyn (j size : ℕ)
  | handleRcSynack (j : ℕ)
  | handleRcAck (j : ℕ)
  | disconnectServer (j : ℕ)
  | removeServer (j : ℕ)
  | joinServer (j : ℕ)
  | resize (cid : Cid)
  | updateCid (cid : Cid)
  | startElection
  | becomeLeader
  | preferOwnLog (term : ℕ)
  | vote (sid : ℕ) (cid : Cid)
  | toFollower (sid : ℕ)
  | adoptSid (sid : ℕ)
  | qpFails (j : ℕ)
  | postSend (j : ℕ)

def step (n : Node) : Event → Option Node
  | .handleRcSyn j size => guarded (j ≠ n.idx) (handleRcSyn n j size)
  | .handleRcSynack j => guarded (j ≠ n.idx) (handleRcSynack n j)
  | .handleRcAck j => guarded (j ≠ n.idx) (handleRcAck n j)
  | .disconnectServer j => guarded (j ≠ n.idx) (rcDisconnectServer n j)
  | .removeServer j =>
    guarded (j ≠ n.idx)
      { rcDisconnectServer n j with cid := cidAfterRemoval n.cid j }
  | .joinServer j =>
    guarded (isLeader n ∧ j ≠ n.idx ∧ n.cid.state = .stable ∧ j ≤ n.cid.size ∧
        cidIsServerOn n.cid j = false)
      { setEp n j { n.ep j with rcConnected := false } with cid := cidAfterJoin n.cid j }
  | .resize cid => guarded (cid.bitmask = n.cid.bitmask ∧ CidOk cid) { n with cid := cid }
  | .updateCid cid => guarded (isLeader n = false ∧ CidOk cid) (updateCid n cid)
  | .startElection =>
    some (rcRevokeLogAccess
      { n with sid := sidSetIdx (sidUnsetL (sidSetTerm 0 (sidGetTerm n.sid + 1))) n.idx })
  | .becomeLeader =>
    if sidGetIdx n.sid = n.idx then rcRestoreLogAccess { n with sid := sidSetL n.sid } else none
  | .preferOwnLog term =>
    guarded (sidGetL n.sid = false)
      { rcRevokeLogAccess n with sid := sidSetIdx (sidSetTerm n.sid term) n.idx }
  | .vote sid cid =>
    if sidGetL n.sid = false ∧ CidOk cid then
      rcRestoreLogAccess (updateCid { rcRevokeLogAccess n with sid := sid } cid)
    else none
  -- the return value of `rc_restore_log_access` is not looked at
  | .toFollower sid =>
    let n := rcRevokeLogAccess { n with sid := sid }
    some ((rcRestoreLogAccess n).getD n)
  | .adoptSid sid => guarded (isLeader { n with sid := sid } = false) { n with sid := sid }
  | .qpFails j =>
    guarded ((n.ep j).logQp = .rts) (setEp n j { n.ep j with logQp := .err, qpError := true })
  -- only a leader posts on LOG queue pairs; one in error is restarted
  | .postSend j =>
    guarded (isLeader n ∧ isPeer n j ∧ (n.ep j).rcConnected ∧ (n.ep j).qpError)
      (setEp n j (rcQpResetToRts (n.ep j)))

def node : System Node Event := ⟨step⟩

/-- A server that has just been started. -/
def Node.init (idx : ℕ) (h : idx < 256) (cid : Cid) : Node :=
  ⟨idx, h, sidNull, cid, fun _ => ⟨false, false, .reset, false⟩⟩

/-- No connection is set up while the server is leader, and no connected server with log access
leaves the configuration from a place behind the new one. -/
def Orderly (n : Node) : Event → Prop
  | .handleRcSyn j _ | .handleRcSynack j | .handleRcAck j => isLeader n → (n.ep j).rcConnected
  | .updateCid cid => ∀ j, j ≠ n.idx → (n.ep j).rcConnected → (n.ep j).logAccess →
    cidIsServerOn cid j ∨ j < max cid.size cid.newSize
  | _ => True

/-! ### The flag tells which queue pairs are connected -/

structure EpOk (leader peer : Bool) (ep : Ep) : Prop where
  access_of_qp : ep.logQp ≠ .reset → ep.rcConnected ∧ ep.logAccess
  peer_of_access : ep.rcConnected → ep.logAccess → peer
  access_of_leader : leader → peer → ep.rcConnected → ep.logAccess

structure Inv (n : Node) : Prop where
  cid_ok : CidOk n.cid
  ep_ok : ∀ j, j ≠ n.idx → EpOk (isLeader n) (isPeer n j) (n.ep j)

variable {n m : Node} {cid : Cid} {ep : Ep} {j : ℕ} {leader peer : Bool}

theorem CidOk.lt_of_on (h : CidOk cid) (hon : cidIsServerOn cid j) :
    j < getExtendedGroupSize cid := by
  by_contra hge
  have hlt : cid.bitmask < 2 ^ j :=
    lt_of_lt_of_le h (Nat.pow_le_pow_right (by decide) (not_lt.mp hge))
  rw [cidIsServerOn, Nat.testBit_lt_two_pow hlt] at hon
  cases hon

theorem isPeer_eq (h : CidOk n.cid) (hj : j ≠ n.idx) : isPeer n j = cidIsServerOn n.cid j := by
  unfold isPeer
  cases hon : cidIsServerOn n.cid j with
  | false => simp
  | true => simp [h.lt_of_on hon, hj]

/-- A revoked endpoint: nothing is connected, and no flag is left that a grant would trust. -/
structure Revoked (ep : Ep) : Prop where
  reset : ep.logQp = .reset
  unflagged : ep.rcConnected → ep.logAccess = false

theorem Revoked.epOk (h : Revoked ep) : EpOk false peer ep := by
  constructor
  · exact fun hqp => absurd h.reset hqp
  · intro hrc ha
    rw [h.unflagged hrc] at ha
    cases ha
  · nofun

theorem Inv.revoke (h : Inv n) (hj : j ≠ n.idx) : Revoked ((rcRevokeLogAccess n).ep j) := by
  have hep := h.ep_ok j hj
  have heq : (rcRevokeLogAccess n).ep j =
      if isPeer n j && (n.ep j).rcConnected && (n.ep j).logAccess then
        { rcQpReset (n.ep j) with logAccess := false } else n.ep j := rfl
  rw [heq]
  split
  · exact ⟨rfl, fun _ => rfl⟩
  · -- an endpoint that is skipped has no access
    rename_i hs
    have hno : ¬ ((n.ep j).rcConnected ∧ (n.ep j).logAccess) := by
      rintro ⟨hrc, ha⟩
      exact hs (by rw [hep.peer_of_access hrc ha, hrc, ha]; rfl)
    constructor
    · by_contra hqp
      exact hno (hep.access_of_qp hqp)
    · intro hrc
      rw [← Bool.not_eq_true]
      exact fun ha => hno ⟨hrc, ha⟩

theorem isLeader_eq_false_of_ne (h : sidGetIdx n.sid ≠ n.idx) : isLeader n = false := by
  simp [isLeader, h]

theorem ne_of_restore_none (h : rcRestoreLogAccess n = none) : sidGetIdx n.sid ≠ n.idx := by
  intro heq
  simp only [rcRestoreLogAccess, heq, ne_eq, not_true, if_false] at h
  split at h <;> cases h

theorem restore_of_revoked (h : rcRestoreLogAccess n = some m) (hcid : CidOk n.cid)
    (hr : ∀ j, j ≠ n.idx → Revoked (n.ep j)) : Inv m ∧ m.cid = n.cid ∧ m.idx = n.idx ∧
      (isLeader n = false → ∀ j, j ≠ n.idx → ((m.ep j).logQp = .rts ↔ j = sidGetIdx n.sid)) := by
  simp only [rcRestoreLogAccess] at h
  by_cases hne : sidGetIdx n.sid ≠ n.idx
  · -- the SID names another server
    rw [if_pos hne] at h
    split_ifs at h with hon hrc ha
    · rw [Bool.not_eq_false] at hrc
      rw [(hr _ hne).unflagged hrc] at ha
      cases ha
    · rw [Bool.not_eq_false] at hon hrc
      obtain rfl := Option.some.inj h
      have hle : isLeader (setEp n (sidGetIdx n.sid)
          { rcQpResetToRts (n.ep (sidGetIdx n.sid)) with logAccess := true }) = false :=
        isLeader_eq_false_of_ne hne
      refine ⟨⟨hcid, fun j hj => ?_⟩, rfl, rfl, fun _ j hj => ?_⟩
      · rw [hle]
        by_cases hj' : j = sidGetIdx n.sid
        · subst hj'
          have hp : isPeer n (sidGetIdx n.sid) = true := by rwa [isPeer_eq hcid hne]
          simp only [setEp, Function.update_self]
          exact ⟨fun _ => ⟨hrc, rfl⟩, fun _ _ => hp, nofun⟩
        · simp only [setEp, Function.update_of_ne hj']
          exact (hr j hj).epOk
      · by_cases hj' : j = sidGetIdx n.sid
        · subst hj'
          simp [setEp, rcQpResetToRts]
        · simp [setEp, (hr j hj).reset, hj']
  · rw [if_neg hne] at h
    have heq : sidGetIdx n.sid = n.idx := not_not.mp hne
    split at h
    · -- a leader opens its queue pairs to everybody
      rename_i hl
      obtain rfl := Option.some.inj h
      have hle : isLeader n = true := by simp [isLeader, hl, heq]
      refine ⟨⟨hcid, fun j hj => ?_⟩, rfl, rfl, fun hno => ?_⟩
      · change EpOk (isLeader n) (isPeer n j) _
        simp only [grantAll]
        split
        · rename_i hg
          simp only [Bool.and_eq_true] at hg
          exact ⟨fun _ => ⟨hg.1.2, rfl⟩, fun _ _ => hg.1.1, fun _ _ _ => rfl⟩
        · rename_i hg
          have hep : EpOk false (isPeer n j) (n.ep j) := (hr j hj).epOk
          refine ⟨hep.access_of_qp, hep.peer_of_access, fun _ hp hrc => ?_⟩
          simpa [hp, hrc] using hg
      · rw [hle] at hno
        cases hno
    · rename_i hl
      obtain rfl := Option.some.inj h
      have hle : isLeader n = false := by simp [isLeader, hl]
      refine ⟨⟨hcid, fun j hj => ?_⟩, rfl, rfl, fun _ j hj => ?_⟩
      · rw [hle]
        exact (hr j hj).epOk
      · rw [(hr j hj).reset, heq]
        exact iff_of_false nofun hj

/-! ### Every step keeps flag and queue pairs in step -/

theorem Inv.withEp (h : Inv n) (hep : j ≠ n.idx → EpOk (isLeader n) (isPeer n j) ep) :
    Inv (setEp n j ep) := by
  refine ⟨h.cid_ok, fun k hk => ?_⟩
  by_cases hkj : k = j
  · subst hkj
    simp only [setEp, Function.update_self]
    exact hep hk
  · simp only [setEp, Function.update_of_ne hkj]
    exact h.ep_ok k hk

theorem EpOk.of_disconnect : EpOk leader peer { rcQpReset ep with rcConnected := false } :=
  ⟨fun hqp => absurd rfl hqp, nofun, nofun⟩

theorem Inv.disconnect (h : Inv n) : Inv (rcDisconnectServer n j) := by
  unfold rcDisconnectServer
  split
  · exact h.withEp fun _ => .of_disconnect
  · exact h

theorem EpOk.connect (h : EpOk false peer ep) (hp : peer) :
    EpOk false peer { ep with rcConnected := true } :=
  ⟨fun hqp => ⟨rfl, (h.access_of_qp hqp).2⟩, fun _ _ => hp, nofun⟩

theorem inv_of_revoked (hcid : CidOk n.cid) (hl : isLeader n = false)
    (hr : ∀ j, j ≠ n.idx → Revoked (n.ep j)) : Inv n := by
  refine ⟨hcid, fun j hj => ?_⟩
  rw [hl]
  exact (hr j hj).epOk

theorem Inv.changeCid (h : Inv n) (hcid : CidOk cid)
    (hs : ∀ k, k ≠ n.idx → (n.ep k).rcConnected → (n.ep k).logAccess → cidIsServerOn cid k)
    (hnew : ∀ k, k ≠ n.idx → cidIsServerOn cid k → (n.ep k).rcConnected →
      cidIsServerOn n.cid k) : Inv { n with cid := cid } := by
  refine ⟨hcid, fun k hk => ?_⟩
  have hep := h.ep_ok k hk
  have hp : isPeer { n with cid := cid } k = cidIsServerOn cid k := isPeer_eq hcid hk
  rw [isPeer_eq h.cid_ok hk] at hep
  rw [hp]
  constructor
  · exact hep.access_of_qp
  · exact hs k hk
  · exact fun hl hon hrc => hep.access_of_leader hl (hnew k hk hon hrc) hrc

theorem updateCid_ep (n : Node) (cid : Cid) (j : ℕ) : (updateCid n cid).ep j = n.ep j ∨
      (updateCid n cid).ep j = { rcQpReset (n.ep j) with rcConnected := false } := by
  simp only [updateCid, rcDisconnectServer]
  split_ifs
  · exact .inr (by simp [setEp])
  · exact .inl rfl
  · exact .inl rfl

theorem Revoked.updateCid (h : Revoked (n.ep j)) : Revoked ((updateCid n cid).ep j) := by
  rcases updateCid_ep n cid j with heq | heq <;> rw [heq]
  · exact h
  · exact ⟨rfl, nofun⟩

theorem Inv.updateCid (h : Inv n) (hl : isLeader n = false) (hcid : CidOk cid)
    (hs : ∀ j, j ≠ n.idx → (n.ep j).rcConnected → (n.ep j).logAccess →
      cidIsServerOn cid j ∨ j < max cid.size cid.newSize) : Inv (updateCid n cid) := by
  refine ⟨hcid, fun j hj => ?_⟩
  have hp : isPeer (QueuePairs.updateCid n cid) j = cidIsServerOn cid j :=
    isPeer_eq hcid hj
  change EpOk (isLeader n) _ _
  rw [hp, hl]
  have hep := h.ep_ok j hj
  rw [isPeer_eq h.cid_ok hj] at hep
  by_cases hg : j < max cid.size cid.newSize ∧ cidIsServerOn n.cid j ∧
      cidIsServerOn cid j = false
  · simp only [QueuePairs.updateCid, if_pos hg, rcDisconnectServer]
    split
    · simp only [setEp, Function.update_self]
      exact .of_disconnect
    · rename_i hrc
      refine ⟨hep.access_of_qp, fun h => absurd h hrc, nofun⟩
  · simp only [QueuePairs.updateCid, if_neg hg]
    refine ⟨hep.access_of_qp, fun hrc ha => ?_, nofun⟩
    by_contra hoff
    rw [Bool.not_eq_true] at hoff
    have hlt := (hs j hj hrc ha).resolve_left (by simp [hoff])
    exact hg ⟨hlt, hep.peer_of_access hrc ha, hoff⟩

theorem cidOk_afterRemoval (h : CidOk cid) : CidOk (cidAfterRemoval cid j) :=
  Nat.xor_lt_two_pow h (lt_of_le_of_lt Nat.and_le_left h)

theorem cidIsServerOn_afterRemoval {k : ℕ} (hk : k ≠ j) :
    cidIsServerOn (cidAfterRemoval cid j) k = cidIsServerOn cid k := by
  simp [cidIsServerOn, cidAfterRemoval, Nat.testBit_xor, Nat.testBit_and, hk.symm]

theorem cidOk_afterJoin (h : CidOk cid) (hs : cid.state = .stable) (hj : j ≤ cid.size) :
    CidOk (cidAfterJoin cid j) := by
  have hsi : getExtendedGroupSize cid = cid.size := if_pos hs
  rw [CidOk, hsi] at h
  unfold CidOk cidAfterJoin
  dsimp only
  split
  · rename_i heq
    refine Nat.or_lt_two_pow ?_ (Nat.pow_lt_pow_right (by decide) ?_) <;>
      simp only [getExtendedGroupSize, reduceCtorEq, if_false, if_pos (Nat.lt_succ_self _)]
    · exact lt_trans h (Nat.pow_lt_pow_right (by decide) (Nat.lt_succ_self _))
    · omega
  · rename_i hne
    refine Nat.or_lt_two_pow ?_ (Nat.pow_lt_pow_right (by decide) ?_) <;>
      simp only [getExtendedGroupSize, hs, if_true]
    · exact h
    · omega

theorem cidIsServerOn_afterJoin {k : ℕ} (hk : k ≠ j) :
    cidIsServerOn (cidAfterJoin cid j) k = cidIsServerOn cid k := by
  have hb : (cidAfterJoin cid j).bitmask = cid.bitmask ||| 2 ^ j := by
    unfold cidAfterJoin
    dsimp only
    split <;> rfl
  simp [cidIsServerOn, hb, Nat.testBit_or, hk.symm]

theorem Inv.synack (h : Inv n) (hok : isLeader n → (n.ep j).rcConnected) :
    Inv (handleRcSynack n j) := by
  unfold handleRcSynack
  split_ifs with hoff hrc hl
  · exact h
  · exact h
  · exact absurd (hok hl) hrc
  · refine h.withEp fun hj => ?_
    have hep := h.ep_ok j hj
    rw [Bool.not_eq_true] at hl
    rw [hl] at hep ⊢
    exact hep.connect (by rw [isPeer_eq h.cid_ok hj]; exact Bool.not_eq_false _ ▸ hoff)

theorem Inv.ack (h : Inv n) (hok : isLeader n → (n.ep j).rcConnected) : Inv (handleRcAck n j) := by
  unfold handleRcAck
  split
  · rename_i hon
    refine h.withEp fun hj => ?_
    have hep := h.ep_ok j hj
    cases hl : isLeader n with
    | true =>
      rw [hl] at hep
      have hs : { n.ep j with rcConnected := true } = n.ep j := by rw [← hok hl]
      rwa [hs]
    | false =>
      rw [hl] at hep
      exact hep.connect (by rwa [isPeer_eq h.cid_ok hj])
  · exact h

theorem cidIsServerOn_afterRemoval_self : cidIsServerOn (cidAfterRemoval cid j) j = false := by
  simp [cidIsServerOn, cidAfterRemoval, Nat.testBit_xor, Nat.testBit_and]

theorem Inv.remove (h : Inv n) :
    Inv { rcDisconnectServer n j with cid := cidAfterRemoval n.cid j } := by
  have hcid : (rcDisconnectServer n j).cid = n.cid := by
    unfold rcDisconnectServer
    split <;> rfl
  have hrc : ((rcDisconnectServer n j).ep j).rcConnected = false := by
    unfold rcDisconnectServer
    split
    · simp [setEp]
    · rename_i hrc
      exact Bool.not_eq_true _ ▸ hrc
  have hdis : Inv (rcDisconnectServer n j) := h.disconnect
  refine hdis.changeCid (cidOk_afterRemoval h.cid_ok) ?_ ?_
  · intro k hk hrc' ha
    have hkj : k ≠ j := by
      rintro rfl
      rw [hrc] at hrc'
      cases hrc'
    rw [cidIsServerOn_afterRemoval hkj, ← hcid, ← isPeer_eq hdis.cid_ok hk]
    exact (hdis.ep_ok k hk).peer_of_access hrc' ha
  · intro k _ hon _
    have hkj : k ≠ j := by
      rintro rfl
      rw [cidIsServerOn_afterRemoval_self] at hon
      cases hon
    rwa [cidIsServerOn_afterRemoval hkj, ← hcid] at hon

theorem Inv.join (h : Inv n) (hs : n.cid.state = .stable) (hle : j ≤ n.cid.size)
    (hoff : cidIsServerOn n.cid j = false) :
    Inv { setEp n j { n.ep j with rcConnected := false } with cid := cidAfterJoin n.cid j } := by
  have hset : Inv (setEp n j { n.ep j with rcConnected := false }) := by
    refine h.withEp fun hj => ⟨fun hqp => ?_, nofun, nofun⟩
    -- a connected queue pair would make the server one of the group already
    obtain ⟨hrc, ha⟩ := (h.ep_ok j hj).access_of_qp hqp
    have hp := (h.ep_ok j hj).peer_of_access hrc ha
    rw [isPeer_eq h.cid_ok hj, hoff] at hp
    cases hp
  have hkj : ∀ k, ((setEp n j { n.ep j with rcConnected := false }).ep k).rcConnected → k ≠ j := by
    rintro k hrc rfl
    simp [setEp] at hrc
  refine hset.changeCid (cidOk_afterJoin h.cid_ok hs hle) ?_ ?_
  · intro k hk hrc ha
    rw [cidIsServerOn_afterJoin (hkj k hrc), ← isPeer_eq h.cid_ok hk]
    exact (hset.ep_ok k hk).peer_of_access hrc ha
  · intro k _ hon hrc
    rwa [cidIsServerOn_afterJoin (hkj k hrc)] at hon

theorem Inv.restart (h : Inv n) (hl : isLeader n) (hp : isPeer n j)
    (hrc : (n.ep j).rcConnected) : Inv (setEp n j (rcQpResetToRts (n.ep j))) := by
  refine h.withEp fun hj => ?_
  have ha := (h.ep_ok j hj).access_of_leader hl hp hrc
  exact ⟨fun _ => ⟨hrc, ha⟩, fun _ _ => hp, fun _ _ _ => ha⟩

theorem Inv.grantAll (h : Inv n) {sid : ℕ} : Inv (grantAll { n with sid := sid }) := by
  refine ⟨h.cid_ok, fun j hj => ?_⟩
  have hep := h.ep_ok j hj
  change EpOk (isLeader { n with sid := sid }) (isPeer n j)
    (if isPeer n j && (n.ep j).rcConnected && !(n.ep j).logAccess then _ else _)
  split
  · rename_i hg
    simp only [Bool.and_eq_true] at hg
    exact ⟨fun _ => ⟨hg.1.2, rfl⟩, fun _ _ => hg.1.1, fun _ _ _ => rfl⟩
  · rename_i hg
    refine ⟨hep.access_of_qp, hep.peer_of_access, fun _ hp hrc => ?_⟩
    change (n.ep j).rcConnected = true at hrc
    change (n.ep j).logAccess = true
    simpa [hp, hrc] using hg

theorem Inv.step (h : Inv n) {e : Event} (hok : Orderly n e) (hst : step n e = some m) : Inv m := by
  cases e with
  | handleRcSyn j size =>
    obtain ⟨-, rfl⟩ := guarded_eq_some.mp hst
    unfold QueuePairs.handleRcSyn
    split_ifs with hoff hnew
    · exact h
    · rw [hok hnew.2] at hnew
      cases hnew.1
    · exact h
  | handleRcSynack j =>
    obtain ⟨-, rfl⟩ := guarded_eq_some.mp hst
    exact h.synack hok
  | handleRcAck j =>
    obtain ⟨-, rfl⟩ := guarded_eq_some.mp hst
    exact h.ack hok
  | disconnectServer j =>
    obtain ⟨-, rfl⟩ := guarded_eq_some.mp hst
    exact h.disconnect
  | removeServer j =>
    obtain ⟨-, rfl⟩ := guarded_eq_some.mp hst
    exact h.remove
  | joinServer j =>
    obtain ⟨⟨-, -, hs, hle, hoff⟩, rfl⟩ := guarded_eq_some.mp hst
    exact h.join hs hle hoff
  | resize cid =>
    obtain ⟨⟨hb, hcid⟩, rfl⟩ := guarded_eq_some.mp hst
    have hon : ∀ k, cidIsServerOn cid k = cidIsServerOn n.cid k := by
      intro k
      rw [cidIsServerOn, hb, cidIsServerOn]
    refine h.changeCid hcid ?_ ?_
    · intro k hk hrc ha
      rw [hon k, ← isPeer_eq h.cid_ok hk]
      exact (h.ep_ok k hk).peer_of_access hrc ha
    · exact fun k _ hk' _ => hon k ▸ hk'
  | updateCid cid =>
    obtain ⟨⟨hld, hcid⟩, rfl⟩ := guarded_eq_some.mp hst
    exact h.updateCid hld hcid hok
  | startElection =>
    obtain rfl := Option.some.inj hst
    refine inv_of_revoked h.cid_ok ?_ fun j hj => ?_
    · simp [isLeader, rcRevokeLogAccess, sidGetL_setIdx_unsetL n.idx_lt]
    · exact h.revoke hj
  | becomeLeader =>
    simp only [QueuePairs.step] at hst
    split at hst
    · rename_i hidx
      have hidx' : sidGetIdx (sidSetL n.sid) = n.idx := by
        rw [sidSetL_mk, sidGetIdx_mk (sidGetIdx_lt _), hidx]
      have hl : sidGetL (sidSetL n.sid) = true := by
        rw [sidSetL_mk, sidGetL_mk (sidGetIdx_lt _)]
      simp only [rcRestoreLogAccess, hidx', hl, ne_eq, not_true, if_false, if_true,
        Option.some.injEq] at hst
      exact hst ▸ h.grantAll
    · cases hst
  | preferOwnLog term =>
    obtain ⟨hl, rfl⟩ := guarded_eq_some.mp hst
    refine inv_of_revoked h.cid_ok ?_ fun j hj => h.revoke hj
    simp only [isLeader]
    rw [sidGetL_setIdx_setTerm n.idx_lt, hl, Bool.false_and]
  | vote sid cid =>
    simp only [QueuePairs.step] at hst
    split at hst
    · rename_i hcid
      refine (restore_of_revoked hst hcid.2 fun j hj => ?_).1
      exact Revoked.updateCid (n := { rcRevokeLogAccess n with sid := sid }) (h.revoke hj)
    · cases hst
  | toFollower sid =>
    obtain rfl := Option.some.inj hst
    have hre : ∀ j, j ≠ n.idx → Revoked ((rcRevokeLogAccess { n with sid := sid }).ep j) :=
      fun j hj => h.revoke hj
    cases hr : rcRestoreLogAccess (rcRevokeLogAccess { n with sid := sid }) with
    | some m => exact (restore_of_revoked hr h.cid_ok hre).1
    | none =>
      exact inv_of_revoked (n := rcRevokeLogAccess { n with sid := sid }) h.cid_ok
        (isLeader_eq_false_of_ne (ne_of_restore_none hr)) hre
  | adoptSid sid =>
    obtain ⟨hld, rfl⟩ := guarded_eq_some.mp hst
    refine ⟨h.cid_ok, fun j hj => ?_⟩
    have hep := h.ep_ok j hj
    rw [hld]
    exact ⟨hep.access_of_qp, hep.peer_of_access, nofun⟩
  | qpFails j =>
    obtain ⟨hrts, rfl⟩ := guarded_eq_some.mp hst
    refine h.withEp fun hj => ?_
    have hep := h.ep_ok j hj
    exact ⟨fun _ => hep.access_of_qp (by rw [hrts]; nofun), hep.peer_of_access,
      hep.access_of_leader⟩
  | postSend j =>
    obtain ⟨⟨hld, hp, hrc, -⟩, rfl⟩ := guarded_eq_some.mp hst
    exact h.restart hld hp hrc

theorem inv_init {idx : ℕ} {hidx : idx < 256} (hcid : CidOk cid) : Inv (.init idx hidx cid) := by
  have hle : isLeader (.init idx hidx cid) = false := by
    have hl : sidGetL sidNull = false := by decide
    rw [isLeader, show (Node.init idx hidx cid).sid = sidNull from rfl, hl, Bool.false_and]
  exact inv_of_revoked hcid hle fun _ _ => ⟨rfl, nofun⟩

theorem inv_of_run {idx : ℕ} {hidx : idx < 256} (hcid : CidOk cid)
    (hrun : node.Run Orderly (.init idx hidx cid) n) : Inv n :=
  hrun.invariant (inv_init hcid) fun _ _ _ h hok hs => h.step hok hs

/-- After a revocation no LOG queue pair is connected, and the grant that follows it, with or
without a change of configuration in between, connects the one of the server in the SID alone. -/
theorem exclusive_log_access {idx : ℕ} {hidx : idx < 256} (hcid : CidOk cid)
    (hrun : node.Run Orderly (.init idx hidx cid) n) :
    (∀ j < getExtendedGroupSize n.cid, j ≠ n.idx → ((rcRevokeLogAccess n).ep j).logQp = .reset) ∧
    ∀ (sid : ℕ) (cid' : Cid) (r m : Node), CidOk cid' →
      r = { rcRevokeLogAccess n with sid := sid } ∨
        r = updateCid { rcRevokeLogAccess n with sid := sid } cid' →
      isLeader r = false → rcRestoreLogAccess r = some m →
      ∀ j < getExtendedGroupSize m.cid, j ≠ m.idx →
        ((m.ep j).logQp = .rts ↔ j = sidGetIdx sid) := by
  have hinv := inv_of_run hcid hrun
  refine ⟨fun j _ hj => (hinv.revoke hj).reset, ?_⟩
  rintro sid cid' r m hcid' hr hleader hrestore j - hj
  have hbefore : CidOk r.cid ∧ r.idx = n.idx ∧ r.sid = sid ∧
      ∀ k, k ≠ n.idx → Revoked (r.ep k) := by
    rcases hr with rfl | rfl
    · exact ⟨hinv.cid_ok, rfl, rfl, fun k hk => hinv.revoke hk⟩
    · exact ⟨hcid', rfl, rfl, fun k hk =>
        Revoked.updateCid (n := { rcRevokeLogAccess n with sid := sid }) (hinv.revoke hk)⟩
  obtain ⟨hcid_r, hidx_r, rfl, hrevoked⟩ := hbefore
  obtain ⟨-, -, hidx_m, honly⟩ :=
    restore_of_revoked hrestore hcid_r fun k hk => hrevoked k (hidx_r ▸ hk)
  exact honly hleader j (hidx_m ▸ hj)

def threeServers : Cid := ⟨0, 3, 0, .stable, 7⟩

/-- A server that is connected to both others and then follows server 1. -/
theorem exclusive_log_access_of_follower :
    ∃ n m, node.Run Orderly (.init 0 (by decide) threeServers) n ∧
      rcRestoreLogAccess { rcRevokeLogAccess n with sid := sidMk 2 true 1 } = some m ∧
      ((m.ep 1).logQp = .rts ↔ 1 = sidGetIdx (sidMk 2 true 1)) ∧
      ((m.ep 2).logQp = .rts ↔ 2 = sidGetIdx (sidMk 2 true 1)) := by
  have hrun : node.Run Orderly (.init 0 (by decide) threeServers)
      (handleRcSynack (handleRcSynack (.init 0 (by decide) threeServers) 1) 2) :=
    .tail (.single ⟨.handleRcSynack 1, fun h => absurd h (by decide), rfl⟩)
      ⟨.handleRcSynack 2, fun h => absurd h (by decide), rfl⟩
  have honly := (exclusive_log_access (by decide) hrun).2 (sidMk 2 true 1) threeServers _ _
    (by decide) (.inl rfl) (by decide) rfl
  exact ⟨_, _, hrun, rfl, honly 1 (by decide) (by decide), honly 2 (by decide) (by decide)⟩

/-- A leader connects the LOG queue pair of a server that answers its RC_SYN late, and a revocation,
as at its next election, leaves it connected. -/
theorem log_access_after_revocation : ∃ n, node.Run anyStep (.init 0 (by decide) threeServers) n ∧
      isPeer n 1 ∧ ((rcRevokeLogAccess n).ep 1).logQp = .rts := by
  exact exists_run_of_exec (M := node) (s := .init 0 (by decide) threeServers) anyStep
    (p := fun n => isPeer n 1 ∧ ((rcRevokeLogAccess n).ep 1).logQp = .rts)
    [.handleRcSynack 2, .startElection, .becomeLeader, .handleRcSynack 1] (by decide +kernel)

end VmFt.Dare.QueuePairs
