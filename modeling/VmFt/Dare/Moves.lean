import VmFt.Dare.Group

/-! # Moves

A step of the group is a sequence of moves, each of which changes the SID of a
server at most once. Invariants are proved move by move; how the functions of
the source compose the moves is settled once, for all invariants.

The rules restrict the moves of a run: which of them are in force is the
assumption of a result.
-/

namespace VmFt.Dare

/-- The first SID server `p` has in term `t` is `[t|0|p]`. -/
def Entered (tr : List Obs) (p t : ℕ) : Prop := .started p t ∈ tr ∨ .bumped p t ∈ tr

/-- A SID that some server has set itself: a candidate's, or that of an elected leader. -/
def Genuine (tr : List Obs) (w : ℕ) : Prop :=
  if sidGetL w then .elected (sidGetIdx w) (sidGetTerm w) ∈ tr ∨ sidGetTerm w = 0
  else w = sidNull ∨ Entered tr (sidGetIdx w) (sidGetTerm w)

/-- The rules a run may keep to.

* `vote`: a vote ACK arrives only in the term it was sent in, a server raises its
  term past a worse candidate only while it holds no ACK, and nobody joins.
* `log`: only a leader appends, and a LOG operation is executed only by a server in the
  sender's term that follows the sender. A leader posts on open queue pairs only, nobody
  else sends heartbeats, and the server of a running poll has entered a term; this is no
  restriction on a run.
* `commit`: a leader advances its commit offset only past an entry of its own term.
* `count`: a candidate raises its commit offset only when it has won. -/
structure Rules where
  vote : Prop
  log : Prop

def grantAccess (g : Group) (i : ℕ) (s : Server) : Server :=
  rcRestoreLogAccess g i (publishNcBuf i (rcRevokeLogAccess s))

def Dropped (reqs reqs' : ℕ → VoteReq) : Prop :=
  ∀ p, reqs' p = reqs p ∨ (reqs' p).sid = 0

/-- Server `i` changes nothing but timers, queues and values it has consumed or read. -/
structure Idle (g : Group) (s : State) (i : ℕ) (srv : Server) : Prop where
  phase : srv.phase = (s.srv i).phase
  sid : srv.sid = (s.srv i).sid
  voteAck : srv.voteAck = (s.srv i).voteAck
  voteSid : srv.voteSid = (s.srv i).voteSid
  log : srv.log = (s.srv i).log
  logAccess : srv.logAccess = (s.srv i).logAccess
  logCommit : srv.logCommit = (s.srv i).logCommit
  logEnd : srv.logEnd = (s.srv i).logEnd
  nextLrStep : srv.nextLrStep = (s.srv i).nextLrStep
  sendFlag : srv.sendFlag = (s.srv i).sendFlag
  cachedEnd : srv.cachedEnd = (s.srv i).cachedEnd
  nextWrId : srv.nextWrId = (s.srv i).nextWrId
  ssn : srv.ssn = (s.srv i).ssn
  sendQueue : srv.sendQueue = (s.srv i).sendQueue
  compQueue : srv.compQueue = (s.srv i).compQueue
  voteReq : Dropped (s.srv i).voteReq srv.voteReq
  hb : ∀ p, srv.hb p = (s.srv i).hb p ∨ srv.hb p = 0
  latestHb : srv.latestHb = (s.srv i).latestHb ∨ srv.latestHb = 0 ∨
    ∃ p, srv.latestHb = (s.srv i).hb p
  smRep : ∀ p, srv.smRep p = (s.srv i).smRep p ∨ srv.smRep p = 0
  rsid : ∀ k, srv.rsid k = (s.srv i).rsid k ∨ srv.rsid k = 0 ∨
    ∃ j < g.size, srv.rsid k = (s.srv j).sid ∨ srv.rsid k = (s.srv j).voteSid i

inductive Tells (i : ℕ) (sid : ℕ) : Msg → Prop where
  | heartbeat (j : ℕ) : Tells i sid (.heartbeat i j sid)
  | smRequest (j : ℕ) : Tells i sid (.smRequest i j)
  | smReply (j : ℕ) : Tells i sid (.smReply i j sid)

/-- The candidate's log is at least as good as the local one. -/
def UpToDate (req : VoteReq) (last : ℕ × ℕ) : Prop :=
  last.2 < req.term ∨ (last.2 = req.term ∧ last.1 ≤ req.index)

def NoAcks (g : Group) (i : ℕ) (s : Server) : Prop := ∀ j < g.size, j ≠ i → s.voteAck j = none

def voteCount (g : Group) (i : ℕ) (s : Server) : ℕ :=
  1 + ((g.others i).filter fun k => (s.voteAck k).isSome).length

inductive Move (g : Group) (r : Rules) (s : State) : State → Prop where
  | idle {i : ℕ} {srv : Server} : i < g.size → Idle g s i srv →
      Move g r s (s.perform i (.quiet srv))

  | setPhase {i : ℕ} (ph : Phase) : i < g.size → ph ≠ .starting →
      (ph = .joining → (s.srv i).sid = sidMk 0 true i) →
      Move g r s (s.perform i (.quiet { s.srv i with phase := ph }))

  | resetTail {i : ℕ} : i < g.size → Move g r s (s.perform i (.quiet
      { s.srv i with log := { (s.srv i).log with tail := none } }))

  | tell {i : ℕ} {m : Msg} : i < g.size → Tells i (s.srv i).sid m →
      Move g r s (s.perform i ⟨s.srv i, [m], []⟩)

  | start {i : ℕ} : i < g.size → (s.srv i).phase = .recovered →
      sidGetTerm (s.srv i).sid + 1 < termLimit →
      (r.log → isLeader i (s.srv i) → (s.srv i).log.tail = none) →
      Move g r s (s.perform i ⟨becomeCandidate g i (s.srv i), [],
        [.started i (sidGetTerm (becomeCandidate g i (s.srv i)).sid)]⟩)

  | request {i : ℕ} : i < g.size → sidGetIdx (s.srv i).sid = i → sidGetL (s.srv i).sid = false →
      .started i (sidGetTerm (s.srv i).sid) ∈ s.trace →
      Move g r s (s.perform i (rcSendVoteRequest g i (s.srv i)))

  | refresh {i : ℕ} : i < g.size →
      Move g r s (s.perform i (.quiet (grantAccess g i (s.srv i))))

  | follow {i w : ℕ} : i < g.size → (s.srv i).phase = .recovered →
      sidGetL w → Genuine s.trace w →
      sidGetTerm (s.srv i).sid < sidGetTerm w → (r.log → (s.srv i).log.tail = none) →
      Move g r s (s.perform i (.quiet (grantAccess g i { s.srv i with sid := w })))

  | adopt {i w : ℕ} : i < g.size → (s.srv i).phase = .recovered → Genuine s.trace w →
      (s.srv i).sid ≤ w →
      sidGetTerm w = sidGetTerm (s.srv i).sid → (r.log → 0 < sidGetTerm w) →
      Move g r s (s.perform i (.quiet { s.srv i with sid := w }))

  | vote {i c : ℕ} {reqs : ℕ → VoteReq} : i < g.size → (s.srv i).phase = .recovered →
      sidGetL (s.srv i).sid = false →
      sidSetL (s.srv i).sid < ((s.srv i).voteReq c).sid →
      Dropped (s.srv i).voteReq reqs →
      Move g r s (s.perform i (giveVote g i ((s.srv i).voteReq c).sid
        { publishNcBuf i (rcRevokeLogAccess (s.srv i)) with voteReq := reqs }))

  | bump {i t : ℕ} {reqs : ℕ → VoteReq} : i < g.size → (s.srv i).phase = .recovered →
      sidGetL (s.srv i).sid = false →
      sidGetTerm (s.srv i).sid < t →
      t < termLimit →
      Dropped (s.srv i).voteReq reqs → (r.vote → NoAcks g i (s.srv i)) →
      Move g r s (s.perform i ⟨{ publishNcBuf i (rcRevokeLogAccess (s.srv i)) with
            voteReq := reqs, sid := bumpSid i (s.srv i).sid t }, [], [.bumped i t]⟩)

  | ack {i : ℕ} : i < g.size →
      (sidGetL (s.srv i).sid ∨
        .voted i (sidGetTerm (s.srv i).sid) (sidGetIdx (s.srv i).sid) ∈ s.trace) →
      Move g r s (s.perform i ⟨s.srv i, rcSendVoteAck g i (s.srv i), []⟩)

  | countAck {i : ℕ} (k : ℕ) : i < g.size →
      Move g r s (s.perform i (.quiet (voteCountBody (s.srv i, 0) k).1))

  | win {i : ℕ} : i < g.size → (s.srv i).phase = .recovered → sidGetIdx (s.srv i).sid = i →
      sidGetL (s.srv i).sid = false →
      g.size / 2 + 1 ≤ voteCount g i (s.srv i) →
      Move g r s (s.perform i ⟨{ s.srv i with sid := sidSetL (s.srv i).sid }, [],
        [.elected i (sidGetTerm (s.srv i).sid)]⟩)

  | single : g.size = 1 → (s.srv 0).phase = .alone → (s.srv 0).sid ≤ sidMk 1 true 0 →
      Move g r s (s.perform 0 ⟨{ s.srv 0 with sid := sidMk 1 true 0 }, [], [.elected 0 1]⟩)

  | join {i w : ℕ} : i < g.size → (s.srv i).phase = .voteRead → ¬ r.vote → Genuine s.trace w →
      (s.srv i).sid ≤ w →
      Move g r s (s.perform i (.quiet { s.srv i with sid := w }))

  | load {i : ℕ} (log : Log) : i < g.size → ¬ r.vote →
      Move g r s (s.perform i (.quiet { s.srv i with log := log }))

  | append {i : ℕ} (reqId cltId : ℕ) (type : EntryType) (data : EntryData) : i < g.size →
      (r.log → isLeader i (s.srv i)) →
      Move g r s (s.perform i (appendEntry i reqId cltId type data (s.srv i)))

  | apply {i : ℕ} : i < g.size →
      Move g r s (s.perform i (applyCommittedEntries i (s.srv i)))

  | openLogs {i : ℕ} : i < g.size →
      Move g r s (s.perform i (.quiet (rcRestoreLogAccess g i (s.srv i))))

  | replicate {i j : ℕ} {f : Server → Server} : i < g.size →
      f = logAdjustment j ∨ f = updateRemoteLog j ∨ f = updateRemoteCommit j →
      Move g r s (s.perform i (.quiet (f (s.srv i))))

  | commit {i : ℕ} : i < g.size →
      Move g r s (s.perform i (.quiet (advanceCommit g i (s.srv i))))

  | complete {i j : ℕ} (wrId : ℕ) (ok : Bool) (rest : List (ℕ × Bool)) : i < g.size →
      Move g r s (s.perform i (.quiet (handleLrWorkCompletion j wrId ok
        { s.srv i with compQueue := Function.update (s.srv i).compQueue j rest })))

  | exec {i j : ℕ} {ok : Bool} {wr : WorkRequest} {rest : List WorkRequest} :
      i < g.size → j < g.size → i ≠ j → (s.srv i).sendQueue j = wr :: rest →
      (r.log → sidGetTerm (s.srv j).sid = wr.term ∧ sidGetIdx (s.srv j).sid = i) →
      Move g r s { s with srv := execRequest i j ok wr s.srv }

  | fail {i j : ℕ} (wr : WorkRequest) : i < g.size →
      Move g r s (s.perform i (.quiet (popRequest j false wr (s.srv i))))

  | deliver {m : Msg} : m ∈ s.net →
      (r.vote → ∀ i j c t, m = .voteAck i j c t → sidGetTerm (s.srv j).sid = t) →
      Move g r s { s with srv := m.land s.srv, net := s.net.erase m }

  | drop {m : Msg} : m ∈ s.net → Move g r s { s with net := s.net.erase m }

def Moves (g : Group) (r : Rules) : State → State → Prop :=
  Relation.ReflTransGen (Move g r)

end VmFt.Dare
