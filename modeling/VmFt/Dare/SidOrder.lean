import VmFt.Dare.Moves

/-! # The SID of a server never decreases

A server votes and stands for election only in terms above its own, so its
votes are determined by the term. The one place where a SID is overwritten
without a comparison is the adoption of a heartbeat of the same term; it rests
on the heartbeats of a candidate not falling behind the SID it entered with.
-/

namespace VmFt.Dare

open List Function

variable {g : Group} {r : Rules} {s s' : State} {i j p t w : ℕ}

/-- A value that is zero or a SID of the group whose term some server has reached. -/
def Known (g : Group) (s : State) (w : ℕ) : Prop :=
  w = 0 ∨ Genuine s.trace w ∧ ∃ p < g.size, sidGetTerm w ≤ sidGetTerm (s.srv p).sid

/-- A heartbeat of server `p`: not below the SID with which `p` entered the term. -/
def HbOk (g : Group) (s : State) (p v : ℕ) : Prop :=
  v = 0 ∨ p < g.size ∧ Genuine s.trace v ∧ sidGetTerm v ≤ sidGetTerm (s.srv p).sid ∧
    ∀ t, Entered s.trace p t → sidGetTerm v = t → sidMk t false p ≤ v

/-- A vote request of server `p`: it carries the SID of an election that `p` started. -/
def ReqOk (g : Group) (s : State) (p : ℕ) (req : VoteReq) : Prop :=
  req.sid = 0 ∨ p < g.size ∧ ∃ t, req.sid = sidMk t false p ∧ .started p t ∈ s.trace

def MsgOk (g : Group) (s : State) : Msg → Prop
  | .heartbeat i _ v => HbOk g s i v
  | .voteRequest i _ req => ReqOk g s i req
  | .voteSid _ _ v => Known g s v
  | .smReply _ _ v => Known g s v
  | .voteAck _ _ _ _ => True
  | .smRequest _ _ => True

def Holds (srv : Server) (w : ℕ) : Prop :=
  w = srv.latestHb ∨ (∃ k, w = srv.smRep k) ∨ (∃ k, w = srv.rsid k) ∨ ∃ k, w = srv.voteSid k

/-- The SID of a server that has not read its replicated vote yet. -/
def JoinOk (i : ℕ) (srv : Server) : Prop :=
  (srv.phase = .starting → srv.sid = sidNull) ∧ (srv.phase = .joining → srv.sid = sidMk 0 true i)

structure SidInv (g : Group) (s : State) : Prop where
  entered_lt : ∀ p t, Entered s.trace p t → p < g.size
  entered_le : ∀ p t, Entered s.trace p t → sidMk t false p ≤ (s.srv p).sid
  elected_le : ∀ p t, .elected p t ∈ s.trace → p < g.size ∧ sidMk t true p ≤ (s.srv p).sid
  voted_le : ∀ p t c, .voted p t c ∈ s.trace → t ≤ sidGetTerm (s.srv p).sid
  voted_unique : ∀ p t c c', .voted p t c ∈ s.trace → .voted p t c' ∈ s.trace → c = c'
  voted_entered : ∀ p t c, .voted p t c ∈ s.trace → ¬ Entered s.trace p t
  genuine : ∀ p, Genuine s.trace (s.srv p).sid
  joining : ∀ p, JoinOk p (s.srv p)
  hb : ∀ j p, HbOk g s p ((s.srv j).hb p)
  req : ∀ j p, ReqOk g s p ((s.srv j).voteReq p)
  holds : ∀ j w, Holds (s.srv j) w → Known g s w
  net : ∀ m ∈ s.net, MsgOk g s m

/-! ### Growth of the knowledge about SIDs -/

structure Grows (s s' : State) : Prop where
  trace : ∀ o ∈ s.trace, o ∈ s'.trace
  sid : ∀ p, (s.srv p).sid ≤ (s'.srv p).sid
  fresh : ∀ p t, Entered s'.trace p t → Entered s.trace p t ∨ sidGetTerm (s.srv p).sid < t

theorem Entered.mono {tr tr' : List Obs} (h : Entered tr p t) (hsub : ∀ o ∈ tr, o ∈ tr') :
    Entered tr' p t :=
  h.imp (hsub _) (hsub _)

theorem Genuine.mono {tr tr' : List Obs} (h : Genuine tr w) (hsub : ∀ o ∈ tr, o ∈ tr') :
    Genuine tr' w := by
  unfold Genuine at h ⊢
  split
  · rename_i hl
    rw [if_pos hl] at h
    exact h.imp_left (hsub _)
  · rename_i hl
    rw [if_neg hl] at h
    exact h.imp_right fun he => he.mono hsub

theorem Grows.term (h : Grows s s') (p : ℕ) :
    sidGetTerm (s.srv p).sid ≤ sidGetTerm (s'.srv p).sid :=
  sidGetTerm_mono (h.sid p)

theorem Known.mono (h : Grows s s') (hk : Known g s w) : Known g s' w := by
  rcases hk with h0 | ⟨hg, p, hp, hle⟩
  · exact .inl h0
  · exact .inr ⟨hg.mono h.trace, p, hp, hle.trans (h.term p)⟩

theorem Known.genuine (h : Known g s w) (hl : sidGetL w = true) : Genuine s.trace w := by
  rcases h with rfl | h
  · exact absurd hl (by decide)
  · exact h.1

theorem HbOk.mono (h : Grows s s') (hk : HbOk g s p w) : HbOk g s' p w := by
  rcases hk with h0 | ⟨hp, hg, hle, hent⟩
  · exact .inl h0
  · refine .inr ⟨hp, hg.mono h.trace, hle.trans (h.term p), fun t he ht => ?_⟩
    rcases h.fresh p t he with hold | hnew
    · exact hent t hold ht
    · omega

theorem ReqOk.mono {req : VoteReq} (h : Grows s s') (hk : ReqOk g s p req) : ReqOk g s' p req := by
  rcases hk with h0 | ⟨hp, t, hsid, hst⟩
  · exact .inl h0
  · exact .inr ⟨hp, t, hsid, h.trace _ hst⟩

theorem MsgOk.mono {m : Msg} (h : Grows s s') (hm : MsgOk g s m) : MsgOk g s' m := by
  cases m with
  | heartbeat => exact HbOk.mono h hm
  | voteRequest => exact ReqOk.mono h hm
  | voteSid => exact Known.mono h hm
  | smReply => exact Known.mono h hm
  | voteAck => trivial
  | smRequest => trivial

theorem HbOk.known (h : HbOk g s p w) : Known g s w :=
  h.imp_right fun ⟨hp, hg, hle, _⟩ => ⟨hg, p, hp, hle⟩

theorem SidInv.known_sid (h : SidInv g s) (hi : i < g.size) : Known g s (s.srv i).sid :=
  .inr ⟨h.genuine i, i, hi, le_rfl⟩

theorem SidInv.hbOk_sid (h : SidInv g s) (hi : i < g.size) : HbOk g s i (s.srv i).sid :=
  .inr ⟨hi, h.genuine i, le_rfl, fun t he _ => h.entered_le i t he⟩

/-! ### Functions run by one server -/

inductive AboutLog : Obs → Prop where
  | appended (i t k : ℕ) (e : Entry) : AboutLog (.appended i t k e)
  | applied (i : ℕ) (e : Entry) : AboutLog (.applied i e)
  | startedOver (i : ℕ) : AboutLog (.startedOver i)

inductive SeenOk (i old new : ℕ) : List Obs → Prop where
  | log {seen : List Obs} : (∀ o ∈ seen, AboutLog o) → SeenOk i old new seen
  | started {t : ℕ} : sidGetTerm old < t → sidMk t false i ≤ new → SeenOk i old new [.started i t]
  | bumped {t : ℕ} : sidGetTerm old < t → sidMk t false i ≤ new → SeenOk i old new [.bumped i t]
  | voted {t c : ℕ} : sidGetTerm old < t → t ≤ sidGetTerm new → SeenOk i old new [.voted i t c]
  | elected {t : ℕ} : sidMk t true i ≤ new → SeenOk i old new [.elected i t]

section SeenOk

variable {old new c c' : ℕ} {seen : List Obs}

theorem SeenOk.entered (h : SeenOk i old new seen) (he : Entered seen p t) :
    p = i ∧ sidGetTerm old < t ∧ sidMk t false i ≤ new := by
  cases h with
  | log hlog =>
    rcases he with hm | hm <;> cases hlog _ hm
  | started hlt hle | bumped hlt hle =>
    simp only [Entered, mem_singleton, Obs.started.injEq, Obs.bumped.injEq, reduceCtorEq,
      or_false, false_or] at he
    obtain ⟨rfl, rfl⟩ := he
    exact ⟨rfl, hlt, hle⟩
  | voted | elected => simp [Entered] at he

theorem SeenOk.elect (h : SeenOk i old new seen) (he : .elected p t ∈ seen) :
    p = i ∧ sidMk t true i ≤ new := by
  cases h with
  | log hlog => cases hlog _ he
  | elected hle =>
    obtain ⟨rfl, rfl⟩ : p = i ∧ t = _ := by simpa using he
    exact ⟨rfl, hle⟩
  | started | bumped | voted => simp at he

theorem SeenOk.vote (h : SeenOk i old new seen) (hv : .voted p t c ∈ seen) :
    seen = [.voted i t c] ∧ p = i ∧ sidGetTerm old < t ∧ t ≤ sidGetTerm new := by
  cases h with
  | log hlog => cases hlog _ hv
  | voted hlt hle =>
    obtain ⟨rfl, rfl, rfl⟩ : p = i ∧ t = _ ∧ c = _ := by simpa using hv
    exact ⟨rfl, rfl, hlt, hle⟩
  | started | bumped | elected => simp at hv

end SeenOk

structure SidEffect (g : Group) (s : State) (i : ℕ) (eff : Effect) : Prop where
  le : (s.srv i).sid ≤ eff.srv.sid
  genuine : Genuine (s.trace ++ eff.seen) eff.srv.sid
  seen : SeenOk i (s.srv i).sid eff.srv.sid eff.seen
  joining : JoinOk i eff.srv
  hb : ∀ p, eff.srv.hb p = (s.srv i).hb p ∨ eff.srv.hb p = 0
  req : ∀ p, ReqOk g s p (eff.srv.voteReq p)
  holds : ∀ w, Holds eff.srv w → Known g s w ∨ w = eff.srv.sid
  net : ∀ m ∈ eff.sent, MsgOk g s m ∨ ∃ k, m = .voteSid i k eff.srv.sid

variable {eff : Effect}

theorem entered_append {tr tr' : List Obs} :
    Entered (tr ++ tr') p t ↔ Entered tr p t ∨ Entered tr' p t := by
  simp only [Entered, mem_append]
  tauto

theorem SidEffect.grows (he : SidEffect g s i eff) : Grows s (s.perform i eff) where
  trace o ho := mem_append_left _ ho
  sid p := by
    by_cases hp : p = i
    · subst hp
      rw [State.perform_srv_self]
      exact he.le
    · rw [State.perform_srv_of_ne _ _ _ hp]
  fresh p t ht := by
    rcases entered_append.mp ht with hold | hnew
    · exact .inl hold
    · obtain ⟨rfl, hlt, -⟩ := he.seen.entered hnew
      exact .inr hlt

theorem SidEffect.known_sid (he : SidEffect g s i eff) (hi : i < g.size) :
    Known g (s.perform i eff) eff.srv.sid :=
  .inr ⟨he.genuine, i, hi, by rw [State.perform_srv_self]⟩

theorem SidInv.perform (h : SidInv g s) (hi : i < g.size) (he : SidEffect g s i eff) :
    SidInv g (s.perform i eff) := by
  have hg := he.grows
  constructor
  case entered_lt =>
    intro p t ht
    rcases entered_append.mp ht with hold | hnew
    · exact h.entered_lt p t hold
    · exact (he.seen.entered hnew).1 ▸ hi
  case entered_le =>
    intro p t ht
    rcases entered_append.mp ht with hold | hnew
    · exact (h.entered_le p t hold).trans (hg.sid p)
    · obtain ⟨rfl, -, hle⟩ := he.seen.entered hnew
      rwa [State.perform_srv_self]
  case elected_le =>
    intro p t ht
    rcases mem_append.mp ht with hold | hnew
    · obtain ⟨hp, hle⟩ := h.elected_le p t hold
      exact ⟨hp, hle.trans (hg.sid p)⟩
    · obtain ⟨rfl, hle⟩ := he.seen.elect hnew
      rw [State.perform_srv_self]
      exact ⟨hi, hle⟩
  case voted_le =>
    intro p t c ht
    rcases mem_append.mp ht with hold | hnew
    · exact (h.voted_le p t c hold).trans (hg.term p)
    · obtain ⟨-, rfl, -, hle⟩ := he.seen.vote hnew
      rwa [State.perform_srv_self]
  case voted_unique =>
    intro p t c c' hc hc'
    rcases mem_append.mp hc with hold | hnew <;>
      rcases mem_append.mp hc' with hold' | hnew'
    · exact h.voted_unique p t c c' hold hold'
    · obtain ⟨-, rfl, hlt, -⟩ := he.seen.vote hnew'
      exact absurd (h.voted_le p t c hold) (not_le.mpr hlt)
    · obtain ⟨-, rfl, hlt, -⟩ := he.seen.vote hnew
      exact absurd (h.voted_le p t c' hold') (not_le.mpr hlt)
    · obtain ⟨hs, rfl, -, -⟩ := he.seen.vote hnew
      simpa [hs, eq_comm] using hnew'
  case voted_entered =>
    intro p t c hc ht
    rcases mem_append.mp hc with hold | hnew <;> rcases entered_append.mp ht with hold' | hnew'
    · exact h.voted_entered p t c hold hold'
    · obtain ⟨rfl, hlt, -⟩ := he.seen.entered hnew'
      exact absurd (h.voted_le p t c hold) (not_le.mpr hlt)
    · obtain ⟨-, rfl, hlt, -⟩ := he.seen.vote hnew
      have hle := sidGetTerm_mono (h.entered_le p t hold')
      rw [sidGetTerm_mk (g.idx_lt hi)] at hle
      omega
    · obtain ⟨hs, -⟩ := he.seen.vote hnew
      simp [Entered, hs] at hnew'
  case genuine =>
    intro p
    rw [State.perform_srv]
    split_ifs with hp
    · subst hp
      exact he.genuine
    · exact (h.genuine p).mono hg.trace
  case joining =>
    intro p
    rw [State.perform_srv]
    split_ifs with hp
    · subst hp
      exact he.joining
    · exact h.joining p
  case hb =>
    intro j p
    rw [State.perform_srv]
    split_ifs with hj
    · subst hj
      rcases he.hb p with hsa | h0
      · rw [hsa]
        exact (h.hb j p).mono hg
      · exact .inl h0
    · exact (h.hb j p).mono hg
  case req =>
    intro j p
    rw [State.perform_srv]
    split_ifs with hj
    · subst hj
      exact (he.req p).mono hg
    · exact (h.req j p).mono hg
  case holds =>
    intro j w hw
    by_cases hj : j = i
    · subst hj
      rw [State.perform_srv_self] at hw
      rcases he.holds w hw with hk | rfl
      · exact hk.mono hg
      · exact he.known_sid hi
    · rw [State.perform_srv_of_ne _ _ _ hj] at hw
      exact (h.holds j w hw).mono hg
  case net =>
    intro m hm
    rcases mem_append.mp hm with hold | hnew
    · exact (h.net m hold).mono hg
    · rcases he.net m hnew with hk | ⟨k, rfl⟩
      · exact hk.mono hg
      · exact he.known_sid hi

structure SameBallot (srv srv' : Server) : Prop where
  phase : srv'.phase = srv.phase
  sid : srv'.sid = srv.sid
  voteAck : srv'.voteAck = srv.voteAck
  voteReq : srv'.voteReq = srv.voteReq
  hb : srv'.hb = srv.hb
  latestHb : srv'.latestHb = srv.latestHb
  smRep : srv'.smRep = srv.smRep
  rsid : srv'.rsid = srv.rsid
  voteSid : srv'.voteSid = srv.voteSid

section SameBallot

variable {srv srv' srv'' : Server}

theorem SameBallot.refl (srv : Server) : SameBallot srv srv :=
  ⟨rfl, rfl, rfl, rfl, rfl, rfl, rfl, rfl, rfl⟩

theorem SameBallot.trans (h : SameBallot srv srv') (h' : SameBallot srv' srv'') :
    SameBallot srv srv'' :=
  ⟨h'.phase.trans h.phase, h'.sid.trans h.sid, h'.voteAck.trans h.voteAck,
    h'.voteReq.trans h.voteReq, h'.hb.trans h.hb, h'.latestHb.trans h.latestHb,
    h'.smRep.trans h.smRep, h'.rsid.trans h.rsid, h'.voteSid.trans h.voteSid⟩

theorem SameBallot.holds (h : SameBallot srv srv') (hw : Holds srv' w) : Holds srv w := by
  simpa only [Holds, h.latestHb, h.smRep, h.rsid, h.voteSid] using hw

theorem SameBallot.restore (h : SameBallot srv srv') :
    SameBallot srv (rcRestoreLogAccess g i srv') := by
  refine h.trans ?_
  unfold rcRestoreLogAccess
  dsimp only
  split_ifs <;> exact { SameBallot.refl _ with }

theorem sameBallot_grantAccess (srv : Server) : SameBallot srv (grantAccess g i srv) :=
  SameBallot.restore { SameBallot.refl _ with }

theorem sameBallot_log (srv : Server) (log : Log) : SameBallot srv { srv with log := log } :=
  { SameBallot.refl _ with }

theorem sameBallot_popRequest (srv : Server) (j : ℕ) (ok : Bool) (wr : WorkRequest) :
    SameBallot srv (popRequest j ok wr srv) :=
  { SameBallot.refl _ with }

theorem SameBallot.raise (h : SameBallot srv srv') (c : ℕ) :
    SameBallot srv (raiseCommit c srv') := by
  refine h.trans ?_
  unfold raiseCommit
  split_ifs <;> exact { SameBallot.refl _ with }

theorem SameBallot.post (h : SameBallot srv srv') (j : ℕ) (op : LogOp) :
    SameBallot srv (postSend j op srv') :=
  h.trans { SameBallot.refl _ with }

theorem sameBallot_voteCountBody (srv : Server) (n k : ℕ) :
    SameBallot srv (voteCountBody (srv, n) k).1 := by
  unfold voteCountBody
  split
  · exact .refl srv
  · refine SameBallot.raise ?_ _
    exact { SameBallot.refl _ with }

theorem sameBallot_foldl_voteCountBody (ks : List ℕ) (srv : Server) (n : ℕ) :
    SameBallot srv (ks.foldl voteCountBody (srv, n)).1 := by
  induction ks generalizing srv n with
  | nil => exact .refl srv
  | cons k ks ih => exact (sameBallot_voteCountBody srv n k).trans (ih _ _)

theorem sameBallot_logAdjustment (srv : Server) (j : ℕ) : SameBallot srv (logAdjustment j srv) := by
  unfold logAdjustment
  split
  · exact .refl srv
  · split
    · exact .refl srv
    · split
      · refine (SameBallot.raise ?_ _).post ..
        exact { SameBallot.refl _ with }
      · exact ((SameBallot.refl srv).raise _).post ..
      · split
        · exact { SameBallot.refl _ with }
        · exact (SameBallot.refl srv).post ..
      · refine SameBallot.post ?_ ..
        exact { SameBallot.refl _ with }
      · exact .refl srv
      · exact .refl srv

theorem sameBallot_updateRemoteLog (srv : Server) (j : ℕ) :
    SameBallot srv (updateRemoteLog j srv) := by
  unfold updateRemoteLog
  split
  · exact .refl srv
  · split
    · dsimp only
      split
      · exact .refl srv
      · refine SameBallot.post ?_ ..
        exact { SameBallot.refl _ with }
    · refine SameBallot.post ?_ ..
      exact { SameBallot.refl _ with }
    · exact .refl srv

theorem sameBallot_updateRemoteCommit (srv : Server) (j : ℕ) :
    SameBallot srv (updateRemoteCommit j srv) := by
  unfold updateRemoteCommit
  split
  · exact .refl srv
  · exact { SameBallot.refl _ with }

theorem sameBallot_advanceCommit (srv : Server) : SameBallot srv (advanceCommit g i srv) := by
  unfold advanceCommit
  split
  · exact .refl srv
  · exact (SameBallot.refl srv).raise _

theorem sameBallot_handleLrWorkCompletion {j wrId : ℕ} {ok : Bool} (h : SameBallot srv srv') :
    SameBallot srv (handleLrWorkCompletion j wrId ok srv') := by
  refine h.trans ?_
  unfold handleLrWorkCompletion
  split_ifs <;> exact { SameBallot.refl _ with }

theorem sameBallot_pollCompletion {j : ℕ} (h : pollCompletion j srv = some srv') :
    SameBallot srv srv' := by
  unfold pollCompletion at h
  split at h
  · cases h
  · obtain rfl := Option.some.inj h
    refine sameBallot_handleLrWorkCompletion ?_
    exact { SameBallot.refl _ with }

theorem sameBallot_applyCommittedEntries (srv : Server) :
    SameBallot srv (applyCommittedEntries i srv).srv := by
  unfold applyCommittedEntries
  split_ifs <;> exact { SameBallot.refl _ with }

end SameBallot

theorem SidInv.sameBallot (h : SidInv g s) (hs : SameBallot (s.srv i) eff.srv)
    (hse : ∀ o ∈ eff.seen, AboutLog o) (hsn : ∀ m ∈ eff.sent, MsgOk g s m) :
    SidEffect g s i eff where
  le := hs.sid.ge
  genuine := hs.sid ▸ (h.genuine i).mono fun _ => mem_append_left _
  seen := .log hse
  joining := by simpa only [JoinOk, hs.phase, hs.sid] using h.joining i
  hb p := .inl (congrFun hs.hb p)
  req p := hs.voteReq ▸ h.req i p
  holds w hw := .inl (h.holds i w (hs.holds hw))
  net m hm := .inl (hsn m hm)

theorem SidInv.quiet {srv : Server} (h : SidInv g s) (hs : SameBallot (s.srv i) srv) :
    SidEffect g s i (.quiet srv) :=
  h.sameBallot hs (fun _ ho => absurd ho not_mem_nil) fun _ hm => absurd hm not_mem_nil

/-! ### Moves that change a SID -/

theorem startSid_eq {sid : ℕ} (hi : i < 256) (ht : sidGetTerm sid + 1 < termLimit) :
    startSid i sid = sidMk (sidGetTerm sid + 1) false i := by
  have hset : sidSetTerm 0 (sidGetTerm sid + 1) = (sidGetTerm sid + 1) * 512 := by
    rw [sidSetTerm_eq]
    rw [termLimit] at ht
    omega
  rw [startSid, hset, sidUnsetL_shift ht, sidSetIdx_eq hi, sidMk]
  simp only [Bool.false_eq_true, if_false]
  omega

theorem joinSid_eq {sid : ℕ} (hi : i < 256) : joinSid i sid = sidMk 0 true i := by
  rw [joinSid, sidSetIdx_setTerm hi (by decide), sidSetL_mk, sidGetTerm_mk hi, sidGetIdx_mk hi]

theorem genuine_candidate {tr : List Obs} (hi : i < 256) (h : Entered tr i t) :
    Genuine tr (sidMk t false i) := by
  simp only [Genuine, sidGetL_mk hi, sidGetTerm_mk hi, sidGetIdx_mk hi, Bool.false_eq_true,
    if_false]
  exact .inr h

theorem genuine_leader {tr : List Obs} (hi : i < 256) (h : .elected i t ∈ tr ∨ t = 0) :
    Genuine tr (sidMk t true i) := by
  simpa only [Genuine, sidGetL_mk hi, sidGetTerm_mk hi, sidGetIdx_mk hi, if_true] using h

theorem ReqOk.dropped {reqs reqs' : ℕ → VoteReq} (h : ReqOk g s p (reqs p))
    (hd : Dropped reqs reqs') : ReqOk g s p (reqs' p) := by
  rcases hd p with hs | h0
  · rwa [hs]
  · exact .inl h0

def HasJoined (srv : Server) : Prop := srv.phase ≠ .starting ∧ srv.phase ≠ .joining

theorem HasJoined.joinOk {srv : Server} (h : HasJoined srv) : JoinOk i srv :=
  ⟨fun hp => absurd hp h.1, fun hp => absurd hp h.2⟩

theorem hasJoined_of_recovered {srv : Server} (h : srv.phase = .recovered) : HasJoined srv := by
  simp [HasJoined, h]

theorem SidInv.newSid (h : SidInv g s) (hhb : eff.srv.hb = (s.srv i).hb)
    (hreq : Dropped (s.srv i).voteReq eff.srv.voteReq)
    (hh : ∀ w, Holds eff.srv w → Holds (s.srv i) w ∨ w = eff.srv.sid)
    (hle : (s.srv i).sid ≤ eff.srv.sid) (hgen : Genuine (s.trace ++ eff.seen) eff.srv.sid)
    (hs : SeenOk i (s.srv i).sid eff.srv.sid eff.seen) (hp : HasJoined eff.srv)
    (hnet : ∀ m ∈ eff.sent, ∃ k, m = .voteSid i k eff.srv.sid) : SidEffect g s i eff where
  le := hle
  genuine := hgen
  seen := hs
  joining := hp.joinOk
  hb p := .inl (congrFun hhb p)
  req p := (h.req i p).dropped hreq
  holds w hw := (hh w hw).imp_left (h.holds i w)
  net m hm := .inr (hnet m hm)

theorem Dropped.refl (reqs : ℕ → VoteReq) : Dropped reqs reqs := fun _ => .inl rfl

theorem SidInv.idle {srv : Server} (h : SidInv g s) (hidle : Idle g s i srv) :
    SidEffect g s i (.quiet srv) where
  le := hidle.sid.ge
  genuine := hidle.sid ▸ (h.genuine i).mono fun _ => mem_append_left _
  seen := .log fun _ ho => absurd ho not_mem_nil
  joining := by simpa only [JoinOk, Effect.quiet, hidle.phase, hidle.sid] using h.joining i
  hb := hidle.hb
  req p := (h.req i p).dropped hidle.voteReq
  holds w hw := by
    left
    rcases hw with rfl | ⟨k, rfl⟩ | ⟨k, rfl⟩ | ⟨k, rfl⟩
    · rcases hidle.latestHb with hk | hk | ⟨p, hk⟩
      · exact h.holds i _ (.inl hk)
      · exact .inl hk
      · exact hk ▸ (h.hb i p).known
    · rcases hidle.smRep k with hk | hk
      · exact h.holds i _ (.inr (.inl ⟨k, hk⟩))
      · exact .inl hk
    · rcases hidle.rsid k with hk | hk | ⟨j, hj, hk | hk⟩
      · exact h.holds i _ (.inr (.inr (.inl ⟨k, hk⟩)))
      · exact .inl hk
      · exact hk ▸ h.known_sid hj
      · exact h.holds j _ (.inr (.inr (.inr ⟨i, hk⟩)))
    · exact h.holds i _ (.inr (.inr (.inr ⟨k, congrFun hidle.voteSid k⟩)))
  net m hm := absurd hm not_mem_nil

theorem SidInv.start (h : SidInv g s) (hi : i < g.size) (hph : (s.srv i).phase = .recovered)
    (ht : sidGetTerm (s.srv i).sid + 1 < termLimit) :
    SidEffect g s i ⟨becomeCandidate g i (s.srv i), [],
      [.started i (sidGetTerm (becomeCandidate g i (s.srv i)).sid)]⟩ := by
  have hsid : (becomeCandidate g i (s.srv i)).sid =
      sidMk (sidGetTerm (s.srv i).sid + 1) false i := startSid_eq (g.idx_lt hi) ht
  have hterm : sidGetTerm (becomeCandidate g i (s.srv i)).sid = sidGetTerm (s.srv i).sid + 1 := by
    rw [hsid, sidGetTerm_mk (g.idx_lt hi)]
  refine h.newSid rfl (.refl _) (fun w hw => .inl hw) ?_ ?_ ?_ (hasJoined_of_recovered hph)
    (by simp)
  · exact (lt_of_sidGetTerm_lt (hterm ▸ Nat.lt_succ_self _)).le
  · rw [hterm, hsid]
    exact genuine_candidate (g.idx_lt hi) (.inl (by simp))
  · exact .started (by omega) (by rw [hterm, hsid])

theorem SidInv.request (h : SidInv g s) (hi : i < g.size) (hidx : sidGetIdx (s.srv i).sid = i)
    (hl : sidGetL (s.srv i).sid = false) (hst : .started i (sidGetTerm (s.srv i).sid) ∈ s.trace) :
    SidEffect g s i (rcSendVoteRequest g i (s.srv i)) := by
  have hreq : ∀ a b, ReqOk g s i ⟨(s.srv i).sid, a, b⟩ := by
    intro a b
    refine .inr ⟨hi, _, ?_, hst⟩
    have heta := sidMk_eta (s.srv i).sid
    rwa [hl, hidx] at heta
  constructor
  case le => exact le_rfl
  case genuine => exact (h.genuine i).mono fun _ => mem_append_left _
  case seen => exact .log fun _ ho => absurd ho not_mem_nil
  case joining => exact h.joining i
  case hb => exact fun p => .inl rfl
  case req =>
    intro p
    by_cases hp : p = i
    · subst hp
      simpa [rcSendVoteRequest] using hreq _ _
    · simpa [rcSendVoteRequest, hp] using h.req i p
  case holds => exact fun w hw => .inl (h.holds i w hw)
  case net =>
    intro m hm
    obtain ⟨k, -, rfl⟩ := mem_map.mp hm
    exact .inl (hreq _ _)

theorem SidInv.better_request (h : SidInv g s) {c : ℕ}
    (hlt : sidSetL (s.srv i).sid < ((s.srv i).voteReq c).sid) :
    ∃ t, c < g.size ∧ ((s.srv i).voteReq c).sid = sidMk t false c ∧ .started c t ∈ s.trace ∧
      sidGetTerm (s.srv i).sid < t := by
  rcases h.req i c with h0 | ⟨hc, t, hsid, hst⟩
  · omega
  · refine ⟨t, hc, hsid, hst, ?_⟩
    rw [hsid, sidSetL_mk] at hlt
    exact (sidMk_true_le_iff (sidGetIdx_lt _) (g.idx_lt hc)).mp hlt

theorem sameBallot_giveVote (srv : Server) :
    SameBallot { srv with sid := w, voteSid := Function.update srv.voteSid i w }
      (giveVote g i w srv).srv := by
  refine SameBallot.restore ?_
  exact { SameBallot.refl _ with }

theorem SidInv.vote {c : ℕ} {reqs : ℕ → VoteReq} (h : SidInv g s)
    (hph : (s.srv i).phase = .recovered) (hlt : sidSetL (s.srv i).sid < ((s.srv i).voteReq c).sid)
    (hd : Dropped (s.srv i).voteReq reqs) : SidEffect g s i (giveVote g i ((s.srv i).voteReq c).sid
      { publishNcBuf i (rcRevokeLogAccess (s.srv i)) with voteReq := reqs }) := by
  obtain ⟨t, hc, hsid, hst, hterm⟩ := h.better_request hlt
  generalize ((s.srv i).voteReq c).sid = w at hlt hsid ⊢
  have hwt : sidGetTerm w = t := by rw [hsid, sidGetTerm_mk (g.idx_lt hc)]
  obtain ⟨srv, hsrv⟩ : ∃ srv, srv =
    { publishNcBuf i (rcRevokeLogAccess (s.srv i)) with voteReq := reqs } := ⟨_, rfl⟩
  rw [← hsrv]
  have hres : SameBallot _ (giveVote g i w srv).srv := sameBallot_giveVote srv
  have hnew : (giveVote g i w srv).srv.sid = w := hres.sid
  refine h.newSid ?_ (fun p => ?_) (fun v hv => ?_) ?_ ?_ ?_ ?_ ?_ <;> try rw [hnew]
  · rw [hres.hb, hsrv]
    rfl
  · rw [hres.voteReq, hsrv]
    exact hd p
  · have hv := hres.holds hv
    rw [hsrv] at hv
    rcases hv with hv | hv | hv | ⟨k, hv⟩
    · exact .inl (.inl hv)
    · exact .inl (.inr (.inl hv))
    · exact .inl (.inr (.inr (.inl hv)))
    · by_cases hk : k = i
      · subst hk
        exact .inr (by simpa using hv)
      · exact .inl (.inr (.inr (.inr ⟨k, by simpa [hk, publishNcBuf, rcRevokeLogAccess] using hv⟩)))
  · exact (le_sidSetL _).trans hlt.le
  · rw [hsid]
    exact genuine_candidate (g.idx_lt hc) (.inl (mem_append_left _ hst))
  · exact .voted (by rw [hwt]; exact hterm) le_rfl
  · exact hasJoined_of_recovered (by rw [hres.phase, hsrv]; exact hph)
  · intro m hm
    obtain ⟨k, -, rfl⟩ := mem_map.mp hm
    exact ⟨k, rfl⟩

theorem bumpSid_eq {sid : ℕ} (hi : i < 256) (ht : t < termLimit) (hl : sidGetL sid = false) :
    bumpSid i sid t = sidMk t false i := by
  rw [bumpSid, sidSetIdx_setTerm hi ht, hl]

theorem SidInv.bump {reqs : ℕ → VoteReq} (h : SidInv g s) (hi : i < g.size)
    (hph : (s.srv i).phase = .recovered)
    (hl : sidGetL (s.srv i).sid = false) (hlt : sidGetTerm (s.srv i).sid < t)
    (ht : t < termLimit) (hd : Dropped (s.srv i).voteReq reqs) :
    SidEffect g s i ⟨{ publishNcBuf i (rcRevokeLogAccess (s.srv i)) with
      voteReq := reqs, sid := bumpSid i (s.srv i).sid t }, [], [.bumped i t]⟩ := by
  have hsid := bumpSid_eq (g.idx_lt hi) ht hl
  refine h.newSid rfl hd (fun w hw => .inl hw) ?_ ?_ ?_ (hasJoined_of_recovered hph) (by simp)
  · rw [hsid]
    exact (lt_of_sidGetTerm_lt (by rwa [sidGetTerm_mk (g.idx_lt hi)])).le
  · rw [hsid]
    exact genuine_candidate (g.idx_lt hi) (.inr (by simp))
  · exact .bumped hlt hsid.ge

theorem SidInv.raise {srv : Server} (h : SidInv g s) (hph : HasJoined (s.srv i))
    (hs : SameBallot { s.srv i with sid := w } srv) (hle : (s.srv i).sid ≤ w)
    (hgen : Genuine s.trace w) : SidEffect g s i (.quiet srv) := by
  refine h.newSid hs.hb (fun p => .inl (congrFun hs.voteReq p)) (fun v hv => .inl (hs.holds hv))
    (hs.sid.symm ▸ hle) ?_ (.log fun _ ho => absurd ho not_mem_nil) ?_
    fun _ hm => absurd hm not_mem_nil
  · exact hs.sid.symm ▸ hgen.mono fun _ => mem_append_left _
  · simpa only [HasJoined, Effect.quiet, hs.phase] using hph

theorem SidInv.elect (h : SidInv g s) (hi : i < g.size) (hph : HasJoined (s.srv i))
    (hle : (s.srv i).sid ≤ sidMk t true i) :
    SidEffect g s i ⟨{ s.srv i with sid := sidMk t true i }, [], [.elected i t]⟩ :=
  h.newSid rfl (.refl _) (fun _ hw => .inl hw) hle
    (genuine_leader (g.idx_lt hi) (.inl (by simp))) (.elected le_rfl) hph (by simp)

/-! ### Steps of the network -/

theorem SidInv.environment (h : SidInv g s) (hsid : ∀ p, (s'.srv p).sid = (s.srv p).sid)
    (hp : ∀ p, (s'.srv p).phase = (s.srv p).phase)
    (htr : s'.trace = s.trace) (hhb : ∀ j p, HbOk g s p ((s'.srv j).hb p))
    (hreq : ∀ j p, ReqOk g s p ((s'.srv j).voteReq p))
    (hh : ∀ j w, Holds (s'.srv j) w → Known g s w) (hnet : ∀ m ∈ s'.net, m ∈ s.net) :
    SidInv g s' ∧ Grows s s' := by
  have hg : Grows s s' :=
    ⟨fun _ ho => htr ▸ ho, fun p => (hsid p).ge, fun p t ht => .inl (htr ▸ ht)⟩
  refine ⟨?_, hg⟩
  constructor
  case entered_lt => exact fun p t ht => h.entered_lt p t (htr ▸ ht)
  case entered_le => exact fun p t ht => hsid p ▸ h.entered_le p t (htr ▸ ht)
  case elected_le => exact fun p t ht => hsid p ▸ h.elected_le p t (htr ▸ ht)
  case voted_le => exact fun p t c ht => hsid p ▸ h.voted_le p t c (htr ▸ ht)
  case voted_unique => exact fun p t c c' hc hc' => h.voted_unique p t c c' (htr ▸ hc) (htr ▸ hc')
  case voted_entered => exact fun p t c hc ht => h.voted_entered p t c (htr ▸ hc) (htr ▸ ht)
  case genuine => exact fun p => hsid p ▸ htr ▸ h.genuine p
  case joining => exact fun p => by simpa only [JoinOk, hsid p, hp p] using h.joining p
  case hb => exact fun j p => (hhb j p).mono hg
  case req => exact fun j p => (hreq j p).mono hg
  case holds => exact fun j w hw => (hh j w hw).mono hg
  case net => exact fun m hm => (h.net m (hnet m hm)).mono hg

theorem SidInv.environment_same (h : SidInv g s) (hs : ∀ p, SameBallot (s.srv p) (s'.srv p))
    (htr : s'.trace = s.trace) (hnet : ∀ m ∈ s'.net, m ∈ s.net) : SidInv g s' ∧ Grows s s' :=
  h.environment (fun p => (hs p).sid) (fun p => (hs p).phase) htr (fun j p => (hs j).hb ▸ h.hb j p)
    (fun j p => (hs j).voteReq ▸ h.req j p) (fun j w hw => h.holds j w ((hs j).holds hw)) hnet

theorem sameBallot_execRequest (i j : ℕ) (ok : Bool) (wr : WorkRequest) (srv : ℕ → Server)
    (p : ℕ) : SameBallot (srv p) (execRequest i j ok wr srv p) := by
  unfold execRequest
  by_cases hi : p = i <;> by_cases hj : p = j
  · subst hi hj
    simp only [update_self]
    exact { SameBallot.refl _ with }
  · subst hi
    simp only [update_self, update_of_ne hj]
    exact { SameBallot.refl _ with }
  · subst hj
    simp only [update_self, update_of_ne hi]
    exact { SameBallot.refl _ with }
  · simp only [update_of_ne hi, update_of_ne hj]
    exact .refl _

theorem Msg.land_cases (m : Msg) (srv : ℕ → Server) (p : ℕ) : m.land srv p = srv p ∨
    (∃ q v, m = .heartbeat q p v ∧
      m.land srv p = { srv p with hb := Function.update (srv p).hb q v }) ∨
    (∃ q req, m = .voteRequest q p req ∧
      m.land srv p = { srv p with voteReq := Function.update (srv p).voteReq q req }) ∨
    (∃ q c t, m = .voteAck q p c t ∧
      m.land srv p = { srv p with voteAck := Function.update (srv p).voteAck q (some c) }) ∨
    (∃ q v, m = .voteSid q p v ∧
      m.land srv p = { srv p with voteSid := Function.update (srv p).voteSid q v }) ∨
    (∃ q, m = .smRequest q p ∧
      m.land srv p = { srv p with smReq := Function.update (srv p).smReq q true }) ∨
    ∃ q v, m = .smReply q p v ∧
      m.land srv p = { srv p with smRep := Function.update (srv p).smRep q v } := by
  cases m with
  | heartbeat q j v =>
    by_cases hp : p = j
    · subst hp; exact .inr (.inl ⟨q, v, rfl, by simp [Msg.land]⟩)
    · exact .inl (update_of_ne hp ..)
  | voteRequest q j req =>
    by_cases hp : p = j
    · subst hp; exact .inr (.inr (.inl ⟨q, req, rfl, by simp [Msg.land]⟩))
    · exact .inl (update_of_ne hp ..)
  | voteAck q j c t =>
    by_cases hp : p = j
    · subst hp; exact .inr (.inr (.inr (.inl ⟨q, c, t, rfl, by simp [Msg.land]⟩)))
    · exact .inl (update_of_ne hp ..)
  | voteSid q j v =>
    by_cases hp : p = j
    · subst hp; exact .inr (.inr (.inr (.inr (.inl ⟨q, v, rfl, by simp [Msg.land]⟩))))
    · exact .inl (update_of_ne hp ..)
  | smRequest q j =>
    by_cases hp : p = j
    · subst hp; exact .inr (.inr (.inr (.inr (.inr (.inl ⟨q, rfl, by simp [Msg.land]⟩)))))
    · exact .inl (update_of_ne hp ..)
  | smReply q j v =>
    by_cases hp : p = j
    · subst hp; exact .inr (.inr (.inr (.inr (.inr (.inr ⟨q, v, rfl, by simp [Msg.land]⟩)))))
    · exact .inl (update_of_ne hp ..)

theorem Msg.land_steady (m : Msg) (srv : ℕ → Server) (p : ℕ) :
    (m.land srv p).sid = (srv p).sid ∧ (m.land srv p).phase = (srv p).phase := by
  rcases m.land_cases srv p with he | ⟨_, _, -, he⟩ | ⟨_, _, -, he⟩ | ⟨_, _, _, -, he⟩ |
    ⟨_, _, -, he⟩ | ⟨_, -, he⟩ | ⟨_, _, -, he⟩ <;> exact ⟨by rw [he], by rw [he]⟩

theorem update_cases {α : Type*} {P : ℕ → α → Prop} {f : ℕ → α} {q : ℕ} {v : α}
    (hold : ∀ k, P k (f k)) (hnew : P q v) (k : ℕ) : P k (Function.update f q v k) := by
  by_cases hk : k = q
  · subst hk
    rwa [update_self]
  · rw [update_of_ne hk]
    exact hold k

theorem SidInv.deliver {m : Msg} (h : SidInv g s) (hm : m ∈ s.net) :
    SidInv g { s with srv := m.land s.srv, net := s.net.erase m } ∧
      Grows s { s with srv := m.land s.srv, net := s.net.erase m } := by
  have hok := h.net m hm
  have hnet : ∀ m' ∈ s.net.erase m, m' ∈ s.net := fun m' hm' => mem_of_mem_erase hm'
  refine h.environment (fun p => (m.land_steady s.srv p).1) (fun p => (m.land_steady s.srv p).2)
    rfl (fun j p => ?_) (fun j p => ?_) (fun j w hw => ?_) hnet
  · rcases m.land_cases s.srv j with he | ⟨q, v, rfl, he⟩ | ⟨_, _, -, he⟩ | ⟨_, _, _, -, he⟩ |
      ⟨_, _, -, he⟩ | ⟨_, -, he⟩ | ⟨_, _, -, he⟩ <;> simp only [he]
    case inr.inl => exact update_cases (h.hb j) hok p
    all_goals exact h.hb j p
  · rcases m.land_cases s.srv j with he | ⟨_, _, -, he⟩ | ⟨q, req, rfl, he⟩ | ⟨_, _, _, -, he⟩ |
      ⟨_, _, -, he⟩ | ⟨_, -, he⟩ | ⟨_, _, -, he⟩ <;> simp only [he]
    case inr.inr.inl => exact update_cases (h.req j) hok p
    all_goals exact h.req j p
  · have hk := h.holds j
    rcases m.land_cases s.srv j with he | ⟨_, _, -, he⟩ | ⟨_, _, -, he⟩ | ⟨_, _, _, -, he⟩ |
      ⟨q, v, rfl, he⟩ | ⟨_, -, he⟩ | ⟨q, v, rfl, he⟩ <;> simp only [he] at hw
    case inr.inr.inr.inr.inl =>
      rcases hw with hw | hw | hw | ⟨k, rfl⟩
      · exact hk w (.inl hw)
      · exact hk w (.inr (.inl hw))
      · exact hk w (.inr (.inr (.inl hw)))
      · exact update_cases (fun k => hk _ (.inr (.inr (.inr ⟨k, rfl⟩)))) hok k
    case inr.inr.inr.inr.inr.inr =>
      rcases hw with hw | ⟨k, rfl⟩ | hw | hw
      · exact hk w (.inl hw)
      · exact update_cases (fun k => hk _ (.inr (.inl ⟨k, rfl⟩))) hok k
      · exact hk w (.inr (.inr (.inl hw)))
      · exact hk w (.inr (.inr (.inr hw)))
    all_goals exact hk w hw

/-! ### All moves -/

theorem SidEffect.inv (h : SidInv g s) (hi : i < g.size) (he : SidEffect g s i eff) :
    SidInv g (s.perform i eff) ∧ Grows s (s.perform i eff) :=
  ⟨h.perform hi he, he.grows⟩

theorem SidInv.setPhase {ph : Phase} (h : SidInv g s) (hne : ph ≠ .starting)
    (hj : ph = .joining → (s.srv i).sid = sidMk 0 true i) :
    SidEffect g s i (.quiet { s.srv i with phase := ph }) where
  le := le_rfl
  genuine := (h.genuine i).mono fun _ => mem_append_left _
  seen := .log fun _ ho => absurd ho not_mem_nil
  joining := ⟨fun hp => absurd hp hne, hj⟩
  hb _ := .inl rfl
  req p := h.req i p
  holds w hw := .inl (h.holds i w hw)
  net _ hm := absurd hm not_mem_nil

theorem SidInv.tell {m : Msg} (h : SidInv g s) (hi : i < g.size)
    (hm : Tells i (s.srv i).sid m) : SidEffect g s i ⟨s.srv i, [m], []⟩ := by
  refine h.sameBallot (.refl _) (fun _ ho => absurd ho not_mem_nil) fun m' hm' => ?_
  obtain rfl := mem_singleton.mp hm'
  cases hm with
  | heartbeat => exact h.hbOk_sid hi
  | smRequest => trivial
  | smReply => exact h.known_sid hi

theorem aboutLog_appendEntry {reqId cltId : ℕ} {type : EntryType} {data : EntryData}
    {srv : Server} : ∀ o ∈ (appendEntry i reqId cltId type data srv).seen, AboutLog o := by
  intro o ho
  rcases mem_cons.mp ho with rfl | ho
  · exact .appended ..
  · split_ifs at ho
    · obtain rfl := mem_singleton.mp ho
      exact .startedOver _
    · exact absurd ho not_mem_nil

theorem aboutLog_applyCommittedEntries {srv : Server} :
    ∀ o ∈ (applyCommittedEntries i srv).seen, AboutLog o := by
  intro o ho
  unfold applyCommittedEntries at ho
  split at ho
  · obtain ⟨k, -, rfl⟩ := mem_map.mp ho
    exact .applied ..
  · exact absurd ho not_mem_nil

theorem Move.sid (h : SidInv g s) (hm : Move g r s s') : SidInv g s' ∧ Grows s s' := by
  cases hm with
  | idle hi hidle => exact (h.idle hidle).inv h hi
  | setPhase _ hi hne hj => exact (h.setPhase hne hj).inv h hi
  | resetTail hi | load _ hi _ => exact (h.quiet (sameBallot_log _ _)).inv h hi
  | tell hi hm => exact (h.tell hi hm).inv h hi
  | start hi hph ht _ => exact (h.start hi hph ht).inv h hi
  | request hi hidx hl hst => exact (h.request hi hidx hl hst).inv h hi
  | refresh hi => exact (h.quiet (sameBallot_grantAccess _)).inv h hi
  | follow hi hph _ hgen hlt _ =>
    exact (h.raise (hasJoined_of_recovered hph) (sameBallot_grantAccess _)
      (lt_of_sidGetTerm_lt hlt).le hgen).inv h hi
  | adopt hi hph hgen hle _ _ =>
    exact (h.raise (hasJoined_of_recovered hph) (.refl _) hle hgen).inv h hi
  | vote hi hph _ hlt hd => exact (h.vote hph hlt hd).inv h hi
  | bump hi hph hl hlt ht hd _ => exact (h.bump hi hph hl hlt ht hd).inv h hi
  | ack hi _ =>
    refine (h.sameBallot (.refl _) (fun _ ho => absurd ho not_mem_nil) fun m hm => ?_).inv h hi
    simp only [rcSendVoteAck] at hm
    split at hm
    · obtain rfl := mem_singleton.mp hm
      trivial
    · exact absurd hm not_mem_nil
  | countAck _ hi => exact (h.quiet (sameBallot_voteCountBody _ _ _)).inv h hi
  | @win i hi hph hidx hl _ =>
    have hsid := sidSetL_mk (s.srv i).sid
    rw [hidx] at hsid
    rw [hsid]
    exact (h.elect hi (hasJoined_of_recovered hph) (hsid ▸ le_sidSetL _)).inv h hi
  | single hs hph hle =>
    exact (h.elect (by omega) (by simp [HasJoined, hph]) hle).inv h (by omega)
  | join hi hph _ hgen hle =>
    exact (h.raise (by simp [HasJoined, hph]) (.refl _) hle hgen).inv h hi
  | append _ _ _ _ hi _ =>
    exact (h.sameBallot { SameBallot.refl _ with } aboutLog_appendEntry
      fun _ hm => absurd hm not_mem_nil).inv h hi
  | apply hi =>
    refine (h.sameBallot (sameBallot_applyCommittedEntries _)
      aboutLog_applyCommittedEntries fun m hm => ?_).inv h hi
    simp [applyCommittedEntries, apply_ite Effect.sent, Effect.quiet] at hm
  | openLogs hi => exact (h.quiet (SameBallot.restore (.refl _))).inv h hi
  | replicate hi hf =>
    rcases hf with rfl | rfl | rfl
    · exact (h.quiet (sameBallot_logAdjustment _ _)).inv h hi
    · exact (h.quiet (sameBallot_updateRemoteLog _ _)).inv h hi
    · exact (h.quiet (sameBallot_updateRemoteCommit _ _)).inv h hi
  | commit hi => exact (h.quiet (sameBallot_advanceCommit _)).inv h hi
  | complete _ _ _ hi =>
    refine (h.quiet (sameBallot_handleLrWorkCompletion ?_)).inv h hi
    exact { SameBallot.refl _ with }
  | exec _ _ _ _ _ =>
    exact h.environment_same
      (fun p => (sameBallot_execRequest _ _ _ _ _ p)) rfl fun _ hm => hm
  | fail _ hi => exact (h.quiet (sameBallot_popRequest _ _ _ _)).inv h hi
  | deliver hm _ => exact h.deliver hm
  | drop hm =>
    exact h.environment_same (fun p => .refl _) rfl fun _ hm' => mem_of_mem_erase hm'

end VmFt.Dare
