import VmFt.Dare.Phases

/-! # The entries of a group

Every entry in the memory of a server was appended by a leader, under its term.
While a server leads nobody else writes into its log, so the entries of a term
are the work of one server, and their indices differ as long as no log starts
over at the front of its buffer.
-/

namespace VmFt.Dare

open List Function Option

variable {g : Group} {r : Rules} {s s' : State} {eff : Effect} {i j p t : ℕ}

/-- An entry is zeroed memory or was appended by somebody. -/
def Made (tr : List Obs) (e : Entry) : Prop := e = .blank ∨ ∃ i k, .appended i e.term k e ∈ tr

theorem Made.mono {tr tr' : List Obs} {e : Entry} (h : Made tr e) (hsub : ∀ o ∈ tr, o ∈ tr') :
    Made tr' e :=
  h.imp_right fun ⟨i, k, hm⟩ => ⟨i, k, hsub _ hm⟩

/-- A leader's log: entries of other terms, and then those it has appended itself. -/
def OwnSuffix (tr : List Obs) (i t : ℕ) (log : Log) : Prop :=
  ∃ b ≤ log.endOff, (∀ k < b, (log.entries k).term ≠ t) ∧
    ∀ k, b ≤ k → k < log.endOff → .appended i t k (log.entries k) ∈ tr

/-- No log has started over at the front of its buffer. -/
def FirstLap (g : Group) (s : State) : Prop := ∀ i < g.size, .startedOver i ∉ s.trace

structure EntryInv (g : Group) (s : State) : Prop where
  led : ∀ p, sidGetL (s.srv p).sid = true → 0 < sidGetTerm (s.srv p).sid
  tail : ∀ p x, (s.srv p).log.tail = some x →
    isLeader p (s.srv p) ∧ x + 1 = (s.srv p).log.endOff
  term_le : ∀ p k, ((s.srv p).log.entries k).term ≤ sidGetTerm (s.srv p).sid
  standing : ∀ p < g.size, Stands p (s.srv p) →
    ∀ k, ((s.srv p).log.entries k).term < sidGetTerm (s.srv p).sid
  made : ∀ p k, Made s.trace ((s.srv p).log.entries k)
  queued : ∀ p j wr o es, wr ∈ (s.srv p).sendQueue j → wr.op = .writeEntries o es →
    ∀ e ∈ es, Made s.trace e ∧ e.term ≤ wr.term
  author : ∀ i t k e, .appended i t k e ∈ s.trace → e.term = t ∧ 0 < e.idx ∧ .elected i t ∈ s.trace
  last : FirstLap g s → ∀ i t k e, .appended i t k e ∈ s.trace → isLeader i (s.srv i) →
    sidGetTerm (s.srv i).sid = t → 0 < (s.srv i).log.endOff ∧
      e.idx ≤ ((s.srv i).log.entries ((s.srv i).log.endOff - 1)).idx
  unique : FirstLap g s → ∀ i i' t k k' e e', .appended i t k e ∈ s.trace →
    .appended i' t k' e' ∈ s.trace → e.idx = e'.idx → e = e'
  own : FirstLap g s → ∀ i < g.size, isLeader i (s.srv i) →
    OwnSuffix s.trace i (sidGetTerm (s.srv i).sid) (s.srv i).log

def LogOp.IsFrom (srv : Server) : LogOp → Prop
  | .writeEntries _ es => ∀ e ∈ es, ∃ k, e = srv.log.entries k
  | _ => True

def IsPosted (srv : Server) (wr : WorkRequest) : Prop :=
  wr.term = sidGetTerm srv.sid ∧ wr.op.IsFrom srv

structure SameEntries (srv srv' : Server) : Prop where
  entries : srv'.log.entries = srv.log.entries
  endOff : srv'.log.endOff = srv.log.endOff
  tail : ∀ x, srv'.log.tail = some x → srv.log.tail = some x
  queue : ∀ j, ∀ wr ∈ srv'.sendQueue j, wr ∈ srv.sendQueue j ∨ IsPosted srv wr

structure EntryEffect (s : State) (i : ℕ) (eff : Effect) : Prop where
  entries : eff.srv.log.entries = (s.srv i).log.entries
  endOff : eff.srv.log.endOff = (s.srv i).log.endOff
  tail : ∀ x, eff.srv.log.tail = some x → isLeader i eff.srv ∧ x + 1 = (s.srv i).log.endOff
  queue : ∀ j, ∀ wr ∈ eff.srv.sendQueue j, wr ∈ (s.srv i).sendQueue j ∨ IsPosted (s.srv i) wr
  led : sidGetL eff.srv.sid = true → 0 < sidGetTerm eff.srv.sid
  stands : Stands i eff.srv →
    (Stands i (s.srv i) ∧ sidGetTerm eff.srv.sid = sidGetTerm (s.srv i).sid) ∨
      sidGetTerm (s.srv i).sid < sidGetTerm eff.srv.sid
  leads : isLeader i eff.srv →
    ((isLeader i (s.srv i) ∨ Stands i (s.srv i)) ∧
      sidGetTerm eff.srv.sid = sidGetTerm (s.srv i).sid) ∨
      sidGetTerm (s.srv i).sid < sidGetTerm eff.srv.sid
  seen : ∀ j t k e, .appended j t k e ∉ eff.seen

theorem OwnSuffix.mono {tr tr' : List Obs} {log : Log} (h : OwnSuffix tr i t log)
    (hsub : ∀ o ∈ tr, o ∈ tr') : OwnSuffix tr' i t log := by
  obtain ⟨b, hb, ho, hown⟩ := h
  exact ⟨b, hb, ho, fun k hbk hk => hsub _ (hown k hbk hk)⟩

theorem OwnSuffix.congr {tr : List Obs} {log log' : Log} (h : OwnSuffix tr i t log)
    (he : log'.entries = log.entries) (hend : log'.endOff = log.endOff) :
    OwnSuffix tr i t log' := by
  unfold OwnSuffix
  rwa [he, hend]

theorem EntryInv.not_appended (h : EntryInv g s) (hinv : SidInv g s) {k : ℕ} {e : Entry}
    (ht : sidGetTerm (s.srv i).sid < t) : .appended i t k e ∉ s.trace := by
  intro hm
  obtain ⟨-, -, hel⟩ := h.author i t k e hm
  obtain ⟨hi, hle⟩ := hinv.elected_le i t hel
  have := sidGetTerm_mono hle
  rw [sidGetTerm_mk (g.idx_lt hi)] at this
  omega

theorem EntryInv.not_appended_standing (h : EntryInv g s) (hinv : SidInv g s) {k : ℕ} {e : Entry}
    (hst : Stands i (s.srv i)) (ht : sidGetTerm (s.srv i).sid = t) :
    .appended i t k e ∉ s.trace := by
  intro hm
  obtain ⟨-, -, hel⟩ := h.author i t k e hm
  have hle := (hinv.elected_le i t hel).2
  rw [sidMk_eta (s.srv i).sid, hst.1, hst.2, ht, sidMk, sidMk] at hle
  simp only [if_true, Bool.false_eq_true, if_false] at hle
  omega

theorem EntryInv.perform (h : EntryInv g s) (hinv : SidInv g s) (hg : Grows s (s.perform i eff))
    (he : EntryEffect s i eff) : EntryInv g (s.perform i eff) := by
  have hsub := hg.trace
  have hterm := hg.term i
  rw [State.perform_srv_self] at hterm
  have happ : ∀ j t k e, .appended j t k e ∈ (s.perform i eff).trace →
      .appended j t k e ∈ s.trace := fun j t k e hm =>
    (mem_append.mp hm).resolve_right (he.seen j t k e)
  have hlap : FirstLap g (s.perform i eff) → FirstLap g s := fun hf p hp hm => hf p hp (hsub _ hm)
  constructor
  case led =>
    intro p
    rw [State.perform_srv]
    split_ifs with hp
    · subst hp
      exact he.led
    · exact h.led p
  case tail =>
    intro p x
    rw [State.perform_srv]
    split_ifs with hp
    · subst hp
      rw [he.endOff]
      exact he.tail x
    · exact h.tail p x
  case term_le =>
    intro p k
    rw [State.perform_srv]
    split_ifs with hp
    · subst hp
      rw [he.entries]
      exact (h.term_le p k).trans hterm
    · exact h.term_le p k
  case standing =>
    intro p hlt
    rw [State.perform_srv]
    split_ifs with hp
    · subst hp
      rw [he.entries]
      intro hst k
      rcases he.stands hst with ⟨hold, heq⟩ | hnew
      · rw [heq]
        exact h.standing p hlt hold k
      · exact (h.term_le p k).trans_lt hnew
    · exact h.standing p hlt
  case made =>
    intro p k
    rw [State.perform_srv]
    split_ifs with hp
    · subst hp
      rw [he.entries]
      exact (h.made p k).mono hsub
    · exact (h.made p k).mono hsub
  case queued =>
    intro p j wr o es
    rw [State.perform_srv]
    split_ifs with hp
    · subst hp
      intro hwr hop e hes
      rcases he.queue j wr hwr with hold | hnew
      · exact (h.queued p j wr o es hold hop e hes).imp_left fun hm => hm.mono hsub
      · obtain ⟨hwt, hf⟩ := hnew
        rw [hop] at hf
        obtain ⟨k, rfl⟩ := hf e hes
        exact ⟨(h.made p k).mono hsub, hwt ▸ h.term_le p k⟩
    · exact fun hwr hop e hes =>
        (h.queued p j wr o es hwr hop e hes).imp_left fun hm => hm.mono hsub
  case author =>
    intro j t k e hm
    obtain ⟨ht, hpos, hel⟩ := h.author j t k e (happ j t k e hm)
    exact ⟨ht, hpos, hsub _ hel⟩
  case last =>
    intro hf j t k e hm
    have hm' := happ j t k e hm
    rw [State.perform_srv]
    split_ifs with hj
    · subst hj
      rw [he.entries, he.endOff]
      intro hl ht
      rcases he.leads hl with ⟨hl' | hst, heq⟩ | hnew
      · exact h.last (hlap hf) j t k e hm' hl' (heq ▸ ht)
      · exact absurd hm' (h.not_appended_standing hinv hst (heq.symm.trans ht))
      · exact absurd hm' (h.not_appended hinv (ht ▸ hnew))
    · exact h.last (hlap hf) j t k e hm'
  case unique =>
    exact fun hf j j' t k k' e e' hm hm' => h.unique (hlap hf) j j' t k k' e e' (happ _ _ _ _ hm)
      (happ _ _ _ _ hm')
  case own =>
    intro hf p hlt
    rw [State.perform_srv]
    split_ifs with hp
    · subst hp
      intro hl
      refine OwnSuffix.congr ?_ he.entries he.endOff
      rcases he.leads hl with ⟨hl' | hst, heq⟩ | hnew
      · rw [heq]
        exact (h.own (hlap hf) p hlt hl').mono hsub
      · rw [heq]
        refine ⟨_, le_rfl, fun k _ => (h.standing p hlt hst k).ne, ?_⟩
        exact fun k hbk hk => absurd hk (not_lt.mpr hbk)
      · refine ⟨_, le_rfl, fun k _ => ((h.term_le p k).trans_lt hnew).ne, ?_⟩
        exact fun k hbk hk => absurd hk (not_lt.mpr hbk)
    · exact fun hl => (h.own (hlap hf) p hlt hl).mono hsub

/-! ### Functions that append nothing -/

section SameEntries

variable {srv srv' srv'' : Server}

theorem SameEntries.refl (srv : Server) : SameEntries srv srv :=
  ⟨rfl, rfl, fun _ => id, fun _ _ => .inl⟩

theorem SameEntries.raise (h : SameEntries srv srv') (c : ℕ) :
    SameEntries srv (raiseCommit c srv') := by
  unfold raiseCommit
  split_ifs
  · exact { h with }
  · exact h

theorem SameEntries.send {op : LogOp} (h : SameEntries srv srv') (hsid : srv'.sid = srv.sid)
    (hop : op.IsFrom srv) (j wrId : ℕ) (signaled : Bool) : SameEntries srv { srv' with
      sendQueue := Function.update srv'.sendQueue j
        (srv'.sendQueue j ++ [⟨wrId, sidGetTerm srv'.sid, op, signaled⟩]) } where
  entries := h.entries
  endOff := h.endOff
  tail := h.tail
  queue k wr hwr := by
    dsimp only at hwr
    by_cases hk : k = j
    · subst hk
      rw [update_self] at hwr
      rcases mem_append.mp hwr with hold | hnew
      · exact h.queue k wr hold
      · obtain rfl := mem_singleton.mp hnew
        exact .inr ⟨congrArg sidGetTerm hsid, hop⟩
    · rw [update_of_ne hk] at hwr
      exact h.queue k wr hwr

theorem SameEntries.post {op : LogOp} (h : SameEntries srv srv') (hsid : srv'.sid = srv.sid)
    (hop : op.IsFrom srv) (j : ℕ) : SameEntries srv (postSend j op srv') :=
  have hs := h.send hsid hop j (srv'.ssn + 1) true
  { hs with }

theorem sid_raiseCommit (c : ℕ) (srv : Server) : (raiseCommit c srv).sid = srv.sid := by
  unfold raiseCommit
  split_ifs <;> rfl

theorem sameEntries_logAdjustment (j : ℕ) (srv : Server) :
    SameEntries srv (logAdjustment j srv) := by
  unfold logAdjustment
  split
  · exact .refl srv
  · split
    · exact .refl srv
    · split
      · refine SameEntries.post (SameEntries.raise ?_ _) (by exact sid_raiseCommit _ _)
          (by trivial) j
        exact { SameEntries.refl _ with }
      · exact ((SameEntries.refl srv).raise _).post (sid_raiseCommit _ _) (by trivial) j
      · split
        · exact { SameEntries.refl _ with }
        · exact (SameEntries.refl srv).post rfl (by trivial) j
      · refine SameEntries.post ?_ (by rfl) (by trivial) j
        exact { SameEntries.refl _ with }
      · exact .refl srv
      · exact .refl srv

theorem sameEntries_updateRemoteLog (j : ℕ) (srv : Server) :
    SameEntries srv (updateRemoteLog j srv) := by
  unfold updateRemoteLog
  split
  · exact .refl srv
  · split
    · dsimp only
      split
      · exact .refl srv
      · refine SameEntries.post ?_ ?_ ?_ j
        · exact { SameEntries.refl _ with }
        · rfl
        · intro e he
          obtain ⟨k, -, rfl⟩ := List.mem_map.mp he
          exact ⟨k, rfl⟩
    · refine SameEntries.post ?_ (by rfl) (by trivial) j
      exact { SameEntries.refl _ with }
    · exact .refl srv

theorem sameEntries_updateRemoteCommit (j : ℕ) (srv : Server) :
    SameEntries srv (updateRemoteCommit j srv) := by
  unfold updateRemoteCommit
  split
  · exact .refl srv
  · refine ⟨rfl, rfl, fun _ => id, ?_⟩
    exact ((SameEntries.refl srv).send rfl (by trivial) j _ false).queue

theorem sameEntries_advanceCommit (srv : Server) : SameEntries srv (advanceCommit g i srv) := by
  unfold advanceCommit
  split
  · exact .refl srv
  · exact (SameEntries.refl srv).raise _

theorem SameEntries.complete {wrId : ℕ} {ok : Bool} (h : SameEntries srv srv') :
    SameEntries srv (handleLrWorkCompletion j wrId ok srv') := by
  unfold handleLrWorkCompletion
  split
  · exact { h with }
  · exact h

theorem sameEntries_applyCommittedEntries (srv : Server) :
    SameEntries srv (applyCommittedEntries i srv).srv := by
  unfold applyCommittedEntries
  split_ifs
  · exact { SameEntries.refl _ with }
  · exact .refl srv

theorem sameEntries_voteCountBody (srv : Server) (n k : ℕ) :
    SameEntries srv (voteCountBody (srv, n) k).1 := by
  unfold voteCountBody
  split
  · exact .refl srv
  · refine SameEntries.raise ?_ _
    exact { SameEntries.refl _ with }

theorem mem_revoked {wr : WorkRequest} (h : wr ∈ (rcRevokeLogAccess srv).sendQueue j) :
    wr ∈ srv.sendQueue j := by
  dsimp only [rcRevokeLogAccess] at h
  split_ifs at h
  · cases h
  · exact h

theorem SameEntries.restore (h : SameEntries srv srv') :
    SameEntries srv (rcRestoreLogAccess g i srv') := by
  unfold rcRestoreLogAccess
  dsimp only
  split_ifs
  · exact { h with }
  · exact { h with }
  · exact h

theorem SameEntries.grantAccess (hlog : srv'.log = srv.log)
    (hq : srv'.sendQueue = srv.sendQueue) : SameEntries srv (grantAccess g i srv') := by
  refine SameEntries.restore ⟨?_, ?_, ?_, fun j wr hwr => .inl (hq ▸ mem_revoked hwr)⟩
  · change srv'.log.entries = _
    rw [hlog]
  · change srv'.log.endOff = _
    rw [hlog]
  · exact fun x hx => hlog ▸ hx

theorem mem_of_popRequest {w : WorkRequest} {k : ℕ} (ok : Bool) (wr : WorkRequest)
    (h : w ∈ (popRequest j ok wr srv).sendQueue k) : w ∈ srv.sendQueue k := by
  dsimp only [popRequest] at h
  by_cases hk : k = j
  · subst hk
    rw [update_self] at h
    exact mem_of_mem_tail h
  · rwa [update_of_ne hk] at h

theorem sameEntries_popRequest (ok : Bool) (wr : WorkRequest) (srv : Server) :
    SameEntries srv (popRequest j ok wr srv) :=
  ⟨rfl, rfl, fun _ => id, fun _ _ hw => .inl (mem_of_popRequest ok wr hw)⟩

end SameEntries

/-! ### Moves -/

theorem EntryInv.effect_same (h : EntryInv g s) (hsid : eff.srv.sid = (s.srv i).sid)
    (hs : SameEntries (s.srv i) eff.srv) (hse : ∀ j t k e, .appended j t k e ∉ eff.seen) :
    EntryEffect s i eff where
  entries := hs.entries
  endOff := hs.endOff
  tail x hx := (h.tail i x (hs.tail x hx)).imp_left (isLeader_congr hsid).trans
  queue := hs.queue
  led hl := by
    rw [hsid] at hl ⊢
    exact h.led i hl
  stands hst := by
    rw [Stands, hsid] at hst
    exact .inl ⟨hst, congrArg sidGetTerm hsid⟩
  leads hle := .inl ⟨.inl ((isLeader_congr hsid).symm.trans hle), congrArg sidGetTerm hsid⟩
  seen := hse

theorem entryEffect_term (hterm : sidGetTerm (s.srv i).sid < sidGetTerm eff.srv.sid)
    (hs : SameEntries (s.srv i) eff.srv) (ht : (s.srv i).log.tail = none)
    (hse : ∀ j t k e, .appended j t k e ∉ eff.seen) : EntryEffect s i eff where
  entries := hs.entries
  endOff := hs.endOff
  tail x hx := absurd (ht.symm.trans (hs.tail x hx)) (by simp)
  queue := hs.queue
  led _ := Nat.zero_lt_of_lt hterm
  stands _ := .inr hterm
  leads _ := .inr hterm
  seen := hse

theorem EntryInv.tail_eq_none (h : EntryInv g s) (hl : isLeader i (s.srv i) = false) :
    (s.srv i).log.tail = none := by
  by_contra hne
  obtain ⟨x, hx⟩ := ne_none_iff_exists'.mp hne
  have := (h.tail i x hx).1
  simp [hl] at this

theorem sidGetL_of_le {a b : ℕ} (h : a ≤ b) (hterm : sidGetTerm b = sidGetTerm a)
    (hl : sidGetL a = true) : sidGetL b = true := by
  simp only [sidGetTerm_eq, sidGetL_eq, decide_eq_true_eq] at *
  omega

theorem entryEffect_adopt {w : ℕ} (hinv : SidInv g s) (hv : VoteInv g s) (h : EntryInv g s)
    (hi : i < g.size) (hgen : Genuine s.trace w) (hle : (s.srv i).sid ≤ w)
    (hterm : sidGetTerm w = sidGetTerm (s.srv i).sid) (hpos : 0 < sidGetTerm w) :
    EntryEffect s i (.quiet { s.srv i with sid := w }) where
  entries := rfl
  endOff := rfl
  tail x hx := by
    refine (h.tail i x hx).imp_left fun hld => ?_
    obtain ⟨hidx, hl⟩ := isLeader_iff.mp hld
    have hl' := sidGetL_of_le hle hterm hl
    have hgen' := hinv.genuine i
    rw [Genuine, if_pos hl, hidx, ← hterm] at hgen'
    rw [Genuine, if_pos hl'] at hgen
    refine isLeader_iff.mpr ⟨?_, hl'⟩
    exact elected_unique hinv hv (hgen.resolve_right hpos.ne') (hgen'.resolve_right hpos.ne')
  queue _ _ := .inl
  led _ := hpos
  stands hst := by
    have heq := hinv.eq_of_stands hi hgen hle hst.1 hst.2
    rw [heq] at hst
    exact .inl ⟨hst, hterm⟩
  leads hld := by
    refine .inl ⟨.inl ?_, hterm⟩
    have heq : w = (s.srv i).sid := by
      by_contra hne
      exact hinv.not_leader_of_adopt hgen hle hne hpos (isLeader_iff.mp hld)
    exact (isLeader_congr heq).symm.trans hld
  seen _ _ _ _ := not_mem_nil

theorem EntryInv.effect_win (h : EntryInv g s) (hidx : sidGetIdx (s.srv i).sid = i)
    (hl : sidGetL (s.srv i).sid = false) (hpos : 0 < sidGetTerm (s.srv i).sid) :
    EntryEffect s i ⟨{ s.srv i with sid := sidSetL (s.srv i).sid }, [],
      [.elected i (sidGetTerm (s.srv i).sid)]⟩ where
  entries := rfl
  endOff := rfl
  tail x hx := by
    have := h.tail_eq_none (isLeader_eq_false_of_sidGetL (i := i) hl)
    exact absurd (this.symm.trans hx) (by simp)
  queue _ _ := .inl
  led _ := (sidGetTerm_setL _).symm ▸ hpos
  stands hst := by
    have hl' : sidGetL (sidSetL (s.srv i).sid) = false := hst.2
    rw [sidSetL_mk, sidGetL_mk (sidGetIdx_lt _)] at hl'
    cases hl'
  leads _ := .inl ⟨.inr ⟨hidx, hl⟩, sidGetTerm_setL _⟩
  seen := by simp

theorem EntryInv.effect_single (h : EntryInv g s) (hinv : SidInv g s) (hs : g.size = 1)
    (hle : (s.srv 0).sid ≤ sidMk 1 true 0) :
    EntryEffect s 0 ⟨{ s.srv 0 with sid := sidMk 1 true 0 }, [], [.elected 0 1]⟩ where
  entries := rfl
  endOff := rfl
  tail x hx := (h.tail 0 x hx).imp_left fun _ =>
    isLeader_iff.mpr ⟨sidGetIdx_mk (by decide), sidGetL_mk (by decide)⟩
  queue _ _ := .inl
  led _ := by
    change 0 < sidGetTerm (sidMk 1 true 0)
    decide
  stands hst := by
    have hl : sidGetL (sidMk 1 true 0) = false := hst.2
    cases hl
  leads _ := by
    have hone : sidGetTerm (sidMk 1 true 0) = 1 := sidGetTerm_mk (by decide)
    have hterm := sidGetTerm_mono hle
    dsimp only
    rw [hone] at hterm ⊢
    rcases Nat.lt_or_eq_of_le hterm with hlt | heq
    · exact .inr hlt
    refine .inl ⟨?_, heq.symm⟩
    have hgen := hinv.genuine 0
    by_cases hl : sidGetL (s.srv 0).sid = true
    · refine .inl (isLeader_iff.mpr ⟨?_, hl⟩)
      rw [sidMk_eta (s.srv 0).sid, hl, heq] at hle
      simp only [sidMk, if_true] at hle
      omega
    · rw [Genuine, if_neg hl] at hgen
      rcases hgen with hn | hent
      · rw [hn] at heq
        cases heq
      · have hlt := hinv.entered_lt _ _ hent
        exact .inr ⟨by omega, by simpa using hl⟩
  seen := by simp

/-! ### Appending -/

def nextIdx (log : Log) : ℕ :=
  if log.endOff = 0 then 1 else (log.entries (log.endOff - 1)).idx + 1

section Append

variable {log : Log} {term reqId cltId : ℕ} {type : EntryType} {data : EntryData}

theorem logGetEntry_tail (hta : ∀ x, log.tail = some x → x + 1 = log.endOff)
    (hr : log.endOff ≠ log.len) : (logGetTail log).bind (logGetEntry log) =
      if log.endOff = 0 then none else some (log.entries (log.endOff - 1)) := by
  split_ifs with h0
  · have hn : log.tail = none := by
      by_contra hne
      obtain ⟨x, hx⟩ := ne_none_iff_exists'.mp hne
      have := hta x hx
      omega
    simp [logGetTail, hn, isLogEmpty, h0]
  · have hsome : logGetTail log = some (log.endOff - 1) := by
      cases ht : log.tail with
      | none => simp [logGetTail, ht, isLogEmpty, h0, hr]
      | some x => simp [logGetTail, ht, ← hta x ht]
    have hd : logOffsetEndDistance log (log.endOff - 1) ≠ 0 := by
      simp [logOffsetEndDistance, isLogEmpty, h0, hr]
      omega
    simp [hsome, logGetEntry, isLogEmpty, h0, hr, hd]

theorem exists_logAppendEntry (ht : ∀ x, log.tail = some x → x + 1 = log.endOff) :
    ∃ idx, logAppendEntry log term reqId cltId type data =
        log.push ⟨idx, term, reqId, cltId, type, data⟩ ∧ 0 < idx ∧
      (log.endOff ≠ log.len → idx = nextIdx log) := by
  refine ⟨_, rfl, ?_, fun hr => ?_⟩
  · split <;> exact Nat.succ_pos _
  · rw [logGetEntry_tail ht hr, nextIdx]
    split_ifs <;> rfl

end Append

theorem Log.newOffset_eq {log : Log} (h : log.endOff ≠ log.len) : log.newOffset = log.endOff := by
  by_cases h0 : log.endOff = 0 <;> simp [Log.newOffset, isLogEmpty, h0, h]

@[simp]
theorem Log.push_entries_new (log : Log) (e : Entry) : (log.push e).entries log.newOffset = e :=
  update_self ..

theorem Log.push_entries_of_ne (log : Log) (e : Entry) {k : ℕ} (h : k ≠ log.newOffset) :
    (log.push e).entries k = log.entries k :=
  update_of_ne h ..

theorem EntryInv.elected (h : EntryInv g s) (hinv : SidInv g s) (hle : isLeader i (s.srv i)) :
    .elected i (sidGetTerm (s.srv i).sid) ∈ s.trace := by
  obtain ⟨hidx, hl⟩ := isLeader_iff.mp hle
  have hgen := hinv.genuine i
  rw [Genuine, if_pos hl, hidx] at hgen
  exact hgen.resolve_right (h.led i hl).ne'

theorem EntryInv.lt_nextIdx (h : EntryInv g s) (hf : FirstLap g s) {k : ℕ} {e : Entry}
    (hm : .appended i (sidGetTerm (s.srv i).sid) k e ∈ s.trace) (hl : isLeader i (s.srv i)) :
    e.idx < nextIdx (s.srv i).log := by
  obtain ⟨hpos, hle⟩ := h.last hf i _ k e hm hl rfl
  rw [nextIdx, if_neg hpos.ne']
  omega

theorem OwnSuffix.push {tr tr' : List Obs} {log : Log} {e : Entry} (h : OwnSuffix tr i t log)
    (hnew : log.newOffset = log.endOff) (hsub : ∀ o ∈ tr, o ∈ tr')
    (hm : .appended i t log.newOffset e ∈ tr') : OwnSuffix tr' i t (log.push e) := by
  obtain ⟨b, hb, ho, hown⟩ := h
  refine ⟨b, hb.trans ((Nat.le_succ _).trans_eq (congrArg _ hnew.symm)), fun k hk => ?_,
    fun k hbk hk => ?_⟩
  · rw [Log.push_entries_of_ne _ _ (by omega)]
    exact ho k hk
  · by_cases hend : k = log.newOffset
    · subst hend
      rwa [Log.push_entries_new]
    · rw [Log.push_entries_of_ne _ _ hend]
      have : k < log.newOffset + 1 := hk
      exact hsub _ (hown k hbk (by omega))

/-- A leader appends an entry; only in its first lap does the index follow the one before. -/
theorem EntryInv.push {e : Entry} {seen : List Obs} (h : EntryInv g s) (hinv : SidInv g s)
    (hv : VoteInv g s) (hle : isLeader i (s.srv i)) (hterm : e.term = sidGetTerm (s.srv i).sid)
    (hpos : 0 < e.idx) (hidx : FirstLap g (s.perform i ⟨{ s.srv i with
        log := (s.srv i).log.push e }, [], seen⟩) →
      (s.srv i).log.endOff ≠ (s.srv i).log.len ∧ e.idx = nextIdx (s.srv i).log)
    (hseen : ∀ j t k e', .appended j t k e' ∈ seen ↔ j = i ∧ t = sidGetTerm (s.srv i).sid ∧
      k = (s.srv i).log.newOffset ∧ e' = e) :
    EntryInv g (s.perform i ⟨{ s.srv i with log := (s.srv i).log.push e }, [], seen⟩) := by
  have hel := h.elected hinv hle
  have hsub : ∀ o ∈ s.trace, o ∈ s.trace ++ seen := fun o => mem_append_left _
  have hnew : .appended i (sidGetTerm (s.srv i).sid) (s.srv i).log.newOffset e ∈ s.trace ++ seen :=
    mem_append_right _ ((hseen ..).mpr ⟨rfl, rfl, rfl, rfl⟩)
  have hc : ∀ j t k e', .appended j t k e' ∈ s.trace ++ seen → .appended j t k e' ∈ s.trace ∨
      j = i ∧ t = sidGetTerm (s.srv i).sid ∧ k = (s.srv i).log.newOffset ∧ e' = e :=
    fun j t k e' hm => (mem_append.mp hm).imp_right (hseen j t k e').mp
  have he : ∀ k, ((s.srv i).log.push e).entries k = (s.srv i).log.entries k ∨
      ((s.srv i).log.push e).entries k = e := by
    intro k
    by_cases hk : k = (s.srv i).log.newOffset
    · exact .inr (hk ▸ Log.push_entries_new ..)
    · exact .inl (Log.push_entries_of_ne _ _ hk)
  have hlap : FirstLap g (s.perform i ⟨{ s.srv i with log := (s.srv i).log.push e }, [], seen⟩) →
      FirstLap g s := fun hf p hp hm => hf p hp (hsub _ hm)
  constructor
  case led =>
    intro p
    rw [State.perform_srv]
    split_ifs with hp
    · subst hp
      exact h.led p
    · exact h.led p
  case tail =>
    intro p x
    rw [State.perform_srv]
    split_ifs with hp
    · subst hp
      intro hx
      obtain rfl := Option.some.inj hx
      exact ⟨hle, rfl⟩
    · exact h.tail p x
  case term_le =>
    intro p k
    rw [State.perform_srv]
    split_ifs with hp
    · subst hp
      rcases he k with hk | hk
      · exact (congrArg Entry.term hk).trans_le (h.term_le p k)
      · exact ((congrArg Entry.term hk).trans hterm).le
    · exact h.term_le p k
  case standing =>
    intro p hlt
    rw [State.perform_srv]
    split_ifs with hp
    · subst hp
      intro hst
      exact absurd ((isLeader_iff.mp hle).2.symm.trans hst.2) (by simp)
    · exact h.standing p hlt
  case made =>
    intro p k
    rw [State.perform_srv]
    split_ifs with hp
    · subst hp
      rw [State.perform_trace]
      rcases he k with hk | hk
      · rw [hk]
        exact (h.made p k).mono hsub
      · rw [hk]
        exact .inr ⟨p, _, hterm ▸ hnew⟩
    · exact (h.made p k).mono hsub
  case queued =>
    intro p j wr o es
    have hold := h.queued p j wr o es
    rw [State.perform_srv]
    split_ifs with hp
    · subst hp
      exact fun hwr hop e' hes => (hold hwr hop e' hes).imp_left fun hm => hm.mono hsub
    · exact fun hwr hop e' hes => (hold hwr hop e' hes).imp_left fun hm => hm.mono hsub
  case author =>
    intro j t k e' hm
    rcases hc j t k e' hm with hold | ⟨rfl, rfl, rfl, rfl⟩
    · exact (h.author j t k e' hold).imp_right (And.imp_right (hsub _))
    · exact ⟨hterm, hpos, hsub _ hel⟩
  case last =>
    intro hf j t k e' hm
    rw [State.perform_srv]
    split_ifs with hj
    · subst hj
      intro _ ht
      refine ⟨Nat.succ_pos _, ?_⟩
      change e'.idx ≤ (((s.srv j).log.push e).entries (s.srv j).log.newOffset).idx
      rw [Log.push_entries_new]
      rcases hc j t k e' hm with hold | ⟨-, -, -, rfl⟩
      · rw [← ht] at hold
        rw [(hidx hf).2]
        exact (h.lt_nextIdx (hlap hf) hold hle).le
      · exact le_rfl
    · exact h.last (hlap hf) j t k e' ((hc j t k e' hm).resolve_right fun hnew => hj hnew.1)
  case unique =>
    -- An entry of the same term is the leader's own, and its index is smaller.
    intro hf
    have hlt : ∀ j k e', .appended j (sidGetTerm (s.srv i).sid) k e' ∈ s.trace →
        e'.idx ≠ e.idx := by
      intro j k e' hm
      obtain ⟨-, -, hel'⟩ := h.author j _ k e' hm
      obtain rfl := elected_unique hinv hv hel' hel
      rw [(hidx hf).2]
      exact (h.lt_nextIdx (hlap hf) hm hle).ne
    intro j j' t k k' e₁ e₂ hm hm' heq
    rcases hc _ _ _ _ hm with hold | ⟨-, rfl, -, rfl⟩ <;>
      rcases hc _ _ _ _ hm' with hold' | ⟨-, ht', -, rfl⟩
    · exact h.unique (hlap hf) j j' t k k' e₁ e₂ hold hold' heq
    · subst ht'
      exact absurd heq (hlt j k e₁ hold)
    · exact absurd heq.symm (hlt j' k' e₂ hold')
    · rfl
  case own =>
    intro hf p hlt
    rw [State.perform_srv]
    split_ifs with hp
    · subst hp
      exact fun _ => (h.own (hlap hf) p hlt hle).push (Log.newOffset_eq (hidx hf).1) hsub hnew
    · exact fun hl => (h.own (hlap hf) p hlt hl).mono hsub

theorem EntryInv.append {reqId cltId : ℕ} {type : EntryType} {data : EntryData}
    (h : EntryInv g s) (hinv : SidInv g s) (hv : VoteInv g s) (hi : i < g.size)
    (hl : isLeader i (s.srv i)) :
    EntryInv g (s.perform i (appendEntry i reqId cltId type data (s.srv i))) := by
  obtain ⟨idx, happ, hpos, hidx⟩ := exists_logAppendEntry fun x hx => (h.tail i x hx).2
  unfold appendEntry
  dsimp only
  rw [happ, Log.push_entries_new]
  refine h.push hinv hv hl rfl hpos (fun hf => ?_) fun j t k e' => ?_
  · have hne : (s.srv i).log.endOff ≠ (s.srv i).log.len := fun heq =>
      hf i hi (mem_append_right _ (by simp [heq]))
    exact ⟨hne, hidx hne⟩
  · split_ifs <;> simp

/-! ### LOG operations -/

/-- What the writes of others may do to server `p`: they leave its log alone, or they put entries
that exist into the log of a server that follows somebody. -/
structure Overwritten (s : State) (p : ℕ) (srv : Server) : Prop where
  sid : srv.sid = (s.srv p).sid
  tail : srv.log.tail = (s.srv p).log.tail
  log : (srv.log.entries = (s.srv p).log.entries ∧ srv.log.endOff = (s.srv p).log.endOff) ∨
    sidGetIdx (s.srv p).sid ≠ p ∧ ∀ k, srv.log.entries k = (s.srv p).log.entries k ∨
      Made s.trace (srv.log.entries k) ∧
        (srv.log.entries k).term ≤ sidGetTerm (s.srv p).sid
  queue : ∀ j, ∀ wr ∈ srv.sendQueue j, wr ∈ (s.srv p).sendQueue j

theorem EntryInv.environment (h : EntryInv g s) (htr : s'.trace = s.trace)
    (ho : ∀ p, Overwritten s p (s'.srv p)) : EntryInv g s' := by
  have hsid := fun p => (ho p).sid
  have hlap : FirstLap g s' → FirstLap g s := fun hf => by rwa [FirstLap, htr] at hf
  have hld : ∀ p, isLeader p (s'.srv p) → isLeader p (s.srv p) := fun p hl =>
    (isLeader_congr (hsid p)).symm.trans hl
  have hs : ∀ p, isLeader p (s.srv p) ∨ Stands p (s.srv p) →
      (s'.srv p).log.entries = (s.srv p).log.entries ∧
        (s'.srv p).log.endOff = (s.srv p).log.endOff := by
    intro p hr
    rcases (ho p).log with hs | ⟨hne, -⟩
    · exact hs
    · rcases hr with hl | hst
      · exact absurd (isLeader_iff.mp hl).1 hne
      · exact absurd hst.1 hne
  constructor
  case led =>
    intro p
    rw [hsid p]
    exact h.led p
  case tail =>
    intro p x hx
    rw [(ho p).tail] at hx
    obtain ⟨hl, hend⟩ := h.tail p x hx
    rw [(hs p (.inl hl)).2]
    exact ⟨(isLeader_congr (hsid p)).trans hl, hend⟩
  case term_le =>
    intro p k
    rw [hsid p]
    rcases (ho p).log with hs | ⟨-, hnew⟩
    · rw [hs.1]
      exact h.term_le p k
    · rcases hnew k with hk | ⟨-, hle⟩
      · rw [hk]
        exact h.term_le p k
      · exact hle
  case standing =>
    intro p hlt hst k
    rw [Stands, hsid p] at hst
    rw [hsid p, (hs p (.inr hst)).1]
    exact h.standing p hlt hst k
  case made =>
    intro p k
    rw [htr]
    rcases (ho p).log with hs | ⟨-, hnew⟩
    · rw [hs.1]
      exact h.made p k
    · rcases hnew k with hk | ⟨hma, -⟩
      · rw [hk]
        exact h.made p k
      · exact hma
  case queued =>
    intro p j wr o es hwr
    rw [htr]
    exact h.queued p j wr o es ((ho p).queue j wr hwr)
  case author => exact htr ▸ h.author
  case last =>
    intro hf i t k e hm hl ht
    rw [htr] at hm
    rw [hsid i] at ht
    obtain ⟨he, hend⟩ := hs i (.inl (hld i hl))
    rw [he, hend]
    exact h.last (hlap hf) i t k e hm (hld i hl) ht
  case unique => exact fun hf => htr ▸ h.unique (hlap hf)
  case own =>
    intro hf i hi hl
    obtain ⟨he, hend⟩ := hs i (.inl (hld i hl))
    rw [htr, hsid i]
    exact (h.own (hlap hf) i hi (hld i hl)).congr he hend

section Exec

variable {ok : Bool} {wr : WorkRequest} {rest : List WorkRequest} {srv : ℕ → Server}

theorem execRequest_sender (hij : i ≠ j) : execRequest i j ok wr srv i =
      { popRequest j ok wr (srv i) with
        log := wr.op.onSender j (wr.op.onTarget (srv j).log) (srv i).log } := by
  simp only [execRequest, update_self, update_of_ne hij]
  rfl

theorem execRequest_target (hij : i ≠ j) :
    execRequest i j ok wr srv j = { srv j with log := wr.op.onTarget (srv j).log } := by
  simp only [execRequest, update_of_ne hij.symm, update_self]

theorem execRequest_of_ne (hi : p ≠ i) (hj : p ≠ j) : execRequest i j ok wr srv p = srv p := by
  simp only [execRequest, update_of_ne hi, update_of_ne hj]

theorem LogOp.onTarget_tail (op : LogOp) (log : Log) : (op.onTarget log).tail = log.tail := by
  cases op <;> rfl

theorem LogOp.onSender_same (op : LogOp) (j : ℕ) (target log : Log) :
    (op.onSender j target log).entries = log.entries ∧
    (op.onSender j target log).endOff = log.endOff ∧
      (op.onSender j target log).tail = log.tail := by
  cases op <;> exact ⟨rfl, rfl, rfl⟩

theorem LogOp.onTarget_entries (op : LogOp) (log : Log) (k : ℕ) :
    (op.onTarget log).entries k = log.entries k ∨
      ∃ o es, op = .writeEntries o es ∧ (op.onTarget log).entries k ∈ es := by
  cases op with
  | writeEntries o es =>
    dsimp only [LogOp.onTarget]
    split_ifs
    · by_cases hk : k - o < es.length
      · rw [getD_eq_getElem _ _ hk]
        exact .inr ⟨o, es, rfl, getElem_mem hk⟩
      · exact .inl (getD_eq_default _ _ (not_lt.mp hk))
    · exact .inl rfl
  | _ => exact .inl rfl

theorem EntryInv.overwritten_exec (h : EntryInv g s) (hij : i ≠ j)
    (hq : (s.srv i).sendQueue j = wr :: rest) (hterm : sidGetTerm (s.srv j).sid = wr.term)
    (hidx : sidGetIdx (s.srv j).sid = i) (p : ℕ) :
    Overwritten s p (execRequest i j ok wr s.srv p) := by
  by_cases hi : p = i
  · subst hi
    rw [execRequest_sender hij]
    obtain ⟨he, hend, ht⟩ :=
      wr.op.onSender_same j (wr.op.onTarget (s.srv j).log) (s.srv p).log
    exact ⟨rfl, ht, .inl ⟨he, hend⟩, fun k w => mem_of_popRequest ok wr⟩
  by_cases hj : p = j
  · subst hj
    rw [execRequest_target hij]
    refine ⟨rfl, wr.op.onTarget_tail _, .inr ⟨fun hp => hij (hidx.symm.trans hp), fun k => ?_⟩,
      fun _ _ => id⟩
    refine (wr.op.onTarget_entries _ k).imp_right ?_
    rintro ⟨o, es, hop, hmem⟩
    rw [hterm]
    exact h.queued i p wr o es (hq ▸ mem_cons_self) hop _ hmem
  · rw [execRequest_of_ne hi hj]
    exact ⟨rfl, rfl, .inl ⟨rfl, rfl⟩, fun _ _ => id⟩

end Exec

theorem overwritten_land (m : Msg) (s : State) (p : ℕ) : Overwritten s p (m.land s.srv p) := by
  rcases m.land_cases s.srv p with he | ⟨_, _, -, he⟩ | ⟨_, _, -, he⟩ | ⟨_, _, _, -, he⟩ |
    ⟨_, _, -, he⟩ | ⟨_, -, he⟩ | ⟨_, _, -, he⟩ <;> rw [he] <;>
    exact ⟨rfl, rfl, .inl ⟨rfl, rfl⟩, fun _ _ => id⟩

/-! ### Moves and runs -/

theorem appended_not_mem_applyCommittedEntries {srv : Server} (j t k : ℕ) (e : Entry) :
    .appended j t k e ∉ (applyCommittedEntries i srv).seen := by
  unfold applyCommittedEntries
  split_ifs <;> simp [Effect.quiet]

theorem Move.entryInv (hr : r.vote) (hlog : r.log) (hinv : SidInv g s) (hv : VoteInv g s)
    (h : EntryInv g s) (hm : Move g r s s') : EntryInv g s' := by
  obtain ⟨-, hg⟩ := hm.sid hinv
  have hnil : ∀ j t k e, .appended j t k e ∉ ([] : List Obs) := fun _ _ _ _ => not_mem_nil
  cases hm with
  | idle hi hidle =>
    refine h.perform hinv hg (h.effect_same hidle.sid ⟨?_, ?_, ?_, ?_⟩ hnil)
    · exact congrArg Log.entries hidle.log
    · exact congrArg Log.endOff hidle.log
    · exact fun x hx => hidle.log ▸ hx
    · exact fun j wr hwr => .inl (hidle.sendQueue ▸ hwr)
  | setPhase _ hi _ _ | request hi _ _ _ =>
    exact h.perform hinv hg (h.effect_same rfl { SameEntries.refl _ with } hnil)
  | resetTail hi =>
    exact h.perform hinv hg (h.effect_same rfl ⟨rfl, rfl, nofun, fun _ _ => .inl⟩ hnil)
  | tell hi hte | ack hi hack => exact h.perform hinv hg (h.effect_same rfl (.refl _) hnil)
  | @start i hi _ ht hta =>
    refine h.perform hinv hg (entryEffect_term ?_ ?_ ?_ (by simp))
    · change _ < sidGetTerm (startSid i (s.srv i).sid)
      rw [startSid_eq (g.idx_lt hi) ht, sidGetTerm_mk (g.idx_lt hi)]
      exact Nat.lt_succ_self _
    · exact ⟨rfl, rfl, fun _ => id, fun _ _ hw => .inl (mem_revoked hw)⟩
    · cases hl : isLeader i (s.srv i)
      · exact h.tail_eq_none hl
      · exact hta hlog hl
  | refresh hi =>
    exact h.perform hinv hg (h.effect_same (sameBallot_grantAccess _).sid (.grantAccess rfl rfl)
      hnil)
  | follow hi _ hl _ hlt hta =>
    refine h.perform hinv hg (entryEffect_term ?_ (.grantAccess rfl rfl) (hta hlog) hnil)
    rwa [Effect.quiet, (sameBallot_grantAccess _).sid]
  | adopt hi _ hgen hle hterm hpos =>
    exact h.perform hinv hg (entryEffect_adopt hinv hv h hi hgen hle hterm (hpos hlog))
  | vote hi _ hl hlt _ =>
    refine h.perform hinv hg (entryEffect_term ?_ ?_
      (h.tail_eq_none (isLeader_eq_false_of_sidGetL hl)) (by simp [giveVote]))
    · obtain ⟨t, hk, hsid, -, hterm⟩ := hinv.better_request hlt
      rw [(sameBallot_giveVote _).sid]
      dsimp only
      rwa [hsid, sidGetTerm_mk (g.idx_lt hk)]
    · refine SameEntries.restore ⟨rfl, rfl, fun _ => id, fun _ _ hw => .inl (mem_revoked hw)⟩
  | bump hi _ hl hlt ht _ hno =>
    refine h.perform hinv hg (entryEffect_term ?_ ?_
      (h.tail_eq_none (isLeader_eq_false_of_sidGetL hl)) (by simp))
    · dsimp only
      rwa [bumpSid_eq (g.idx_lt hi) ht hl, sidGetTerm_mk (g.idx_lt hi)]
    · exact ⟨rfl, rfl, fun _ => id, fun _ _ hw => .inl (mem_revoked hw)⟩
  | countAck _ hi =>
    exact h.perform hinv hg (h.effect_same (sameBallot_voteCountBody _ _ _).sid
      (sameEntries_voteCountBody _ _ _) hnil)
  | win hi _ hidx hl hco =>
    have hpos := hv.entered_pos _ _ (hinv.entered_of_stands hi ⟨hidx, hl⟩)
    exact h.perform hinv hg (h.effect_win hidx hl hpos)
  | single hs _ hle => exact h.perform hinv hg (h.effect_single hinv hs hle)
  | join _ _ hno _ _ => exact absurd hr hno
  | load _ _ hno => exact absurd hr hno
  | append _ _ _ _ hi hld => exact h.append hinv hv hi (hld hlog)
  | apply hi =>
    exact h.perform hinv hg (h.effect_same (sameBallot_applyCommittedEntries _).sid
      (sameEntries_applyCommittedEntries _) appended_not_mem_applyCommittedEntries)
  | openLogs hi =>
    exact h.perform hinv hg (h.effect_same (SameBallot.restore (.refl _)).sid
      (.restore (.refl _)) hnil)
  | replicate hi hf =>
    rcases hf with rfl | rfl | rfl
    · exact h.perform hinv hg (h.effect_same (sameBallot_logAdjustment _ _).sid
        (sameEntries_logAdjustment _ _) hnil)
    · exact h.perform hinv hg (h.effect_same (sameBallot_updateRemoteLog _ _).sid
        (sameEntries_updateRemoteLog _ _) hnil)
    · exact h.perform hinv hg (h.effect_same (sameBallot_updateRemoteCommit _ _).sid
        (sameEntries_updateRemoteCommit _ _) hnil)
  | commit hi =>
    exact h.perform hinv hg (h.effect_same (sameBallot_advanceCommit _).sid
      (sameEntries_advanceCommit _) hnil)
  | complete _ _ _ hi =>
    refine h.perform hinv hg (h.effect_same (sameBallot_handleLrWorkCompletion ?_).sid
      (SameEntries.complete ?_) hnil)
    · exact { SameBallot.refl _ with }
    · exact { SameEntries.refl _ with }
  | exec hi hj hij hq hfe =>
    exact h.environment rfl
      (h.overwritten_exec hij hq (hfe hlog).1 (hfe hlog).2)
  | fail _ hi => exact h.perform hinv hg (h.effect_same rfl (sameEntries_popRequest _ _ _) hnil)
  | deliver hm hterm => exact h.environment rfl (overwritten_land _ s)
  | drop hm => exact h.environment rfl fun _ => ⟨rfl, rfl, .inl ⟨rfl, rfl⟩, fun _ _ => id⟩

theorem entryInv_init (g : Group) : EntryInv g (.init g) where
  led p hl := by
    have hl' : sidGetL sidNull = true := hl
    cases hl'
  tail p x hx := by
    have hx' : none = some x := hx
    cases hx'
  term_le p k := Nat.zero_le _
  standing p hp hst := by
    have hidx : sidGetIdx sidNull = p := hst.1
    have := g.size_le
    simp only [sidGetIdx_eq, sidNull] at hidx
    omega
  made p k := .inl rfl
  queued p j wr o es hwr := absurd hwr not_mem_nil
  author i t k e hm := absurd hm not_mem_nil
  last _ i t k e hm := absurd hm not_mem_nil
  unique _ i i' t k k' e e' hm := absurd hm not_mem_nil
  own _ i hi hle := by
    have hl : sidGetL sidNull = true := (isLeader_iff.mp hle).2
    cases hl

theorem Moves.entryInv (hr : r.vote) (hlog : r.log) (hinv : SidInv g s) (hv : VoteInv g s)
    (h : EntryInv g s) (hm : Moves g r s s') : EntryInv g s' := by
  induction hm with
  | refl => exact h
  | tail hms hm ih =>
    exact hm.entryInv hr hlog (Moves.sid hinv hms).1 (Moves.voteInv hr hinv hv hms) ih

/-- In every step: only a leader appends the requests of its proxy; a LOG operation is executed
only by a server in the sender's term that follows the sender; and no leader verifies its
leadership. -/
def FencedLogs (s : State) : Event → Prop
  | .verifyLeadership .. => False
  | .getTailqMessage i => (s.srv i).queue ≠ [] → isLeader i (s.srv i)
  | .logExec i j _ => ∀ wr ∈ ((s.srv i).sendQueue j).head?,
      sidGetTerm (s.srv j).sid = wr.term ∧ sidGetIdx (s.srv j).sid = i
  | _ => True

def CleanLogs (g : Group) (s : State) (e : Event) : Prop := CleanElections g s e ∧ FencedLogs s e

structure GroupInv (g : Group) (s : State) : Prop where
  sid : SidInv g s
  vote : VoteInv g s
  phases : Phases g s
  entry : EntryInv g s

def logRules : Rules := ⟨True, True⟩

theorem CleanLogs.keeps {e : Event} (h : CleanLogs g s e) (hph : Phases g s)
    (hs : step g s e = some s') : Keeps g r s e := by
  obtain ⟨⟨-, ha⟩, hl⟩ := h
  unfold step at hs
  cases e with
  | restart | getReplicatedVote | pollSmReply | recoverLogOffsets | recoverLogEntries =>
    exact ha.elim
  | verifyLeadership => exact hl.elim
  | deliver m =>
    cases m with
    | voteAck => exact fun _ => ha
    | _ => trivial
  | hbReceive i ackOk =>
    obtain ⟨hi, hg, -⟩ := runBy_eq_some.mp hs
    simp only [isRecovered, Bool.and_eq_true, beq_iff_eq] at hg
    exact fun _ => (hph i).term_pos hg.1
  | pollVoteRequests i ackOk =>
    obtain ⟨hi, hg, -⟩ := runBy_eq_some.mp hs
    simp only [isRecovered, beq_iff_eq] at hg
    exact ⟨fun _ => (hph i).term_pos hg, fun _ => ha⟩
  | getTailqMessage i => exact fun _ => hl
  | logExec i j ok => exact fun _ => hl
  | _ => trivial

theorem CleanLogs.isExcluded {e : Event} (h : CleanLogs g s e) : e.isExcluded = false := by
  obtain ⟨⟨-, ha⟩, hl⟩ := h
  cases e with
  | restart | getReplicatedVote | pollSmReply | recoverLogOffsets | recoverLogEntries =>
    exact ha.elim
  | verifyLeadership => exact hl.elim
  | _ => rfl

theorem groupInv_init (g : Group) : GroupInv g (.init g) :=
  ⟨sidInv_init g, voteInv_init g, phases_init g, entryInv_init g⟩

theorem GroupInv.moves {e : Event} (h : GroupInv g s) (hc : CleanLogs g s e)
    (hs : (group g).step s e = some s') : Moves g logRules s s' :=
  moves_of_step h.sid hc.1.1 (hc.keeps h.phases hs) hs

theorem GroupInv.step {e : Event} (h : GroupInv g s) (hc : CleanLogs g s e)
    (hs : (group g).step s e = some s') : GroupInv g s' := by
  have hm := h.moves hc hs
  exact ⟨(hm.sid h.sid).1, hm.voteInv trivial h.sid h.vote,
    h.phases.step hc.1.1 (hm.sid h.sid).2 hc.isExcluded hs,
    hm.entryInv trivial trivial h.sid h.vote h.entry⟩

theorem groupInv_of_run (h : (group g).Run (CleanLogs g) (.init g) s) : GroupInv g s :=
  h.invariant (groupInv_init g) fun _ _ _ hs hc hst => hs.step hc hst

theorem EntryInv.entry_unique (h : EntryInv g s) (hf : FirstLap g s) {k k' : ℕ}
    (hidx : ((s.srv i).log.entries k).idx = ((s.srv j).log.entries k').idx)
    (hterm : ((s.srv i).log.entries k).term = ((s.srv j).log.entries k').term) :
    (s.srv i).log.entries k = (s.srv j).log.entries k' := by
  have hbl : Entry.blank.idx = 0 := rfl
  rcases h.made i k with hb | ⟨c, m, hm⟩ <;> rcases h.made j k' with hb' | ⟨c', m', hm'⟩
  · rw [hb, hb']
  · have := (h.author _ _ _ _ hm').2.1
    rw [← hidx, hb, hbl] at this
    omega
  · have := (h.author _ _ _ _ hm).2.1
    rw [hidx, hb', hbl] at this
    omega
  · rw [← hterm] at hm'
    exact h.unique hf c c' _ m m' _ _ hm hm' hidx

/-- Until a log starts over, entries with the same index and the same term are the same in all
logs. -/
theorem log_matching (g : Group) {s : State} (h : (group g).Run (CleanLogs g) (.init g) s)
    (hlap : FirstLap g s) (i j k k' : ℕ)
    (hidx : ((s.srv i).log.entries k).idx = ((s.srv j).log.entries k').idx)
    (hterm : ((s.srv i).log.entries k).term = ((s.srv j).log.entries k').term) :
    (s.srv i).log.entries k = (s.srv j).log.entries k' :=
  (groupInv_of_run h).entry.entry_unique hlap hidx hterm

instance (s : State) (e : Event) : Decidable (FencedLogs s e) := by
  rcases e <;> unfold FencedLogs <;> infer_instance

instance (s : State) (e : Event) : Decidable (CleanLogs g s e) :=
  inferInstanceAs (Decidable (_ ∧ _))

instance (s : State) : Decidable (FirstLap g s) := Nat.decidableBallLT ..

def electOne : List Event :=
  [.boot 0, .boot 1, .hbReceive 1 true, .deliver (.voteRequest 1 0 ⟨sidMk 2 false 1, 0, 0⟩),
    .pollVoteRequests 0 true, .deliver (.voteAck 0 1 0 2), .pollVoteCount 1]

/-- Server 1 writes the entry with which it took office into the log of server 0. -/
theorem log_matching_trio : ∃ s, (group trio).Run (CleanLogs trio) (.init trio) s ∧
      FirstLap trio s ∧ ((s.srv 0).log.entries 0).idx = 1 ∧ ((s.srv 0).log.entries 0).term = 2 ∧
      (s.srv 0).log.entries 0 = (s.srv 1).log.entries 0 := by
  obtain ⟨s, hrun, hlap, ⟨hidx, hterm⟩, hidx', hterm'⟩ := System.exists_run_of_exec
    (M := group trio) (s := .init trio) (CleanLogs trio)
    (p := fun s => FirstLap trio s ∧
      (((s.srv 0).log.entries 0).idx = 1 ∧ ((s.srv 0).log.entries 0).term = 2) ∧
      ((s.srv 1).log.entries 0).idx = 1 ∧ ((s.srv 1).log.entries 0).term = 2)
    (electOne ++ [.logAdjustment 1 0, .logExec 1 0 true, .pollCompletion 1 0, .logAdjustment 1 0,
      .updateRemoteLog 1 0, .logExec 1 0 true])
    (by decide +kernel)
  exact ⟨s, hrun, hlap, hidx, hterm, log_matching trio hrun hlap 0 1 0 0 (hidx.trans hidx'.symm)
    (hterm.trans hterm'.symm)⟩

/-- An entry in the memory of a server is the work of the one leader of its term, which had a
majority behind it, and the server has reached that term. -/
theorem entry_from_leader (g : Group) {s : State} (h : (group g).Run (CleanLogs g) (.init g) s)
    (p k : ℕ) {e : Entry} (he : (s.srv p).log.entries k = e) (hne : e ≠ .blank) :
    e.term ≤ sidGetTerm (s.srv p).sid ∧ ∃ i, .elected i e.term ∈ s.trace ∧
      (∃ m, .appended i e.term m e ∈ s.trace) ∧
      (g.size = 1 ∨ Majority g.size (Supports s.trace e.term i)) ∧
      ∀ j, .elected j e.term ∈ s.trace → j = i := by
  subst he
  have hinv := groupInv_of_run h
  obtain ⟨i, m, hm⟩ := (hinv.entry.made p k).resolve_left hne
  have hi := (hinv.entry.author i _ m _ hm).2.2
  exact ⟨hinv.entry.term_le p k, i, hi, ⟨m, hm⟩, hinv.vote.elected i _ hi,
    fun j hj => elected_unique hinv.sid hinv.vote hj hi⟩

/-- The entry with which server 1 took office. -/
theorem entry_from_leader_trio : ∃ s, (group trio).Run (CleanLogs trio) (.init trio) s ∧
    (s.srv 1).log.entries 0 ≠ .blank ∧ ∃ i t, .elected i t ∈ s.trace := by
  obtain ⟨s, hrun, hne⟩ := System.exists_run_of_exec (M := group trio) (s := .init trio)
    (CleanLogs trio) (p := fun s => (s.srv 1).log.entries 0 ≠ .blank) electOne (by decide +kernel)
  obtain ⟨-, i, hi, -⟩ := entry_from_leader trio hrun 1 0 rfl hne
  exact ⟨s, hrun, hne, i, _, hi⟩

/-- Server 0 follows server 1 in term 2 and appends a request of its own proxy all the same. -/
theorem logs_differ_trio : ∃ s, (group trio).Run (CleanElections trio) (.init trio) s ∧
      0 < (s.srv 0).log.endOff ∧ 0 < (s.srv 1).log.endOff ∧
      ((s.srv 0).log.entries 0).idx = ((s.srv 1).log.entries 0).idx ∧
      ((s.srv 0).log.entries 0).term = ((s.srv 1).log.entries 0).term ∧
      ((s.srv 0).log.entries 0).type ≠ ((s.srv 1).log.entries 0).type :=
  System.exists_run_of_exec (M := group trio) (s := .init trio) (CleanElections trio)
    (p := fun s => 0 < (s.srv 0).log.endOff ∧ 0 < (s.srv 1).log.endOff ∧
      ((s.srv 0).log.entries 0).idx = ((s.srv 1).log.entries 0).idx ∧
      ((s.srv 0).log.entries 0).term = ((s.srv 1).log.entries 0).term ∧
      ((s.srv 0).log.entries 0).type ≠ ((s.srv 1).log.entries 0).type)
    (electOne ++ [.submit 0 ⟨7, 3, .csm, [1]⟩, .getTailqMessage 0])
    (by decide +kernel)

end VmFt.Dare
