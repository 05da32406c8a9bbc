import VmFt.Dare.Steps

/-! # SIDs and votes of a server

In every run without restarts the SID of a server never decreases. So a server
votes at most once in a term, and never in a term in which it stood for
election itself. A server that restarts can make another one go back.
-/

namespace VmFt.Dare

variable {g : Group} {s s' : State}

theorem sidInv_init (g : Group) : SidInv g (.init g) := by
  have ht : ∀ o, o ∉ (State.init g).trace := fun _ => List.not_mem_nil
  constructor
  case entered_lt => exact fun p t h => h.elim (absurd · (ht _)) (absurd · (ht _))
  case entered_le => exact fun p t h => h.elim (absurd · (ht _)) (absurd · (ht _))
  case elected_le => exact fun p t h => absurd h (ht _)
  case voted_le => exact fun p t c h => absurd h (ht _)
  case voted_unique => exact fun p t c c' h => absurd h (ht _)
  case voted_entered => exact fun p t c h => absurd h (ht _)
  case genuine =>
    have hl : ¬ sidGetL sidNull := by decide
    exact fun p => (if_neg hl).mpr (.inl rfl)
  case joining => exact fun p => ⟨fun _ => rfl, fun h => by cases h⟩
  case hb => exact fun j p => .inl rfl
  case req => exact fun j p => .inl rfl
  case holds =>
    rintro j w (rfl | ⟨k, rfl⟩ | ⟨k, rfl⟩ | ⟨k, rfl⟩) <;> exact .inl rfl
  case net => exact fun m hm => absurd hm List.not_mem_nil

def Event.isRestart : Event → Bool
  | .restart _ => true
  | _ => false

def NoRestart (g : Group) (s : State) (e : Event) : Prop :=
  e.isRestart = false ∧ TermsBelow g s

instance (s : State) : Decidable (TermsBelow g s) :=
  inferInstanceAs (Decidable (∀ p < g.size, sidGetTerm (s.srv p).sid + 1 < termLimit))

instance (s : State) (e : Event) : Decidable (NoRestart g s e) :=
  inferInstanceAs (Decidable (_ ∧ _))

def noRules : Rules := ⟨False, False⟩

theorem NoRestart.keeps {e : Event} (h : NoRestart g s e) : Keeps g noRules s e := by
  obtain ⟨he, -⟩ := h
  unfold Keeps
  split <;> simp_all [noRules, Event.isRestart]

theorem SidInv.step {e : Event} (h : SidInv g s) (hok : NoRestart g s e)
    (he : (group g).step s e = some s') : SidInv g s' ∧ Grows s s' :=
  (moves_of_step (r := noRules) h hok.2 hok.keeps he).sid h

theorem sidInv_of_run (h : (group g).Run (NoRestart g) (.init g) s) : SidInv g s :=
  h.invariant (sidInv_init g) fun _ _ _ hs hok he => (hs.step hok he).1

theorem sid_le_of_run (hs : SidInv g s) (h : (group g).Run (NoRestart g) s s') (i : ℕ) :
    (s.srv i).sid ≤ (s'.srv i).sid :=
  h.relates (R := fun a b => (a.srv i).sid ≤ (b.srv i).sid) hs (fun _ => le_rfl)
    (fun _ _ _ => le_trans) (fun _ _ _ hs hok he => (hs.step hok he).1)
    fun _ _ _ hs hok he => (hs.step hok he).2.sid i

/-- The SID of a server never decreases. A server votes for one candidate a term at most, and
for nobody in a term in which it started an election. -/
theorem sid_le_and_vote_unique (g : Group) {s s' : State} (i : ℕ)
    (h : (group g).Run (NoRestart g) (.init g) s) (h' : (group g).Run (NoRestart g) s s') :
    (s.srv i).sid ≤ (s'.srv i).sid ∧
    (∀ t c c', .voted i t c ∈ s'.trace → .voted i t c' ∈ s'.trace → c = c') ∧
    ∀ t c, .voted i t c ∈ s'.trace → .started i t ∉ s'.trace := by
  have hinv := sidInv_of_run (h.trans h')
  refine ⟨sid_le_of_run (sidInv_of_run h) h' i, hinv.voted_unique i, fun t c hv hst => ?_⟩
  exact hinv.voted_entered i t c hv (.inl hst)

/-- Server 1 asks for votes in term 2, and server 0 gives it its vote. -/
theorem sid_le_and_vote_unique_trio :
    ∃ s, (group trio).Run (NoRestart trio) (.init trio) s ∧ .voted 0 2 1 ∈ s.trace ∧
      (s.srv 0).sid = sidMk 2 false 1 ∧ ∀ c, .voted 0 2 c ∈ s.trace → c = 1 := by
  obtain ⟨s, hrun, hvote, hsid⟩ := System.exists_run_of_exec (M := group trio) (s := .init trio)
    (NoRestart trio) (p := fun s => .voted 0 2 1 ∈ s.trace ∧ (s.srv 0).sid = sidMk 2 false 1)
    [.boot 0, .boot 1, .hbReceive 1 true,
      .deliver (.voteRequest 1 0 ⟨sidMk 2 false 1, 0, 0⟩), .pollVoteRequests 0 true]
    (by decide +kernel)
  obtain ⟨-, hunique, -⟩ := sid_le_and_vote_unique trio 0 .refl hrun
  exact ⟨s, hrun, hvote, hsid, fun c hc => hunique 2 c 1 hc hvote⟩

/-- Server `i` does not restart; the others may. -/
def NotRestarted (g : Group) (i : ℕ) (s : State) (e : Event) : Prop :=
  e ≠ .restart i ∧ TermsBelow g s

instance (i : ℕ) (s : State) (e : Event) : Decidable (NotRestarted g i s e) :=
  inferInstanceAs (Decidable (_ ∧ _))

/-- Server 2 votes for server 3 in term 4. But server 3 has restarted and has voted for server 0 in
this term, which its reply to a heartbeat of server 2 tells. -/
theorem sid_decreases_quintet : ∃ s s',
    (group quintet).Run (NotRestarted quintet 2) (.init quintet) s ∧
    (group quintet).step s (.pollVoteRequests 2 true) = some s' ∧ (s'.srv 2).sid < (s.srv 2).sid :=
  System.exists_step_of_exec (M := group quintet) (NotRestarted quintet 2)
    (p := fun s s' => (s'.srv 2).sid < (s.srv 2).sid)
    [.boot 0, .boot 1, .boot 2, .boot 3, .boot 4, .hbReceive 2 true,
      .deliver (.voteRequest 2 0 ⟨sidMk 2 false 2, 0, 0⟩), .pollVoteRequests 0 true,
      .deliver (.voteAck 0 2 0 2), .deliver (.voteRequest 2 1 ⟨sidMk 2 false 2, 0, 0⟩),
      .pollVoteRequests 1 true, .deliver (.voteAck 1 2 0 2), .pollVoteCount 2,
      -- The request of server 3 for term 4 is there before it restarts.
      .hbReceive 3 true, .hbReceive 3 true, .submit 3 ⟨1, 1, .csm, []⟩, .getTailqMessage 3,
      .hbReceive 3 true, .deliver (.voteRequest 3 2 ⟨sidMk 4 false 3, 1, 3⟩), .restart 3, .boot 3,
      .hbSend 2 true, .hbReceive 4 true, .hbReceive 4 true,
      .deliver (.heartbeat 2 4 (sidMk 2 true 2)), .hbReceive 4 true, .hbReceive 0 true,
      .hbReceive 0 true, .deliver (.voteRequest 0 3 ⟨sidMk 4 false 0, 0, 0⟩),
      .deliver (.voteRequest 4 3 ⟨sidMk 2 false 4, 0, 0⟩), .pollVoteRequests 3 true,
      .deliver (.heartbeat 2 3 (sidMk 2 true 2)), .hbReceive 3 true,
      -- Server 2 gives up its office and votes.
      .deliver (.heartbeat 4 2 (sidMk 3 false 4)), .hbSend 2 true, .hbReceive 2 true,
      .pollVoteRequests 2 true, .deliver (.heartbeat 3 2 (sidMk 4 false 0))]
    (.pollVoteRequests 2 true) (by decide +kernel)

/-- Whoever a server takes for a leader was elected: the SID may be its own, one in its heartbeat
array, or one it has from a vote or a state-machine reply. -/
theorem elected_of_sid (g : Group) {s : State} (h : (group g).Run (NoRestart g) (.init g) s)
    (i j w : ℕ) (hw : w = (s.srv i).sid ∨ w = (s.srv i).hb j ∨ Holds (s.srv i) w)
    (hl : sidGetL w = true) (ht : 0 < sidGetTerm w) :
    .elected (sidGetIdx w) (sidGetTerm w) ∈ s.trace := by
  have hinv := sidInv_of_run h
  have hg : w = 0 ∨ Genuine s.trace w := by
    rcases hw with rfl | rfl | hw
    · exact .inr (hinv.genuine i)
    · exact (hinv.hb i j).imp_right fun hok => hok.2.1
    · exact (hinv.holds i w hw).imp_right And.left
  rcases hg with rfl | hg
  · exact absurd hl (by decide)
  · unfold Genuine at hg
    rw [if_pos hl] at hg
    exact hg.resolve_right ht.ne'

/-- Server 0 has a heartbeat of server 1 in its array. -/
theorem elected_of_sid_trio : ∃ s, (group trio).Run (NoRestart trio) (.init trio) s ∧
    (s.srv 0).hb 1 = sidMk 2 true 1 ∧ .elected 1 2 ∈ s.trace := by
  obtain ⟨s, hrun, hhb⟩ := System.exists_run_of_exec (M := group trio) (s := .init trio)
    (NoRestart trio) (p := fun s => (s.srv 0).hb 1 = sidMk 2 true 1)
    [.boot 0, .boot 1, .hbReceive 1 true, .deliver (.voteRequest 1 0 ⟨sidMk 2 false 1, 0, 0⟩),
      .pollVoteRequests 0 true, .deliver (.voteAck 0 1 0 2), .pollVoteCount 1, .hbSend 1 true,
      .deliver (.heartbeat 1 0 (sidMk 2 true 1))]
    (by decide +kernel)
  exact ⟨s, hrun, hhb, elected_of_sid trio hrun 0 1 _ (.inr (.inl hhb.symm)) rfl (by decide)⟩

end VmFt.Dare
