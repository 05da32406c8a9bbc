import Mathlib.Data.Finset.Card
import Mathlib.Data.Finset.Range
import VmFt.Dare.Terms

/-! # Votes of a server that restarts

A server that has lost its memory reads its last vote back from a majority of
the others. The vote is found if enough of them hold it and the completions
polled together have the same status.
-/

namespace VmFt.Dare

open List Function Option

variable {g : Group} {s s' : State} {i j k p t c : ℕ}

/-! ### Waiting for a majority -/

def UniformStatus (batches : List (List Wc)) : Prop :=
  ∀ b ∈ batches, ∀ wc ∈ b, wc.ok = b.head?.any (·.ok)

instance (batches : List (List Wc)) : Decidable (UniformStatus batches) :=
  inferInstanceAs (Decidable (∀ b ∈ batches, ∀ wc ∈ b, _))

def currentConns (wcs : List Wc) : List ℕ := (wcs.filter (·.current)).map (·.conn)

/-- Waiting with the completions `rest` to come: connections that completed were successful,
and no more than these are counted. -/
structure WaitOk (size i : ℕ) (landed : List ℕ) (rest : List Wc) (st : WaitState) : Prop where
  fresh : ∀ k ∈ currentConns rest, st.posted k = postedReads i k
  done : ∀ k, st.posted k = 0 → k ≠ i ∧ k ∈ landed
  count : st.successCount ≤ ((Finset.range size).filter fun k => st.posted k = 0).card

theorem currentConns_cons_of_current {wc : Wc} (h : wc.current) (rest : List Wc) :
    currentConns (wc :: rest) = wc.conn :: currentConns rest := by
  simp [currentConns, h]

theorem mem_currentConns_cons {wc : Wc} {rest : List Wc} (h : k ∈ currentConns rest) :
    k ∈ currentConns (wc :: rest) := by
  obtain ⟨wc', hwc', rfl⟩ := List.mem_map.mp h
  obtain ⟨hmem, hcur⟩ := mem_filter.mp hwc'
  exact List.mem_map.mpr ⟨wc', mem_filter.mpr ⟨mem_cons_of_mem _ hmem, hcur⟩, rfl⟩

variable {size : ℕ} {landed : List ℕ} {st : WaitState}

theorem card_completed_le {posted : ℕ → ℤ} {v : ℤ} (hk : posted k ≠ 0) :
    ((Finset.range size).filter fun n => posted n = 0).card ≤
      ((Finset.range size).filter fun n => Function.update posted k v n = 0).card := by
  refine Finset.card_le_card fun n hn => ?_
  obtain ⟨hn, h0⟩ := Finset.mem_filter.mp hn
  have hne : n ≠ k := by
    rintro rfl
    exact hk h0
  exact Finset.mem_filter.mpr ⟨hn, by rw [update_of_ne hne, h0]⟩

theorem card_completed_lt {posted : ℕ → ℤ} (hlt : k < size) (hk : posted k ≠ 0) :
    ((Finset.range size).filter fun n => posted n = 0).card <
      ((Finset.range size).filter fun n => Function.update posted k 0 n = 0).card := by
  refine Finset.card_lt_card ((Finset.ssubset_iff_of_subset fun n hn => ?_).mpr ⟨k, ?_, ?_⟩)
  · obtain ⟨hn, h0⟩ := Finset.mem_filter.mp hn
    have hne : n ≠ k := by
      rintro rfl
      exact hk h0
    exact Finset.mem_filter.mpr ⟨hn, by rw [update_of_ne hne, h0]⟩
  · exact Finset.mem_filter.mpr ⟨Finset.mem_range.mpr hlt, update_self ..⟩
  · exact fun hmem => hk (Finset.mem_filter.mp hmem).2

theorem WaitOk.set {rest : List Wc} {v : ℤ} {n m : ℕ} (h : WaitOk size i landed rest st)
    (hnot : k ∉ currentConns rest) (hv : v = 0 → k ≠ i ∧ k ∈ landed)
    (hc : m ≤ ((Finset.range size).filter fun a => Function.update st.posted k v a = 0).card) :
    WaitOk size i landed rest ⟨Function.update st.posted k v, n, m⟩ where
  fresh a ha :=
    (update_of_ne (ne_of_mem_of_not_mem ha hnot) ..).trans (h.fresh a ha)
  done a ha := by
    dsimp only at ha
    by_cases hak : a = k
    · subst hak
      rw [update_self] at ha
      exact hv ha
    · rw [update_of_ne hak] at ha
      exact h.done a ha
  count := hc

theorem WaitOk.body {rest : List Wc} {wc : Wc} {firstOk : Bool}
    (h : WaitOk size i landed (wc :: rest) st) (hnd : (currentConns (wc :: rest)).Nodup)
    (hl : wc.current → firstOk → wc.conn ∈ landed) :
    WaitOk size i landed rest (waitBody size firstOk st wc) := by
  have hs : WaitOk size i landed rest st :=
    ⟨fun k hk => h.fresh k (mem_currentConns_cons hk), h.done, h.count⟩
  unfold waitBody
  by_cases hcur : wc.current
  · by_cases hok : firstOk
    · have hf := h.fresh wc.conn (by rw [currentConns_cons_of_current hcur]; simp)
      rw [currentConns_cons_of_current hcur, nodup_cons] at hnd
      have hpos : st.posted wc.conn ≠ 0 := by
        rw [hf, postedReads]
        split_ifs <;> decide
      simp only [hcur, hok, Bool.and_self, if_true]
      refine hs.set hnd.1 (fun h0 => ?_) ?_
      · refine ⟨fun heq => ?_, hl hcur hok⟩
        rw [hf, postedReads, if_pos heq] at h0
        omega
      · split_ifs with hd
        · rw [hd.1]
          exact (Nat.succ_le_succ h.count).trans (card_completed_lt hd.2 hpos)
        · exact h.count.trans (card_completed_le hpos)
    · simp only [hcur, hok, Bool.false_and, if_true, if_false, Bool.false_eq_true]
      exact { hs with }
  · simp only [hcur, Bool.and_false, if_false, Bool.false_eq_true]
    exact hs

theorem WaitOk.batch {rest : List Wc} {b : List Wc} {firstOk : Bool}
    (h : WaitOk size i landed (b ++ rest) st) (hnd : (currentConns (b ++ rest)).Nodup)
    (hl : ∀ wc ∈ b, wc.current → firstOk → wc.conn ∈ landed) :
    WaitOk size i landed rest (b.foldl (waitBody size firstOk) st) := by
  induction b generalizing st with
  | nil => exact h
  | cons wc b ih =>
    refine ih (h.body hnd (hl wc mem_cons_self)) (List.Nodup.sublist ?_ hnd)
      fun wc' hwc' => hl wc' (mem_cons_of_mem _ hwc')
    exact ((sublist_cons_self _ _).filter _).map _

theorem WaitOk.loop {batches : List (List Wc)} {st' : WaitState}
    (h : WaitOk size i landed batches.flatten st) (hnd : (currentConns batches.flatten).Nodup)
    (hla : ∀ b ∈ batches, ∀ wc ∈ b, wc.current → b.head?.any (·.ok) → wc.conn ∈ landed)
    (hl : waitLoop size st batches = some st') : ∃ rest, WaitOk size i landed rest st' := by
  induction batches generalizing st with
  | nil =>
    unfold waitLoop at hl
    split_ifs at hl
    exact ⟨_, Option.some.inj hl ▸ h⟩
  | cons b bs ih =>
    unfold waitLoop at hl
    rw [flatten_cons] at h hnd
    split_ifs at hl
    · refine ih (h.batch hnd (hla b mem_cons_self)) (List.Nodup.sublist ?_ hnd)
        (fun b' hb' => hla b' (mem_cons_of_mem _ hb')) hl
      exact ((sublist_append_right _ _).filter _).map _
    · exact ⟨_, Option.some.inj hl ▸ h⟩

theorem waitForMajority_success {batches : List (List Wc)} {posted : ℕ → ℤ}
    (hnd : (currentConns batches.flatten).Nodup)
    (hla : ∀ b ∈ batches, ∀ wc ∈ b, wc.current → b.head?.any (·.ok) → wc.conn ∈ landed)
    (h : waitForMajority size (postedReads i) batches = some (.success, posted)) :
    size / 2 < ((Finset.range size).filter fun k => posted k = 0).card ∧
      ∀ k, posted k = 0 → k ≠ i ∧ k ∈ landed := by
  obtain ⟨st, hl, heq⟩ := map_eq_some_iff.mp h
  have hz : ∀ k, postedReads i k ≠ 0 := by
    intro k
    rw [postedReads]
    split_ifs <;> decide
  have hn : ((range size).filter fun k => postedReads i k = 0).length = 0 := by
    simp [hz]
  have hs : ∀ n, WaitOk size i landed batches.flatten ⟨postedReads i, n, 0⟩ :=
    fun n => ⟨fun _ _ => rfl, fun k hk => absurd hk (hz k), Nat.zero_le _⟩
  rw [hn] at hl
  obtain ⟨rest, hst⟩ := (hs _).loop hnd hla hl
  obtain ⟨hrc, rfl⟩ := Prod.mk.inj heq
  refine ⟨?_, hst.done⟩
  split_ifs at hrc with hmaj
  exact hmaj.trans_le hst.count

/-! ### Reading the vote back -/

/-- The other servers that hold a vote of server `i` not below `[t|0|c]`. -/
def holders (g : Group) (s : State) (i t c : ℕ) : Finset ℕ :=
  (Finset.range g.size).filter fun k => k ≠ i ∧ sidMk t false c ≤ (s.srv k).voteSid i

def VoteHeld (g : Group) (s : State) (i : ℕ) : Obs → Prop
  | .voted p t c => p = i → g.size / 2 ≤ (holders g s i t c).card
  | _ => True

/-- Every vote that server `i` has ever given is held by enough others. -/
def Remembered (g : Group) (s : State) (i : ℕ) : Prop := ∀ o ∈ s.trace, VoteHeld g s i o

variable {srv : Server} {posted : ℕ → ℤ}

theorem le_foldl_takeVoteBody (ks : List ℕ) (srv : Server) :
    srv.sid ≤ (ks.foldl (takeVoteBody posted) srv).sid := by
  induction ks generalizing srv with
  | nil => exact le_rfl
  | cons k ks ih =>
    refine le_trans ?_ (ih (takeVoteBody posted srv k))
    unfold takeVoteBody
    split_ifs
    · exact le_max_left ..
    · exact le_rfl

theorem rsid_le_foldl_takeVoteBody {ks : List ℕ} (srv : Server) (hk : k ∈ ks) (hp : posted k = 0) :
    srv.rsid k ≤ (ks.foldl (takeVoteBody posted) srv).sid := by
  induction ks generalizing srv with
  | nil => exact absurd hk not_mem_nil
  | cons a ks ih =>
    by_cases hak : a = k
    · subst hak
      refine le_trans ?_ (le_foldl_takeVoteBody ks (takeVoteBody posted srv a))
      rw [takeVoteBody, if_pos hp]
      exact le_max_right ..
    · have hrest := (mem_cons.mp hk).resolve_left (Ne.symm hak)
      have hs : (takeVoteBody posted srv a).rsid k = srv.rsid k := by
        unfold takeVoteBody
        split_ifs
        · exact update_of_ne (Ne.symm hak) ..
        · rfl
      exact hs ▸ ih (takeVoteBody posted srv a) hrest

theorem exists_holder (hi : i < g.size) (hh : g.size / 2 ≤ (holders g s i t c).card)
    (hmaj : g.size / 2 < ((Finset.range g.size).filter fun k => posted k = 0).card)
    (hp : ∀ k, posted k = 0 → k ≠ i ∧ k ∈ landed) :
    ∃ k < g.size, posted k = 0 ∧ k ∈ landed ∧ sidMk t false c ≤ (s.srv k).voteSid i := by
  have hsub : holders g s i t c ⊆ (Finset.range g.size).erase i := by
    intro k hk
    obtain ⟨hk, hne, -⟩ := Finset.mem_filter.mp hk
    exact Finset.mem_erase.mpr ⟨hne, hk⟩
  have hsub' : ((Finset.range g.size).filter fun k => posted k = 0) ⊆
      (Finset.range g.size).erase i := by
    intro k hk
    obtain ⟨hk, h0⟩ := Finset.mem_filter.mp hk
    exact Finset.mem_erase.mpr ⟨(hp k h0).1, hk⟩
  have hc : ((Finset.range g.size).erase i).card = g.size - 1 := by
    rw [Finset.card_erase_of_mem (Finset.mem_range.mpr hi), Finset.card_range]
  obtain ⟨k, hk⟩ := Finset.inter_nonempty_of_card_lt_card_add_card hsub hsub' (by omega)
  obtain ⟨hk, hk'⟩ := Finset.mem_inter.mp hk
  obtain ⟨hr, -, hle⟩ := Finset.mem_filter.mp hk
  obtain ⟨-, h0⟩ := Finset.mem_filter.mp hk'
  exact ⟨k, Finset.mem_range.mp hr, h0, (hp k h0).2, hle⟩

theorem foldl_takeVoteBody_spec (posted : ℕ → ℤ) (ks : List ℕ) (srv : Server) :
    (ks.foldl (takeVoteBody posted) srv).voteReq = srv.voteReq ∧
      ∀ w, Knows (ks.foldl (takeVoteBody posted) srv) w → Knows srv w ∨ w = 0 := by
  induction ks generalizing srv with
  | nil => exact ⟨rfl, fun _ => .inl⟩
  | cons k ks ih =>
    obtain ⟨hreq, hk⟩ := ih (takeVoteBody posted srv k)
    have hb : (takeVoteBody posted srv k).voteReq = srv.voteReq ∧
        ∀ w, Knows (takeVoteBody posted srv k) w → Knows srv w ∨ w = 0 := by
      unfold takeVoteBody
      split_ifs
      · refine ⟨rfl, ?_⟩
        rintro w ((hw | hw | ⟨a, rfl⟩ | hw) | hw)
        · exact .inl (.inl (.inl hw))
        · exact .inl (.inl (.inr (.inl hw)))
        · exact update_cases (P := fun _ v => Knows srv v ∨ v = 0)
            (fun a => .inl (.inl (.inr (.inr (.inl ⟨a, rfl⟩))))) (.inr rfl) a
        · exact .inl (.inl (.inr (.inr (.inr hw))))
        · exact .inl (.inr hw)
      · exact ⟨rfl, fun _ => .inl⟩
    exact ⟨hreq.trans hb.1, fun w hw => (hk w hw).elim (hb.2 w) .inr⟩

theorem vote_le_getReplicatedVoteCb {batches : List (List Wc)} (hi : i < g.size)
    (htwo : g.size ≠ 2) (hrem : Remembered g s i) (hu : UniformStatus batches)
    (hl : completionsLanded g landed batches)
    (h : getReplicatedVoteCb g i (fun k => (s.srv k).voteSid i) landed batches (s.srv i) =
      some srv) (hr : srv.phase = .voteRead) (hv : .voted i t c ∈ s.trace) :
    sidMk t false c ≤ srv.sid := by
  simp only [completionsLanded, Bool.and_eq_true, List.all_eq_true, decide_eq_true_eq,
    Bool.or_eq_true, Bool.not_eq_true'] at hl
  obtain ⟨⟨-, hl⟩, hnd⟩ := hl
  unfold getReplicatedVoteCb rcGetReplicatedVote at h
  dsimp only at h
  rw [if_neg htwo] at h
  obtain ⟨⟨rc, srv'⟩, hres, rfl⟩ := map_eq_some_iff.mp h
  obtain ⟨⟨rc', posted⟩, hw, hres⟩ := map_eq_some_iff.mp hres
  cases rc' with
  | insuccess =>
    obtain ⟨rfl, rfl⟩ := Prod.mk.inj hres
    cases hr
  | success =>
    obtain ⟨rfl, rfl⟩ := Prod.mk.inj hres
    have hok : ∀ b ∈ batches, ∀ wc ∈ b, wc.current → b.head?.any (·.ok) → wc.conn ∈ landed := by
      intro b hb wc hwc hcur hok
      refine (hl b hb wc hwc).resolve_left fun hbad => ?_
      rw [hcur, hu b hb wc hwc, hok] at hbad
      cases hbad
    obtain ⟨hmaj, hp⟩ := waitForMajority_success hnd hok hw
    obtain ⟨k, hk, h0, hmem, hle⟩ := exists_holder hi (hrem _ hv rfl) hmaj hp
    have hr := rsid_le_foldl_takeVoteBody { s.srv i with
      sid := joinSid i (s.srv i).sid,
      rsid := fun k => if k ∈ landed then (s.srv k).voteSid i else (s.srv i).rsid k }
      (mem_range.mpr hk) h0
    dsimp only at hr
    rw [if_pos hmem] at hr
    exact hle.trans hr

/-! ### The invariant across restarts -/

/-- A SID that leaves room for another term unless a server has it now. -/
def Within (g : Group) (s : State) (w : ℕ) : Prop :=
  Low w ∨ ∃ p < g.size, sidGetTerm w ≤ sidGetTerm (s.srv p).sid

structure RestartInv (g : Group) (s : State) : Prop where
  reqs : ∀ j k, Candidacy ((s.srv j).voteReq k)
  netReqs : ∀ j k req, .voteRequest j k req ∈ s.net → Candidacy req
  known : ∀ p w, Knows (s.srv p) w → Within g s w
  net : ∀ m ∈ s.net, ∀ w, m.Carries w → Within g s w
  unique : ∀ p t c c', .voted p t c ∈ s.trace → .voted p t c' ∈ s.trace → c = c'
  le : ∀ p, HasJoined (s.srv p) → ∀ t c, .voted p t c ∈ s.trace → t ≤ sidGetTerm (s.srv p).sid
  fresh : ∀ p, ¬ HasJoined (s.srv p) → .restarted p ∉ s.trace → ∀ t c, .voted p t c ∉ s.trace

theorem Within.low {w : ℕ} (h : Within g s w) (hterm : TermsBelow g s) : Low w := by
  rcases h with h | ⟨p, hp, hle⟩
  · exact h
  · exact (Nat.succ_le_succ hle).trans_lt (hterm p hp)

structure RestartEffect (s : State) (i : ℕ) (eff : Effect) : Prop where
  reqs : ∀ k, Candidacy (eff.srv.voteReq k)
  sentReqs : ∀ j k req, .voteRequest j k req ∈ eff.sent → Candidacy req
  known : ∀ w, Knows eff.srv w → Low w ∨ sidGetTerm w ≤ sidGetTerm eff.srv.sid
  sent : ∀ m ∈ eff.sent, ∀ w, m.Carries w → sidGetTerm w ≤ sidGetTerm eff.srv.sid
  own : ∀ p t c, .voted p t c ∈ eff.seen → p = i
  unique : ∀ t c c', .voted i t c ∈ s.trace ++ eff.seen → .voted i t c' ∈ s.trace ++ eff.seen →
    c = c'
  le : HasJoined eff.srv → ∀ t c, .voted i t c ∈ s.trace ++ eff.seen →
    t ≤ sidGetTerm eff.srv.sid
  fresh : ¬ HasJoined eff.srv → .restarted i ∉ s.trace ++ eff.seen →
    ∀ t c, .voted i t c ∉ s.trace ++ eff.seen

theorem RestartInv.perform {eff : Effect} (h : RestartInv g s) (hterm : TermsBelow g s)
    (hi : i < g.size) (he : RestartEffect s i eff) : RestartInv g (s.perform i eff) := by
  have hnew : ∀ w, sidGetTerm w ≤ sidGetTerm eff.srv.sid → Within g (s.perform i eff) w :=
    fun w hw => .inr ⟨i, hi, by rwa [State.perform_srv_self]⟩
  constructor
  case reqs =>
    intro j k
    rw [State.perform_srv]
    split_ifs with hj
    · subst hj
      exact he.reqs k
    · exact h.reqs j k
  case netReqs =>
    exact fun j k req hm => (mem_append.mp hm).elim (h.netReqs j k req) (he.sentReqs j k req)
  case known =>
    intro p w hw
    by_cases hp : p = i
    · subst hp
      rw [State.perform_srv_self] at hw
      exact (he.known w hw).elim .inl (hnew w)
    · rw [State.perform_srv_of_ne _ _ _ hp] at hw
      exact .inl ((h.known p w hw).low hterm)
  case net =>
    intro m hm w hw
    rcases mem_append.mp hm with hm | hm
    · exact .inl ((h.net m hm w hw).low hterm)
    · exact hnew w (he.sent m hm w hw)
  case unique =>
    intro p t c c' hc hc'
    by_cases hp : p = i
    · subst hp
      exact he.unique t c c' hc hc'
    · have hold : ∀ c, .voted p t c ∈ (s.perform i eff).trace → .voted p t c ∈ s.trace :=
        fun c hc => (mem_append.mp hc).resolve_right fun hs => hp (he.own p t c hs)
      exact h.unique p t c c' (hold c hc) (hold c' hc')
  case le =>
    intro p hjo t c hc
    by_cases hp : p = i
    · subst hp
      rw [State.perform_srv_self] at hjo ⊢
      exact he.le hjo t c hc
    · rw [State.perform_srv_of_ne _ _ _ hp] at hjo ⊢
      exact h.le p hjo t c
        ((mem_append.mp hc).resolve_right fun hs => hp (he.own p t c hs))
  case fresh =>
    intro p hjo hres t c hc
    by_cases hp : p = i
    · subst hp
      rw [State.perform_srv_self] at hjo
      exact he.fresh hjo hres t c hc
    · rw [State.perform_srv_of_ne _ _ _ hp] at hjo
      exact h.fresh p hjo (fun hr => hres (mem_append_left _ hr)) t c
        ((mem_append.mp hc).resolve_right fun hs => hp (he.own p t c hs))

theorem RestartInv.joined {eff : Effect} (h : RestartInv g s) (hterm : TermsBelow g s)
    (hj : HasJoined (s.srv i)) (he : TermEffect i (s.srv i) eff) : RestartEffect s i eff where
  reqs := he.reqs (h.reqs i)
  sentReqs := he.sentReqs
  known w hw := (he.known w hw).imp_left fun hw => (h.known i w hw).low hterm
  sent := he.sent
  own p t c hm := (he.vote p t c hm).1
  unique t c c' hc hc' := by
    rcases mem_append.mp hc with hc | hc <;> rcases mem_append.mp hc' with hc' | hc'
    · exact h.unique i t c c' hc hc'
    · exact absurd (h.le i hj t c hc) (not_le.mpr (he.vote i t c' hc').2.1)
    · exact absurd (h.le i hj t c' hc') (not_le.mpr (he.vote i t c hc).2.1)
    · exact he.once i t c c' hc hc'
  le _ t c hc := by
    rcases mem_append.mp hc with hc | hc
    · exact (h.le i hj t c hc).trans he.le
    · exact (he.vote i t c hc).2.2
  fresh hno := absurd (he.joined.mpr hj) hno

theorem RestartInv.voteless {eff : Effect} (h : RestartInv g s) (hterm : TermsBelow g s)
    (he : TermEffect i (s.srv i) eff) (hn : ∀ p t c, .voted p t c ∉ eff.seen) :
    RestartEffect s i eff where
  reqs := he.reqs (h.reqs i)
  sentReqs := he.sentReqs
  known w hw := (he.known w hw).imp_left fun hw => (h.known i w hw).low hterm
  sent := he.sent
  own p t c hm := absurd hm (hn p t c)
  unique t c c' hc hc' := by
    simp only [mem_append, hn, or_false] at hc hc'
    exact h.unique i t c c' hc hc'
  le hj t c hc := by
    simp only [mem_append, hn, or_false] at hc
    exact (h.le i (he.joined.mp hj) t c hc).trans he.le
  fresh hno hres t c hc := by
    simp only [mem_append, hn, or_false] at hc
    exact h.fresh i (fun hj => hno (he.joined.mpr hj))
      (fun hr => hres (mem_append_left _ hr)) t c hc

theorem RestartInv.setPhase (ph : Phase) (h : RestartInv g s) (hterm : TermsBelow g s)
    (hi : i < g.size) (hph : ph ≠ .starting ∧ ph ≠ .joining)
    (hor : HasJoined (s.srv i) ∨ .restarted i ∉ s.trace) :
    RestartInv g (s.perform i (.quiet { s.srv i with phase := ph })) := by
  refine h.perform hterm hi ?_
  constructor
  case reqs => exact h.reqs i
  case sentReqs => simp [Effect.quiet]
  case known => exact fun w hw => .inl ((h.known i w hw).low hterm)
  case sent => simp [Effect.quiet]
  case own => simp [Effect.quiet]
  case unique => simpa [Effect.quiet] using h.unique i
  case le =>
    intro _ t c hc
    simp only [Effect.quiet, List.append_nil] at hc
    by_cases hj : HasJoined (s.srv i)
    · exact h.le i hj t c hc
    · exact absurd hc (h.fresh i hj (hor.resolve_left hj) t c)
  case fresh => exact fun hno => absurd hph hno

theorem RestartInv.environment (h : RestartInv g s) (htr : s'.trace = s.trace)
    (hsid : ∀ p, (s'.srv p).sid = (s.srv p).sid)
    (hp : ∀ p, (s'.srv p).phase = (s.srv p).phase) (hnet : ∀ m ∈ s'.net, m ∈ s.net)
    (hr : ∀ j k, Candidacy ((s'.srv j).voteReq k))
    (hk : ∀ p w, Knows (s'.srv p) w → Knows (s.srv p) w ∨ ∃ m ∈ s.net, m.Carries w) :
    RestartInv g s' := by
  have hwi : ∀ w, Within g s w → Within g s' w := fun w hw => by
    simpa only [Within, hsid] using hw
  constructor
  case reqs => exact hr
  case netReqs => exact fun j k req hm => h.netReqs j k req (hnet _ hm)
  case known =>
    intro p w hw
    rcases hk p w hw with hw | ⟨m, hm, hw⟩
    · exact hwi w (h.known p w hw)
    · exact hwi w (h.net m hm w hw)
  case net => exact fun m hm w hw => hwi w (h.net m (hnet m hm) w hw)
  case unique => exact htr ▸ h.unique
  case le =>
    intro p hj t c hc
    rw [htr] at hc
    rw [hsid]
    exact h.le p (by simpa only [HasJoined, hp] using hj) t c hc
  case fresh =>
    intro p hno hres t c hc
    rw [htr] at hc hres
    exact h.fresh p (by simpa only [HasJoined, hp] using hno) hres t c hc

theorem knows_land {m : Msg} {srv : ℕ → Server} {w : ℕ} (hw : Knows (m.land srv p) w) :
    Knows (srv p) w ∨ m.Carries w := by
  rcases m.land_cases srv p with he | ⟨q, v, rfl, he⟩ | ⟨q, req, rfl, he⟩ | ⟨_, _, _, -, he⟩ |
    ⟨q, v, rfl, he⟩ | ⟨_, -, he⟩ | ⟨q, v, rfl, he⟩ <;> rw [he] at hw
  case inr.inl =>
    rcases hw with hw | ⟨k, rfl⟩ | hw
    · exact .inl (.inl hw)
    · exact update_cases (P := fun _ v' => Knows (srv p) v' ∨ v' = v)
        (fun k => .inl (.inr (.inl ⟨k, rfl⟩))) (.inr rfl) k
    · exact .inl (.inr (.inr hw))
  case inr.inr.inl =>
    rcases hw with hw | hw | ⟨k, rfl⟩
    · exact .inl (.inl hw)
    · exact .inl (.inr (.inl hw))
    · exact update_cases (P := fun _ (r : VoteReq) => Knows (srv p) r.sid ∨ r.sid = req.sid)
        (fun k => .inl (.inr (.inr ⟨k, rfl⟩))) (.inr rfl) k
  case inr.inr.inr.inr.inl =>
    rcases hw with (hw | hw | hw | ⟨k, rfl⟩) | hw
    · exact .inl (.inl (.inl hw))
    · exact .inl (.inl (.inr (.inl hw)))
    · exact .inl (.inl (.inr (.inr (.inl hw))))
    · exact update_cases (P := fun _ v' => Knows (srv p) v' ∨ v' = v)
        (fun k => .inl (.inl (.inr (.inr (.inr ⟨k, rfl⟩))))) (.inr rfl) k
    · exact .inl (.inr hw)
  case inr.inr.inr.inr.inr.inr =>
    rcases hw with (hw | ⟨k, rfl⟩ | hw | hw) | hw
    · exact .inl (.inl (.inl hw))
    · exact update_cases (P := fun _ v' => Knows (srv p) v' ∨ v' = v)
        (fun k => .inl (.inl (.inr (.inl ⟨k, rfl⟩)))) (.inr rfl) k
    · exact .inl (.inl (.inr (.inr (.inl hw))))
    · exact .inl (.inl (.inr (.inr (.inr hw))))
    · exact .inl (.inr hw)
  all_goals exact .inl hw

theorem RestartInv.deliver {m : Msg} (h : RestartInv g s) (hm : m ∈ s.net) :
    RestartInv g { s with srv := m.land s.srv, net := s.net.erase m } := by
  refine h.environment rfl (fun p => (m.land_steady s.srv p).1)
    (fun p => (m.land_steady s.srv p).2)
    (fun _ => mem_of_mem_erase) (fun j k => ?_) fun p w hw => ?_
  · rcases m.land_cases s.srv j with he | ⟨_, _, -, he⟩ | ⟨q, req, rfl, he⟩ | ⟨_, _, _, -, he⟩ |
      ⟨_, _, -, he⟩ | ⟨_, -, he⟩ | ⟨_, _, -, he⟩ <;> simp only [he]
    case inr.inr.inl =>
      exact update_cases (P := fun _ r => Candidacy r) (h.reqs j) (h.netReqs _ _ _ hm) k
    all_goals exact h.reqs j k
  · exact (knows_land hw).imp_right fun hw => ⟨m, hm, hw⟩

/-! ### Runs -/

/-- In every step: a server that reads its vote back is not in a group of two, finds each of its
votes held by enough others, and polls completions of one status at a time; a server that has
restarted does not start as if it were new. -/
def SafeRejoin (g : Group) (s : State) : Event → Prop
  | .getReplicatedVote i _ batches => g.size ≠ 2 ∧ Remembered g s i ∧ UniformStatus batches
  | .boot i | .singleStart i => .restarted i ∉ s.trace
  | _ => True

/-- The condition on a run under which votes survive. -/
def SafeRejoins (g : Group) (s : State) (e : Event) : Prop := TermsBelow g s ∧ SafeRejoin g s e

theorem RestartInv.sameBallot (h : RestartInv g s) (hterm : TermsBelow g s)
    (hs : SameBallot (s.srv i) srv) : RestartEffect s i (.quiet srv) :=
  h.voteless hterm (.quiet hs) (by simp [Effect.quiet])

theorem RestartInv.newcomer {eff : Effect} (h : RestartInv g s) (hterm : TermsBelow g s)
    (hno : ¬ HasJoined (s.srv i)) (hres : .restarted i ∉ s.trace) (hj : HasJoined eff.srv)
    (hreq : eff.srv.voteReq = (s.srv i).voteReq) (hk : ∀ w, Knows eff.srv w → Knows (s.srv i) w)
    (hse : eff.sent = []) (hs : ∀ p t c, .voted p t c ∉ eff.seen) : RestartEffect s i eff := by
  have hn : ∀ t c, .voted i t c ∉ s.trace ++ eff.seen := by
    intro t c hc
    rcases mem_append.mp hc with hc | hc
    · exact h.fresh i hno hres t c hc
    · exact hs i t c hc
  constructor
  case reqs => exact hreq ▸ h.reqs i
  case sentReqs => simp [hse]
  case known => exact fun w hw => .inl ((h.known i w (hk w hw)).low hterm)
  case sent => simp [hse]
  case own => exact fun p t c hm => absurd hm (hs p t c)
  case unique => exact fun t c _ hc => absurd hc (hn t c)
  case le => exact fun _ t c hc => absurd hc (hn t c)
  case fresh => exact fun hno => absurd hj hno

theorem getReplicatedVoteCb_spec {votes : ℕ → ℕ} {batches : List (List Wc)} {srv' : Server}
    (h : getReplicatedVoteCb g i votes landed batches srv = some srv') :
    srv'.voteReq = srv.voteReq ∧
      (∀ w, Knows srv' w → Knows srv w ∨ w = 0 ∨ ∃ k ∈ landed, w = votes k) ∧
      (srv'.phase = .joining ∨ srv'.phase = .voteRead) := by
  have hr : ∀ w, Knows { srv with
        sid := joinSid i srv.sid, rsid := fun k => if k ∈ landed then votes k else srv.rsid k } w →
      Knows srv w ∨ w = 0 ∨ ∃ k ∈ landed, w = votes k := by
    rintro w ((hw | hw | ⟨k, hw⟩ | hw) | hw)
    · exact .inl (.inl (.inl hw))
    · exact .inl (.inl (.inr (.inl hw)))
    · dsimp only at hw
      split_ifs at hw with hk
      · exact .inr (.inr ⟨k, hk, hw⟩)
      · exact .inl (.inl (.inr (.inr (.inl ⟨k, hw⟩))))
    · exact .inl (.inl (.inr (.inr (.inr hw))))
    · exact .inl (.inr hw)
  unfold getReplicatedVoteCb rcGetReplicatedVote at h
  dsimp only at h
  split_ifs at h
  · obtain rfl := Option.some.inj h
    exact ⟨rfl, fun w hw => .inl hw, .inr rfl⟩
  · obtain ⟨⟨rc, next⟩, hres, rfl⟩ := map_eq_some_iff.mp h
    obtain ⟨⟨rc', posted⟩, -, hres⟩ := map_eq_some_iff.mp hres
    cases rc' with
    | insuccess =>
      obtain ⟨rfl, rfl⟩ := Prod.mk.inj hres
      exact ⟨rfl, hr, .inl rfl⟩
    | success =>
      obtain ⟨rfl, rfl⟩ := Prod.mk.inj hres
      obtain ⟨hreq, hkn⟩ := foldl_takeVoteBody_spec posted (range g.size)
        { srv with
          sid := joinSid i srv.sid, rsid := fun k => if k ∈ landed then votes k else srv.rsid k }
      exact ⟨hreq, fun w hw => (hkn w hw).elim (hr w) fun h0 => .inr (.inl h0), .inr rfl⟩

theorem RestartInv.restart (h : RestartInv g s) :
    RestartEffect s i ⟨.init g, [], [.restarted i]⟩ := by
  have hs : ∀ p t c, .voted p t c ∉ [Obs.restarted i] := by simp
  constructor
  case reqs => exact fun k => .inl rfl
  case sentReqs => simp
  case known =>
    intro w hw
    have h0 : w = 0 := by
      rcases hw with (hw | ⟨_, hw⟩ | ⟨_, hw⟩ | ⟨_, hw⟩) | ⟨_, hw⟩ | ⟨_, hw⟩ <;> exact hw
    rw [h0]
    exact .inl low_zero
  case sent => simp
  case own => simp
  case unique => simpa using h.unique i
  case le => exact fun hj => absurd rfl hj.1
  case fresh => simp

theorem RestartInv.getReplicatedVote {batches : List (List Wc)} (h : RestartInv g s)
    (hterm : TermsBelow g s) (hi : i < g.size)
    (hph : (s.srv i).phase = .starting ∨ (s.srv i).phase = .joining) (htwo : g.size ≠ 2)
    (hrem : Remembered g s i) (hu : UniformStatus batches) (hl : completionsLanded g landed batches)
    (hres : getReplicatedVoteCb g i (fun k => (s.srv k).voteSid i) landed batches (s.srv i) =
      some srv) : RestartEffect s i (.quiet srv) := by
  obtain ⟨hreq, hk, hp⟩ := getReplicatedVoteCb_spec hres
  constructor
  case reqs => exact hreq ▸ h.reqs i
  case sentReqs => simp [Effect.quiet]
  case known =>
    intro w hw
    rcases hk w hw with hw | rfl | ⟨k, -, rfl⟩
    · exact .inl ((h.known i w hw).low hterm)
    · exact .inl low_zero
    · exact .inl ((h.known k _ (.inl (.inr (.inr (.inr ⟨i, rfl⟩))))).low hterm)
  case sent => simp [Effect.quiet]
  case own => simp [Effect.quiet]
  case unique => simpa [Effect.quiet] using h.unique i
  case le =>
    intro hj t c hc
    simp only [Effect.quiet, List.append_nil] at hc hj ⊢
    have hr := hp.resolve_left hj.2
    have hle := vote_le_getReplicatedVoteCb hi htwo hrem hu hl hres hr hc
    calc t ≤ sidGetTerm (sidMk t false c) := by
          rw [sidGetTerm_eq, sidMk]
          simp only [Bool.false_eq_true, if_false]
          omega
      _ ≤ sidGetTerm srv.sid := sidGetTerm_mono hle
  case fresh =>
    intro _ hres t c hc
    simp only [Effect.quiet, List.append_nil] at hc hres
    refine h.fresh i (fun hj => ?_) hres t c hc
    exact hph.elim hj.1 hj.2

theorem hasJoined_of_phase {ph : Phase} (h : srv.phase = ph)
    (hph : ph ≠ .starting ∧ ph ≠ .joining) : HasJoined srv := by
  subst h
  exact hph

theorem RestartInv.verify {batches : List (List Wc)} {ackOk : Bool} {eff : Effect}
    (h : RestartInv g s) (hterm : TermsBelow g s) (hi : i < g.size) (hj : HasJoined (s.srv i))
    (hl : ∀ k ∈ landed, k < g.size)
    (hres : rcVerifyLeadership g i (fun k => (s.srv k).sid) landed batches ackOk (s.srv i) =
      some eff) : RestartInv g (s.perform i eff) := by
  obtain ⟨⟨rc, posted⟩, -, rfl⟩ := map_eq_some_iff.mp hres
  obtain ⟨srv, hsrv⟩ : ∃ srv : Server, srv = { s.srv i with
    rsid := fun k => if k ∈ landed then (s.srv k).sid else (s.srv i).rsid k } := ⟨_, rfl⟩
  have hr : RestartEffect s i (.quiet srv) := by
    rw [hsrv]
    constructor
    case reqs => exact h.reqs i
    case sentReqs => simp [Effect.quiet]
    case known =>
      rintro w ((hw | hw | ⟨k, hw⟩ | hw) | hw)
      · exact .inl ((h.known i w (.inl (.inl hw))).low hterm)
      · exact .inl ((h.known i w (.inl (.inr (.inl hw)))).low hterm)
      · simp only [Effect.quiet] at hw
        split_ifs at hw with hk
        · rw [hw]
          exact .inl (hterm k (hl k hk))
        · exact .inl ((h.known i w (.inl (.inr (.inr (.inl ⟨k, hw⟩))))).low hterm)
      · exact .inl ((h.known i w (.inl (.inr (.inr (.inr hw))))).low hterm)
      · exact .inl ((h.known i w (.inr hw)).low hterm)
    case sent => simp [Effect.quiet]
    case own => simp [Effect.quiet]
    case unique => simpa [Effect.quiet] using h.unique i
    case le => simpa [Effect.quiet] using fun _ => h.le i hj
    case fresh => exact fun hno => absurd hj hno
  have h₁ := h.perform hterm hi hr
  have ht₁ := hterm.perform (i := i) (.quiet srv) (by rw [Effect.quiet, hsrv])
  have he := termEffect_verified (g := g) posted (g.idx_lt hi) ackOk
    fun w hw => (h₁.known i w (by rwa [State.perform_srv_self])).low ht₁
  have h₂ := h₁.perform ht₁ hi (h₁.joined ht₁ ?_ (by rwa [State.perform_srv_self]))
  · rw [State.perform_perform] at h₂
    rw [hsrv] at h₂
    exact h₂
  · rw [State.perform_srv_self, Effect.quiet, hsrv]
    exact hj

theorem RestartInv.step {e : Event} (h : RestartInv g s) (hok : SafeRejoins g s e)
    (he : (group g).step s e = some s') : RestartInv g s' := by
  obtain ⟨hterm, hsa⟩ := hok
  have hrec : ∀ i, isRecovered s i → HasJoined (s.srv i) := fun i hr =>
    hasJoined_of_recovered (beq_iff_eq.mp hr)
  change Dare.step g s e = some s' at he
  unfold Dare.step at he
  cases e with
  | boot i =>
    obtain ⟨hi, hg, rfl⟩ := runBy_eq_some.mp he
    have h₁ := h.setPhase .recovered hterm hi (by simp) (.inr hsa)
    have h₂ := h₁.perform (i := i) (hterm.perform _ rfl) hi
      (h₁.joined (hterm.perform _ rfl) ?_ (termEffect_startElection (g := g) (g.idx_lt hi) ?_))
    · rw [State.perform_srv_self, State.perform_perform] at h₂
      exact h₂
    · rw [State.perform_srv_self]
      exact hasJoined_of_recovered rfl
    · rw [State.perform_srv_self]
      exact hterm i hi
  | singleStart i =>
    obtain ⟨hi, hg, rfl⟩ := runBy_eq_some.mp he
    simp only [Bool.and_eq_true, beq_iff_eq] at hg
    exact h.perform hterm hi (h.newcomer hterm (fun hj => hj.1 hg.2) hsa (by simp [HasJoined])
      rfl (fun _ hw => hw) rfl (by simp))
  | getReplicatedVote i landed batches =>
    obtain ⟨hi, hg, eff, heff, rfl⟩ := runPartial_eq_some.mp he
    obtain ⟨srv, hsrv, rfl⟩ := map_eq_some_iff.mp heff
    simp only [Bool.and_eq_true, Bool.or_eq_true, beq_iff_eq] at hg
    exact h.perform hterm hi
      (h.getReplicatedVote hterm hi hg.1 hsa.1 hsa.2.1 hsa.2.2 hg.2 hsrv)
  | sendSmRequest i =>
    obtain ⟨hi, hg, rfl⟩ := runBy_eq_some.mp he
    exact h.perform hterm hi
      (h.voteless hterm termEffect_sendSmRequestCb (by simp [sendSmRequestCb]))
  | pollSmRequests i =>
    obtain ⟨hi, hg, rfl⟩ := runBy_eq_some.mp he
    exact h.perform hterm hi (h.voteless hterm termEffect_pollSmRequests (by simp [pollSmRequests]))
  | pollSmReply i applied =>
    obtain ⟨hi, hg, rfl⟩ := runBy_eq_some.mp he
    have hj := hasJoined_of_phase (beq_iff_eq.mp hg) (by simp)
    exact h.perform hterm hi (h.joined hterm hj (termEffect_pollSmReply hj applied))
  | recoverLogOffsets i j ackOk =>
    obtain ⟨hi, hg, rfl⟩ := runBy_eq_some.mp he
    simp only [Bool.and_eq_true, beq_iff_eq] at hg
    have hj := hasJoined_of_phase hg.1.1 (by simp)
    refine h.perform hterm hi (h.joined hterm hj ?_)
    unfold recoverLogOffsets
    split_ifs
    · exact termEffect_logRecovered (g.idx_lt hi) ackOk hj (hterm i hi)
    · exact termEffect_loadLog hj (by simp)
  | recoverLogEntries i ackOk =>
    dsimp only at he
    split at he
    · rename_i j hph
      obtain ⟨hi, -, rfl⟩ := runBy_eq_some.mp he
      have hj := hasJoined_of_phase hph (by simp)
      have hl : TermEffect i (s.srv i) (.quiet { s.srv i with log := { (s.srv i).log with
          entries := fun k => if k < (s.srv i).log.endOff then (s.srv j).log.entries k
            else (s.srv i).log.entries k } }) :=
        .quiet (sameBallot_log _ _)
      exact h.perform hterm hi (h.joined hterm hj (hl.andThen
        (termEffect_logRecovered (g := g) (g.idx_lt hi) ackOk hj (hterm i hi))))
    · cases he
  | restart i =>
    obtain ⟨hi, -, rfl⟩ := runBy_eq_some.mp he
    exact h.perform hterm hi h.restart
  | hbReceive i ackOk =>
    obtain ⟨hi, hg, rfl⟩ := runBy_eq_some.mp he
    simp only [Bool.and_eq_true] at hg
    exact h.perform hterm hi (h.joined hterm (hrec i hg.1) (termEffect_hbReceiveCb (g.idx_lt hi)
      ackOk (hterm i hi) fun w hw => (h.known i w hw).low hterm))
  | toAdjust i =>
    obtain ⟨hi, hg, rfl⟩ := runBy_eq_some.mp he
    exact h.perform hterm hi (h.joined hterm (hrec i hg) termEffect_toAdjustCb)
  | hbSend i ackOk =>
    obtain ⟨hi, hg, rfl⟩ := runBy_eq_some.mp he
    simp only [Bool.and_eq_true] at hg
    exact h.perform hterm hi (h.joined hterm (hrec i hg.1) (termEffect_hbSendCb (g.idx_lt hi)
      ackOk (hterm i hi)))
  | pollVoteRequests i ackOk =>
    obtain ⟨hi, hg, rfl⟩ := runBy_eq_some.mp he
    exact h.perform hterm hi (h.joined hterm (hrec i hg) (termEffect_pollVoteRequests
      (g.idx_lt hi) ackOk (h.reqs i) fun w hw => (h.known i w hw).low hterm))
  | pollVoteCount i =>
    obtain ⟨hi, hg, rfl⟩ := runBy_eq_some.mp he
    simp only [Bool.and_eq_true] at hg
    exact h.perform hterm hi (h.joined hterm (hrec i hg.1) termEffect_pollVoteCount)
  | verifyLeadership i landed batches ackOk =>
    obtain ⟨hi, hg, eff, heff, rfl⟩ := runPartial_eq_some.mp he
    simp only [completionsLanded, Bool.and_eq_true, List.all_eq_true, decide_eq_true_eq] at hg
    exact h.verify hterm hi (hrec i hg.1.1) hg.2.1.1 heff
  | submit i req =>
    obtain ⟨hi, -, rfl⟩ := runBy_eq_some.mp he
    exact h.perform hterm hi (h.sameBallot hterm { SameBallot.refl _ with })
  | getTailqMessage i =>
    obtain ⟨hi, -, rfl⟩ := runBy_eq_some.mp he
    exact h.perform hterm hi (h.voteless hterm termEffect_getTailqMessage
      fun _ _ _ hm => by cases aboutLog_getTailqMessage _ hm)
  | appendHead i offset =>
    obtain ⟨hi, hg, rfl⟩ := runBy_eq_some.mp he
    simp only [Bool.and_eq_true] at hg
    exact h.perform hterm hi (h.joined hterm (hrec i hg.1) termEffect_appendEntry)
  | applyEntries i =>
    obtain ⟨hi, hg, rfl⟩ := runBy_eq_some.mp he
    exact h.perform hterm hi (h.joined hterm (hrec i hg) termEffect_applyCommittedEntries)
  | logAdjustment i j =>
    obtain ⟨hi, -, -, -, rfl⟩ := towards_eq_some.mp he
    exact h.perform hterm hi (h.sameBallot hterm (sameBallot_logAdjustment _ _))
  | updateRemoteLog i j =>
    obtain ⟨hi, -, -, -, rfl⟩ := towards_eq_some.mp he
    exact h.perform hterm hi (h.sameBallot hterm (sameBallot_updateRemoteLog _ _))
  | advanceCommit i =>
    obtain ⟨hi, -, rfl⟩ := runBy_eq_some.mp he
    exact h.perform hterm hi (h.sameBallot hterm (sameBallot_advanceCommit _))
  | updateRemoteCommit i j =>
    obtain ⟨hi, -, -, -, rfl⟩ := towards_eq_some.mp he
    exact h.perform hterm hi (h.sameBallot hterm (sameBallot_updateRemoteCommit _ _))
  | pollCompletion i j =>
    obtain ⟨hi, -, eff, heff, rfl⟩ := runPartial_eq_some.mp he
    obtain ⟨srv, hsrv, rfl⟩ := map_eq_some_iff.mp heff
    exact h.perform hterm hi (h.sameBallot hterm (sameBallot_pollCompletion hsrv))
  | ctrlFailure i j =>
    obtain ⟨hi, -, -, -, rfl⟩ := towards_eq_some.mp he
    exact h.perform hterm hi (h.sameBallot hterm { SameBallot.refl _ with })
  | logExec i j ok =>
    dsimp only at he
    split at he
    · cases he
    · rename_i wr _ _
      split_ifs at he
      obtain rfl := Option.some.inj he
      have hs := sameBallot_execRequest i j ok wr s.srv
      refine h.environment rfl (fun p => (hs p).sid) (fun p => (hs p).phase) (fun _ hm => hm)
        (fun p k => ?_) fun p w hw => .inl ((hs p).knows hw)
      dsimp only
      rw [(hs p).voteReq]
      exact h.reqs p k
  | logFail i j =>
    dsimp only at he
    split at he
    · cases he
    · obtain ⟨hi, -, -, -, rfl⟩ := towards_eq_some.mp he
      exact h.perform hterm hi (h.sameBallot hterm (sameBallot_popRequest _ _ _ _))
  | deliver m =>
    dsimp only at he
    split_ifs at he with hm
    obtain rfl := Option.some.inj he
    exact h.deliver hm
  | drop m =>
    dsimp only at he
    split_ifs at he with hm
    obtain rfl := Option.some.inj he
    exact h.environment rfl (fun _ => rfl) (fun _ => rfl) (fun _ => mem_of_mem_erase) h.reqs
      fun _ _ hw => .inl hw

theorem restartInv_init (g : Group) : RestartInv g (.init g) where
  reqs _ _ := .inl rfl
  netReqs _ _ _ hm := absurd hm not_mem_nil
  known p w hw := by
    have h0 : w = 0 := by
      rcases hw with (hw | ⟨_, hw⟩ | ⟨_, hw⟩ | ⟨_, hw⟩) | ⟨_, hw⟩ | ⟨_, hw⟩ <;> exact hw
    rw [h0]
    exact .inl low_zero
  net _ hm := absurd hm not_mem_nil
  unique _ _ _ _ hm := absurd hm not_mem_nil
  le _ _ _ _ hm := absurd hm not_mem_nil
  fresh _ _ _ _ _ hm := absurd hm not_mem_nil

/-- A server never votes for two candidates of a term, even if it restarts in between; and once
it has read its votes back, its SID is not below any of them. -/
theorem votes_survive_restart (g : Group) {s : State}
    (h : (group g).Run (SafeRejoins g) (.init g) s) (i : ℕ) :
    (∀ t c c', .voted i t c ∈ s.trace → .voted i t c' ∈ s.trace → c = c') ∧
    ∀ landed batches s', SafeRejoins g s (.getReplicatedVote i landed batches) →
      (group g).step s (.getReplicatedVote i landed batches) = some s' →
      (s'.srv i).phase = .voteRead →
      ∀ t c, .voted i t c ∈ s.trace → sidMk t false c ≤ (s'.srv i).sid := by
  have hinv := h.invariant (restartInv_init g) fun _ _ _ hs hok he => hs.step hok he
  refine ⟨hinv.unique i, ?_⟩
  rintro landed batches s' ⟨-, htwo, hrem, hunif⟩ he hread t c hv
  change step g s (.getReplicatedVote i landed batches) = some s' at he
  unfold step at he
  obtain ⟨hi, hg, eff, heff, rfl⟩ := runPartial_eq_some.mp he
  obtain ⟨srv, hsrv, rfl⟩ := map_eq_some_iff.mp heff
  rw [Bool.and_eq_true] at hg
  rw [State.perform_srv_self] at hread ⊢
  exact vote_le_getReplicatedVoteCb hi htwo hrem hunif hg.2 hsrv hread hv

section Decidable

instance (s : State) (o : Obs) : Decidable (VoteHeld g s i o) := by
  unfold VoteHeld
  cases o <;> infer_instance

instance (s : State) (e : Event) : Decidable (SafeRejoin g s e) := by
  unfold SafeRejoin Remembered
  rcases e <;> infer_instance

instance (s : State) (e : Event) : Decidable (SafeRejoins g s e) :=
  inferInstanceAs (Decidable (_ ∧ _))

end Decidable

/-- Server 0 votes, restarts and reads its vote back. -/
theorem votes_survive_restart_trio :
    ∃ s, (group trio).Run (SafeRejoins trio) (.init trio) s ∧ .restarted 0 ∈ s.trace ∧
      (s.srv 0).sid = sidMk 2 false 1 ∧ .voted 0 2 1 ∈ s.trace ∧
      ∀ c, .voted 0 2 c ∈ s.trace → c = 1 := by
  obtain ⟨s, hrun, hres, hsid, hvote⟩ := System.exists_run_of_exec (M := group trio)
    (s := .init trio) (SafeRejoins trio) (p := fun s => .restarted 0 ∈ s.trace ∧
      (s.srv 0).sid = sidMk 2 false 1 ∧ .voted 0 2 1 ∈ s.trace)
    [.boot 0, .boot 1, .boot 2, .hbReceive 1 true,
      .deliver (.voteRequest 1 0 ⟨sidMk 2 false 1, 0, 0⟩), .pollVoteRequests 0 true,
      .deliver (.voteSid 0 1 (sidMk 2 false 1)), .deliver (.voteSid 0 2 (sidMk 2 false 1)),
      .restart 0, .getReplicatedVote 0 [1, 2] [[⟨1, true, true⟩, ⟨2, true, true⟩]]]
    (by decide +kernel)
  exact ⟨s, hrun, hres, hsid, hvote, fun c hc =>
    (votes_survive_restart trio hrun 0).1 2 c 1 hc hvote⟩

/-- The vote of server 0 reaches nobody but the candidate, and server 0 sends its ACK all the
same. After the restart it reads from the three others and votes again in the same term. -/
theorem votes_twice_quintet : ∃ s, (group quintet).Run System.anyStep (.init quintet) s ∧
      .voted 0 2 1 ∈ s.trace ∧ .voted 0 2 2 ∈ s.trace :=
  System.exists_run_of_exec (M := group quintet) (s := .init quintet) System.anyStep
    (p := fun s => .voted 0 2 1 ∈ s.trace ∧ .voted 0 2 2 ∈ s.trace)
    [.boot 0, .boot 1, .boot 2, .boot 3, .boot 4, .hbReceive 1 true,
      .deliver (.voteRequest 1 0 ⟨sidMk 2 false 1, 0, 0⟩), .pollVoteRequests 0 true,
      .deliver (.voteSid 0 1 (sidMk 2 false 1)), .drop (.voteSid 0 2 (sidMk 2 false 1)),
      .drop (.voteSid 0 3 (sidMk 2 false 1)), .drop (.voteSid 0 4 (sidMk 2 false 1)),
      .deliver (.voteAck 0 1 0 2), .restart 0,
      .getReplicatedVote 0 [2, 3, 4] [[⟨2, true, true⟩, ⟨3, true, true⟩, ⟨4, true, true⟩]],
      .sendSmRequest 0, .deliver (.smRequest 0 3), .pollSmRequests 3,
      .deliver (.smReply 3 0 (sidMk 1 false 3)), .pollSmReply 0 (some 0),
      .recoverLogOffsets 0 3 true, .hbReceive 2 true,
      .deliver (.voteRequest 2 0 ⟨sidMk 2 false 2, 0, 0⟩), .pollVoteRequests 0 true]
    (by decide +kernel)

end VmFt.Dare
