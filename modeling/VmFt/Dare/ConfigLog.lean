import VmFt.Dare.Reconfigure

/-! # The configuration follows the log

A server adopts the CONFIG entries it finds behind its commit offset. As long as
no entry it has adopted is cut from its log, and nothing but its log tells it a
configuration, its configuration is that of the last CONFIG entry in its log.
The entries of a log are numbered from one on, so that their order in the log is
the order of their indices.
-/

namespace VmFt.Dare.Config

open VmFt.System List Function

def lastConfig (es : List Entry) : Option Entry := es.reverse.find? (·.type == .config)

/-- The log holds the CONFIG entry of the server's own join; an initial member has none. -/
def holdsJoin (cidIdx : ℕ) (log : List Entry) : Bool :=
  cidIdx == 0 || log.any fun e => e.type == .config && e.idx == cidIdx

/-- If the entry of the join is the last CONFIG entry in the log and is not pruned, it holds the
configuration `cid`. -/
def joinTold (cid : Cid) (cidIdx head : ℕ) (log : List Entry) : Prop :=
  (∀ x ∈ log, x.type = .config → x.idx ≤ cidIdx) →
    ∀ e ∈ log.drop head, e.type = .config → e.idx = cidIdx → e.data = .cid cid

instance (cid : Cid) (cidIdx head : ℕ) (log : List Entry) :
    Decidable (joinTold cid cidIdx head log) := by
  unfold joinTold
  infer_instance

/-- The next poll finds a CONFIG entry. -/
def unseen (m : Member) : Bool := (m.log.drop m.cidOffset).any (isConfig m.cidIdx)

/-- The log of the leader has room for its CONFIG entries, and no log ends exactly with its buffer;
a log is not cut in front of a CONFIG entry, and a vote tells no other configuration, unless the
next poll finds a CONFIG entry; a server that joins is told the configuration of its CONFIG
entry. -/
def tracked (s : State) : Event → Prop
  | .join _ room _ | .suspect _ room _ | .force _ room _ | .apply _ room | .blank _ room _ =>
    room = true
  | .reachEnd _ => False
  | .extend i k n =>
    let m := s.members i
    m.log.length < m.cidIdx →
      joinTold m.cid m.cidIdx m.head (m.log ++ ((s.members k).log.drop m.log.length).take n)
  | .truncate i offset =>
    let m := s.members i
    (m.log.drop offset).any (isConfig m.cidIdx) = false ∨
      unseen { m with log := m.log.take offset } = true
  | .vote i cid => cid = (s.members i).cid ∨ unseen (s.members i) = true
  | .recover _ _ r source endOff _ _ =>
    joinTold r.cid r.cidIdx r.head ((s.members source).log.take endOff)
  | _ => True

instance (s : State) (e : Event) : Decidable (tracked s e) := by
  cases e <;> unfold tracked <;> infer_instance

variable {s t : State} {m m' : Member} {room : Bool} {ev : Event} {e x : Entry}
variable {log new : List Entry} {cid : Cid} {cidIdx head n : ℕ}

/-! ### Entries and their indices -/

def Indexed (log : List Entry) : Prop := ∀ p e, log[p]? = some e → e.idx = p + 1

theorem Indexed.exists_pos (h : Indexed log) (he : e ∈ log) :
    ∃ p, log[p]? = some e ∧ e.idx = p + 1 := by
  obtain ⟨p, hp⟩ := mem_iff_getElem?.mp he
  exact ⟨p, hp, h p e hp⟩

theorem Indexed.unique (h : Indexed log) (he : e ∈ log) (hx : x ∈ log) (hidx : e.idx = x.idx) :
    e = x := by
  obtain ⟨p, hp, hpe⟩ := h.exists_pos he
  obtain ⟨q, hq, hqx⟩ := h.exists_pos hx
  obtain rfl : p = q := by omega
  exact Option.some.inj (hp.symm.trans hq)

theorem Indexed.mem_drop (h : Indexed log) : e ∈ log.drop n ↔ e ∈ log ∧ n < e.idx := by
  constructor
  · intro he
    obtain ⟨p, hp⟩ := mem_iff_getElem?.mp he
    rw [List.getElem?_drop] at hp
    have hidx := h _ _ hp
    exact ⟨mem_of_mem_drop he, by omega⟩
  · rintro ⟨he, hlt⟩
    obtain ⟨p, hp, hidx⟩ := h.exists_pos he
    refine mem_iff_getElem?.mpr ⟨p - n, ?_⟩
    rw [List.getElem?_drop, show n + (p - n) = p by omega, hp]

theorem Indexed.mem_take (h : Indexed log) : e ∈ log.take n ↔ e ∈ log ∧ e.idx ≤ n := by
  constructor
  · intro he
    obtain ⟨p, hp⟩ := mem_iff_getElem?.mp he
    rw [List.getElem?_take] at hp
    split_ifs at hp with hlt
    have hidx := h _ _ hp
    exact ⟨mem_of_mem_take he, by omega⟩
  · rintro ⟨he, hle⟩
    obtain ⟨p, hp, hidx⟩ := h.exists_pos he
    refine mem_iff_getElem?.mpr ⟨p, ?_⟩
    rw [List.getElem?_take_of_lt (by omega), hp]

theorem Indexed.idx_le (h : Indexed log) (he : e ∈ log) : 0 < e.idx ∧ e.idx ≤ log.length := by
  obtain ⟨p, hp, hidx⟩ := h.exists_pos he
  obtain ⟨hlt, -⟩ := List.getElem?_eq_some_iff.mp hp
  omega

theorem Indexed.take (h : Indexed log) (n : ℕ) : Indexed (log.take n) := by
  intro p e hp
  rw [List.getElem?_take] at hp
  split_ifs at hp
  exact h p e hp

theorem Indexed.nextIdx (h : Indexed log) : nextIdx log = log.length + 1 := by
  unfold Config.nextIdx
  cases hl : log.getLast? with
  | none => simp [getLast?_eq_none_iff.mp hl]
  | some e =>
    rw [getLast?_eq_getElem?] at hl
    have hidx := h _ _ hl
    obtain ⟨hlt, -⟩ := List.getElem?_eq_some_iff.mp hl
    dsimp only
    omega

theorem Indexed.append (h : Indexed log) (hnew : ∀ p x, new[p]? = some x →
    x.idx = log.length + p + 1) : Indexed (log ++ new) := by
  intro p e hp
  rcases Nat.lt_or_ge p log.length with hlt | hge
  · rw [List.getElem?_append_left hlt] at hp
    exact h p e hp
  · rw [List.getElem?_append_right hge] at hp
    have hidx := hnew _ _ hp
    omega

theorem Indexed.append_one (h : Indexed log) (hidx : e.idx = Config.nextIdx log) :
    Indexed (log ++ [e]) := by
  refine h.append fun p x hx => ?_
  obtain ⟨hlt, rfl⟩ := List.getElem?_eq_some_iff.mp hx
  have hz : p = 0 := by simpa using hlt
  subst hz
  rw [getElem_singleton, hidx, h.nextIdx]

theorem lastConfig_mem (h : lastConfig log = some e) : e ∈ log ∧ e.type = .config := by
  have hmem := List.mem_of_find?_eq_some h
  have ht := List.find?_some h
  exact ⟨mem_reverse.mp hmem, by simpa using ht⟩

theorem lastConfig_eq_some (h : lastConfig log = some e) :
    ∃ pre post, log = pre ++ e :: post ∧ ∀ x ∈ post, x.type ≠ .config := by
  obtain ⟨-, as, bs, heq, hn⟩ := List.find?_eq_some_iff_append.mp h
  refine ⟨bs.reverse, as.reverse, ?_, ?_⟩
  · rw [← reverse_reverse log, heq]
    simp
  · intro x hx
    simpa using hn x (mem_reverse.mp hx)

theorem Indexed.of_split (h : Indexed log) {pre post : List Entry}
    (heq : log.drop n = pre ++ e :: post) :
    (∀ x ∈ pre, x.idx < e.idx) ∧ ∀ x ∈ post, e.idx < x.idx := by
  have hget : ∀ p x, (pre ++ e :: post)[p]? = some x → x.idx = n + p + 1 := by
    intro p x hp
    rw [← heq, List.getElem?_drop] at hp
    exact h _ _ hp
  have he := hget pre.length e (by simp)
  constructor
  · intro x hx
    obtain ⟨p, hp⟩ := mem_iff_getElem?.mp hx
    obtain ⟨hlt, -⟩ := List.getElem?_eq_some_iff.mp hp
    have hidx := hget p x (by rw [List.getElem?_append_left hlt, hp])
    omega
  · intro x hx
    obtain ⟨p, hp⟩ := mem_iff_getElem?.mp hx
    have hidx := hget (pre.length + (p + 1)) x (by
      rw [List.getElem?_append_right (by omega)]
      simpa using hp)
    omega

theorem Indexed.le_lastConfig (h : Indexed log) (hl : lastConfig (log.drop head) = some e)
    (hx : x ∈ log) (ht : x.type = .config) : x.idx ≤ e.idx := by
  obtain ⟨pre, post, heq, hp⟩ := lastConfig_eq_some hl
  have he : e ∈ log ∧ head < e.idx := h.mem_drop.mp (lastConfig_mem hl).1
  rcases Nat.lt_or_ge head x.idx with hlt | hle
  · have hmem : x ∈ log.drop head := h.mem_drop.mpr ⟨hx, hlt⟩
    rw [heq, mem_append, mem_cons] at hmem
    rcases hmem with hpre | rfl | hmem
    · exact ((h.of_split heq).1 x hpre).le
    · exact Nat.le_refl _
    · exact absurd ht (hp x hmem)
  · omega

/-! ### The poll -/

theorem pollEntry_eq (m : Member) (e : Entry) : ∃ cid reqId cltId down,
      pollEntry m e = { m with cid := cid, reqId := reqId, cltId := cltId, down := down } ∧
      (isConfig m.cidIdx e = false → cid = m.cid) ∧
      ∀ cid', isConfig m.cidIdx e = true → e.data = .cid cid' → cid = cid' := by
  unfold pollEntry
  split
  · rename_i cid ht hd
    have hc : isConfig m.cidIdx e = decide (m.cidIdx < e.idx) := by simp [isConfig, ht]
    split_ifs with hnew
    · refine ⟨cid, e.reqId, e.cltId, _, rfl, ?_, ?_⟩
      · intro hold
        rw [hc, decide_eq_false_iff_not] at hold
        exact absurd hnew.1 hold
      · intro cid' _ hd'
        rw [hd] at hd'
        exact EntryData.cid.inj hd'
    · refine ⟨m.cid, m.reqId, m.cltId, m.down, rfl, fun _ => rfl, ?_⟩
      intro cid' hc' hd'
      rw [hc, decide_eq_true_iff] at hc'
      rw [hd] at hd'
      rw [← EntryData.cid.inj hd']
      by_contra hne
      exact hnew ⟨hc', hne⟩
  · rename_i hno
    refine ⟨m.cid, m.reqId, m.cltId, m.down, rfl, fun _ => rfl, ?_⟩
    intro cid' hc hd
    have ht : e.type = .config := by
      simp only [isConfig, Bool.and_eq_true, beq_iff_eq] at hc
      exact hc.1
    exact absurd hd (hno cid' ht)

theorem foldl_pollEntry_eq (es : List Entry) (m : Member) :
    ∃ cid reqId cltId down, es.foldl pollEntry m =
        { m with cid := cid, reqId := reqId, cltId := cltId, down := down } ∧
      (es.any (isConfig m.cidIdx) = false → cid = m.cid) ∧
      ∀ pre e post cid', es = pre ++ e :: post → isConfig m.cidIdx e = true →
        e.data = .cid cid' → post.any (isConfig m.cidIdx) = false → cid = cid' := by
  induction es generalizing m with
  | nil => exact ⟨m.cid, m.reqId, m.cltId, m.down, rfl, fun _ => rfl, by simp⟩
  | cons e es ih =>
    obtain ⟨cid₁, reqId₁, cltId₁, down₁, heq, hold, hnew⟩ := pollEntry_eq m e
    obtain ⟨cid, reqId, cltId, down, hf, hn, hl⟩ := ih (pollEntry m e)
    rw [heq] at hn hl
    refine ⟨cid, reqId, cltId, down, ?_, ?_, ?_⟩
    · rw [foldl_cons, hf, heq]
    · intro hany
      rw [any_cons, Bool.or_eq_false_iff] at hany
      exact (hn hany.2).trans (hold hany.1)
    · intro pre e' post cid' hs hc hd hp
      cases pre with
      | nil =>
        obtain ⟨rfl, rfl⟩ := List.cons.inj hs
        exact (hn hp).trans (hnew cid' hc hd)
      | cons y pre =>
        obtain ⟨rfl, rfl⟩ := List.cons.inj hs
        exact hl pre e' post cid' rfl hc hd hp

theorem pollConfigEntries_eq (hin : m.atEnd = false) :
    ∃ cid reqId cltId down cidOffset head, pollConfigEntries m =
        { m with cid := cid, reqId := reqId, cltId := cltId, down := down,
                 cidOffset := cidOffset, head := head } ∧
      cidOffset ≤ m.commit ∧ m.head ≤ head ∧
      (unseen m = false → cid = m.cid) ∧
      ∀ pre e post cid', m.log.drop m.cidOffset = pre ++ e :: post →
        isConfig m.cidIdx e = true → e.data = .cid cid' →
        post.any (isConfig m.cidIdx) = false → cid = cid' := by
  obtain ⟨cid, reqId, cltId, down, heq, hn, hl⟩ :=
    foldl_pollEntry_eq (m.log.drop m.cidOffset) m
  unfold pollConfigEntries
  rw [Member.found_of_inside hin]
  dsimp only
  rw [heq]
  refine ⟨cid, reqId, cltId, down, _, _, rfl, ?_, ?_, hn, hl⟩
  · simp only [hin, true_and]
    split_ifs <;> omega
  · split_ifs <;> omega

/-! ### The invariant -/

/-- The configuration is that of the last CONFIG entry of the log, unless it is pruned. -/
def Matches (m : Member) : Prop :=
  holdsJoin m.cidIdx m.log = true → ∀ e ∈ m.log, e.type = .config → m.head < e.idx →
    (∀ x ∈ m.log, x.type = .config → x.idx ≤ e.idx) → e.data = .cid m.cid

structure Tracks (m : Member) : Prop where
  inside : m.atEnd = false
  indexed : Indexed m.log
  data : ∀ e ∈ m.log, e.type = .config → ∃ cid, e.data = .cid cid
  offset_le : m.cidOffset ≤ m.commit
  commit_le : m.commit ≤ m.log.length
  cid : m.leader = false ∧ unseen m = true ∨ Matches m

theorem isConfig_iff : isConfig cidIdx e = true ↔ e.type = .config ∧ cidIdx < e.idx := by
  simp [isConfig]

theorem Indexed.unseen_iff (h : Indexed m.log) :
    unseen m = true ↔ ∃ e ∈ m.log, m.cidOffset < e.idx ∧ e.type = .config ∧ m.cidIdx < e.idx := by
  simp only [unseen, any_eq_true, h.mem_drop, isConfig_iff, and_assoc]

theorem holdsJoin_iff :
    holdsJoin cidIdx log = true ↔ cidIdx = 0 ∨ ∃ e ∈ log, e.type = .config ∧ e.idx = cidIdx := by
  simp [holdsJoin]

theorem matches_poll (hin : m.atEnd = false) (hi : Indexed m.log)
    (hd : ∀ e ∈ m.log, e.type = .config → ∃ cid, e.data = .cid cid)
    (h : unseen m = true ∨ Matches m) : Matches (pollConfigEntries m) := by
  obtain ⟨cid, reqId, cltId, down, cidOffset, head, heq, -, hh, hn, hl⟩ :=
    pollConfigEntries_eq hin
  rw [heq]
  intro hj e he ht hlt hmax
  cases hu : unseen m with
  | false =>
    have hm : Matches m := h.resolve_left (by simp [hu])
    change e.data = .cid cid
    rw [hn hu]
    exact hm hj e he ht (hh.trans_lt hlt) hmax
  | true =>
    -- The last CONFIG entry is found, and none follows it.
    obtain ⟨x, hx, ho, ht', hidx⟩ := hi.unseen_iff.mp hu
    have hle : x.idx ≤ e.idx := hmax x hx ht'
    obtain ⟨cid', hcid'⟩ := hd e he ht
    obtain ⟨pre, post, hs⟩ :=
      append_of_mem (hi.mem_drop.mpr ⟨he, ho.trans_le hle⟩)
    have hp : post.any (isConfig m.cidIdx) = false := by
      rw [any_eq_false]
      intro y hy hc
      have hmem : y ∈ m.log.drop m.cidOffset := by simp [hs, hy]
      have hbe := (hi.of_split hs).2 y hy
      have hb := hmax y (mem_of_mem_drop hmem) (isConfig_iff.mp hc).1
      omega
    have hcid := hl pre e post cid' hs
      (isConfig_iff.mpr ⟨ht, hidx.trans_le hle⟩) hcid' hp
    rw [hcid', ← hcid]

theorem Tracks.poll (h : Tracks m) : Tracks (pollConfigEntries m) := by
  have hm := matches_poll h.inside h.indexed h.data (h.cid.imp_left And.right)
  obtain ⟨cid, reqId, cltId, down, cidOffset, head, heq, ho, -⟩ := pollConfigEntries_eq h.inside
  rw [heq] at hm ⊢
  exact ⟨h.inside, h.indexed, h.data, ho, h.commit_le, .inr hm⟩

theorem Tracks.elected (h : Tracks m) (term : ℕ) : Tracks (winElection term m) := by
  have hm : Matches (pollConfigEntries { m with leader := true, term := term }) :=
    matches_poll h.inside h.indexed h.data (h.cid.imp_left And.right)
  obtain ⟨cid, reqId, cltId, down, cidOffset, head, heq, ho, -⟩ :=
    pollConfigEntries_eq (m := { m with leader := true, term := term }) h.inside
  unfold winElection
  rw [heq] at hm ⊢
  exact ⟨h.inside, h.indexed, h.data, ho, h.commit_le, .inr hm⟩

theorem unseen_append (h : unseen m = true) (ho : m'.cidOffset = m.cidOffset)
    (hc : m'.cidIdx = m.cidIdx) (hlog : m'.log = m.log ++ new) : unseen m' = true := by
  unfold unseen at h ⊢
  rw [ho, hc, hlog, drop_append, any_append, h, Bool.true_or]

theorem matches_append (h : Matches m) (hcid : m'.cid = m.cid) (hc : m'.cidIdx = m.cidIdx)
    (hh : m.head ≤ m'.head) (hlog : m'.log = m.log ++ new)
    (hnew : ∀ e ∈ new, e.type ≠ .config) : Matches m' := by
  have hmem : ∀ e ∈ m'.log, e.type = .config → e ∈ m.log := by
    intro e he ht
    rw [hlog, mem_append] at he
    exact he.resolve_right fun hin => hnew e hin ht
  intro hj e he ht hlt hmax
  rw [hcid]
  refine h ?_ e (hmem e he ht) ht (hh.trans_lt hlt) ?_
  · rw [holdsJoin_iff, hc] at hj
    rw [holdsJoin_iff]
    refine hj.imp_right ?_
    rintro ⟨x, hx, ht', hidx⟩
    exact ⟨x, hmem x hx ht', ht', hidx⟩
  · intro x hx ht'
    exact hmax x (by rw [hlog]; exact mem_append_left _ hx) ht'

theorem Tracks.append_other (h : Tracks m) (hin : m'.atEnd = false) (hcid : m'.cid = m.cid)
    (hc : m'.cidIdx = m.cidIdx) (ho : m'.cidOffset = m.cidOffset)
    (hh : m.head ≤ m'.head) (hco : m'.commit = m.commit) (hl : m'.leader = m.leader)
    (hlog : m'.log = m.log ∨ ∃ e, e.type ≠ .config ∧ e.idx = nextIdx m.found ∧
      m'.log = m.log ++ [e]) : Tracks m' := by
  rw [Member.found_of_inside h.inside] at hlog
  -- No entry is the case of an empty list of entries.
  obtain ⟨new, hlog, hnew, hi⟩ : ∃ new, m'.log = m.log ++ new ∧
      (∀ e ∈ new, e.type ≠ .config) ∧ Indexed (m.log ++ new) := by
    rcases hlog with hlog | ⟨e, ht, hidx, hlog⟩
    · exact ⟨[], by rw [hlog, List.append_nil], nofun, by rw [List.append_nil]; exact h.indexed⟩
    · refine ⟨[e], hlog, ?_, h.indexed.append_one hidx⟩
      intro x hx
      rw [mem_singleton.mp hx]
      exact ht
  constructor
  · exact hin
  · rw [hlog]
    exact hi
  · intro e he ht
    rw [hlog, mem_append] at he
    exact h.data e (he.resolve_right fun hin => hnew e hin ht) ht
  · rw [ho, hco]
    exact h.offset_le
  · rw [hco, hlog, length_append]
    exact h.commit_le.trans (Nat.le_add_right _ _)
  · rw [hl]
    refine h.cid.imp ?_ fun hm => matches_append hm hcid hc hh hlog hnew
    rintro ⟨hf, hu⟩
    exact ⟨hf, unseen_append hu ho hc hlog⟩

theorem Tracks.append_config (h : Tracks m) (hin : m'.atEnd = false)
    (ho : m'.cidOffset = m.cidOffset)
    (hc : m'.commit = m.commit) (ht : e.type = .config) (hd : e.data = .cid m'.cid)
    (hidx : e.idx = nextIdx m.found) (hlog : m'.log = m.log ++ [e]) : Tracks m' := by
  rw [Member.found_of_inside h.inside] at hidx
  have hi : Indexed m'.log := by
    rw [hlog]
    exact h.indexed.append_one hidx
  have hmem : e ∈ m'.log := by simp [hlog]
  constructor
  · exact hin
  · exact hi
  · intro x hx ht'
    rw [hlog, mem_append, mem_singleton] at hx
    rcases hx with hx | rfl
    · exact h.data x hx ht'
    · exact ⟨_, hd⟩
  · rw [ho, hc]
    exact h.offset_le
  · rw [hc, hlog, length_append]
    exact h.commit_le.trans (Nat.le_add_right _ _)
  · -- The new entry is the last one.
    right
    rintro - x hx - - hmax
    have hle : e.idx ≤ x.idx := hmax e hmem ht
    have hb := hi.idx_le hx
    rw [hlog, length_append, length_singleton] at hb
    rw [h.indexed.nextIdx] at hidx
    obtain rfl : x = e := hi.unique hx hmem (by omega)
    exact hd

theorem Tracks.effect (h : Tracks m) (he : Effect true m m') : Tracks m' := by
  have hin : m'.atEnd = false := Bool.eq_false_iff.mpr (mt he.atEnd (by simp [h.inside]))
  rcases he.log with ⟨hcid, hlog⟩ | ⟨e, ht, hd, hidx, hlog⟩ | ⟨hr, -⟩
  · exact h.append_other hin hcid he.cidIdx he.cidOffset he.head.ge he.commit
      he.leader hlog
  · exact h.append_config hin he.cidOffset he.commit ht hd hidx hlog
  · cases hr

theorem Tracks.apply (h : Tracks m) (ha : applyCommittedEntry true m = some m') : Tracks m' := by
  obtain ⟨-, e, next, -, hn, rfl⟩ := applyCommittedEntry_cases ha
  suffices hg : Tracks next from
    { hg with }
  rcases hn with ⟨cid, -, -, -, rfl⟩ | rfl
  · exact h.effect (effect_applyConfig _ _ _)
  · exact h

theorem cid_of_joinTold (hi : Indexed m.log) (hh : ∀ e ∈ m.log, e.type = .config →
      m.cidIdx < e.idx → m.head < e.idx → m.cidOffset < e.idx)
    (hto : joinTold m.cid m.cidIdx m.head m.log) : unseen m = true ∨ Matches m := by
  cases hu : unseen m with
  | true => exact .inl rfl
  | false =>
    right
    intro hj e he ht hlt hmax
    have hle : e.idx ≤ m.cidIdx := by
      by_contra hgt
      have hf := hi.unseen_iff.mpr
        ⟨e, he, hh e he ht (by omega) hlt, ht, by omega⟩
      rw [hu] at hf
      cases hf
    have hidx : e.idx = m.cidIdx := by
      rcases holdsJoin_iff.mp hj with hz | ⟨x, hx, ht', hidx⟩
      · have hpos := hi.idx_le he
        omega
      · have := hmax x hx ht'
        omega
    exact hto (fun x hx ht' => hidx ▸ hmax x hx ht') e (hi.mem_drop.mpr ⟨he, hlt⟩)
      ht hidx

theorem Tracks.extend (h : Tracks m) (hl : m.leader = false) (hi : Indexed (m.log ++ new))
    (hd : ∀ e ∈ new, e.type = .config → ∃ cid, e.data = .cid cid)
    (hto : m.log.length < m.cidIdx → joinTold m.cid m.cidIdx m.head (m.log ++ new)) :
    Tracks { m with log := m.log ++ new, atEnd := false } := by
  have hb : m.cidOffset ≤ m.log.length := h.offset_le.trans h.commit_le
  -- The entries that are added are behind the offset up to which entries are seen.
  have hnew : ∀ e ∈ new, m.log.length < e.idx := by
    intro e he
    have hmem : e ∈ (m.log ++ new).drop m.log.length := by simpa using he
    exact (hi.mem_drop.mp hmem).2
  refine ⟨rfl, hi, ?_, h.offset_le, ?_, ?_⟩
  · intro e he ht
    rcases mem_append.mp he with hold | he
    · exact h.data e hold ht
    · exact hd e he ht
  · exact h.commit_le.trans (by simp)
  · rcases h.cid with ⟨-, hu⟩ | hm
    · exact .inl ⟨hl, unseen_append hu rfl rfl rfl⟩
    rcases Nat.lt_or_ge m.log.length m.cidIdx with hlt | hge
    · have ht' := hto hlt
      refine (cid_of_joinTold hi ?_ ht').imp_left fun hu => ⟨hl, hu⟩
      intro e he ht hidx _
      exact (hb.trans_lt hlt).trans hidx
    · by_cases hc : ∃ e ∈ new, e.type = .config
      · obtain ⟨e, he, ht⟩ := hc
        have hidx := hnew e he
        refine .inl ⟨hl, hi.unseen_iff.mpr ⟨e, mem_append_right _ he, ?_, ht, ?_⟩⟩
        · exact hb.trans_lt hidx
        · exact hge.trans_lt hidx
      · push Not at hc
        exact .inr (matches_append hm rfl rfl (Nat.le_refl _) rfl hc)

theorem Tracks.truncate (h : Tracks m) (hl : m.leader = false) {offset : ℕ}
    (hc : m.commit ≤ offset) (hcut : (m.log.drop offset).any (isConfig m.cidIdx) = false ∨
      unseen { m with log := m.log.take offset } = true) :
    Tracks { m with log := m.log.take offset, atEnd := false } := by
  have hi := h.indexed.take offset
  refine ⟨rfl, hi, ?_, h.offset_le, ?_, ?_⟩
  · intro e he
    exact h.data e (mem_of_mem_take he)
  · rw [length_take]
    exact Nat.le_min.mpr ⟨hc, h.commit_le⟩
  · rcases hcut with hcut | hu
    · -- The CONFIG entries the server considers stay in the log.
      have hk : ∀ e ∈ m.log, e.type = .config → m.cidIdx < e.idx → e ∈ m.log.take offset := by
        intro e he ht hidx
        refine h.indexed.mem_take.mpr ⟨he, ?_⟩
        by_contra hgt
        have hmem : e ∈ m.log.drop offset := h.indexed.mem_drop.mpr ⟨he, by omega⟩
        exact absurd (isConfig_iff.mpr ⟨ht, hidx⟩) (any_eq_false.mp hcut e hmem)
      rcases h.cid with ⟨-, hu⟩ | hm
      · obtain ⟨e, he, ho, ht, hidx⟩ := h.indexed.unseen_iff.mp hu
        exact .inl ⟨hl, hi.unseen_iff.mpr ⟨e, hk e he ht hidx, ho, ht, hidx⟩⟩
      · right
        intro hj e he ht hlt hmax
        have hj' : m.cidIdx = 0 ∨ ∃ e ∈ m.log.take offset, e.type = .config ∧
            e.idx = m.cidIdx := holdsJoin_iff.mp hj
        refine hm (holdsJoin_iff.mpr ?_) e (mem_of_mem_take he) ht hlt ?_
        · refine hj'.imp_right ?_
          rintro ⟨x, hx, ht', hidx⟩
          exact ⟨x, mem_of_mem_take hx, ht', hidx⟩
        · intro x hx ht'
          rcases Nat.lt_or_ge m.cidIdx x.idx with hco | hle
          · exact hmax x (hk x hx ht' hco) ht'
          · rcases hj' with hz | ⟨y, hy, ht'', hidx⟩
            · have hpos := h.indexed.idx_le hx
              omega
            · exact hle.trans (hidx ▸ hmax y hy ht'')
    · exact .inl ⟨hl, hu⟩

theorem Tracks.vote (h : Tracks m) (hl : m.leader = false)
    (hcid : cid = m.cid ∨ unseen m = true) : Tracks (updateCid cid m) := by
  refine { h with cid := ?_ }
  rcases hcid with rfl | hu
  · exact h.cid
  · exact .inl ⟨hl, hu⟩

theorem Tracks.recover (h : Tracks m') (hl : m.leader = false) {r : Reply}
    {endOff commit apply : ℕ} (hh : r.head ≤ commit) (hc : commit ≤ endOff)
    (hend : endOff ≤ m'.log.length) (ht : joinTold r.cid r.cidIdx r.head (m'.log.take endOff)) :
    Tracks (recover r m'.log endOff commit apply m) := by
  have hi := h.indexed.take endOff
  refine ⟨rfl, hi, ?_, hh, ?_, ?_⟩
  · intro e he
    exact h.data e (mem_of_mem_take he)
  · change commit ≤ (m'.log.take endOff).length
    rw [length_take]
    omega
  · refine (cid_of_joinTold hi ?_ ht).imp_left fun hu => ⟨hl, hu⟩
    exact fun _ _ _ _ hlt => hlt

/-! ### Runs -/

theorem Tracks.act (h : ∀ i, Tracks (s.members i)) (hok : tracked s ev)
    (hact : act s (s.members ev.server) ev = some m') : Tracks m' := by
  have hm := h ev.server
  cases ev with
  | join i room pkt =>
    obtain rfl : room = true := hok
    obtain ⟨-, rfl⟩ := guarded_eq_some.mp hact
    exact hm.effect (effect_join _ _)
  | suspect i room suspects =>
    obtain rfl : room = true := hok
    obtain rfl := Option.some.inj hact
    exact hm.effect (effect_suspect _ _)
  | force i room target =>
    obtain rfl : room = true := hok
    obtain ⟨-, rfl⟩ := guarded_eq_some.mp hact
    exact hm.effect (effect_force _ _)
  | append i reqId cltId type data =>
    obtain ⟨⟨-, ht⟩, rfl⟩ := guarded_eq_some.mp hact
    exact hm.append_other rfl rfl rfl rfl (Nat.le_refl _) rfl rfl (.inr ⟨_, ht, rfl, rfl⟩)
  | prune i room head =>
    obtain ⟨⟨-, hlt, -⟩, rfl⟩ := guarded_eq_some.mp hact
    unfold logAppendEntry
    split_ifs
    · exact hm.append_other rfl rfl rfl rfl hlt.le rfl rfl (.inr ⟨_, by simp, rfl, rfl⟩)
    · exact hm.append_other hm.inside rfl rfl rfl hlt.le rfl rfl (.inl rfl)
  | apply i room =>
    obtain rfl : room = true := hok
    exact hm.apply hact
  | commit i offset =>
    obtain ⟨⟨hle, hlen⟩, rfl⟩ := guarded_eq_some.mp hact
    exact { hm with offset_le := hm.offset_le.trans hle, commit_le := hlen }
  | reachEnd i => exact hok.elim
  | commitOwn i offset =>
    obtain ⟨⟨hl, -, -, hlen⟩, rfl⟩ := guarded_eq_some.mp hact
    have hma : Matches (s.members i) := hm.cid.resolve_left fun hf => by
      rw [hl] at hf
      cases hf.1
    exact ⟨hm.inside, hm.indexed, hm.data, Nat.le_refl _, hlen, .inr hma⟩
  | extend i k n =>
    obtain ⟨hl, rfl⟩ := guarded_eq_some.mp hact
    refine hm.extend hl ?_ ?_ hok
    · refine hm.indexed.append fun p x hx => ?_
      rw [List.getElem?_take] at hx
      split_ifs at hx
      rw [List.getElem?_drop] at hx
      exact (h k).indexed _ _ hx
    · intro e he
      exact (h k).data e (mem_of_mem_drop (mem_of_mem_take he))
  | truncate i offset =>
    obtain ⟨⟨hl, hc⟩, rfl⟩ := guarded_eq_some.mp hact
    exact hm.truncate hl hc hok
  | poll i =>
    obtain ⟨-, rfl⟩ := guarded_eq_some.mp hact
    exact hm.poll
  | request i =>
    obtain rfl := Option.some.inj hact
    exact hm
  | vote i cid =>
    obtain ⟨⟨hl, -⟩, rfl⟩ := guarded_eq_some.mp hact
    exact hm.vote hl hok
  | elected i term =>
    obtain ⟨-, rfl⟩ := guarded_eq_some.mp hact
    exact hm.elected term
  | blank i room extended =>
    obtain rfl : room = true := hok
    obtain ⟨-, rfl⟩ := guarded_eq_some.mp hact
    exact hm.effect (effect_blank _ _)
  | stepDown i =>
    obtain rfl := Option.some.inj hact
    exact { hm with cid := hm.cid.imp_left fun hu => ⟨rfl, hu.2⟩ }
  | recover i k r source endOff commit apply =>
    obtain ⟨⟨hl, -, hh, hc, hend⟩, rfl⟩ := guarded_eq_some.mp hact
    exact (h source).recover hl hh hc hend hok

theorem tracks_step (h : ∀ i, Tracks (s.members i)) (hok : tracked s ev)
    (hs : group.step s ev = some t) (i : ℕ) : Tracks (t.members i) := by
  obtain ⟨-, m', hact, hm, -⟩ := groupStep_eq hs
  rw [hm]
  by_cases hi : i = ev.server
  · subst hi
    rw [update_self]
    exact Tracks.act h hok hact
  · rw [update_of_ne hi]
    exact h i

theorem tracks_start (size i : ℕ) : Tracks ((start size).members i) :=
  ⟨rfl, nofun, nofun, Nat.le_refl _, Nat.le_refl _, .inr fun _ _ he => nomatch he⟩

def firstReply : Reply := ⟨1, 3, ⟨1, 3, 4, .transit, 15⟩, 2, 0⟩

end VmFt.Dare.Config
