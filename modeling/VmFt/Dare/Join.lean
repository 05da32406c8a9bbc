import VmFt.Dare.ConfigShape

/-! # Join requests that are sent again

A leader that receives JOIN requests and applies its CONFIG entries as they are
committed. The test for a repeated request compares the LID of the packet with
the identifier that was stored when the server was added. If both are the same,
a server is added at most once.
-/

namespace VmFt.Dare.Config

open VmFt.System List Function

/-- A leader with the requests for which it has added a server, and the entries it has appended
while it handled a request, each with the LID of the packet. -/
structure Joining where
  leader : Member
  added : List Packet
  entries : List (ℕ × Entry)

inductive JoinOp
  | request (room : Bool) (pkt : Packet)
  | commit (offset : ℕ)
  | apply (room : Bool)

def joinStep (s : Joining) : JoinOp → Option Joining
  | .request room pkt =>
    let r := handleServerJoinRequest room pkt s.leader
    guarded (s.leader.down = false)
      { leader := r.1
        added := if r.2 then s.added ++ [pkt] else s.added
        entries := s.entries ++ (r.1.log.drop s.leader.log.length).map (Prod.mk pkt.lid) }
  | .commit offset =>
    guarded (s.leader.down = false ∧ s.leader.commit ≤ offset ∧ offset ≤ s.leader.log.length)
      { s with leader := { s.leader with commit := offset } }
  | .apply room =>
    if s.leader.down then none
    else (applyCommittedEntry room s.leader).map fun m => { s with leader := m }

def joining : System Joining JoinOp := ⟨joinStep⟩

/-- The identifier in the request is the LID of the packet, and the group is not full with the
largest number of servers. -/
def genuine (s : Joining) : JoinOp → Prop
  | .request _ pkt => pkt.lid = pkt.slid ∧ (s.leader.cid.size < maxServerCount ∨
      ∃ k < s.leader.cid.size, isServerOn s.leader.cid k = false)
  | _ => True

instance (s : Joining) (op : JoinOp) : Decidable (genuine s op) := by
  cases op <;> unfold genuine <;> infer_instance

def isUnstable (e : Entry) : Bool :=
  match e.type, e.data with
  | .config, .cid cid => cid.state != .stable
  | _, _ => false

/-- The steps of a resize that are not applied. -/
def pending (m : Member) : List Entry := (m.log.drop m.apply).filter isUnstable

/-- A configuration is unstable as long as a step of its resize is not applied. -/
structure Settled (m : Member) : Prop where
  apply_le : m.apply ≤ m.commit
  commit_le : m.commit ≤ m.log.length
  size_le : m.cid.size ≤ maxServerCount
  stable : m.cid.state = .stable → pending m = []
  unstable : m.cid.state ≠ .stable → m.cid.newSize = m.cid.size + 1 ∧
    m.cid.newSize ≤ maxServerCount ∧ (pending m).length ≤ 1

def Present (m : Member) (lid : ℕ) : Prop :=
  ∃ place < getExtendedGroupSize m.cid, isServerOn m.cid place = true ∧ m.lids place = lid

variable {s t : Joining} {m m' : Member} {room : Bool} {lid : ℕ}

theorem pending_append (h : m.apply ≤ m.log.length) {m' : Member} {e : Entry}
    (ha : m'.apply = m.apply) (hlog : m'.log = m.log ++ [e]) :
    pending m' = pending m ++ if isUnstable e then [e] else [] := by
  rw [pending, ha, hlog, drop_append_of_le_length h, filter_append]
  cases hu : isUnstable e <;> simp [hu, pending]

theorem isUnstable_config {e : Entry} {cid : Cid} (ht : e.type = .config)
    (hd : e.data = .cid cid) : isUnstable e = (cid.state != .stable) := by
  rw [isUnstable, ht, hd]

/-! ### Requests -/

theorem getExtendedGroupSize_addServer {cid : Cid} (hs : cid.state = .stable)
    (hle : cid.size ≤ maxServerCount) (place : ℕ) : getExtendedGroupSize (addServer cid place) =
      if place = cid.size then cid.size + 1 else cid.size := by
  unfold maxServerCount at hle
  unfold addServer
  dsimp only
  split_ifs with hl
  · rw [getExtendedGroupSize, if_neg (by simp)]
    have hnew : (cid.size + 1) % 256 = cid.size + 1 := Nat.mod_eq_of_lt (by omega)
    exact (if_pos (show cid.size < (cid.size + 1) % 256 by omega)).trans hnew
  · exact if_pos hs

theorem isServerOn_addServer {cid : Cid} {place i : ℕ} :
    isServerOn (addServer cid place) i = (isServerOn cid i || decide (place = i)) := by
  rw [← isServerOn_serverAdd]
  unfold addServer
  dsimp only
  split_ifs <;> rfl

theorem settled_add (h : Settled m) (hs : m.cid.state = .stable) {place : ℕ}
    (hpl : place < m.cid.size ∨ place = m.cid.size ∧ m.cid.size < maxServerCount)
    (hm : m'.cid = addServer m.cid place) (ha : m'.apply = m.apply) (hc : m'.commit = m.commit)
    (hlog : m'.log = m.log ∨ ∃ e, e.type = .config ∧ e.data = .cid m'.cid ∧
      m'.log = m.log ++ [e]) : Settled m' := by
  have hsi := h.size_le
  have hp := h.stable hs
  have hb : m.apply ≤ m.log.length := h.apply_le.trans h.commit_le
  unfold maxServerCount at *
  -- At most the new entry is a step that is not applied, and only if the group is extended.
  have hnew : pending m' = [] ∨
      m'.cid.state ≠ .stable ∧ (pending m').length ≤ 1 := by
    rcases hlog with hlog | ⟨e, ht, hd, hlog⟩
    · left
      rw [pending, ha, hlog]
      exact hp
    · rw [pending_append hb ha hlog, hp, isUnstable_config ht hd]
      by_cases hst : m'.cid.state = .stable
      · simp [hst]
      · simp [hst]
  have hlen : m.log.length ≤ m'.log.length := by
    rcases hlog with hlog | ⟨e, -, -, hlog⟩ <;> simp [hlog]
  constructor
  · rw [ha, hc]
    exact h.apply_le
  · rw [hc]
    exact h.commit_le.trans hlen
  · rw [hm]
    unfold addServer maxServerCount
    dsimp only
    split_ifs <;> exact hsi
  · intro hst
    exact hnew.resolve_right fun hne => hne.1 hst
  · intro hst
    have hsh : (pending m').length ≤ 1 := by
      rcases hnew with hnil | ⟨-, hle⟩
      · simp [hnil]
      · exact hle
    rw [hm] at hst ⊢
    unfold addServer at hst ⊢
    dsimp only at hst ⊢
    split_ifs at hst ⊢ with hl
    · dsimp only [serverAdd]
      rw [Nat.mod_eq_of_lt (by omega)]
      unfold maxServerCount
      exact ⟨rfl, by omega, hsh⟩
    · exact absurd hs hst

theorem present_add (hs : m.cid.state = .stable) (hsi : m.cid.size ≤ maxServerCount)
    {place slid : ℕ} (hp : place = m.cid.size ∨ place < m.cid.size ∧ isServerOn m.cid place = false)
    (hm : m'.cid = addServer m.cid place) (hl : m'.lids = Function.update m.lids place slid) :
    Present m' slid ∧ ∀ lid, Present m lid → Present m' lid := by
  have hext := getExtendedGroupSize_addServer hs hsi place
  have hold : getExtendedGroupSize m.cid = m.cid.size := if_pos hs
  constructor
  · refine ⟨place, ?_, ?_, ?_⟩
    · rw [hm, hext]
      split_ifs <;> omega
    · rw [hm, isServerOn_addServer]
      simp
    · rw [hl, update_self]
  · rintro lid ⟨i, hi, hon, hlid⟩
    rw [hold] at hi
    have hne : i ≠ place := by
      rintro rfl
      rcases hp with hla | ⟨-, hoff⟩
      · omega
      · rw [hon] at hoff
        cases hoff
    refine ⟨i, ?_, ?_, ?_⟩
    · rw [hm, hext]
      split_ifs <;> omega
    · rw [hm, isServerOn_addServer, hon, Bool.true_or]
    · rw [hl, update_of_ne hne, hlid]

theorem appendConfig_log (reqId cltId : ℕ) (m : Member) :
    (appendConfig room reqId cltId m).log = m.log ∨ ∃ e, e.type = .config ∧
      e.data = .cid (appendConfig room reqId cltId m).cid ∧
      (appendConfig room reqId cltId m).log = m.log ++ [e] := by
  unfold appendConfig logAppendEntry
  split_ifs
  · exact .inr ⟨_, rfl, rfl, rfl⟩
  · exact .inl rfl

theorem Settled.request (h : Settled m) {pkt : Packet} (hlid : pkt.lid = pkt.slid)
    (hp : m.cid.size < maxServerCount ∨ ∃ k < m.cid.size, isServerOn m.cid k = false) :
    Settled (handleServerJoinRequest room pkt m).1 ∧
      (∀ lid, Present m lid → Present (handleServerJoinRequest room pkt m).1 lid) ∧
      ((handleServerJoinRequest room pkt m).2 = true →
        ¬ Present m pkt.lid ∧ Present (handleServerJoinRequest room pkt m).1 pkt.lid) := by
  rcases handleServerJoinRequest_cases room pkt m with
    ⟨eps, replies, down, heq, -⟩ | ⟨eps, empty, hs, hempty, heq⟩
  · rw [heq]
    exact ⟨{ h with }, fun _ hlid => hlid, nofun⟩
  · rw [heq]
    generalize hnew : appendConfig room pkt.id pkt.slid _ = m'
    obtain ⟨hab, hf⟩ := findEmpty_spec hempty
    have hcid : m'.cid = addServer m.cid empty := by rw [← hnew, cid_appendConfig]
    have hl : m'.lids = Function.update m.lids empty pkt.slid := by
      rw [← hnew, appendConfig, logAppendEntry]
      split_ifs <;> rfl
    have ha : m'.apply = m.apply ∧ m'.commit = m.commit := by
      rw [← hnew, appendConfig, logAppendEntry]
      split_ifs <;> exact ⟨rfl, rfl⟩
    have hp' : empty = m.cid.size ∨ empty < m.cid.size ∧ isServerOn m.cid empty = false :=
      hf.imp_left And.left
    have hr : empty < m.cid.size ∨ empty = m.cid.size ∧ m.cid.size < maxServerCount := by
      rcases hf with ⟨rfl, hfu⟩ | ⟨hlt, -⟩
      · rcases hp with hlt | ⟨k, hk, hoff⟩
        · exact .inr ⟨rfl, hlt⟩
        · rw [hfu k hk] at hoff
          cases hoff
      · exact .inl hlt
    obtain ⟨hpr, hke⟩ := present_add hs h.size_le hp' hcid hl
    have hlog := @appendConfig_log room pkt.id pkt.slid
      { m with cid := addServer m.cid empty, reqId := pkt.id, cltId := pkt.lid,
               lids := Function.update m.lids empty pkt.slid, eps := eps }
    rw [hnew] at hlog
    refine ⟨settled_add h hs hr hcid ha.1 ha.2 hlog, hke, fun _ => ⟨?_, ?_⟩⟩
    · rintro ⟨i, hi, hon, hi'⟩
      rw [getExtendedGroupSize, if_pos hs] at hi
      exact hab i hi hon hi'
    · rw [hlid]
      exact hpr

/-! ### Entries that are applied -/

theorem applyConfig_cases (e : Entry) (cid : Cid) (m : Member) :
    (applyConfig room e cid m).lids = m.lids ∧ (applyConfig room e cid m).commit = m.commit ∧
    ((applyConfig room e cid m).cid = m.cid ∧ (applyConfig room e cid m).log = m.log ∨
      cid.state ≠ .stable ∧ ((applyConfig room e cid m).cid = { m.cid with state := .transit } ∨
        (applyConfig room e cid m).cid =
          (toStable (range' m.cid.newSize (m.cid.size - m.cid.newSize)) m).cid) ∧
      ((applyConfig room e cid m).log = m.log ∨ ∃ e', e'.type = .config ∧
        e'.data = .cid (applyConfig room e cid m).cid ∧
        (applyConfig room e cid m).log = m.log ++ [e'])) := by
  unfold applyConfig
  cases hcid : cid.state with
  | stable =>
    dsimp only
    obtain ⟨eps, replies, down, heq, -⟩ := udSendCltReply_eq e.cltId e.reqId m
    rw [heq]
    split_ifs <;> exact ⟨rfl, rfl, .inl ⟨rfl, rfl⟩⟩
  | extended =>
    dsimp only
    obtain ⟨eps, replies, down, heq, -⟩ := udSendCltReply_eq e.cltId e.reqId
      { m with cid := { m.cid with state := .transit } }
    rw [heq]
    split_ifs
    · exact ⟨rfl, rfl, .inl ⟨rfl, rfl⟩⟩
    all_goals
      unfold appendConfig logAppendEntry
      split_ifs
      · exact ⟨rfl, rfl, .inr ⟨nofun, .inl rfl, .inr ⟨_, rfl, rfl, rfl⟩⟩⟩
      · exact ⟨rfl, rfl, .inr ⟨nofun, .inl rfl, .inl rfl⟩⟩
  | transit =>
    dsimp only
    obtain ⟨cid', die, heq, -⟩ :=
      toStable_eq (range' m.cid.newSize (m.cid.size - m.cid.newSize)) m
    rw [heq]
    split_ifs
    · exact ⟨rfl, rfl, .inl ⟨rfl, rfl⟩⟩
    · unfold appendConfig logAppendEntry
      split_ifs
      · exact ⟨rfl, rfl, .inr ⟨nofun, .inr rfl, .inr ⟨_, rfl, rfl, rfl⟩⟩⟩
      · exact ⟨rfl, rfl, .inr ⟨nofun, .inr rfl, .inl rfl⟩⟩

theorem toStable_larger (h : m.cid.newSize = m.cid.size + 1) :
    (toStable (range' m.cid.newSize (m.cid.size - m.cid.newSize)) m).cid =
      { m.cid with state := .stable, size := m.cid.newSize, newSize := 0 } := by
  have hn : m.cid.size - m.cid.newSize = 0 := by omega
  rw [hn]
  rfl

theorem pending_cons {e : Entry} (hentry : m.log[m.apply]? = some e) :
    pending m = (if isUnstable e then [e] else []) ++
      (m.log.drop (m.apply + 1)).filter isUnstable := by
  obtain ⟨hlt, rfl⟩ := List.getElem?_eq_some_iff.mp hentry
  rw [pending, drop_eq_getElem_cons hlt, filter_cons]
  cases hu : isUnstable m.log[m.apply] <;> simp

theorem settled_resize (h : Settled m) (hlt : m.apply < m.commit) {e : Entry}
    (hentry : m.log[m.apply]? = some e) (hu : isUnstable e = true)
    (hm : m'.cid = { m.cid with state := .transit } ∨
      m'.cid = { m.cid with state := .stable, size := m.cid.newSize, newSize := 0 })
    (ha : m'.apply = m.apply + 1) (hc : m'.commit = m.commit)
    (hlog : m'.log = m.log ∨ ∃ e', e'.type = .config ∧ e'.data = .cid m'.cid ∧
      m'.log = m.log ++ [e']) : Settled m' := by
  have hp := pending_cons hentry
  rw [if_pos hu] at hp
  have hst : m.cid.state ≠ .stable := by
    intro hs
    rw [h.stable hs] at hp
    cases hp
  obtain ⟨hnew, hmax, hsh⟩ := h.unstable hst
  have hrest : (m.log.drop (m.apply + 1)).filter isUnstable = [] := by
    rw [hp] at hsh
    exact length_eq_zero_iff.mp (by simpa using hsh)
  have hb : m.apply + 1 ≤ m.log.length := hlt.trans_le h.commit_le
  -- The step that was applied is the only one, and the entry of the next one is added.
  have hp' : pending m' = [] ∨ m'.cid.state ≠ .stable ∧ (pending m').length ≤ 1 := by
    rcases hlog with hlog | ⟨e', ht, hd, hlog⟩
    · left
      rw [pending, ha, hlog]
      exact hrest
    · rw [pending, ha, hlog, drop_append_of_le_length hb, filter_append, hrest]
      by_cases hs' : m'.cid.state = .stable
      · simp [isUnstable_config ht hd, hs']
      · exact .inr ⟨hs', length_filter_le _ _⟩
  constructor
  · rw [ha, hc]
    exact hlt
  · rw [hc]
    refine h.commit_le.trans ?_
    rcases hlog with hlog | ⟨e', -, -, hlog⟩ <;> simp [hlog]
  · rcases hm with hm | hm
    · rw [hm]
      exact h.size_le
    · rw [hm]
      exact hmax
  · intro hs
    exact hp'.resolve_right fun hne => hne.1 hs
  · intro hs'
    rcases hm with hm | hm
    · have hle : (pending m').length ≤ 1 := by
        rcases hp' with hnil | ⟨-, hle⟩
        · simp [hnil]
        · exact hle
      rw [hm]
      exact ⟨hnew, hmax, hle⟩
    · rw [hm] at hs'
      exact absurd rfl hs'

theorem present_resize (hnew : m.cid.newSize = m.cid.size + 1) (hs : m.cid.state ≠ .stable)
    (hm : m'.cid = { m.cid with state := .transit } ∨
      m'.cid = { m.cid with state := .stable, size := m.cid.newSize, newSize := 0 })
    (hl : m'.lids = m.lids) (h : Present m lid) : Present m' lid := by
  obtain ⟨i, hi, hon, hlid⟩ := h
  have hlt : m.cid.size < m.cid.newSize := by omega
  rw [getExtendedGroupSize, if_neg hs, if_pos hlt] at hi
  refine ⟨i, ?_, ?_, by rw [hl, hlid]⟩
  · rcases hm with hm | hm
    · rw [hm, getExtendedGroupSize, if_neg (by simp)]
      exact hi.trans_eq (if_pos hlt).symm
    · rw [hm]
      exact hi
  · rcases hm with hm | hm <;> rw [hm] <;> exact hon

theorem Settled.apply (h : Settled m) (ha : applyCommittedEntry room m = some m') :
    Settled m' ∧ ∀ lid, Present m lid → Present m' lid := by
  obtain ⟨hlt, e, next, hentry, hn, rfl⟩ := applyCommittedEntry_cases ha
  have hc : next.lids = m.lids ∧ next.commit = m.commit ∧
      (next.cid = m.cid ∧ next.log = m.log ∨ isUnstable e = true ∧
        (next.cid = { m.cid with state := .transit } ∨ next.cid =
          (toStable (range' m.cid.newSize (m.cid.size - m.cid.newSize)) m).cid) ∧
        (next.log = m.log ∨ ∃ e', e'.type = .config ∧ e'.data = .cid next.cid ∧
          next.log = m.log ++ [e'])) := by
    rcases hn with ⟨cid, -, ht, hd, rfl⟩ | rfl
    · rw [isUnstable_config ht hd, bne_iff_ne]
      exact applyConfig_cases e cid m
    · exact ⟨rfl, rfl, .inl ⟨rfl, rfl⟩⟩
  have hp := pending_cons hentry
  obtain ⟨hl, hco, ⟨hcid, hlog⟩ | ⟨hu, hcid, hlog⟩⟩ := hc
  · -- The steps that are not applied become fewer.
    have hrest : pending { next with apply := m.apply + 1 } =
        (m.log.drop (m.apply + 1)).filter isUnstable := by rw [pending, hlog]
    constructor
    · constructor
      · exact hlt.trans_eq hco.symm
      · exact hco.trans_le (h.commit_le.trans_eq (congrArg _ hlog.symm))
      · exact (congrArg Cid.size hcid).trans_le h.size_le
      · intro hs
        have hnil := h.stable ((congrArg Cid.state hcid).symm.trans hs)
        rw [hp] at hnil
        rw [hrest]
        exact (append_eq_nil_iff.mp hnil).2
      · intro hst
        obtain ⟨hnew, hmax, hsh⟩ := h.unstable fun hs =>
          hst ((congrArg Cid.state hcid).trans hs)
        rw [hp, length_append] at hsh
        rw [hrest]
        dsimp only
        rw [hcid]
        exact ⟨hnew, hmax, by omega⟩
    · rintro lid ⟨i, hi, hon, hlid⟩
      rw [← hcid] at hi hon
      rw [← hl] at hlid
      exact ⟨i, hi, hon, hlid⟩
  · have hst : m.cid.state ≠ .stable := by
      intro hs
      rw [h.stable hs, if_pos hu] at hp
      cases hp
    have hnew := (h.unstable hst).1
    rw [toStable_larger hnew] at hcid
    exact ⟨settled_resize h hlt hentry hu hcid rfl hco hlog,
      fun lid => present_resize hnew hst hcid hl⟩

/-! ### Runs -/

theorem length_entries (room : Bool) (pkt : Packet) (m : Member) :
    ((handleServerJoinRequest room pkt m).1.log.drop m.log.length).length ≤
      if (handleServerJoinRequest room pkt m).2 then 1 else 0 := by
  rcases handleServerJoinRequest_cases room pkt m with
    ⟨eps, replies, down, heq, -⟩ | ⟨eps, empty, -, -, heq⟩
  · rw [heq]
    simp
  · rw [heq, if_pos rfl, appendConfig, logAppendEntry]
    split_ifs <;> simp

structure Joined (s : Joining) : Prop where
  settled : Settled s.leader
  present : ∀ pkt ∈ s.added, Present s.leader pkt.lid
  once : ∀ lid, (s.added.filter (·.lid = lid)).length ≤ 1
  entries : ∀ lid, (s.entries.filter (·.1 = lid)).length ≤ (s.added.filter (·.lid = lid)).length

theorem length_filter_entries (lid lid' : ℕ) (es : List Entry) :
    ((es.map (Prod.mk lid)).filter (·.1 = lid')).length = if lid = lid' then es.length else 0 := by
  split_ifs with heq
  · rw [filter_eq_self.mpr (by simp [heq]), length_map]
  · rw [filter_eq_nil_iff.mpr (by simp [heq]), length_nil]

theorem Joined.request (h : Joined s) {pkt : Packet} (hok : genuine s (.request room pkt))
    (hst : joinStep s (.request room pkt) = some t) : Joined t := by
  obtain ⟨-, rfl⟩ := guarded_eq_some.mp hst
  have hr : Settled (handleServerJoinRequest room pkt s.leader).1 ∧ _ :=
    h.settled.request hok.1 hok.2
  obtain ⟨hs, hk, had⟩ := hr
  have hlen := length_entries room pkt s.leader
  have he : ∀ lid, ((s.entries ++ ((handleServerJoinRequest room pkt s.leader).1.log.drop
      s.leader.log.length).map (Prod.mk pkt.lid)).filter (·.1 = lid)).length ≤
      (s.added.filter (·.lid = lid)).length +
        if pkt.lid = lid ∧ (handleServerJoinRequest room pkt s.leader).2 = true then 1 else 0 := by
    intro lid
    rw [filter_append, length_append, length_filter_entries]
    refine Nat.add_le_add (h.entries lid) ?_
    split_ifs at hlen ⊢ <;> simp_all
  cases hnew : (handleServerJoinRequest room pkt s.leader).2 with
  | false =>
    refine ⟨hs, fun p hp => hk _ (h.present p ?_), ?_, ?_⟩
    · simpa [hnew] using hp
    · simpa [hnew] using h.once
    · simpa [hnew] using he
  | true =>
    obtain ⟨ha, hpr⟩ := had hnew
    -- A packet with this LID has not been added before: its server would be present.
    have hfirst : ∀ lid, pkt.lid = lid → (s.added.filter (·.lid = lid)).length = 0 := by
      rintro lid rfl
      rw [length_eq_zero_iff, filter_eq_nil_iff]
      intro p hp heq
      have hlid : p.lid = pkt.lid := by simpa using heq
      exact ha (hlid ▸ h.present p hp)
    have hc : ∀ lid, ((s.added ++ [pkt]).filter (·.lid = lid)).length =
        (s.added.filter (·.lid = lid)).length + if pkt.lid = lid then 1 else 0 := by
      intro lid
      rw [filter_append, length_append]
      split_ifs with heq <;> simp [heq]
    refine ⟨hs, ?_, ?_, ?_⟩
    · intro p hp
      rw [if_pos rfl] at hp
      rcases mem_append.mp hp with hp | hp
      · exact hk _ (h.present p hp)
      · rw [mem_singleton.mp hp]
        exact hpr
    · intro lid
      rw [if_pos rfl, hc]
      split_ifs with heq
      · rw [hfirst lid heq]
      · exact h.once lid
    · intro lid
      rw [if_pos rfl, hc]
      simpa [hnew] using he lid

theorem Joined.step {op : JoinOp} (h : Joined s) (hok : genuine s op)
    (hst : joinStep s op = some t) : Joined t := by
  cases op with
  | request room pkt => exact h.request hok hst
  | commit offset =>
    obtain ⟨⟨-, hle, hlen⟩, rfl⟩ := guarded_eq_some.mp hst
    have hs := h.settled
    exact ⟨⟨hs.apply_le.trans hle, hlen, hs.size_le, hs.stable, hs.unstable⟩, h.present, h.once,
      h.entries⟩
  | apply room =>
    unfold joinStep at hst
    dsimp only at hst
    split_ifs at hst
    obtain ⟨m, ha, rfl⟩ := Option.map_eq_some_iff.mp hst
    obtain ⟨hse, hk⟩ := h.settled.apply ha
    exact ⟨hse, fun pkt hpkt => hk _ (h.present pkt hpkt), h.once, h.entries⟩

/-- However often the requests are sent again, the leader adds the server with a LID at most once
and appends at most one entry for its requests. -/
theorem added_once (m : Member) (hm : Settled m)
    (hrun : joining.Run genuine ⟨m, [], []⟩ s) (lid : ℕ) :
    (s.added.filter (·.lid = lid)).length ≤ 1 ∧ (s.entries.filter (·.1 = lid)).length ≤ 1 := by
  have hjoined : Joined s := by
    refine hrun.invariant ⟨hm, nofun, fun _ => Nat.zero_le _, fun _ => Nat.le_refl _⟩ ?_
    exact fun _ _ _ h hok hstep => h.step hok hstep
  exact ⟨hjoined.once lid, (hjoined.entries lid).trans (hjoined.once lid)⟩

def leaderOfThree : Member := { initialMember 3 0 with leader := true, term := 1 }

theorem settled_leaderOfThree : Settled leaderOfThree :=
  ⟨by decide, by decide, by decide, fun _ => rfl, fun h => absurd rfl h⟩

/-- A request that is received again before its entry is committed and after the resize. -/
theorem added_once_again : ∃ s, joining.Run genuine ⟨leaderOfThree, [], []⟩ s ∧
      (s.leader.cid = ⟨1, 4, 0, .stable, 15⟩ ∧ s.leader.replies.length = 2) ∧
      (s.added.filter (·.lid = 9)).length ≤ 1 ∧ (s.entries.filter (·.1 = 9)).length ≤ 1 := by
  obtain ⟨s, hrun, hs⟩ := System.exists_run_of_exec (M := joining)
    (s := ⟨leaderOfThree, [], []⟩) genuine
    (p := fun s => s.leader.cid = ⟨1, 4, 0, .stable, 15⟩ ∧ s.leader.replies.length = 2)
    [.request true ⟨9, 9, 1⟩, .request true ⟨9, 9, 1⟩, .commit 1, .apply true, .commit 2,
      .apply true, .request true ⟨9, 9, 1⟩] (by decide +kernel)
  exact ⟨s, hrun, hs, added_once leaderOfThree settled_leaderOfThree hrun 9⟩

/-- The identifier in the request is not the LID of the packet: the server is added again when its
request is received after the resize. -/
theorem added_twice : ∃ s, joining.Run anyStep ⟨leaderOfThree, [], []⟩ s ∧
      s.added = [⟨9, 5, 1⟩, ⟨9, 5, 1⟩] ∧ (s.entries.filter (·.1 = 9)).length = 2 ∧
      s.leader.cid = ⟨2, 4, 5, .extended, 31⟩ := by
  exact System.exists_run_of_exec (M := joining) (s := ⟨leaderOfThree, [], []⟩) anyStep
    (p := fun s => s.added = [⟨9, 5, 1⟩, ⟨9, 5, 1⟩] ∧ (s.entries.filter (·.1 = 9)).length = 2 ∧
      s.leader.cid = ⟨2, 4, 5, .extended, 31⟩)
    [.request true ⟨9, 5, 1⟩, .commit 1, .apply true, .commit 2, .apply true,
      .request true ⟨9, 5, 1⟩] (by decide +kernel)

end VmFt.Dare.Config
