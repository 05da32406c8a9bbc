import VmFt.Dare.ServerLog
import VmFt.Dare.Config
import VmFt.Dare.Entries
import VmFt.Dare.HeadEntries
import VmFt.Dare.SmRecovery
import VmFt.Dare.Submit

/-! # The ring behind the logs

The group, the configuration, the recovery and the submitting threads are
modelled over logs that are sequences of entries, with offsets that count them.
A ring with room for what is appended is such a sequence: an append adds the
same entry to both, pruning takes entries from the front of the ring only, what
is read behind `n` entries is the entry number `n`, and offsets compare as the
numbers of entries in front of them. The models that poll or apply a CONFIG entry
do the same with it.
-/

namespace VmFt.Dare.Ring

open Spool VmFt.System List Option

variable {α : Type*} {R : Item → α → Prop} {s t : Queue} {log : List α} {log' : Log} {e : α}
  {p n k : ℕ} {term reqId cltId ret : ℕ} {body : EntryBody}

/-- The entries in the ring are the last ones of the log; those in front have been pruned. -/
structure Represents (R : Item → α → Prop) (s : Queue) (log : List α) : Prop where
  kept : Kept s
  items : ∃ pruned rest, log = pruned ++ rest ∧ Forall₂ R s.items rest
  fresh : Fresh s → log = []

theorem represents_start (R : Item → α → Prop) (len : ℕ) : Represents R (start len) [] where
  kept := .inl ⟨rfl, rfl, rfl, rfl⟩
  items := ⟨[], [], rfl, .nil⟩
  fresh _ := rfl

theorem Holds.not_fresh (h : Holds s p) : ¬ Fresh s := fun hf =>
  h.tail_lt.ne hf.tail

theorem Represents.append (h : Represents R s log) (hr : HasRoom s.log body.len)
    (happ : logAppendEntry s.log term reqId cltId body = some (log', ret)) (hret : ret ≠ 0)
    (he : R ⟨ret, term, reqId, cltId, body⟩ e) :
    Represents R ⟨log', s.items ++ [⟨ret, term, reqId, cltId, body⟩], true⟩ (log ++ [e]) := by
  obtain ⟨q, hq⟩ : ∃ q, Holds ⟨log', s.items ++ [⟨ret, term, reqId, cltId, body⟩], true⟩ q := by
    obtain ⟨-, ⟨hf, hh⟩ | ⟨q, -, hh, -⟩⟩ := h.kept.append hr happ hret
    · exact ⟨0, by rwa [hf.items]⟩
    · exact ⟨q, hh⟩
  obtain ⟨pruned, rest, rfl, hi⟩ := h.items
  refine ⟨.inr ⟨q, hq⟩, ⟨pruned, rest ++ [e], append_assoc .., ?_⟩,
    fun hf => absurd hf hq.not_fresh⟩
  exact rel_append hi (.cons he .nil)

theorem Represents.advance (h : Represents R s log) {settled : Bool}
    (hst : ring.step s (.advance n settled) = some t) : Represents R t log := by
  have hk : Kept t := h.kept.step (by trivial) hst
  obtain ⟨offset, hs, rfl⟩ := map_eq_some_iff.mp hst
  obtain ⟨pruned, rest, rfl, hi⟩ := h.items
  refine ⟨hk, ⟨pruned ++ rest.take n, rest.drop n, ?_, forall₂_drop n hi⟩, fun hf => ?_⟩
  · rw [append_assoc, take_append_drop]
  · rcases h.kept with hf' | ⟨p, hh⟩
    · exact h.fresh hf'
    · exact absurd hf.tail hh.tail_lt.ne

/-! ### Reading -/

/-- The position behind the first `n` entries. -/
def Queue.boundary (s : Queue) (p n : ℕ) : ℕ := finish s.log.len p (lens (s.items.take n))

theorem Represents.read (h : Represents R s log) (hh : Holds s p) (hn : n < s.items.length) :
    ∃ off it e, logGetEntry s.log (s.boundary p n % s.log.len) = some off ∧
      Headed s.log off it ∧ log[log.length - s.items.length + n]? = some e ∧ R it e := by
  have hr := hh.reaches
  rw [← take_append_drop n s.items, drop_eq_getElem_cons hn] at hr
  obtain ⟨pruned, rest, rfl, hi⟩ := h.items
  have hl := hi.length_eq
  refine ⟨_, s.items[n], rest[n], hr.drop.logGetEntry_cons, hr.drop.laid.1.headed, ?_,
    hi.get hn (hl ▸ hn)⟩
  rw [length_append, hl, Nat.add_sub_cancel, getElem?_append_right (Nat.le_add_right ..),
    Nat.add_sub_cancel_left, getElem?_eq_getElem]

theorem Holds.boundary_lt (h : Holds s p) (hn : n < k) (hk : k ≤ s.items.length) :
    s.boundary p n < s.boundary p k := by
  obtain ⟨m, rfl⟩ := Nat.exists_eq_add_of_lt hn
  unfold Queue.boundary
  rw [add_assoc, take_add, lens_append, finish_append, drop_eq_getElem_cons (by omega),
    take_succ_cons, lens_cons, finish_cons]
  exact (lt_behind h.reaches.len_pos (len_pos _)).trans_le (le_finish h.reaches.len_pos)

theorem Holds.logIsOffsetLarger_iff (h : Holds s p) (hn : n ≤ s.items.length)
    (hk : k ≤ s.items.length) : logIsOffsetLarger s.log (s.boundary p k % s.log.len)
      (s.boundary p n % s.log.len) = true ↔ n < k := by
  have hlo : ∀ m, p ≤ s.boundary p m := fun m => le_finish h.reaches.len_pos
  have hhi : ∀ m, s.boundary p m ≤ finish s.log.len p (lens s.items) := by
    intro m
    conv_rhs => rw [← take_append_drop m s.items, lens_append, finish_append]
    exact le_finish h.reaches.len_pos
  rw [h.reaches.logIsOffsetLarger_iff (hlo n) (hlo k) (hhi n) (hhi k)]
  refine ⟨fun hlt => ?_, fun hlt => h.boundary_lt hlt hk⟩
  by_contra hle
  rcases (not_lt.mp hle).eq_or_lt with rfl | hgt
  · exact hlt.ne rfl
  · exact (h.boundary_lt hgt hn).asymm hlt

/-! ### The logs of the group -/

section Entries

variable {type : EntryType} {data : EntryData} {entries : List Entry}

/-- What the group knows of the data of an entry; the offset in a HEAD entry counts bytes here and
entries there. -/
def EntryBody.Is : EntryBody → EntryType → EntryData → Prop
  | .noop, type, data => type = .noop ∧ data = .none
  | .config cid, type, data => type = .config ∧ data = .cid cid
  | .head _, type, _ => type = .head
  | .cmd _ c, type, data => type ≠ .noop ∧ type ≠ .config ∧ type ≠ .head ∧ data = .cmd c.cmd

structure Item.Is (it : Item) (e : Entry) : Prop where
  idx : it.idx = e.idx
  idx_lt : e.idx < 2 ^ 64
  term : it.term = e.term
  reqId : it.reqId = e.reqId
  cltId : it.cltId = e.cltId
  body : it.body.Is e.type e.data

theorem Represents.ret_eq (h : Represents Item.Is s entries) (hr : HasRoom s.log body.len)
    (happ : logAppendEntry s.log term reqId cltId body = some (log', ret)) (hret : ret ≠ 0) :
    ret = Config.nextIdx entries := by
  rcases h.kept with hf | ⟨p, hh⟩
  · rw [hf.append hr] at happ
    rw [h.fresh hf, ← (Prod.mk.inj (Option.some.inj happ)).2]
    rfl
  · by_cases hne : s.items = []
    · rw [hh.append_nil hne] at happ
      cases happ
      exact absurd rfl hret
    · obtain ⟨items, it, hi⟩ := (eq_nil_or_concat' s.items).resolve_left hne
      rw [hh.append hi hne hr] at happ
      obtain ⟨pruned, rest, rfl, hrel⟩ := h.items
      rw [hi] at hrel
      have hrev := forall₂_reverse_iff.mpr hrel
      rw [reverse_concat] at hrev
      obtain ⟨e, rest', he, -, hrest⟩ := forall₂_cons_left_iff.mp hrev
      obtain rfl : rest = rest'.reverse ++ [e] := by
        rw [← reverse_reverse rest, hrest, reverse_cons]
      rw [← (Prod.mk.inj (Option.some.inj happ)).2, Config.nextIdx, ← append_assoc,
        getLast?_concat, he.idx, Nat.mod_eq_of_lt he.idx_lt]

/-- An append to the ring is the append of the configuration's model, which has room exactly if
the ring takes the entry. -/
theorem Represents.config (m : Config.Member) (h : Represents Item.Is s m.log)
    (hin : m.atEnd = false) (hr : HasRoom s.log body.len) (hb : body.Is type data)
    (hlt : Config.nextIdx m.log < 2 ^ 64)
    (hst : ring.step s (.append m.term reqId cltId body) = some t) : ∃ room,
      Represents Item.Is t (Config.logAppendEntry room reqId cltId type data m).log := by
  obtain ⟨⟨log', ret⟩, happ, rfl⟩ := map_eq_some_iff.mp hst
  by_cases hret : ret = 0
  · subst hret
    obtain rfl := h.kept.refused hr happ
    exact ⟨false, h⟩
  · dsimp only
    rw [if_neg hret]
    refine ⟨true, ?_⟩
    rw [Config.logAppendEntry, if_pos rfl, Config.Member.found_of_inside hin]
    exact h.append hr happ hret ⟨h.ret_eq hr happ hret, hlt, rfl, rfl, rfl, hb⟩

/-- A log that ends with its buffer is an empty one for the next append. -/
theorem ret_of_filled {log : Log} (hempty : isLogEmpty log = true)
    (happ : logAppendEntry log term reqId cltId body = some (log', ret)) :
    ret = 0 ∨ ret = Config.nextIdx [] := by
  obtain ⟨tail, -, hp⟩ := map_eq_some_iff.mp happ
  have hget : logGetEntry { log with tail := tail } tail = none := if_pos hempty
  rw [hget] at hp
  have hidx := placeEntry_ret { log with tail := tail } 1 term reqId cltId body
  rwa [show placeEntry { log with tail := tail } 1 term reqId cltId body = (log', ret) from hp]
    at hidx

/-- The entries of a log of the group up to its end. -/
def held (log : Dare.Log) : List Entry := (range log.endOff).map log.entries

theorem held_push {log : Dare.Log} (hne : log.endOff ≠ log.len) (e : Entry) :
    held (log.push e) = held log ++ [e] := by
  have hnew := Log.newOffset_eq hne
  rw [held, show (log.push e).endOff = log.endOff + 1 from congrArg (· + 1) hnew, range_succ,
    map_append, map_singleton, held]
  refine congrArg₂ _ (map_congr_left fun k hk => ?_) ?_
  · exact Log.push_entries_of_ne _ _ (hnew ▸ (mem_range.mp hk).ne)
  · rw [← hnew, Log.push_entries_new]

theorem nextIdx_held (log : Dare.Log) : Config.nextIdx (held log) = Dare.nextIdx log := by
  unfold Config.nextIdx held Dare.nextIdx
  cases log.endOff with
  | zero => rfl
  | succ n => rw [range_succ, map_append, map_singleton, getLast?_concat]; rfl

/-- In its first lap a log of the group is extended as its ring is. -/
theorem Represents.group {log : Dare.Log} (h : Represents Item.Is s (held log))
    (ht : ∀ x, log.tail = some x → x + 1 = log.endOff) (hne : log.endOff ≠ log.len)
    (hr : HasRoom s.log body.len) (hb : body.Is type data) (hlt : Dare.nextIdx log < 2 ^ 64)
    (happ : logAppendEntry s.log term reqId cltId body = some (log', ret)) (hret : ret ≠ 0) :
    Represents Item.Is ⟨log', s.items ++ [⟨ret, term, reqId, cltId, body⟩], true⟩
      (held (Dare.logAppendEntry log term reqId cltId type data)) := by
  obtain ⟨idx, heq, -, hidx⟩ := exists_logAppendEntry ht
  have hi := h.ret_eq hr happ hret
  rw [nextIdx_held] at hi
  rw [heq, hidx hne, held_push hne]
  exact h.append hr happ hret ⟨hi, hlt, rfl, rfl, rfl, hb⟩

/-- In its first lap the offsets of a log of the group compare as those of its ring. -/
theorem Holds.logIsOffsetLarger_group {log : Dare.Log} (h : Holds s p)
    (hlen : s.items.length = log.endOff) (hne : log.endOff ≠ log.len) (hn : n ≤ log.endOff)
    (hk : k ≤ log.endOff) : logIsOffsetLarger s.log (s.boundary p k % s.log.len)
      (s.boundary p n % s.log.len) = Dare.logIsOffsetLarger log k n := by
  rw [Bool.eq_iff_iff, h.logIsOffsetLarger_iff (hlen ▸ hn) (hlen ▸ hk), Dare.logIsOffsetLarger,
    decide_eq_true_eq, Dare.logOffsetEndDistance, Dare.logOffsetEndDistance, if_pos hn, if_pos hk]
  by_cases h0 : log.endOff = 0
  · simp only [Dare.isLogEmpty, h0, beq_self_eq_true, Bool.true_or, if_true]
    omega
  · rw [if_neg (by simp [Dare.isLogEmpty, h0, hne]), if_neg (by simp [Dare.isLogEmpty, h0, hne])]
    omega

end Entries

/-! ### Configurations -/

section Scan

variable {srv : Polled} {m : Config.Member} {off : ℕ} {cid : Cid} {e : Entry}

/-- What the two models of `poll_config_entries` know of a server is the same. -/
structure Mirrors (srv : Polled) (m : Config.Member) : Prop where
  idx : srv.idx = m.idx
  cid : srv.cid = m.cid
  cidIdx : srv.cidIdx = m.cidIdx
  reqId : srv.reqId = m.reqId
  cltId : srv.cltId = m.cltId
  down : srv.down = m.down

/-- Both take over a CONFIG entry alike, and both end with a server that it removes. -/
theorem Mirrors.pollConfig (h : Mirrors srv m) (hd : m.down = false)
    (he : e.type = .config ∧ e.data = .cid cid) (hcid : entryCid srv.log off = cid)
    (hidx : entryIdx srv.log off = e.idx) (hreq : entryReqId srv.log off = e.reqId)
    (hclt : entryCltId srv.log off = e.cltId) :
    Mirrors (pollConfig srv off) (Config.pollEntry m e) ∨
      (pollConfig srv off).down = true ∧ (Config.pollEntry m e).down = true := by
  unfold Ring.pollConfig Config.pollEntry updateCid Config.updateCid
  rw [he.1, he.2, hcid, hidx, h.idx, h.cid, h.cidIdx]
  dsimp only
  by_cases hnew : m.cidIdx < e.idx ∧ m.cid ≠ cid
  · rw [if_pos hnew, if_pos hnew]
    cases hr : Config.removes m.idx m.cid cid with
    | true => exact .inr ⟨rfl, by simp⟩
    | false =>
      have hs : srv.down = false := h.down.trans hd
      simp only [Bool.false_eq_true, if_false, hs, Bool.or_false]
      exact .inl ⟨rfl, rfl, rfl, hreq, hclt, hd.symm⟩
  · rw [if_neg hnew, if_neg hnew]
    exact .inl h

/-- Applying an entry moves the apply offset as it does in the recovery of the state machine. -/
theorem applyCommittedEntry_recovery (room : Bool) {m : Config.Member} {srv : SmRecovery.Server}
    (hlog : srv.log = m.found) (ha : srv.apply = m.apply) (hc : srv.commit = m.commit) :
    (Config.applyCommittedEntry room m).map (·.apply) =
      (SmRecovery.applyCommittedEntry srv).map (·.apply) := by
  unfold Config.applyCommittedEntry SmRecovery.applyCommittedEntry
  rw [hlog, ha, hc]
  by_cases hlt : m.apply < m.commit
  · rw [if_pos hlt, if_pos hlt, Option.map_map, Option.map_map]
    congr 1
    funext e
    dsimp only [Function.comp]
    cases SmRecovery.command e <;> rfl
  · rw [if_neg hlt, if_neg hlt]
    rfl

end Scan

/-! ### Submitted requests -/

section Requests

open Submit

/-- Every request of the queue finds room when its turn comes. -/
def RoomForAll (term : ℕ) : Log → List TailqEntry → Prop
  | _, [] => True
  | log, n3 :: tailq => HasRoom log (EntryBody.cmd n3.type n3.cmd).len ∧
    ∀ log' ret, appendRequest term log n3 = some (log', ret) → RoomForAll term log' tailq

def Item.IsLogged (it : Item) (e : LogEntry) : Prop :=
  it.reqId = e.reqId ∧ it.cltId = e.cltId ∧ it.body = e.body

/-- The requests that the ring takes are those that the model of the submitting threads appends. -/
theorem Represents.requests {tailq : List TailqEntry} {log : List LogEntry} {last : ℕ}
    {s' : Intake} (h : Represents Item.IsLogged s log) (hr : RoomForAll term s.log tailq)
    (hrun : getTailqMessageLoop term s.log last tailq = some s') (number : ℕ) :
    ∃ accepted items appended, Represents Item.IsLogged ⟨s'.log, items, appended⟩
      (log ++ queuedEntries number tailq accepted) := by
  induction tailq generalizing s log last number with
  | nil =>
    obtain rfl := Option.some.inj hrun
    exact ⟨[], s.items, s.appended, by rwa [queuedEntries, append_nil]⟩
  | cons n3 tailq ih =>
    rw [getTailqMessageLoop] at hrun
    cases happ : appendRequest term s.log n3 with
    | none =>
      rw [happ] at hrun
      cases hrun
    | some res =>
      obtain ⟨log', ret⟩ := res
      rw [happ] at hrun
      have hrest := hr.2 log' ret happ
      by_cases hret : ret = 0
      · subst hret
        obtain rfl := h.kept.refused hr.1 happ
        obtain ⟨accepted, items, appended, hq⟩ := ih h hrest hrun (number + 1)
        exact ⟨false :: accepted, items, appended, hq⟩
      · have hnew := h.append (e := requestEntry n3 number) hr.1 happ hret ⟨rfl, rfl, rfl⟩
        obtain ⟨accepted, items, appended, hq⟩ := ih hnew hrest hrun (number + 1)
        exact ⟨true :: accepted, items, appended, by rwa [append_assoc] at hq⟩

end Requests

end VmFt.Dare.Ring
