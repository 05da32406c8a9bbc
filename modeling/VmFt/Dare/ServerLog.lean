import VmFt.Dare.RingQueue
import VmFt.Dare.RingTrail

/-! # The log of a server through changes of leadership

What happens to the log of one server: it appends entries itself, and while it is not
leader another server cuts off and extends its log by RDMA. The offset of the last entry
is cached when the server appends and forgotten by `hb_receive_cb`; remote writes do not
touch it. As long as no remote write finds it set, the entries are numbered one after
the other.
-/

namespace VmFt.Dare.Ring

open Spool VmFt.System List Option

/-- A log with the entries between its head and its end, and those that lie behind its end. -/
structure ServerLog where
  log : Log
  items : List Item
  rest : List Item
  /-- The number of entries in front of the commit and of the apply offset. -/
  committed : ℕ
  applied : ℕ
  leads : Bool

/-- The entries that the buffer holds from the head on. -/
def ServerLog.all (s : ServerLog) : List Item := s.items ++ s.rest

/-- The offset behind the first `n` entries. -/
def ServerLog.boundary (s : ServerLog) (n : ℕ) : ℕ :=
  finish s.log.len s.log.head (lens (s.all.take n)) % s.log.len

/-- The index of the entry `it'` is the next one. -/
def Follows (it it' : Item) : Prop := it'.idx = it.idx % 2 ^ 64 + 1

instance (it it' : Item) : Decidable (Follows it it') := inferInstanceAs (Decidable (_ = _))

/-- An entry is written behind the end of the log, as `log_append_entry` lays it out. -/
def layItem (log : Log) (it : Item) : Log :=
  place log (stubbed log it) (roomOffset log it.body.len) it

def HasRooms : Log → List Item → Prop
  | _, [] => True
  | log, it :: items => HasRoom log it.body.len ∧ HasRooms (layItem log it) items

instance decidableHasRooms : (log : Log) → (items : List Item) → Decidable (HasRooms log items)
  | _, [] => inferInstanceAs (Decidable True)
  | log, it :: items =>
    haveI := decidableHasRooms (layItem log it) items
    inferInstanceAs (Decidable (HasRoom log it.body.len ∧ HasRooms (layItem log it) items))

/-- What happens to the log. The boundaries that offsets are moved to are given by the number of
entries in front of them. -/
inductive LogEvent
  | append (term reqId cltId : ℕ) (body : EntryBody)
  | win
  | hbReceive (stays : Bool)
  | vote
  | verifyLeadership
  | writeEntries (new : List Item)
  | writeEnd (n : ℕ)
  | commit (n : ℕ)
  | apply (n : ℕ)
  | prune (n : ℕ) (settled : Bool)

def logStep (s : ServerLog) : LogEvent → Option ServerLog
  -- requests of the proxy are appended in any role
  | .append term reqId cltId body =>
    (logAppendEntry s.log term reqId cltId body).map fun (log, ret) =>
      if ret = 0 then { s with log := log }
      else { s with log := log, items := s.items ++ [⟨ret, term, reqId, cltId, body⟩], rest := [] }
  | .win => some { s with leads := true }
  | .hbReceive stays =>
    some { s with log := { s.log with tail := s.log.len }, leads := s.leads && stays }
  | .vote | .verifyLeadership => some { s with leads := false }
  -- the entries of a leader are numbered one after the other and continue the log
  | .writeEntries new =>
    guarded (s.leads = false ∧ (s.items ++ new).IsChain Follows)
      { s with
        log := { s.log with entries := (new.foldl layItem s.log).entries }
        rest := new }
  -- no committed entry is cut off
  | .writeEnd n =>
    guarded (s.leads = false ∧ s.committed ≤ n)
      { s with
        log := { s.log with endOff := s.boundary n }
        items := s.all.take n
        rest := s.all.drop n }
  | .commit n =>
    guarded (s.committed ≤ n ∧ n ≤ s.items.length)
      { s with log := { s.log with commit := s.boundary n }, committed := n }
  | .apply n =>
    guarded (s.applied ≤ n ∧ n ≤ s.committed)
      { s with log := { s.log with apply := s.boundary n }, applied := n }
  -- the head may be moved to the last entry under the name of `log_get_tail`
  | .prune n settled =>
    guarded (n < s.items.length ∧ n ≤ s.applied ∧ (settled = true → n < s.applied))
      { s with
        log := { s.log with
          head := if settled then settle s.log (s.boundary n) else s.boundary n }
        items := s.items.drop n
        committed := s.committed - n
        applied := s.applied - n }

def serverLog : System ServerLog LogEvent := ⟨logStep⟩

def newServerLog (len : ℕ) : ServerLog := ⟨logNew len, [], [], 0, 0, false⟩

/-- Every entry finds room, and another server writes into the log only while the offset of the last
entry is not cached. -/
def tailUnset (s : ServerLog) : LogEvent → Prop
  | .append _ _ _ body => HasRoom s.log body.len
  | .writeEntries new => s.log.tail = s.log.len ∧ HasRooms s.log new
  | .writeEnd _ => s.log.tail = s.log.len
  | _ => True

/-- Every entry finds room. -/
def roomForAll (s : ServerLog) : LogEvent → Prop
  | .append _ _ _ body => HasRoom s.log body.len
  | .writeEntries new => HasRooms s.log new
  | _ => True

instance (s : ServerLog) (e : LogEvent) : Decidable (tailUnset s e) := by
  cases e <;> unfold tailUnset <;> infer_instance

instance (s : ServerLog) (e : LogEvent) : Decidable (roomForAll s e) := by
  cases e <;> unfold roomForAll <;> infer_instance

def nextIdx (items : List Item) : ℕ :=
  match items.getLast? with
  | some it => it.idx % 2 ^ 64 + 1
  | none => 1

/-- The last entry is the one at the offset `t`: it is found there and the log ends behind it. -/
def LastAt (s : ServerLog) (t : ℕ) : Prop :=
  match s.items.getLast? with
  | some it => Headed s.log t it ∧ logGetEntry s.log t = some t ∧ nextOffset s.log t = s.log.endOff
  | none => t = s.log.len

variable {len p : ℕ} {s t : ServerLog} {log : Log} {it : Item} {items init new : List Item}

/-! ### Positions and offsets -/

theorem finish_mod (len p : ℕ) (ls : List ℕ) :
    finish len (p % len) ls % len = finish len p ls % len := by
  have hsl : ∀ p l, slot len (p % len) l % len = slot len p l % len := by
    intro p l
    rw [slot_mod, slot_mod, Nat.mod_mod]
  have hb : ∀ q r l, q % len = r % len → behind len q l % len = behind len r l % len := by
    intro q r l heq
    have hs : slot len q l % len = slot len r l % len := by
      rw [← hsl q, ← hsl r, heq]
    unfold behind
    rw [Nat.add_mod, hs, ← Nat.add_mod]
  have key : ∀ ls q r, q % len = r % len → finish len q ls % len = finish len r ls % len := by
    intro ls
    induction ls with
    | nil => exact fun q r heq => heq
    | cons l ls ih => exact fun q r heq => ih _ _ (hb q r l heq)
  exact key ls _ _ (Nat.mod_mod p len)

theorem Reaches.last_entry (h : Reaches log p [it]) {t : ℕ}
    (ht : t = name log.len p ∨ t = slot log.len p it.body.len % log.len) :
    Headed log t it ∧ logGetEntry log t = some t ∧ nextOffset log t = log.endOff := by
  have hend : log.endOff = behind log.len p it.body.len % log.len := h.endOff
  have hs : logGetEntry log (slot log.len p it.body.len % log.len) =
      some (slot log.len p it.body.len % log.len) := by
    rw [h.at_slot.logGetEntry_cons, h.laid.1.name_slot]
  rcases ht with rfl | rfl
  · refine ⟨h.laid.1.headed, ?_, h.laid.1.nextOffset_eq.trans hend.symm⟩
    by_cases hh : sizeofEntry ≤ log.len - p % log.len
    · have hn : name log.len p = p % log.len := if_pos hh
      have hget := h.logGetEntry_cons
      rwa [hn] at hget ⊢
    · have hsi := sizeofEntry_le_len it.body
      have hn : name log.len p = slot log.len p it.body.len % log.len := by
        rw [name, if_neg hh, slot_mod, if_neg (by omega)]
      rw [hn]
      exact hs
  · have hne := h.at_slot.laid.1.nextOffset_eq
    rw [h.laid.1.name_slot, behind_slot h.laid.1.short] at hne
    exact ⟨h.laid.1.stored.toHeaded, hs, hne.trans hend.symm⟩

theorem Reaches.length_lt (h : Reaches log p items) : items.length < log.len := by
  have hlt := h.trail.length_lt_len (logOffsetEndDistance_end log) h.len_pos
  have hzip : ((slots log.len p items).zip items).length = items.length := by
    rw [length_zip, ← (forall₂_slots h.laid).length_eq, Nat.min_self]
  rwa [hzip] at hlt

/-! ### What the log holds -/

/-- The buffer holds the entries from the position `p` of the head on, and the offsets of the log
are boundaries of them. -/
structure Held (s : ServerLog) (p : ℕ) : Prop where
  len_pos : 0 < s.log.len
  laid : Laid s.log p s.all
  lap : finish s.log.len p (lens s.all) < p + s.log.len
  head : s.log.head = p % s.log.len
  apply : s.log.apply = finish s.log.len p (lens (s.items.take s.applied)) % s.log.len
  commit : s.log.commit = finish s.log.len p (lens (s.items.take s.committed)) % s.log.len
  applied_le : s.applied ≤ s.committed
  committed_le : s.committed ≤ s.items.length
  endOff : s.log.endOff = finish s.log.len p (lens s.items) % s.log.len ∨
    s.log.endOff = s.log.len ∧ s.items = [] ∧ p = 0 ∧ s.log.tail = s.log.len

/-- The log is held, its entries are numbered one after the other, and the offset of the last one is
cached if any is. -/
structure Tracked (s : ServerLog) (p : ℕ) : Prop extends Held s p where
  tail : s.log.tail = s.log.len ∨ s.log.tail < s.log.len ∧ ∃ init it, s.items = init ++ [it] ∧
    s.log.tail = slot s.log.len (finish s.log.len p (lens init)) it.body.len % s.log.len
  chain : s.all.IsChain Follows

namespace Held

theorem reaches (h : Held s p)
    (hend : s.log.endOff = finish s.log.len p (lens s.items) % s.log.len) :
    Reaches s.log p s.items where
  laid := (laid_append.mp h.laid).1
  endOff := hend
  lap := by
    have hlap := h.lap
    have hle := finish_mono_left (p := p) h.len_pos (lens s.items) (lens s.rest)
    rw [← lens_append] at hle
    exact hle.trans_lt hlap

theorem boundary_eq (h : Held s p) (n : ℕ) :
    s.boundary n = finish s.log.len p (lens (s.all.take n)) % s.log.len := by
  rw [ServerLog.boundary, h.head, finish_mod]

theorem boundary_of_le (h : Held s p) {n : ℕ} (hn : n ≤ s.items.length) :
    s.boundary n = finish s.log.len p (lens (s.items.take n)) % s.log.len := by
  rw [h.boundary_eq, ServerLog.all, take_append_of_le_length hn]

theorem walk (h : Held s p)
    (hend : s.log.endOff = finish s.log.len p (lens s.items) % s.log.len) (n : ℕ) :
    ∃ offs, logWalk s.log s.log.len
        (finish s.log.len p (lens (s.items.take n)) % s.log.len) = some offs ∧
      (offs = [] ↔ s.items.drop n = []) ∧
      (offs ≠ [] → ∀ init it, s.items = init ++ [it] →
        offs.getLastD s.log.len = name s.log.len (finish s.log.len p (lens init))) := by
  have hr := h.reaches hend
  rw [← take_append_drop n s.items] at hr
  have hlen := hr.drop.length_lt
  refine ⟨_, hr.drop.logWalk_eq hlen, ?_, ?_⟩
  · rw [← length_eq_zero_iff, length_names, length_eq_zero_iff]
  · intro hne init it hi
    have hd : s.items.drop n ≠ [] := by
      intro hnil
      rw [hnil] at hne
      exact hne rfl
    obtain ⟨mid, last, hmid⟩ := (eq_nil_or_concat' (s.items.drop n)).resolve_left hd
    have hs : s.items.take n ++ mid ++ [last] = init ++ [it] := by
      rw [append_assoc, ← hmid, take_append_drop, hi]
    obtain ⟨rfl, -⟩ := append_inj' hs rfl
    rw [hmid, names_append, lens_append, finish_append]
    simp

theorem logGetTail_of_unset (h : Held s p) (ht : s.log.tail = s.log.len) :
    ∃ t, logGetTail s.log = some t ∧ (s.items = [] → t = s.log.len) ∧
      ∀ init it, s.items = init ++ [it] →
        t = name s.log.len (finish s.log.len p (lens init)) := by
  rw [logGetTail, if_neg (not_not.mpr ht)]
  rcases h.endOff with hend | ⟨hend, hnil, -⟩
  · rw [if_neg (by simp [(h.reaches hend).not_empty])]
    obtain ⟨fromCommit, hc, hnil, hl⟩ := h.walk hend s.committed
    obtain ⟨fromApply, ha, hnil', hl'⟩ := h.walk hend s.applied
    obtain ⟨fromHead, hh, hnil'', hl''⟩ := h.walk hend 0
    rw [← h.commit] at hc
    rw [← h.apply] at ha
    rw [take_zero, lens_nil, finish_nil, ← h.head] at hh
    rw [drop_zero] at hnil''
    simp only [hc, ha, hh, bind_eq_bind, bind_some]
    split_ifs with hsome hs'
    · refine ⟨_, rfl, fun hi => ?_, hl hsome⟩
      exact absurd (hnil.mpr (by rw [hi, drop_nil])) hsome
    · refine ⟨_, rfl, fun hi => ?_, hl' hs'⟩
      exact absurd (hnil'.mpr (by rw [hi, drop_nil])) hs'
    · refine ⟨_, rfl, fun hi => ?_, fun init it hi => hl'' ?_ init it hi⟩
      · rw [hnil''.mpr hi]
        rfl
      · intro hno
        rw [hnil''.mp hno] at hi
        exact absurd hi.symm (by simp)
  · rw [if_pos (by simp [isLogEmpty, hend])]
    refine ⟨_, rfl, fun _ => rfl, fun init it hi => ?_⟩
    rw [hnil] at hi
    exact absurd hi.symm (by simp)

theorem append_nil (h : Held s p)
    (hend : s.log.endOff = finish s.log.len p (lens s.items) % s.log.len) (hi : s.items = [])
    (term reqId cltId : ℕ) (body : EntryBody) :
    logAppendEntry s.log term reqId cltId body = some (s.log, 0) := by
  have ht : logGetTail s.log = some s.log.tail := by
    by_cases hu : s.log.tail = s.log.len
    · obtain ⟨t, heq, hnil, -⟩ := h.logGetTail_of_unset hu
      rw [heq, hnil hi, hu]
    · exact if_pos hu
  have hf : isLogFull s.log = true := by
    rw [hi, lens_nil, finish_nil] at hend
    simp [isLogFull, hend, h.head]
  rw [logAppendEntry, ht, map_some]
  exact congrArg some (@placeEntry_of_full s.log ⟨_, term, reqId, cltId, body⟩ hf)

end Held

theorem placeEntry_ret (log : Log) (idx term reqId cltId : ℕ) (body : EntryBody) :
    (placeEntry log idx term reqId cltId body).2 = 0 ∨
      (placeEntry log idx term reqId cltId body).2 = idx := by
  unfold placeEntry
  cases logAddNewEntry log with
  | none => exact .inl rfl
  | some off =>
    cases body with
    | cmd type cmd =>
      dsimp only
      generalize (if logFitEntryHeader log log.endOff = true then log.endOff else 0) = start
      split_ifs
      · exact .inr rfl
      · split
        · exact .inl rfl
        · exact .inr rfl
    | _ => exact .inr rfl

namespace Tracked

theorem lastAt (h : Tracked s p) : ∃ t, logGetTail s.log = some t ∧ LastAt s t := by
  have hf : ∃ t, logGetTail s.log = some t ∧ (s.items = [] → t = s.log.len) ∧
      ∀ init it, s.items = init ++ [it] →
        t = name s.log.len (finish s.log.len p (lens init)) ∨
          t = slot s.log.len (finish s.log.len p (lens init)) it.body.len % s.log.len := by
    rcases h.tail with hu | ⟨hlt, init, it, hi, hs⟩
    · obtain ⟨t, ht, hnil, hl⟩ := h.logGetTail_of_unset hu
      exact ⟨t, ht, hnil, fun init it hi => .inl (hl init it hi)⟩
    · refine ⟨s.log.tail, if_pos hlt.ne, fun hnil => ?_, fun init' it' hi' => ?_⟩
      · rw [hnil] at hi
        exact absurd hi.symm (by simp)
      · obtain ⟨rfl, hone⟩ := append_inj' (hi.symm.trans hi') rfl
        obtain rfl := (List.cons.inj hone).1
        exact .inr hs
  obtain ⟨t, ht, hnil, hl⟩ := hf
  refine ⟨t, ht, ?_⟩
  rw [LastAt]
  rcases eq_nil_or_concat' s.items with hi | ⟨init, it, hi⟩
  · rw [hi]
    exact hnil hi
  · have hend : s.log.endOff = finish s.log.len p (lens s.items) % s.log.len := by
      rcases h.endOff with hend | ⟨-, hno, -⟩
      · exact hend
      · rw [hno] at hi
        exact absurd hi.symm (by simp)
    have hr := h.reaches hend
    rw [hi] at hr
    rw [hi, getLast?_concat]
    exact hr.drop.last_entry (hl init it hi)

theorem ret_eq {log' : Log} {ret term reqId cltId : ℕ} {body : EntryBody} (h : Tracked s p)
    (happend : logAppendEntry s.log term reqId cltId body = some (log', ret)) (hret : ret ≠ 0) :
    ret = nextIdx s.items := by
  obtain ⟨t, ht, hl⟩ := h.lastAt
  rw [LastAt] at hl
  unfold nextIdx
  cases hi : s.items.getLast? with
  | none =>
    have hnil : s.items = [] := getLast?_eq_none_iff.mp hi
    rcases h.endOff with hend | ⟨hend, -, hp, hu⟩
    · rw [h.append_nil hend hnil] at happend
      cases happend
      exact absurd rfl hret
    · have hf : Fresh ⟨s.log, s.items, false⟩ :=
        ⟨hnil, by rw [h.head, hp, Nat.zero_mod], hend, hu⟩
      rw [hf.logAppendEntry_eq] at happend
      have hpl := placeEntry_ret s.log 1 term reqId cltId body
      rw [Option.some.inj happend] at hpl
      exact hpl.resolve_left hret
  | some it =>
    rw [hi] at hl
    obtain ⟨hh, hget, -⟩ := hl
    have hget' : logGetEntry { s.log with tail := t } t = some t := hget
    rw [logAppendEntry, ht, map_some] at happend
    dsimp only at happend
    rw [hget'] at happend
    dsimp only at happend
    rw [hh.idx] at happend
    have hpl := placeEntry_ret { s.log with tail := t } (it.idx % 2 ^ 64 + 1) term reqId cltId
      body
    rw [Option.some.inj happend] at hpl
    exact hpl.resolve_left hret

end Tracked

/-! ### Entries behind the end -/

section Lay

theorem Reaches.layItems (h : Reaches log p items) (hh : log.head = p % log.len)
    (hr : HasRooms log new) :
    Reaches (new.foldl layItem log) p (items ++ new) ∧ (new.foldl layItem log).len = log.len := by
  induction new generalizing log items with
  | nil => exact ⟨by rwa [List.append_nil], rfl⟩
  | cons it new ih =>
    obtain ⟨hfirst, hrest⟩ := hr
    have hs := hfirst.room hh h.endOff (le_finish h.len_pos) h.lap
    have key := ih (h.append hs) hh hrest
    rw [append_assoc] at key
    exact key

theorem layItems_fresh (hempty : log.endOff = log.len) (hh : log.head = 0)
    (hro : HasRooms log new) (hlen : 0 < log.len) :
    Laid (new.foldl layItem log) 0 new ∧ finish log.len 0 (lens new) < log.len ∧
      (new.foldl layItem log).len = log.len := by
  cases new with
  | nil => exact ⟨trivial, hlen, rfl⟩
  | cons it new =>
    obtain ⟨hfirst, hrest⟩ := hro
    have hl : it.body.len < log.len := by
      simpa [HasRoom, isLogEmpty, hempty] using hfirst
    have hr : Reaches (layItem log it) 0 [it] := reaches_first hempty hl
    have hh' : (layItem log it).head = 0 % (layItem log it).len :=
      hh.trans (Nat.zero_mod _).symm
    obtain ⟨hall, hlen'⟩ := hr.layItems hh' hrest
    have hlap := hall.lap
    rw [hlen', Nat.zero_add] at hlap
    exact ⟨hall.laid, hlap, hlen'⟩

end Lay

/-! ### The steps -/

theorem take_append_left {n : ℕ} (hn : n ≤ items.length) :
    (items ++ new).take n = items.take n :=
  take_append_of_le_length hn

namespace Held

theorem isLogFull_eq (h : Held s p)
    (hend : s.log.endOff = finish s.log.len p (lens s.items) % s.log.len) (hne : s.items ≠ []) :
    isLogFull s.log = false := by
  obtain ⟨it, items, hi⟩ := exists_cons_of_ne_nil hne
  have hpos : p < finish s.log.len p (lens s.items) := by
    rw [hi, lens_cons, finish_cons]
    exact (lt_behind h.len_pos (Ring.len_pos _)).trans_le (le_finish h.len_pos)
  have ha := Cursor.slot_ne hpos (h.reaches hend).lap
  simp only [isLogFull, beq_eq_false_iff_ne, hend, h.head]
  exact ha.symm

theorem push (h : Held s p)
    (hend : s.log.endOff = finish s.log.len p (lens s.items) % s.log.len)
    (hro : Spare s.log p (finish s.log.len p (lens s.items)) it.body.len) :
    Held { s with log := layItem s.log it, items := s.items ++ [it], rest := [] } p := by
  have hr := (h.reaches hend).append hro
  have ha := h.applied_le.trans h.committed_le
  refine ⟨h.len_pos, ?_, ?_, h.head, ?_, ?_, h.applied_le, ?_, .inl hr.endOff⟩
  · rw [ServerLog.all, List.append_nil]
    exact hr.laid
  · rw [ServerLog.all, List.append_nil]
    exact hr.lap
  · dsimp only
    rw [take_append_left ha]
    exact h.apply
  · dsimp only
    rw [take_append_left h.committed_le]
    exact h.commit
  · dsimp only
    rw [length_append]
    exact h.committed_le.trans (Nat.le_add_right _ _)

theorem push_fresh (h : Held s p) (hend : s.log.endOff = s.log.len) (hi : s.items = [])
    (hp : p = 0) (hl : it.body.len < s.log.len) :
    Held { s with log := layItem s.log it, items := s.items ++ [it], rest := [] } p := by
  subst hp
  have hr : Reaches (layItem s.log it) 0 [it] := reaches_first hend hl
  have hc : s.committed = 0 := by
    have := h.committed_le
    rw [hi] at this
    exact Nat.le_zero.mp this
  have hap : s.applied = 0 := Nat.le_zero.mp (hc ▸ h.applied_le)
  have ha := h.apply
  have hco := h.commit
  rw [hi, take_nil] at ha hco
  rw [hi, nil_append]
  refine ⟨h.len_pos, hr.laid, hr.lap, h.head, ?_, ?_, h.applied_le, ?_,
    .inl hr.endOff⟩
  · dsimp only
    rw [hap, take_zero]
    exact ha
  · dsimp only
    rw [hc, take_zero]
    exact hco
  · dsimp only
    rw [hc]
    exact Nat.zero_le _

theorem append {log' : Log} {ret term reqId cltId : ℕ} {body : EntryBody} (h : Held s p)
    (hr : HasRoom s.log body.len)
    (happend : logAppendEntry s.log term reqId cltId body = some (log', ret)) :
    (ret = 0 ∧ log' = s.log ∧ s.log.endOff = s.log.head) ∨
      ret ≠ 0 ∧ log' = layItem s.log ⟨ret, term, reqId, cltId, body⟩ ∧
        Held { s with
          log := log', items := s.items ++ [⟨ret, term, reqId, cltId, body⟩], rest := [] } p := by
  rcases h.endOff with hend | ⟨hend, hi, hp, ht⟩
  · by_cases hi : s.items = []
    · rw [h.append_nil hend hi] at happend
      cases happend
      rw [hi, lens_nil, finish_nil] at hend
      exact .inl ⟨rfl, rfl, hend.trans h.head.symm⟩
    · have hs := hr.room h.head hend (le_finish h.len_pos) (h.reaches hend).lap
      have hlt := Nat.mod_lt (finish s.log.len p (lens s.items)) h.len_pos
      obtain ⟨t, idx, hidx, hret⟩ := exists_placeEntry happend
      have hpl := @placeEntry_of_room { s.log with tail := t } ⟨idx, term, reqId, cltId, body⟩
        (h.isLogFull_eq hend hi) (hend.trans_lt hlt).le hs.inside
        fun hw _ => (hs.stub (by simp only at hw; omega)).2
      obtain ⟨rfl, rfl⟩ := Prod.mk.inj (hpl.symm.trans hret)
      exact .inr ⟨hidx, rfl, @push p s ⟨idx, term, reqId, cltId, body⟩ h hend hs⟩
  · have hf : Fresh ⟨s.log, s.items, false⟩ :=
      ⟨hi, by rw [h.head, hp, Nat.zero_mod], hend, ht⟩
    have hl : body.len < s.log.len := by
      simpa [HasRoom, isLogEmpty, hend] using hr
    rw [hf.append hr] at happend
    cases happend
    exact .inr ⟨Nat.one_ne_zero, rfl,
      @push_fresh p s ⟨1, term, reqId, cltId, body⟩ h hend hi hp hl⟩

theorem writeEntries (h : Held s p) (hro : HasRooms s.log new) :
    Held { s with
      log := { s.log with entries := (new.foldl layItem s.log).entries }, rest := new } p := by
  have hl : Laid { s.log with entries := (new.foldl layItem s.log).entries } p
      (s.items ++ new) ∧ finish s.log.len p (lens (s.items ++ new)) < p + s.log.len := by
    rcases h.endOff with hend | ⟨hend, hi, rfl, -⟩
    · obtain ⟨hr, hlen⟩ := (h.reaches hend).layItems h.head hro
      have hlap := hr.lap
      rw [hlen] at hlap
      exact ⟨hr.laid.congr hlen.symm fun _ _ _ => rfl, hlap⟩
    · have hh := h.head
      rw [Nat.zero_mod] at hh
      obtain ⟨hl, hlap, hlen⟩ := layItems_fresh hend hh hro h.len_pos
      rw [hi, nil_append, Nat.zero_add]
      exact ⟨hl.congr hlen.symm fun _ _ _ => rfl, hlap⟩
  exact { h with laid := hl.1, lap := hl.2 }

theorem writeEnd (h : Held s p) {n : ℕ} (hn : s.committed ≤ n) :
    Held { s with
      log := { s.log with endOff := s.boundary n }
      items := s.all.take n
      rest := s.all.drop n } p := by
  have hall : ∀ log, ServerLog.all ⟨log, s.all.take n, s.all.drop n, s.committed, s.applied,
      s.leads⟩ = s.all := fun log => take_append_drop n s.all
  have ht : ∀ k ≤ s.committed, (s.all.take n).take k = s.items.take k := by
    intro k hk
    rw [take_take, Nat.min_eq_left (hk.trans hn)]
    exact take_append_left (hk.trans h.committed_le)
  refine ⟨h.len_pos, ?_, ?_, h.head, ?_, ?_, h.applied_le, ?_, .inl (h.boundary_eq n)⟩
  · rw [hall]
    exact h.laid.congr rfl fun _ _ _ => rfl
  · rw [hall]
    exact h.lap
  · dsimp only
    rw [ht _ h.applied_le]
    exact h.apply
  · dsimp only
    rw [ht _ le_rfl]
    exact h.commit
  · dsimp only
    rw [length_take, ServerLog.all, length_append]
    have := h.committed_le
    omega

theorem finish_drop (items : List Item) {n k : ℕ} (hk : n ≤ k) :
    finish len (finish len p (lens (items.take n))) (lens ((items.drop n).take (k - n))) =
      finish len p (lens (items.take k)) := by
  rw [← finish_append, ← lens_append, ← drop_take]
  have ht : items.take n = (items.take k).take n := by
    rw [take_take, Nat.min_eq_left hk]
  rw [ht, take_append_drop]

theorem prune (h : Held s p) {n : ℕ} (hn : n < s.items.length) (ha : n ≤ s.applied) :
    Held { s with
      log := { s.log with head := s.boundary n }
      items := s.items.drop n
      committed := s.committed - n
      applied := s.applied - n } (finish s.log.len p (lens (s.items.take n))) := by
  have hc := h.applied_le
  have hlen := h.committed_le
  have hs : s.all = s.items.take n ++ (s.items.drop n ++ s.rest) := by
    rw [← append_assoc, take_append_drop]
    rfl
  have hle : p ≤ finish s.log.len p (lens (s.items.take n)) := le_finish h.len_pos
  have hl := h.laid
  have hlap := h.lap
  rw [hs] at hl hlap
  rw [lens_append, finish_append] at hlap
  refine ⟨h.len_pos, (laid_append.mp hl).2.congr rfl fun _ _ _ => rfl, ?_,
    h.boundary_of_le hn.le, ?_, ?_, ?_, ?_, ?_⟩
  · change finish s.log.len _ (lens (s.items.drop n ++ s.rest)) < _ + s.log.len
    omega
  · dsimp only
    rw [finish_drop _ ha]
    exact h.apply
  · dsimp only
    rw [finish_drop _ (by omega)]
    exact h.commit
  · dsimp only
    omega
  · dsimp only
    rw [length_drop]
    omega
  · rcases h.endOff with hend | ⟨-, hnil, -⟩
    · left
      have hall := @finish_drop s.log.len p s.items _ _ hn.le
      rw [← length_drop, take_length, take_length] at hall
      dsimp only
      rw [hall]
      exact hend
    · rw [hnil] at hn
      exact absurd hn (Nat.not_lt_zero _)

theorem finish_slot (hs : it.body.len < len) (hi : items = it :: new) {k : ℕ}
    (hk : 0 < k) : finish len (slot len p it.body.len) (lens (items.take k)) =
      finish len p (lens (items.take k)) := by
  obtain ⟨k, rfl⟩ : ∃ m, k = m + 1 := ⟨k - 1, by omega⟩
  rw [hi, take_succ_cons, lens_cons, finish_cons, finish_cons, behind_slot hs]

theorem settleHead (h : Held s p) (hi : s.items = it :: items) (ha : 0 < s.applied) :
    it.body.len < s.log.len ∧
      Held { s with log := { s.log with head := settle s.log s.log.head } }
        (slot s.log.len p it.body.len) := by
  have hend : s.log.endOff = finish s.log.len p (lens s.items) % s.log.len := by
    rcases h.endOff with hend | ⟨-, hnil, -⟩
    · exact hend
    · rw [hnil] at hi
      cases hi
  have hr := h.reaches hend
  rw [hi] at hr
  have hs := hr.laid.1.short
  have hb := behind_slot (p := p) hs
  have hsl : p ≤ slot s.log.len p it.body.len := le_slot h.len_pos
  have hall : s.all = it :: (items ++ s.rest) := by
    rw [ServerLog.all, hi, cons_append]
  have hl := h.laid
  have hlap := h.lap
  rw [hall] at hl hlap
  rw [lens_cons, finish_cons] at hlap
  have hap := h.applied_le
  refine ⟨hs, h.len_pos, ?_, ?_, ?_, ?_, ?_, h.applied_le, h.committed_le, .inl ?_⟩
  · change Laid _ _ s.all
    rw [hall]
    have hat : Laid s.log (slot s.log.len p it.body.len) (it :: (items ++ s.rest)) := by
      refine ⟨hl.1.at_slot, ?_⟩
      rw [hb]
      exact hl.2
    exact hat.congr rfl fun _ _ _ => rfl
  · change finish s.log.len _ (lens s.all) < _
    rw [hall, lens_cons, finish_cons, hb]
    dsimp only
    omega
  · dsimp only
    rw [h.head]
    exact hr.settle_cons
  · dsimp only
    rw [finish_slot hs hi ha]
    exact h.apply
  · dsimp only
    rw [finish_slot hs hi (by omega)]
    exact h.commit
  · have hlen := finish_slot (p := p) hs hi
      (show 0 < s.items.length by rw [hi]; exact Nat.succ_pos _)
    rw [take_length] at hlen
    dsimp only
    rw [hlen]
    exact hend

theorem lead (h : Held s p) (leads : Bool) : Held { s with leads } p :=
  { h with }

theorem unsetTail (h : Held s p) (leads : Bool) :
    Held { s with log := { s.log with tail := s.log.len }, leads } p :=
  { h with
    laid := h.laid.congr rfl fun _ _ _ => rfl
    endOff := h.endOff.imp_right fun ⟨hend, hi, hp, _⟩ => ⟨hend, hi, hp, rfl⟩ }

theorem moveCommit (h : Held s p) {n : ℕ} (hle : s.committed ≤ n) (hn : n ≤ s.items.length) :
    Held { s with log := { s.log with commit := s.boundary n }, committed := n } p :=
  { h with
    laid := h.laid.congr rfl fun _ _ _ => rfl
    commit := h.boundary_of_le hn
    applied_le := h.applied_le.trans hle
    committed_le := hn }

theorem moveApply (h : Held s p) {n : ℕ} (hn : n ≤ s.committed) :
    Held { s with log := { s.log with apply := s.boundary n }, applied := n } p :=
  { h with
    laid := h.laid.congr rfl fun _ _ _ => rfl
    apply := h.boundary_of_le (hn.trans h.committed_le)
    applied_le := hn }

theorem step {e : LogEvent} (h : Held s p) (hok : roomForAll s e)
    (hst : serverLog.step s e = some t) : ∃ q, Held t q := by
  cases e with
  | append term reqId cltId body =>
    obtain ⟨⟨log', ret⟩, happend, rfl⟩ := map_eq_some_iff.mp hst
    rcases h.append hok happend with ⟨rfl, rfl, -⟩ | ⟨hret, -, hp⟩
    · exact ⟨p, h⟩
    · dsimp only
      rw [if_neg hret]
      exact ⟨p, hp⟩
  | win =>
    obtain rfl := Option.some.inj hst
    exact ⟨p, h.lead true⟩
  | hbReceive stays =>
    obtain rfl := Option.some.inj hst
    exact ⟨p, h.unsetTail _⟩
  | vote | verifyLeadership =>
    obtain rfl := Option.some.inj hst
    exact ⟨p, h.lead false⟩
  | writeEntries new =>
    obtain ⟨-, rfl⟩ := guarded_eq_some.mp hst
    exact ⟨p, h.writeEntries hok⟩
  | writeEnd n =>
    obtain ⟨⟨-, hn⟩, rfl⟩ := guarded_eq_some.mp hst
    exact ⟨p, h.writeEnd hn⟩
  | commit n =>
    obtain ⟨⟨hle, hn⟩, rfl⟩ := guarded_eq_some.mp hst
    exact ⟨p, h.moveCommit hle hn⟩
  | apply n =>
    obtain ⟨⟨-, hn⟩, rfl⟩ := guarded_eq_some.mp hst
    exact ⟨p, h.moveApply hn⟩
  | prune n settled =>
    obtain ⟨⟨hn, ha, hs⟩, rfl⟩ := guarded_eq_some.mp hst
    cases settled with
    | false => exact ⟨_, h.prune hn ha⟩
    | true =>
      obtain ⟨it, items, hi⟩ := exists_cons_of_ne_nil
        (drop_eq_nil_iff.not.mpr (Nat.not_le.mpr hn))
      exact ⟨_, ((h.prune hn ha).settleHead hi
        (Nat.sub_pos_of_lt (hs rfl))).2⟩

end Held

theorem held_new (hlen : 0 < len) : Held (newServerLog len) 0 :=
  ⟨hlen, trivial, hlen.trans_eq (Nat.zero_add _).symm, (Nat.zero_mod _).symm,
    (Nat.zero_mod _).symm, (Nat.zero_mod _).symm, le_rfl, le_rfl, .inr ⟨rfl, rfl, rfl, rfl⟩⟩

theorem held_of_run (hlen : 0 < len) (h : serverLog.Run roomForAll (newServerLog len) s) :
    ∃ p, Held s p := by
  refine Run.invariant (I := fun s => ∃ p, Held s p) h ⟨0, held_new hlen⟩ ?_
  rintro a e b ⟨p, hp⟩ hok hs
  exact hp.step hok hs

/-! ### The offset of the last entry -/

namespace Tracked

theorem append {log' : Log} {ret term reqId cltId : ℕ} {body : EntryBody} (h : Tracked s p)
    (hr : HasRoom s.log body.len)
    (happend : logAppendEntry s.log term reqId cltId body = some (log', ret)) (hret : ret ≠ 0) :
    Tracked { s with
      log := log', items := s.items ++ [⟨ret, term, reqId, cltId, body⟩], rest := [] } p := by
  have hidx := h.ret_eq happend hret
  obtain ⟨hz, -⟩ | ⟨-, hlay, hh⟩ := h.toHeld.append hr happend
  · exact absurd hz hret
  · refine ⟨hh, .inr ?_, ?_⟩
    · have ht : log'.tail =
          slot s.log.len (finish s.log.len p (lens s.items)) body.len % s.log.len := by
        rw [hlay]
        rcases h.endOff with hend | ⟨hend, hi, rfl, -⟩
        · exact roomOffset_eq hend _
        · have hl : body.len < s.log.len := by
            simpa [HasRoom, isLogEmpty, hend] using hr
          have hpos := Ring.len_pos body
          have hoff : roomOffset s.log body.len = 0 := if_neg (by omega)
          rw [hi, lens_nil, finish_nil, slot_of_lt (by rwa [Nat.zero_mod, Nat.zero_add]),
            Nat.zero_mod]
          exact hoff
      have hlen : log'.len = s.log.len := by rw [hlay]; rfl
      refine ⟨?_, s.items, _, rfl, ?_⟩
      · dsimp only
        rw [ht, hlen]
        exact Nat.mod_lt _ h.len_pos
      · dsimp only
        rw [hlen]
        exact ht
    · rw [ServerLog.all, List.append_nil]
      have hc : s.items.IsChain Follows := (isChain_append.mp h.chain).1
      rcases eq_nil_or_concat' s.items with hi | ⟨init, it, hi⟩
      · rw [hi]
        exact .singleton _
      · rw [nextIdx, hi, getLast?_concat] at hidx
        rw [hi] at hc ⊢
        rw [append_assoc]
        exact isChain_append_cons_cons.mpr ⟨hc, hidx, .singleton _⟩

theorem prune (h : Tracked s p) {n : ℕ} (hn : n < s.items.length) (ha : n ≤ s.applied) :
    Tracked { s with
      log := { s.log with head := s.boundary n }
      items := s.items.drop n
      committed := s.committed - n
      applied := s.applied - n } (finish s.log.len p (lens (s.items.take n))) := by
  have hc := h.chain
  have hs : s.all = s.items.take n ++ (s.items.drop n ++ s.rest) := by
    rw [← append_assoc, take_append_drop]
    rfl
  rw [hs] at hc
  refine ⟨h.toHeld.prune hn ha, ?_, (isChain_append.mp hc).2.1⟩
  rcases h.tail with hu | ⟨hlt, init, it, hi, ht⟩
  · exact .inl hu
  · have hin : n ≤ init.length := by
      rw [hi, length_append, length_singleton] at hn
      omega
    refine .inr ⟨hlt, init.drop n, it, ?_, ?_⟩
    · dsimp only
      rw [hi, drop_append_of_le_length hin]
    · dsimp only
      rw [← finish_append, ← lens_append, hi, take_append_left hin, take_append_drop]
      exact ht

theorem settleHead (h : Tracked s p) (hi : s.items = it :: items) (ha : 0 < s.applied) :
    Tracked { s with log := { s.log with head := settle s.log s.log.head } }
      (slot s.log.len p it.body.len) := by
  obtain ⟨hs, hh⟩ := h.toHeld.settleHead hi ha
  refine ⟨hh, ?_, h.chain⟩
  rcases h.tail with hu | ⟨hlt, init, last, hin, ht⟩
  · exact .inl hu
  · refine .inr ⟨hlt, init, last, hin, ?_⟩
    dsimp only
    rw [ht]
    rw [hi] at hin
    cases init with
    | nil =>
      obtain rfl : it = last := (List.cons.inj hin).1
      rw [lens_nil, finish_nil, finish_nil, slot_slot hs]
    | cons first init =>
      obtain rfl : it = first := (List.cons.inj hin).1
      rw [lens_cons, finish_cons, finish_cons, behind_slot hs]

theorem step {e : LogEvent} (h : Tracked s p) (hok : tailUnset s e)
    (hst : serverLog.step s e = some t) : ∃ q, Tracked t q := by
  cases e with
  | append term reqId cltId body =>
    obtain ⟨⟨log', ret⟩, happend, rfl⟩ := map_eq_some_iff.mp hst
    dsimp only
    split_ifs with hret
    · obtain ⟨-, rfl, -⟩ | ⟨hne, -⟩ := h.toHeld.append hok happend
      · exact ⟨p, h⟩
      · exact absurd hret hne
    · exact ⟨p, h.append hok happend hret⟩
  | win =>
    obtain rfl := Option.some.inj hst
    exact ⟨p, h.toHeld.lead true, h.tail, h.chain⟩
  | hbReceive stays =>
    obtain rfl := Option.some.inj hst
    exact ⟨p, h.toHeld.unsetTail _, .inl rfl, h.chain⟩
  | vote | verifyLeadership =>
    obtain rfl := Option.some.inj hst
    exact ⟨p, h.toHeld.lead false, h.tail, h.chain⟩
  | writeEntries new =>
    obtain ⟨⟨-, hc⟩, rfl⟩ := guarded_eq_some.mp hst
    exact ⟨p, h.toHeld.writeEntries hok.2, h.tail, hc⟩
  | writeEnd n =>
    obtain ⟨⟨-, hn⟩, rfl⟩ := guarded_eq_some.mp hst
    refine ⟨p, h.toHeld.writeEnd hn, .inl hok, ?_⟩
    rw [ServerLog.all, take_append_drop]
    exact h.chain
  | commit n =>
    obtain ⟨⟨hle, hn⟩, rfl⟩ := guarded_eq_some.mp hst
    exact ⟨p, h.toHeld.moveCommit hle hn, h.tail, h.chain⟩
  | apply n =>
    obtain ⟨⟨-, hn⟩, rfl⟩ := guarded_eq_some.mp hst
    exact ⟨p, h.toHeld.moveApply hn, h.tail, h.chain⟩
  | prune n settled =>
    obtain ⟨⟨hn, ha, hs⟩, rfl⟩ := guarded_eq_some.mp hst
    cases settled with
    | false => exact ⟨_, h.prune hn ha⟩
    | true =>
      obtain ⟨it, items, hi⟩ := exists_cons_of_ne_nil
        (drop_eq_nil_iff.not.mpr (Nat.not_le.mpr hn))
      exact ⟨_, (h.prune hn ha).settleHead hi (Nat.sub_pos_of_lt (hs rfl))⟩

end Tracked

theorem tracked_of_run (hlen : 0 < len) (h : serverLog.Run tailUnset (newServerLog len) s) :
    ∃ p, Tracked s p := by
  refine Run.invariant (I := fun s => ∃ p, Tracked s p) h ⟨0, held_new hlen, .inl rfl, .nil⟩ ?_
  rintro a e b ⟨p, hp⟩ hok hs
  exact hp.step hok hs

theorem Held.walk_head (h : Held s p) : ∃ offs,
    (∀ fuel > s.items.length, logWalk s.log fuel s.log.head = some offs) ∧
      List.Forall₂ (Headed s.log) offs s.items := by
  rcases h.endOff with hend | ⟨hend, hi, -⟩
  · have hr := h.reaches hend
    refine ⟨_, fun fuel hf => ?_, forall₂_names hr.laid⟩
    rw [h.head]
    exact hr.logWalk_eq hf
  · refine ⟨[], fun fuel hf => ?_, hi ▸ .nil⟩
    obtain ⟨fuel, rfl⟩ : ∃ k, fuel = k + 1 := ⟨fuel - 1, by omega⟩
    have hget : logGetEntry s.log s.log.head = none := if_pos (by simp [isLogEmpty, hend])
    rw [logWalk, hget]

/-- If no other server writes into the log while the offset of the last entry is cached, the entries
of the log are numbered one after the other, `log_get_tail` finds the last one, and an append goes
on from there. -/
theorem indices_consecutive (hlen : 0 < len)
    (hrun : serverLog.Run tailUnset (newServerLog len) s) :
    (∃ offs, (∀ fuel > s.items.length, logWalk s.log fuel s.log.head = some offs) ∧
        List.Forall₂ (Headed s.log) offs s.items) ∧
      s.items.IsChain Follows ∧ (∃ t, logGetTail s.log = some t ∧ LastAt s t) ∧
      ∀ term reqId cltId body log' ret, HasRoom s.log body.len →
        logAppendEntry s.log term reqId cltId body = some (log', ret) → ret ≠ 0 →
          ret = nextIdx s.items := by
  obtain ⟨p, h⟩ := tracked_of_run hlen hrun
  refine ⟨h.walk_head, (isChain_append.mp h.chain).1, h.lastAt, ?_⟩
  intro term reqId cltId body log' ret _ happend hret
  exact h.ret_eq happend hret

/-- A leader that steps down on a heartbeat has its second entry replaced and leads again. -/
theorem indices_consecutive_again :
    ∃ s, serverLog.Run tailUnset (newServerLog 1000) s ∧ s.items.length = 3 ∧
      s.items.IsChain Follows ∧ ∃ t, logGetTail s.log = some t ∧ LastAt s t := by
  obtain ⟨s, hrun, hlen⟩ := System.exists_run_of_exec (M := serverLog) (s := newServerLog 1000)
    tailUnset (p := fun s => s.items.length = 3)
    [.win, .append 1 0 0 .noop, .append 1 0 0 .noop, .hbReceive false, .writeEnd 1,
      .writeEntries [⟨2, 2, 0, 0, .noop⟩], .writeEnd 2, .commit 2, .hbReceive false, .win,
      .append 3 0 0 .noop] (by decide +kernel)
  obtain ⟨-, hchain, htail, -⟩ := indices_consecutive (by decide) hrun
  exact ⟨s, hrun, hlen, hchain, htail⟩

/-- A leader that votes for another server keeps the offset of its third entry. Its log is cut and
extended to five entries, and the entry it appends then gets the index 4. -/
theorem index_repeated :
    ∃ s t, serverLog.Run roomForAll (newServerLog 1000) s ∧
      serverLog.step s (.append 1 7 3 (bytesCmd 1)) = some t ∧
      s.items.map (·.idx) = [1, 2, 3, 4, 5] ∧ logGetTail s.log = some 96 ∧
      t.items.map (·.idx) = [1, 2, 3, 4, 5, 4] :=
  System.exists_step_of_exec (M := serverLog) (s := newServerLog 1000) roomForAll
    (p := fun s t => s.items.map (·.idx) = [1, 2, 3, 4, 5] ∧ logGetTail s.log = some 96 ∧
      t.items.map (·.idx) = [1, 2, 3, 4, 5, 4])
    [.win, .append 1 0 0 .noop, .append 1 0 0 .noop, .append 1 0 0 .noop, .vote,
      .writeEnd 1, .writeEntries [⟨2, 2, 0, 0, .noop⟩, ⟨3, 2, 0, 0, .noop⟩, ⟨4, 2, 0, 0, .noop⟩,
        ⟨5, 2, 0, 0, .noop⟩], .writeEnd 5]
    (.append 1 7 3 (bytesCmd 1)) (by decide +kernel)

end VmFt.Dare.Ring
