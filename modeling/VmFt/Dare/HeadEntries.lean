import VmFt.Dare.RingTrail
import VmFt.Dare.Config

/-! # The head offset follows committed HEAD entries

`poll_config_entries` on the circular log. It walks from the offset it stopped at to the
end of the log and takes over CONFIG entries; of the HEAD entries it is to use the last one
that is committed. An entry counts as committed if it does not start behind the commit
offset, and so does the one that starts there.
-/

namespace VmFt.Dare.Ring

open List Option

/-- The data of a server that `poll_config_entries` uses; `snapshot` is a flag of `dare_state`. -/
structure Polled where
  log : Log
  idx : ℕ
  cid : Cid
  cidOffset : ℕ
  cidIdx : ℕ
  reqId : ℕ
  cltId : ℕ
  snapshot : Bool
  /-- The server has shut down. -/
  down : Bool

/-- Codes other than the three are not used. -/
def cidStateOf (code : ℕ) : CidState :=
  if code = 0 then .stable else if code = 1 then .transit else .extended

def entryCid (log : Log) (off : ℕ) : Cid :=
  { epoch := log.entries.load 8 (off + 32)
    size := log.entries.load 1 (off + 40)
    newSize := log.entries.load 1 (off + 41)
    state := cidStateOf (log.entries.load 1 (off + 42))
    bitmask := log.entries.load 4 (off + 44) }

def entryHead (log : Log) (off : ℕ) : ℕ := log.entries.load 8 (off + 32)

/-- `update_cid` for a configuration that differs. It does not return if it removes the server,
which shuts down and ends its thread. -/
def updateCid (cid : Cid) (s : Polled) : Polled :=
  if Config.removes s.idx s.cid cid then { s with down := true } else { s with cid := cid }

def pollConfig (s : Polled) (off : ℕ) : Polled :=
  if s.cidIdx < entryIdx s.log off ∧ s.cid ≠ entryCid s.log off then
    let s := updateCid (entryCid s.log off) s
    if s.down then s
    else { s with reqId := entryReqId s.log off, cltId := entryCltId s.log off }
  else s

/-- The variables of the loop in `poll_config_entries`. -/
structure PollLoop where
  srv : Polled
  headOffset : ℕ
  offset : ℕ

def pollEntry (commit : ℕ) (st : PollLoop) (off : ℕ) : PollLoop :=
  let log := st.srv.log
  if entryType log off = CONFIG then
    { st with srv := pollConfig st.srv off, offset := off + logEntryLen log off }
  else if entryType log off = HEAD ∧ logIsOffsetLarger log off commit = false then
    { srv := { st.srv with snapshot := false }
      headOffset := entryHead log off
      offset := off + logEntryLen log off }
  else { st with offset := off + logEntryLen log off }

def pollTurn (commit : ℕ) (st : PollLoop) : Option PollLoop :=
  if st.srv.down ∨ logOffsetEndDistance st.srv.log st.offset = 0 then none
  else
    (logGetEntry st.srv.log st.offset).map fun off =>
      if logFitEntry st.srv.log off off then pollEntry commit st off else { st with offset := 0 }

/-- The loop, if it ends within `fuel` turns. It ends with the thread of a removed server. -/
def pollLoop (commit : ℕ) : ℕ → PollLoop → Option PollLoop
  | 0, _ => none
  | fuel + 1, st =>
    match pollTurn commit st with
    | none => some st
    | some st => pollLoop commit fuel st

def advanceHead (log : Log) (offset : ℕ) : ℕ :=
  if logIsOffsetLarger log offset log.head then offset else log.head

def pollConfigEntries (fuel : ℕ) (s : Polled) : Option Polled :=
  (pollLoop s.log.commit fuel ⟨s, s.log.head, s.cidOffset⟩).map fun st =>
    if st.srv.down then st.srv
    else
      { st.srv with
        cidOffset :=
          if logIsOffsetLarger s.log st.offset s.log.commit then s.log.commit else st.offset
        log := { s.log with head := advanceHead s.log st.headOffset } }

/-- One of the CONFIG entries among `xs` removes the server. -/
def removed (s : Polled) : List (ℕ × Item) → Bool
  | [] => s.down
  | x :: xs => removed (if entryType s.log x.1 = CONFIG then pollConfig s x.1 else s) xs

/-! ### The last HEAD entry -/

def Item.headOffset (it : Item) : Option ℕ :=
  match it.body with
  | .head offset => some (offset % 2 ^ 64)
  | _ => none

/-- The offset in the last of the HEAD entries that satisfy `p`, or else `head`. -/
def lastHead (p : ℕ × Item → Bool) (xs : List (ℕ × Item)) (head : ℕ) : ℕ :=
  ((xs.filter p).filterMap fun x => x.2.headOffset).getLast?.getD head

def startsCommitted (log : Log) (x : ℕ × Item) : Bool :=
  logOffsetEndDistance log log.commit ≤ logOffsetEndDistance log x.1

def endsCommitted (log : Log) (x : ℕ × Item) : Bool :=
  logOffsetEndDistance log log.commit ≤ logOffsetEndDistance log (x.1 + x.2.body.len)

variable {log : Log} {o w : ℕ} {it : Item} {xs : List (ℕ × Item)} {s : Polled} {t : PollLoop}
  {p p' : ℕ × Item → Bool} {head : ℕ}

theorem lastHead_cons (p : ℕ × Item → Bool) (x : ℕ × Item) (xs : List (ℕ × Item)) (head : ℕ) :
    lastHead p (x :: xs) head = lastHead p xs (if p x then x.2.headOffset.getD head else head) := by
  unfold lastHead
  rw [filter_cons]
  split_ifs with hp
  · rw [filterMap_cons]
    cases x.2.headOffset with
    | none => rfl
    | some offset =>
      rw [getLast?_cons, getD_some, getD_some]
  · rfl

theorem lastHead_congr (h : ∀ x ∈ xs, x.2.headOffset ≠ none → p x = p' x) (head : ℕ) :
    lastHead p xs head = lastHead p' xs head := by
  induction xs generalizing head with
  | nil => rfl
  | cons x xs ih =>
    rw [lastHead_cons, lastHead_cons, ih fun y hy => h y (mem_cons_of_mem _ hy)]
    cases hx : x.2.headOffset with
    | none => simp only [getD_none, ite_self]
    | some offset => rw [h x mem_cons_self (by simp [hx])]

theorem lastHead_append (p : ℕ × Item → Bool) (xs ys : List (ℕ × Item)) (head : ℕ) :
    lastHead p (xs ++ ys) head = lastHead p ys (lastHead p xs head) := by
  induction xs generalizing head with
  | nil => rfl
  | cons x xs ih => rw [cons_append, lastHead_cons, ih, lastHead_cons]

theorem lastHead_of_none (h : ∀ x ∈ xs, p x = false) (head : ℕ) : lastHead p xs head = head := by
  have hf : xs.filter p = [] := filter_eq_nil_iff.mpr fun x hx => by simp [h x hx]
  rw [lastHead, hf]
  rfl

/-! ### The loop -/

theorem Stored.headOffset_eq (h : Stored log w it) :
    it.headOffset = if entryType log w = HEAD then some (entryHead log w) else none := by
  have ht := h.type
  have hd := h.data
  unfold Item.headOffset
  cases hb : it.body with
  | head offset =>
    rw [hb] at ht hd
    have hl : entryHead log w = offset % 2 ^ 64 := by
      rw [EntryBody.bytes, Memory.length_bytesOf] at hd
      rw [entryHead, Memory.load_eq_ofBytes, hd]
      exact Memory.ofBytes_bytesOf 8 offset
    have hh : entryType log w = HEAD := ht
    rw [if_pos hh, hl]
  | cmd type c =>
    rw [hb] at ht
    rw [if_neg (ht.trans_ne type.not_special.2.2)]
  | noop =>
    rw [hb] at ht
    rw [if_neg (ht.trans_ne (by decide : NOOP ≠ HEAD))]
  | config cid =>
    rw [hb] at ht
    rw [if_neg (ht.trans_ne (by decide : CONFIG ≠ HEAD))]

@[simp]
theorem pollConfig_log (s : Polled) (off : ℕ) : (pollConfig s off).log = s.log := by
  unfold pollConfig updateCid
  dsimp only
  split_ifs <;> rfl

theorem pollConfig_down (hd : s.down = true) (off : ℕ) : (pollConfig s off).down = true := by
  unfold pollConfig updateCid
  dsimp only
  split_ifs <;> first | rfl | exact hd

theorem pollConfig_snapshot (s : Polled) (off : ℕ) (snapshot : Bool) :
    pollConfig { s with snapshot := snapshot } off =
      { pollConfig s off with snapshot := snapshot } := by
  unfold pollConfig updateCid
  dsimp only
  split_ifs <;> rfl

theorem removed_of_down (hd : s.down = true) : removed s xs = true := by
  induction xs generalizing s with
  | nil => exact hd
  | cons x xs ih =>
    rw [removed]
    split_ifs
    exacts [ih (pollConfig_down hd _), ih hd]

theorem removed_snapshot (s : Polled) (snapshot : Bool) :
    removed { s with snapshot := snapshot } xs = removed s xs := by
  induction xs generalizing s with
  | nil => rfl
  | cons x xs ih =>
    rw [removed, removed, pollConfig_snapshot]
    dsimp only
    split_ifs
    exacts [ih _, ih s]

theorem removed_pollEntry (commit : ℕ) (t : PollLoop) (x : ℕ × Item) :
    removed (pollEntry commit t x.1).srv xs = removed t.srv (x :: xs) := by
  rw [removed, pollEntry]
  dsimp only
  by_cases hc : entryType t.srv.log x.1 = CONFIG
  · rw [if_pos hc, if_pos hc]
  · rw [if_neg hc, if_neg hc]
    split_ifs
    exacts [removed_snapshot _ _, rfl]

theorem pollEntry_eq (hlog : t.srv.log = log) (h : Stored log w it) :
    (pollEntry log.commit t w).srv.log = log ∧ (pollEntry log.commit t w).offset = w + it.body.len ∧
      (pollEntry log.commit t w).headOffset =
        if startsCommitted log (w, it) then it.headOffset.getD t.headOffset else t.headOffset := by
  have hl : logIsOffsetLarger log w log.commit = !startsCommitted log (w, it) := by
    unfold logIsOffsetLarger startsCommitted
    rw [← decide_not]
    exact decide_eq_decide.mpr not_le.symm
  obtain ⟨srv, headOffset, offset⟩ := t
  obtain rfl : srv.log = log := hlog
  rw [h.headOffset_eq, pollEntry]
  dsimp only
  rw [h.len, hl]
  by_cases hc : entryType srv.log w = CONFIG
  · have hh : entryType srv.log w ≠ HEAD := hc.trans_ne (by decide)
    rw [if_pos hc, if_neg hh, getD_none, ite_self]
    exact ⟨pollConfig_log srv w, rfl, rfl⟩
  · rw [if_neg hc]
    by_cases hh : entryType srv.log w = HEAD
    · rw [if_pos hh, getD_some]
      cases hs : startsCommitted srv.log (w, it) with
      | true =>
        rw [if_pos ⟨hh, rfl⟩]
        exact ⟨rfl, rfl, rfl⟩
      | false =>
        rw [if_neg (by simp)]
        exact ⟨rfl, rfl, rfl⟩
    · rw [if_neg hh, if_neg fun hno => hh hno.1, getD_none, ite_self]
      exact ⟨rfl, rfl, rfl⟩

theorem pollTurn_eq (hlog : t.srv.log = log) (hoff : t.offset = o) (h : Next log o w it)
    (hd : t.srv.down = false) :
    pollTurn log.commit t = some (if entryOffset log o = w then pollEntry log.commit t w
      else { t with offset := 0 }) := by
  have hno : ¬ (t.srv.down = true ∨ logOffsetEndDistance log o = 0) := by
    rintro (hyes | hyes)
    exacts [absurd (hd.symm.trans hyes) nofun, h.pos.ne' hyes]
  rw [pollTurn, hlog, hoff, if_neg hno, h.logGetEntry_eq, map_some]
  by_cases hw : entryOffset log o = w
  · rw [if_pos (h.fit_iff.mpr hw), if_pos hw, hw]
  · rw [if_neg fun hfit => hw (h.fit_iff.mp hfit), if_neg hw]

theorem Next.pollLoop_eq (h : Next log o w it) (hlog : t.srv.log = log) (hoff : t.offset = o)
    (hd : t.srv.down = false) :
    ∃ t', t'.srv.log = log ∧ t'.offset = w + it.body.len ∧
      (∀ xs, removed t'.srv xs = removed t.srv ((w, it) :: xs)) ∧
      t'.headOffset = (if startsCommitted log (w, it) then it.headOffset.getD t.headOffset
        else t.headOffset) ∧
      ∃ n, ∀ fuel, pollLoop log.commit (n + fuel) t = pollLoop log.commit fuel t' := by
  have ht := pollTurn_eq hlog hoff h hd
  by_cases hwh : entryOffset log o = w
  · rw [if_pos hwh] at ht
    obtain ⟨hlog', hoff', hh⟩ := pollEntry_eq hlog h.stored
    refine ⟨_, hlog', hoff', fun _ => removed_pollEntry _ _ (w, it), hh, 1, fun fuel => ?_⟩
    rw [Nat.add_comm, pollLoop, ht]
  · -- The first turn goes from the stub to the entry.
    have hz : w = 0 := by
      rcases h.entryOffset_eq with ⟨heq, -⟩ | ⟨-, hw, -⟩
      · exact absurd heq hwh
      · exact hw
    have ha := pollTurn_eq (t := { t with offset := w }) hlog rfl h.at_whole hd
    rw [if_neg hwh, ← hz] at ht
    rw [if_pos h.entryOffset_whole] at ha
    obtain ⟨hlog', hoff', hh⟩ := pollEntry_eq (t := { t with offset := w }) hlog h.stored
    refine ⟨_, hlog', hoff', fun _ => removed_pollEntry _ _ (w, it), hh, 2, fun fuel => ?_⟩
    rw [Nat.add_comm, pollLoop, ht]
    dsimp only
    rw [pollLoop, ha]

theorem pollLoop_end (h : t.srv.down ∨ logOffsetEndDistance t.srv.log t.offset = 0) {fuel : ℕ}
    (hf : 0 < fuel) (commit : ℕ) : pollLoop commit fuel t = some t := by
  obtain ⟨fuel, rfl⟩ : ∃ k, fuel = k + 1 := ⟨fuel - 1, by omega⟩
  have ht : pollTurn commit t = none := if_pos h
  rw [pollLoop, ht]

theorem Trail.pollLoop_eq (h : Trail log o xs log.endOff) (hlog : t.srv.log = log)
    (hoff : t.offset = o) : ∃ t', t'.srv.down = removed t.srv xs ∧
      (removed t.srv xs = false →
        t'.headOffset = lastHead (startsCommitted log) xs t.headOffset) ∧
      ∃ n, ∀ fuel ≥ n, pollLoop log.commit fuel t = some t' := by
  induction xs generalizing o t with
  | nil =>
    obtain rfl : o = log.endOff := h
    refine ⟨t, rfl, fun _ => rfl, 1, fun fuel hf => pollLoop_end (.inr ?_) hf _⟩
    rw [hlog, hoff]
    exact logOffsetEndDistance_end log
  | cons x xs ih =>
    obtain ⟨w, it⟩ := x
    obtain ⟨hne, hrest⟩ := h
    cases hd : t.srv.down with
    | true =>
      have hr : removed t.srv ((w, it) :: xs) = true := removed_of_down hd
      exact ⟨t, hd.trans hr.symm, fun hno => absurd (hr.symm.trans hno) nofun, 1,
        fun fuel hf => pollLoop_end (.inl hd) hf _⟩
    | false =>
    obtain ⟨t₁, hlog₁, hoff₁, hr₁, hh₁, n, hn⟩ := hne.pollLoop_eq hlog hoff hd
    obtain ⟨t₂, hd₂, hh₂, m, hm⟩ := ih hrest hlog₁ hoff₁
    rw [hr₁] at hd₂ hh₂
    refine ⟨t₂, hd₂, fun hno => ?_, n + m, fun fuel hf => ?_⟩
    · rw [hh₂ hno, hh₁, lastHead_cons]
    · obtain ⟨k, rfl⟩ := Nat.exists_eq_add_of_le hf
      rw [Nat.add_assoc, hn]
      exact hm _ (Nat.le_add_right m k)

theorem pollConfigEntries_eq (h : Scans s.log s.cidOffset xs) :
    ∃ s', s'.down = removed s xs ∧
      (removed s xs = false → s'.log = { s.log with
        head := advanceHead s.log (lastHead (startsCommitted s.log) xs s.log.head) }) ∧
      ∃ n, ∀ fuel ≥ n, pollConfigEntries fuel s = some s' := by
  have hl : ∃ t', t'.srv.down = removed s xs ∧
      (removed s xs = false →
        t'.headOffset = lastHead (startsCommitted s.log) xs s.log.head) ∧
      ∃ n, ∀ fuel ≥ n, pollLoop s.log.commit fuel ⟨s, s.log.head, s.cidOffset⟩ = some t' := by
    unfold Scans at h
    split_ifs at h with hempty
    · subst h
      exact ⟨_, rfl, fun _ => rfl, 1, fun fuel hf =>
        pollLoop_end (t := ⟨s, s.log.head, s.cidOffset⟩) (.inr (if_pos hempty)) hf _⟩
    · exact h.pollLoop_eq (t := ⟨s, s.log.head, s.cidOffset⟩) rfl rfl
  obtain ⟨t', hd, hh, n, hn⟩ := hl
  refine ⟨_, ?_, fun hno => ?_, n, fun fuel hf => congrArg (Option.map _) (hn fuel hf)⟩
  · dsimp only
    split_ifs <;> exact hd
  · dsimp only
    rw [if_neg (by simp [hd, hno]), hh hno]

/-! ### The entry at the commit offset -/

/-- The entry starts at the commit offset, or in front of it, and ends behind it. -/
def Straddles (log : Log) (x : ℕ × Item) : Prop :=
  startsCommitted log x = true ∧ endsCommitted log x = false

/-- The offset in the entry moves the head to the same place as `offset` does. -/
def SameHead (log : Log) (offset offset' : ℕ) : Prop :=
  offset' = offset ∨
    logIsOffsetLarger log offset' log.head = false ∧ logIsOffsetLarger log offset log.head = false

/-- The scan ends, with the head offset moved to that of the last HEAD entry that lies in front of
the commit offset as a whole, if it is later and the server has not shut down. -/
def FollowsCommitted (s : Polled) (xs : List (ℕ × Item)) : Prop :=
  ∃ s', (∃ n, ∀ fuel ≥ n, pollConfigEntries fuel s = some s') ∧
    (s'.down = true ∨ s'.log = { s.log with
      head := advanceHead s.log (lastHead (endsCommitted s.log) xs s.log.head) })

theorem advanceHead_eq_iff (log : Log) (a b : ℕ) :
    advanceHead log a = advanceHead log b ↔ SameHead log b a := by
  have hi : logIsOffsetLarger log log.head log.head = false := by
    simp [logIsOffsetLarger]
  unfold advanceHead SameHead
  constructor
  · intro h
    by_cases ha : logIsOffsetLarger log a log.head = true <;>
      by_cases hb : logIsOffsetLarger log b log.head = true <;> simp_all
  · rintro (rfl | ⟨ha, hb⟩)
    · rfl
    · rw [if_neg (by simp [ha]), if_neg (by simp [hb])]

theorem Trail.starts_of_ends {x : ℕ × Item} (h : Trail log o xs log.endOff) (hx : x ∈ xs)
    (he : endsCommitted log x = true) : startsCommitted log x = true := by
  obtain ⟨o', hn, -⟩ := h.next_mem hx
  have hr := hn.reach
  have hle := of_decide_eq_true he
  exact decide_eq_true (by omega)

theorem Trail.lastHead_eq {x : ℕ × Item} {v : ℕ} (h : Trail log o xs log.endOff) (hx : x ∈ xs)
    (hv : x.2.headOffset = some v) (hc : Straddles log x) (head : ℕ) :
    lastHead (startsCommitted log) xs head = v := by
  obtain ⟨ys, zs, rfl⟩ := append_of_mem hx
  obtain ⟨m, -, hn, hzs⟩ := Trail.append_iff.mp h
  have he := of_decide_eq_false hc.2
  have hl : ∀ z ∈ zs, startsCommitted log z = false := by
    intro z hz
    obtain ⟨o', hn', hle⟩ := hzs.next_mem hz
    have hgap := hn'.gap
    exact decide_eq_false (by omega)
  rw [lastHead_append, lastHead_cons, if_pos hc.1, hv, getD_some, lastHead_of_none hl]

theorem Trail.lastHead_of_not_straddles (h : Trail log o xs log.endOff)
    (hno : ∀ x ∈ xs, ∀ v, x.2.headOffset = some v → ¬ Straddles log x) (head : ℕ) :
    lastHead (startsCommitted log) xs head = lastHead (endsCommitted log) xs head := by
  refine lastHead_congr (fun x hx hne => ?_) head
  obtain ⟨v, hv⟩ := ne_none_iff_exists'.mp hne
  cases he : endsCommitted log x with
  | true => exact h.starts_of_ends hx he
  | false =>
    cases hs : startsCommitted log x with
    | false => rfl
    | true => exact absurd ⟨hs, he⟩ (hno x hx v hv)

theorem Scans.follows_iff (h : Scans s.log s.cidOffset xs) :
    FollowsCommitted s xs ↔ removed s xs = true ∨
      advanceHead s.log (lastHead (startsCommitted s.log) xs s.log.head) =
        advanceHead s.log (lastHead (endsCommitted s.log) xs s.log.head) := by
  obtain ⟨s', hdown, hlog, n, hn⟩ := pollConfigEntries_eq h
  cases hr : removed s xs with
  | true => exact ⟨fun _ => .inl rfl, fun _ => ⟨s', ⟨n, hn⟩, .inl (hdown.trans hr)⟩⟩
  | false =>
    rw [hr] at hdown
    simp only [Bool.false_eq_true, false_or]
    constructor
    · rintro ⟨s'', ⟨m, hm⟩, hlog'⟩
      obtain rfl : s' = s'' := Option.some.inj
        ((hn (n + m) (Nat.le_add_right n m)).symm.trans (hm (n + m) (Nat.le_add_left m n)))
      have hlog' := hlog'.resolve_left (by simp [hdown])
      rw [hlog hr] at hlog'
      exact congrArg Log.head hlog'
    · intro hh
      exact ⟨s', ⟨n, hn⟩, .inr (by rw [hlog hr, hh])⟩

/-- The head offset follows the last HEAD entry in front of the commit offset exactly if a HEAD
entry that starts there moves the head to the same place, or the server is removed. -/
theorem head_follows_committed_iff (h : Scans s.log s.cidOffset xs) :
    FollowsCommitted s xs ↔ removed s xs = true ∨
      ∀ x ∈ xs, ∀ v, x.2.headOffset = some v → Straddles s.log x →
        SameHead s.log (lastHead (endsCommitted s.log) xs s.log.head) v := by
  have htrail : xs ≠ [] → Trail s.log s.cidOffset xs s.log.endOff := by
    intro hne
    have hscans := h
    unfold Scans at hscans
    split_ifs at hscans with hempty
    · exact absurd hscans hne
    · exact hscans
  rw [h.follows_iff, advanceHead_eq_iff]
  refine or_congr_right ⟨?_, ?_⟩
  · intro hsame x hx v hv hcommit
    rwa [(htrail (ne_nil_of_mem hx)).lastHead_eq hx hv hcommit] at hsame
  · intro hall
    by_cases hno : ∀ x ∈ xs, ∀ v, x.2.headOffset = some v → ¬ Straddles s.log x
    · by_cases hne : xs = []
      · rw [hne]
        exact .inl rfl
      · rw [(htrail hne).lastHead_of_not_straddles hno]
        exact .inl rfl
    · push Not at hno
      obtain ⟨x, hx, v, hv, hcommit⟩ := hno
      rw [(htrail (ne_nil_of_mem hx)).lastHead_eq hx hv hcommit]
      exact hall x hx v hv hcommit

def headLog (commit : ℕ) : Log :=
  { head := 0, apply := 0, commit := commit, endOff := 96, tail := 48, len := 200
    entries := putEntry (putEntry (fun _ => 0) 0 blank) 48 head }
where
  blank : Item := ⟨1, 1, 0, 0, .noop⟩
  head : Item := ⟨2, 1, 0, 0, .head 48⟩

def headServer (commit : ℕ) : Polled :=
  { log := headLog commit, idx := 1, cid := ⟨0, 3, 0, .stable, 7⟩, cidOffset := 0, cidIdx := 0
    reqId := 0, cltId := 0, snapshot := false, down := false }

instance (log : Log) (o : ℕ) (xs : List (ℕ × Item)) : Decidable (Scans log o xs) := by
  unfold Scans
  infer_instance

/-- The HEAD entry is committed and moves the head. -/
theorem head_follows_committed_pair :
    Scans (headServer 96).log 0 [(0, headLog.blank), (48, headLog.head)] ∧
      removed (headServer 96) [(0, headLog.blank), (48, headLog.head)] = false ∧
      lastHead (endsCommitted (headLog 96)) [(0, headLog.blank), (48, headLog.head)] 0 = 48 ∧
      FollowsCommitted (headServer 96) [(0, headLog.blank), (48, headLog.head)] := by
  have hscans : Scans (headServer 96).log (headServer 96).cidOffset
      [(0, headLog.blank), (48, headLog.head)] := by decide +kernel
  refine ⟨hscans, by decide +kernel, by decide +kernel,
    (head_follows_committed_iff hscans).mpr (.inr ?_)⟩
  rintro x hx v hv ⟨-, hends⟩
  have hno : ∀ x ∈ [(0, headLog.blank), (48, headLog.head)],
      endsCommitted (headServer 96).log x = true := by decide +kernel
  rw [hno x hx] at hends
  cases hends

/-- The HEAD entry that starts at the commit offset moves the head. -/
theorem head_follows_uncommitted_pair :
    Scans (headServer 48).log 0 [(0, headLog.blank), (48, headLog.head)] ∧
      (pollConfigEntries 3 (headServer 48)).map (fun s => s.log.head) = some 48 ∧
      lastHead (endsCommitted (headLog 48)) [(0, headLog.blank), (48, headLog.head)] 0 = 0 ∧
      ¬ FollowsCommitted (headServer 48) [(0, headLog.blank), (48, headLog.head)] := by
  have hscans : Scans (headServer 48).log (headServer 48).cidOffset
      [(0, headLog.blank), (48, headLog.head)] := by decide +kernel
  refine ⟨hscans, by decide +kernel, by decide +kernel, ?_⟩
  rw [hscans.follows_iff]
  decide +kernel

end VmFt.Dare.Ring
