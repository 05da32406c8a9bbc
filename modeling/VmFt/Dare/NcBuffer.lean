import VmFt.Dare.Pipeline
import VmFt.Dare.ServerLog

/-! # The buffers of uncommitted entries

A server publishes the determinants of its uncommitted entries in an array of
`MAX_NC_ENTRIES`; nothing bounds the number of these entries. The leader compares the
determinants with its own log to find the offset behind the entries that both logs
hold. It returns the offset under which `log_get_entry` finds the first entry that
differs, which is another one where no header fits.
-/

namespace VmFt.Dare.Ring

open Spool VmFt.System List Option

/-! ### The size of the buffer -/

/-- `LOG_SIZE` -/
def logSize : ℕ := 16384 * 4096 * 30

/-- The number of entries behind the commit offset. -/
def ServerLog.uncommitted (s : ServerLog) : ℕ := s.items.length - s.committed

/-- Every entry finds room, and entries are added only up to `MAX_NC_ENTRIES` behind the commit
offset. -/
def fewUncommitted (s : ServerLog) : LogEvent → Prop
  | .append _ _ _ body => HasRoom s.log body.len ∧ s.uncommitted < maxNcEntries
  | .writeEntries new => HasRooms s.log new
  | .writeEnd n => n - s.committed ≤ maxNcEntries
  | _ => True

instance (s : ServerLog) (e : LogEvent) : Decidable (fewUncommitted s e) := by
  rcases e <;> unfold fewUncommitted <;> infer_instance

variable {len p n : ℕ} {s t : ServerLog}

theorem roomForAll_of_few {e : LogEvent} (h : fewUncommitted s e) : roomForAll s e := by
  cases e with
  | append => exact h.1
  | writeEntries => exact h
  | _ => trivial

theorem Held.logEntriesToNcBuf_eq (h : Held s p) :
    ∃ buf, logEntriesToNcBuf s.log = some buf ∧ buf.len = s.uncommitted ∧
      buf.entries.length = s.uncommitted := by
  have hw : ∃ offs, logWalk s.log s.log.len s.log.commit = some offs ∧
      offs.length = s.uncommitted := by
    rcases h.endOff with hend | ⟨hend, hi, -⟩
    · have hr := h.reaches hend
      rw [← take_append_drop s.committed s.items] at hr
      have hw := hr.drop.logWalk_eq hr.drop.length_lt
      rw [← h.commit] at hw
      exact ⟨_, hw, (length_names _ _ _).trans length_drop⟩
    · obtain ⟨fuel, hf⟩ : ∃ k, s.log.len = k + 1 := ⟨s.log.len - 1, by have := h.len_pos; omega⟩
      refine ⟨[], ?_, by simp [ServerLog.uncommitted, hi]⟩
      have hget : logGetEntry s.log s.log.commit = none := if_pos (by simp [isLogEmpty, hend])
      rw [hf, logWalk, hget]
  obtain ⟨offs, hw, hlen⟩ := hw
  refine ⟨⟨offs.length, offs.map (entryDet s.log)⟩, ?_, hlen, ?_⟩
  · rw [logEntriesToNcBuf, hw, map_some]
  · rw [length_map, hlen]

theorem uncommitted_step {e : LogEvent} (h : s.uncommitted ≤ maxNcEntries)
    (hok : fewUncommitted s e) (hs : serverLog.step s e = some t) :
    t.uncommitted ≤ maxNcEntries := by
  cases e with
  | append term reqId cltId body =>
    obtain ⟨⟨log', ret⟩, -, rfl⟩ := map_eq_some_iff.mp hs
    dsimp only
    split_ifs with hret
    · exact h
    · have hfew := hok.2
      simp only [ServerLog.uncommitted, length_append, length_singleton] at hfew ⊢
      omega
  | win | hbReceive stays | vote | verifyLeadership =>
    obtain rfl := Option.some.inj hs
    exact h
  | writeEntries new | apply n =>
    obtain ⟨-, rfl⟩ := guarded_eq_some.mp hs
    exact h
  | writeEnd n =>
    obtain ⟨-, rfl⟩ := guarded_eq_some.mp hs
    have hfew : n - s.committed ≤ maxNcEntries := hok
    simp only [ServerLog.uncommitted, length_take]
    omega
  | commit n =>
    obtain ⟨⟨hle, -⟩, rfl⟩ := guarded_eq_some.mp hs
    simp only [ServerLog.uncommitted] at h ⊢
    omega
  | prune n settled =>
    obtain ⟨⟨hn, -⟩, rfl⟩ := guarded_eq_some.mp hs
    simp only [ServerLog.uncommitted, length_drop] at h ⊢
    omega

/-- If entries are added only up to `MAX_NC_ENTRIES` behind the commit offset, the determinants fit
into the buffer. -/
theorem determinants_fit (hlen : 0 < len)
    (hrun : serverLog.Run fewUncommitted (newServerLog len) s) :
    ∃ buf, logEntriesToNcBuf s.log = some buf ∧ buf.len ≤ maxNcEntries ∧
      buf.entries.length ≤ maxNcEntries := by
  obtain ⟨p, h⟩ := held_of_run hlen (hrun.mono fun _ _ => roomForAll_of_few)
  have hfew : s.uncommitted ≤ maxNcEntries :=
    Run.invariant (I := fun s => s.uncommitted ≤ maxNcEntries) hrun (Nat.zero_le _)
      fun _ _ _ => uncommitted_step
  obtain ⟨buf, hbuf, hbuflen, hentries⟩ := h.logEntriesToNcBuf_eq
  exact ⟨buf, hbuf, hbuflen.trans_le hfew, hentries.trans_le hfew⟩

/-- A leader appends two entries, one is committed, and the other one is published. -/
theorem determinants_fit_two :
    ∃ s, serverLog.Run fewUncommitted (newServerLog 1000) s ∧ s.uncommitted = 1 ∧
      ∃ buf, logEntriesToNcBuf s.log = some buf ∧ buf.len ≤ maxNcEntries ∧
        buf.entries.length ≤ maxNcEntries := by
  obtain ⟨s, hrun, hone⟩ := System.exists_run_of_exec (M := serverLog) (s := newServerLog 1000)
    fewUncommitted (p := fun s => s.uncommitted = 1)
    [.win, .append 1 0 0 .noop, .append 1 0 0 .noop, .commit 1] (by decide +kernel)
  exact ⟨s, hrun, hone, determinants_fit (by decide) hrun⟩

/-- A log that holds `n` blank entries from offset zero on, none of them committed. -/
structure Filled (n : ℕ) (s : ServerLog) : Prop where
  held : Held s 0
  length : s.items.length = n
  committed : s.committed = 0
  endOff : s.log.endOff = if n = 0 then s.log.len else sizeofEntry * n

theorem Filled.hasRoom (h : Filled n s) (hr : sizeofEntry * (n + 1) < s.log.len) :
    HasRoom s.log sizeofEntry := by
  have hpos : 0 < sizeofEntry := by decide
  have hh : s.log.head = 0 := h.held.head.trans (Nat.zero_mod _)
  have hend := h.endOff
  rw [Nat.mul_add, Nat.mul_one] at hr
  unfold HasRoom
  by_cases hn : n = 0
  · rw [if_pos hn] at hend
    rw [if_pos (by simp [isLogEmpty, hend])]
    omega
  · rw [if_neg hn] at hend
    rw [if_neg (by rw [isLogEmpty_iff]; omega), if_neg (by omega)]
    exact .inl (by omega)

theorem Filled.step (h : Filled n s) (hr : sizeofEntry * (n + 1) < s.log.len) :
    ∃ t, roomForAll s (.append 1 0 0 .noop) ∧ serverLog.step s (.append 1 0 0 .noop) = some t ∧
      Filled (n + 1) t ∧ t.log.len = s.log.len := by
  have hpos : 0 < sizeofEntry := by decide
  have hhe : s.log.head = 0 := h.held.head.trans (Nat.zero_mod _)
  have hend := h.endOff
  have hok : HasRoom s.log EntryBody.noop.len := h.hasRoom hr
  obtain ⟨tail, ht⟩ : ∃ tail, logGetTail s.log = some tail := by
    by_cases hu : s.log.tail = s.log.len
    · obtain ⟨tail, ht, -⟩ := h.held.logGetTail_of_unset hu
      exact ⟨tail, ht⟩
    · exact ⟨_, if_pos hu⟩
  obtain ⟨⟨log', ret⟩, happend⟩ : ∃ r, logAppendEntry s.log 1 0 0 .noop = some r :=
    ⟨_, map_eq_some_iff.mpr ⟨tail, ht, rfl⟩⟩
  rcases h.held.append hok happend with ⟨-, -, hf⟩ | ⟨hret, hlay, hh⟩
  · have hlen := h.held.len_pos
    have hmul : n ≠ 0 → 0 < sizeofEntry * n := fun hn => Nat.mul_pos hpos (Nat.pos_of_ne_zero hn)
    split_ifs at hend <;> omega
  · have hs : serverLog.step s (.append 1 0 0 .noop) =
        some { s with log := log', items := s.items ++ [⟨ret, 1, 0, 0, .noop⟩], rest := [] } := by
      refine map_eq_some_iff.mpr ⟨_, happend, ?_⟩
      exact if_neg hret
    refine ⟨_, hok, hs, ⟨hh, ?_, h.committed, ?_⟩, by rw [hlay]; rfl⟩
    · rw [length_append, h.length, length_singleton]
    · rw [if_neg (Nat.succ_ne_zero n), hlay]
      change roomOffset s.log sizeofEntry + sizeofEntry = _
      rw [Nat.mul_add, Nat.mul_one] at hr ⊢
      by_cases hn : n = 0
      · rw [if_pos hn] at hend
        rw [roomOffset, if_neg (by omega), hn, Nat.mul_zero]
      · rw [if_neg hn] at hend
        rw [roomOffset, if_pos (by omega), hend]

theorem exists_filled (hr : sizeofEntry * n < len) :
    ∃ s, serverLog.Run roomForAll (newServerLog len) s ∧ Filled n s ∧ s.log.len = len := by
  induction n with
  | zero =>
    exact ⟨_, .refl, ⟨held_new (by omega), rfl, rfl, rfl⟩, rfl⟩
  | succ n ih =>
    obtain ⟨s, hrun, hf, hlen⟩ := ih (by rw [Nat.mul_succ] at hr; omega)
    obtain ⟨t, hok, hs, ht, htl⟩ := hf.step (by rwa [hlen])
    exact ⟨t, hrun.trans (.cons _ hok hs .refl), ht, htl.trans hlen⟩

/-- After 1025 appends without a commit the determinants run over the end of the buffer. -/
theorem determinants_overflow : ∃ s, serverLog.Run roomForAll (newServerLog logSize) s ∧
      ∃ buf, logEntriesToNcBuf s.log = some buf ∧ buf.len = 1025 ∧ buf.entries.length = 1025 ∧
        maxNcEntries < buf.len := by
  have hroom : sizeofEntry * 1025 < logSize := by decide
  obtain ⟨s, hrun, hfilled, -⟩ := exists_filled hroom
  have huncommitted : s.uncommitted = 1025 := by
    rw [ServerLog.uncommitted, hfilled.length, hfilled.committed]
  obtain ⟨buf, hbuf, hlen, hentries⟩ := hfilled.held.logEntriesToNcBuf_eq
  rw [huncommitted] at hlen hentries
  exact ⟨s, hrun, buf, hbuf, hlen, hentries, by rw [hlen]; decide⟩

/-! ### The entries that two logs share -/

def SameDet (it it' : Item) : Prop :=
  it.idx % 2 ^ 64 = it'.idx % 2 ^ 64 ∧ it.term % 2 ^ 64 = it'.term % 2 ^ 64

instance (it it' : Item) : Decidable (SameDet it it') := inferInstanceAs (Decidable (_ ∧ _))

/-- The entries `xs` are those from the offset `o` to the end of the log. A log that ends at `len`
is empty, or its last entry ends with the buffer. -/
def HoldsFrom (log : Log) (o : ℕ) (xs : List (ℕ × Item)) : Prop :=
  if isLogEmpty log then xs = [] ∨ Trail { log with endOff := 0 } o xs log.len
  else ∃ e, Trail log o xs e ∧ logOffsetEndDistance log e = 0

/-- One of the entries `ours` lies at the place of `x` and has its index and term. -/
def HeldIn (ours : List (ℕ × Item)) (x : ℕ × Item) : Prop :=
  ∃ y ∈ ours, y.1 = x.1 ∧ SameDet y.2 x.2

instance (ours : List (ℕ × Item)) (x : ℕ × Item) : Decidable (HeldIn ours x) :=
  inferInstanceAs (Decidable (∃ y ∈ ours, y.1 = x.1 ∧ SameDet y.2 x.2))

/-- The entries of `theirs` that `ours` holds too. -/
def shared (ours theirs : List (ℕ × Item)) : List (ℕ × Item) :=
  theirs.filter fun x => HeldIn ours x

def behindShared (r : Log) (ours theirs : List (ℕ × Item)) : ℕ :=
  match (shared ours theirs).getLast? with
  | some x => x.1 + x.2.body.len
  | none => r.commit

/-- Log matching from the commit offset of the remote log on: entries of the same index and term
have the same entries in front of them, and are the same entry also in memory that a log has left
behind. -/
structure LogMatching (l r : Log) (ours theirs : List (ℕ × Item)) : Prop where
  upTo : ∀ (i : Fin theirs.length) (j : Fin ours.length),
    SameDet (ours.get j).2 (theirs.get i).2 →
      (theirs.take (i + 1)).map (·.2) = (ours.take (j + 1)).map (·.2)
  entry : ∀ off ∈ entryOffsets r r.commit theirs, entryIdx l off = entryIdx r off →
    entryTerm l off = entryTerm r off → logEntryLen l off = logEntryLen r off

/-- The leader's log `l` has the entries `ours` from the commit offset of the remote log `r` on,
which has the entries `theirs` there. -/
structure Compared (l r : Log) (ours theirs : List (ℕ × Item)) : Prop extends
    LogMatching l r ours theirs where
  len_eq : l.len = r.len
  leader : HoldsFrom l r.commit ours
  remote : HoldsFrom r r.commit theirs
  not_empty : isLogEmpty r = false
  ne_nil : theirs ≠ []

/-- The shared entries are the first ones, and the leader finds the offset behind them. The offset
behind an entry that ends with the buffer is also called zero. -/
def FindsShared (l r : Log) (ours theirs : List (ℕ × Item)) : Prop :=
  shared ours theirs <+: theirs ∧
    ∃ buf, logEntriesToNcBuf r = some buf ∧ buf.entries ≠ [] ∧
      ∀ start, logFindRemoteEndOffset l buf.entries start = behindShared r ours theirs ∨
        behindShared r ours theirs = r.len ∧ logFindRemoteEndOffset l buf.entries start = 0

/-- The leader's log looks empty although it holds shared entries, or some entries are not shared
and no header fits behind those that are. -/
def Misnamed (l r : Log) (ours theirs : List (ℕ × Item)) : Prop :=
  isLogEmpty l = true ∧ shared ours theirs ≠ [] ∨
    shared ours theirs ≠ theirs ∧ behindShared r ours theirs < r.len ∧
      r.len - behindShared r ours theirs < sizeofEntry

variable {l r : Log} {o w e e' : ℕ} {it : Item} {xs ys ours theirs : List (ℕ × Item)}

theorem Trail.eq_of_items (h : Trail l o xs e) (h' : Trail r o ys e') (hlen : l.len = r.len)
    (hi : xs.map (·.2) = ys.map (·.2)) : xs = ys ∧ e = e' := by
  induction xs generalizing o ys with
  | nil =>
    obtain rfl : ys = [] := map_eq_nil_iff.mp hi.symm
    obtain rfl : o = e := h
    exact ⟨rfl, h'⟩
  | cons x xs ih =>
    obtain ⟨w, it⟩ := x
    cases ys with
    | nil => cases hi
    | cons y ys =>
      obtain ⟨w', it'⟩ := y
      obtain ⟨rfl, hrest⟩ : it = it' ∧ xs.map (·.2) = ys.map (·.2) := List.cons.inj hi
      obtain rfl : w = w' := by rw [h.1.place, h'.1.place, hlen]
      obtain ⟨rfl, rfl⟩ := ih h.2 h'.2 hrest
      exact ⟨rfl, rfl⟩

theorem exists_common {α : Type*} [DecidableEq α] (xs ys : List α) :
    ∃ cs as bs, xs = cs ++ as ∧ ys = cs ++ bs ∧ ∀ x, as.head? = some x → bs.head? ≠ some x := by
  induction xs generalizing ys with
  | nil => exact ⟨[], [], ys, rfl, rfl, fun x hx => by cases hx⟩
  | cons x xs ih =>
    by_cases hh : ys.head? = some x
    · obtain ⟨ys, rfl⟩ := List.head?_eq_some_iff.mp hh
      obtain ⟨cs, as, bs, rfl, rfl, hd⟩ := ih ys
      exact ⟨x :: cs, as, bs, rfl, rfl, hd⟩
    · refine ⟨[], x :: xs, ys, rfl, rfl, fun y hy => ?_⟩
      obtain rfl : x = y := Option.some.inj hy
      exact hh

theorem entryOffset_congr (hlen : l.len = r.len) (o : ℕ) : entryOffset l o = entryOffset r o := by
  unfold entryOffset logFitEntryHeader
  rw [hlen]

theorem Next.logGetEntry_entryOffset (h : Next l o w it) :
    logGetEntry l (entryOffset l o) = some (entryOffset l o) := by
  rcases h.entryOffset_eq with ⟨heq, -⟩ | ⟨heq, -⟩
  · rw [heq, h.at_whole.logGetEntry_eq, h.entryOffset_whole]
  · have hget := h.logGetEntry_eq
    rwa [heq] at hget ⊢

theorem Trail.entryOffsets_append (h : Trail r o xs e) :
    entryOffsets r o (xs ++ ys) = entryOffsets r o xs ++ entryOffsets r e ys := by
  induction xs generalizing o with
  | nil =>
    obtain rfl : o = e := h
    rfl
  | cons x xs ih =>
    obtain ⟨w, it⟩ := x
    rw [cons_append, entryOffsets, ih h.2]
    rfl

def dets (r : Log) (o : ℕ) (xs : List (ℕ × Item)) : List Det :=
  (entryOffsets r o xs).map (entryDet r)

theorem dets_cons : dets r o ((w, it) :: xs) =
    entryDet r (entryOffset r o) :: dets r (w + it.body.len) xs := rfl

theorem Trail.dets_append (h : Trail r o xs e) :
    dets r o (xs ++ ys) = dets r o xs ++ dets r e ys := by
  rw [dets, h.entryOffsets_append, map_append]
  rfl

theorem find_of_pass {off : ℕ} (ds : List Det) (start : ℕ) (hget : logGetEntry l off = some off)
    (hidx : entryIdx l off = entryIdx r off) (hterm : entryTerm l off = entryTerm r off) :
    logFindRemoteEndOffset l (entryDet r off :: ds) start =
      logFindRemoteEndOffset l ds (nextOffset l off) := by
  have ho : (entryDet r off).offset = off := rfl
  rw [logFindRemoteEndOffset, ho, hget]
  exact if_neg (not_or.mpr ⟨not_not.mpr hidx, not_not.mpr hterm⟩)

theorem Next.find_cons (h : Next l o w it) (h' : Next r o w it) (hlen : l.len = r.len)
    (ds : List Det) (start : ℕ) :
    logFindRemoteEndOffset l (entryDet r (entryOffset r o) :: ds) start =
      logFindRemoteEndOffset l ds (w + it.body.len) := by
  have hoff := entryOffset_congr hlen o
  have ho := h.headed_entryOffset
  have ht := h'.headed_entryOffset
  have hget := h.logGetEntry_entryOffset
  have hn := h.nextOffset_eq
  rw [hoff] at ho hget hn
  rw [find_of_pass ds start hget (ho.idx.trans ht.idx.symm) (ho.term.trans ht.term.symm), hn]

theorem Trail.find_append (h : Trail l o xs e) (h' : Trail r o xs e) (hlen : l.len = r.len)
    (ds : List Det) (start : ℕ) : logFindRemoteEndOffset l (dets r o xs ++ ds) start =
      logFindRemoteEndOffset l ds (if xs = [] then start else e) := by
  induction xs generalizing o start with
  | nil => rfl
  | cons x xs ih =>
    obtain ⟨w, it⟩ := x
    have hl : (if xs = [] then w + it.body.len else e) = e := by
      split_ifs with hnil
      · rw [hnil] at h
        exact h.2
      · rfl
    rw [if_neg (cons_ne_nil _ _), ← hl, ← ih h.2 h'.2]
    exact h.1.find_cons h'.1 hlen _ start

theorem find_of_stop {off : ℕ} (ds : List Det) (start : ℕ)
    (hs : logGetEntry l off = none ∨ logGetEntry l off = some off ∧
      (entryIdx l off ≠ entryIdx r off ∨ entryTerm l off ≠ entryTerm r off)) :
    logFindRemoteEndOffset l (entryDet r off :: ds) start = off := by
  have ho : (entryDet r off).offset = off := rfl
  rw [logFindRemoteEndOffset, ho]
  rcases hs with hn | ⟨hget, hne⟩
  · rw [hn]
  · rw [hget]
    exact if_pos hne

theorem Next.distance_entryOffset (h : Next r o w it) :
    logOffsetEndDistance r w ≤ logOffsetEndDistance r (entryOffset r o) ∧
      logOffsetEndDistance r (entryOffset r o) ≤ logOffsetEndDistance r o := by
  have hgap := h.gap
  rcases h.entryOffset_eq with ⟨heq, -⟩ | ⟨heq, -⟩
  · rw [heq]
    exact ⟨Nat.le_refl _, hgap⟩
  · rw [heq]
    exact ⟨hgap, Nat.le_refl _⟩

theorem Next.logGetEntry_det (h : Next r o w it) (hlen : l.len = r.len) :
    logGetEntry l (entryOffset r o) = none ∨
      logGetEntry l (entryOffset r o) = some (entryOffset r o) := by
  have hs := sizeofEntry_le_len it.body
  have hfits := h.fits
  have hh : logFitEntryHeader l (entryOffset r o) = true := by
    rw [logFitEntryHeader_iff, hlen]
    by_cases hh : logFitEntryHeader r o = true
    · rw [entryOffset, if_pos hh]
      exact logFitEntryHeader_iff.mp hh
    · rw [entryOffset, if_neg hh]
      omega
  unfold logGetEntry
  split_ifs
  · exact .inl rfl
  · exact .inl rfl
  · exact .inr rfl

theorem Trail.distance_find_le (h : Trail r o xs e) (hne : xs ≠ []) (hlen : l.len = r.len)
    (hentry : ∀ off ∈ entryOffsets r o xs, entryIdx l off = entryIdx r off →
      entryTerm l off = entryTerm r off → logEntryLen l off = logEntryLen r off) (start : ℕ) :
    logOffsetEndDistance r (logFindRemoteEndOffset l (dets r o xs) start) ≤
      logOffsetEndDistance r (entryOffset r o) := by
  induction xs generalizing o start with
  | nil => exact absurd rfl hne
  | cons x xs ih =>
    obtain ⟨w, it⟩ := x
    obtain ⟨hnx, hrest⟩ := h
    have hst := @find_of_stop l r (entryOffset r o) (dets r (w + it.body.len) xs) start
    rcases hnx.logGetEntry_det hlen with hget | hget
    · exact (congrArg _ (hst (.inl hget))).le
    · by_cases hd : entryIdx l (entryOffset r o) ≠ entryIdx r (entryOffset r o) ∨
          entryTerm l (entryOffset r o) ≠ entryTerm r (entryOffset r o)
      · exact (congrArg _ (hst (.inr ⟨hget, hd⟩))).le
      · -- What the leader finds may lie behind its end; it has the length of the remote entry.
        have hs := not_or.mp hd
        have hl := hentry _ mem_cons_self (not_not.mp hs.1) (not_not.mp hs.2)
        have hn : nextOffset l (entryOffset r o) = w + it.body.len := by
          rw [← hnx.nextOffset_eq, nextOffset, nextOffset, logFitEntry, logFitEntry, hl, hlen]
        have hf : logFindRemoteEndOffset l (dets r o ((w, it) :: xs)) start =
            logFindRemoteEndOffset l (dets r (w + it.body.len) xs) (w + it.body.len) := by
          rw [dets_cons, find_of_pass _ start hget (not_not.mp hs.1) (not_not.mp hs.2), hn]
        rw [hf]
        have hr := hnx.reach
        have hb := hnx.distance_entryOffset
        by_cases hnil : xs = []
        · rw [hnil]
          change logOffsetEndDistance r (w + it.body.len) ≤ _
          omega
        · have hih := ih hrest hnil (fun off hoff => hentry off (mem_cons_of_mem _ hoff))
            (w + it.body.len)
          obtain ⟨⟨w', it'⟩, ys, rfl⟩ := exists_cons_of_ne_nil hnil
          have hb' := hrest.1.distance_entryOffset
          omega

/-! ### What the leader finds -/

/-- The two logs share the entries `cs` up to the offset `m`; the leader's log goes on with `as`,
the remote one with `bs`. -/
structure Parted (l r : Log) (ours theirs cs as bs : List (ℕ × Item)) (m : ℕ) : Prop where
  ours_eq : ours = cs ++ as
  theirs_eq : theirs = cs ++ bs
  shared_eq : shared ours theirs = cs
  behind_eq : behindShared r ours theirs = m
  trail : Trail r r.commit cs m
  rest : ∃ e, Trail r m bs e ∧ logOffsetEndDistance r e = 0
  differ : ∀ y x, as.head? = some y → bs.head? = some x → ¬ SameDet y.2 x.2

variable {cs as bs : List (ℕ × Item)} {m : ℕ}

namespace Compared

theorem remote_trail (h : Compared l r ours theirs) :
    ∃ e, Trail r r.commit theirs e ∧ logOffsetEndDistance r e = 0 := by
  have hr := h.remote
  rwa [HoldsFrom, if_neg (by simp [h.not_empty])] at hr

theorem leader_trail (h : Compared l r ours theirs) :
    ∃ l' e, l'.len = r.len ∧ Trail l' r.commit ours e := by
  have hl := h.leader
  unfold HoldsFrom at hl
  split_ifs at hl with hempty
  · rcases hl with rfl | ht
    · exact ⟨l, _, h.len_eq, rfl⟩
    · exact ⟨{ l with endOff := 0 }, _, h.len_eq, ht⟩
  · obtain ⟨e, ht, -⟩ := hl
    exact ⟨l, e, h.len_eq, ht⟩

theorem front_of_held (h : Compared l r ours theirs) {x : ℕ × Item}
    (ht : theirs = as ++ x :: bs) (hh : ∃ y ∈ ours, SameDet y.2 x.2) : as ++ [x] <+: ours := by
  obtain ⟨y, hy, hs⟩ := hh
  obtain ⟨j, rfl⟩ := List.get_of_mem hy
  have hlen : as.length < theirs.length := by
    rw [ht, length_append, length_cons]
    omega
  have hget : theirs.get ⟨as.length, hlen⟩ = x := by
    simp [ht]
  have hta : theirs.take (as.length + 1) = as ++ [x] := by
    rw [ht, take_append, take_of_length_le (Nat.le_succ _)]
    simp
  have hi := h.upTo ⟨as.length, hlen⟩ j (by rwa [hget])
  obtain ⟨e, htr, -⟩ := h.remote_trail
  obtain ⟨l', e', hlen', ht'⟩ := h.leader_trail
  rw [← take_append_drop (as.length + 1) theirs] at htr
  rw [← take_append_drop (j + 1) ours] at ht'
  obtain ⟨m, hf, -⟩ := Trail.append_iff.mp htr
  obtain ⟨m', hf', -⟩ := Trail.append_iff.mp ht'
  rw [← hta, (hf.eq_of_items hf' hlen'.symm hi).1]
  exact take_prefix _ _

theorem exists_parted (h : Compared l r ours theirs) :
    ∃ cs as bs m, Parted l r ours theirs cs as bs m := by
  obtain ⟨cs, as, bs, ho, ht, hh⟩ := exists_common ours theirs
  obtain ⟨e, htr, hend⟩ := h.remote_trail
  rw [ht] at htr
  obtain ⟨m, hf, hrest⟩ := Trail.append_iff.mp htr
  -- an entry behind the shared ones that the leader holds would make `as` and `bs` start alike
  have hbs : ∀ zs x ws, bs = zs ++ x :: ws → ¬ ∃ y ∈ ours, SameDet y.2 x.2 := by
    intro zs x ws hbs hhe
    have hs : theirs = (cs ++ zs) ++ x :: ws := by rw [ht, hbs, append_assoc]
    have hst := h.front_of_held hs hhe
    rw [ho, append_assoc, prefix_append_right_inj] at hst
    obtain ⟨as', rfl⟩ := hst
    cases zs with
    | nil => exact hh x rfl (by rw [hbs]; rfl)
    | cons z zs => exact hh z rfl (by rw [hbs]; rfl)
  have hsh : shared ours theirs = cs := by
    rw [shared, ht, filter_append]
    have hcs : cs.filter (fun x => HeldIn ours x) = cs := by
      refine filter_eq_self.mpr fun x hx => decide_eq_true ?_
      exact ⟨x, by rw [ho]; exact mem_append_left _ hx, rfl, rfl, rfl⟩
    have hn : bs.filter (fun x => HeldIn ours x) = [] := by
      refine filter_eq_nil_iff.mpr fun x hx hhe => ?_
      obtain ⟨zs, ws, hs⟩ := append_of_mem hx
      obtain ⟨y, hy, -, hsa⟩ := of_decide_eq_true hhe
      exact hbs zs x ws hs ⟨y, hy, hsa⟩
    rw [hcs, hn, List.append_nil]
  refine ⟨cs, as, bs, m, ho, ht, hsh, ?_, hf, ⟨e, hrest, hend⟩, ?_⟩
  · rw [behindShared, hsh]
    rcases eq_nil_or_concat' cs with rfl | ⟨init, x, rfl⟩
    · exact hf
    · obtain ⟨o, -, -, hl⟩ := Trail.append_iff.mp hf
      rw [getLast?_concat]
      exact hl
  · intro y x hy hx hsa
    obtain ⟨as', rfl⟩ := List.head?_eq_some_iff.mp hy
    obtain ⟨bs', rfl⟩ := List.head?_eq_some_iff.mp hx
    exact hbs [] x bs' rfl ⟨y, by rw [ho]; simp, hsa⟩

theorem published (h : Compared l r ours theirs) : logEntriesToNcBuf r =
      some ⟨(entryOffsets r r.commit theirs).length, dets r r.commit theirs⟩ := by
  obtain ⟨e, ht, hend⟩ := h.remote_trail
  have hpos : 0 < r.len := by
    obtain ⟨⟨w, it⟩, xs, hxs⟩ := exists_cons_of_ne_nil h.ne_nil
    rw [hxs] at ht
    have hfits := ht.1.fits
    have hlen := Ring.len_pos it.body
    omega
  rw [logEntriesToNcBuf, ht.logWalk_eq hend (ht.length_lt_len hend hpos)]
  rfl

theorem distance_eq (h : Compared l r ours theirs) {off : ℕ}
    (hoff : off = m ∨ m = r.len ∧ off = 0) :
    logOffsetEndDistance r off = logOffsetEndDistance r m := by
  rcases hoff with rfl | ⟨rfl, rfl⟩
  · rfl
  · obtain ⟨e, ht, hend⟩ := h.remote_trail
    have hle := ht.endOff_le hend h.ne_nil
    have hne := isLogEmpty_eq_false_iff.mp h.not_empty
    simp only [logOffsetEndDistance_of_not_empty h.not_empty]
    split_ifs <;> omega

end Compared

theorem find_of_empty (hempty : isLogEmpty l = true) (h : Trail r o xs e) (hne : xs ≠ [])
    (start : ℕ) : logFindRemoteEndOffset l (dets r o xs) start = entryOffset r o := by
  obtain ⟨⟨w, it⟩, xs, rfl⟩ := exists_cons_of_ne_nil hne
  exact find_of_stop _ _ (.inl (if_pos hempty))

theorem Next.le_len (h : Next r o w it) : o ≤ r.len := by
  have hgap := h.gap
  have hr := h.reach
  have hp := h.place
  have hpos := Ring.len_pos it.body
  have hfits := h.fits
  split_ifs at hp with hfit
  · omega
  · subst hp
    simp only [logOffsetEndDistance_of_not_empty h.not_empty] at hgap hr
    split_ifs at hgap hr <;> omega

theorem Next.entryOffset_iff (h : Next r o w it) :
    (entryOffset r o = o ∨ o = r.len ∧ entryOffset r o = 0) ↔
      ¬ (o < r.len ∧ r.len - o < sizeofEntry) := by
  have hs := sizeofEntry_le_len it.body
  have hfits := h.fits
  have hpos : 0 < sizeofEntry := by decide
  have hle := h.le_len
  unfold entryOffset
  simp only [logFitEntryHeader_iff]
  split_ifs <;> omega

theorem Next.distance_lt (h : Next r o w it) (hlt : o < r.len) (hh : r.len - o < sizeofEntry) :
    logOffsetEndDistance r (entryOffset r o) < logOffsetEndDistance r o := by
  have hs := sizeofEntry_le_len it.body
  have hfits := h.fits
  have hz : w = 0 := by rw [h.place, if_neg (by omega)]
  have hoff : entryOffset r o = 0 := if_neg (by rw [logFitEntryHeader_iff]; omega)
  subst hz
  rw [hoff]
  exact h.lt_of_zero (by omega) hlt

theorem HoldsFrom.parted (h : HoldsFrom l o (cs ++ as)) (hempty : isLogEmpty l = false)
    (hcs : Trail r o cs m) (hlen : l.len = r.len) :
    Trail l o cs m ∧ ∃ e, Trail l m as e ∧ logOffsetEndDistance l e = 0 := by
  rw [HoldsFrom, if_neg (by simp [hempty])] at h
  obtain ⟨e, ht, hend⟩ := h
  obtain ⟨m', hf, hrest⟩ := Trail.append_iff.mp ht
  obtain ⟨-, rfl⟩ := hf.eq_of_items hcs hlen rfl
  exact ⟨hf, e, hrest, hend⟩

theorem find_rest (h : Trail r m bs e) (hne : bs ≠ []) (hlen : l.len = r.len)
    (hl : ∃ e, Trail l m as e ∧ logOffsetEndDistance l e = 0) (hempty : isLogEmpty l = false)
    (hd : ∀ y x, as.head? = some y → bs.head? = some x → ¬ SameDet y.2 x.2)
    (hn : ¬ (m < r.len ∧ r.len - m < sizeofEntry)) (start : ℕ) :
    logFindRemoteEndOffset l (dets r m bs) start = entryOffset r m := by
  obtain ⟨⟨w, it⟩, bs, rfl⟩ := exists_cons_of_ne_nil hne
  obtain ⟨hnx, -⟩ := h
  obtain ⟨e', hl, hend⟩ := hl
  refine find_of_stop _ _ ?_
  cases as with
  | nil =>
    -- The leader's log ends at `m`, under the name it has there or as zero.
    left
    obtain rfl : m = e' := hl
    refine logGetEntry_of_zero ?_
    rcases hnx.entryOffset_iff.mpr hn with hoff | ⟨rfl, hoff⟩
    · rw [hoff, hend]
    · have hne := isLogEmpty_eq_false_iff.mp hempty
      rw [hoff]
      simp only [logOffsetEndDistance_of_not_empty hempty, ← hlen] at hend ⊢
      split_ifs at hend ⊢ <;> omega
  | cons y as =>
    right
    obtain ⟨w', it'⟩ := y
    have ho := hl.1.headed_entryOffset
    have hget := hl.1.logGetEntry_entryOffset
    rw [entryOffset_congr hlen] at ho hget
    refine ⟨hget, ?_⟩
    have ht := hnx.headed_entryOffset
    rw [ho.idx, ho.term, ht.idx, ht.term]
    exact not_and_or.mp (hd _ _ rfl rfl)

theorem Trail.distance_lt (h : Trail r o xs e) (hne : xs ≠ []) :
    logOffsetEndDistance r e < logOffsetEndDistance r (entryOffset r o) := by
  obtain ⟨⟨w, it⟩, xs, rfl⟩ := exists_cons_of_ne_nil hne
  obtain ⟨hn, hrest⟩ := h
  have hr := hn.reach
  have hb := hn.distance_entryOffset
  have hd := hrest.distance_le
  have hpos := Ring.len_pos it.body
  omega

theorem Parted.found_empty_iff (h : Parted l r ours theirs cs as bs m)
    (hc : Compared l r ours theirs) :
    (entryOffset r r.commit = m ∨ m = r.len ∧ entryOffset r r.commit = 0) ↔
      cs = [] ∧ ¬ (m < r.len ∧ r.len - m < sizeofEntry) := by
  by_cases hcs : cs = []
  · have htr := h.trail
    have ht := h.theirs_eq
    rw [hcs] at htr ht
    obtain rfl : r.commit = m := htr
    have hbs : bs ≠ [] := by
      rw [nil_append] at ht
      rw [← ht]
      exact hc.ne_nil
    obtain ⟨⟨w, it⟩, bs', rfl⟩ := exists_cons_of_ne_nil hbs
    obtain ⟨e, ⟨hne, -⟩, -⟩ := h.rest
    rw [hne.entryOffset_iff]
    exact ⟨fun hn => ⟨hcs, hn⟩, fun hn => hn.2⟩
  · refine ⟨fun hf => ?_, fun hf => absurd hf.1 hcs⟩
    exact absurd (hc.distance_eq hf) (h.trail.distance_lt hcs).ne'

theorem Parted.found_rest_iff (h : Parted l r ours theirs cs as bs m)
    (hco : Compared l r ours theirs) (hempty : isLogEmpty l = false) (hbs : bs ≠ []) (start : ℕ) :
    (logFindRemoteEndOffset l (dets r m bs) start = m ∨
        m = r.len ∧ logFindRemoteEndOffset l (dets r m bs) start = 0) ↔
      ¬ (m < r.len ∧ r.len - m < sizeofEntry) := by
  have hlen := hco.len_eq
  obtain ⟨e, hrest, -⟩ := h.rest
  obtain ⟨⟨w, it⟩, bs', rfl⟩ := exists_cons_of_ne_nil hbs
  constructor
  · rintro hf ⟨hlt, hh⟩
    have hentry : ∀ off ∈ entryOffsets r m ((w, it) :: bs'), entryIdx l off = entryIdx r off →
        entryTerm l off = entryTerm r off → logEntryLen l off = logEntryLen r off := by
      intro off hoff
      refine hco.entry off ?_
      rw [h.theirs_eq, h.trail.entryOffsets_append]
      exact mem_append_right _ hoff
    have hb := hrest.distance_find_le hbs hlen hentry start
    have hc := hrest.1.distance_lt hlt hh
    exact absurd (hco.distance_eq hf) (hb.trans_lt hc).ne
  · intro hn
    have hl := hco.leader
    rw [h.ours_eq] at hl
    obtain ⟨-, ho⟩ := hl.parted hempty h.trail hlen
    rw [find_rest hrest hbs hlen ho hempty h.differ hn]
    exact hrest.1.entryOffset_iff.mpr hn

/-- The leader finds the place behind the shared entries unless it is misnamed. -/
theorem Parted.found_iff (h : Parted l r ours theirs cs as bs m)
    (hc : Compared l r ours theirs) (start : ℕ) :
    (logFindRemoteEndOffset l (dets r r.commit theirs) start = m ∨
        m = r.len ∧ logFindRemoteEndOffset l (dets r r.commit theirs) start = 0) ↔
      ¬ Misnamed l r ours theirs := by
  have hno : shared ours theirs ≠ theirs ↔ bs ≠ [] := by
    rw [h.shared_eq, h.theirs_eq, ne_eq, self_eq_append_right]
  rw [Misnamed, hno, h.behind_eq, h.shared_eq, not_or]
  cases hempty : isLogEmpty l with
  | true =>
    obtain ⟨e, ht, -⟩ := hc.remote_trail
    rw [find_of_empty hempty ht hc.ne_nil, h.found_empty_iff hc]
    constructor
    · rintro ⟨rfl, hn⟩
      exact ⟨fun hne => hne.2 rfl, fun hmis => hn hmis.2⟩
    · rintro ⟨hnn, hn⟩
      have hcs : cs = [] := not_not.mp fun hne => hnn ⟨rfl, hne⟩
      have hbs : bs ≠ [] := fun hnil => hc.ne_nil (by rw [h.theirs_eq, hcs, hnil]; rfl)
      exact ⟨hcs, fun hmis => hn ⟨hbs, hmis⟩⟩
  | false =>
    have hl := hc.leader
    rw [h.ours_eq] at hl
    obtain ⟨hf, -⟩ := hl.parted hempty h.trail hc.len_eq
    rw [h.theirs_eq, h.trail.dets_append, hf.find_append h.trail hc.len_eq]
    by_cases hbs : bs = []
    · have hcs : cs ≠ [] := fun hnil => hc.ne_nil (by rw [h.theirs_eq, hbs, hnil]; rfl)
      rw [hbs, if_neg hcs]
      exact ⟨fun _ => ⟨fun hmis => Bool.false_ne_true hmis.1, fun hmis => hmis.1 rfl⟩,
        fun _ => .inl rfl⟩
    · rw [h.found_rest_iff hc hempty hbs]
      exact ⟨fun hn => ⟨fun hmis => Bool.false_ne_true hmis.1, fun hmis => hn hmis.2⟩,
        fun hn hmis => hn.2 ⟨hbs, hmis⟩⟩

/-- The leader finds the offset behind the last uncommitted entry that both logs hold, unless its
own log looks empty although it holds one, or no header fits behind the last one and more follow. -/
theorem finds_shared_iff (h : Compared l r ours theirs) :
    FindsShared l r ours theirs ↔ ¬ Misnamed l r ours theirs := by
  obtain ⟨cs, as, bs, m, hparted⟩ := h.exists_parted
  have hfront : shared ours theirs <+: theirs := by
    rw [hparted.shared_eq, hparted.theirs_eq]
    exact prefix_append _ _
  have hne : dets r r.commit theirs ≠ [] := by
    obtain ⟨⟨w, it⟩, xs, hxs⟩ := exists_cons_of_ne_nil h.ne_nil
    rw [hxs]
    exact cons_ne_nil _ _
  constructor
  · rintro ⟨-, buf, hbuf, -, hfound⟩
    obtain rfl := Option.some.inj (h.published.symm.trans hbuf)
    rw [hparted.behind_eq] at hfound
    exact (hparted.found_iff h 0).mp (hfound 0)
  · intro hnamed
    refine ⟨hfront, _, h.published, hne, fun start => ?_⟩
    rw [hparted.behind_eq]
    exact (hparted.found_iff h start).mpr hnamed

instance (l r : Log) (ours theirs : List (ℕ × Item)) : Decidable (Misnamed l r ours theirs) :=
  inferInstanceAs (Decidable (_ ∨ _))

instance (l r : Log) (ours theirs : List (ℕ × Item)) :
    Decidable (LogMatching l r ours theirs) :=
  decidable_of_iff (_ ∧ _) ⟨fun ⟨h₁, h₂⟩ => ⟨h₁, h₂⟩, fun h => ⟨h.upTo, h.entry⟩⟩

/-- Two uncommitted entries at the offsets `off` and `next`, of which the second has the given
term. -/
def pairLog (off next term : ℕ) : Log :=
  { head := off, apply := off, commit := off, endOff := next + 48, tail := next, len := 168
    entries := putEntry (putEntry (fun _ => 0) off first) next (second term) }
where
  first : Item := ⟨3, 1, 0, 0, .noop⟩
  second (term : ℕ) : Item := ⟨4, term, 0, 0, .noop⟩

def pairEntries (off next term : ℕ) : List (ℕ × Item) :=
  [(off, pairLog.first), (next, pairLog.second term)]

/-- The second entries differ, and the leader finds the offset 48 behind the first ones. -/
theorem finds_shared_first :
    Compared (pairLog 0 48 2) (pairLog 0 48 1) (pairEntries 0 48 2) (pairEntries 0 48 1) ∧
      behindShared (pairLog 0 48 1) (pairEntries 0 48 2) (pairEntries 0 48 1) = 48 ∧
      FindsShared (pairLog 0 48 2) (pairLog 0 48 1) (pairEntries 0 48 2) (pairEntries 0 48 1) := by
  have hcompared : Compared (pairLog 0 48 2) (pairLog 0 48 1) (pairEntries 0 48 2)
      (pairEntries 0 48 1) :=
    ⟨by decide +kernel, rfl, ⟨96, by decide +kernel, rfl⟩, ⟨96, by decide +kernel, rfl⟩, rfl,
      cons_ne_nil _ _⟩
  exact ⟨hcompared, by decide +kernel, (finds_shared_iff hcompared).mpr (by decide +kernel)⟩

/-- No header fits behind the first entries, at 144. The leader finds the offset zero, and with its
end there the remote log still holds the entry that differs. -/
theorem finds_zero_behind_shared :
    Compared (pairLog 96 0 2) (pairLog 96 0 1) (pairEntries 96 0 2) (pairEntries 96 0 1) ∧
      behindShared (pairLog 96 0 1) (pairEntries 96 0 2) (pairEntries 96 0 1) = 144 ∧
      (logEntriesToNcBuf (pairLog 96 0 1)).map
        (fun buf => logFindRemoteEndOffset (pairLog 96 0 2) buf.entries 0) = some 0 ∧
      logGetEntry { pairLog 96 0 1 with endOff := 0 } 144 = some 0 ∧
      ¬ FindsShared (pairLog 96 0 2) (pairLog 96 0 1) (pairEntries 96 0 2)
        (pairEntries 96 0 1) := by
  have hcompared : Compared (pairLog 96 0 2) (pairLog 96 0 1) (pairEntries 96 0 2)
      (pairEntries 96 0 1) :=
    ⟨by decide +kernel, rfl, ⟨48, by decide +kernel, rfl⟩, ⟨48, by decide +kernel, rfl⟩, rfl,
      cons_ne_nil _ _⟩
  have hbehind : behindShared (pairLog 96 0 1) (pairEntries 96 0 2) (pairEntries 96 0 1) = 144 := by
    decide +kernel
  have hbuf : (logEntriesToNcBuf (pairLog 96 0 1)).map
      (fun buf => logFindRemoteEndOffset (pairLog 96 0 2) buf.entries 0) = some 0 := by
    decide +kernel
  refine ⟨hcompared, hbehind, hbuf, by decide +kernel, ?_⟩
  rintro ⟨-, buf, hpublished, -, hfound⟩
  rw [hpublished] at hbuf
  have hzero : logFindRemoteEndOffset (pairLog 96 0 2) buf.entries 0 = 0 := Option.some.inj hbuf
  rw [hbehind] at hfound
  rcases hfound 0 with h | ⟨h, -⟩
  · exact absurd (hzero.symm.trans h) (by decide)
  · exact absurd h (by decide)

end VmFt.Dare.Ring
