import VmFt.Dare.Pruning

/-! # No server is left behind by pruning

The head offset of a server never moves back and never passes the apply offset
of a server that is on. Recorded apply offsets are never ahead of the real ones,
since apply offsets only grow; so a head offset the leader chooses is a bound for
every server that is on in its configuration, and with it every HEAD entry is.
-/

namespace VmFt.Dare.Pruning

open VmFt.System List Option
open Config (maxServerCount isServerOn serverRm addServer getExtendedGroupSize initialCid)

/-! ### The condition -/

/-- An entry fits behind the end of the log: it does not end with the buffer, and the log stays
shorter than the buffer. -/
def fits (len head size : ℕ) (log : List Record) : Prop :=
  0 < size ∧ size < len ∧ endPos log % len + size ≠ len ∧
    Spool.behind len (endPos log) size < head + len

/-- Every server that is on in `cid` is on in the configuration of some server. -/
def known (s : State) (cid : Cid) : Prop :=
  ∀ j < maxServerCount, isServerOn cid j = true → (s.members j).status ≠ .vacant →
    ∃ k < maxServerCount, (s.members k).status = .running ∧
      isServerOn (s.members k).cid j = true

/-- Every server that is on in the configuration of some server is on in `cid`. -/
def covers (s : State) (i : ℕ) (cid : Cid) : Prop :=
  ∀ j < maxServerCount, (s.members j).status ≠ .vacant →
    (isServerOn cid j = true ∨ ∃ k < maxServerCount, k ≠ i ∧ (s.members k).status = .running ∧
      isServerOn (s.members k).cid j = true) →
    isServerOn cid j = true ∧ j < getExtendedGroupSize cid

/-- If the head offset is advanced, the leader knows about every server, its own and the recorded
apply offsets lie on the log, and there is room for the HEAD entry. -/
def prunable (len : ℕ) (s : State) (i : ℕ) (m : Member) : Prop :=
  advances len m = true →
    covers s i m.cid ∧ endPos m.log < m.apply + len ∧
    (∀ j < getExtendedGroupSize m.cid, isServerOn m.cid j = true →
      m.applyOffsets j ≤ endPos m.log ∧ endPos m.log < m.applyOffsets j + len) ∧
    fits len (pruneOffset len m) Ring.sizeofEntry m.log

/-- The HEAD entries that are looked at do not point too far back, and the CONFIG entries name no
server that has been removed everywhere. -/
def pollable (len : ℕ) (s : State) (m : Member) : Prop :=
  ∀ r ∈ scanned m,
    (∀ h ∈ r.payload.headOffset, endPos m.log < h + len) ∧
    ∀ cid ∈ r.payload.cid, m.cidIdx < r.idx → known s cid

/-- A server that recovers has a snapshot that is not older than any head offset. -/
def upToDate (s : State) (apply : ℕ) : Prop :=
  ∀ k < maxServerCount, (s.members k).status = .running →
    (s.members k).head ≤ apply ∧
    ∀ r ∈ (s.members k).log, ∀ h ∈ r.payload.headOffset, h ≤ apply

def careful (len : ℕ) (s : State) : Event → Prop
  | .append i size => fits len (s.members i).head size (s.members i).log
  | .join i place =>
    place < maxServerCount ∧ fits len (s.members i).head Ring.sizeofEntry (s.members i).log ∧
    ∀ k < maxServerCount, k ≠ i → (s.members k).status = .running → (s.members k).leader = true →
      isServerOn (s.members k).cid place = false
  | .narrow i _ => fits len (s.members i).head Ring.sizeofEntry (s.members i).log
  | .prune i => prunable len s i (s.members i)
  | .force i =>
    needsPruning len (s.members i) = true →
      fits len (s.members i).head Ring.sizeofEntry (s.members i).log ∧
      prunable len s i (removeSlowest len (s.members i))
  | .extend i k n =>
    endPos ((s.members i).log ++
      ((s.members k).log.filter fun r => endPos (s.members i).log ≤ r.start).take n) <
      (s.members i).head + len
  | .poll i | .elect i => pollable len s (s.members i)
  | .vote _ cid => known s cid
  | .recover i r source n commit apply =>
    i < maxServerCount ∧ known s r.cid ∧ apply ≤ commit ∧
    endPos ((s.members source).log.take n) < r.head + len ∧ upToDate s apply ∧
    ∃ k < maxServerCount, (s.members k).status = .running ∧ r.head ≤ (s.members k).head
  | _ => True

instance (len : ℕ) (s : State) (e : Event) : Decidable (careful len s e) := by
  cases e <;>
    unfold careful <;>
    (try unfold prunable) <;> (try unfold pollable) <;> (try unfold upToDate) <;>
    (try unfold covers) <;> (try unfold known) <;> (try unfold fits) <;>
    infer_instance

variable {len l r size a : ℕ} {m m' : Member} {s t : State} {ev : Event}
variable {log new : List Record} {x : Record} {payload : Payload}

/-! ### Positions -/

/-- An entry on the buffer. A HEAD entry stands behind the position it names. -/
structure Placed (len : ℕ) (x : Record) : Prop where
  lt : x.start < x.stop
  lap : x.stop < x.start + len
  inside : x.stop % len ≠ 0
  head : ∀ h ∈ x.payload.headOffset, h ≤ x.start

structure Laid (len : ℕ) (log : List Record) : Prop where
  placed : ∀ x ∈ log, Placed len x
  sorted : log.Pairwise fun x y => x.stop ≤ y.start

@[simp]
theorem endPos_nil : endPos [] = 0 := rfl

@[simp]
theorem endPos_concat (log : List Record) (x : Record) : endPos (log ++ [x]) = x.stop := by
  simp [endPos]

@[simp]
theorem tailPos_concat (log : List Record) (x : Record) : tailPos (log ++ [x]) = x.start := by
  simp [tailPos]

theorem Laid.nil (len : ℕ) : Laid len [] := ⟨nofun, .nil⟩

theorem Laid.sublist (h : Laid len log) (hsub : new.Sublist log) : Laid len new :=
  ⟨fun x hx => h.placed x (hsub.subset hx), h.sorted.sublist hsub⟩

theorem Laid.stop_le (h : Laid len log) (hx : x ∈ log) : x.stop ≤ endPos log := by
  rcases eq_nil_or_concat' log with rfl | ⟨log, y, rfl⟩
  · cases hx
  · rw [endPos_concat]
    rcases mem_append.mp hx with hmem | hmem
    · have hle := (pairwise_append.mp h.sorted).2.2 x hmem y (mem_singleton.mpr rfl)
      exact hle.trans (h.placed y (by simp)).lt.le
    · rw [mem_singleton.mp hmem]

theorem Laid.inside (h : Laid len log) : endPos log = 0 ∨ endPos log % len ≠ 0 := by
  rcases eq_nil_or_concat' log with rfl | ⟨log, y, rfl⟩
  · exact .inl rfl
  · rw [endPos_concat]
    exact .inr (h.placed y (by simp)).inside

theorem Laid.append (h : Laid len log) (hnew : Laid len new)
    (hb : ∀ x ∈ new, endPos log ≤ x.start) : Laid len (log ++ new) := by
  refine ⟨fun x hx => ?_, pairwise_append.mpr ⟨h.sorted, hnew.sorted, fun x hx y hy => ?_⟩⟩
  · rcases mem_append.mp hx with hold | ha
    · exact h.placed x hold
    · exact hnew.placed x ha
  · exact (h.stop_le hx).trans (hb y hy)

theorem Laid.endPos_mono (h : Laid len log) (hsub : new.Sublist log) :
    endPos new ≤ endPos log := by
  rcases eq_nil_or_concat' new with rfl | ⟨new, y, rfl⟩
  · exact Nat.zero_le _
  · rw [endPos_concat]
    exact h.stop_le (hsub.subset (by simp))

theorem Laid.tail_le (h : Laid len log) (hlen : 0 < len) :
    tailPos log ≤ endPos log ∧ endPos log < tailPos log + len := by
  rcases eq_nil_or_concat' log with rfl | ⟨log, y, rfl⟩
  · exact ⟨Nat.le_refl _, by simpa [tailPos] using hlen⟩
  · rw [endPos_concat, tailPos_concat]
    have hp := h.placed y (by simp)
    exact ⟨hp.lt.le, hp.lap⟩

/-- The position of a place on the log: not behind the end and less than a buffer in front of it. -/
def OnLog (len : ℕ) (log : List Record) (l : ℕ) : Prop := l ≤ endPos log ∧ endPos log < l + len

theorem offsetEndDistance_eq (hla : Laid len m.log) (hl : OnLog len m.log l) :
    offsetEndDistance len m l = endPos m.log - l := by
  unfold offsetEndDistance
  rcases hla.inside with hz | hi
  · have hend : (ring len m).endOff = (ring len m).len := by simp [ring, hz]
    have hempty : Ring.isLogEmpty (ring len m) = true := by
      rw [Ring.isLogEmpty, hend, beq_self_eq_true]
    rw [Ring.logOffsetEndDistance, if_pos hempty]
    omega
  · have hend : (ring len m).endOff = endPos m.log % (ring len m).len := if_neg hi
    exact Ring.distance_of_end hend hl.1 hl.2

theorem isOffsetLarger_iff (hla : Laid len m.log) (hl : OnLog len m.log l)
    (hr : OnLog len m.log r) : isOffsetLarger len m l r = true ↔ r < l := by
  have hdl : offsetEndDistance len m l = endPos m.log - l := offsetEndDistance_eq hla hl
  have hdr : offsetEndDistance len m r = endPos m.log - r := offsetEndDistance_eq hla hr
  have hl' := hl.1
  have hr' := hr.1
  change decide (offsetEndDistance len m l < offsetEndDistance len m r) = true ↔ r < l
  rw [hdl, hdr, decide_eq_true_iff]
  omega

/-! ### New entries -/

theorem logAppendEntry_eq (len size : ℕ) (payload : Payload) (m : Member) :
    ∃ log prev, logAppendEntry len size payload m =
        { m with log := log, prevLogEntryHead := prev } ∧
      (log = m.log ∨ log = m.log ++ [⟨m.log.length + 1, Spool.slot len (endPos m.log) size,
        Spool.slot len (endPos m.log) size + size, payload⟩]) := by
  unfold logAppendEntry
  dsimp only
  split_ifs
  · exact ⟨m.log, m.prevLogEntryHead, rfl, .inl rfl⟩
  · exact ⟨_, m.prevLogEntryHead, rfl, .inr rfl⟩
  · exact ⟨m.log, false, rfl, .inl rfl⟩
  · exact ⟨_, false, rfl, .inr rfl⟩

structure Appended (len head : ℕ) (payload : Payload) (log new : List Record) : Prop where
  laid : Laid len new
  le : endPos log ≤ endPos new
  lap : endPos new < head + len
  mem : ∀ x ∈ new, x ∈ log ∨ x.payload = payload

theorem appended (hl : Laid len log) {head : ℕ} (hlap : endPos log < head + len)
    (hfits : fits len head size log) (hp : ∀ h ∈ payload.headOffset, h ≤ endPos log)
    (hnew : new = log ∨ new = log ++ [⟨log.length + 1, Spool.slot len (endPos log) size,
      Spool.slot len (endPos log) size + size, payload⟩]) : Appended len head payload log new := by
  obtain ⟨hpos, hsi, -, hb⟩ := hfits
  have hs : endPos log ≤ Spool.slot len (endPos log) size := Spool.le_slot (by omega)
  rcases hnew with rfl | rfl
  · exact ⟨hl, Nat.le_refl _, hlap, fun x hx => .inl hx⟩
  · have hpl : Placed len ⟨log.length + 1, Spool.slot len (endPos log) size,
        Spool.slot len (endPos log) size + size, payload⟩ := by
      refine ⟨Nat.lt_add_of_pos_right hpos, Nat.add_lt_add_left hsi _, ?_, ?_⟩
      · have hmod : Spool.behind len (endPos log) size % len = _ := Spool.behind_mod hsi
        change Spool.behind len (endPos log) size % len ≠ 0
        omega
      · exact fun h hh => (hp h hh).trans hs
    refine ⟨hl.append ⟨?_, pairwise_singleton ..⟩ ?_, ?_, ?_, ?_⟩
    · intro x hx
      rw [mem_singleton.mp hx]
      exact hpl
    · intro x hx
      rw [mem_singleton.mp hx]
      exact hs
    · rw [endPos_concat]
      exact hs.trans (Nat.le_add_right _ _)
    · rw [endPos_concat]
      exact hb
    · intro x hx
      rcases mem_append.mp hx with hold | ha
      · exact .inl hold
      · rw [mem_singleton.mp ha]
        exact .inr rfl

/-! ### The invariant -/

structure InOrder (len : ℕ) (m : Member) : Prop where
  laid : Laid len m.log
  head_le : m.head ≤ m.cidOffset
  cid_le : m.cidOffset ≤ m.commit
  commit_le : m.commit ≤ endPos m.log
  apply_le : m.apply ≤ m.commit
  lap : endPos m.log < m.head + len
  leader : m.leader = true → m.cidOffset = m.commit

/-- Neither the head offset nor a HEAD entry has passed the offset `a`. -/
def Behind (m : Member) (a : ℕ) : Prop :=
  m.head ≤ a ∧ ∀ x ∈ m.log, ∀ h ∈ x.payload.headOffset, h ≤ a

theorem Behind.mono {b : ℕ} (h : Behind m a) (hle : a ≤ b) : Behind m b :=
  ⟨h.1.trans hle, fun x hx o ho => (h.2 x hx o ho).trans hle⟩

/-- The offsets a leader has recorded for the servers that are on. While a server recovers, its
offset keeps the leader from pruning. -/
def Recorded (s : State) (m : Member) : Prop :=
  ∀ j < getExtendedGroupSize m.cid, isServerOn m.cid j = true →
    ((s.members j).status ≠ .vacant → m.applyOffsets j ≤ (s.members j).apply) ∧
    ((s.members j).status = .vacant → m.applyOffsets j ≤ m.head)

theorem ne_vacant {status : Status} (h : status = .running) : status ≠ .vacant := by
  rw [h]
  decide

/-- The server at place `j` is on in the configuration of a running server. -/
def On (s : State) (j : ℕ) : Prop :=
  ∃ k, (s.members k).status = .running ∧ isServerOn (s.members k).cid j = true

structure Sound (len : ℕ) (s : State) : Prop where
  place : ∀ i, (s.members i).status ≠ .vacant → i < maxServerCount ∧ (s.members i).idx = i
  order : ∀ i, (s.members i).status = .running → InOrder len (s.members i)
  bound : ∀ i j, (s.members i).status = .running → (s.members j).status ≠ .vacant → On s j →
    Behind (s.members i) (s.members j).apply
  recorded : ∀ i, (s.members i).status = .running → (s.members i).leader = true →
    Recorded s (s.members i)
  reads : ∀ i j v, (s.members i).reads j = some v →
    (s.members j).status ≠ .vacant ∧ v ≤ (s.members j).apply

theorem Sound.on_of_known (h : Sound len s) {cid : Cid} (hkn : known s cid) {j : ℕ}
    (hon : isServerOn cid j = true) (hj : (s.members j).status ≠ .vacant) : On s j := by
  obtain ⟨k, -, hk⟩ := hkn j (h.place j hj).1 hon hj
  exact ⟨k, hk⟩

/-- The server at place `j` is on if the server `i` has the configuration of `m`. -/
def OnWith (s : State) (i : ℕ) (m : Member) (j : ℕ) : Prop :=
  m.status = .running ∧ isServerOn m.cid j = true ∨
    ∃ k ≠ i, (s.members k).status = .running ∧ isServerOn (s.members k).cid j = true

structure Keeps (len : ℕ) (s : State) (i : ℕ) (m' : Member) : Prop where
  status : m'.status ≠ .vacant
  idx : m'.idx = i
  apply_le : (s.members i).apply ≤ m'.apply
  order : m'.status = .running → InOrder len m'
  on : m'.status = .running → ∀ j, isServerOn m'.cid j = true → (s.members j).status ≠ .vacant →
    On s j
  bound : m'.status = .running → ∀ j, (s.members j).status ≠ .vacant → OnWith s i m' j →
    Behind m' (s.members j).apply
  recorded : m'.status = .running → m'.leader = true → Recorded s m'
  reads : ∀ j v, m'.reads j = some v →
    (s.members j).status ≠ .vacant ∧ v ≤ (s.members j).apply

theorem Sound.update (h : Sound len s) {i : ℕ} (hru : (s.members i).status = .running)
    (hke : Keeps len s i m') (hme : t.members = Function.update s.members i m') :
    Sound len t := by
  have hs : t.members i = m' := by rw [hme, Function.update_self]
  have ho : ∀ k, k ≠ i → t.members k = s.members k := fun k hk => by
    rw [hme, Function.update_of_ne hk]
  have hp : (s.members i).status ≠ .vacant := by simp [hru]
  have hv : ∀ j, (t.members j).status = .vacant ↔ (s.members j).status = .vacant := by
    intro j
    by_cases hj : j = i
    · subst hj
      rw [hs]
      exact iff_of_false hke.status hp
    · rw [ho j hj]
  have ha : ∀ j, (s.members j).apply ≤ (t.members j).apply := by
    intro j
    by_cases hj : j = i
    · subst hj
      rw [hs]
      exact hke.apply_le
    · rw [ho j hj]
  have hr : ∀ m, Recorded s m → Recorded t m := by
    intro m hm j hlt hon
    obtain ⟨hpr, hvac⟩ := hm j hlt hon
    exact ⟨fun hj => (hpr (mt (hv j).mpr hj)).trans (ha j),
      fun hj => hvac ((hv j).mp hj)⟩
  have hon : ∀ j, On t j → OnWith s i m' j := by
    rintro j ⟨k, hk, hkon⟩
    by_cases hki : k = i
    · subst hki
      rw [hs] at hk hkon
      exact .inl ⟨hk, hkon⟩
    · rw [ho k hki] at hk hkon
      exact .inr ⟨k, hki, hk, hkon⟩
  constructor
  · intro k hk
    by_cases hki : k = i
    · subst hki
      rw [hs]
      exact ⟨(h.place k hp).1, hke.idx⟩
    · rw [ho k hki] at hk ⊢
      exact h.place k hk
  · intro k hk
    by_cases hki : k = i
    · subst hki
      rw [hs] at hk ⊢
      exact hke.order hk
    · rw [ho k hki] at hk ⊢
      exact h.order k hk
  · intro k j hk hj hjon
    have hj' := mt (hv j).mpr hj
    by_cases hki : k = i
    · subst hki
      rw [hs] at hk ⊢
      exact (hke.bound hk j hj' (hon j hjon)).mono (ha j)
    · rw [ho k hki] at hk ⊢
      have hjon' : On s j := by
        rcases hon j hjon with ⟨hrun, hon'⟩ | ⟨k', -, hk'⟩
        · exact hke.on hrun j hon' hj'
        · exact ⟨k', hk'⟩
      exact (h.bound k j hk hj' hjon').mono (ha j)
  · intro k hk hl
    by_cases hki : k = i
    · subst hki
      rw [hs] at hk hl ⊢
      exact hr _ (hke.recorded hk hl)
    · rw [ho k hki] at hk hl ⊢
      exact hr _ (h.recorded k hk hl)
  · intro k j v hre
    have hr' : (s.members j).status ≠ .vacant ∧ v ≤ (s.members j).apply := by
      by_cases hki : k = i
      · subst hki
        rw [hs] at hre
        exact hke.reads j v hre
      · rw [ho k hki] at hre
        exact h.reads k j v hre
    exact ⟨mt (hv j).mp hr'.1, hr'.2.trans (ha j)⟩

theorem Sound.keeps (h : Sound len s) {i : ℕ} (hru : (s.members i).status = .running)
    (hs : m'.status ≠ .vacant) (hidx : m'.idx = i)
    (ha : (s.members i).apply ≤ m'.apply) (hor : m'.status = .running → InOrder len m')
    (hh : m'.head = (s.members i).head)
    (hlog : ∀ x ∈ m'.log, x ∈ (s.members i).log ∨ x.payload.headOffset = none)
    (hon : ∀ j, isServerOn m'.cid j = true → (s.members j).status ≠ .vacant → On s j)
    (hre : m'.status = .running → m'.leader = true → Recorded s m')
    (hr : ∀ j v, m'.reads j = some v →
      (s.members j).status ≠ .vacant ∧ v ≤ (s.members j).apply) : Keeps len s i m' := by
  refine ⟨hs, hidx, ha, hor, fun _ => hon, fun _ j hj hjon => ?_, hre, hr⟩
  have hjon' : On s j := by
    rcases hjon with ⟨-, hon'⟩ | ⟨k, -, hk⟩
    · exact hon j hon' hj
    · exact ⟨k, hk⟩
  obtain ⟨hle, he⟩ := h.bound i j hru hj hjon'
  refine ⟨hh.trans_le hle, fun x hx o ho => ?_⟩
  rcases hlog x hx with hold | hn
  · exact he x hold o ho
  · rw [hn] at ho
    cases ho

/-! ### Steps of the leader -/

theorem InOrder.append (h : InOrder len m) (hfits : fits len m.head size m.log)
    (hp : ∀ h ∈ payload.headOffset, h ≤ endPos m.log) :
    InOrder len (logAppendEntry len size payload m) := by
  obtain ⟨log, prev, heq, hnew⟩ := logAppendEntry_eq len size payload m
  have ha := appended h.laid h.lap hfits hp hnew
  rw [heq]
  exact ⟨ha.laid, h.head_le, h.cid_le, h.commit_le.trans ha.le, h.apply_le,
    ha.lap, h.leader⟩

theorem mem_logAppendEntry (hx : x ∈ (logAppendEntry len size payload m).log) :
    x ∈ m.log ∨ x.payload = payload := by
  obtain ⟨log, prev, heq, hnew⟩ := logAppendEntry_eq len size payload m
  rw [heq] at hx
  rcases hnew with rfl | rfl
  · exact .inl hx
  · rcases mem_append.mp hx with hold | ha
    · exact .inl hold
    · rw [mem_singleton.mp ha]
      exact .inr rfl

theorem foldl_min (hla : Laid len m.log) (f : ℕ → ℕ) (js : List ℕ) (hl : OnLog len m.log l)
    (hjs : ∀ j ∈ js, OnLog len m.log (f j)) :
    OnLog len m.log (js.foldl (fun o j => if isOffsetLarger len m o (f j) then f j else o) l) ∧
    js.foldl (fun o j => if isOffsetLarger len m o (f j) then f j else o) l ≤ l ∧
    ∀ j ∈ js, js.foldl (fun o j => if isOffsetLarger len m o (f j) then f j else o) l ≤ f j := by
  induction js generalizing l with
  | nil => exact ⟨hl, Nat.le_refl _, nofun⟩
  | cons j js ih =>
    rw [forall_mem_cons] at hjs
    have hiff := isOffsetLarger_iff hla hl hjs.1
    rw [foldl_cons, forall_mem_cons]
    by_cases hlt : f j < l
    · rw [if_pos (hiff.mpr hlt)]
      obtain ⟨hon, hle, hmin⟩ := ih hjs.1 hjs.2
      exact ⟨hon, hle.trans hlt.le, hle, hmin⟩
    · rw [if_neg (mt hiff.mp hlt)]
      obtain ⟨hon, hle, hmin⟩ := ih hl hjs.2
      exact ⟨hon, hle, hle.trans (not_lt.mp hlt), hmin⟩

theorem pruneOffset_le (h : InOrder len m) (hown : endPos m.log < m.apply + len)
    (ho : ∀ j < getExtendedGroupSize m.cid, isServerOn m.cid j = true →
      m.applyOffsets j ≤ endPos m.log ∧ endPos m.log < m.applyOffsets j + len) :
    OnLog len m.log (pruneOffset len m) ∧ pruneOffset len m ≤ m.apply ∧
    ∀ j < getExtendedGroupSize m.cid, isServerOn m.cid j = true →
      pruneOffset len m ≤ m.applyOffsets j := by
  have ha : OnLog len m.log m.apply := ⟨h.apply_le.trans h.commit_le, hown⟩
  have hpr : ∀ j ∈ range (getExtendedGroupSize m.cid),
      OnLog len m.log (presentOffsets m j) := by
    intro j hj
    unfold presentOffsets
    split_ifs with hoff
    · exact ha
    · have hlt := mem_range.mp hj
      exact ho j hlt (by simpa [hlt] using hoff)
  obtain ⟨hon, hle, hmin⟩ := foldl_min h.laid (presentOffsets m)
    (range (getExtendedGroupSize m.cid)) ha hpr
  change OnLog len m.log (minOffset len m) at hon
  change minOffset len m ≤ m.apply at hle
  have hp : OnLog len m.log (pruneOffset len m) ∧ pruneOffset len m ≤ minOffset len m := by
    unfold pruneOffset
    split_ifs with hend
    · rw [offsetEndDistance_eq h.laid hon] at hend
      have hle' := hon.1
      have hlap := hon.2
      have ht := h.laid.tail_le (show 0 < len by omega)
      exact ⟨ht, by omega⟩
    · exact ⟨hon, Nat.le_refl _⟩
  refine ⟨hp.1, hp.2.trans hle, fun j hj hon' => hp.2.trans ?_⟩
  have hpre : presentOffsets m j = m.applyOffsets j := if_neg (by simp [hon'])
  rw [← hpre]
  exact hmin j (mem_range.mpr hj)

theorem logPruning_eq (len : ℕ) (m : Member) :
    ∃ log head offsets prev, logPruning len m =
        { m with log := log, head := head, applyOffsets := offsets, prevLogEntryHead := prev } ∧
      (∀ j, isServerOn m.cid j = true →
        offsets j = m.applyOffsets j ∨ j = m.idx ∧ offsets j = m.apply) ∧
      (log = m.log ∧ head = m.head ∨ advances len m = true ∧ head = pruneOffset len m ∧
        (log = m.log ∨ log = m.log ++ [⟨m.log.length + 1,
          Spool.slot len (endPos m.log) Ring.sizeofEntry,
          Spool.slot len (endPos m.log) Ring.sizeofEntry + Ring.sizeofEntry, .head head⟩])) := by
  have ho : ∀ j, isServerOn m.cid j = true →
      (if j < getExtendedGroupSize m.cid ∧ (j = m.idx ∨ isServerOn m.cid j = false) then m.apply
        else presentOffsets m j) = m.applyOffsets j ∨
      j = m.idx ∧ (if j < getExtendedGroupSize m.cid ∧ (j = m.idx ∨ isServerOn m.cid j = false)
        then m.apply else presentOffsets m j) = m.apply := by
    intro j hon
    split_ifs with hc
    · exact .inr ⟨hc.2.resolve_right (by simp [hon]), rfl⟩
    · exact .inl (if_neg (by simp [hon]))
  unfold logPruning
  dsimp only
  split_ifs with hadv
  · obtain ⟨log, prev, heq, hlog⟩ := logAppendEntry_eq len Ring.sizeofEntry
      (.head (pruneOffset len m))
      { m with applyOffsets := presentOffsets m, head := pruneOffset len m }
    refine ⟨log, pruneOffset len m, _, true, ?_, ho, .inr ⟨hadv, rfl, hlog⟩⟩
    rw [heq]
    rfl
  · exact ⟨m.log, m.head, _, m.prevLogEntryHead, rfl, ho, .inl ⟨rfl, rfl⟩⟩

theorem Keeps.prune {i : ℕ} (h : Keeps len s i m) (hso : Sound len s)
    (hru : (s.members i).status = .running) (hs : m.status = .running)
    (hl : m.leader = true) (ha : m.apply = (s.members i).apply)
    (hp : prunable len s i m) :
    Keeps len s i (logPruning len m) ∧ m.head ≤ (logPruning len m).head := by
  have hor := h.order hs
  have hr := h.recorded hs hl
  obtain ⟨log, head, offsets, prev, heq, hof, hca⟩ := logPruning_eq len m
  rw [heq]
  -- The offsets recorded afterwards, for a head offset that has not moved back.
  have hrec : m.head ≤ head → ∀ j < getExtendedGroupSize m.cid, isServerOn m.cid j = true →
      ((s.members j).status ≠ .vacant → offsets j ≤ (s.members j).apply) ∧
      ((s.members j).status = .vacant → offsets j ≤ head) := by
    intro hle j hj hon
    obtain ⟨hpr, hv⟩ := hr j hj hon
    rcases hof j hon with hsa | ⟨hidx, hown⟩
    · rw [hsa]
      exact ⟨hpr, fun hj' => (hv hj').trans hle⟩
    · obtain rfl : j = i := hidx.trans h.idx
      rw [hown, ha]
      exact ⟨fun _ => Nat.le_refl _, fun hj' => by rw [hru] at hj'; cases hj'⟩
  rcases hca with ⟨rfl, rfl⟩ | ⟨hadv, rfl, hlog⟩
  · exact ⟨⟨h.status, h.idx, h.apply_le, fun _ => { hor with }, h.on, h.bound,
      fun _ _ => hrec (Nat.le_refl _), h.reads⟩, Nat.le_refl _⟩
  · obtain ⟨hc, hown, hoff, hfits⟩ := hp hadv
    obtain ⟨hon, hle, hmin⟩ := pruneOffset_le hor hown hoff
    have hlt : m.head < pruneOffset len m := by
      rw [advances, Bool.and_eq_true] at hadv
      refine (isOffsetLarger_iff hor.laid hon ⟨?_, hor.lap⟩).mp hadv.1
      exact hor.head_le.trans (hor.cid_le.trans hor.commit_le)
    have hnew : Appended len (pruneOffset len m) (.head (pruneOffset len m)) m.log log := by
      refine appended hor.laid hon.2 hfits ?_ hlog
      rintro o ⟨⟩
      exact hon.1
    have hle' : pruneOffset len m ≤ m.cidOffset := by
      rw [hor.leader hl]
      exact hle.trans hor.apply_le
    refine ⟨⟨h.status, h.idx, h.apply_le, fun _ => ?_, h.on, fun _ j hj hjon => ?_,
      fun _ _ => hrec hlt.le, h.reads⟩, hlt.le⟩
    · exact ⟨hnew.laid, hle', hor.cid_le, hor.commit_le.trans hnew.le, hor.apply_le,
        hnew.lap, hor.leader⟩
    · -- The leader has every such server on in its configuration, with a recorded offset.
      obtain ⟨hjon', hj'⟩ := hc j (hso.place j hj).1 hj <| hjon.imp And.right
        fun ⟨k, hki, hk, hkon⟩ => ⟨k, (hso.place k (ne_vacant hk)).1, hki, hk, hkon⟩
      have hb : pruneOffset len m ≤ (s.members j).apply :=
        (hmin j hj' hjon').trans ((hr j hj' hjon').1 hj)
      refine ⟨hb, fun x hx o ho => ?_⟩
      rcases hnew.mem x hx with hold | hpa
      · exact (h.bound hs j hj (.inl ⟨hs, hjon'⟩)).2 x hold o ho
      · rw [hpa] at ho
        cases ho
        exact hb

theorem Sound.keeps_self (h : Sound len s) {i : ℕ} (hr : (s.members i).status = .running) :
    Keeps len s i (s.members i) := by
  have hp := h.place i (ne_vacant hr)
  exact h.keeps hr (ne_vacant hr) hp.2 (Nat.le_refl _) (h.order i) rfl
    (fun _ hx => .inl hx) (fun j hj _ => ⟨i, hr, hj⟩) (h.recorded i) (h.reads i)

theorem Sound.keeps_config (h : Sound len s) {i : ℕ} (hr : (s.members i).status = .running)
    (hfits : fits len (s.members i).head Ring.sizeofEntry (s.members i).log) {cid : Cid}
    {offsets : ℕ → ℕ} {reads : ℕ → Option ℕ}
    (hon : ∀ j, isServerOn cid j = true → (s.members j).status ≠ .vacant → On s j)
    (hrc : (s.members i).leader = true → Recorded s
      { s.members i with cid := cid, applyOffsets := offsets, reads := reads })
    (hre : ∀ j v, reads j = some v →
      (s.members j).status ≠ .vacant ∧ v ≤ (s.members j).apply) :
    Keeps len s i (appendConfig len
      { s.members i with cid := cid, applyOffsets := offsets, reads := reads }) := by
  have hpl := h.place i (ne_vacant hr)
  have hm := h.order i hr
  have ho : InOrder len
      { s.members i with cid := cid, applyOffsets := offsets, reads := reads } :=
    { hm with }
  have ho' : InOrder len (appendConfig len
      { s.members i with cid := cid, applyOffsets := offsets, reads := reads }) :=
    ho.append hfits (by rintro o ⟨⟩)
  have hmem : ∀ x ∈ (appendConfig len { s.members i with
      cid := cid, applyOffsets := offsets, reads := reads }).log,
      x ∈ (s.members i).log ∨ x.payload.headOffset = none := by
    intro x hx
    rcases mem_logAppendEntry hx with hold | hp
    · exact .inl hold
    · rw [hp]
      exact .inr rfl
  unfold appendConfig at ho' hmem ⊢
  obtain ⟨log, prev, heq, -⟩ := logAppendEntry_eq len Ring.sizeofEntry (.config cid)
    { s.members i with cid := cid, applyOffsets := offsets, reads := reads }
  dsimp only at ho' hmem ⊢
  rw [heq] at ho' hmem ⊢
  exact h.keeps hr (ne_vacant hr) hpl.2 (Nat.le_refl _) (fun _ => ho') rfl hmem
    hon (fun _ => hrc) hre

theorem appendConfig_eq (len : ℕ) (m : Member) :
    appendConfig len m =
      { m with
        prevLogEntryHead := false
        log := if Ring.isLogFull (ring len m) then m.log
          else
            m.log ++ [⟨m.log.length + 1, Spool.slot len (endPos m.log) Ring.sizeofEntry,
              Spool.slot len (endPos m.log) Ring.sizeofEntry + Ring.sizeofEntry,
              .config m.cid⟩] } := by
  by_cases hf : Ring.isLogFull (ring len m) = true
  · rw [if_pos hf]
    exact if_pos hf
  · rw [if_neg hf]
    exact if_neg hf

theorem removeSlowest_of_on (h : slowest len m ≠ m.idx ∧ isServerOn m.cid (slowest len m)) :
    removeSlowest len m = appendConfig len
      { m with
        cid := serverRm m.cid (slowest len m)
        reads := Function.update m.reads (slowest len m) none
        applyOffsets := Function.update m.applyOffsets (getExtendedGroupSize m.cid) m.apply } := by
  unfold removeSlowest
  dsimp only
  rw [if_pos h, appendConfig_eq, appendConfig_eq]
  rfl

theorem Sound.keeps_force (h : Sound len s) {i : ℕ} (hr : (s.members i).status = .running)
    (hl : (s.members i).leader = true)
    (hok : needsPruning len (s.members i) = true →
      fits len (s.members i).head Ring.sizeofEntry (s.members i).log ∧
      prunable len s i (removeSlowest len (s.members i))) :
    Keeps len s i (forceLogPruning len (s.members i)) ∧
      (s.members i).head ≤ (forceLogPruning len (s.members i)).head := by
  unfold forceLogPruning
  split_ifs with hn
  · obtain ⟨hfits, hp⟩ := hok hn
    by_cases hre : slowest len (s.members i) ≠ (s.members i).idx ∧
        isServerOn (s.members i).cid (slowest len (s.members i)) = true
    · rw [removeSlowest_of_on hre] at hp ⊢
      have hon : ∀ j, isServerOn (serverRm (s.members i).cid (slowest len (s.members i))) j = true →
          isServerOn (s.members i).cid j = true := by
        intro j hj
        rw [Config.isServerOn_serverRm, Bool.and_eq_true] at hj
        exact hj.1
      have hk : Keeps len s i (appendConfig len
          { s.members i with
            cid := serverRm (s.members i).cid (slowest len (s.members i))
            reads := Function.update (s.members i).reads (slowest len (s.members i)) none
            applyOffsets := Function.update (s.members i).applyOffsets
              (getExtendedGroupSize (s.members i).cid) (s.members i).apply }) := by
        refine h.keeps_config hr hfits (fun j hj _ => ⟨i, hr, hon j hj⟩) ?_ ?_
        · -- The offset that is overwritten is not that of a server.
          intro _ j hj hjon
          have hj' : j < getExtendedGroupSize (s.members i).cid := hj
          dsimp only
          rw [Function.update_of_ne (by omega)]
          exact h.recorded i hr hl j hj' (hon j hjon)
        · intro j v hv
          by_cases hj : j = slowest len (s.members i)
          · subst hj
            rw [Function.update_self] at hv
            cases hv
          · rw [Function.update_of_ne hj] at hv
            exact h.reads i j v hv
      rw [appendConfig_eq] at hk hp ⊢
      exact hk.prune h hr hr hl rfl hp
    · have heq : removeSlowest len (s.members i) = s.members i := if_neg hre
      rw [heq] at hp ⊢
      exact (h.keeps_self hr).prune h hr hr hl rfl hp
  · exact ⟨h.keeps_self hr, Nat.le_refl _⟩

/-! ### CONFIG and HEAD entries -/

theorem foldl_pollConfig_eq (es : List Record) (m : Member) :
    ∃ cid status, es.foldl pollConfig m = { m with cid := cid, status := status } ∧
      (status = m.status ∨ status = .failed) ∧
      (cid = m.cid ∨ ∃ x ∈ es, m.cidIdx < x.idx ∧ x.payload = .config cid) := by
  induction es generalizing m with
  | nil => exact ⟨m.cid, m.status, rfl, .inl rfl, .inl rfl⟩
  | cons x es ih =>
    have hpo : pollConfig m x = m ∨ ∃ cid, m.cidIdx < x.idx ∧ x.payload = .config cid ∧
        pollConfig m x = updateCid cid m := by
      unfold pollConfig
      split
      · rename_i cid hp
        split_ifs with hnew
        · exact .inr ⟨cid, hnew.1, hp, rfl⟩
        · exact .inl rfl
      · exact .inl rfl
    rw [foldl_cons]
    rcases hpo with heq | ⟨cid₁, hidx, hp, heq⟩
    · rw [heq]
      obtain ⟨cid, status, hf, hs, hcid⟩ := ih m
      refine ⟨cid, status, hf, hs, hcid.imp_right ?_⟩
      rintro ⟨y, hy, hy'⟩
      exact ⟨y, mem_cons_of_mem x hy, hy'⟩
    · rw [heq]
      obtain ⟨cid, status, hf, hs, hcid⟩ := ih (updateCid cid₁ m)
      refine ⟨cid, status, hf, ?_, ?_⟩
      · rcases hs with rfl | rfl
        · unfold updateCid
          dsimp only
          split_ifs
          · exact .inr rfl
          · exact .inl rfl
        · exact .inr rfl
      · right
        rcases hcid with rfl | ⟨y, hy, hy'⟩
        · exact ⟨x, mem_cons_self, hidx, hp⟩
        · exact ⟨y, mem_cons_of_mem x hy, hy'⟩

theorem foundHead_cases (len : ℕ) (m : Member) :
    foundHead len m = m.head ∨ ∃ x ∈ scanned m, x.payload = .head (foundHead len m) ∧
      isOffsetLarger len m x.start m.commit = false := by
  unfold foundHead
  generalize scanned m = es
  generalize m.head = head
  induction es generalizing head with
  | nil => exact .inl rfl
  | cons x es ih =>
    rw [foldl_cons]
    have hc : pollHead len m head x = head ∨ x.payload = .head (pollHead len m head x) ∧
        isOffsetLarger len m x.start m.commit = false := by
      unfold pollHead
      split
      · rename_i offset hp
        split_ifs with hl
        · exact .inl rfl
        · exact .inr ⟨hp, by simpa using hl⟩
      · exact .inl rfl
    rcases ih (pollHead len m head x) with heq | ⟨y, hy, hp, hl⟩
    · rw [heq]
      rcases hc with hs | ⟨hp, hl⟩
      · exact .inl hs
      · exact .inr ⟨x, mem_cons_self, hp, hl⟩
    · exact .inr ⟨y, mem_cons_of_mem x hy, hp, hl⟩

theorem pollConfigEntries_eq (h : InOrder len m) (hok : pollable len s m) :
    ∃ cid status head, pollConfigEntries len m =
        { m with cid := cid, status := status, head := head, cidOffset := m.commit } ∧
      (status = m.status ∨ status = .failed) ∧ (cid = m.cid ∨ known s cid) ∧
      m.head ≤ head ∧ head ≤ m.commit ∧
      (head = m.head ∨ ∃ x ∈ m.log, x.payload.headOffset = some head) := by
  obtain ⟨cid, status, hfo, hst, hcid⟩ := foldl_pollConfig_eq (scanned m) m
  have hs : ∀ x ∈ scanned m, x ∈ m.log ∧ m.cidOffset ≤ x.start := by
    intro x hx
    simpa [scanned] using hx
  have hh : OnLog len m.log m.head :=
    ⟨h.head_le.trans (h.cid_le.trans h.commit_le), h.lap⟩
  have hc : OnLog len m.log m.commit := by
    have := h.head_le
    have := h.cid_le
    have := h.lap
    exact ⟨h.commit_le, by omega⟩
  have hend : OnLog len m.log (endPos m.log) :=
    ⟨Nat.le_refl _, hc.2.trans_le (Nat.add_le_add_right hc.1 len)⟩
  have ho : (if isOffsetLarger len m (endPos m.log) m.commit then m.commit
      else endPos m.log) = m.commit := by
    split_ifs with hl
    · rfl
    · rw [isOffsetLarger_iff h.laid hend hc] at hl
      exact le_antisymm (not_lt.mp hl) h.commit_le
  unfold pollConfigEntries
  dsimp only
  rw [hfo, ho]
  refine ⟨cid, status, _, rfl, hst, ?_, ?_⟩
  · refine hcid.imp_right ?_
    rintro ⟨x, hx, hidx, hp⟩
    exact (hok x hx).2 cid (by simp [hp, Payload.cid]) hidx
  rcases foundHead_cases len m with hsa | ⟨x, hx, hp, hl⟩
  · rw [hsa, ite_self]
    exact ⟨Nat.le_refl _, h.head_le.trans h.cid_le, .inl rfl⟩
  · -- The HEAD entry is committed and stands behind the position it names.
    obtain ⟨hmem, hsta⟩ := hs x hx
    have hpl := h.laid.placed x hmem
    have hoff : x.payload.headOffset = some (foundHead len m) := by
      rw [hp, Payload.headOffset]
    have hx' : OnLog len m.log x.start := by
      have := h.head_le
      have := h.lap
      exact ⟨hpl.lt.le.trans (h.laid.stop_le hmem), by omega⟩
    have hle : x.start ≤ m.commit := by
      by_contra hgt
      have := (isOffsetLarger_iff h.laid hx' hc).mpr (by omega)
      rw [hl] at this
      cases this
    have hf : foundHead len m ≤ x.start := hpl.head _ hoff
    have hon : OnLog len m.log (foundHead len m) :=
      ⟨hf.trans hx'.1, (hok x hx).1 _ hoff⟩
    split_ifs with hadv
    · rw [isOffsetLarger_iff h.laid hon hh] at hadv
      exact ⟨hadv.le, hf.trans hle, .inr ⟨x, hmem, hoff⟩⟩
    · exact ⟨Nat.le_refl _, h.head_le.trans h.cid_le, .inl rfl⟩

theorem Sound.keeps_poll (h : Sound len s) {i : ℕ} (hr : (s.members i).status = .running)
    (hok : pollable len s (s.members i)) {m' : Member} {leader : Bool} {offsets : ℕ → ℕ}
    (hm' : m' = { pollConfigEntries len (s.members i) with
      leader := leader, applyOffsets := offsets })
    (hre : leader = true → ∀ j < getExtendedGroupSize m'.cid, offsets j = m'.head) :
    Keeps len s i m' ∧ (s.members i).head ≤ m'.head := by
  have ho := h.order i hr
  have hpl := h.place i (ne_vacant hr)
  obtain ⟨cid, status, head, heq, hs, hcid, hh, hc, hf⟩ :=
    pollConfigEntries_eq ho hok
  rw [heq] at hm'
  have hon : ∀ j, isServerOn cid j = true → (s.members j).status ≠ .vacant → On s j := by
    intro j hj hp
    rcases hcid with rfl | hkn
    · exact ⟨i, hr, hj⟩
    · exact h.on_of_known hkn hj hp
  have hb : ∀ j, (s.members j).status ≠ .vacant → OnWith s i m' j →
      Behind m' (s.members j).apply := by
    intro j hj hjon
    have hjon' : On s j := by
      rcases hjon with ⟨-, hon'⟩ | ⟨k, -, hk⟩
      · rw [hm'] at hon'
        exact hon j hon' hj
      · exact ⟨k, hk⟩
    have hold := h.bound i j hr hj hjon'
    rw [hm']
    refine ⟨?_, hold.2⟩
    rcases hf with rfl | ⟨x, hx, hoff⟩
    · exact hold.1
    · exact hold.2 x hx head hoff
  have hlap : endPos (s.members i).log < head + len := ho.lap.trans_le (by omega)
  subst hm'
  refine ⟨⟨?_, hpl.2, Nat.le_refl _, fun _ => ?_, fun _ => hon, fun _ => hb, ?_,
    h.reads i⟩, hh⟩
  · rcases hs with rfl | rfl
    · simp [hr]
    · simp
  · exact ⟨ho.laid, hc, Nat.le_refl _, ho.commit_le, ho.apply_le, hlap,
      fun _ => rfl⟩
  · intro hrun hl j hj hjon
    have hsa : offsets j = head := hre hl j hj
    exact ⟨fun hp => hsa.trans_le (hb j hp (.inl ⟨hrun, hjon⟩)).1,
      fun _ => hsa.le⟩

/-! ### Servers that join -/

theorem sound_vacate (h : Sound len s) {place : ℕ}
    (hf : ∀ k, (s.members k).status = .running → (s.members k).leader = true →
      isServerOn (s.members k).cid place = false) :
    Sound len { s with members := vacate place s.members } := by
  have hr : ∀ k, (vacate place s.members k).status = .running →
      (s.members k).status = .running := by
    intro k hk
    unfold vacate at hk
    dsimp only at hk
    split_ifs at hk
    exact hk
  have hv : ∀ j, (vacate place s.members j).status = .vacant ↔
      j = place ∨ (s.members j).status = .vacant := by
    intro j
    unfold vacate
    dsimp only
    split_ifs with hj <;> simp [hj]
  have hp : ∀ j, (vacate place s.members j).status ≠ .vacant →
      (s.members j).status ≠ .vacant := fun j hj hj' => hj ((hv j).mpr (.inr hj'))
  have hon : ∀ j, On { s with members := vacate place s.members } j → On s j :=
    fun j ⟨k, hk, hkon⟩ => ⟨k, hr k hk, hkon⟩
  constructor
  · exact fun i hi => h.place i (hp i hi)
  · exact fun i hi => { h.order i (hr i hi) with }
  · exact fun i j hi hj hjon => h.bound i j (hr i hi) (hp j hj) (hon j hjon)
  · intro i hi hl j hj hjon
    have hne : j ≠ place := by
      rintro rfl
      have hoff := hf i (hr i hi) hl
      rw [show isServerOn (s.members i).cid j = true from hjon] at hoff
      cases hoff
    obtain ⟨hpr, hvac⟩ := h.recorded i (hr i hi) hl j hj hjon
    exact ⟨fun hj' => hpr (hp j hj'),
      fun hj' => hvac (((hv j).mp hj').resolve_left hne)⟩
  · intro i j v hre
    change Function.update (s.members i).reads place none j = some v at hre
    by_cases hj : j = place
    · subst hj
      rw [Function.update_self] at hre
      cases hre
    · rw [Function.update_of_ne hj] at hre
      obtain ⟨hpr, hle⟩ := h.reads i j v hre
      exact ⟨mt (hv j).mp (not_or.mpr ⟨hj, hpr⟩), hle⟩

theorem vacate_update (members : ℕ → Member) {i place : ℕ} (hne : place ≠ i) (m : Member) :
    vacate place (Function.update members i m) = Function.update (vacate place members) i
      { m with reads := Function.update m.reads place none } := by
  funext k
  unfold vacate
  by_cases hk : k = i
  · subst hk
    simp [Function.update_self, hne.symm]
  · simp [Function.update_of_ne hk]

theorem isServerOn_addServer {cid : Cid} {place j : ℕ}
    (hj : isServerOn (addServer cid place) j = true) : isServerOn cid j = true ∨ j = place := by
  have hon : isServerOn (addServer cid place) j = isServerOn (Config.serverAdd cid place) j := by
    unfold addServer
    dsimp only
    split_ifs <;> rfl
  rw [hon, Config.isServerOn_serverAdd, Bool.or_eq_true, decide_eq_true_iff] at hj
  exact hj.imp_right Eq.symm

theorem getExtendedGroupSize_addServer {cid : Cid} {place j : ℕ} (hs : cid.state = .stable)
    (hj : j < getExtendedGroupSize (addServer cid place)) (hne : j ≠ place)
    (hmax : place < maxServerCount) : j < getExtendedGroupSize cid := by
  unfold maxServerCount at hmax
  have hold : getExtendedGroupSize cid = cid.size := if_pos hs
  rw [hold]
  unfold addServer at hj
  dsimp only at hj
  split_ifs at hj with hl
  · rw [getExtendedGroupSize, if_neg (by simp)] at hj
    change j < if cid.size < (cid.size + 1) % 256 then (cid.size + 1) % 256 else cid.size at hj
    split_ifs at hj <;> omega
  · exact hj.trans_eq (if_pos hs)

theorem Sound.join (h : Sound len s) {i place : ℕ} (hru : (s.members i).status = .running)
    (hs : (s.members i).cid.state = .stable) (hne : place ≠ i)
    (hoff : isServerOn (s.members i).cid place = false) (hpl : place < maxServerCount)
    (hfits : fits len (s.members i).head Ring.sizeofEntry (s.members i).log)
    (hf : ∀ k < maxServerCount, k ≠ i → (s.members k).status = .running →
      (s.members k).leader = true → isServerOn (s.members k).cid place = false)
    (hm : t.members = vacate place
      (Function.update s.members i (addServerAt len place (s.members i)))) : Sound len t := by
  have hv : Sound len { s with members := vacate place s.members } := by
    refine sound_vacate h fun k hk hl => ?_
    by_cases hki : k = i
    · subst hki
      exact hoff
    · exact hf k (h.place k (ne_vacant hk)).1 hki hk hl
  have hse : vacate place s.members i =
      { s.members i with reads := Function.update (s.members i).reads place none } := by
    unfold vacate
    rw [if_neg hne.symm]
  have hr' : (vacate place s.members i).status = .running := by
    rw [hse]
    exact hru
  have hg : (vacate place s.members place).status = .vacant := if_pos rfl
  refine hv.update hr' ?_ (hm.trans (vacate_update _ hne _))
  have heq : { addServerAt len place (s.members i) with
        reads := Function.update (addServerAt len place (s.members i)).reads place none } =
      appendConfig len
        { vacate place s.members i with
          cid := addServer (s.members i).cid place
          applyOffsets := Function.update (s.members i).applyOffsets place (s.members i).head
          reads := Function.update (s.members i).reads place none } := by
    rw [hse, addServerAt, appendConfig_eq, appendConfig_eq]
    rfl
  rw [heq]
  refine hv.keeps_config hr' hfits ?_ ?_ (hv.reads i)
  · intro j hj hp
    rcases isServerOn_addServer hj with hold | rfl
    · exact ⟨i, hr', hold⟩
    · exact absurd hg hp
  · intro hl j hj hjon
    by_cases hjp : j = place
    · subst hjp
      refine ⟨fun hp => absurd hg hp, fun _ => ?_⟩
      exact (Function.update_self ..).le
    · have hold := (isServerOn_addServer hjon).resolve_right hjp
      have hlt := getExtendedGroupSize_addServer hs hj hjp hpl
      have hr := hv.recorded i hr' hl j hlt hold
      dsimp only
      rw [Function.update_of_ne hjp]
      exact hr

theorem Sound.recover (h : Sound len s) {i : ℕ} (hv : (s.members i).status = .vacant)
    (hp : i < maxServerCount) (hs : m'.status = .running) (hidx : m'.idx = i)
    (hl : m'.leader = false) (hor : InOrder len m') (hkn : known s m'.cid)
    (hd : upToDate s m'.apply) (hr : ∀ j, m'.reads j = none)
    (hb : ∀ a, (∀ k, (s.members k).status = .running → Behind (s.members k) a) → Behind m' a)
    (hm : t.members = Function.update s.members i m') : Sound len t := by
  have hse : t.members i = m' := by rw [hm, Function.update_self]
  have ho : ∀ k, k ≠ i → t.members k = s.members k := fun k hk => by
    rw [hm, Function.update_of_ne hk]
  have hne : ∀ k, (s.members k).status ≠ .vacant → k ≠ i := by
    rintro k hk rfl
    exact hk hv
  have hd' : ∀ k, (s.members k).status = .running → Behind (s.members k) m'.apply :=
    fun k hk => hd k (h.place k (ne_vacant hk)).1 hk
  have hon : ∀ j, (s.members j).status ≠ .vacant → On t j → On s j := by
    rintro j hj ⟨k, hk, hkon⟩
    by_cases hki : k = i
    · subst hki
      rw [hse] at hkon
      exact h.on_of_known hkn hkon hj
    · rw [ho k hki] at hk hkon
      exact ⟨k, hk, hkon⟩
  constructor
  · intro k hk
    by_cases hki : k = i
    · subst hki
      rw [hse]
      exact ⟨hp, hidx⟩
    · rw [ho k hki] at hk ⊢
      exact h.place k hk
  · intro k hk
    by_cases hki : k = i
    · subst hki
      rw [hse]
      exact hor
    · rw [ho k hki] at hk ⊢
      exact h.order k hk
  · -- The snapshot is up to date, so the new server is not behind, and its log holds nothing new.
    intro k j hk hj hjon
    by_cases hji : j = i
    · subst hji
      rw [hse]
      by_cases hkj : k = j
      · subst hkj
        rw [hse]
        exact hb _ hd'
      · rw [ho k hkj] at hk ⊢
        exact hd' k hk
    · rw [ho j hji] at hj ⊢
      have hjon' := hon j hj hjon
      by_cases hki : k = i
      · subst hki
        rw [hse]
        exact hb _ fun k hk => h.bound k j hk hj hjon'
      · rw [ho k hki] at hk ⊢
        exact h.bound k j hk hj hjon'
  · intro k hk hkl
    have hki : k ≠ i := by
      rintro rfl
      rw [hse, hl] at hkl
      cases hkl
    rw [ho k hki] at hk hkl ⊢
    intro j hj hjon
    obtain ⟨hpr, hvac⟩ := h.recorded k hk hkl j hj hjon
    by_cases hji : j = i
    · subst hji
      rw [hse]
      exact ⟨fun _ => (hvac hv).trans (hd' k hk).1,
        fun hj' => by rw [hs] at hj'; cases hj'⟩
    · rw [ho j hji]
      exact ⟨hpr, hvac⟩
  · intro k j v hre
    by_cases hki : k = i
    · subst hki
      rw [hse, hr] at hre
      cases hre
    · rw [ho k hki] at hre
      obtain ⟨hpr, hle⟩ := h.reads k j v hre
      rw [ho j (hne j hpr)]
      exact ⟨hpr, hle⟩

/-! ### Runs -/

theorem Sound.keeps_append (h : Sound len s) {i : ℕ} (hr : (s.members i).status = .running)
    (hfits : fits len (s.members i).head size (s.members i).log) :
    Keeps len s i (logAppendEntry len size .other (s.members i)) := by
  have hpl := h.place i (ne_vacant hr)
  have ho : InOrder len (logAppendEntry len size .other (s.members i)) :=
    (h.order i hr).append hfits (by rintro o ⟨⟩)
  have hmem : ∀ x ∈ (logAppendEntry len size .other (s.members i)).log,
      x ∈ (s.members i).log ∨ x.payload.headOffset = none := by
    intro x hx
    rcases mem_logAppendEntry hx with hold | hp
    · exact .inl hold
    · rw [hp]
      exact .inr rfl
  obtain ⟨log, prev, heq, -⟩ := logAppendEntry_eq len size .other (s.members i)
  rw [heq] at ho hmem ⊢
  exact h.keeps hr (ne_vacant hr) hpl.2 (Nat.le_refl _) (fun _ => ho) rfl hmem
    (fun j hj _ => ⟨i, hr, hj⟩) (h.recorded i) (h.reads i)

theorem Sound.keeps_quiet (h : Sound len s) {i commit cidOffset : ℕ}
    (hr : (s.members i).status = .running) {offsets : ℕ → ℕ} {reads : ℕ → Option ℕ}
    {leader : Bool}
    (ho : (s.members i).status = .running → InOrder len
      { s.members i with commit := commit, cidOffset := cidOffset, leader := leader })
    (hrc : (s.members i).status = .running → leader = true → Recorded s
      { s.members i with applyOffsets := offsets })
    (hre : ∀ j v, reads j = some v →
      (s.members j).status ≠ .vacant ∧ v ≤ (s.members j).apply) :
    Keeps len s i
      { s.members i with
        commit := commit, cidOffset := cidOffset, leader := leader, applyOffsets := offsets,
        reads := reads } :=
  h.keeps hr (ne_vacant hr) (h.place i (ne_vacant hr)).2 (Nat.le_refl _)
    (fun hrun => { ho hrun with }) rfl (fun _ hx => .inl hx) (fun _ hj _ => ⟨i, hr, hj⟩)
    hrc hre

theorem Sound.keeps_extend (h : Sound len s) {i k n : ℕ}
    (hr : (s.members i).status = .running) (hk : (s.members k).status = .running)
    (hl : (s.members i).leader = false)
    (hlap : endPos ((s.members i).log ++
      ((s.members k).log.filter fun r => endPos (s.members i).log ≤ r.start).take n) <
      (s.members i).head + len) :
    Keeps len s i
      { s.members i with
        log := (s.members i).log ++
          ((s.members k).log.filter fun r => endPos (s.members i).log ≤ r.start).take n } := by
  have hse := h.keeps_self hr
  have hor := h.order i hr
  generalize hnew : ((s.members k).log.filter fun r => endPos (s.members i).log ≤ r.start).take n =
    new at hlap ⊢
  have hsub : new.Sublist (s.members k).log := by
    rw [← hnew]
    exact (take_sublist _ _).trans filter_sublist
  have hs : ∀ x ∈ new, endPos (s.members i).log ≤ x.start := by
    intro x hx
    rw [← hnew] at hx
    simpa using (mem_filter.mp (mem_of_mem_take hx)).2
  have hla := hor.laid.append ((h.order k hk).laid.sublist hsub) hs
  have hend : endPos (s.members i).log ≤ endPos ((s.members i).log ++ new) :=
    hla.endPos_mono (sublist_append_left _ _)
  refine ⟨hse.status, hse.idx, hse.apply_le, fun _ => ?_, hse.on, fun _ j hj hjon => ?_,
    fun _ hl' => ?_, hse.reads⟩
  · exact ⟨hla, hor.head_le, hor.cid_le, hor.commit_le.trans hend, hor.apply_le, hlap,
      hor.leader⟩
  · have hb := hse.bound hr j hj hjon
    refine ⟨hb.1, fun x hx o ho => ?_⟩
    rcases mem_append.mp hx with hold | ha
    · exact hb.2 x hold o ho
    · have hjon' : On s j := by
        rcases hjon with ⟨-, hon⟩ | ⟨k', -, hk'⟩
        · exact ⟨i, hr, hon⟩
        · exact ⟨k', hk'⟩
      exact (h.bound k j hk hj hjon').2 x (hsub.subset ha) o ho
  · exact absurd (hl.symm.trans hl') Bool.false_ne_true

theorem groupStep_eq (hst : (group len).step s ev = some t) :
    (s.members ev.server).status = ev.status ∧ ∃ m', act len s (s.members ev.server) ev = some m' ∧
      t.members = nextMembers s.members m' ev := by
  change groupStep len s ev = some t at hst
  unfold groupStep at hst
  dsimp only at hst
  split_ifs at hst with hs
  obtain ⟨m', hact, rfl⟩ := map_eq_some_iff.mp hst
  exact ⟨hs, m', hact, rfl⟩

def Next (len : ℕ) (s t : State) : Prop :=
  Sound len t ∧ ∀ i, (s.members i).status = .running → (s.members i).head ≤ (t.members i).head

theorem Sound.next (h : Sound len s) {i : ℕ} (hr : (s.members i).status = .running)
    (hm : t.members = Function.update s.members i m') (hke : Keeps len s i m')
    (hh : (s.members i).head ≤ m'.head) : Next len s t := by
  refine ⟨h.update hr hke hm, fun k _ => ?_⟩
  rw [hm]
  by_cases hk : k = i
  · subst hk
    rw [Function.update_self]
    exact hh
  · rw [Function.update_of_ne hk]

theorem Sound.step (h : Sound len s) (hok : careful len s ev)
    (hste : (group len).step s ev = some t) : Next len s t := by
  obtain ⟨hsta, m', hact, hm⟩ := groupStep_eq hste
  cases ev with
  | append i size =>
    obtain ⟨-, rfl⟩ := guarded_eq_some.mp hact
    refine h.next hsta hm (h.keeps_append hsta hok) ?_
    obtain ⟨log, prev, heq, -⟩ := logAppendEntry_eq len size .other (s.members i)
    exact (congrArg Member.head heq).ge
  | join i place =>
    obtain ⟨⟨-, hst, hne, -, hoff⟩, rfl⟩ := guarded_eq_some.mp hact
    obtain ⟨hp, hfits, hfr⟩ := hok
    refine ⟨h.join hsta hst hne hoff hp hfits hfr hm, fun k _ => ?_⟩
    rw [hm]
    change _ ≤ (Function.update s.members i (addServerAt len place (s.members i)) k).head
    by_cases hk : k = i
    · subst hk
      rw [Function.update_self, addServerAt, appendConfig_eq]
    · rw [Function.update_of_ne hk]
  | narrow i cid =>
    obtain ⟨⟨-, hbi, hsi⟩, rfl⟩ := guarded_eq_some.mp hact
    have hon : ∀ j, isServerOn cid j = true → isServerOn (s.members i).cid j = true := by
      intro j hj
      change cid.bitmask.testBit j = true at hj
      rw [← show cid.bitmask &&& (s.members i).cid.bitmask = cid.bitmask from hbi,
        Nat.testBit_and, Bool.and_eq_true] at hj
      exact hj.2
    refine h.next hsta hm (h.keeps_config hsta hok ?_ ?_ (h.reads i)) ?_
    · exact fun j hj _ => ⟨i, hsta, hon j hj⟩
    · exact fun hl j hj hjon =>
        h.recorded i hsta hl j (Nat.lt_of_lt_of_le hj hsi) (hon j hjon)
    · rw [appendConfig_eq]
  | prune i =>
    obtain ⟨hl, rfl⟩ := guarded_eq_some.mp hact
    obtain ⟨hke, hh⟩ :=
      (h.keeps_self hsta).prune h hsta hsta hl rfl hok
    exact h.next hsta hm hke hh
  | force i =>
    obtain ⟨hl, rfl⟩ := guarded_eq_some.mp hact
    obtain ⟨hke, hh⟩ := h.keeps_force hsta hl hok
    exact h.next hsta hm hke hh
  | fetch i j =>
    obtain ⟨⟨hj, -⟩, rfl⟩ := guarded_eq_some.mp hact
    refine h.next hsta hm ?_ (Nat.le_refl _)
    refine h.keeps_quiet hsta (h.order i) (h.recorded i) ?_
    intro j' v hr
    change Function.update (s.members i).reads j (some (s.members j).apply) j' = some v at hr
    by_cases hjj : j' = j
    · subst hjj
      rw [Function.update_self] at hr
      obtain rfl := Option.some.inj hr
      exact ⟨by simp [hj], Nat.le_refl _⟩
    · rw [Function.update_of_ne hjj] at hr
      exact h.reads i j' v hr
  | complete i j =>
    obtain ⟨v, hv, rfl⟩ := map_eq_some_iff.mp hact
    have hr : (s.members j).status ≠ .vacant ∧ v ≤ (s.members j).apply := h.reads i j v hv
    refine h.next hsta hm ?_ (Nat.le_refl _)
    refine h.keeps_quiet hsta (h.order i) ?_ ?_
    · intro _ hl j' hj' hon
      by_cases hjj : j' = j
      · subst hjj
        dsimp only
        rw [Function.update_self]
        exact ⟨fun _ => hr.2, fun hva => absurd hva hr.1⟩
      · dsimp only
        rw [Function.update_of_ne hjj]
        exact h.recorded i hsta hl j' hj' hon
    · intro j' v' hr'
      change Function.update (s.members i).reads j none j' = some v' at hr'
      by_cases hjj : j' = j
      · subst hjj
        rw [Function.update_self] at hr'
        cases hr'
      · rw [Function.update_of_ne hjj] at hr'
        exact h.reads i j' v' hr'
  | commit i offset =>
    obtain ⟨⟨hle, hend⟩, rfl⟩ := guarded_eq_some.mp hact
    have ho : InOrder len (s.members i) := h.order i hsta
    refine h.next hsta hm ?_ (Nat.le_refl _)
    refine h.keeps_quiet hsta (fun _ => ?_) (h.recorded i) (h.reads i)
    have hcid := ho.cid_le
    have hh := ho.head_le
    refine ⟨ho.laid, ?_, ?_, hend, ho.apply_le.trans hle, ho.lap, fun hl => ?_⟩
    · change (s.members i).head ≤ if (s.members i).leader then offset else (s.members i).cidOffset
      split_ifs
      · exact hh.trans (hcid.trans hle)
      · exact hh
    · change (if (s.members i).leader then offset else (s.members i).cidOffset) ≤ offset
      split_ifs
      · exact Nat.le_refl _
      · exact hcid.trans hle
    · exact if_pos hl
  | apply i offset =>
    obtain ⟨⟨hle, hc⟩, rfl⟩ := guarded_eq_some.mp hact
    have ho : InOrder len (s.members i) := h.order i hsta
    have hp := h.place i (ne_vacant hsta)
    refine h.next hsta hm ?_ (Nat.le_refl _)
    exact h.keeps hsta (ne_vacant hsta) hp.2 hle
      (fun _ => { ho with apply_le := hc }) rfl (fun _ hx => .inl hx)
      (fun j hj _ => ⟨i, hsta, hj⟩) (h.recorded i) (h.reads i)
  | extend i k n =>
    obtain ⟨⟨hl, hk⟩, rfl⟩ := guarded_eq_some.mp hact
    exact h.next hsta hm (h.keeps_extend hsta hk hl hok) (Nat.le_refl _)
  | truncate i offset =>
    obtain ⟨⟨hl, hc⟩, rfl⟩ := guarded_eq_some.mp hact
    have ho : InOrder len (s.members i) := h.order i hsta
    have hp := h.place i (ne_vacant hsta)
    have hsub : ((s.members i).log.filter fun r => r.stop ≤ offset).Sublist (s.members i).log :=
      filter_sublist
    refine h.next hsta hm ?_ (Nat.le_refl _)
    exact h.keeps hsta (ne_vacant hsta) hp.2
      (Nat.le_refl _)
      (fun _ => { ho with
        laid := ho.laid.sublist hsub
        commit_le := hc
        lap := (ho.laid.endPos_mono hsub).trans_lt ho.lap })
      rfl (fun _ hx => .inl (hsub.subset hx)) (fun j hj _ => ⟨i, hsta, hj⟩) (h.recorded i)
      (h.reads i)
  | poll i =>
    obtain ⟨hl, rfl⟩ := guarded_eq_some.mp hact
    have hsa : (pollConfigEntries len (s.members i)).leader = false := by
      obtain ⟨cid, status, hf, -⟩ := foldl_pollConfig_eq (scanned (s.members i)) (s.members i)
      exact (congrArg Member.leader hf).trans hl
    have hpo : Keeps len s i (pollConfigEntries len (s.members i)) ∧ _ :=
      h.keeps_poll hsta hok rfl fun hl' =>
        absurd (hsa.symm.trans hl') Bool.false_ne_true
    exact h.next hsta hm hpo.1 hpo.2
  | request i =>
    obtain rfl := Option.some.inj hact
    exact h.next hsta hm (h.keeps_self hsta) (Nat.le_refl _)
  | vote i cid =>
    obtain ⟨⟨hl, -⟩, rfl⟩ := guarded_eq_some.mp hact
    have ho : InOrder len (s.members i) := h.order i hsta
    have hp := h.place i (ne_vacant hsta)
    refine h.next hsta hm ?_ (Nat.le_refl _)
    refine h.keeps hsta ?_ hp.2 (Nat.le_refl _) (fun _ => { ho with }) rfl
      (fun _ hx => .inl hx) (fun j hj hpr => h.on_of_known hok hj hpr) ?_ (h.reads i)
    · unfold updateCid
      dsimp only
      split_ifs
      · simp
      · exact ne_vacant hsta
    · exact fun _ hl' => absurd (hl.symm.trans hl') Bool.false_ne_true
  | elect i =>
    obtain ⟨-, rfl⟩ := guarded_eq_some.mp hact
    have hpo : Keeps len s i (winElection len (s.members i)) ∧ _ :=
      h.keeps_poll hsta hok rfl fun _ j hj => if_pos hj
    exact h.next hsta hm hpo.1 hpo.2
  | stepDown i =>
    obtain rfl := Option.some.inj hact
    have ho : InOrder len (s.members i) := h.order i hsta
    refine h.next hsta hm ?_ (Nat.le_refl _)
    refine h.keeps_quiet hsta (fun _ => ?_) nofun (h.reads i)
    exact { ho with leader := nofun }
  | reply i cidIdx =>
    obtain ⟨-, rfl⟩ := guarded_eq_some.mp hact
    exact h.next hsta hm (h.keeps_self hsta) (Nat.le_refl _)
  | recover i r source n commit apply =>
    obtain ⟨⟨-, hs, hh, hend⟩, rfl⟩ := guarded_eq_some.mp hact
    obtain ⟨hp, hkn, hc, hlap, hd, k, -, hk, hkh⟩ := hok
    have hsub : ((s.members source).log.take n).Sublist (s.members source).log :=
      take_sublist _ _
    refine ⟨h.recover hsta hp rfl rfl rfl ?_ hkn hd (fun _ => rfl) ?_ hm, ?_⟩
    · exact ⟨(h.order source hs).laid.sublist hsub, Nat.le_refl _, hh, hend, hc, hlap,
        nofun⟩
    · intro a hb
      exact ⟨hkh.trans (hb k hk).1,
        fun x hx => (hb source hs).2 x (hsub.subset hx)⟩
    · intro k' hk'
      have hne : k' ≠ i := by
        rintro rfl
        rw [show (s.members k').status = .vacant from hsta] at hk'
        cases hk'
      rw [hm]
      exact (congrArg Member.head (Function.update_of_ne hne _ _)).ge
  | fail i =>
    obtain rfl := Option.some.inj hact
    have hp := h.place i (ne_vacant hsta)
    refine h.next hsta hm ?_ (Nat.le_refl _)
    exact h.keeps hsta (by simp) hp.2 (Nat.le_refl _) nofun rfl (fun _ hx => .inl hx)
      (fun j hj _ => ⟨i, hsta, hj⟩) nofun (h.reads i)

theorem sound_start (hlen : 0 < len) (hs : size ≤ maxServerCount) :
    Sound len (start size) := by
  constructor
  · intro i hi
    refine ⟨?_, rfl⟩
    by_contra hge
    exact hi (if_neg (by omega))
  · exact fun i _ => ⟨.nil len, Nat.le_refl _, Nat.le_refl _, Nat.le_refl _, Nat.le_refl _,
      by simpa [start, initialMember] using hlen, nofun⟩
  · exact fun i j _ _ _ => ⟨Nat.le_refl _, nofun⟩
  · exact fun i _ hl => nomatch hl
  · exact fun i j v hr => nomatch hr

/-- The head offset of a running server has not passed the apply offset of any server that is on,
neither as a position nor in the order of the circular log, and does not move back. -/
theorem head_never_passes (hlen : 0 < len) (hsize : size ≤ maxServerCount)
    (hrun : (group len).Run (careful len) (start size) s) :
    (∀ i j, (s.members i).status = .running → (s.members j).status ≠ .vacant → On s j →
      (s.members i).head ≤ (s.members j).apply ∧
      ((s.members j).apply ≤ endPos (s.members i).log →
        isOffsetLarger len (s.members i) (s.members i).head (s.members j).apply = false)) ∧
    ∀ ev t, careful len s ev → (group len).step s ev = some t →
      ∀ i, (s.members i).status = .running → (s.members i).head ≤ (t.members i).head := by
  have hsound : Sound len s := by
    refine Run.invariant (I := Sound len) hrun (sound_start hlen hsize) ?_
    exact fun _ _ _ h hok hstep => (h.step hok hstep).1
  refine ⟨fun i j hi hj hjon => ?_, fun ev t hok hstep => (hsound.step hok hstep).2⟩
  have hle := (hsound.bound i j hi hj hjon).1
  refine ⟨hle, fun hend => ?_⟩
  have horder := hsound.order i hi
  have hiff := isOffsetLarger_iff horder.laid ⟨hle.trans hend, horder.lap⟩
    ⟨hend, horder.lap.trans_le (by omega)⟩
  rw [← Bool.not_eq_true, hiff]
  exact not_lt.mpr hle

/-- A log of three servers that is pruned twice and wraps around, and a server that joins and
recovers. -/
theorem head_never_passes_wrapped :
    ∃ s, (group 500).Run (careful 500) (start 3) s ∧
      ((s.members 0).head = 168 ∧ endPos (s.members 0).log = 548 ∧ (s.members 3).apply = 436) ∧
      (s.members 0).head ≤ (s.members 3).apply := by
  obtain ⟨s, hrun, hi, hj, hon, hs⟩ := System.exists_run_of_exec (M := group 500) (s := start 3)
    (careful 500)
    (p := fun s => (s.members 0).status = .running ∧ (s.members 3).status ≠ .vacant ∧
      isServerOn (s.members 0).cid 3 = true ∧
      (s.members 0).head = 168 ∧ endPos (s.members 0).log = 548 ∧ (s.members 3).apply = 436)
    [.elect 0, .narrow 0 (initialCid 3), .append 0 60, .append 0 60, .extend 1 0 3, .extend 2 0 3,
      .commit 0 168, .commit 1 168, .commit 2 168, .apply 0 168, .apply 1 168, .apply 2 168,
      .prune 0, .fetch 0 1, .fetch 0 2, .complete 0 1, .complete 0 2, .prune 0, .append 0 220,
      .extend 1 0 2, .extend 2 0 2, .commit 0 436, .commit 1 436, .commit 2 436, .poll 1, .poll 2,
      .apply 0 436, .apply 1 436, .apply 2 436, .fetch 0 1, .fetch 0 2, .complete 0 1,
      .complete 0 2, .prune 0, .extend 1 0 1, .commit 0 484, .commit 1 484, .poll 1, .join 0 3,
      .extend 1 0 1, .commit 0 548, .reply 0 7,
      .recover 3 ⟨⟨1, 3, 4, .extended, 15⟩, 7, 168⟩ 0 7 548 436, .poll 3] (by decide +kernel)
  exact ⟨s, hrun, hs,
    ((head_never_passes (by decide) (by decide) hrun).1 0 3 hi hj ⟨0, hi, hon⟩).1⟩

/-- The leader removes a slow server and prunes the entries it has not applied. The removal is lost
with the next election: the server is on again in the configuration of the old leader. -/
theorem head_passes_removed :
    ∃ s, (group 1000).Run anyStep (start 3) s ∧
      (s.members 0).status = .running ∧ (s.members 2).status = .running ∧
      isServerOn (s.members 0).cid 2 = true ∧ isServerOn (s.members 1).cid 2 = true ∧
      (s.members 1).leader = true ∧ (s.members 2).apply < (s.members 0).head ∧
      isOffsetLarger 1000 (s.members 0) (s.members 0).head (s.members 2).apply = true := by
  exact System.exists_run_of_exec (M := group 1000) (s := start 3) anyStep
    (p := fun s => (s.members 0).status = .running ∧ (s.members 2).status = .running ∧
      isServerOn (s.members 0).cid 2 = true ∧ isServerOn (s.members 1).cid 2 = true ∧
      (s.members 1).leader = true ∧ (s.members 2).apply < (s.members 0).head ∧
      isOffsetLarger 1000 (s.members 0) (s.members 0).head (s.members 2).apply = true)
    [.elect 0, .narrow 0 (initialCid 3), .append 0 720, .extend 1 0 2, .extend 2 0 2,
      .commit 0 768, .commit 1 768, .apply 0 768, .apply 1 768, .prune 0, .fetch 0 1,
      .complete 0 1, .force 0, .stepDown 0, .elect 1, .narrow 1 (initialCid 3), .truncate 0 768,
      .extend 0 1 1, .poll 0] (by decide +kernel)

end VmFt.Dare.Pruning
