import Mathlib.Tactic.SplitIfs
import VmFt.Lib.Bitmap
import VmFt.Ram.Layout

/-! # The search for marked pages

`ram_find_and_save_block` goes around the RAM blocks from where the last call
stopped, and saves the marked pages of the first host page it finds. The loop of
`ram_save_complete` calls it until nothing is found. Both loops are given fuel.
-/

namespace VmFt.Ram

open List Option

structure Search where
  lastSeenBlock : Option ℕ
  lastOffset : ℕ
  ramBulkStage : Bool
deriving DecidableEq, Repr

/-- The `PageSearchStatus` of one call. -/
structure Pss where
  block : ℕ
  offset : ℕ
  completeRound : Bool
deriving DecidableEq, Repr

/-- What the search changes: the bitmap in use, the pages given to `ram_save_page` so far, and the
static variables. -/
structure Transfer where
  bitmap : Bitmap
  saved : List ℕ
  search : Search

def Layout.block (L : Layout) (b : ℕ) : RamBlock := L.blocks.getD b ⟨0, 0, 0⟩

/-- The offset in the block of the next marked page. In the bulk stage every page counts as marked,
except that a block is entered by its first marked page. -/
def migrationBitmapFindDirty (bitmap : Bitmap) (bulk : Bool) (rb : RamBlock) (start : ℕ) : ℕ :=
  let nr := rb.offset + start
  let size := rb.offset + rb.usedLength
  let next := if bulk && decide (rb.offset < nr) then nr + 1 else findNextBit bitmap size nr
  next - rb.offset

/-- The new status, whether to go on, and whether a page was found. -/
def findDirtyBlock (L : Layout) (t : Transfer) (pss : Pss) : Transfer × Pss × Bool × Bool :=
  let rb := L.block pss.block
  let offset := migrationBitmapFindDirty t.bitmap t.search.ramBulkStage rb pss.offset
  if pss.completeRound ∧ some pss.block = t.search.lastSeenBlock ∧ t.search.lastOffset ≤ offset then
    (t, { pss with offset := offset }, false, false)
  else if rb.usedLength ≤ offset then
    if pss.block + 1 < L.blocks.length then
      (t, { pss with block := pss.block + 1, offset := 0 }, true, false)
    else ({ t with search := { t.search with ramBulkStage := false } }, ⟨0, 0, true⟩, true, false)
  else (t, { pss with offset := offset }, true, true)

def ramSaveTargetPage (t : Transfer) (p : ℕ) : Transfer × ℕ :=
  if t.bitmap p then ({ t with bitmap := clearBit t.bitmap p, saved := t.saved ++ [p] }, 1)
  else (t, 0)

/-- The loop of `ram_save_host_page`, with the number of target pages that it goes through. -/
def saveTargetPages : ℕ → Transfer → ℕ → Transfer × ℕ
  | 0, t, _ => (t, 0)
  | n + 1, t, p =>
    let (t, k) := ramSaveTargetPage t p
    let (t, m) := saveTargetPages n t (p + 1)
    (t, k + m)

/-- Save the marked pages up to the end of the host page; the offset stays at the last of them. -/
def ramSaveHostPage (L : Layout) (t : Transfer) (pss : Pss) : Transfer × Pss × ℕ :=
  let n := L.hostPages - pss.offset % L.hostPages
  let (t, pages) := saveTargetPages n t ((L.block pss.block).offset + pss.offset)
  (t, { pss with offset := pss.offset + n - 1 }, pages)

def findLoop (L : Layout) : ℕ → Transfer → Pss → Option (Transfer × ℕ)
  | 0, _, _ => none
  | fuel + 1, t, pss =>
    let (t, pss, again, found) := findDirtyBlock L t pss
    let (t, pss, pages) := if found then ramSaveHostPage L t pss else (t, pss, 0)
    if pages = 0 ∧ again then findLoop L fuel t pss
    else
      let search := { t.search with lastSeenBlock := some pss.block, lastOffset := pss.offset }
      some ({ t with search := search }, pages)

def ramFindAndSaveBlock (L : Layout) (fuel : ℕ) (t : Transfer) : Option (Transfer × ℕ) :=
  findLoop L fuel t ⟨t.search.lastSeenBlock.getD 0, t.search.lastOffset, false⟩

/-- The loop of `ram_save_complete`. -/
def ramSaveLoop (L : Layout) : ℕ → Transfer → Option Transfer
  | 0, _ => none
  | fuel + 1, t =>
    (ramFindAndSaveBlock L fuel t).bind fun r =>
      if r.2 = 0 then some r.1 else ramSaveLoop L fuel r.1

/-! ### Saving pages -/

variable {L : Layout} {t t' t'' : Transfer} {ps qs : List ℕ} {pss : Pss} {p : ℕ}

/-- The pages `ps` have been saved: each was marked, is not marked any more, and nothing else
has changed. -/
structure Saves (L : Layout) (t t' : Transfer) (ps : List ℕ) : Prop where
  saved : t'.saved = t.saved ++ ps
  bitmap : ∀ p, t'.bitmap p = (t.bitmap p && decide (p ∉ ps))
  marked : ∀ p ∈ ps, t.bitmap p
  inUse : ∀ p ∈ ps, L.InUse p
  nodup : ps.Nodup

theorem Saves.refl : Saves L t t [] where
  saved := (List.append_nil _).symm
  bitmap p := by simp
  marked p hp := absurd hp not_mem_nil
  inUse p hp := absurd hp not_mem_nil
  nodup := nodup_nil

theorem Saves.trans (h : Saves L t t' ps) (h' : Saves L t' t'' qs) : Saves L t t'' (ps ++ qs) where
  saved := by rw [h'.saved, h.saved, append_assoc]
  bitmap p := by
    rw [h'.bitmap, h.bitmap]
    simp [Bool.and_assoc]
  marked p hp := by
    rcases mem_append.mp hp with hp | hp
    · exact h.marked p hp
    · have hm := h'.marked p hp
      rw [h.bitmap, Bool.and_eq_true] at hm
      exact hm.1
  inUse p hp := (mem_append.mp hp).elim (h.inUse p) (h'.inUse p)
  nodup := by
    apply h.nodup.append h'.nodup
    intro p hp hq
    have hm := h'.marked p hq
    simp [h.bitmap, hp] at hm

theorem Saves.mem (h : Saves L t t' ps) (hm : t.bitmap p) (hclear : t'.bitmap p = false) :
    p ∈ ps := by
  by_contra hp
  simp [h.bitmap, hm, hp] at hclear

theorem saves_targetPage (hp : L.InUse p) (hm : t.bitmap p) :
    Saves L t (ramSaveTargetPage t p).1 [p] ∧ (ramSaveTargetPage t p).2 = 1 := by
  simp only [ramSaveTargetPage, hm, if_true]
  refine ⟨⟨rfl, ?_, by simpa using hm, by simpa using hp, nodup_singleton p⟩, trivial⟩
  intro q
  by_cases hq : q = p
  · simp [clearBit, hq]
  · simp [clearBit, hq]

theorem saves_targetPages (n : ℕ) (t : Transfer) (p : ℕ) (hp : ∀ j < n, L.InUse (p + j)) :
    ∃ ps, Saves L t (saveTargetPages n t p).1 ps ∧ (saveTargetPages n t p).2 = ps.length ∧
      (saveTargetPages n t p).1.search = t.search := by
  induction n generalizing t p with
  | zero => exact ⟨[], .refl, rfl, rfl⟩
  | succ n ih =>
    have hrest : ∀ j < n, L.InUse (p + 1 + j) := by
      intro j hj
      rw [Nat.add_right_comm]
      exact hp (j + 1) (by omega)
    simp only [saveTargetPages]
    by_cases hm : t.bitmap p
    · have hp0 : L.InUse p := hp 0 n.succ_pos
      obtain ⟨hs, hone⟩ := saves_targetPage hp0 hm
      obtain ⟨ps, hps, hlen, hse⟩ := ih (ramSaveTargetPage t p).1 (p + 1) hrest
      refine ⟨p :: ps, hs.trans hps, ?_, ?_⟩
      · rw [hone, hlen, length_cons, Nat.add_comm]
      · rw [hse]
        simp [ramSaveTargetPage, hm]
    · have hn : ramSaveTargetPage t p = (t, 0) := if_neg hm
      obtain ⟨ps, hps, hlen, hse⟩ := ih t (p + 1) hrest
      simp only [hn, Nat.zero_add]
      exact ⟨ps, hps, hlen, hse⟩

/-! ### One round -/

theorem Layout.block_mem {b : ℕ} (hb : b < L.blocks.length) : L.block b ∈ L.blocks := by
  rw [Layout.block, getD_eq_getElem?_getD, List.getElem?_eq_getElem hb, getD_some]
  exact getElem_mem hb

theorem Layout.inUse_block {b o : ℕ} (hb : b < L.blocks.length) (ho : o < (L.block b).usedLength) :
    L.InUse ((L.block b).offset + o) :=
  ⟨_, Layout.block_mem hb, Nat.le_add_right _ _, Nat.add_lt_add_left ho _⟩

def ClearFrom (bitmap : Bitmap) (rb : RamBlock) (o : ℕ) : Prop :=
  ∀ q, o ≤ q → q < rb.usedLength → bitmap (rb.offset + q) = false

theorem migrationBitmapFindDirty_spec {bitmap : Bitmap} {rb : RamBlock} {start o : ℕ}
    (hs : start ≤ rb.usedLength) (ho : migrationBitmapFindDirty bitmap false rb start = o) :
    o ≤ rb.usedLength ∧ (o < rb.usedLength → bitmap (rb.offset + o)) ∧
      ∀ q, start ≤ q → q < o → bitmap (rb.offset + q) = false := by
  simp only [migrationBitmapFindDirty, Bool.false_and, Bool.false_eq_true, if_false] at ho
  have hle := findNextBit_le bitmap (rb.offset + rb.usedLength) (rb.offset + start)
  have hge := le_findNextBit bitmap (Nat.add_le_add_left hs rb.offset)
  have hn : findNextBit bitmap (rb.offset + rb.usedLength) (rb.offset + start) =
      rb.offset + o := by
    omega
  refine ⟨by omega, fun hlt => ?_, fun q hq hqo => ?_⟩
  · rw [← hn]
    exact get_findNextBit (by omega)
  · apply eq_false_of_lt_findNextBit (Nat.add_le_add_left hq rb.offset)
    rw [hn]
    exact Nat.add_lt_add_left hqo _

/-- The search stands in a block and the bulk stage is over, as the end of the completion loop
leaves it. -/
structure Search.Valid (L : Layout) (s : Search) (b₀ : ℕ) : Prop where
  block : s.lastSeenBlock = some b₀
  lt : b₀ < L.blocks.length
  offset : s.lastOffset ≤ (L.block b₀).usedLength
  bulk : s.ramBulkStage = false

/-- No page of any block is marked. -/
def AllClear (L : Layout) (bitmap : Bitmap) : Prop := ∀ p, L.InUse p → bitmap p = false

theorem host_page_le {b o : ℕ} (hb : b < L.blocks.length) (ho : o < (L.block b).usedLength) :
    o + (L.hostPages - o % L.hostPages) ≤ (L.block b).usedLength := by
  obtain ⟨k, hk⟩ := L.aligned _ (Layout.block_mem hb)
  have hdiv := Nat.div_add_mod o L.hostPages
  have hlt : o / L.hostPages < k := Nat.div_lt_of_lt_mul (hk ▸ ho)
  have hmul := Nat.mul_le_mul_left L.hostPages hlt
  have hmod := Nat.mod_lt o L.hostPages_pos
  rw [Nat.mul_succ] at hmul
  omega

/-! ### The whole loop -/

theorem findLoop_mono {fuel fuel' : ℕ} {r : Transfer × ℕ} (h : findLoop L fuel t pss = some r)
    (hle : fuel ≤ fuel') : findLoop L fuel' t pss = some r := by
  induction fuel generalizing fuel' t pss with
  | zero => cases h
  | succ fuel ih =>
    obtain ⟨k, rfl⟩ : ∃ k, fuel' = k + 1 := ⟨fuel' - 1, by omega⟩
    unfold findLoop at h ⊢
    dsimp only at h ⊢
    split_ifs at h ⊢
    all_goals first | exact ih h (by omega) | exact h

theorem ramSaveLoop_mono {fuel fuel' : ℕ} (h : ramSaveLoop L fuel t = some t')
    (hle : fuel ≤ fuel') : ramSaveLoop L fuel' t = some t' := by
  induction fuel generalizing fuel' t with
  | zero => cases h
  | succ fuel ih =>
    obtain ⟨k, rfl⟩ : ∃ k, fuel' = k + 1 := ⟨fuel' - 1, by omega⟩
    obtain ⟨r, hr, hrest⟩ := bind_eq_some_iff.mp h
    unfold ramSaveLoop
    rw [ramFindAndSaveBlock, findLoop_mono hr (by omega), bind_some]
    split_ifs at hrest ⊢
    · exact hrest
    · exact ih hrest (by omega)

/-! ### Where a finished loop leaves the search -/

/-- The search stands within a block, as `reset_ram_globals` and every call leave it. -/
structure Search.Within (L : Layout) (s : Search) : Prop where
  lt : s.lastSeenBlock.getD 0 < L.blocks.length
  offset : s.lastOffset ≤ (L.block (s.lastSeenBlock.getD 0)).usedLength

structure Pss.Within (L : Layout) (bulk : Bool) (pss : Pss) : Prop where
  lt : pss.block < L.blocks.length
  offset : pss.offset ≤ (L.block pss.block).usedLength
  round : pss.completeRound → bulk = false

inductive Went (L : Layout) (t : Transfer) (pss : Pss) : Transfer × Pss × Bool × Bool → Prop
  | giveUp (o : ℕ) (ho : o ≤ (L.block pss.block).usedLength)
      (hbulk : t.search.ramBulkStage = false) :
      Went L t pss (t, { pss with offset := o }, false, false)
  | move (t' : Transfer) (pss' : Pss) (h : pss'.Within L t'.search.ramBulkStage) :
      Went L t pss (t', pss', true, false)
  | page (o : ℕ) (ho : o < (L.block pss.block).usedLength) :
      Went L t pss (t, { pss with offset := o }, true, true)

theorem findDirtyBlock_went (h : pss.Within L t.search.ramBulkStage) :
    Went L t pss (findDirtyBlock L t pss) := by
  unfold findDirtyBlock
  obtain ⟨o, hf⟩ : ∃ o, migrationBitmapFindDirty t.bitmap t.search.ramBulkStage
      (L.block pss.block) pss.offset = o := ⟨_, rfl⟩
  simp only [hf]
  split_ifs with hg hend hl
  · have hbulk := h.round hg.1
    rw [hbulk] at hf
    exact .giveUp o (migrationBitmapFindDirty_spec h.offset hf).1 hbulk
  · exact .move _ _ ⟨hl, Nat.zero_le _, h.round⟩
  · exact .move _ _ ⟨Nat.zero_lt_of_lt h.lt, Nat.zero_le _, fun _ => rfl⟩
  · exact .page o (not_le.mp hend)

theorem saveTargetPages_search (n : ℕ) (t : Transfer) (p : ℕ) :
    (saveTargetPages n t p).1.search = t.search := by
  induction n generalizing t p with
  | zero => rfl
  | succ n ih =>
    simp only [saveTargetPages, ih]
    unfold ramSaveTargetPage
    split_ifs <;> rfl

theorem findLoop_within {fuel : ℕ} {r : Transfer × ℕ} (h : pss.Within L t.search.ramBulkStage)
    (hr : findLoop L fuel t pss = some r) :
    ∃ b, r.1.search.lastSeenBlock = some b ∧ r.1.search.Within L ∧
      (r.2 = 0 → r.1.search.ramBulkStage = false) := by
  induction fuel generalizing t pss with
  | zero => cases hr
  | succ fuel ih =>
    have hw := findDirtyBlock_went h
    unfold findLoop at hr
    generalize findDirtyBlock L t pss = d at hw hr
    cases hw with
    | giveUp o ho hbulk =>
      obtain rfl : _ = r := by simpa using hr
      exact ⟨_, rfl, ⟨h.lt, ho⟩, fun _ => hbulk⟩
    | move t' pss' h' => exact ih h' (by simpa using hr)
    | page o ho =>
      have hend := host_page_le h.lt ho
      have hs := saveTargetPages_search (L.hostPages - o % L.hostPages) t
        ((L.block pss.block).offset + o)
      simp only [if_true, ramSaveHostPage, and_true] at hr
      split_ifs at hr with hp
      · apply ih _ hr
        refine ⟨h.lt, ?_, ?_⟩
        · dsimp only
          omega
        · rw [hs]
          exact h.round
      · obtain rfl : _ = r := by simpa using hr
        refine ⟨_, rfl, ⟨h.lt, ?_⟩, fun h0 => absurd h0 hp⟩
        simp only [getD_some]
        omega

theorem valid_of_ramSaveLoop {fuel : ℕ} (h : t.search.Within L)
    (hr : ramSaveLoop L fuel t = some t') : ∃ b, t'.search.Valid L b := by
  induction fuel generalizing t with
  | zero => cases hr
  | succ fuel ih =>
    obtain ⟨r, hc, hrest⟩ := bind_eq_some_iff.mp hr
    obtain ⟨b, hb, hw, hbulk⟩ := findLoop_within ⟨h.lt, h.offset, by simp⟩ hc
    split_ifs at hrest with hp
    · obtain rfl := Option.some.inj hrest
      have hlt := hw.lt
      have hoff := hw.offset
      rw [hb, getD_some] at hlt hoff
      exact ⟨b, hb, hlt, hoff, hbulk hp⟩
    · exact ih hw hrest

end VmFt.Ram
