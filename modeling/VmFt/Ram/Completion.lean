import Mathlib.Algebra.Ring.Nat
import VmFt.Ram.Search

/-! # The completion loop from any position

The loop of `ram_save_complete` started anywhere: in the bulk stage or after it,
at a position that an earlier call has left or at none. A call goes forward to the
end of the list, where the bulk stage ends, and then once around from the first
block up to the position. In the bulk stage it goes on behind the page at its
position without looking at it.
-/

namespace VmFt.Ram

open List Option

/-- The page numbers that `migration_bitmap_clear_dirty` keeps in an `int` while a host page is
saved. -/
def hostPageTests (L : Layout) (pss : Pss) : List ℕ :=
  range' ((L.block pss.block).offset + pss.offset) (L.hostPages - pss.offset % L.hostPages)

def findLoopTests (L : Layout) : ℕ → Transfer → Pss → List ℕ
  | 0, _, _ => []
  | fuel + 1, t, pss =>
    let (t, pss, again, found) := findDirtyBlock L t pss
    let tests := if found then hostPageTests L pss else []
    let (t, pss, pages) := if found then ramSaveHostPage L t pss else (t, pss, 0)
    if pages = 0 ∧ again then tests ++ findLoopTests L fuel t pss else tests

/-- The page numbers that the loop of `ram_save_complete` keeps in an `int`. -/
def ramSaveLoopTests (L : Layout) : ℕ → Transfer → List ℕ
  | 0, _ => []
  | fuel + 1, t =>
    findLoopTests L fuel t ⟨t.search.lastSeenBlock.getD 0, t.search.lastOffset, false⟩ ++
      ((ramFindAndSaveBlock L fuel t).elim [] fun r =>
        if r.2 = 0 then [] else ramSaveLoopTests L fuel r.1)

/-- The page `p` is tested by a search that stands at the offset `o` of block `b`: a marked page
stands in front of it in its host page, or in the bulk stage in its block. In the bulk stage the
search comes upon all pages behind the first one it finds that is not at the start of a block. -/
def Tests (L : Layout) (bitmap : Bitmap) (bulk : Bool) (b o p : ℕ) : Prop :=
  ∃ c x, c < L.blocks.length ∧ x < (L.block c).usedLength ∧ p = (L.block c).offset + x ∧
    ((∃ y ≤ x, bitmap ((L.block c).offset + y) = true ∧
        (y / L.hostPages = x / L.hostPages ∨
          bulk = true ∧ (b < c ∨ b = c ∧ o = 0) ∧ (0 < y ∨ 1 < L.hostPages))) ∨
      bulk = true ∧ b = c ∧ 0 < o ∧ o < x)

/-- Where the search can stand: nowhere, or in a block. -/
structure Search.Positioned (L : Layout) (s : Search) : Prop where
  none : s.lastSeenBlock = none → s.lastOffset = 0
  some : ∀ b, s.lastSeenBlock = some b →
    b < L.blocks.length ∧ s.lastOffset ≤ (L.block b).usedLength

/-- The loop ends, it has saved each marked page of the blocks once and no other page, none of them
is marked any more, and no page number was too large for an `int`. -/
def Completes (L : Layout) (t : Transfer) : Prop :=
  ∃ fuel t' ps, ramSaveLoop L fuel t = some t' ∧ t'.saved = t.saved ++ ps ∧ ps.Nodup ∧
    (∀ p, p ∈ ps ↔ L.InUse p ∧ t.bitmap p = true) ∧ AllClear L t'.bitmap ∧
    ∀ p ∈ ramSaveLoopTests L fuel t, p < 2 ^ 31

/-- Without a position some page is marked. In the bulk stage a marked page at the position is not
the only one, unless the position is at the start of a block. The pages that are tested have numbers
that fit an `int`. -/
structure CanComplete (L : Layout) (t : Transfer) : Prop where
  start : t.search.lastSeenBlock = none → ∃ p, L.InUse p ∧ t.bitmap p = true
  position : ∀ b, t.search.lastSeenBlock = some b → t.search.ramBulkStage = true →
    0 < t.search.lastOffset → t.search.lastOffset < (L.block b).usedLength →
    t.bitmap ((L.block b).offset + t.search.lastOffset) = true →
    ∃ p, p ≠ (L.block b).offset + t.search.lastOffset ∧ L.InUse p ∧ t.bitmap p = true
  small : ∀ p, Tests L t.bitmap t.search.ramBulkStage (t.search.lastSeenBlock.getD 0)
    t.search.lastOffset p → p < 2 ^ 31

variable {L : Layout} {t t' : Transfer} {pss : Pss} {bitmap : Bitmap} {bulk : Bool} {b o p : ℕ}

/-! ### Saving a host page -/

theorem ramSaveTargetPage_bitmap (t : Transfer) (p q : ℕ) :
    (ramSaveTargetPage t p).1.bitmap q = (t.bitmap q && decide (q ≠ p)) := by
  unfold ramSaveTargetPage
  by_cases hq : q = p
  · split_ifs with hm
    · simp [clearBit, hq]
    · simpa [hq] using hm
  · split_ifs
    · simp [clearBit, hq]
    · simp [hq]

theorem saveTargetPages_bitmap (n : ℕ) (t : Transfer) (p q : ℕ) :
    (saveTargetPages n t p).1.bitmap q = (t.bitmap q && decide (q < p ∨ p + n ≤ q)) := by
  induction n generalizing t p with
  | zero =>
    have : q < p ∨ p ≤ q := by omega
    simp [saveTargetPages, this]
  | succ n ih =>
    simp only [saveTargetPages, ih, ramSaveTargetPage_bitmap, Bool.and_assoc]
    congr 1
    rw [Bool.eq_iff_iff]
    simp only [Bool.and_eq_true, decide_eq_true_eq]
    omega

theorem ramSaveHostPage_saves {b o : ℕ} {r : Bool} (hb : b < L.blocks.length)
    (ho : o < (L.block b).usedLength) :
    ∃ u ps o', ramSaveHostPage L t ⟨b, o, r⟩ = (u, ⟨b, o', r⟩, ps.length) ∧ Saves L t u ps ∧
      u.search = t.search ∧ o ≤ o' ∧ o' < (L.block b).usedLength ∧
      (∀ q, o ≤ q → q ≤ o' → u.bitmap ((L.block b).offset + q) = false) ∧
      ∀ p ∈ ps, ∃ q, o ≤ q ∧ q ≤ o' ∧ p = (L.block b).offset + q := by
  have hmod := Nat.mod_lt o L.hostPages_pos
  have hn := host_page_le hb ho
  have hi : ∀ j < L.hostPages - o % L.hostPages, L.InUse ((L.block b).offset + o + j) := by
    intro j hj
    rw [Nat.add_assoc]
    exact Layout.inUse_block hb (by omega)
  obtain ⟨ps, hps, hlen, hs⟩ := saves_targetPages _ t _ hi
  have hbi := saveTargetPages_bitmap (L.hostPages - o % L.hostPages) t
    ((L.block b).offset + o)
  refine ⟨_, ps, o + (L.hostPages - o % L.hostPages) - 1, ?_, hps, hs, by omega, by omega,
    ?_, ?_⟩
  · simp only [ramSaveHostPage, hlen]
  · intro q hq hq'
    rw [hbi, Bool.and_eq_false_iff, decide_eq_false_iff_not]
    right
    omega
  · intro p hp
    have hm := hps.marked p hp
    have hclear : (saveTargetPages (L.hostPages - o % L.hostPages) t
        ((L.block b).offset + o)).1.bitmap p = false := by
      simp [hps.bitmap, hp]
    rw [hbi, hm, Bool.true_and, decide_eq_false_iff_not] at hclear
    exact ⟨p - (L.block b).offset, by omega, by omega, by omega⟩

theorem eq_of_saves_nil (h : Saves L t t' []) (hs : t'.search = t.search) : t' = t := by
  rcases t with ⟨bitmap, saved, search⟩
  rcases t' with ⟨bitmap', saved', search'⟩
  obtain rfl : bitmap' = bitmap := funext fun p => by simpa using h.bitmap p
  obtain rfl : saved' = saved := by simpa using h.saved
  obtain rfl : search' = search := hs
  rfl

/-! ### One block -/

def searchFrom (bulk : Bool) (o : ℕ) : ℕ := if bulk && decide (0 < o) then o + 1 else o

theorem searchFrom_zero (bulk : Bool) : searchFrom bulk 0 = 0 := by
  simp [searchFrom]

theorem migrationBitmapFindDirty_bulk (bitmap : Bitmap) {rb : RamBlock} (ho : 0 < o) :
    migrationBitmapFindDirty bitmap true rb o = o + 1 := by
  simp only [migrationBitmapFindDirty, Bool.true_and, show rb.offset < rb.offset + o by omega,
    decide_true, if_true]
  omega

theorem migrationBitmapFindDirty_from (bitmap : Bitmap) (bulk : Bool) {rb : RamBlock} {o : ℕ}
    (ho : o ≤ rb.usedLength) : let o' := migrationBitmapFindDirty bitmap bulk rb o
    searchFrom bulk o ≤ o' ∧
      (∀ q, searchFrom bulk o ≤ q → q < o' → bitmap (rb.offset + q) = false) ∧
      (o' < rb.usedLength → bitmap (rb.offset + o') = true ∨ bulk = true ∧ 0 < o) := by
  dsimp only
  by_cases hs : bulk = true ∧ 0 < o
  · obtain ⟨rfl, hpos⟩ := hs
    rw [migrationBitmapFindDirty_bulk bitmap hpos, searchFrom, Bool.true_and,
      if_pos (decide_eq_true hpos)]
    exact ⟨le_rfl, fun q hq hq' => by omega, fun _ => .inr ⟨rfl, hpos⟩⟩
  · have hfr : searchFrom bulk o = o := if_neg (by simpa using hs)
    have hf : migrationBitmapFindDirty bitmap bulk rb o =
        migrationBitmapFindDirty bitmap false rb o := by
      simp [migrationBitmapFindDirty, hs]
    obtain ⟨-, hm, hpassed⟩ := migrationBitmapFindDirty_spec ho hf.symm
    have hle : o ≤ migrationBitmapFindDirty bitmap bulk rb o := by
      rw [hf]
      have := le_findNextBit bitmap (Nat.add_le_add_left ho rb.offset)
      simp only [migrationBitmapFindDirty, Bool.false_and, Bool.false_eq_true, if_false]
      omega
    rw [hfr]
    exact ⟨hle, hpassed, fun hlt => .inl (hm hlt)⟩

/-- A call has saved pages, one of which has the property `P`, and stands at a page that is not
marked. -/
def Advances (L : Layout) (P : ℕ → Prop) (t : Transfer) (r : Transfer × ℕ) : Prop :=
  ∃ ps, r.2 = ps.length ∧ Saves L t r.1 ps ∧ (∃ p ∈ ps, P p) ∧
    ∃ b o bulk, r.1.search = ⟨some b, o, bulk⟩ ∧ b < L.blocks.length ∧
      o < (L.block b).usedLength ∧ r.1.bitmap ((L.block b).offset + o) = false

theorem findLoop_of_page {P : ℕ → Prop} {b o : ℕ} {r : Bool}
    (hf : findDirtyBlock L t pss = (t, ⟨b, o, r⟩, true, true)) (hb : b < L.blocks.length)
    (ho : o < (L.block b).usedLength)
    (hP : (∀ q, o ≤ q → q < (L.block b).usedLength → P ((L.block b).offset + q)) ∨
      t.bitmap ((L.block b).offset + o) = true ∧ P ((L.block b).offset + o)) :
    (∃ res, Advances L P t res ∧ ∀ fuel, findLoop L (fuel + 1) t pss = some res) ∨
      ∃ o', o ≤ o' ∧ o' < (L.block b).usedLength ∧
        (∀ q, o ≤ q → q ≤ o' → t.bitmap ((L.block b).offset + q) = false) ∧
        ∀ fuel, findLoop L (fuel + 1) t pss = findLoop L fuel t ⟨b, o', r⟩ := by
  obtain ⟨u, ps, o', hp, hs, hse, hle, hlt, hclear, hr⟩ :=
    ramSaveHostPage_saves (t := t) (r := r) hb ho
  cases ps with
  | nil =>
    obtain rfl := eq_of_saves_nil hs hse
    refine .inr ⟨o', hle, hlt, hclear, fun fuel => ?_⟩
    rw [findLoop]
    simp only [hf, if_true, hp, length_nil, and_self]
  | cons p ps =>
    refine .inl ⟨({ u with search := ⟨some b, o', t.search.ramBulkStage⟩ }, (p :: ps).length),
      ⟨p :: ps, rfl, { hs with }, ?_,
        b, o', _, rfl, hb, hlt, hclear o' hle le_rfl⟩, fun fuel => ?_⟩
    · rcases hP with hP | ⟨hm, hP⟩
      · obtain ⟨q, hq, hq', rfl⟩ := hr p mem_cons_self
        exact ⟨_, mem_cons_self, hP q hq (by omega)⟩
      · exact ⟨_, hs.mem hm (hclear o le_rfl hle), hP⟩
    · rw [findLoop]
      simp only [hf, if_true, hp, length_cons, Nat.succ_ne_zero, false_and, if_false, hse]

def leave (L : Layout) (t : Transfer) (b : ℕ) : Transfer × Pss :=
  if b + 1 < L.blocks.length then (t, ⟨b + 1, 0, false⟩)
  else ({ t with search := { t.search with ramBulkStage := false } }, ⟨0, 0, true⟩)

theorem findDirtyBlock_first (b o : ℕ) : findDirtyBlock L t ⟨b, o, false⟩ =
      let o' := migrationBitmapFindDirty t.bitmap t.search.ramBulkStage (L.block b) o
      if (L.block b).usedLength ≤ o' then ((leave L t b).1, (leave L t b).2, true, false)
      else (t, ⟨b, o', false⟩, true, true) := by
  unfold findDirtyBlock leave
  simp only [Bool.false_eq_true, false_and, if_false]
  split_ifs <;> rfl

theorem findLoop_of_move {u : Transfer} {pss' : Pss}
    (h : findDirtyBlock L t pss = (u, pss', true, false)) (fuel : ℕ) :
    findLoop L (fuel + 1) t pss = findLoop L fuel u pss' := by
  rw [findLoop]
  simp [h]

theorem findLoop_of_marked {P : ℕ → Prop} {b o : ℕ} {r : Bool}
    (hf : findDirtyBlock L t pss = (t, ⟨b, o, r⟩, true, true)) (hb : b < L.blocks.length)
    (ho : o < (L.block b).usedLength) (hm : t.bitmap ((L.block b).offset + o) = true)
    (hP : P ((L.block b).offset + o)) :
    ∃ res, Advances L P t res ∧ ∀ fuel, findLoop L (fuel + 1) t pss = some res := by
  rcases findLoop_of_page hf hb ho (.inr ⟨hm, hP⟩) with hadv | ⟨o', hle, -, hclear, -⟩
  · exact hadv
  · rw [hclear o le_rfl hle] at hm
    cases hm

theorem findLoop_block {P : ℕ → Prop} {b o : ℕ} (hb : b < L.blocks.length)
    (ho : o ≤ (L.block b).usedLength)
    (hP : ∀ q, searchFrom t.search.ramBulkStage o ≤ q → q < (L.block b).usedLength →
      P ((L.block b).offset + q)) :
    ∃ n, (∃ res, Advances L P t res ∧ ∀ fuel, findLoop L (fuel + n) t ⟨b, o, false⟩ = some res) ∨
      ClearFrom t.bitmap (L.block b) (searchFrom t.search.ramBulkStage o) ∧
        ∀ fuel, findLoop L (fuel + n) t ⟨b, o, false⟩ =
          findLoop L fuel (leave L t b).1 (leave L t b).2 := by
  induction hk : (L.block b).usedLength - o using Nat.strong_induction_on generalizing o with
  | _ k ih =>
    obtain ⟨hfr, hpassed, hma⟩ := migrationBitmapFindDirty_from t.bitmap
      t.search.ramBulkStage ho
    have hf := findDirtyBlock_first (L := L) (t := t) b o
    dsimp only at hfr hpassed hma hf
    generalize migrationBitmapFindDirty t.bitmap t.search.ramBulkStage (L.block b) o = o' at *
    by_cases hend : (L.block b).usedLength ≤ o'
    · rw [if_pos hend] at hf
      exact ⟨1, .inr ⟨fun q hq hq' => hpassed q hq (by omega), findLoop_of_move hf⟩⟩
    · rw [if_neg hend] at hf
      rw [not_le] at hend
      rcases findLoop_of_page hf hb hend (.inl fun q hq hq' => hP q (by omega) hq') with
        hadv | ⟨o'', hle, hlt, hclear, hgo⟩
      · exact ⟨1, .inl hadv⟩
      · -- nothing of the host page is marked, so the search was not by the bitmap
        rcases hma hend with hm | ⟨hbulk, hpos⟩
        · rw [hclear o' le_rfl hle] at hm
          cases hm
        · have hs : searchFrom t.search.ramBulkStage o = o + 1 := by
            simp [searchFrom, hbulk, hpos]
          have hf' : searchFrom t.search.ramBulkStage o'' = o'' + 1 := by
            simp [searchFrom, hbulk, show 0 < o'' by omega]
          obtain ⟨n, hn⟩ := ih _ (by omega) hlt.le (fun q hq hq' => hP q (by omega) hq') rfl
          refine ⟨n + 1, hn.imp ?_ ?_⟩
          · rintro ⟨res, hadv, hres⟩
            exact ⟨res, hadv, fun fuel => by rw [← Nat.add_assoc, hgo, hres]⟩
          · rintro ⟨hrest, hres⟩
            refine ⟨fun q hq hq' => ?_, fun fuel => by rw [← Nat.add_assoc, hgo, hres]⟩
            rcases Nat.lt_or_ge q o' with hqo | hqo
            · exact hpassed q hq hqo
            · rcases Nat.lt_or_ge o'' q with hqo' | hqo'
              · exact hrest q (by omega) hq'
              · exact hclear q hqo hqo'

/-! ### One call -/

theorem findLoop_first_round {P : ℕ → Prop} {b o : ℕ} (hb : b < L.blocks.length)
    (ho : o ≤ (L.block b).usedLength)
    (hP : ∀ q, searchFrom t.search.ramBulkStage o ≤ q → q < (L.block b).usedLength →
      P ((L.block b).offset + q))
    (hP' : ∀ c, b < c → c < L.blocks.length → ∀ q < (L.block c).usedLength,
      P ((L.block c).offset + q)) :
    ∃ n, (∃ res, Advances L P t res ∧ ∀ fuel, findLoop L (fuel + n) t ⟨b, o, false⟩ = some res) ∨
      ClearFrom t.bitmap (L.block b) (searchFrom t.search.ramBulkStage o) ∧
        (∀ c, b < c → c < L.blocks.length → ClearFrom t.bitmap (L.block c) 0) ∧
        ∀ fuel, findLoop L (fuel + n) t ⟨b, o, false⟩ =
          findLoop L fuel { t with search := { t.search with ramBulkStage := false } }
            ⟨0, 0, true⟩ := by
  induction hk : L.blocks.length - b generalizing b o with
  | zero => omega
  | succ k ih =>
    obtain ⟨n, hadv | ⟨hclear, hgo⟩⟩ := findLoop_block hb ho hP
    · exact ⟨n, .inl hadv⟩
    · by_cases hl : b + 1 < L.blocks.length
      · simp only [leave, if_pos hl] at hgo
        obtain ⟨m, hm⟩ := ih hl (Nat.zero_le _) (fun q _ hq => hP' _ (by omega) hl q hq)
          (fun c hc => hP' c (by omega)) (by omega)
        refine ⟨m + n, hm.imp ?_ ?_⟩
        · rintro ⟨res, hadv, hres⟩
          exact ⟨res, hadv, fun fuel => by rw [← Nat.add_assoc, hgo, hres]⟩
        · rintro ⟨hn, hrest, hres⟩
          rw [searchFrom_zero] at hn
          refine ⟨hclear, fun c hc hc' => ?_, fun fuel => by rw [← Nat.add_assoc, hgo, hres]⟩
          rcases Nat.lt_or_eq_of_le (Nat.succ_le_of_lt hc) with hlt | rfl
          · exact hrest c hlt hc'
          · exact hn
      · simp only [leave, if_neg hl] at hgo
        exact ⟨n, .inr ⟨hclear, fun c hc hc' => by omega, hgo⟩⟩

theorem findLoop_second_round {P : ℕ → Prop} {b b₀ : ℕ} (hle : b ≤ b₀) (hb₀ : b₀ < L.blocks.length)
    (hs : t.search.lastSeenBlock = some b₀) (ho : t.search.lastOffset ≤ (L.block b₀).usedLength)
    (hbulk : t.search.ramBulkStage = false)
    (hP : ∀ c < b₀, ∀ q < (L.block c).usedLength, P ((L.block c).offset + q))
    (hP' : ∀ q < t.search.lastOffset, P ((L.block b₀).offset + q)) :
    ∃ n, (∃ res, Advances L P t res ∧ ∀ fuel, findLoop L (fuel + n) t ⟨b, 0, true⟩ = some res) ∨
      (∀ c, b ≤ c → c < b₀ → ClearFrom t.bitmap (L.block c) 0) ∧
        (∀ q < t.search.lastOffset, t.bitmap ((L.block b₀).offset + q) = false) ∧
        ∃ o, ∀ fuel, findLoop L (fuel + n) t ⟨b, 0, true⟩ =
          some ({ t with search := ⟨some b₀, o, false⟩ }, 0) := by
  induction hk : b₀ - b generalizing b with
  | zero =>
    obtain rfl : b = b₀ := by omega
    obtain ⟨o, hfi⟩ : ∃ o, migrationBitmapFindDirty t.bitmap false (L.block b) 0 = o := ⟨_, rfl⟩
    obtain ⟨-, hm, hpassed⟩ := migrationBitmapFindDirty_spec (Nat.zero_le _) hfi
    by_cases hend : t.search.lastOffset ≤ o
    · have hg : findDirtyBlock L t ⟨b, 0, true⟩ = (t, ⟨b, o, true⟩, false, false) := by
        simp [findDirtyBlock, hbulk, hfi, hs, hend]
      refine ⟨1, .inr ⟨fun c hc hc' => by omega,
        fun q hq => hpassed q (Nat.zero_le _) (by omega), o, fun fuel => ?_⟩⟩
      rw [findLoop]
      simp [hg, hbulk]
    · have hlt : o < (L.block b).usedLength := by omega
      have hf : findDirtyBlock L t ⟨b, 0, true⟩ = (t, ⟨b, o, true⟩, true, true) := by
        simp [findDirtyBlock, hbulk, hfi, hend, not_le.mpr hlt]
      exact ⟨1, .inl (findLoop_of_marked hf hb₀ hlt (hm hlt) (hP' o (by omega)))⟩
  | succ k ih =>
    obtain ⟨o, hfi⟩ : ∃ o, migrationBitmapFindDirty t.bitmap false (L.block b) 0 = o := ⟨_, rfl⟩
    obtain ⟨-, hm, hpassed⟩ := migrationBitmapFindDirty_spec (Nat.zero_le _) hfi
    have hne : b ≠ b₀ := by omega
    by_cases hend : (L.block b).usedLength ≤ o
    · have hmo : findDirtyBlock L t ⟨b, 0, true⟩ = (t, ⟨b + 1, 0, true⟩, true, false) := by
        simp [findDirtyBlock, hbulk, hfi, hs, hne, hend, show b + 1 < L.blocks.length by omega]
      obtain ⟨n, hn⟩ := ih (b := b + 1) (by omega) (by omega)
      refine ⟨n + 1, hn.imp ?_ ?_⟩
      · rintro ⟨res, hadv, hres⟩
        exact ⟨res, hadv, fun fuel => by rw [← Nat.add_assoc, findLoop_of_move hmo, hres]⟩
      · rintro ⟨hclear, hb, o', hres⟩
        refine ⟨fun c hc hc' => ?_, hb, o',
          fun fuel => by rw [← Nat.add_assoc, findLoop_of_move hmo, hres]⟩
        rcases Nat.lt_or_eq_of_le hc with hlt | rfl
        · exact hclear c hlt hc'
        · exact fun q _ hq => hpassed q (Nat.zero_le _) (by omega)
    · rw [not_le] at hend
      have hf : findDirtyBlock L t ⟨b, 0, true⟩ = (t, ⟨b, o, true⟩, true, true) := by
        simp [findDirtyBlock, hbulk, hfi, hs, hne, not_le.mpr hend]
      exact ⟨1, .inl (findLoop_of_marked hf (by omega) hend (hm hend) (hP b (by omega) o hend))⟩

theorem Layout.InUse.exists_block {p : ℕ} (h : L.InUse p) :
    ∃ c q, c < L.blocks.length ∧ q < (L.block c).usedLength ∧ p = (L.block c).offset + q := by
  obtain ⟨rb, hrb, hle, hlt⟩ := h
  obtain ⟨c, hc, rfl⟩ := getElem_of_mem hrb
  have hb : L.block c = L.blocks[c] := by
    rw [Layout.block, getD_eq_getElem?_getD, List.getElem?_eq_getElem hc, getD_some]
  exact ⟨c, p - L.blocks[c].offset, hc, by rw [hb]; omega, by rw [hb]; omega⟩

theorem Layout.page_ne {b c o q : ℕ} (hb : b < L.blocks.length) (hc : c < L.blocks.length)
    (hne : b ≠ c) (ho : o < (L.block b).usedLength) (hq : q < (L.block c).usedLength) :
    (L.block c).offset + q ≠ (L.block b).offset + o := by
  have hbl : ∀ {i}, (hi : i < L.blocks.length) → L.block i = L.blocks[i] := fun hi => by
    rw [Layout.block, getD_eq_getElem?_getD, List.getElem?_eq_getElem hi, getD_some]
  have hu := L.used_le _ (Layout.block_mem hb)
  have hu' := L.used_le _ (Layout.block_mem hc)
  have hd := pairwise_iff_getElem.mp L.disjoint
  rcases Nat.lt_or_gt_of_ne hne with hlt | hlt
  · have := hd b c hb hc hlt
    rw [← hbl hb, ← hbl hc] at this
    omega
  · have := hd c b hc hb hlt
    rw [← hbl hb, ← hbl hc] at this
    omega

theorem Advances.of_eq {P : ℕ → Prop} {u : Transfer} {r : Transfer × ℕ} (h : Advances L P u r)
    (hb : u.bitmap = t.bitmap) (hsa : u.saved = t.saved) : Advances L P t r := by
  obtain ⟨ps, hlen, hs, hrest⟩ := h
  refine ⟨ps, hlen, ⟨?_, ?_, ?_, hs.inUse, hs.nodup⟩, hrest⟩
  · rw [hs.saved, hsa]
  · rw [← hb]
    exact hs.bitmap
  · rw [← hb]
    exact hs.marked

/-- The page at the position is passed over: the call is in the bulk stage, and the position is in a
block but not at its start. -/
def PassedOver (L : Layout) (s : Search) (b : ℕ) : Prop :=
  s.ramBulkStage = true ∧ 0 < s.lastOffset ∧ s.lastOffset < (L.block b).usedLength

theorem call_from_position {b₀ : ℕ} (hse : t.search.lastSeenBlock = some b₀)
    (hb₀ : b₀ < L.blocks.length) (ho : t.search.lastOffset ≤ (L.block b₀).usedLength) :
    ∃ n, (∃ res, Advances L (fun p => PassedOver L t.search b₀ →
          p ≠ (L.block b₀).offset + t.search.lastOffset) t res ∧
        ∀ fuel, ramFindAndSaveBlock L (fuel + n) t = some res) ∨
      (∀ p, L.InUse p → t.bitmap p = true →
        PassedOver L t.search b₀ ∧ p = (L.block b₀).offset + t.search.lastOffset) ∧
      ∃ o, ∀ fuel, ramFindAndSaveBlock L (fuel + n) t =
        some ({ t with search := ⟨some b₀, o, false⟩ }, 0) := by
  have hca : ∀ fuel, ramFindAndSaveBlock L fuel t =
      findLoop L fuel t ⟨b₀, t.search.lastOffset, false⟩ := fun fuel => by
    rw [ramFindAndSaveBlock, hse, getD_some]
  have hot : ∀ c < L.blocks.length, b₀ ≠ c → ∀ q < (L.block c).usedLength,
      PassedOver L t.search b₀ →
        (L.block c).offset + q ≠ (L.block b₀).offset + t.search.lastOffset :=
    fun c hc hne q hq hpa => Layout.page_ne hb₀ hc hne hpa.2.2 hq
  simp only [hca]
  obtain ⟨n, hadv | ⟨hclear, ha, hr⟩⟩ := findLoop_first_round (t := t)
    (P := fun p => PassedOver L t.search b₀ → p ≠ (L.block b₀).offset + t.search.lastOffset)
    hb₀ ho
    (fun q hq _ hpa => by
      simp only [searchFrom, hpa.1, hpa.2.1, decide_true, Bool.and_self, if_true] at hq
      omega)
    (fun c hc hlen => hot c hlen (by omega))
  · exact ⟨n, .inl hadv⟩
  · obtain ⟨m, hm⟩ := findLoop_second_round (L := L)
      (t := { t with search := { t.search with ramBulkStage := false } })
      (P := fun p => PassedOver L t.search b₀ → p ≠ (L.block b₀).offset + t.search.lastOffset)
      (Nat.zero_le b₀) hb₀ hse ho rfl (fun c hc => hot c (by omega) (by omega))
      (fun q hq _ => by dsimp only at hq; omega)
    refine ⟨m + n, hm.imp ?_ ?_⟩
    · rintro ⟨res, hadv, hres⟩
      exact ⟨res, hadv.of_eq rfl rfl, fun fuel => by rw [← Nat.add_assoc, hr, hres]⟩
    · rintro ⟨hb, hf, o, hres⟩
      refine ⟨fun p hp hma => ?_, o, fun fuel => by rw [← Nat.add_assoc, hr, hres]⟩
      obtain ⟨c, q, hc, hq, rfl⟩ := hp.exists_block
      rcases lt_trichotomy c b₀ with hlt | rfl | hgt
      · exact absurd ((hb c (Nat.zero_le _) hlt q (Nat.zero_le _) hq).symm.trans hma)
          Bool.false_ne_true
      · rcases Nat.lt_or_ge q t.search.lastOffset with hqo | hqo
        · exact absurd ((hf q hqo).symm.trans hma) Bool.false_ne_true
        · by_cases hs : t.search.ramBulkStage = true ∧ 0 < t.search.lastOffset
          · rcases Nat.lt_or_eq_of_le hqo with hqo | rfl
            · have hfr : searchFrom t.search.ramBulkStage t.search.lastOffset ≤ q := by
                simp only [searchFrom, hs, decide_true, Bool.and_self, if_true]
                omega
              exact absurd ((hclear q hfr hq).symm.trans hma) Bool.false_ne_true
            · exact ⟨⟨hs.1, hs.2, hq⟩, rfl⟩
          · have hfr : searchFrom t.search.ramBulkStage t.search.lastOffset ≤ q := by
              simpa [searchFrom, hs] using hqo
            exact absurd ((hclear q hfr hq).symm.trans hma) Bool.false_ne_true
      · exact absurd ((ha c hgt hc q (Nat.zero_le _) hq).symm.trans hma) Bool.false_ne_true

theorem call_from_start (hn : t.search.lastSeenBlock = none) (hz : t.search.lastOffset = 0)
    (hma : ∃ p, L.InUse p ∧ t.bitmap p = true) : ∃ n res, Advances L (fun _ => True) t res ∧
      ∀ fuel, ramFindAndSaveBlock L (fuel + n) t = some res := by
  obtain ⟨p, hp, hm⟩ := hma
  obtain ⟨c, q, hc, hq, rfl⟩ := hp.exists_block
  have hca : ∀ fuel, ramFindAndSaveBlock L fuel t = findLoop L fuel t ⟨0, 0, false⟩ :=
    fun fuel => by rw [ramFindAndSaveBlock, hn, hz, getD_none]
  simp only [hca]
  obtain ⟨n, ⟨res, hadv⟩ | ⟨hclear, ha, -⟩⟩ := findLoop_first_round (L := L) (t := t)
    (P := fun _ => True) (b := 0) (by omega) (Nat.zero_le _) (fun _ _ _ => trivial)
    fun _ _ _ _ _ => trivial
  · exact ⟨n, res, hadv⟩
  · rw [searchFrom_zero] at hclear
    rcases Nat.eq_zero_or_pos c with rfl | hpos
    · exact absurd ((hclear q (Nat.zero_le _) hq).symm.trans hm) Bool.false_ne_true
    · exact absurd ((ha c hpos hc q (Nat.zero_le _) hq).symm.trans hm) Bool.false_ne_true

/-! ### The pages that are tested -/

theorem tests_leave (ho : o ≤ (L.block b).usedLength)
    (hend : (L.block b).usedLength ≤ migrationBitmapFindDirty bitmap bulk (L.block b) o) :
    Tests L bitmap bulk b o p ↔ Tests L bitmap bulk (b + 1) 0 p := by
  obtain ⟨-, hpassed, -⟩ := migrationBitmapFindDirty_from bitmap bulk ho
  refine exists₂_congr fun c x => and_congr_right fun hc => and_congr_right fun hx =>
    and_congr_right fun _ => ?_
  constructor
  · rintro (⟨y, hy, hm, hh | ⟨hbulk, hlt | ⟨rfl, rfl⟩, hpos⟩⟩ | ⟨rfl, rfl, hpos, hlt⟩)
    · exact .inl ⟨y, hy, hm, .inl hh⟩
    · exact .inl ⟨y, hy, hm, .inr ⟨hbulk, by omega, hpos⟩⟩
    · -- Nothing is marked in the block that is left.
      rw [hpassed y (by rw [searchFrom_zero]; omega) (by omega)] at hm
      cases hm
    · rw [migrationBitmapFindDirty_bulk bitmap hpos] at hend
      omega
  · rintro (⟨y, hy, hm, hh | ⟨hbulk, hlt, hpos⟩⟩ | ⟨-, -, hpos, -⟩)
    · exact .inl ⟨y, hy, hm, .inl hh⟩
    · exact .inl ⟨y, hy, hm, .inr ⟨hbulk, .inl (by omega), hpos⟩⟩
    · omega

theorem tests_last (h : Tests L bitmap bulk b 0 p) (hb : L.blocks.length ≤ b) :
    Tests L bitmap false 0 0 p := by
  obtain ⟨c, x, hc, hx, hp, ⟨y, hy, hm, hh | ⟨-, hlt, -⟩⟩ | ⟨-, -, hpos, -⟩⟩ := h
  · exact ⟨c, x, hc, hx, hp, .inl ⟨y, hy, hm, .inl hh⟩⟩
  · omega
  · omega

theorem Tests.of_stable (h : Tests L bitmap false b o p) (bulk : Bool) (b' o' : ℕ) :
    Tests L bitmap bulk b' o' p := by
  obtain ⟨c, x, hc, hx, hp, ⟨y, hy, hm, hh | ⟨hbulk, -⟩⟩ | ⟨hbulk, -⟩⟩ := h
  · exact ⟨c, x, hc, hx, hp, .inl ⟨y, hy, hm, .inl hh⟩⟩
  · cases hbulk
  · cases hbulk

/-- The rest of a host page is tested, and what was to be tested beyond it still is. -/
theorem tests_page {bitmap' : Bitmap} {o' n : ℕ} (hb : b < L.blocks.length)
    (ho : o ≤ (L.block b).usedLength)
    (hf : migrationBitmapFindDirty bitmap bulk (L.block b) o = o')
    (hlt : o' < (L.block b).usedLength) (hn : n = L.hostPages - o' % L.hostPages)
    (hclear : ∀ q, bitmap' q = (bitmap q &&
      decide (q < (L.block b).offset + o' ∨ (L.block b).offset + o' + n ≤ q))) :
    p ∈ range' ((L.block b).offset + o') n ∨ Tests L bitmap' bulk b (o' + n - 1) p ↔
      Tests L bitmap bulk b o p := by
  have hfrom := migrationBitmapFindDirty_from bitmap bulk ho
  dsimp only at hfrom
  rw [hf] at hfrom
  obtain ⟨hge, hpassed, hfound⟩ := hfrom
  have hnext : bulk = true → 0 < o → o' = o + 1 := by
    rintro rfl hpos
    rw [← hf, migrationBitmapFindDirty_bulk bitmap hpos]
  have hmod := Nat.mod_lt o' L.hostPages_pos
  have hle : o' + n ≤ (L.block b).usedLength := hn ▸ host_page_le hb hlt
  -- The pages of the block that share the host page with the page found.
  have hhost : ∀ x, o' ≤ x → (x / L.hostPages = o' / L.hostPages ↔ x < o' + n) := by
    intro x hx
    have hdiv := Nat.div_add_mod o' L.hostPages
    rw [hn, Nat.div_eq_iff L.hostPages_pos]
    have : L.hostPages * (o' / L.hostPages) = o' / L.hostPages * L.hostPages := Nat.mul_comm _ _
    omega
  have hmono : ∀ q, bitmap' q = true → bitmap q = true := fun q hq => by
    rw [hclear, Bool.and_eq_true] at hq
    exact hq.1
  constructor
  · rintro (hp | ⟨c, x, hc, hx, rfl, ⟨y, hy, hm, hh | ⟨hbulk, hat, hpos⟩⟩ | ⟨rfl, rfl, hpos, hox⟩⟩)
    · obtain ⟨x, rfl⟩ : ∃ x, p = (L.block b).offset + x := by
        rw [mem_range'_1] at hp
        exact ⟨p - (L.block b).offset, by omega⟩
      rw [mem_range'_1] at hp
      refine ⟨b, x, hb, by omega, rfl, ?_⟩
      rcases hfound hlt with hm | ⟨hbulk, hpos⟩
      · exact .inl ⟨o', by omega, hm, .inl ((hhost x (by omega)).mpr (by omega)).symm⟩
      · exact .inr ⟨hbulk, rfl, hpos, by have := hnext hbulk hpos; omega⟩
    · exact ⟨c, x, hc, hx, rfl, .inl ⟨y, hy, hmono _ hm, .inl hh⟩⟩
    · refine ⟨c, x, hc, hx, rfl, .inl ⟨y, hy, hmono _ hm, .inr ⟨hbulk, ?_, hpos⟩⟩⟩
      refine hat.imp_right fun ⟨hbc, hz⟩ => ⟨hbc, ?_⟩
      by_contra hne
      have := hnext hbulk (by omega)
      omega
    · refine ⟨b, x, hc, hx, rfl, ?_⟩
      rcases hfound hlt with hm | ⟨-, hpos'⟩
      · rcases Nat.eq_zero_or_pos o with rfl | hpos'
        · refine .inl ⟨o', by omega, hm, .inr ⟨rfl, .inr ⟨rfl, rfl⟩, ?_⟩⟩
          by_contra hno
          have hz : o' = 0 := by omega
          rw [hz, Nat.zero_mod] at hn
          omega
        · exact .inr ⟨rfl, rfl, hpos', by have := hnext rfl hpos'; omega⟩
      · exact .inr ⟨rfl, rfl, hpos', by have := hnext rfl hpos'; omega⟩
  · rintro ⟨c, x, hc, hx, rfl, htest⟩
    by_cases hin : b = c ∧ o' ≤ x ∧ x < o' + n
    · obtain ⟨rfl, hin⟩ := hin
      exact .inl (mem_range'_1.mpr (by omega))
    refine .inr ⟨c, x, hc, hx, rfl, ?_⟩
    -- A mark outside the host page is still there.
    have hkept : ∀ y, y < (L.block c).usedLength → ¬ (b = c ∧ o' ≤ y ∧ y < o' + n) →
        bitmap ((L.block c).offset + y) = true → bitmap' ((L.block c).offset + y) = true := by
      intro y hy hout hm
      rw [hclear, hm, Bool.true_and, decide_eq_true_eq]
      by_cases hbc : b = c
      · subst hbc
        omega
      · by_contra hno
        refine Layout.page_ne hb hc hbc (o := (L.block c).offset + y - (L.block b).offset)
          (by omega) hy (by omega)
    rcases htest with ⟨y, hy, hm, hh | ⟨hbulk, hat, hpos⟩⟩ | ⟨hbulk, rfl, hpos, hox⟩
    · refine .inl ⟨y, hy, hkept y (by omega) ?_ hm, .inl hh⟩
      rintro ⟨rfl, hy', hyn⟩
      exact hin ⟨rfl, by omega, (hhost x (by omega)).mp (hh ▸ (hhost y hy').mpr hyn)⟩
    · rcases hat with hbc | ⟨rfl, rfl⟩
      · exact .inl ⟨y, hy, hkept y (by omega) (by omega) hm, .inr ⟨hbulk, .inl hbc, hpos⟩⟩
      · have hy' : o' ≤ y := by
          by_contra hlt'
          rw [hpassed y (by rw [searchFrom_zero]; omega) (by omega)] at hm
          cases hm
        rcases Nat.eq_zero_or_pos (o' + n - 1) with hz | hpos'
        · have hone : o' = 0 := by omega
          rw [hone, Nat.zero_mod] at hn
          exact .inl ⟨y, hy, hkept y (by omega) (by omega) hm,
            .inr ⟨hbulk, .inr ⟨rfl, hz⟩, hpos⟩⟩
        · exact .inr ⟨hbulk, rfl, hpos', by omega⟩
    · have := hnext hbulk hpos
      exact .inr ⟨hbulk, rfl, by omega, by omega⟩


theorem exists_move (h : pss.Within L t.search.ramBulkStage)
    (hg : ¬ (pss.completeRound ∧ some pss.block = t.search.lastSeenBlock ∧
      t.search.lastOffset ≤ migrationBitmapFindDirty t.bitmap t.search.ramBulkStage
        (L.block pss.block) pss.offset))
    (hend : (L.block pss.block).usedLength ≤ migrationBitmapFindDirty t.bitmap
      t.search.ramBulkStage (L.block pss.block) pss.offset) :
    ∃ u pss', findDirtyBlock L t pss = (u, pss', true, false) ∧
      pss'.Within L u.search.ramBulkStage ∧
      ∀ p, Tests L u.bitmap u.search.ramBulkStage pss'.block pss'.offset p ↔
        Tests L t.bitmap t.search.ramBulkStage pss.block pss.offset p := by
  have htests := fun p => tests_leave (p := p) h.offset hend
  unfold findDirtyBlock
  simp only [if_neg hg, if_pos hend]
  split_ifs with hb
  · exact ⟨_, _, rfl, ⟨hb, Nat.zero_le _, h.round⟩, fun p => (htests p).symm⟩
  · refine ⟨_, _, rfl, ⟨Nat.zero_lt_of_lt h.lt, Nat.zero_le _, fun _ => rfl⟩, fun p => ?_⟩
    rw [htests]
    exact ⟨fun htest => htest.of_stable _ _ _, fun htest => tests_last htest (not_lt.mp hb)⟩

theorem findLoop_tests {fuel : ℕ} {r : Transfer × ℕ} (h : pss.Within L t.search.ramBulkStage)
    (hr : findLoop L fuel t pss = some r) :
    p ∈ findLoopTests L fuel t pss ∨ Tests L r.1.bitmap r.1.search.ramBulkStage
        (r.1.search.lastSeenBlock.getD 0) r.1.search.lastOffset p ↔
      Tests L t.bitmap t.search.ramBulkStage pss.block pss.offset p := by
  induction fuel generalizing t pss with
  | zero => cases hr
  | succ fuel ih =>
    obtain ⟨o', hf⟩ : ∃ o', migrationBitmapFindDirty t.bitmap t.search.ramBulkStage
        (L.block pss.block) pss.offset = o' := ⟨_, rfl⟩
    by_cases hg : pss.completeRound ∧ some pss.block = t.search.lastSeenBlock ∧
        t.search.lastOffset ≤ o'
    · have hd : findDirtyBlock L t pss = (t, { pss with offset := o' }, false, false) := by
        simp [findDirtyBlock, hf, hg]
      obtain rfl : _ = r := by simpa [findLoop, hd] using hr
      simp only [findLoopTests, hd, h.round hg.1, Bool.false_eq_true, and_false, if_false,
        not_mem_nil, false_or]
      exact ⟨fun htest => htest.of_stable _ _ _, fun htest => htest.of_stable _ _ _⟩
    by_cases hend : (L.block pss.block).usedLength ≤ o'
    · obtain ⟨u, pss', hd, hw, htests⟩ := exists_move h (hf ▸ hg) (hf ▸ hend)
      rw [findLoop_of_move hd] at hr
      rw [← htests, ← ih hw hr]
      simp [findLoopTests, hd]
    · have hd : findDirtyBlock L t pss = (t, { pss with offset := o' }, true, true) := by
        simp [findDirtyBlock, hf, hg, hend]
      rw [not_le] at hend
      have hle := host_page_le h.lt hend
      have hs := saveTargetPages_search (L.hostPages - o' % L.hostPages) t
        ((L.block pss.block).offset + o')
      have hkey := tests_page (p := p) h.lt h.offset hf hend rfl
        (saveTargetPages_bitmap (L.hostPages - o' % L.hostPages) t
          ((L.block pss.block).offset + o'))
      rw [← hkey]
      simp only [findLoop, findLoopTests, hd, if_true, ramSaveHostPage, hostPageTests,
        and_true] at hr ⊢
      split_ifs at hr ⊢ with hpages
      · refine Iff.trans (or_congr_left mem_append) (Iff.trans or_assoc (or_congr_right ?_))
        rw [ih ?_ hr, hs]
        refine ⟨h.lt, ?_, hs ▸ h.round⟩
        dsimp only
        omega
      · obtain rfl : _ = r := Option.some.inj hr
        rw [hs]
        rfl

theorem ramSaveLoop_tests {fuel : ℕ} (h : t.search.Within L)
    (hr : ramSaveLoop L fuel t = some t') (hclear : AllClear L t'.bitmap) :
    p ∈ ramSaveLoopTests L fuel t ↔ Tests L t.bitmap t.search.ramBulkStage
      (t.search.lastSeenBlock.getD 0) t.search.lastOffset p := by
  induction fuel generalizing t with
  | zero => cases hr
  | succ fuel ih =>
    obtain ⟨r, hc, hrest⟩ := bind_eq_some_iff.mp hr
    have hin : Pss.Within L t.search.ramBulkStage
      ⟨t.search.lastSeenBlock.getD 0, t.search.lastOffset, false⟩ := ⟨h.lt, h.offset, by simp⟩
    obtain ⟨b, -, hw, hbulk⟩ := findLoop_within hin hc
    rw [← findLoop_tests hin hc, ramSaveLoopTests, hc, elim_some, mem_append]
    split_ifs at hrest ⊢ with hp
    · -- The last call leaves nothing to be tested.
      obtain rfl := Option.some.inj hrest
      rw [hbulk hp]
      refine or_congr_right (iff_of_false not_mem_nil ?_)
      rintro ⟨c, x, hc, hx, -, ⟨y, hy, hm, -⟩ | ⟨hno, -⟩⟩
      · rw [hclear _ (Layout.inUse_block hc (by omega))] at hm
        cases hm
      · cases hno
    · rw [ih hw hrest]

/-! ### The loop -/

theorem ramSaveLoop_of_call {n fuel : ℕ} {r : Transfer × ℕ}
    (hc : ∀ fuel, ramFindAndSaveBlock L (fuel + n) t = some r) (hr : r.2 ≠ 0)
    (hl : ramSaveLoop L fuel r.1 = some t') : ramSaveLoop L (fuel + n + 1) t = some t' := by
  rw [ramSaveLoop, hc, bind_some, if_neg hr]
  exact ramSaveLoop_mono hl (Nat.le_add_right _ _)

theorem ramSaveLoop_of_end {n : ℕ} {u : Transfer}
    (hc : ∀ fuel, ramFindAndSaveBlock L (fuel + n) t = some (u, 0)) :
    ramSaveLoop L (0 + n + 1) t = some u := by
  rw [ramSaveLoop, hc, bind_some, if_pos rfl]

def Clean (L : Layout) (t : Transfer) : Prop :=
  ∃ b, t.search.lastSeenBlock = some b ∧ b < L.blocks.length ∧
    t.search.lastOffset ≤ (L.block b).usedLength ∧
    (t.search.lastOffset < (L.block b).usedLength →
      t.bitmap ((L.block b).offset + t.search.lastOffset) = false)

theorem Advances.clean {P : ℕ → Prop} {r : Transfer × ℕ} (h : Advances L P t r) : Clean L r.1 := by
  obtain ⟨-, -, -, -, b, o, bulk, hs, hb, ho, hclear⟩ := h
  rw [Clean, hs]
  exact ⟨b, rfl, hb, ho.le, fun _ => hclear⟩

theorem Saves.countBits_lt {ps : List ℕ} {p : ℕ} (h : Saves L t t' ps) (hp : p ∈ ps) :
    countBits t'.bitmap L.lastRamOffset < countBits t.bitmap L.lastRamOffset := by
  apply VmFt.countBits_lt _ (h.inUse p hp).lt (h.marked p hp)
  · simp [h.bitmap, hp]
  · intro q hq
    rw [h.bitmap, Bool.and_eq_true] at hq
    exact hq.1

def Ends (L : Layout) (t : Transfer) : Prop :=
  ∃ fuel t' ps, ramSaveLoop L fuel t = some t' ∧ Saves L t t' ps ∧ AllClear L t'.bitmap

theorem Advances.ends {P : ℕ → Prop} {r : Transfer × ℕ} {n : ℕ} (h : Advances L P t r)
    (hc : ∀ fuel, ramFindAndSaveBlock L (fuel + n) t = some r) (he : Ends L r.1) : Ends L t := by
  obtain ⟨ps, hlen, hs, ⟨p, hp, -⟩, -⟩ := h
  obtain ⟨fuel, t', qs, hl, hs', hclear⟩ := he
  have hne : r.2 ≠ 0 := by
    rw [hlen]
    exact length_pos_of_mem hp |>.ne'
  exact ⟨_, t', ps ++ qs, ramSaveLoop_of_call hc hne hl, hs.trans hs', hclear⟩

theorem ends_of_allClear {n o b : ℕ} (hclear : AllClear L t.bitmap)
    (hc : ∀ fuel, ramFindAndSaveBlock L (fuel + n) t =
      some ({ t with search := ⟨some b, o, false⟩ }, 0)) : Ends L t :=
  ⟨_, _, [], ramSaveLoop_of_end hc,
    ⟨(List.append_nil _).symm, by simp, by simp, by simp, nodup_nil⟩, hclear⟩

theorem Clean.ends (h : Clean L t) : Ends L t := by
  induction hk : countBits t.bitmap L.lastRamOffset using Nat.strong_induction_on
    generalizing t with
  | _ k ih =>
    obtain ⟨b, hse, hb, ho, hclear⟩ := h
    obtain ⟨n, ⟨res, hadv, hc⟩ | ⟨hall, o, hc⟩⟩ := call_from_position hse hb ho
    · obtain ⟨ps, -, hs, ⟨p, hp, -⟩, -⟩ := id hadv
      exact hadv.ends hc (ih _ (hk ▸ hs.countBits_lt hp) hadv.clean rfl)
    · refine ends_of_allClear (fun p hp => ?_) hc
      by_contra hm
      rw [Bool.not_eq_false] at hm
      obtain ⟨⟨-, -, hlt⟩, rfl⟩ := hall p hp hm
      simp [hclear hlt] at hm

theorem Search.Valid.ends (h : t.search.Valid L b) : Ends L t := by
  obtain ⟨n, ⟨res, hadv, hc⟩ | ⟨hall, o, hc⟩⟩ := call_from_position h.block h.lt h.offset
  · exact hadv.ends hc hadv.clean.ends
  · refine ends_of_allClear (fun p hp => ?_) hc
    by_contra hm
    rw [Bool.not_eq_false] at hm
    have hbulk := (hall p hp hm).1.1
    simp [h.bulk] at hbulk

theorem ramSaveLoop_ends (h : t.search.Valid L b) : ∃ fuel t', ramSaveLoop L fuel t = some t' := by
  obtain ⟨fuel, t', -, ht, -⟩ := h.ends
  exact ⟨fuel, t', ht⟩

theorem ramSaveLoop_unique {fuel fuel' : ℕ} {u : Transfer} (h : ramSaveLoop L fuel t = some t')
    (h' : ramSaveLoop L fuel' t = some u) : t' = u := by
  have hmax := ramSaveLoop_mono h (Nat.le_max_left fuel fuel')
  rw [ramSaveLoop_mono h' (Nat.le_max_right fuel fuel')] at hmax
  exact (Option.some.inj hmax).symm

theorem saves_of_ramSaveLoop {fuel : ℕ} (hv : t.search.Valid L b)
    (h : ramSaveLoop L fuel t = some t') :
    ∃ ps, Saves L t t' ps ∧ (∃ b, t'.search.Valid L b) ∧ AllClear L t'.bitmap := by
  obtain ⟨fuel', u, ps, hu, hs, hclear⟩ := hv.ends
  obtain rfl := ramSaveLoop_unique h hu
  have hlt : t.search.lastSeenBlock.getD 0 < L.blocks.length := by
    rw [hv.block]
    exact hv.lt
  refine ⟨ps, hs, valid_of_ramSaveLoop ⟨hlt, ?_⟩ h, hclear⟩
  rw [hv.block]
  exact hv.offset

theorem Ends.completes (h : Ends L t) (hw : t.search.Within L)
    (hsmall : ∀ p, Tests L t.bitmap t.search.ramBulkStage (t.search.lastSeenBlock.getD 0)
      t.search.lastOffset p → p < 2 ^ 31) : Completes L t := by
  obtain ⟨fuel, t', ps, hl, hs, hclear⟩ := h
  refine ⟨fuel, t', ps, hl, hs.saved, hs.nodup, fun p => ⟨fun hp => ?_, ?_⟩, hclear,
    fun p hp => hsmall p ((ramSaveLoop_tests hw hl hclear).mp hp)⟩
  · exact ⟨hs.inUse p hp, hs.marked p hp⟩
  · rintro ⟨hp, hm⟩
    exact hs.mem hm (hclear p hp)

theorem findLoop_endless (hn : t.search.lastSeenBlock = none) (hclear : AllClear L t.bitmap)
    (fuel b : ℕ) (r : Bool) : findLoop L fuel t ⟨b, 0, r⟩ = none := by
  induction fuel generalizing t b r with
  | zero => rfl
  | succ fuel ih =>
    have hend : (L.block b).usedLength ≤
        migrationBitmapFindDirty t.bitmap t.search.ramBulkStage (L.block b) 0 := by
      by_contra hlt
      rw [not_le] at hlt
      have hb : b < L.blocks.length := by
        by_contra hge
        simp [Layout.block, getD_eq_getElem?_getD,
          List.getElem?_eq_none (not_lt.mp hge)] at hlt
      rcases (migrationBitmapFindDirty_from t.bitmap t.search.ramBulkStage
        (Nat.zero_le _)).2.2 hlt with hm | ⟨-, hpos⟩
      · simp [hclear _ (Layout.inUse_block hb hlt)] at hm
      · exact absurd hpos (lt_irrefl 0)
    have hmo : ∃ u b' r', findDirtyBlock L t ⟨b, 0, r⟩ = (u, ⟨b', 0, r'⟩, true, false) ∧
        u.search.lastSeenBlock = none ∧ u.bitmap = t.bitmap := by
      simp only [findDirtyBlock, hn, reduceCtorEq, false_and, and_false, if_false, hend, if_true]
      split_ifs
      · exact ⟨t, b + 1, r, rfl, hn, rfl⟩
      · exact ⟨_, 0, true, rfl, rfl, rfl⟩
    obtain ⟨u, b', r', hmo, hn', hbi⟩ := hmo
    rw [findLoop_of_move hmo]
    exact ih hn' (by rwa [hbi]) b' r'

theorem ramSaveLoop_endless (hn : t.search.lastSeenBlock = none)
    (hz : t.search.lastOffset = 0) (hclear : AllClear L t.bitmap) (fuel : ℕ) :
    ramSaveLoop L fuel t = none := by
  cases fuel with
  | zero => rfl
  | succ fuel =>
    rw [ramSaveLoop, ramFindAndSaveBlock, hn, hz, findLoop_endless hn hclear]
    rfl

theorem Search.Positioned.within {s : Search} (h : s.Positioned L) (hne : 0 < L.blocks.length) :
    s.Within L := by
  cases hs : s.lastSeenBlock with
  | none => exact ⟨by simpa [hs] using hne, by simp [h.none hs]⟩
  | some b =>
    obtain ⟨hb, ho⟩ := h.some b hs
    exact ⟨by simpa [hs] using hb, by simpa [hs] using ho⟩

def twoPages : Layout where
  blocks := [⟨0, 2, 2⟩]
  hostPages := 1
  hostPages_pos := Nat.one_pos
  used_le := by decide
  aligned := by decide
  disjoint := pairwise_singleton _ _

def searching (bitmap : Bitmap) (block : Option ℕ) (offset : ℕ) (bulk : Bool) : Transfer :=
  ⟨bitmap, [], ⟨block, offset, bulk⟩⟩

end VmFt.Ram
