import VmFt.Ram.Checkpoint
import VmFt.Ram.Completion

/-! # RAM convergence

A page in which the two guests differ is always marked: in one of the dirty logs,
in the bitmap that a host has collected, or, once the hashes have been compared, in
the divergent bitmap. When the transfer ends no page is marked there, so the RAM of
the backup equals that of the primary.
-/

namespace VmFt.Ram

open VmFt.System

variable {L : Layout} {p : ℕ}

/-! ### Taking the dirty log -/

theorem syncRange_marked {start length : ℕ} {r : Bitmap × Bitmap} (h : r.1 p ∨ r.2 p) :
    (syncRange start length r).1 p ∨ (syncRange start length r).2 p := by
  simp only [syncRange, Bool.or_eq_true, Bool.and_eq_true, Bool.not_eq_true']
  cases ht : decide (start ≤ p ∧ p < if start / 64 * 64 = start then
    start + (length + 63) / 64 * 64 else start + length) <;> simp_all

theorem syncRange_log {start length : ℕ} {r : Bitmap × Bitmap}
    (h : (syncRange start length r).2 p) : r.2 p ∧ ¬ (start ≤ p ∧ p < start + length) := by
  simp only [syncRange, Bool.and_eq_true, Bool.not_eq_true', decide_eq_false_iff_not] at h
  refine ⟨h.1, ?_⟩
  rintro ⟨hle, hlt⟩
  apply h.2
  refine ⟨hle, ?_⟩
  split_ifs
  · omega
  · exact hlt

theorem foldl_syncRange (bs : List RamBlock) (r : Bitmap × Bitmap) :
    (r.1 p ∨ r.2 p → (bs.foldl (fun r b => syncRange b.offset b.usedLength r) r).1 p ∨
      (bs.foldl (fun r b => syncRange b.offset b.usedLength r) r).2 p) ∧
    ((bs.foldl (fun r b => syncRange b.offset b.usedLength r) r).2 p →
      r.2 p ∧ ∀ b ∈ bs, ¬ (b.offset ≤ p ∧ p < b.offset + b.usedLength)) := by
  induction bs generalizing r with
  | nil => exact ⟨id, fun h => ⟨h, by simp⟩⟩
  | cons b bs ih =>
    obtain ⟨hm, hlog⟩ := ih (syncRange b.offset b.usedLength r)
    refine ⟨fun h => hm (syncRange_marked h), fun h => ?_⟩
    obtain ⟨hr, hbs⟩ := hlog h
    obtain ⟨hr', hb⟩ := syncRange_log hr
    refine ⟨hr', ?_⟩
    rintro c hc
    rcases List.mem_cons.mp hc with rfl | hc
    · exact hb
    · exact hbs c hc

theorem bitmapSync_marked {bitmap log : Bitmap} (hp : L.InUse p) (h : bitmap p ∨ log p) :
    (bitmapSync L bitmap log).1 p := by
  obtain ⟨hm, hlog⟩ := foldl_syncRange (p := p) L.blocks (bitmap, log)
  obtain ⟨b, hb, hr⟩ := hp
  exact (hm h).resolve_right fun hl => (hlog hl).2 b hb hr

/-! ### Marked differences -/

variable {α η : Type*} {hash : α → η} {s s' : State α η}

def Differ (L : Layout) (s : State α η) (p : ℕ) : Prop :=
  L.InUse p ∧ s.primary.mem p ≠ s.backup.mem p

/-- Where the primary keeps the pages it has written. -/
def Primary.Mark (P : Primary α η) (p : ℕ) : Prop :=
  match P.pc with
  | .running | .stopped | .sent => P.migrationBitmap p ∨ P.dirtyLog p
  | .synced | .hashed | .compared => P.migrationBitmap p

def Backup.Mark (B : Backup α) (p : ℕ) : Prop :=
  match B.pc with
  | .running | .stopped => B.backupBitmap p ∨ B.dirtyLog p
  | .offered | .hashed => B.backupBitmap p
  | .loading | .cleared => B.dirtyLog p

def State.hashList (L : Layout) (hash : α → η) (s : State α η) (mem : ℕ → α) (fakePage : α) :
    HashList η :=
  Ram.hashList L hash mem fakePage (bitmapOr s.primary.migrationBitmap s.backup.backupBitmap)

def State.pending (s : State α η) : List (Msg η) :=
  (if s.primary.pc = .sent then [.vmstateLoaded] else []) ++
    if s.backup.pc = .offered then [.bitmap s.backup.backupBitmap] else []

structure Apart (L : Layout) (s : State α η) : Prop where
  primary : s.primary.pc ≠ .hashed ∧ s.primary.pc ≠ .compared
  backup : s.backup.pc = .running ∨ s.backup.pc = .stopped ∨ s.backup.pc = .offered
  toPrimary : s.toPrimary = s.pending
  toBackup : s.toBackup = []
  marked : ∀ p, Differ L s p → s.primary.Mark p ∨ s.backup.Mark p

/-- The phases of a checkpoint, with what is on the channel and where the differences are marked. -/
inductive Phase (L : Layout) (hash : α → η) (s : State α η) : Prop
  | apart (h : Apart L s)
  | exchanged (hP : s.primary.pc = .hashed) (hB : s.backup.pc = .offered)
      (toPrimary : s.toPrimary = []) (toBackup : s.toBackup = [.bitmap s.primary.migrationBitmap])
      (list : s.primary.hashList = s.hashList L hash s.primary.mem s.primary.fakePage)
      (marked : ∀ p, Differ L s p → s.primary.Mark p ∨ s.backup.Mark p)
  | hashed (hP : s.primary.pc = .hashed) (hB : s.backup.pc = .hashed)
      (toPrimary : s.toPrimary = [.hashes (s.hashList L hash s.backup.mem s.backup.fakePage).pack])
      (toBackup : s.toBackup = [])
      (list : s.primary.hashList = s.hashList L hash s.primary.mem s.primary.fakePage)
      (marked : ∀ p, Differ L s p → s.primary.Mark p ∨ s.backup.Mark p)
  | compared (hP : s.primary.pc = .compared) (hB : s.backup.pc = .hashed)
      (toPrimary : s.toPrimary = []) (toBackup : s.toBackup = [])
      (marked : ∀ p, Differ L s p → s.primary.divergentBitmap p)
  | sent (hP : s.primary.pc = .sent) (hB : s.backup.pc = .hashed)
      (toPrimary : s.toPrimary = []) (toBackup : s.toBackup = [.endOfRam])
      (equal : ∀ p, ¬ Differ L s p)
  | loading (hP : s.primary.pc = .sent) (hB : s.backup.pc = .loading ∨ s.backup.pc = .cleared)
      (toPrimary : s.toPrimary = []) (toBackup : s.toBackup = [])
      (marked : ∀ p, Differ L s p → s.backup.Mark p)

structure RamInv (L : Layout) (hash : α → η) (s : State α η) : Prop where
  phase : Phase L hash s
  search : ∃ b, s.primary.search.Valid L b

theorem Phase.of_primary (h : Phase L hash s)
    (hpc : s.primary.pc = .running ∨ s.primary.pc = .stopped ∨ s.primary.pc = .synced) :
    Apart L s := by
  cases h with
  | apart h => exact h
  | exchanged hP | hashed hP | compared hP | sent hP | loading hP => simp [hP] at hpc

theorem Phase.of_backup (h : Phase L hash s)
    (hpc : s.backup.pc = .running ∨ s.backup.pc = .stopped) : Apart L s := by
  cases h with
  | apart h => exact h
  | exchanged _ hB | hashed _ hB | compared _ hB | sent _ hB => simp [hB] at hpc
  | loading _ hB => rcases hB with hB | hB <;> simp [hB] at hpc

/-! ### The steps of the primary -/

theorem differ_write {m m' : ℕ → α} {q : ℕ} {a : α} (h : Function.update m q a p ≠ m' p) :
    p = q ∨ m p ≠ m' p := by
  by_cases hq : p = q
  · exact .inl hq
  · exact .inr (by rwa [Function.update_of_ne hq] at h)

variable [DecidableEq η]

theorem Phase.primaryWrite {q : ℕ} {a : α} (h : Phase L hash s)
    (he : step L hash s (.primaryWrite q a) = some s') : Phase L hash s' := by
  obtain ⟨hpc, rfl⟩ := guarded_eq_some.mp he
  obtain ⟨hP, hB, htoP, htoB, hma⟩ := h.of_primary (.inl hpc)
  refine .apart ⟨hP, hB, htoP, htoB, ?_⟩
  rintro p ⟨hp, hne⟩
  simp only [Primary.Mark, hpc] at hma ⊢
  rcases differ_write hne with rfl | hne
  · exact .inl (.inr (by simp [setBit]))
  · rcases hma p ⟨hp, hne⟩ with (hm | hm) | hm
    · exact .inl (.inl hm)
    · exact .inl (.inr (setBit_apply.mpr (.inl hm)))
    · exact .inr hm

theorem Phase.primaryStop (h : Phase L hash s)
    (he : step L hash s .primaryStop = some s') : Phase L hash s' := by
  obtain ⟨hpc, rfl⟩ := guarded_eq_some.mp he
  obtain ⟨hP, hB, htoP, htoB, hma⟩ := h.of_primary (.inl hpc)
  refine .apart ⟨by simp, hB, by simp [htoP, State.pending, hpc], htoB, ?_⟩
  intro p hd
  have hm := hma p hd
  simp only [Primary.Mark, hpc] at hm ⊢
  exact hm

theorem Phase.primarySync (h : Phase L hash s)
    (he : step L hash s .primarySync = some s') : Phase L hash s' := by
  obtain ⟨hpc, rfl⟩ := guarded_eq_some.mp he
  obtain ⟨hP, hB, htoP, htoB, hma⟩ := h.of_primary (.inr (.inl hpc))
  refine .apart ⟨by simp, hB, by simp [htoP, State.pending, hpc], htoB, ?_⟩
  intro p hd
  have hm := hma p hd
  simp only [Primary.Mark, hpc] at hm ⊢
  exact hm.imp_left (bitmapSync_marked hd.1)

theorem Phase.primaryExchange (h : Phase L hash s)
    (he : step L hash s .primaryExchange = some s') : Phase L hash s' := by
  simp only [step] at he
  split at he
  case h_1 b rest hto =>
    obtain ⟨hpc, rfl⟩ := guarded_eq_some.mp he
    obtain ⟨hP, hB, htoP, htoB, hma⟩ := h.of_primary (.inr (.inr hpc))
    have hoff : s.backup.pc = .offered := by
      by_contra hno
      simp [State.pending, hpc, hno, hto] at htoP
    obtain ⟨rfl, rfl⟩ : b = s.backup.backupBitmap ∧ rest = [] := by
      simpa [State.pending, hpc, hoff, hto] using htoP
    refine .exchanged rfl hoff rfl (by simp [htoB]) rfl ?_
    intro p hd
    have hm := hma p hd
    simp only [Primary.Mark, hpc] at hm ⊢
    exact hm
  case h_2 => cases he

theorem Phase.primaryCompare (hinj : Function.Injective hash) (h : Phase L hash s)
    (he : step L hash s .primaryCompare = some s') : Phase L hash s' := by
  simp only [step] at he
  split at he
  case h_1 l rest hto =>
    obtain ⟨hpc, rfl⟩ := guarded_eq_some.mp he
    cases h with
    | hashed hP hB htoP htoB hl hma =>
      obtain ⟨rfl, rfl⟩ : l = _ ∧ rest = [] := by simpa [hto] using htoP
      refine .compared rfl hB rfl htoB ?_
      intro p hd
      have hm := hma p hd
      simp only [Primary.Mark, Backup.Mark, hP, hB] at hm
      dsimp only
      rw [hl]
      refine HashList.compare_compute.mpr ⟨hd.1.lt, by simpa [bitmapOr] using hm, ?_⟩
      rw [hd.1.getPage, hd.1.getPage]
      exact fun heq => hd.2 (hinj heq)
    | apart h => exact absurd hpc h.primary.1
    | exchanged _ _ htoP => simp [hto] at htoP
    | compared hP | sent hP | loading hP => simp [hP] at hpc
  case h_2 => cases he

theorem RamInv.primaryTransfer {fuel : ℕ} (h : RamInv L hash s)
    (he : step L hash s (.primaryTransfer fuel) = some s') : RamInv L hash s' := by
  simp only [step] at he
  split_ifs at he with hpc
  obtain ⟨t, ht, rfl⟩ := Option.map_eq_some_iff.mp he
  obtain ⟨b, hv⟩ := h.search
  obtain ⟨ps, hps, hv', hclear⟩ := saves_of_ramSaveLoop hv ht
  refine ⟨?_, hv'⟩
  cases h.phase with
  | compared hP hB htoP htoB hm =>
    refine .sent rfl hB htoP (by simp [htoB]) ?_
    rintro p ⟨hp, hne⟩
    dsimp only at hne
    split_ifs at hne with hs
    · exact hne rfl
    · have hmem : p ∈ ps := hps.mem (hm p ⟨hp, hne⟩) (hclear p hp)
      exact hs (by simpa [hps.saved] using hmem)
  | apart h => exact absurd hpc h.primary.2
  | exchanged hP | hashed hP | sent hP | loading hP => simp [hP] at hpc

theorem Phase.primaryStart (h : Phase L hash s)
    (he : step L hash s .primaryStart = some s') : Phase L hash s' := by
  simp only [step] at he
  split at he
  case h_1 rest hto =>
    obtain ⟨hpc, rfl⟩ := guarded_eq_some.mp he
    cases h with
    | apart h =>
      obtain ⟨hP, hB, htoP, htoB, hma⟩ := h
      refine .apart ⟨by simp, hB, ?_, htoB, ?_⟩
      · simpa [State.pending, hpc, hto] using htoP
      · intro p hd
        have hm := hma p hd
        simp only [Primary.Mark, hpc] at hm ⊢
        exact hm
    | exchanged hP | hashed hP | compared hP => simp [hP] at hpc
    | sent _ _ htoP | loading _ _ htoP => simp [hto] at htoP
  case h_2 => cases he

/-! ### The steps of the backup -/

theorem Phase.backupWrite {q : ℕ} {a : α} (h : Phase L hash s)
    (he : step L hash s (.backupWrite q a) = some s') : Phase L hash s' := by
  obtain ⟨hpc, rfl⟩ := guarded_eq_some.mp he
  have hd : ∀ p, s.primary.mem p ≠ Function.update s.backup.mem q a p →
      p = q ∨ s.primary.mem p ≠ s.backup.mem p :=
    fun p hne => (differ_write hne.symm).imp_right Ne.symm
  cases h with
  | apart h =>
    obtain ⟨hP, hB, htoP, htoB, hma⟩ := h
    have hrun : s.backup.pc = .running := by
      rcases hB with hB | hB | hB <;> simp [hB] at hpc ⊢
    refine .apart ⟨hP, hB, by simpa [State.pending, hrun] using htoP, htoB, ?_⟩
    rintro p ⟨hp, hne⟩
    simp only [Backup.Mark, hrun] at hma ⊢
    rcases hd p hne with rfl | hne
    · exact .inr (.inr (by simp [setBit]))
    · rcases hma p ⟨hp, hne⟩ with hm | hm | hm
      · exact .inl hm
      · exact .inr (.inl hm)
      · exact .inr (.inr (setBit_apply.mpr (.inl hm)))
  | loading hP hB htoP htoB hma =>
    refine .loading hP hB htoP htoB ?_
    rintro p ⟨hp, hne⟩
    have hlog : (setBit s.backup.dirtyLog q) p := by
      rcases hd p hne with rfl | hne
      · simp [setBit]
      · have hm := hma p ⟨hp, hne⟩
        rcases hB with hB | hB <;> simp only [Backup.Mark, hB] at hm <;>
          exact setBit_apply.mpr (.inl hm)
    rcases hB with hB | hB <;> simpa only [Backup.Mark, hB] using hlog
  | exchanged _ hB | hashed _ hB | compared _ hB | sent _ hB => simp [hB] at hpc

theorem Phase.backupStop (h : Phase L hash s)
    (he : step L hash s .backupStop = some s') : Phase L hash s' := by
  obtain ⟨hpc, rfl⟩ := guarded_eq_some.mp he
  obtain ⟨hP, hB, htoP, htoB, hma⟩ := h.of_backup (.inl hpc)
  refine .apart ⟨hP, by simp, by simpa [State.pending, hpc] using htoP, htoB, ?_⟩
  intro p hd
  have hm := hma p hd
  simp only [Backup.Mark, hpc] at hm ⊢
  exact hm

theorem Phase.backupOffer (h : Phase L hash s)
    (he : step L hash s .backupOffer = some s') : Phase L hash s' := by
  obtain ⟨hpc, rfl⟩ := guarded_eq_some.mp he
  obtain ⟨hP, hB, htoP, htoB, hma⟩ := h.of_backup (.inr hpc)
  refine .apart ⟨hP, by simp, by simp [htoP, State.pending, hpc], htoB, ?_⟩
  intro p hd
  have hm := hma p hd
  simp only [Backup.Mark, hpc] at hm ⊢
  exact hm.imp_right (bitmapSync_marked hd.1)

theorem Phase.backupHash (h : Phase L hash s)
    (he : step L hash s .backupHash = some s') : Phase L hash s' := by
  simp only [step] at he
  split at he
  case h_1 b rest hto =>
    obtain ⟨hpc, rfl⟩ := guarded_eq_some.mp he
    cases h with
    | exchanged hP hB htoP htoB hl hma =>
      obtain ⟨rfl, rfl⟩ : b = s.primary.migrationBitmap ∧ rest = [] := by simpa [hto] using htoB
      refine .hashed hP rfl (by simp [htoP, State.hashList]) rfl hl ?_
      intro p hd
      have hm := hma p hd
      simp only [Backup.Mark, hpc] at hm ⊢
      exact hm
    | apart h => simp [h.toBackup] at hto
    | hashed _ hB | compared _ hB | sent _ hB => simp [hB] at hpc
    | loading _ hB => rcases hB with hB | hB <;> simp [hB] at hpc
  case h_2 => cases he

theorem Phase.backupLoad (h : Phase L hash s)
    (he : step L hash s .backupLoad = some s') : Phase L hash s' := by
  simp only [step] at he
  split at he
  case h_1 rest hto =>
    obtain ⟨hpc, rfl⟩ := guarded_eq_some.mp he
    cases h with
    | sent hP hB htoP htoB heq =>
      obtain rfl : rest = [] := by simpa [hto] using htoB
      exact .loading hP (.inl rfl) htoP rfl fun p hd => absurd hd (heq p)
    | apart h => simp [h.toBackup] at hto
    | exchanged _ _ _ htoB | hashed _ _ _ htoB | compared _ _ _ htoB | loading _ _ _ htoB =>
      simp [hto] at htoB
  case h_2 => cases he

theorem Phase.backupClear (h : Phase L hash s)
    (he : step L hash s .backupClear = some s') : Phase L hash s' := by
  obtain ⟨hpc, rfl⟩ := guarded_eq_some.mp he
  cases h with
  | loading hP hB htoP htoB hma =>
    refine .loading hP (.inr rfl) htoP htoB ?_
    intro p hd
    have hm := hma p hd
    simp only [Backup.Mark, hpc] at hm ⊢
    exact hm
  | apart h => rcases h.backup with hB | hB | hB <;> simp [hB] at hpc
  | exchanged _ hB | hashed _ hB | compared _ hB | sent _ hB => simp [hB] at hpc

theorem Phase.backupStart (h : Phase L hash s)
    (he : step L hash s .backupStart = some s') : Phase L hash s' := by
  obtain ⟨hpc, rfl⟩ := guarded_eq_some.mp he
  cases h with
  | loading hP hB htoP htoB hma =>
    refine .apart ⟨by simp [hP], .inl rfl, by simp [htoP, State.pending, hP], htoB, ?_⟩
    intro p hd
    have hm := hma p hd
    simp only [Backup.Mark, hpc] at hm ⊢
    exact .inr (.inr hm)
  | apart h => rcases h.backup with hB | hB | hB <;> simp [hB] at hpc
  | exchanged _ hB | hashed _ hB | compared _ hB | sent _ hB => simp [hB] at hpc

/-! ### Runs -/

/-- The start of COLO: the guests have equal RAM, and the search is where the completion loop of the
migration has left it. -/
structure Start (L : Layout) (s : State α η) : Prop where
  primary : s.primary.pc = .running
  backup : s.backup.pc = .running
  toPrimary : s.toPrimary = []
  toBackup : s.toBackup = []
  equal : ∀ p, L.InUse p → s.primary.mem p = s.backup.mem p
  migrated : ∃ fuel t t', t.search.Within L ∧ ramSaveLoop L fuel t = some t' ∧
    s.primary.search = t'.search

omit [DecidableEq η] in
theorem Start.ramInv (h : Start L s) : RamInv L hash s := by
  obtain ⟨fuel, t, t', hw, hl, hs⟩ := h.migrated
  refine ⟨.apart ⟨by simp [h.primary], .inl h.backup, ?_, h.toBackup, ?_⟩,
    hs ▸ valid_of_ramSaveLoop hw hl⟩
  · simp [State.pending, h.primary, h.backup, h.toPrimary]
  · exact fun p hd => absurd (h.equal p hd.1) hd.2

theorem step_search {e : Event α} (hno : ∀ fuel, e ≠ .primaryTransfer fuel)
    (he : step L hash s e = some s') : s'.primary.search = s.primary.search := by
  cases e
  case primaryTransfer fuel => exact absurd rfl (hno fuel)
  case primaryExchange | primaryCompare | primaryStart | backupHash | backupLoad =>
    simp only [step] at he
    split at he
    · obtain ⟨-, rfl⟩ := guarded_eq_some.mp he
      rfl
    · cases he
  all_goals
    obtain ⟨-, rfl⟩ := guarded_eq_some.mp he
    rfl

theorem RamInv.step {e : Event α} (hinj : Function.Injective hash) (h : RamInv L hash s)
    (he : step L hash s e = some s') : RamInv L hash s' := by
  by_cases hno : ∀ fuel, e ≠ .primaryTransfer fuel
  · refine ⟨?_, step_search hno he ▸ h.search⟩
    cases e with
    | primaryWrite => exact h.phase.primaryWrite he
    | primaryStop => exact h.phase.primaryStop he
    | primarySync => exact h.phase.primarySync he
    | primaryExchange => exact h.phase.primaryExchange he
    | primaryCompare => exact h.phase.primaryCompare hinj he
    | primaryTransfer fuel => exact absurd rfl (hno fuel)
    | primaryStart => exact h.phase.primaryStart he
    | backupWrite => exact h.phase.backupWrite he
    | backupStop => exact h.phase.backupStop he
    | backupOffer => exact h.phase.backupOffer he
    | backupHash => exact h.phase.backupHash he
    | backupLoad => exact h.phase.backupLoad he
    | backupClear => exact h.phase.backupClear he
    | backupStart => exact h.phase.backupStart he
  · push Not at hno
    obtain ⟨fuel, rfl⟩ := hno
    exact h.primaryTransfer he

/-- When the RAM phase of a checkpoint ends, the RAM of the backup equals that of the primary; and
the transfer does end. The hash threads are one step here: that they hand over a hash of every page
is taken as given. -/
theorem ram_converges (hinj : Function.Injective hash) {s₀ : State α η} (h₀ : Start L s₀)
    (h : (checkpoint L hash).Run anyStep s₀ s) : (s.primary.pc = .sent → s.backup.pc = .hashed →
      ∀ p, L.InUse p → s.backup.mem p = s.primary.mem p) ∧ (s.primary.pc = .compared →
      ∃ fuel s', (checkpoint L hash).step s (.primaryTransfer fuel) = some s') := by
  have hinv : RamInv L hash s := h.invariant h₀.ramInv fun _ _ _ hs _ he => hs.step hinj he
  constructor
  · intro hP hB p hp
    by_contra hne
    cases hinv.phase with
    | sent _ _ _ _ hequal => exact hequal p ⟨hp, Ne.symm hne⟩
    | apart h => rcases h.backup with hB' | hB' | hB' <;> simp [hB'] at hB
    | exchanged hP' | hashed hP' | compared hP' => simp [hP'] at hP
    | loading _ hB' => rcases hB' with hB' | hB' <;> simp [hB'] at hB
  · intro hP
    obtain ⟨b, hv⟩ := hinv.search
    obtain ⟨fuel, t, ht⟩ := ramSaveLoop_ends
      (t := ⟨s.primary.divergentBitmap, [], s.primary.search⟩) hv
    exact ⟨fuel, Option.isSome_iff_exists.mp (by simp [checkpoint, Ram.step, hP, ht])⟩

/-- Two blocks with a gap between them. -/
def duo : Layout where
  blocks := [⟨0, 2, 2⟩, ⟨4, 2, 2⟩]
  hostPages := 1
  hostPages_pos := by decide
  used_le := by decide
  aligned := by decide
  disjoint := by decide

/-- Two guests whose RAM is all zero. -/
def duoStart : State ℕ ℕ where
  primary := ⟨.running, fun _ => 0, 0, bitmapZero, bitmapZero, ⟨fun _ => [], fun _ => []⟩,
    bitmapZero, ⟨some 1, 2, false⟩⟩
  backup := ⟨.running, fun _ => 0, 1, bitmapZero, bitmapZero⟩
  toPrimary := []
  toBackup := []

/-- The primary writes page 1 and the backup page 4; after the checkpoint they agree. -/
theorem ram_converges_duo : ∃ s, (checkpoint duo id).Run anyStep duoStart s ∧ s.primary.mem 1 = 7 ∧
      ∀ p, duo.InUse p → s.backup.mem p = s.primary.mem p := by
  have hstart : Start duo duoStart :=
    ⟨rfl, rfl, rfl, rfl, fun _ _ => rfl, 10, ⟨setBit bitmapZero 5, [], ⟨none, 0, true⟩⟩, _,
      ⟨by decide, by decide⟩, rfl, rfl⟩
  obtain ⟨s, hrun, hP, hB, hmem⟩ := exists_run_of_exec (M := checkpoint duo id) (s := duoStart)
    anyStep (p := fun s => s.primary.pc = .sent ∧ s.backup.pc = .hashed ∧ s.primary.mem 1 = 7)
    [.primaryWrite 1 7, .backupWrite 4 9, .primaryStop, .primarySync, .backupStop, .backupOffer,
      .primaryExchange, .backupHash, .primaryCompare, .primaryTransfer 20]
    (by decide +kernel)
  exact ⟨s, hrun, hmem, (ram_converges Function.injective_id hstart hrun).1 hP hB⟩

end VmFt.Ram
