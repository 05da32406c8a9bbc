import VmFt.Dare.RingQueue
import VmFt.Dare.RingTrail
import VmFt.Dare.Tailq

/-! # Every committed entry is applied once

The loop of `apply_committed_entries` on a server that is not leader, on a log whose
offsets lie between entries. The boundary in front of an entry that starts with the next
lap has two names: the offset at which the entry before it ends, and zero. The loop takes
the first name for the second one only if the header of the entry does not fit there, and
then it has already gone to the entry.
-/

namespace VmFt.Dare.Ring

/-- What `proxy_do_action` is called with for an entry. -/
def Item.actions (it : Item) : List Action :=
  match it.body with
  | .cmd type c => [⟨it.cltId % 2 ^ 16, type.code, c.cmd.length, c.cmd⟩]
  | _ => []

/-- The offset `x` stands for the boundary at `o` in front of the entries `xs`. -/
def Names (o : ℕ) (xs : List (ℕ × Item)) (x : ℕ) : Prop := x = o ∨ xs.head?.map Prod.fst = some x

/-- The offsets of a log are boundaries in the order head, apply, commit and end. The entries in
between are `old`, `due` and `rest`; `a` and `c` are the ends of the entries in front of apply and
commit. -/
structure InOrder (log : Log) (old due rest : List (ℕ × Item)) (a c : ℕ) : Prop where
  old : Trail log log.head old a
  apply : Names a (due ++ rest) log.apply
  due : Trail log a due c
  commit : Names c rest log.commit
  rest : Trail log c rest log.endOff
  order : logOffsetEndDistance log log.commit ≤ logOffsetEndDistance log log.apply
  not_empty : log.endOff < log.len

/-- The loop ends with the apply offset at the commit offset, and has called the proxy once for
each of the entries `due`. -/
def AppliesOnce (log : Log) (due : List (ℕ × Item)) : Prop :=
  ∃ a, wrap log.len a = wrap log.len log.commit ∧ applyStep { log with apply := a } = none ∧
    ∃ n, ∀ fuel ≥ n, applyCommittedEntries fuel log =
      ({ log with apply := a }, due.flatMap fun x => x.2.actions)

/-- The commit offset is zero although the entry in front of it ends at `c`, where no header fits,
and the apply offset is not there yet. -/
def Renamed (log : Log) (c : ℕ) : Prop :=
  log.commit ≠ c ∧ log.apply ≠ log.commit ∧ c < log.len ∧ log.len - c < sizeofEntry

variable {log log' log'' : Log} {o w c e : ℕ} {it : Item} {xs due rest : List (ℕ × Item)}
  {acts acts' : List Action}

theorem Stored.actions_eq (h : Stored log w it) :
    (if entryType log w = NOOP ∨ entryType log w = CONFIG ∨ entryType log w = HEAD then []
      else [entryAction log w]) = it.actions := by
  have ht := h.type
  have hlen := h.len
  have hd := h.data
  have hclt := h.cltId
  unfold Item.actions
  cases hb : it.body with
  | cmd type c =>
    rw [hb] at ht hlen hd
    have hsp := type.not_special
    have hco : entryType log w = type.code := ht
    have hnot : ¬ (entryType log w = NOOP ∨ entryType log w = CONFIG ∨ entryType log w = HEAD) := by
      rw [hco]
      omega
    have hc : entryCmdLen log w = c.cmd.length := by
      rw [logEntryLen, if_neg hnot] at hlen
      exact Nat.add_left_cancel hlen
    have hcmd : entryCmd log w = c.cmd := by
      rw [EntryBody.bytes, List.length_append, Memory.length_bytesOf, Memory.read_add] at hd
      have hs := List.append_inj' hd (by simp)
      rw [entryCmd, hc]
      exact hs.2
    rw [if_neg hnot, entryAction, hc, hcmd, hco, hclt]
  | noop =>
    rw [hb] at ht
    exact if_pos (.inl ht)
  | config cid =>
    rw [hb] at ht
    exact if_pos (.inr (.inl ht))
  | head offset =>
    rw [hb] at ht
    exact if_pos (.inr (.inr ht))

/-! ### Passes of the loop -/

def Leads (log : Log) (acts : List Action) (log' : Log) : Prop :=
  ∃ n, ∀ fuel, applyCommittedEntries (n + fuel) log =
    ((applyCommittedEntries fuel log').1, acts ++ (applyCommittedEntries fuel log').2)

namespace Leads

theorem refl (log : Log) : Leads log [] log := ⟨0, fun fuel => by rw [Nat.zero_add]; rfl⟩

theorem step (h : applyStep log = some (log', acts)) : Leads log acts log' :=
  ⟨1, fun fuel => by rw [Nat.add_comm, applyCommittedEntries, h]⟩

theorem trans (h : Leads log acts log') (h' : Leads log' acts' log'') :
    Leads log (acts ++ acts') log'' := by
  obtain ⟨n, hn⟩ := h
  obtain ⟨m, hm⟩ := h'
  refine ⟨n + m, fun fuel => ?_⟩
  rw [Nat.add_assoc, hn, hm, List.append_assoc]

theorem result (h : Leads log acts log') (hend : applyStep log' = none) :
    ∃ n, ∀ fuel ≥ n, applyCommittedEntries fuel log = (log', acts) := by
  obtain ⟨n, hn⟩ := h
  refine ⟨n, fun fuel hf => ?_⟩
  obtain ⟨k, rfl⟩ := Nat.exists_eq_add_of_le hf
  have hd : applyCommittedEntries k log' = (log', []) := by
    cases k with
    | zero => rfl
    | succ k => rw [applyCommittedEntries, hend]
  rw [hn, hd, List.append_nil]

end Leads

theorem applyStep_none (h : logOffsetEndDistance log log.apply ≤
    logOffsetEndDistance log log.commit) : applyStep log = none := by
  have hl : ¬ logIsOffsetLarger log log.commit log.apply = true := by
    rw [logIsOffsetLarger, decide_eq_true_eq]
    omega
  rw [applyStep, if_neg hl]

theorem applyStep_of_lt (h : Next log o w it)
    (hlt : logOffsetEndDistance log log.commit < logOffsetEndDistance log o) :
    applyStep { log with apply := o } =
      if entryOffset log o = w then some ({ log with apply := w + it.body.len }, it.actions)
      else some ({ log with apply := 0 }, []) := by
  have hl : logIsOffsetLarger { log with apply := o } log.commit o = true :=
    decide_eq_true hlt
  have hget : logGetEntry { log with apply := o } o = some (entryOffset log o) := h.logGetEntry_eq
  rw [applyStep, if_pos hl, hget, Option.map_some]
  by_cases hw : entryOffset log o = w
  · have hfit :
        logFitEntry { log with apply := o } (entryOffset log o) (entryOffset log o) = true :=
      h.fit_iff.mpr hw
    have ha := h.stored.actions_eq
    have hlen := h.stored.len
    rw [if_pos hfit, if_pos hw]
    rw [← hw] at ha hlen ⊢
    refine congrArg some (Prod.ext ?_ ha)
    exact congrArg (fun n => { log with apply := entryOffset log o + n }) hlen
  · have hfit :
        ¬ logFitEntry { log with apply := o } (entryOffset log o) (entryOffset log o) = true :=
      fun hfit => hw (h.fit_iff.mp hfit)
    rw [if_neg hfit, if_neg hw]

theorem Next.leads (h : Next log o w it)
    (hlt : logOffsetEndDistance log log.commit < logOffsetEndDistance log w) :
    Leads { log with apply := o } it.actions { log with apply := w + it.body.len } := by
  have hs := applyStep_of_lt h (hlt.trans_le h.gap)
  have hwh := applyStep_of_lt h.at_whole hlt
  rw [if_pos h.entryOffset_whole] at hwh
  by_cases hsa : entryOffset log o = w
  · rw [if_pos hsa] at hs
    exact .step hs
  · -- The loop first goes from the stub to the entry.
    have hw : w = 0 := by
      rcases h.entryOffset_eq with ⟨heq, -⟩ | ⟨-, hw, -⟩
      · exact absurd heq hsa
      · exact hw
    rw [if_neg hsa, ← hw] at hs
    exact Leads.trans (.step hs) (.step hwh)

theorem Trail.leads (h : Trail log o xs c)
    (hle : logOffsetEndDistance log log.commit ≤ logOffsetEndDistance log c) :
    Leads { log with apply := o } (xs.flatMap fun x => x.2.actions) { log with apply := c } := by
  induction xs generalizing o with
  | nil =>
    obtain rfl : o = c := h
    exact .refl _
  | cons x xs ih =>
    obtain ⟨w, it⟩ := x
    obtain ⟨hn, hrest⟩ := h
    have hd := hrest.distance_le
    have hr := hn.reach
    have hpos := len_pos it.body
    rw [List.flatMap_cons]
    exact (hn.leads (by omega)).trans (ih hrest)

/-! ### Where the loop ends -/

theorem Names.cases {x : ℕ} (h : Names o xs x) (hxs : Trail log o xs e) :
    x = o ∨ ∃ it ys, xs = (x, it) :: ys ∧ Next log o x it := by
  rcases h with h | h
  · exact .inl h
  · cases xs with
    | nil => cases h
    | cons y ys =>
      obtain ⟨w, it⟩ := y
      obtain rfl : w = x := Option.some.inj h
      exact .inr ⟨it, ys, rfl, hxs.1⟩

theorem Names.distance_le {x : ℕ} (h : Names o xs x) (hxs : Trail log o xs e) :
    logOffsetEndDistance log x ≤ logOffsetEndDistance log o := by
  rcases h.cases hxs with rfl | ⟨it, ys, -, hn⟩
  · exact Nat.le_refl _
  · exact hn.gap

theorem Next.wrap_eq (h : Next log o w it) (hlt : log.endOff < log.len)
    (heq : logOffsetEndDistance log o = logOffsetEndDistance log w) :
    wrap log.len w = wrap log.len o := by
  have hp := h.place
  have hpos := h.pos
  simp only [logOffsetEndDistance_of_not_empty h.not_empty] at heq hpos
  unfold wrap
  split_ifs at * <;> omega

theorem Next.eq_zero_of_lt (h : Next log o w it)
    (hlt : logOffsetEndDistance log w < logOffsetEndDistance log o) :
    w = 0 ∧ log.len - o < it.body.len := by
  have hp := h.place
  split_ifs at hp with hfit
  · rw [hp] at hlt
    exact absurd hlt (lt_irrefl _)
  · exact ⟨hp, not_le.mp hfit⟩

theorem Next.lt_len (h : Next log o w it) (hend : log.endOff < log.len)
    (hlt : logOffsetEndDistance log w < logOffsetEndDistance log o) : o < log.len := by
  obtain ⟨rfl, -⟩ := h.eq_zero_of_lt hlt
  simp only [logOffsetEndDistance_of_not_empty h.not_empty] at hlt
  split_ifs at hlt <;> omega

theorem Next.wrap_behind_ne (h : Next log o w it) (hend : log.endOff < log.len) :
    wrap log.len (w + it.body.len) ≠ wrap log.len w := by
  have hr := h.reach
  have hfits := h.fits
  have hpos := len_pos it.body
  simp only [logOffsetEndDistance_of_not_empty h.not_empty] at hr
  unfold wrap
  split_ifs at * <;> omega

namespace InOrder

variable {old : List (ℕ × Item)} {a : ℕ}

theorem trail (h : InOrder log old due rest a c) (hfirst : due ≠ [] ∨ log.apply = a) :
    Trail log log.apply due c := by
  have hdue := h.due
  have hn := h.apply
  cases due with
  | nil =>
    rw [hfirst.resolve_left (not_not.mpr rfl)]
    exact hdue
  | cons x xs =>
    obtain ⟨w, it⟩ := x
    rcases hn with heq | hw
    · rw [heq]
      exact hdue
    · obtain rfl : w = log.apply := Option.some.inj hw
      exact ⟨hdue.1.at_whole, hdue.2⟩

theorem leads (h : InOrder log old due rest a c) (hfirst : due ≠ [] ∨ log.apply = a) :
    Leads log (due.flatMap fun x => x.2.actions) { log with apply := c } :=
  (h.trail hfirst).leads (h.commit.distance_le h.rest)

theorem applies_of_ahead (h : InOrder log old [] rest a c) (hne : log.apply ≠ a) :
    AppliesOnce log [] := by
  obtain rfl : a = c := h.due
  rcases h.apply.cases h.rest with heq | ⟨it, ys, hrest, hn⟩
  · exact absurd heq hne
  · have ho := h.order
    have hgap := hn.gap
    have hc : logOffsetEndDistance log log.apply ≤ logOffsetEndDistance log log.commit ∧
        wrap log.len log.apply = wrap log.len log.commit := by
      rcases h.commit with heq | hw
      · rw [heq] at ho ⊢
        exact ⟨hgap, hn.wrap_eq h.not_empty (by omega)⟩
      · rw [List.nil_append] at hrest
        rw [hrest] at hw
        obtain heq : log.apply = log.commit := Option.some.inj hw
        rw [heq]
        exact ⟨Nat.le_refl _, rfl⟩
    have hend : applyStep log = none := applyStep_none hc.1
    exact ⟨log.apply, hc.2, hend, (Leads.refl log).result hend⟩

theorem applies_of_not_renamed (h : InOrder log old due rest a c) (hna : ¬ Renamed log c) :
    AppliesOnce log due := by
  by_cases hfirst : due ≠ [] ∨ log.apply = a
  · have hl := h.leads hfirst
    by_cases hd : logOffsetEndDistance log c ≤ logOffsetEndDistance log log.commit
    · have hend : applyStep { log with apply := c } = none := applyStep_none hd
      refine ⟨c, ?_, hend, hl.result hend⟩
      rcases h.commit.cases h.rest with heq | ⟨it, ys, -, hn⟩
      · rw [heq]
      · exact (hn.wrap_eq h.not_empty (Nat.le_antisymm hd hn.gap)).symm
    · rcases h.commit.cases h.rest with heq | ⟨it, ys, -, hn⟩
      · exact absurd (by rw [heq]) hd
      · obtain ⟨hc, hlo⟩ := hn.eq_zero_of_lt (not_le.mp hd)
        have hne : log.apply ≠ log.commit := by
          intro heq
          have hfar := (h.trail hfirst).distance_le
          rw [heq] at hfar
          omega
        have hstu : entryOffset log c ≠ log.commit := by
          have hlt : c < log.len := hn.lt_len h.not_empty (not_le.mp hd)
          have hh : logFitEntryHeader log c = true := by
            rw [logFitEntryHeader_iff]
            by_contra hs
            refine hna ⟨?_, hne, hlt, not_le.mp hs⟩
            rintro heq
            exact hd (by rw [heq])
          rw [entryOffset, if_pos hh]
          rintro heq
          exact hd (by rw [← heq])
        have hst := applyStep_of_lt hn (not_le.mp hd)
        rw [if_neg hstu] at hst
        have hend : applyStep { log with apply := 0 } = none :=
          applyStep_none (by rw [← hc])
        have hall := hl.trans (.step hst)
        rw [List.append_nil] at hall
        exact ⟨0, by rw [hc], hend, hall.result hend⟩
  · obtain ⟨hdue, hne⟩ := not_or.mp hfirst
    obtain rfl := not_not.mp hdue
    exact h.applies_of_ahead hne

theorem not_applies_of_renamed (h : InOrder log old due rest a c) (hna : Renamed log c) :
    ¬ AppliesOnce log due := by
  obtain ⟨hne, ha, hlt, hh⟩ := hna
  rcases h.commit.cases h.rest with heq | ⟨it, ys, hrest, hnx⟩
  · exact absurd heq hne
  have hz : log.commit = 0 := by
    have hp := hnx.place
    split_ifs at hp
    · exact absurd hp hne
    · exact hp
  have hd : logOffsetEndDistance log log.commit < logOffsetEndDistance log c := by
    rw [hz] at hnx hne ⊢
    exact hnx.lt_of_zero hne.symm hlt
  have hfirst : due ≠ [] ∨ log.apply = a := by
    by_contra hno
    obtain ⟨hdue, hsa⟩ := not_or.mp hno
    obtain rfl := not_not.mp hdue
    obtain hna | hna := h.apply
    · exact hsa hna
    · rw [List.nil_append, hrest] at hna
      exact ha (Option.some.inj hna).symm
  -- The loop goes on to the entry that starts at the commit offset.
  have hw : entryOffset log c = log.commit := by
    rw [hz]
    exact if_neg (by rw [logFitEntryHeader_iff]; omega)
  have hs := applyStep_of_lt hnx hd
  rw [if_pos hw] at hs
  have hend : applyStep { log with apply := log.commit + it.body.len } = none := by
    refine applyStep_none ?_
    have hr := hnx.reach
    change logOffsetEndDistance log (log.commit + it.body.len) ≤
      logOffsetEndDistance log log.commit
    omega
  obtain ⟨n, hn⟩ := ((h.leads hfirst).trans (.step hs)).result hend
  rintro ⟨a', hwr, -, m, hm⟩
  have hb := (hn (n + m) (Nat.le_add_right n m)).symm.trans (hm (n + m) (Nat.le_add_left m n))
  have ha' : log.commit + it.body.len = a' := congrArg (fun r => r.1.apply) hb
  rw [← ha'] at hwr
  exact hnx.wrap_behind_ne h.not_empty hwr

end InOrder

/-- The entries between the apply and the commit offset are applied once each, and no others are,
exactly if the commit offset is not the second name of an offset behind which no header fits. -/
theorem applies_once_iff {old : List (ℕ × Item)} {a : ℕ} (h : InOrder log old due rest a c) :
    AppliesOnce log due ↔ ¬ Renamed log c :=
  ⟨fun happ hname => h.not_applies_of_renamed hname happ, h.applies_of_not_renamed⟩

/-- A blank entry that ends 24 bytes in front of the end of the buffer, and a command behind it. -/
def wrappedLog (apply commit : ℕ) : Log :=
  { head := 96, apply := apply, commit := commit, endOff := 49, tail := 0, len := 168
    entries := putEntry (putEntry (fun _ => 0) 96 blank) 0 command }
where
  blank : Item := ⟨3, 1, 0, 0, .noop⟩
  command : Item := ⟨4, 1, 7, 3, bytesCmd 1⟩

deriving instance DecidableEq for Action

instance (o : ℕ) (xs : List (ℕ × Item)) (x : ℕ) : Decidable (Names o xs x) :=
  inferInstanceAs (Decidable (_ ∨ _))

instance (log : Log) (old due rest : List (ℕ × Item)) (a c : ℕ) :
    Decidable (InOrder log old due rest a c) :=
  decidable_of_iff (Trail log log.head old a ∧ Names a (due ++ rest) log.apply ∧
      Trail log a due c ∧ Names c rest log.commit ∧ Trail log c rest log.endOff ∧
      logOffsetEndDistance log log.commit ≤ logOffsetEndDistance log log.apply ∧
      log.endOff < log.len)
    ⟨fun ⟨h₁, h₂, h₃, h₄, h₅, h₆, h₇⟩ => ⟨h₁, h₂, h₃, h₄, h₅, h₆, h₇⟩,
      fun h => ⟨h.old, h.apply, h.due, h.commit, h.rest, h.order, h.not_empty⟩⟩

/-- Both entries are committed, and the command is applied. -/
theorem applies_once_wrapped :
    InOrder (wrappedLog 96 49) [] [(96, wrappedLog.blank), (0, wrappedLog.command)] [] 96 49 ∧
      AppliesOnce (wrappedLog 96 49) [(96, wrappedLog.blank), (0, wrappedLog.command)] := by
  have hordered : InOrder (wrappedLog 96 49) []
      [(96, wrappedLog.blank), (0, wrappedLog.command)] [] 96 49 := by decide +kernel
  exact ⟨hordered, (applies_once_iff hordered).mpr fun h => h.1 rfl⟩

/-- With the commit offset at zero the command, which is not committed, is applied. -/
theorem applies_uncommitted_wrapped :
    InOrder (wrappedLog 144 0) [(96, wrappedLog.blank)] [] [(0, wrappedLog.command)] 144 144 ∧
      (applyCommittedEntries 1 (wrappedLog 144 0)).2 = wrappedLog.command.actions ∧
      ¬ AppliesOnce (wrappedLog 144 0) [] := by
  have hordered : InOrder (wrappedLog 144 0) [(96, wrappedLog.blank)] []
      [(0, wrappedLog.command)] 144 144 := by decide +kernel
  have hrenamed : Renamed (wrappedLog 144 0) 144 := by
    refine ⟨?_, ?_, ?_, ?_⟩ <;> decide
  exact ⟨hordered, by decide +kernel, hordered.not_applies_of_renamed hrenamed⟩

end VmFt.Dare.Ring
