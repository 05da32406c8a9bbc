import VmFt.Dare.PipelineInv

/-! # Completions in the replication pipeline

The network carries out a posted request, or fails after a part of it, and the
leader handles the completion. Both keep the invariant of the pipeline, and so
does a restart of the queue pair, which drops all requests and completions.
-/

namespace VmFt.Dare.Ring

open VmFt.System List Option

variable {i : ℕ} {s t : State} {w : WorkRequest} {q : List WorkRequest} {rc : WcRc} {n : ℕ}
  {comp : List (WrId × WcRc)} {op : Op} {done : Prop}

/-! ### The network -/

/-- The state as changed by a request that is over. -/
def effect (w : WorkRequest) (rc : WcRc) (n : ℕ) (s : State) : State :=
  if rc = .success then execute w.op s else executePart n w.op s

def ended (s : State) (w : WorkRequest) (rc : WcRc) (n : ℕ) (q : List WorkRequest)
    (comp : List (WrId × WcRc)) : State :=
  { s with
    sendQueue := q, compQueue := comp
    follower := (effect w rc n s).follower, ncBuf := (effect w rc n s).ncBuf }

/-- The queues before and after the request `w` is over. -/
structure Ends (s : State) (w : WorkRequest) (rc : WcRc) (q : List WorkRequest)
    (comp : List (WrId × WcRc)) : Prop where
  perm : s.sendQueue.Perm (w :: q)
  comp_eq : comp = s.compQueue ++ [(w.id, rc)] ∨ rc = .success ∧ comp = s.compQueue

theorem execute_eq (op : Op) (s : State) (q : List WorkRequest) :
    execute op { s with sendQueue := q } =
      { s with
        sendQueue := q, follower := (execute op s).follower, ncBuf := (execute op s).ncBuf } := by
  cases op <;> rfl

theorem executePart_eq (n : ℕ) (op : Op) (s : State) (q : List WorkRequest) :
    executePart n op { s with sendQueue := q } =
      { s with
        sendQueue := q, follower := (executePart n op s).follower
        ncBuf := (executePart n op s).ncBuf } := by
  unfold executePart
  split
  · exact execute_eq _ s q
  · split
    · rfl
    · exact execute_eq _ s q

theorem exists_ended (w : WorkRequest) (rc : WcRc) (n : ℕ) (hp : s.sendQueue.Perm (w :: q)) :
    ∃ comp, complete w rc n { s with sendQueue := q } = ended s w rc n q comp ∧
      Ends s w rc q comp := by
  unfold complete ended effect
  by_cases hok : rc = .success
  · simp only [if_pos hok, execute_eq]
    split
    · exact ⟨_, rfl, hp, Or.inl rfl⟩
    · exact ⟨_, rfl, hp, Or.inr ⟨hok, rfl⟩⟩
  · simp only [executePart_eq, ne_eq, hok, not_false_eq_true, or_true, if_true]
    exact ⟨_, rfl, hp, Or.inl rfl⟩

theorem effect_of_not_write (rc : WcRc) (n : ℕ) (s : State) (hop : ∀ a m, w.op ≠ .writeLog a m) :
    effect w rc n s = execute w.op s ∨ rc ≠ .success ∧ effect w rc n s = s := by
  unfold effect
  by_cases hok : rc = .success
  · exact Or.inl (if_pos hok)
  · rw [if_neg hok]
    unfold executePart
    split
    · exact absurd (by assumption) (hop _ _)
    · split
      · exact Or.inr ⟨hok, rfl⟩
      · exact Or.inl rfl

/-- A part of a write has copied some of the leader's bytes and changed nothing else. -/
theorem effect_of_write {a m : ℕ} (rc : WcRc) (n : ℕ) (s : State) (hop : w.op = .writeLog a m) :
    ∃ k, effect w rc n s = execute (.writeLog a k) s ∧ (rc = .success → k = m) := by
  unfold effect
  rw [hop]
  by_cases hok : rc = .success
  · exact ⟨m, if_pos hok, fun _ => rfl⟩
  · exact ⟨min n m, if_neg hok, fun hyes => absurd hyes hok⟩

theorem len_effect (w : WorkRequest) (rc : WcRc) (n : ℕ) (s : State) :
    (effect w rc n s).follower.len = s.follower.len := by
  have hex : ∀ op, (execute op s).follower.len = s.follower.len := fun op => by cases op <;> rfl
  unfold effect executePart
  split
  · exact hex _
  · split
    · exact hex _
    · split
      · rfl
      · exact hex _

theorem exists_commit_effect (rc : WcRc) (n : ℕ) (s : State) {adjusting : Bool}
    (ha : w.op = .other ∨ adjusting = false ∧ ∃ c, w.op = .writeCommit c) :
    ∃ c, (effect w rc n s).follower = { s.follower with commit := c } ∧
      (effect w rc n s).ncBuf = s.ncBuf ∧ (adjusting = true → c = s.follower.commit) := by
  rcases ha with hop | ⟨hadj, c, hop⟩ <;>
    rcases effect_of_not_write rc n s (by rw [hop]; nofun) with heq | ⟨-, heq⟩ <;> rw [heq]
  · rw [hop]
    exact ⟨_, rfl, rfl, fun _ => rfl⟩
  · exact ⟨_, rfl, rfl, fun _ => rfl⟩
  · rw [hop]
    exact ⟨c, rfl, rfl, fun hyes => absurd (hadj.symm.trans hyes) nofun⟩
  · exact ⟨_, rfl, rfl, fun _ => rfl⟩

/-- What the request `op` leaves alone is left alone whatever its result. -/
theorem effect_frame {α : Sort*} (f : State → α)
    (h : effect w rc n s = execute op s ∨ rc ≠ .success ∧ effect w rc n s = s)
    (hf : f (execute op s) = f s) : f (effect w rc n s) = f s := by
  rcases h with heq | ⟨-, heq⟩ <;> rw [heq]
  exact hf

namespace Ends

theorem mem (h : Ends s w rc q comp) : w ∈ s.sendQueue := h.perm.mem_iff.mpr mem_cons_self

theorem mem_send (h : Ends s w rc q comp) {w' : WorkRequest} (hw : w' ∈ q) : w' ∈ s.sendQueue :=
  h.perm.mem_iff.mpr (mem_cons_of_mem _ hw)

theorem mem_comp (h : Ends s w rc q comp) {c : WrId × WcRc} (hc : c ∈ comp) :
    c ∈ s.compQueue ∨ c = (w.id, rc) := by
  rcases h.comp_eq with rfl | ⟨-, rfl⟩
  · exact (mem_append.mp hc).imp_right mem_singleton.mp
  · exact Or.inl hc

theorem mem_old (h : Ends s w rc q comp) {c : WrId × WcRc} (hc : c ∈ s.compQueue) : c ∈ comp := by
  rcases h.comp_eq with rfl | ⟨-, rfl⟩
  · exact mem_append_left _ hc
  · exact hc

theorem pending_le (h : Ends s w rc q comp) :
    pending i (ended s w rc n q comp) ≤ pending i s := by
  have hs := h.perm.countP_eq (fun w' => isNext i s.server w'.id)
  unfold pending ended
  rw [hs, countP_cons]
  rcases h.comp_eq with rfl | ⟨-, rfl⟩
  · rw [countP_append, countP_cons]
    simp only [countP_nil]
    omega
  · simp only
    omega

theorem wired (h : Ends s w rc q comp) (hw : Wired i s) : Wired i (ended s w rc n q comp) := by
  refine hw.change rfl (Nat.le_refl _) id (fun w' hmem => Or.inl (h.mem_send hmem)) ?_ ?_
    fun hyes => ⟨hyes, rfl, rfl⟩
  · intro c hc
    refine (h.mem_comp hc).imp_right ?_
    rintro rfl
    exact hw.send_le w h.mem
  · intro hf
    have hz := hw.idle hf
    have hle : pending i (ended s w rc n q comp) ≤ _ := h.pending_le
    omega

theorem effect_eq (h : Ends s w rc q comp) (n : ℕ) (ha : Awaits i s op done)
    (hn : isNext i s.server w.id = true) (hop : ∀ a m, op ≠ .writeLog a m) :
    effect w rc n s = execute op s ∨ rc ≠ .success ∧ effect w rc n s = s := by
  obtain rfl := ha.op_eq w h.mem hn
  exact effect_of_not_write rc n s hop

theorem awaits (h : Ends s w rc q comp) (hn : isNext i s.server w.id = true)
    (ha : Awaits i s op done) {done' : Prop} (hd : rc = .success → done') :
    Awaits i (ended s w rc n q comp) op done' where
  pending_le := Nat.le_trans h.pending_le ha.pending_le
  op_eq := fun w' hmem hn' => ha.op_eq w' (h.mem_send hmem) hn'
  done := by
    rintro ⟨c, hc, hcn, hok⟩
    rcases h.mem_comp hc with hold | rfl
    · have hp := ha.pending_le
      have hs : 0 < s.sendQueue.countP (fun w' => isNext i s.server w'.id) :=
        countP_pos_iff.mpr ⟨w, h.mem, hn⟩
      have hco : 0 < s.compQueue.countP (fun c => isNext i s.server c.1) :=
        countP_pos_iff.mpr ⟨c, hold, hcn⟩
      unfold pending at hp
      omega
    · exact hd hok

theorem alike (h : Ends s w rc q comp) (hnot : isNext i s.server w.id = false)
    (hst : Steady s (ended s w rc n q comp))
    (he : (effect w rc n s).follower.entries = s.follower.entries) :
    Alike i s (ended s w rc n q comp) := by
  refine ⟨hst, he, rfl, rfl, rfl, ?_, fun w' hn => ?_, fun c hn => ?_⟩
  · have hse := h.perm.countP_eq (fun w' => isNext i s.server w'.id)
    unfold pending ended
    rw [hse, countP_cons, hnot]
    rcases h.comp_eq with rfl | ⟨-, rfl⟩
    · simp [countP_append, hnot]
    · simp
  · rw [h.perm.mem_iff, mem_cons]
    refine ⟨Or.inr, fun hmem => hmem.resolve_left ?_⟩
    rintro rfl
    rw [hnot] at hn
    cases hn
  · refine ⟨fun hc => (h.mem_comp hc).resolve_right ?_, h.mem_old⟩
    rintro rfl
    rw [hnot] at hn
    cases hn

theorem writing (h : Ends s w rc q comp) (hw : Writing i s) {a m : ℕ} (hop : w.op = .writeLog a m)
    (hn : isNext i s.server w.id = true)
    (hk : ∀ x, s.follower.entries x = s.leader.entries x →
      (effect w rc n s).follower.entries x = s.leader.entries x)
    (hwr : rc = .success → ∀ x, a ≤ x → x < a + m →
      (effect w rc n s).follower.entries x = s.leader.entries x) :
    Writing i (ended s w rc n q comp) where
  cached_lt := hw.cached_lt
  between := hw.between
  pending_le := Nat.le_trans h.pending_le hw.pending_le
  count_le := hw.count_le
  op_eq := fun w' hmem hn' => hw.op_eq w' (h.mem_send hmem) hn'
  covered := by
    intro hone hall hok x hx hlt hle
    have hco : pending i s = s.server.sendCount := by
      have hp : pending i (ended s w rc n q comp) ≤ pending i s := h.pending_le
      have := hw.pending_le
      change 1 ≤ s.server.sendCount at hone
      change _ = s.server.sendCount at hall
      omega
    have hs : rc = .success := by
      rcases h.comp_eq with heq | ⟨hrc, -⟩
      · exact hok (w.id, rc) (heq ▸ mem_append_right _ (mem_singleton_self _)) hn
      · exact hrc
    rcases hw.covered hone hco (fun c hc => hok c (h.mem_old hc)) x hx hlt hle with
      heq | hsec | ⟨w', hmem, hn', hr⟩
    · exact Or.inl (hk x heq)
    · exact Or.inr (Or.inl hsec)
    · rcases mem_cons.mp (h.perm.mem_iff.mp hmem) with rfl | hrest
      · obtain ⟨a', m', hop', hf, hto⟩ := hr
        rw [hop] at hop'
        cases hop'
        exact Or.inl (hwr hs x hf hto)
      · exact Or.inr (Or.inr ⟨w', hrest, hn', hr⟩)

theorem untouched (hf : (effect w rc n s).follower = s.follower) (hun : Untouched s) :
    Untouched (ended s w rc n q comp) := by
  refine ⟨?_, ?_, ?_⟩ <;> dsimp only [ended] <;> rw [hf]
  exacts [hun.commit_lt, hun.filled, hun.ack]

/-- The request for which the pipeline waits is over. -/
theorem atStep (hen : Ends s w rc q comp) (h : Inv i s) (hn : isNext i s.server w.id = true) :
    AtStep i (ended s w rc n q comp) s.server.nextLrStep := by
  have hfl := h.wired.flag_of_pending (pending_pos_of_send hen.mem hn)
  have hat := h.atStep
  cases hs : s.server.nextLrStep with
  | getWrite =>
    rw [hs] at hat
    exact absurd (hfl.symm.trans hat.2) nofun
  | getNceLen =>
    rw [hs] at hat
    obtain ⟨⟨hun, hc⟩, ha⟩ := hat
    have heff := hen.effect_eq n ha hn nofun
    have hf := effect_frame State.follower heff rfl
    refine ⟨⟨untouched hf hun, ?_⟩, hen.awaits hn ha fun hok => ?_⟩
    · exact hc.trans (congrArg Log.commit hf.symm)
    · exact congrArg (·.ncBuf.len) (heff.resolve_right fun hno => hno.1 hok)
  | getNce =>
    rw [hs] at hat
    obtain ⟨⟨hun, hc⟩, hlen, ha⟩ := hat
    have heff := hen.effect_eq n ha hn nofun
    have hf := effect_frame State.follower heff rfl
    have hb := effect_frame (·.ncBuf.len) heff rfl
    refine ⟨⟨untouched hf hun, hc.trans (congrArg Log.commit hf.symm)⟩, hb.trans hlen, ?_⟩
    change Awaits i _ (.readNc (effect w rc n s).ncBuf.len) _
    rw [hb]
    refine hen.awaits hn ha fun hok d hd => ?_
    change d ∈ (effect w rc n s).ncBuf.entries at hd
    rw [heff.resolve_right fun hno => hno.1 hok] at hd
    have hl : maxEntryLen ≤ s.follower.len := by
      have := h.large
      have := h.len_eq
      omega
    have hle := (logEntriesToNcBuf_le hl hun.filled (Nat.le_of_lt hun.commit_lt)).2
    exact h.len_eq ▸ hle d (mem_of_mem_take hd)
  | setEnd =>
    rw [hs] at hat
    obtain ⟨hde, hle, ha⟩ := hat
    have heff := hen.effect_eq n ha hn nofun
    have hb := effect_frame State.ncBuf heff rfl
    refine ⟨?_, hle, hen.awaits hn ha fun hok => ?_⟩
    · dsimp only [ended]
      rw [hb]
      exact hde
    · exact congrArg (·.follower.endOff) (heff.resolve_right fun hno => hno.1 hok)
  | updateLog =>
    rw [hs] at hat
    obtain ⟨hp, he, hw⟩ := hat
    obtain ⟨a, m, hop⟩ := (hw hfl).op_eq w hen.mem hn
    obtain ⟨k, heff, hkm⟩ := effect_of_write rc n s hop
    have hk : ∀ x, s.follower.entries x = s.leader.entries x →
        (effect w rc n s).follower.entries x = s.leader.entries x := by
      rw [heff]
      exact fun x hx => Memory.copy_eq_of_eq hx
    refine ⟨hp.congr rfl rfl rfl rfl rfl hk, ?_, fun _ => hen.writing (hw hfl) hop hn hk ?_⟩
    · unfold EndKnown ended
      rw [heff]
      exact he
    · rw [heff]
      intro hok x hfr hto
      rw [hkm hok]
      exact Memory.copy_of_inside ⟨hfr, hto⟩
  | updateEnd =>
    rw [hs] at hat
    obtain ⟨hp, hlt, hle, hgap, hset, ha⟩ := hat
    have heff := hen.effect_eq n ha hn nofun
    have hent := effect_frame (·.follower.entries) heff rfl
    refine ⟨hp.congr rfl rfl rfl rfl rfl fun x hx => ?_, hlt, hle, hgap, hset,
      hen.awaits hn ha fun hok => ?_⟩
    · exact (congrFun hent x).trans hx
    · exact congrArg (·.follower.endOff) (heff.resolve_right fun hno => hno.1 hok)

/-- A request for which the pipeline does not wait is over. -/
theorem inv_aside (hen : Ends s w rc q comp) (h : Inv i s)
    (hn : isNext i s.server w.id = false) : Inv i (observe s (ended s w rc n q comp)) := by
  obtain ⟨c, hfol, hbuf, hc⟩ := exists_commit_effect rc n s (h.wired.aside w hen.mem hn)
  have hst : Steady s (ended s w rc n q comp) := by
    unfold ended
    rw [hfol, hbuf]
    refine ⟨rfl, rfl, rfl, rfl, rfl, rfl, rfl, rfl, rfl, rfl, id, fun _ => id, fun hadj hun => ?_⟩
    rw [hc hadj]
    exact ⟨{ hun with }, rfl, id⟩
  exact (hen.alike hn hst (by rw [hfol])).inv h (hen.wired h.wired)

end Ends

theorem perm_of_getElem? {α : Type*} {l : List α} {k : ℕ} {a : α} (h : l[k]? = some a) :
    l.Perm (a :: l.eraseIdx k) := by
  obtain ⟨hlt, rfl⟩ := List.getElem?_eq_some_iff.mp h
  exact (getElem_cons_eraseIdx_perm hlt).symm

theorem inv_complete (h : Inv i s) {k : ℕ} (hk : s.sendQueue[k]? = some w) :
    Inv i (observe s (complete w rc n { s with sendQueue := s.sendQueue.eraseIdx k })) := by
  obtain ⟨comp, heq, hen⟩ := exists_ended w rc n (perm_of_getElem? hk)
  rw [heq]
  cases hn : isNext i s.server w.id with
  | false => exact hen.inv_aside h hn
  | true =>
    have hobs : observe s (ended s w rc n (s.sendQueue.eraseIdx k) comp) = _ :=
      observe_of_still id rfl rfl
    rw [hobs]
    exact ⟨(len_effect w rc n s).trans h.len_eq, h.large, h.end_le, hen.wired h.wired,
      hen.atStep h hn⟩

/-! ### Handling a completion -/

section Poll

variable {c : WrId × WcRc} {q : List (WrId × WcRc)} {server : Server}

def handled (s : State) (q : List (WrId × WcRc)) (server : Server) : State :=
  { s with compQueue := q, server := server }

theorem inv_handled_aside (h : Inv i s) (hpe : s.compQueue.Perm (c :: q))
    (hnot : isNext i s.server c.1 = false) (failCount : ℕ) :
    Inv i (observe s (handled s q { s.server with failCount := failCount })) := by
  have hco := hpe.countP_eq (fun c => isNext i s.server c.1)
  rw [countP_cons, hnot] at hco
  have hp : pending i (handled s q { s.server with failCount := failCount }) =
      pending i s := by
    unfold pending handled
    rw [hco]
    rfl
  refine Alike.inv ⟨⟨rfl, rfl, rfl, rfl, rfl, rfl, rfl, rfl, rfl, rfl, id, fun _ => id, ?_⟩, rfl,
    rfl, rfl, rfl, hp, fun _ _ => Iff.rfl, fun c' hn => ?_⟩ h ?_
  · exact fun _ hun => ⟨{ hun with }, rfl, id⟩
  · rw [hpe.mem_iff, mem_cons]
    refine ⟨Or.inr, fun hmem => hmem.resolve_left ?_⟩
    rintro rfl
    rw [hnot] at hn
    cases hn
  · exact h.wired.change rfl (Nat.le_refl _) id (fun _ => Or.inl)
      (fun _ hc => Or.inl (hpe.mem_iff.mpr (mem_cons_of_mem _ hc)))
      (fun hf => hp.trans (h.wired.idle hf)) fun hyes => ⟨hyes, rfl, rfl⟩

theorem pending_handled (server : Server) (hp : s.compQueue.Perm (c :: q))
    (hn : isNext i s.server c.1 = true) (hid : server.nextWrId = s.server.nextWrId) :
    pending i s = pending i (handled s q server) + 1 := by
  have hc := hp.countP_eq (fun c => isNext i s.server c.1)
  rw [countP_cons, hn] at hc
  unfold pending handled
  simp only [isNext_congr hid]
  rw [hc]
  simp only [if_true]
  omega

theorem wired_handled (h : Wired i s) (hp : s.compQueue.Perm (c :: q))
    (hn : isNext i s.server c.1 = true) (hid : server.nextWrId = s.server.nextWrId)
    (hidle : server.sendFlag = true → pending i s ≤ 1)
    (hadj : isAdjusting s.server.nextLrStep = false → isAdjusting server.nextLrStep = false)
    (hs : s.second ≠ none → server.nextLrStep = s.server.nextLrStep) :
    Wired i (handled s q server) := by
  refine h.change hid (Nat.le_refl _) hadj (fun _ => Or.inl)
    (fun _ hc => Or.inl (hp.mem_iff.mpr (mem_cons_of_mem _ hc))) (fun hf => ?_)
    fun hyes => ⟨hyes, rfl, hs hyes⟩
  have hle := hidle hf
  have hone := pending_handled server hp hn hid
  omega

/-- The record of the server with the step `st` to come next. -/
def freed (s : State) (st : LrStep) (failCount : ℕ) : Server :=
  { s.server with nextLrStep := st, sendFlag := true, failCount := failCount }

theorem wired_freed (h : Inv i s) (hp : s.compQueue.Perm (c :: q))
    (hn : isNext i s.server c.1 = true) (hone : pending i s ≤ 1) (st : LrStep) (failCount : ℕ)
    (hadj : isAdjusting s.server.nextLrStep = false → isAdjusting st = false)
    (hs : s.second ≠ none → st = s.server.nextLrStep) :
    Wired i (handled s q (freed s st failCount)) ∧
      pending i (handled s q (freed s st failCount)) = 0 := by
  refine ⟨wired_handled h.wired hp hn rfl (fun _ => hone) hadj hs, ?_⟩
  have := pending_handled (freed s st failCount) hp hn rfl
  omega

theorem inv_handled_retry (h : Inv i s) (hp : s.compQueue.Perm (c :: q))
    (hn : isNext i s.server c.1 = true) (hone : pending i s ≤ 1) (failCount : ℕ) :
    Inv i (observe s (handled s q (freed s s.server.nextLrStep failCount))) := by
  obtain ⟨hw, hz⟩ := wired_freed h hp hn hone s.server.nextLrStep failCount id fun _ => rfl
  exact Steady.inv ⟨rfl, rfl, rfl, rfl, rfl, rfl, rfl, rfl, rfl, rfl, fun _ => rfl, fun _ => id,
    fun _ hun => ⟨{ hun with }, rfl, id⟩⟩ h hw
    (fun _ _ _ => awaits_of_pending_zero hz) nofun

theorem inv_handled_of (h : Inv i s) (hw : Wired i (handled s q server))
    (hst : server.nextLrStep = .updateLog → s.server.nextLrStep = .updateLog)
    (hat : AtStep i (handled s q server) server.nextLrStep) :
    Inv i (observe s (handled s q server)) := by
  have hs : observe s (handled s q server) = handled s q server :=
    observe_of_still hst rfl rfl
  rw [hs]
  exact ⟨h.len_eq, h.large, h.end_le, hw, hat⟩

theorem progress_of_covered (hp : Progress s s.offsetsEnd) (hw : Writing i s)
    (hall : ∀ x < s.leader.len, gap s.leader.len s.server.cachedEndOffset s.leader.endOff <
        age s.leader.len s.leader.endOff x →
      age s.leader.len s.leader.endOff x ≤ unsent s →
      s.follower.entries x = s.leader.entries x) :
    Progress s s.server.cachedEndOffset where
  le_len := Nat.le_of_lt hw.cached_lt
  adjusted_le := hp.adjusted_le
  le_travelled := by
    have := hp.le_travelled
    have := hw.between
    unfold unsent at this
    omega
  on_the_way := by
    intro ht
    have hway := hp.on_the_way ht
    have hb := hw.between
    unfold unsent at hb
    have hadd := gap_add (c := s.server.cachedEndOffset) hp.adjusted_le hp.le_len (by omega)
    omega
  full_circle := fun hf => absurd hf (Nat.ne_of_lt hw.cached_lt)
  bytes := by
    intro x hx hlt hle
    rcases Nat.lt_or_ge (unsent s) (age s.leader.len s.leader.endOff x) with hold | hnew
    · exact hp.bytes x hx hold hle
    · exact hall x hx hlt hnew

theorem inv_handled_adjusting (h : Inv i s) (hp : s.compQueue.Perm (c :: q))
    (hn : isNext i s.server c.1 = true) (hok : c.2 = .success)
    (hadj : isAdjusting s.server.nextLrStep = true) (failCount : ℕ) :
    Inv i (observe s (handled s q (freed s s.server.nextLrStep.next failCount))) := by
  have hmem : c ∈ s.compQueue := hp.mem_iff.mpr mem_cons_self
  have hsu : Succeeded i s := ⟨c, hmem, hn, hok⟩
  have hfl := h.wired.flag_of_pending (pending_pos_of_comp hmem hn)
  have hat := h.atStep
  have key := fun hone => wired_freed h hp hn hone s.server.nextLrStep.next failCount
    (by rw [hadj]; nofun) fun hyes => by rw [(h.wired.second hyes).2] at hadj; cases hadj
  cases hst : s.server.nextLrStep with
  | getWrite =>
    rw [hst] at hat
    exact absurd (hfl.symm.trans hat.2) nofun
  | getNceLen =>
    rw [hst] at hat key
    obtain ⟨⟨hun, hc⟩, ha⟩ := hat
    obtain ⟨hw, hz⟩ := key ha.pending_le
    exact inv_handled_of h hw nofun
      ⟨⟨{ hun with }, hc⟩, ha.done hsu,
        awaits_of_pending_zero hz⟩
  | getNce =>
    rw [hst] at hat key
    obtain ⟨⟨hun, hc⟩, hlen, ha⟩ := hat
    obtain ⟨hw, hz⟩ := key ha.pending_le
    exact inv_handled_of h hw nofun ⟨ha.done hsu, nofun, awaits_of_pending_zero hz⟩
  | setEnd =>
    rw [hst] at hat key
    obtain ⟨hd, hle, ha⟩ := hat
    obtain ⟨hw, -⟩ := key ha.pending_le
    refine ⟨h.len_eq, h.large, h.end_le, ⟨hw.1, hw.2, hw.3, hw.4, hw.5,
      hw.6⟩, progress_start (hle hfl) ?_, Or.inl (ha.done hsu), nofun⟩
    unfold observe
    rw [if_pos ⟨hadj, rfl⟩]
  | updateLog =>
    rw [hst] at hadj
    cases hadj
  | updateEnd =>
    rw [hst] at hadj
    cases hadj

theorem inv_handled_part (h : Inv i s) (hpr : s.compQueue.Perm (c :: q))
    (hn : isNext i s.server c.1 = true) (hst : s.server.nextLrStep = .updateLog)
    (hf : s.server.sendFlag = false) (hc : s.server.sendCount = 2) {count : ℕ}
    (hl : count = 0 ∨ count = 1 ∧ c.2 = .success) (failCount : ℕ) :
    Inv i (observe s (handled s q
      { s.server with sendCount := count, failCount := failCount })) := by
  have hat := h.atStep
  rw [hst] at hat
  obtain ⟨hp, he, hw⟩ := hat
  have hw := hw hf
  have hpe := pending_handled { s.server with sendCount := count, failCount := failCount }
    hpr hn rfl
  have htwo := hw.pending_le
  rw [hc] at htwo
  refine inv_handled_of h (wired_handled h.wired hpr hn rfl ?_ id fun _ => rfl) id ?_
  · rw [hf]
    nofun
  change AtStep i _ s.server.nextLrStep
  rw [hst]
  refine ⟨hp.congr rfl rfl rfl rfl rfl fun _ hx => hx, he, fun _ => ?_⟩
  exact { hw with
    pending_le := by
      have hmax : 1 ≤ max 1 count := Nat.le_max_left 1 _
      change _ ≤ max 1 count
      omega
    count_le := by
      change count ≤ 2
      omega
    covered := by
      intro hone hall hok
      change 1 ≤ count at hone
      change _ = count at hall
      obtain ⟨hco', hs⟩ := hl.resolve_left (by omega)
      refine hw.covered (by omega) (by omega) ?_
      intro c' hc' hn'
      rcases mem_cons.mp (hpr.mem_iff.mp hc') with rfl | hrest
      · exact hs
      · exact hok c' hrest hn' }

theorem inv_handled_written (h : Inv i s) (hpr : s.compQueue.Perm (c :: q))
    (hn : isNext i s.server c.1 = true) (hok : c.2 = .success)
    (hst : s.server.nextLrStep = .updateLog) (hf : s.server.sendFlag = false)
    (hc : s.server.sendCount = 1) (failCount : ℕ) :
    Inv i (observe s (handled s q (freed s .updateEnd failCount))) := by
  have hat := h.atStep
  rw [hst] at hat
  obtain ⟨hp, he, hw⟩ := hat
  have hw := hw hf
  have hone : pending i s ≤ 1 := by simpa [hc] using hw.pending_le
  have hs : s.second = none := by
    have hz : pending i (handled s q s.server) = 0 := by
      have := pending_handled s.server hpr hn rfl
      omega
    exact (second_of_pending_zero hz : (handled s q s.server).second = none)
  obtain ⟨hwi, hz⟩ := wired_freed h hpr hn hone .updateEnd failCount (fun _ => rfl) (absurd hs)
  have hall : Progress s s.server.cachedEndOffset := by
    refine progress_of_covered hp hw fun x hx hlt hle => ?_
    have hsu : ∀ c' ∈ s.compQueue, isNext i s.server c'.1 = true → c'.2 = .success := by
      intro c' hc' hn'
      rcases mem_cons.mp (hpr.mem_iff.mp hc') with rfl | hrest
      · exact hok
      · exact absurd hz (Nat.ne_of_gt (pending_pos_of_comp hrest hn'))
    have hpos := pending_pos_of_comp (hpr.mem_iff.mpr mem_cons_self) hn
    rcases hw.covered (by omega) (by omega) hsu x hx hlt hle with
      heq | ⟨n, hsec, -⟩ | ⟨w, hmem, hn', -⟩
    · exact heq
    · rw [hs] at hsec
      cases hsec
    · exact absurd hz (Nat.ne_of_gt (pending_pos_of_send hmem hn'))
  refine inv_handled_of h hwi nofun ⟨hall.congr rfl rfl rfl rfl rfl fun _ hx => hx, hw.cached_lt,
    hp.le_len, ?_, nofun, awaits_of_pending_zero hz⟩
  have hb := hw.between
  change gap s.leader.len s.server.cachedEndOffset s.leader.endOff ≤ unsent s
  omega

theorem inv_handled_updated (h : Inv i s) (hpe : s.compQueue.Perm (c :: q))
    (hn : isNext i s.server c.1 = true) (hok : c.2 = .success)
    (hs : s.server.nextLrStep = .updateEnd) (hf : s.server.sendFlag = false)
    (failCount : ℕ) :
    Inv i (observe s (handled s q (freed s .updateLog failCount))) := by
  have hat := h.atStep
  rw [hs] at hat
  obtain ⟨hp, -, -, -, hset, ha⟩ := hat
  have hsu : Succeeded i s := ⟨c, hpe.mem_iff.mpr mem_cons_self, hn, hok⟩
  obtain ⟨hw, -⟩ := wired_freed h hpe hn ha.pending_le .updateLog failCount (fun _ => rfl)
    fun hyes => (h.wired.second hyes).2.symm
  refine ⟨h.len_eq, h.large, h.end_le, ⟨hw.1, hw.2, hw.3, hw.4, hw.5,
    hw.6⟩, ?_, Or.inl (ha.done hsu), nofun⟩
  change Progress _ s.offsetsEnd
  rw [hset hf]
  refine hp.congr rfl rfl rfl ?_ ?_ fun _ hx => hx
  · simp [observe, hs, isAdjusting]
  · simp [observe, hs, isAdjusting, handled, gap_self]

theorem Writing.count_cases (hw : Writing i s) :
    s.server.sendCount = 0 ∨ s.server.sendCount = 1 ∨ s.server.sendCount = 2 := by
  have := hw.count_le
  omega

theorem inv_poll (h : Inv i s) {k : ℕ} (hk : s.compQueue[k]? = some c) :
    Inv i (observe s
      (handleCompletion i c.1 c.2 { s with compQueue := s.compQueue.eraseIdx k })) := by
  have hp := perm_of_getElem? hk
  unfold handleCompletion handleLrWorkCompletion
  cases hn : isNext i s.server c.1 with
  | false =>
    simp only [Bool.false_eq_true, if_false]
    exact inv_handled_aside h hp hn _
  | true =>
    have hfl :=
      h.wired.flag_of_pending (pending_pos_of_comp (hp.mem_iff.mpr mem_cons_self) hn)
    simp only [if_true]
    by_cases hok : c.2 = .success
    · simp only [if_pos hok]
      split
      · rename_i hs
        have hat := h.atStep
        rw [hs] at hat
        have hw := hat.2.2 hfl
        split
        · rename_i hco
          exact inv_handled_retry h hp hn (by simpa [hco] using hw.pending_le) _
        · rename_i hco
          exact inv_handled_written h hp hn hok hs hfl hco _
        · rename_i hco
          exact inv_handled_part h hp hn hs hfl hco (Or.inr ⟨rfl, hok⟩) _
        · rename_i hz hone htwo
          rcases hw.count_cases with hco | hco | hco
          exacts [absurd hco hz, absurd hco hone, absurd hco htwo]
      · rename_i hs
        exact inv_handled_updated h hp hn hok hs hfl _
      · rename_i hlog hend
        refine inv_handled_adjusting h hp hn hok ?_ _
        cases hs : s.server.nextLrStep <;> simp_all [isAdjusting]
    · simp only [if_neg hok]
      split
      · rename_i hs
        have hat := h.atStep
        rw [hs] at hat
        have hw := hat.2.2 hfl
        split
        · rename_i hco
          exact inv_handled_retry h hp hn (by simpa [hco] using hw.pending_le) _
        · rename_i hco
          exact inv_handled_retry h hp hn (by simpa [hco] using hw.pending_le) _
        · rename_i hco
          exact inv_handled_part h hp hn hs hfl hco (Or.inl rfl) _
        · rename_i hz hone htwo
          rcases hw.count_cases with hco | hco | hco
          exacts [absurd hco hz, absurd hco hone, absurd hco htwo]
      · rename_i hlog
        refine inv_handled_retry h hp hn ?_ _
        have hat := h.atStep
        cases hs : s.server.nextLrStep <;> rw [hs] at hat
        · exact absurd (hfl.symm.trans hat.2) (by decide)
        · exact hat.2.pending_le
        · exact hat.2.2.pending_le
        · exact hat.2.2.pending_le
        · exact absurd hs hlog
        · exact hat.2.2.2.2.2.pending_le

end Poll

/-! ### Restarting the queue pair -/

theorem Writing.cleared (hw : Writing i s) :
    Writing i { s with sendQueue := [], compQueue := [] } := by
  have hp : pending i { s with sendQueue := [], compQueue := [] } = s.second.toList.length := by
    simp [pending]
  have hall : pending i s = s.sendQueue.countP (fun w => isNext i s.server w.id) +
      s.compQueue.countP (fun c => isNext i s.server c.1) + s.second.toList.length := rfl
  have hle := hw.pending_le
  have hs : s.second.toList.length ≤ 1 := by cases s.second <;> simp
  exact { hw with
    pending_le := by
      change _ ≤ max 1 s.server.sendCount
      omega
    op_eq := by simp
    covered := by
      intro hone hco _ x hx hlt hage
      change 1 ≤ s.server.sendCount at hone
      change _ = s.server.sendCount at hco
      have hse : s.sendQueue.countP (fun w => isNext i s.server w.id) = 0 := by omega
      have hcm : s.compQueue.countP (fun c => isNext i s.server c.1) = 0 := by omega
      have hok : ∀ c ∈ s.compQueue, isNext i s.server c.1 = true → c.2 = .success :=
        fun c hc hn => absurd hn (countP_eq_zero.mp hcm c hc)
      rcases hw.covered hone (by omega) hok x hx hlt hage with heq | hsec | ⟨w, hmem, hn, -⟩
      · exact Or.inl heq
      · exact Or.inr (Or.inl hsec)
      · exact absurd hn (countP_eq_zero.mp hse w hmem) }

theorem inv_qpRestart (h : Inv i s) :
    Inv i (observe s { s with sendQueue := [], compQueue := [] }) := by
  have hle : pending i { s with sendQueue := [], compQueue := [] } ≤ pending i s := by
    simp [pending]
  refine Steady.inv ⟨rfl, rfl, rfl, rfl, rfl, rfl, rfl, rfl, rfl, rfl, id, fun _ => id,
    fun _ hun => ⟨{ hun with }, rfl, id⟩⟩ h ?_ (fun _ _ ha => ?_)
    fun _ => Writing.cleared
  · exact h.wired.change rfl (Nat.le_refl _) id (by simp) (by simp)
      (fun hf => Nat.le_zero.mp (h.wired.idle hf ▸ hle)) fun hyes => ⟨hyes, rfl, rfl⟩
  · exact ⟨Nat.le_trans hle ha.pending_le, by simp, by simp [Succeeded]⟩

end VmFt.Dare.Ring
