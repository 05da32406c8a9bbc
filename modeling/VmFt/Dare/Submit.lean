import VmFt.Lib.Transition
import VmFt.Dare.Tailq

/-! # Waiting for a submitted request

A submitting thread numbers its request and waits until as many client entries
have been applied under its server's leadership. The other servers appear only
through what they write into the log of this one.
-/

namespace VmFt.Dare.Submit

open VmFt.Dare.Ring VmFt.System List Option

/-- An entry of the log; `origin` is the number of the request, among those submitted to this
server, that it was made from. -/
structure LogEntry where
  reqId : ℕ
  cltId : ℕ
  body : EntryBody
  origin : Option ℕ
  deriving DecidableEq

def LogEntry.isClient (e : LogEntry) : Bool :=
  match e.body with
  | .cmd _ _ => true
  | _ => false

def requestEntry (n3 : TailqEntry) (number : ℕ) : LogEntry :=
  ⟨n3.reqId.toNat, n3.connectionId.toNat, .cmd n3.type n3.cmd, some number⟩

def queuedEntries : ℕ → List TailqEntry → List Bool → List LogEntry
  | _, [], _ => []
  | number, n3 :: tailq, accepted =>
    if accepted.headD false then
      requestEntry n3 number :: queuedEntries (number + 1) tailq accepted.tail
    else queuedEntries (number + 1) tailq accepted.tail

/-- One server with its log and the threads inside `leader_handle_submit_req`. -/
structure State where
  proxy : Proxy
  isLeader : Bool
  log : List LogEntry
  commit : ℕ
  apply : ℕ
  /-- The records that calls are waiting for, and those that calls have returned for. -/
  waiting : List ℕ
  returned : List ℕ
  /-- All requests submitted here, the entries made from them and the entries applied here. -/
  submitted : List TailqEntry
  created : List LogEntry
  applied : List LogEntry

def State.init : State := ⟨⟨0, 0, 0, []⟩, false, [], 0, 0, [], [], [], [], []⟩

inductive Event where
  | submit (buf : List UInt8) (type : CmdType)
  | submitReturns (curRec : ℕ)
  | getTailqMessage (accepted : List Bool)
  | appendSpecial (e : LogEntry)
  | advanceCommit (offset : ℕ)
  | applyEntry
  | setLeader (isLeader : Bool)
  | remoteWrite (log : List LogEntry) (commit apply : ℕ)

/-- What applying an entry does to the proxy: a leader counts client entries, the other servers
pass them on. -/
def applyToProxy (isLeader : Bool) (e : LogEntry) (proxy : Proxy) : Proxy :=
  match e.body with
  | .cmd type _ =>
    if isLeader then { proxy with highestRec := proxy.highestRec + 1 }
    else if type.code = MIRROR.code then { proxy with syncReqId := proxy.syncReqId + 1 }
    else proxy
  | _ => proxy

def step (s : State) : Event → Option State
  | .submit buf type =>
    (leaderHandleSubmitReq s.proxy buf type).map fun (proxy, curRec) =>
      { s with
        proxy := proxy
        waiting := curRec :: s.waiting
        submitted := s.submitted ++ proxy.tailq.getLast?.toList }
  -- the loop `while (cur_rec > proxy->highest_rec)` ends
  | .submitReturns curRec =>
    guarded (curRec ∈ s.waiting ∧ ¬ curRec > s.proxy.highestRec)
      { s with waiting := s.waiting.erase curRec, returned := curRec :: s.returned }
  -- `get_tailq_message` runs whatever the role; which appends are refused depends on the log
  | .getTailqMessage accepted =>
    let es := queuedEntries (s.submitted.length - s.proxy.tailq.length + 1) s.proxy.tailq accepted
    some { s with
      proxy := { s.proxy with tailq := [] }
      log := s.log ++ es
      created := s.created ++ es }
  | .appendSpecial e =>
    guarded (s.isLeader ∧ e.isClient = false ∧ e.origin = none) { s with log := s.log ++ [e] }
  | .advanceCommit offset =>
    guarded (s.isLeader ∧ s.commit ≤ offset ∧ offset ≤ s.log.length) { s with commit := offset }
  | .applyEntry =>
    if s.apply < s.commit then
      s.log[s.apply]?.map fun e =>
        { s with
          proxy := applyToProxy s.isLeader e s.proxy
          apply := s.apply + 1
          applied := s.applied ++ [e] }
    else none
  | .setLeader isLeader => some { s with isLeader := isLeader }
  -- other leaders extend, cut and commit the log; entries made here may come back
  | .remoteWrite log commit apply =>
    guarded (s.isLeader = false ∧ ∀ e ∈ log, e.origin ≠ none → e ∈ s.created)
      { s with log := log, commit := commit, apply := apply }

def server : System State Event := ⟨step⟩

/-- A client entry that is applied under this server's leadership was made from the request that is
next in the count. -/
def CountsOwn (s : State) : Event → Prop
  | .applyEntry => s.isLeader → ∀ e ∈ s.log[s.apply]?, e.isClient →
    e.origin = some (s.proxy.highestRec + 1)
  | _ => True

instance (s : State) (e : Event) : Decidable (CountsOwn s e) := by
  cases e <;> unfold CountsOwn <;> infer_instance

structure Inv (s : State) : Prop where
  queue_eq : ∃ taken, s.submitted = taken ++ s.proxy.tailq
  curRec_eq : s.proxy.curRec = s.submitted.length
  created : ∀ e ∈ s.created, ∃ k n, s.submitted[k]? = some n ∧ e = requestEntry n (k + 1)
  log : ∀ e ∈ s.log, e.origin ≠ none → e ∈ s.created
  applied : ∀ e ∈ s.applied, e.origin ≠ none → e ∈ s.created
  counted : ∀ k < s.proxy.highestRec, ∃ e ∈ s.applied, e.origin = some (k + 1)
  waiting : ∀ r ∈ s.waiting, 0 < r
  returned : ∀ r ∈ s.returned, 0 < r ∧ r ≤ s.proxy.highestRec

theorem inv_init : Inv .init where
  queue_eq := ⟨[], rfl⟩
  curRec_eq := rfl
  created := nofun
  log := nofun
  applied := nofun
  counted := nofun
  waiting := nofun
  returned := nofun

theorem mem_queuedEntries {e : LogEntry} {number : ℕ} {tailq : List TailqEntry}
    {accepted : List Bool} (h : e ∈ queuedEntries number tailq accepted) :
    ∃ k n, tailq[k]? = some n ∧ e = requestEntry n (number + k) := by
  induction tailq generalizing number accepted with
  | nil => cases h
  | cons n tailq ih =>
    rw [queuedEntries] at h
    have hrest : e ∈ queuedEntries (number + 1) tailq accepted.tail →
        ∃ k n', (n :: tailq)[k]? = some n' ∧ e = requestEntry n' (number + k) := by
      intro h
      obtain ⟨k, n', hk, rfl⟩ := ih h
      exact ⟨k + 1, n', hk, by rw [Nat.add_assoc, Nat.add_comm 1 k]⟩
    split at h
    · rcases mem_cons.mp h with rfl | h
      · exact ⟨0, n, rfl, rfl⟩
      · exact hrest h
    · exact hrest h

variable {s t : State}

theorem Inv.submit (h : Inv s) {buf : List UInt8} {type : CmdType} {proxy : Proxy} {curRec : ℕ}
    (hs : leaderHandleSubmitReq s.proxy buf type = some (proxy, curRec)) :
    Inv { s with
      proxy := proxy
      waiting := curRec :: s.waiting
      submitted := s.submitted ++ proxy.tailq.getLast?.toList } := by
  unfold leaderHandleSubmitReq at hs
  split at hs
  · cases hs
    obtain ⟨taken, ht⟩ := h.queue_eq
    simp only [getLast?_concat, toList_some]
    constructor
    · refine ⟨taken, ?_⟩
      rw [ht, append_assoc]
    · simp [h.curRec_eq]
    · intro e he
      obtain ⟨k, n, hk, rfl⟩ := h.created e he
      exact ⟨k, n, List.getElem?_append_left (List.getElem?_eq_some_iff.mp hk).1 ▸ hk, rfl⟩
    · exact h.log
    · exact h.applied
    · exact h.counted
    · rintro r (_ | ⟨_, hr⟩)
      · exact Nat.succ_pos _
      · exact h.waiting r hr
    · exact h.returned
  · cases hs

theorem Inv.getTailqMessage (h : Inv s) {es : List LogEntry} {accepted : List Bool}
    (hes : es = queuedEntries (s.submitted.length - s.proxy.tailq.length + 1) s.proxy.tailq
      accepted) :
    Inv { s with
      proxy := { s.proxy with tailq := [] }
      log := s.log ++ es
      created := s.created ++ es } := by
  constructor
  · exact ⟨s.submitted, (List.append_nil _).symm⟩
  · exact h.curRec_eq
  · intro e he
    rcases mem_append.mp he with he | he
    · exact h.created e he
    · rw [hes] at he
      obtain ⟨k, n, hk, rfl⟩ := mem_queuedEntries he
      obtain ⟨taken, ht⟩ := h.queue_eq
      refine ⟨taken.length + k, n, ?_, ?_⟩
      · simp only [ht]
        rw [List.getElem?_append_right (Nat.le_add_right _ _), Nat.add_sub_cancel_left]
        exact hk
      · rw [ht, length_append, Nat.add_sub_cancel, Nat.add_right_comm]
  · intro e he ho
    refine mem_append.mpr ((mem_append.mp he).imp (h.log e · ho) id)
  · exact fun e he ho => mem_append_left _ (h.applied e he ho)
  · exact h.counted
  · exact h.waiting
  · exact h.returned

theorem Inv.applyEntry (h : Inv s) {e : LogEntry} (hget : s.log[s.apply]? = some e)
    (hok : CountsOwn s .applyEntry) :
    Inv { s with
      proxy := applyToProxy s.isLeader e s.proxy
      apply := s.apply + 1
      applied := s.applied ++ [e] } := by
  have hqueue : (applyToProxy s.isLeader e s.proxy).tailq = s.proxy.tailq ∧
      (applyToProxy s.isLeader e s.proxy).curRec = s.proxy.curRec := by
    unfold applyToProxy
    split
    · split_ifs <;> exact ⟨rfl, rfl⟩
    · exact ⟨rfl, rfl⟩
  -- either nothing is counted, or the entry is the next one in the count
  have hrec : (applyToProxy s.isLeader e s.proxy).highestRec = s.proxy.highestRec ∨
      (applyToProxy s.isLeader e s.proxy).highestRec = s.proxy.highestRec + 1 ∧
        e.origin = some (s.proxy.highestRec + 1) := by
    unfold applyToProxy
    split
    · rename_i hb
      split_ifs with hl
      · exact .inr ⟨rfl, hok hl e hget (by rw [LogEntry.isClient, hb])⟩
      · exact .inl rfl
      · exact .inl rfl
    · exact .inl rfl
  constructor
  · rw [hqueue.1]
    exact h.queue_eq
  · rw [hqueue.2]
    exact h.curRec_eq
  · exact h.created
  · exact h.log
  · intro e' he' ho
    rcases mem_append.mp he' with he' | he'
    · exact h.applied e' he' ho
    · obtain rfl := mem_singleton.mp he'
      exact h.log _ (mem_of_getElem? hget) ho
  · intro k hk
    change k < (applyToProxy s.isLeader e s.proxy).highestRec at hk
    by_cases hold : k < s.proxy.highestRec
    · obtain ⟨e', he', ho⟩ := h.counted k hold
      exact ⟨e', mem_append_left _ he', ho⟩
    · obtain ⟨hrec, ho⟩ := hrec.resolve_left (by omega)
      obtain rfl : k = s.proxy.highestRec := by omega
      exact ⟨e, mem_append_right _ (mem_singleton_self _), ho⟩
  · exact h.waiting
  · intro r hr
    have hold := h.returned r hr
    change 0 < r ∧ r ≤ (applyToProxy s.isLeader e s.proxy).highestRec
    omega

theorem Inv.step (h : Inv s) {e : Event} (hok : CountsOwn s e) (hst : step s e = some t) :
    Inv t := by
  cases e with
  | submit buf type =>
    obtain ⟨⟨proxy, curRec⟩, hs, rfl⟩ := map_eq_some_iff.mp hst
    exact h.submit hs
  | submitReturns curRec =>
    obtain ⟨⟨hw, hle⟩, rfl⟩ := guarded_eq_some.mp hst
    refine { h with waiting := ?_, returned := ?_ }
    · exact fun r hr => h.waiting r (mem_of_mem_erase hr)
    · rintro r (_ | ⟨_, hr⟩)
      · exact ⟨h.waiting _ hw, Nat.not_lt.mp hle⟩
      · exact h.returned r hr
  | getTailqMessage accepted =>
    obtain rfl := Option.some.inj hst
    exact h.getTailqMessage rfl
  | appendSpecial e =>
    obtain ⟨⟨-, -, hn⟩, rfl⟩ := guarded_eq_some.mp hst
    refine { h with log := ?_ }
    intro e' he' ho
    rcases mem_append.mp he' with he' | he'
    · exact h.log e' he' ho
    · obtain rfl := mem_singleton.mp he'
      exact absurd hn ho
  | advanceCommit offset =>
    obtain ⟨-, rfl⟩ := guarded_eq_some.mp hst
    exact { h with }
  | applyEntry =>
    simp only [Submit.step] at hst
    split at hst
    · obtain ⟨e, hget, rfl⟩ := map_eq_some_iff.mp hst
      exact h.applyEntry hget hok
    · cases hst
  | setLeader isLeader =>
    obtain rfl := Option.some.inj hst
    exact { h with }
  | remoteWrite log commit apply =>
    obtain ⟨⟨-, hm⟩, rfl⟩ := guarded_eq_some.mp hst
    exact ⟨h.queue_eq, h.curRec_eq, h.created, hm, h.applied, h.counted, h.waiting,
      h.returned⟩

/-- A call returns only after the entry made from its request has been applied, as long as the
server counts as leader only entries of its own requests, each in its turn. -/
theorem submit_returns_after_apply (hrun : server.Run CountsOwn .init t) :
    ∀ r ∈ t.returned, ∃ n, t.submitted[r - 1]? = some n ∧ requestEntry n r ∈ t.applied := by
  have hinv : Inv t := hrun.invariant inv_init fun _ _ _ h hok hstep => h.step hok hstep
  intro r hr
  obtain ⟨hpos, hle⟩ := hinv.returned r hr
  obtain ⟨e, he, horigin⟩ := hinv.counted (r - 1) (by omega)
  obtain ⟨k, n, hk, rfl⟩ := hinv.created e (hinv.applied e he (by rw [horigin]; nofun))
  obtain rfl : k + 1 = r := by
    have := Option.some.inj horigin
    omega
  exact ⟨n, hk, he⟩

/-- A leader that submits, commits and applies one request. -/
theorem submit_returns_after_own_entry :
    ∃ t, server.Run CountsOwn .init t ∧ t.returned = [1] ∧
      ∀ r ∈ t.returned, ∃ n, t.submitted[r - 1]? = some n ∧ requestEntry n r ∈ t.applied := by
  obtain ⟨t, hrun, hreturned⟩ := exists_run_of_exec (M := server) (s := .init) CountsOwn
    (p := fun t => t.returned = [1])
    [.setLeader true, .submit [] CHECKPOINT, .getTailqMessage [true], .advanceCommit 1,
      .applyEntry, .submitReturns 1] (by decide +kernel)
  exact ⟨t, hrun, hreturned, submit_returns_after_apply hrun⟩

/-- An entry of an earlier leader that is applied after the change of leader counts for the first
request, which returns while it is still queued. -/
theorem submit_returns_for_foreign_entry :
    ∃ t, server.Run anyStep .init t ∧
      t.returned = [1] ∧ t.proxy.tailq.length = 1 ∧ t.created = [] := by
  refine exists_run_of_exec (M := server) (s := .init) anyStep
    (p := fun t => t.returned = [1] ∧ t.proxy.tailq.length = 1 ∧ t.created = [])
    [.remoteWrite [⟨1, 14, .cmd CHECKPOINT (tailqCmd []), none⟩] 0 0, .setLeader true,
      .advanceCommit 1, .applyEntry, .submit [] CHECKPOINT, .submitReturns 1] (by decide +kernel)

end VmFt.Dare.Submit
