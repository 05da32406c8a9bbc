import Mathlib.Order.Lattice
import VmFt.Lib.Transition
import VmFt.Dare.Log

/-! # Recovery of the state machine

A server that joins takes over a snapshot of the records of one server, sets its
apply offset to that of the snapshot and copies the log of another server. The
records are what `proxy_store_cmd` has stored; `apply_committed_entries` does not
call it, so there are none, and a command in front of the snapshot's offset never
reaches the action handler. An offset is the number of entries in front of it.
-/

namespace VmFt.Dare.SmRecovery

open VmFt.System List Option Function

/-- A client command, as it is handed to the action handler. -/
structure Cmd where
  cltId : ℕ
  type : EntryType
  data : EntryData
  deriving DecidableEq

def command (e : Entry) : Option Cmd :=
  match e.type with
  | .noop | .config | .head => none
  | type => some ⟨e.cltId, type, e.data⟩

def commands (log : List Entry) : List Cmd := log.filterMap command

def commandAt (log : List Entry) (offset : ℕ) : Option Cmd := log[offset]?.bind command

/-- `snapshot_t`: the records and the offset behind the last entry that was applied. -/
structure Snapshot where
  records : List Cmd
  lastEntry : ℕ
  deriving DecidableEq

inductive Phase
  | vacant
  | joining
  | smRecovered
  | running
  deriving DecidableEq

structure Server where
  phase : Phase
  /-- The server has joined a running group. -/
  joined : Bool
  leader : Bool
  log : List Entry
  head : ℕ
  apply : ℕ
  commit : ℕ
  /-- The records in stable storage. -/
  db : List Cmd
  /-- `last_applied_entry.offset` -/
  lastAppliedEntry : ℕ
  /-- The snapshot, as long as the `SNAPSHOT` flag is set. -/
  snapshot : Option Snapshot
  /-- The commands handed to the action handler. -/
  handed : List Cmd

/-- A round of `apply_committed_entries`: only a server that is not the leader hands the command to
its action handler. -/
def applyCommittedEntry (m : Server) : Option Server :=
  if m.apply < m.commit then
    (m.log[m.apply]?).map fun e =>
      match command e with
      | none => { m with apply := m.apply + 1 }
      | some cmd =>
        { m with
          apply := m.apply + 1
          handed := if m.leader then m.handed else m.handed ++ [cmd]
          lastAppliedEntry := m.apply + 1 }
  else none

/-- `poll_sm_requests` for one request, and the snapshot in the reply. If there is a snapshot
already, the reply is made from a pointer that was not set; `found` is what it points to. -/
def pollSmRequest (found : Snapshot) (m : Server) : Server × Snapshot :=
  match m.snapshot with
  | none => ({ m with snapshot := some ⟨m.db, m.lastAppliedEntry⟩ }, ⟨m.db, m.lastAppliedEntry⟩)
  | some _ => (m, found)

/-- `stablestorage_load_records`, which does not get past a record of another kind. -/
def stablestorageLoadRecords (records : List Cmd) (m : Server) : Option Server :=
  guarded (∀ r ∈ records, r.type = .mirror ∨ r.type = .checkpoint)
    { m with
      db := m.db ++ records
      handed := m.handed ++ records.filter (·.type = .mirror) }

def rcRecoverSm (snapshot : Snapshot) (m : Server) : Option Server :=
  (stablestorageLoadRecords snapshot.records m).map fun m =>
    { m with apply := snapshot.lastEntry, phase := .smRecovered }

/-- `rc_recover_log` with the log, up to an offset, and the commit offset of the target. What stands
in front of the head offset is not copied. -/
def rcRecoverLog (target : List Entry) (endOff commit : ℕ) (m : Server) : Server :=
  { m with
    log := replicate m.head .blank ++ (target.take endOff).drop m.head
    commit := min commit endOff
    phase := .running }

def joiningServer (head : ℕ) : Server :=
  { phase := .joining, joined := true, leader := false, log := [], head := head, apply := 0
    commit := 0, db := [], lastAppliedEntry := 0, snapshot := none, handed := [] }

structure State where
  servers : ℕ → Server
  /-- The entries that were committed, on whichever server. -/
  committed : List Entry
  /-- The head offsets in the replies to JOIN requests. -/
  heads : List ℕ
  /-- The snapshots in the replies to requests for the state machine. -/
  snapshots : List Snapshot

inductive Event
  | append (i : ℕ) (e : Entry)
  | extend (i k n : ℕ)
  | truncate (i offset : ℕ)
  | commit (i offset : ℕ)
  | apply (i : ℕ)
  | elect (i : ℕ)
  | stepDown (i : ℕ)
  /-- The head offset is advanced, and the snapshot is given up. -/
  | prune (i offset : ℕ)
  | joinReply (i : ℕ)
  | smRequest (i : ℕ) (found : Snapshot)
  | join (i head : ℕ)
  | recoverSm (i : ℕ) (snapshot : Snapshot)
  | recoverLog (i k endOff : ℕ)
  | fail (i : ℕ)

def Event.server : Event → ℕ
  | .append i _ | .extend i _ _ | .truncate i _ | .commit i _ | .apply i | .elect i | .stepDown i
  | .prune i _ | .joinReply i | .smRequest i _ | .join i _ | .recoverSm i _ | .recoverLog i _ _
  | .fail i => i

def Event.inPhase (p : Phase) : Event → Prop
  | .join _ _ => p = .vacant
  | .recoverSm _ _ => p = .joining
  | .recoverLog _ _ _ => p = .smRecovered
  | .fail _ => p ≠ .vacant
  | _ => p = .running

instance (p : Phase) (e : Event) : Decidable (e.inPhase p) := by
  cases e <;> unfold Event.inPhase <;> infer_instance

/-- What a server does in a step, none if it does not take it. -/
def act (s : State) (m : Server) : Event → Option Server
  | .append _ e => guarded (m.leader = true) { m with log := m.log ++ [e] }
  | .extend _ k n =>
    guarded (m.leader = false)
      { m with log := m.log ++ ((s.servers k).log.drop m.log.length).take n }
  | .truncate _ offset =>
    guarded (m.leader = false ∧ m.commit ≤ offset) { m with log := m.log.take offset }
  | .commit _ offset =>
    guarded (m.commit ≤ offset ∧ offset ≤ m.log.length) { m with commit := offset }
  | .apply _ => applyCommittedEntry m
  | .elect _ => some { m with leader := true }
  | .stepDown _ => some { m with leader := false }
  | .prune _ offset =>
    guarded (m.head ≤ offset ∧ offset ≤ m.commit) { m with head := offset, snapshot := none }
  | .joinReply _ => guarded (m.leader = true) m
  | .smRequest _ found => guarded (m.leader = false) (pollSmRequest found m).1
  | .join _ head => guarded (head ∈ s.heads) (joiningServer head)
  | .recoverSm _ snapshot => if snapshot ∈ s.snapshots then rcRecoverSm snapshot m else none
  | .recoverLog _ k endOff =>
    guarded ((s.servers k).phase = .running ∧ endOff ≤ (s.servers k).log.length)
      (rcRecoverLog (s.servers k).log endOff (s.servers k).commit m)
  | .fail _ => some { m with phase := .vacant }

def committedAfter (s : State) : Event → List Entry
  | .commit i offset => s.committed ++ ((s.servers i).log.take offset).drop s.committed.length
  | _ => s.committed

def headsAfter (s : State) : Event → List ℕ
  | .joinReply i => s.heads ++ [(s.servers i).head]
  | _ => s.heads

def snapshotsAfter (s : State) : Event → List Snapshot
  | .smRequest i found => s.snapshots ++ [(pollSmRequest found (s.servers i)).2]
  | _ => s.snapshots

def groupStep (s : State) (e : Event) : Option State :=
  if e.inPhase (s.servers e.server).phase then
    (act s (s.servers e.server) e).map fun m =>
      { servers := Function.update s.servers e.server m
        committed := committedAfter s e
        heads := headsAfter s e
        snapshots := snapshotsAfter s e }
  else none

def group : System State Event := ⟨groupStep⟩

def initialServer (size i : ℕ) : Server :=
  { joiningServer 0 with phase := if i < size then .running else .vacant, joined := false }

def start (size : ℕ) : State := ⟨initialServer size, [], [], []⟩

/-! ### The condition -/

/-- What is committed agrees with what was committed before; a server that has joined does not apply
a command as the leader; a snapshot is made for every request; no command has been committed in
front of the snapshot's offset and the head offset from which a server recovers. -/
def faithful (s : State) : Event → Prop
  | .commit i offset =>
    ∀ p < min offset s.committed.length, commandAt (s.servers i).log p = commandAt s.committed p
  | .apply i =>
    let m := s.servers i
    m.joined = true → m.leader = true → commandAt m.log m.apply = none
  | .smRequest i _ => (s.servers i).snapshot = none
  | .recoverSm _ snapshot => commands (s.committed.take snapshot.lastEntry) = []
  | .recoverLog i _ _ => commands (s.committed.take (s.servers i).head) = []
  | _ => True

instance (s : State) (e : Event) : Decidable (faithful s e) := by
  cases e <;> unfold faithful <;> infer_instance

/-! ### Commands of a prefix -/

theorem commands_take_succ (log : List Entry) (n : ℕ) :
    commands (log.take (n + 1)) = commands (log.take n) ++ (commandAt log n).toList := by
  rw [commands, commands, commandAt, take_add_one, filterMap_append]
  congr 1
  cases log[n]? with
  | none => rfl
  | some e => cases h : command e <;> simp [h]

theorem commands_take_congr {log log' : List Entry} {n : ℕ}
    (h : ∀ p < n, commandAt log p = commandAt log' p) :
    commands (log.take n) = commands (log'.take n) := by
  induction n with
  | zero => simp
  | succ n ih =>
    rw [commands_take_succ, commands_take_succ, ih fun p hp => h p (Nat.lt_succ_of_lt hp),
      h n n.lt_succ_self]

theorem commandAt_of_commands_take_eq_nil {log : List Entry} {n p : ℕ}
    (h : commands (log.take n) = []) (hp : p < n) : commandAt log p = none := by
  rw [commands, filterMap_eq_nil_iff] at h
  rw [commandAt]
  cases he : log[p]? with
  | none => rfl
  | some e => exact h e (mem_of_getElem? ((List.getElem?_take_of_lt hp).trans he))

theorem commandAt_append_left {log : List Entry} (rest : List Entry) {p : ℕ}
    (hp : p < log.length) : commandAt (log ++ rest) p = commandAt log p := by
  rw [commandAt, commandAt, List.getElem?_append_left hp]

theorem commandAt_take {log : List Entry} {n p : ℕ} (hp : p < n) :
    commandAt (log.take n) p = commandAt log p := by
  rw [commandAt, commandAt, List.getElem?_take_of_lt hp]

/-! ### One step -/

theorem groupStep_eq_some {s t : State} {e : Event} (h : groupStep s e = some t) :
    e.inPhase (s.servers e.server).phase ∧ ∃ m, act s (s.servers e.server) e = some m ∧
      t = ⟨Function.update s.servers e.server m, committedAfter s e, headsAfter s e,
        snapshotsAfter s e⟩ := by
  unfold groupStep at h
  split_ifs at h with hp
  obtain ⟨m, hact, rfl⟩ := map_eq_some_iff.mp h
  exact ⟨hp, m, hact, rfl⟩

theorem applyCommittedEntry_eq {m : Server} {e : Entry} (h : m.apply < m.commit)
    (he : m.log[m.apply]? = some e) :
    applyCommittedEntry m = some (match command e with
      | none => { m with apply := m.apply + 1 }
      | some cmd =>
        { m with
          apply := m.apply + 1
          handed := if m.leader then m.handed else m.handed ++ [cmd]
          lastAppliedEntry := m.apply + 1 }) := by
  rw [applyCommittedEntry, if_pos h, he]
  rfl

theorem applyCommittedEntry_eq_some {m m' : Server} (h : applyCommittedEntry m = some m') :
    m.apply < m.commit ∧
      ((commandAt m.log m.apply = none ∧ m' = { m with apply := m.apply + 1 }) ∨
        ∃ cmd, commandAt m.log m.apply = some cmd ∧
          m' = { m with
            apply := m.apply + 1
            handed := if m.leader then m.handed else m.handed ++ [cmd]
            lastAppliedEntry := m.apply + 1 }) := by
  by_cases hlt : m.apply < m.commit
  · rw [applyCommittedEntry, if_pos hlt] at h
    obtain ⟨e, he, rfl⟩ := map_eq_some_iff.mp h
    have hat : commandAt m.log m.apply = command e := by rw [commandAt, he]; rfl
    refine ⟨hlt, ?_⟩
    cases hcmd : command e with
    | none => exact .inl ⟨hat.trans hcmd, rfl⟩
    | some cmd => exact .inr ⟨cmd, hat.trans hcmd, rfl⟩
  · rw [applyCommittedEntry, if_neg hlt] at h
    cases h

/-! ### What holds in every run -/

/-- No record is stored; what a server has committed is what was committed; a server that has joined
has handed on every command in front of its apply offset. -/
structure Server.Sound (committed : List Entry) (m : Server) : Prop where
  db : m.db = []
  commit_le : m.commit ≤ committed.length
  commit_le_log : m.commit ≤ m.log.length
  agrees : ∀ p < m.commit, commandAt m.log p = commandAt committed p
  lastAppliedEntry_le : m.lastAppliedEntry ≤ committed.length
  fresh : m.phase = .joining → m.handed = []
  handed : m.joined = true →
    m.handed = commands (committed.take m.apply) ∧ m.apply ≤ committed.length

structure State.Sound (s : State) : Prop where
  servers : ∀ i, (s.servers i).Sound s.committed
  snapshots : ∀ x ∈ s.snapshots, x.records = [] ∧ x.lastEntry ≤ s.committed.length

theorem Server.Sound.mono {committed : List Entry} {m : Server} (h : m.Sound committed)
    (rest : List Entry) : m.Sound (committed ++ rest) where
  db := h.db
  commit_le := h.commit_le.trans (by simp)
  commit_le_log := h.commit_le_log
  agrees p hp := by
    rw [commandAt_append_left rest (hp.trans_le h.commit_le)]
    exact h.agrees p hp
  lastAppliedEntry_le := h.lastAppliedEntry_le.trans (by simp)
  fresh := h.fresh
  handed hj := by
    obtain ⟨hh, hle⟩ := h.handed hj
    rw [take_append_of_le_length hle]
    exact ⟨hh, hle.trans (by simp)⟩

theorem Server.Sound.setLog {committed log : List Entry} {m : Server} (h : m.Sound committed)
    (hlen : m.commit ≤ log.length) (hlog : ∀ p < m.commit, commandAt log p = commandAt m.log p) :
    Server.Sound committed { m with log := log } :=
  { h with
    commit_le_log := hlen
    agrees := fun p hp => (hlog p hp).trans (h.agrees p hp) }

theorem Server.Sound.append {committed : List Entry} {m : Server} (h : m.Sound committed)
    (rest : List Entry) : Server.Sound committed { m with log := m.log ++ rest } :=
  h.setLog (h.commit_le_log.trans (by simp)) fun _ hp =>
    commandAt_append_left rest (hp.trans_le h.commit_le_log)

theorem Server.Sound.truncate {committed : List Entry} {m : Server} (h : m.Sound committed)
    {offset : ℕ} (ho : m.commit ≤ offset) :
    Server.Sound committed { m with log := m.log.take offset } :=
  h.setLog (by rw [length_take]; exact le_min ho h.commit_le_log) fun _ hp =>
    commandAt_take (hp.trans_le ho)

theorem Server.Sound.commitTo {committed : List Entry} {m : Server} (h : m.Sound committed)
    {offset : ℕ} (hlog : offset ≤ m.log.length)
    (ha : ∀ p < min offset committed.length, commandAt m.log p = commandAt committed p) :
    Server.Sound (committed ++ (m.log.take offset).drop committed.length)
      { m with commit := offset } := by
  have hall := h.mono ((m.log.take offset).drop committed.length)
  refine { hall with
    commit_le := ?_
    commit_le_log := hlog
    agrees := fun p hp => ?_ }
  · show offset ≤ _
    rw [length_append, length_drop, length_take]
    omega
  · have hp : p < offset := hp
    rcases Nat.lt_or_ge p committed.length with hlt | hge
    · rw [commandAt_append_left _ hlt]
      exact ha p (lt_min hp hlt)
    · rw [commandAt, commandAt, List.getElem?_append_right hge, List.getElem?_drop,
        Nat.add_sub_cancel' hge, List.getElem?_take_of_lt hp]

theorem Server.Sound.apply {committed : List Entry} {m m' : Server} (h : m.Sound committed)
    (hr : m.phase = .running) (ha : applyCommittedEntry m = some m')
    (hle : m.joined = true → m.leader = true → commandAt m.log m.apply = none) :
    m'.Sound committed := by
  obtain ⟨hlt, hc⟩ := applyCommittedEntry_eq_some ha
  have hn : m.apply + 1 ≤ committed.length := Nat.succ_le_of_lt (hlt.trans_le h.commit_le)
  have hat := h.agrees m.apply hlt
  rcases hc with ⟨hno, rfl⟩ | ⟨cmd, hcmd, rfl⟩
  · refine { h with handed := fun hj => ⟨?_, hn⟩ }
    rw [commands_take_succ, ← hat, hno]
    exact (h.handed hj).1.trans (List.append_nil _).symm
  · refine { h with
      lastAppliedEntry_le := hn
      fresh := fun hp => by rw [hr] at hp; cases hp
      handed := fun hj => ⟨?_, hn⟩ }
    have hf : m.leader ≠ true := fun hl => by
      rw [hle hj hl] at hcmd
      cases hcmd
    rw [commands_take_succ, ← hat, hcmd, ← (h.handed hj).1]
    exact if_neg hf

theorem Server.Sound.joining (committed : List Entry) (head : ℕ) :
    (joiningServer head).Sound committed where
  db := rfl
  commit_le := Nat.zero_le _
  commit_le_log := le_rfl
  agrees _ hp := absurd hp (Nat.not_lt_zero _)
  lastAppliedEntry_le := Nat.zero_le _
  fresh _ := rfl
  handed _ := ⟨rfl, Nat.zero_le _⟩

theorem Server.Sound.smRequest {committed : List Entry} {m : Server} (h : m.Sound committed)
    (found : Snapshot) : (pollSmRequest found m).1.Sound committed := by
  unfold pollSmRequest
  split
  · exact { h with }
  · exact h

theorem Server.Sound.recoverSm {committed : List Entry} {m : Server} (h : m.Sound committed)
    {x : Snapshot} (hre : x.records = []) (hle : x.lastEntry ≤ committed.length)
    (hf : commands (committed.take x.lastEntry) = []) (hj : m.phase = .joining)
    {m' : Server} (hr : rcRecoverSm x m = some m') : m'.Sound committed := by
  obtain ⟨_, hl, rfl⟩ := map_eq_some_iff.mp hr
  obtain ⟨-, rfl⟩ := guarded_eq_some.mp hl
  refine { h with db := ?_, fresh := nofun, handed := fun _ => ⟨?_, hle⟩ }
  · show m.db ++ x.records = []
    rw [hre, h.db, List.append_nil]
  · show m.handed ++ x.records.filter _ = _
    rw [hre, h.fresh hj]
    exact hf.symm

theorem Server.Sound.recoverLog {committed : List Entry} {m k : Server} (h : m.Sound committed)
    (hk : k.Sound committed) {endOff : ℕ} (hend : endOff ≤ k.log.length)
    (hf : commands (committed.take m.head) = []) :
    (rcRecoverLog k.log endOff k.commit m).Sound committed := by
  refine { h with
    commit_le := (Nat.min_le_left _ _).trans hk.commit_le
    commit_le_log := ?_
    agrees := fun p hp => ?_
    fresh := nofun }
  · show min k.commit endOff ≤
      (replicate m.head Entry.blank ++ (k.log.take endOff).drop m.head).length
    rw [length_append, length_replicate, length_drop, length_take]
    omega
  · have hp : p < min k.commit endOff := hp
    show commandAt (replicate m.head Entry.blank ++ (k.log.take endOff).drop m.head) p = _
    rcases Nat.lt_or_ge p m.head with hlt | hge
    · rw [commandAt_append_left _ (by rwa [length_replicate]),
        commandAt_of_commands_take_eq_nil hf hlt, commandAt,
        List.getElem?_replicate_of_lt hlt]
      rfl
    · rw [← hk.agrees p (hp.trans_le (Nat.min_le_left _ _)), commandAt, commandAt,
        List.getElem?_append_right (by rwa [length_replicate]), length_replicate,
        List.getElem?_drop, Nat.add_sub_cancel' hge,
        List.getElem?_take_of_lt (hp.trans_le (Nat.min_le_right _ _))]

theorem State.Sound.act {s : State} (h : s.Sound) {e : Event} {m : Server}
    (hp : e.inPhase (s.servers e.server).phase)
    (hact : act s (s.servers e.server) e = some m) (hc : faithful s e) :
    m.Sound (committedAfter s e) := by
  have hm := h.servers e.server
  cases e with
  | append i e | extend i k n =>
    obtain ⟨-, rfl⟩ := guarded_eq_some.mp hact
    exact hm.append _
  | truncate i offset =>
    obtain ⟨⟨-, ho⟩, rfl⟩ := guarded_eq_some.mp hact
    exact hm.truncate ho
  | commit i offset =>
    obtain ⟨⟨-, hlog⟩, rfl⟩ := guarded_eq_some.mp hact
    exact hm.commitTo hlog hc
  | apply i => exact hm.apply hp hact hc
  | elect i | stepDown i =>
    cases hact
    exact { hm with }
  | prune i offset =>
    obtain ⟨-, rfl⟩ := guarded_eq_some.mp hact
    exact { hm with }
  | joinReply i =>
    obtain ⟨-, rfl⟩ := guarded_eq_some.mp hact
    exact hm
  | smRequest i found =>
    obtain ⟨-, rfl⟩ := guarded_eq_some.mp hact
    exact hm.smRequest found
  | join i head =>
    obtain ⟨-, rfl⟩ := guarded_eq_some.mp hact
    exact .joining _ _
  | recoverSm i x =>
    obtain ⟨hx, hr⟩ := ite_none_right_eq_some.mp hact
    obtain ⟨hre, hle⟩ := h.snapshots x hx
    exact hm.recoverSm hre hle hc hp hr
  | recoverLog i k endOff =>
    obtain ⟨⟨-, hend⟩, rfl⟩ := guarded_eq_some.mp hact
    exact hm.recoverLog (h.servers k) hend hc
  | fail i =>
    cases hact
    exact { hm with fresh := nofun }

theorem committedAfter_eq_append (s : State) (e : Event) :
    ∃ rest, committedAfter s e = s.committed ++ rest := by
  cases e with
  | commit i offset => exact ⟨_, rfl⟩
  | _ => exact ⟨[], (List.append_nil _).symm⟩

theorem mem_snapshotsAfter {s : State} (h : s.Sound) {e : Event} (hc : faithful s e)
    {x : Snapshot} (hx : x ∈ snapshotsAfter s e) :
    x.records = [] ∧ x.lastEntry ≤ s.committed.length := by
  cases e with
  | smRequest i found =>
    have hn : (s.servers i).snapshot = none := hc
    rw [snapshotsAfter, pollSmRequest, hn, mem_append, mem_singleton] at hx
    rcases hx with hx | rfl
    · exact h.snapshots x hx
    · exact ⟨(h.servers i).db, (h.servers i).lastAppliedEntry_le⟩
  | _ => exact h.snapshots x hx

theorem State.Sound.step {s t : State} (h : s.Sound) {e : Event} (hc : faithful s e)
    (hs : groupStep s e = some t) : t.Sound := by
  obtain ⟨hp, m, hact, rfl⟩ := groupStep_eq_some hs
  obtain ⟨rest, hrest⟩ := committedAfter_eq_append s e
  constructor
  · intro i
    by_cases hi : i = e.server
    · subst hi
      show (Function.update s.servers e.server m e.server).Sound _
      rw [update_self]
      exact h.act hp hact hc
    · show (Function.update s.servers e.server m i).Sound (committedAfter s e)
      rw [update_of_ne hi, hrest]
      exact (h.servers i).mono rest
  · intro x hx
    obtain ⟨hr, hle⟩ := mem_snapshotsAfter h hc hx
    refine ⟨hr, hle.trans ?_⟩
    show s.committed.length ≤ (committedAfter s e).length
    rw [hrest]
    simp

theorem sound_start (size : ℕ) : (start size).Sound where
  servers _ :=
    { Server.Sound.joining [] 0 with
      fresh := fun _ => rfl
      handed := nofun }
  snapshots := nofun

theorem sound_of_run {size : ℕ} {s : State} (hrun : group.Run faithful (start size) s) :
    s.Sound :=
  Run.invariant hrun (sound_start size) fun _ _ _ h hc hs => h.step hc hs

/-! ### The commands of a recovered server -/

theorem exists_applied {m : Server} (hlt : m.apply < m.commit) (hlog : m.commit ≤ m.log.length) :
    ∃ m', applyCommittedEntry m = some m' ∧ m'.apply = m.apply + 1 ∧ m'.commit = m.commit ∧
      m'.phase = m.phase ∧ m'.leader = m.leader ∧ m'.joined = m.joined := by
  have hsome := applyCommittedEntry_eq hlt (List.getElem?_eq_getElem (hlt.trans_le hlog))
  refine ⟨_, hsome, ?_⟩
  split <;> exact ⟨rfl, rfl, rfl, rfl, rfl⟩

theorem exists_run_applied {s : State} (h : s.Sound) {i : ℕ}
    (hr : (s.servers i).phase = .running) (hf : (s.servers i).leader = false)
    (hle : (s.servers i).apply ≤ (s.servers i).commit) :
    ∃ t, group.Run faithful s t ∧ t.committed = s.committed ∧
      (t.servers i).joined = (s.servers i).joined ∧
      (t.servers i).apply = (s.servers i).commit := by
  obtain ⟨n, hn⟩ := Nat.exists_eq_add_of_le hle
  induction n generalizing s with
  | zero => exact ⟨s, .refl, rfl, rfl, hn.symm⟩
  | succ n ih =>
    obtain ⟨m, hm, ha, hco, hp, hld, hj⟩ :=
      exists_applied (m := s.servers i) (by omega) (h.servers i).commit_le_log
    have hcn : faithful s (.apply i) := fun _ hl => by rw [hf] at hl; cases hl
    obtain ⟨s', hst, hs, hsa⟩ : ∃ s', groupStep s (.apply i) = some s' ∧
        s'.servers i = m ∧ s'.committed = s.committed := by
      refine ⟨_, (if_pos hr).trans (map_eq_some_iff.mpr ⟨m, hm, rfl⟩), ?_, rfl⟩
      exact update_self ..
    obtain ⟨t, hrun, hc, hj', ha'⟩ := ih (h.step hcn hst)
      (by rw [hs, hp, hr]) (by rw [hs, hld, hf])
      (by rw [hs, ha, hco]; omega) (by rw [hs, ha, hco]; omega)
    rw [hs] at hj' ha'
    exact ⟨t, .cons _ hcn hst hrun, hc.trans hsa, hj'.trans hj,
      ha'.trans hco⟩

/-- A server that has joined and recovered has handed on the commands committed in front of its
apply offset, each once; its committed entries hold the commands that were committed, and as a
follower it comes to hand them on. -/
theorem recovery_loses_nothing {size : ℕ} {s : State}
    (hrun : group.Run faithful (start size) s) {i : ℕ} (hjoined : (s.servers i).joined = true)
    (hrunning : (s.servers i).phase = .running) :
    (s.servers i).handed = commands (s.committed.take (s.servers i).apply) ∧
      commands ((s.servers i).log.take (s.servers i).commit) =
        commands (s.committed.take (s.servers i).commit) ∧
      ((s.servers i).leader = false → (s.servers i).apply ≤ (s.servers i).commit →
        ∃ t, group.Run faithful s t ∧ t.committed = s.committed ∧
          (t.servers i).handed = commands (s.committed.take (s.servers i).commit)) := by
  have hsound := sound_of_run hrun
  have hi := hsound.servers i
  refine ⟨(hi.handed hjoined).1, commands_take_congr hi.agrees, fun hfollower hle => ?_⟩
  obtain ⟨t, hrun', hcommitted, hjoined', happly⟩ :=
    exists_run_applied hsound hrunning hfollower hle
  refine ⟨t, hrun', hcommitted, ?_⟩
  have ht := (sound_of_run (hrun.trans hrun')).servers i
  rw [(ht.handed (hjoined'.trans hjoined)).1, hcommitted, happly]

/-! ### Runs -/

def packet (idx : ℕ) : Entry :=
  { Entry.blank with idx := idx, term := 1, cltId := 7, type := .mirror }

/-- Server 3 joins after a blank entry was committed and takes over the state machine of server 1;
then a packet is committed. -/
def joinEvents : List Event :=
  [.elect 0, .append 0 .blank, .commit 0 1, .extend 1 0 1, .commit 1 1, .apply 1, .joinReply 0,
    .join 3 0, .smRequest 1 ⟨[], 0⟩, .recoverSm 3 ⟨[], 0⟩, .recoverLog 3 0 1,
    .append 0 (packet 2), .extend 3 0 1, .commit 0 2, .commit 3 2, .apply 3, .apply 3]

theorem recovery_loses_nothing_joined :
    ∃ s, group.Run faithful (start 3) s ∧ (s.servers 3).joined = true ∧
      (s.servers 3).phase = .running ∧ s.committed = [Entry.blank, packet 2] ∧
      (s.servers 3).apply = 2 ∧
      (s.servers 3).handed = commands (s.committed.take (s.servers 3).apply) := by
  obtain ⟨s, hrun, hjoined, hrunning, hcommitted, happly⟩ :=
    System.exists_run_of_exec (M := group) (s := start 3) faithful
      (p := fun s => (s.servers 3).joined = true ∧ (s.servers 3).phase = .running ∧
        s.committed = [Entry.blank, packet 2] ∧ (s.servers 3).apply = 2)
      joinEvents (by decide +kernel)
  exact ⟨s, hrun, hjoined, hrunning, hcommitted, happly,
    (recovery_loses_nothing hrun hjoined hrunning).1⟩

/-- The packet was committed and applied before server 3 joined. The snapshot holds no record of it,
and the apply offset of server 3 is set behind it. -/
theorem recovery_loses_packet :
    ∃ s, group.Run anyStep (start 3) s ∧ (s.servers 3).joined = true ∧
      (s.servers 3).phase = .running ∧ (s.servers 3).leader = false ∧
      s.committed = [packet 1] ∧ (s.servers 3).log = [packet 1] ∧
      (s.servers 3).commit = 1 ∧ (s.servers 3).apply = 1 ∧ (s.servers 3).handed = [] :=
  System.exists_run_of_exec (M := group) (s := start 3) anyStep
    (p := fun s => (s.servers 3).joined = true ∧
      (s.servers 3).phase = .running ∧ (s.servers 3).leader = false ∧
      s.committed = [packet 1] ∧ (s.servers 3).log = [packet 1] ∧
      (s.servers 3).commit = 1 ∧ (s.servers 3).apply = 1 ∧ (s.servers 3).handed = [])
    [.elect 0, .append 0 (packet 1), .extend 1 0 1, .commit 0 1, .commit 1 1, .apply 1,
      .joinReply 0, .join 3 0, .smRequest 1 ⟨[], 0⟩, .recoverSm 3 ⟨[], 1⟩, .recoverLog 3 0 1]
    (by decide +kernel)

end VmFt.Dare.SmRecovery
