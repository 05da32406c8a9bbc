import VmFt.Lib.Buckets

/-! # The key-value store

The state machine of a server is a hash table with chains, and a command carries the
outcomes of its allocations. Whatever the size of the table and whichever allocations
fail, the table answers as a map from keys to blobs does.
-/

namespace VmFt.Dare.Kvs

open Function

def defaultKvsSize : UInt32 := 1024

def keySize : ℕ := 64

/-- The string in a `key[KEY_SIZE]`, which ends with a zero. -/
structure Key where
  chars : List UInt8
  nonzero : 0 ∉ chars
  fits : chars.length < keySize
deriving DecidableEq

structure KvsBlob where
  len : ℕ
  data : Option (List UInt8)
  sized : ∀ d ∈ data, d.length = len

namespace KvsBlob

def of (data : List UInt8) : KvsBlob := ⟨data.length, some data, by simp⟩

/-- `memcpy` out of the blob, with no result if bytes are read from a null pointer. -/
def read (b : KvsBlob) : Option (List UInt8) := if b.len = 0 then some [] else b.data

/-- What `write_key` makes of a blob that is there, and its result. -/
def overwrite (b : KvsBlob) (data : List UInt8) (blobOk : Bool) : Option (KvsBlob × ℕ) :=
  if b.len ≠ data.length then
    -- When `realloc` fails, the new length stays with the null pointer.
    some (if blobOk then (of data, 0) else (⟨data.length, none, by simp⟩, 1))
  else if b.len = 0 then some (b, 0)
  else b.data.map fun _ => (of data, 0)

end KvsBlob

structure KvsTable where
  size : UInt32
  ne_zero : size ≠ 0
  table : Fin size.toNat → Chain Key KvsBlob

inductive KvsCmd
  | put (key : Key) (data : List UInt8) (entryOk blobOk : Bool)
  | get (key : Key)
  | rm (key : Key)
  | unknown

/-- The result of `apply_kvs_cmd`, and the data that a read gives to the client. -/
structure Reply where
  rc : ℕ
  data : Option (List UInt8)
deriving DecidableEq, Repr

theorem toNat_mod_lt (h : UInt32) {size : UInt32} (hs : size ≠ 0) :
    (h % size).toNat < size.toNat := by
  rw [UInt32.toNat_mod]
  exact Nat.mod_lt _ (Nat.pos_of_ne_zero fun h0 => hs (UInt32.toNat_inj.mp h0))

theorem ite_default_ne_zero (size : UInt32) : (if size = 0 then defaultKvsSize else size) ≠ 0 := by
  split
  · decide
  · assumption

def createKvsSm (size : UInt32) (smOk tableOk : Bool) : Option KvsTable :=
  if smOk && tableOk then
    some ⟨if size = 0 then defaultKvsSize else size, ite_default_ne_zero size, fun _ => ∅⟩
  else none

namespace KvsTable

/-- A character is signed, so it is extended by its sign. -/
def hash (t : KvsTable) (key : Key) : Fin t.size.toNat :=
  let hashval : UInt32 :=
    key.chars.foldl (fun h c => c.toInt8.toInt32.toUInt32 + (h <<< 5) - h) 0
  ⟨(hashval % t.size).toNat, toNat_mod_lt hashval t.ne_zero⟩

def lookupKey (t : KvsTable) : Key → Option KvsBlob := Buckets.find t.hash t.table

def setChain (t : KvsTable) (key : Key) (f : Chain Key KvsBlob → Chain Key KvsBlob) : KvsTable :=
  { t with table := Buckets.set t.hash t.table key (f (t.table (t.hash key))) }

def removeKey (t : KvsTable) (key : Key) : KvsTable := t.setChain key (·.erase key)

def writeKey (t : KvsTable) (key : Key) (data : List UInt8) (entryOk blobOk : Bool) :
    Option (KvsTable × ℕ) :=
  match t.lookupKey key with
  | some b => (b.overwrite data blobOk).map fun p => (t.setChain key (·.replace key p.1), p.2)
  | none =>
    -- The key is not in its chain, so this puts the entry in front of it.
    if entryOk && blobOk then some (t.setChain key (·.insert key (.of data)), 0) else some (t, 1)

def applyKvsCmd (t : KvsTable) : KvsCmd → Option (KvsTable × Reply)
  | .put key data entryOk blobOk =>
    (t.writeKey key data entryOk blobOk).map fun p => (p.1, ⟨p.2, none⟩)
  | .get key => ((t.lookupKey key).elim (some []) KvsBlob.read).map fun d => (t, ⟨0, some d⟩)
  | .rm key => some (t.removeKey key, ⟨0, none⟩)
  | .unknown => some (t, ⟨1, none⟩)

end KvsTable

/-! ### The store as a map -/

abbrev Store := Key → Option KvsBlob

namespace Store

def write (m : Store) (key : Key) (data : List UInt8) (entryOk blobOk : Bool) :
    Option (Store × ℕ) :=
  match m key with
  | some b => (b.overwrite data blobOk).map fun p => (update m key (some p.1), p.2)
  | none => if entryOk && blobOk then some (update m key (some (.of data)), 0) else some (m, 1)

def apply (m : Store) : KvsCmd → Option (Store × Reply)
  | .put key data entryOk blobOk =>
    (m.write key data entryOk blobOk).map fun p => (p.1, ⟨p.2, none⟩)
  | .get key => ((m key).elim (some []) KvsBlob.read).map fun d => (m, ⟨0, some d⟩)
  | .rm key => some (update m key none, ⟨0, none⟩)
  | .unknown => some (m, ⟨1, none⟩)

end Store

/-- The replies to a list of commands; the last one is missing if it goes through a null pointer. -/
def replies {σ : Type*} (step : σ → KvsCmd → Option (σ × Reply)) :
    σ → List KvsCmd → List (Option Reply)
  | _, [] => []
  | s, c :: cs => (step s c).elim [none] fun p => some p.2 :: replies step p.1 cs

theorem replies_eq {σ τ : Type*} {step : σ → KvsCmd → Option (σ × Reply)}
    {step' : τ → KvsCmd → Option (τ × Reply)} (f : σ → τ)
    (h : ∀ s c, (step s c).map (Prod.map f id) = step' (f s) c) (s : σ) (cs : List KvsCmd) :
    replies step s cs = replies step' (f s) cs := by
  induction cs generalizing s with
  | nil => rfl
  | cons c cs ih =>
    rw [replies, replies, ← h s c]
    cases step s c with
    | none => rfl
    | some p => exact congrArg (some p.2 :: ·) (ih p.1)

section Lookup

variable (t : KvsTable) (key : Key)

theorem lookupKey_insert (b : KvsBlob) :
    (t.setChain key (·.insert key b)).lookupKey = update t.lookupKey key (some b) :=
  Buckets.find_insert (h := t.hash) b

theorem lookupKey_removeKey : (t.removeKey key).lookupKey = update t.lookupKey key none :=
  Buckets.find_erase (h := t.hash)

theorem lookupKey_replace {b : KvsBlob} (h : t.lookupKey key = some b) (b' : KvsBlob) :
    (t.setChain key (·.replace key b')).lookupKey = update t.lookupKey key (some b') := by
  have hr := Buckets.find_replace (h := t.hash) (t := t.table) (k := key) b'
  rwa [show Buckets.find t.hash t.table key = some b from h] at hr

theorem writeKey_lookupKey (data : List UInt8) (entryOk blobOk : Bool) :
    (t.writeKey key data entryOk blobOk).map (Prod.map KvsTable.lookupKey id) =
      Store.write t.lookupKey key data entryOk blobOk := by
  unfold KvsTable.writeKey Store.write
  cases hb : t.lookupKey key with
  | none => by_cases ha : entryOk && blobOk <;> simp [ha, lookupKey_insert]
  | some b => simp [Option.map_map, comp_def, lookupKey_replace t key hb]

theorem applyKvsCmd_lookupKey (c : KvsCmd) :
    (t.applyKvsCmd c).map (Prod.map KvsTable.lookupKey id) = Store.apply t.lookupKey c := by
  cases c with
  | put key data entryOk blobOk =>
    rw [Store.apply, ← writeKey_lookupKey]
    simp [KvsTable.applyKvsCmd, Option.map_map, comp_def]
  | get key => simp [KvsTable.applyKvsCmd, Store.apply, Option.map_map, comp_def]
  | rm key => simp [KvsTable.applyKvsCmd, Store.apply, lookupKey_removeKey]
  | unknown => rfl

end Lookup

/-- Neither the size of the table nor a collision shows in what the clients are answered. -/
theorem replies_createKvsSm (size : UInt32) (smOk tableOk : Bool) (cs : List KvsCmd) :
    (createKvsSm size smOk tableOk).map (replies KvsTable.applyKvsCmd · cs) =
      if smOk && tableOk then some (replies Store.apply (fun _ => none) cs) else none := by
  unfold createKvsSm
  split
  · exact congrArg some (replies_eq KvsTable.lookupKey applyKvsCmd_lookupKey _ cs)
  · rfl

end VmFt.Dare.Kvs
