import Mathlib.Algebra.Ring.Nat
import Mathlib.Data.List.Basic
import Mathlib.Data.List.GetD

/-! # Byte memory

Memory as a function from offsets to bytes. Numbers are kept little-endian;
a store writes a list of bytes, a copy takes a range over from another memory.
-/

namespace VmFt

/-- The bytes at the offsets of a buffer. -/
abbrev Memory : Type := ℕ → UInt8

namespace Memory

/-- The bytes `bytes` written from the offset `off` on. -/
def store (m : Memory) (off : ℕ) (bytes : List UInt8) : Memory := fun x =>
  if off ≤ x ∧ x < off + bytes.length then bytes.getD (x - off) 0 else m x

/-- The `n` bytes from the offset `off` on taken over from `src`. -/
def copy (m src : Memory) (off n : ℕ) : Memory := fun x =>
  if off ≤ x ∧ x < off + n then src x else m x

/-- The number in the `n` bytes from the offset `off` on. -/
def load (m : Memory) : ℕ → ℕ → ℕ
  | 0, _ => 0
  | n + 1, off => (m off).toNat + 256 * load m n (off + 1)

/-- The `n` bytes from the offset `off` on. -/
def read (m : Memory) : ℕ → ℕ → List UInt8
  | 0, _ => []
  | n + 1, off => m off :: read m n (off + 1)

/-- The `n` bytes of a number. -/
def bytesOf : ℕ → ℕ → List UInt8
  | 0, _ => []
  | n + 1, v => UInt8.ofNat v :: bytesOf n (v / 256)

def ofBytes : List UInt8 → ℕ
  | [] => 0
  | b :: bytes => b.toNat + 256 * ofBytes bytes

variable {m src : Memory} {off n x : ℕ} {bytes : List UInt8}

@[simp]
theorem length_bytesOf (n v : ℕ) : (bytesOf n v).length = n := by
  induction n generalizing v with
  | zero => rfl
  | succ n ih => simp [bytesOf, ih]

theorem ofBytes_bytesOf (n v : ℕ) : ofBytes (bytesOf n v) = v % 256 ^ n := by
  induction n generalizing v with
  | zero => simp [bytesOf, ofBytes, Nat.mod_one]
  | succ n ih => rw [bytesOf, ofBytes, ih, Nat.pow_succ', Nat.mod_mul, UInt8.toNat_ofNat']

theorem load_lt (m : Memory) (n off : ℕ) : load m n off < 256 ^ n := by
  induction n generalizing off with
  | zero => simp [load]
  | succ n ih =>
    have hb : (m off).toNat < 256 := (m off).toNat_lt
    have hrest := ih (off + 1)
    simp only [load, Nat.pow_succ]
    omega

theorem load_congr {m' : Memory} (h : ∀ y, off ≤ y → y < off + n → m y = m' y) :
    load m n off = load m' n off := by
  induction n generalizing off with
  | zero => rfl
  | succ n ih =>
    simp only [load]
    rw [h off (Nat.le_refl _) (by omega), ih fun y hy hy' => h y (by omega) (by omega)]

theorem store_of_outside (h : x < off ∨ off + bytes.length ≤ x) : m.store off bytes x = m x := by
  unfold store
  rw [if_neg (by omega)]

theorem store_add {k : ℕ} (hk : k < bytes.length) :
    m.store off bytes (off + k) = bytes.getD k 0 := by
  unfold store
  rw [if_pos (by omega), Nat.add_sub_cancel_left]

@[simp]
theorem store_nil (m : Memory) (off : ℕ) : m.store off [] = m := by
  funext x
  exact store_of_outside (by simp; omega)

theorem store_store_append (m : Memory) (off : ℕ) (bytes bytes' : List UInt8) :
    (m.store off bytes).store (off + bytes.length) bytes' = m.store off (bytes ++ bytes') := by
  funext x
  unfold store
  rw [List.length_append]
  split_ifs with hr hall hl
  · rw [List.getD_append_right _ _ _ _ (by omega)]
    exact congrArg (bytes'.getD · 0) (by omega)
  · omega
  · rw [List.getD_append _ _ _ _ (by omega)]
  · omega
  · omega
  · rfl

theorem load_of_bytesOf {v : ℕ} (h : ∀ k < n, m (off + k) = (bytesOf n v).getD k 0) :
    load m n off = v % 256 ^ n := by
  induction n generalizing off v with
  | zero => simp [load, Nat.mod_one]
  | succ n ih =>
    have hfirst : m off = UInt8.ofNat v := by simpa [bytesOf] using h 0 (by omega)
    have hrest : load m n (off + 1) = v / 256 % 256 ^ n := by
      refine ih fun k hk => ?_
      have := h (k + 1) (by omega)
      simpa [bytesOf, Nat.add_comm, Nat.add_left_comm] using this
    rw [load, hfirst, hrest, Nat.pow_succ', Nat.mod_mul, UInt8.toNat_ofNat']

theorem load_store (m : Memory) (n off v : ℕ) :
    load (m.store off (bytesOf n v)) n off = v % 256 ^ n :=
  load_of_bytesOf fun k hk => store_add (by simpa using hk)

theorem load_store_of_disjoint {off' : ℕ} (h : off' + n ≤ off ∨ off + bytes.length ≤ off') :
    load (m.store off bytes) n off' = load m n off' :=
  load_congr fun _ hy hy' => store_of_outside (by omega)

theorem read_congr {m' : Memory} (h : ∀ y, off ≤ y → y < off + n → m y = m' y) :
    read m n off = read m' n off := by
  induction n generalizing off with
  | zero => rfl
  | succ n ih =>
    simp only [read]
    rw [h off (Nat.le_refl _) (by omega), ih fun y hy hy' => h y (by omega) (by omega)]

theorem read_store (m : Memory) (off : ℕ) (bytes : List UInt8) :
    read (m.store off bytes) bytes.length off = bytes := by
  suffices h : ∀ m' : Memory, (∀ k < bytes.length, m' (off + k) = bytes.getD k 0) →
      read m' bytes.length off = bytes from h _ fun _ hk => store_add hk
  intro m' h
  induction bytes generalizing off with
  | nil => rfl
  | cons b bytes ih =>
    simp only [List.length_cons, read]
    have hfirst : m' off = b := by simpa using h 0 (by simp)
    rw [hfirst, ih (off + 1)]
    intro k hk
    have := h (k + 1) (by simpa using hk)
    simpa [Nat.add_comm, Nat.add_left_comm] using this

theorem load_eq_ofBytes (m : Memory) (n off : ℕ) : load m n off = ofBytes (read m n off) := by
  induction n generalizing off with
  | zero => rfl
  | succ n ih => rw [load, read, ofBytes, ih]

@[simp]
theorem length_read (m : Memory) (n off : ℕ) : (read m n off).length = n := by
  induction n generalizing off with
  | zero => rfl
  | succ n ih => simp [read, ih]

theorem read_add (m : Memory) (n k off : ℕ) :
    read m (n + k) off = read m n off ++ read m k (off + n) := by
  induction n generalizing off with
  | zero => simp [read]
  | succ n ih => simp [read, ih, Nat.succ_add, Nat.add_assoc]

theorem getD_read (m : Memory) {n k : ℕ} (off : ℕ) (hk : k < n) :
    (m.read n off).getD k 0 = m (off + k) := by
  induction n generalizing off k with
  | zero => exact absurd hk (Nat.not_lt_zero _)
  | succ n ih =>
    cases k with
    | zero => rfl
    | succ k =>
      rw [Memory.read, List.getD_cons_succ, ih (off + 1) (by omega), Nat.add_right_comm,
        Nat.add_assoc]

theorem take_drop_read (m : Memory) {n i k : ℕ} (off : ℕ) (h : i + k ≤ n) :
    ((m.read n off).drop i).take k = m.read k (off + i) := by
  obtain ⟨l, rfl⟩ : ∃ l, n = i + (k + l) := ⟨n - i - k, by omega⟩
  rw [read_add, read_add, List.drop_left' (length_read ..), List.take_left' (length_read ..)]

theorem read_store_append (m : Memory) (n : ℕ) (bytes : List UInt8) :
    read (m.store n bytes) (n + bytes.length) 0 = read m n 0 ++ bytes := by
  rw [read_add, Nat.zero_add, read_store]
  exact congrArg (· ++ bytes) (read_congr fun _ _ hy => store_of_outside (by omega))

theorem copy_of_inside (h : off ≤ x ∧ x < off + n) : m.copy src off n x = src x :=
  if_pos h

theorem copy_eq_of_eq (h : m x = src x) : m.copy src off n x = src x := by
  unfold copy
  split
  · rfl
  · exact h

end Memory

end VmFt
