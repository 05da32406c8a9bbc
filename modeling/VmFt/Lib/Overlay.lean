import Mathlib.Data.Option.Basic
import Mathlib.Order.Notation

/-! # Layers over a disk

An overlay holds the content of some places and shows what is below it everywhere
else. Discarding places of an overlay changes nothing in what is seen if and only
if they held what is below them.
-/

namespace VmFt.Overlay

variable {ι β : Type*}

def overlay (top : ι → Option β) (base : ι → β) : ι → β := fun x => (top x).getD (base x)

def discard (gone : ι → Bool) (top : ι → Option β) : ι → Option β := fun x =>
  if gone x then none else top x

def write (place : ι → Bool) (data : ι → β) (top : ι → Option β) : ι → Option β := fun x =>
  if place x then some (data x) else top x

variable {gone place : ι → Bool} {top : ι → Option β} {base : ι → β}

theorem overlay_discard_apply_eq_iff {x : ι} :
    overlay top base x = overlay (discard gone top) base x ↔
      ∀ v, gone x = true → top x = some v → v = base x := by
  cases hg : gone x <;> cases htop : top x <;> simp [overlay, discard, hg, htop]

theorem overlay_discard_eq_iff : overlay (discard gone top) base = overlay top base ↔
      ∀ x v, gone x = true → top x = some v → v = base x := by
  rw [eq_comm, funext_iff]
  exact forall_congr' fun _ => overlay_discard_apply_eq_iff

theorem overlay_eq_iff {seen : ι → β} : overlay top base = seen ↔
      (∀ x v, top x = some v → v = seen x) ∧ ∀ x, top x = none → base x = seen x := by
  constructor
  · rintro rfl
    constructor
    · intro x v htop
      simp [overlay, htop]
    · intro x htop
      simp [overlay, htop]
  · rintro ⟨hsome, hn⟩
    ext x
    cases htop : top x with
    | none => simp [overlay, htop, hn x htop]
    | some v => simp [overlay, htop, hsome x v htop]

theorem overlay_write_base (h : ∀ x v, place x = true → top x = some v → v = base x) :
    overlay (write place base top) base = overlay top base := by
  ext x
  by_cases hp : place x = true
  · cases htop : top x with
    | none => simp [overlay, write, hp, htop]
    | some v => simp [overlay, write, hp, htop, h x v hp htop]
  · simp [overlay, write, hp]

theorem overlay_congr {base' : ι → β} (h : ∀ x, top x = none → base' x = base x) :
    overlay top base' = overlay top base := by
  ext x
  cases htop : top x with
  | none => simp [overlay, htop, h x htop]
  | some v => simp [overlay, htop]

end VmFt.Overlay
