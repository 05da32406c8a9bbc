import Mathlib.Data.List.AList
import Mathlib.Logic.Function.Basic

/-! # Hash tables with chains

A table has a chain of entries for each value of the hash function, and a key is at
most once in a chain. The value of a key is looked up in the chain of its hash, so a
change of that chain at the key is a change of the map at the key.
-/

namespace VmFt

abbrev Chain (κ ν : Type*) := AList fun _ : κ => ν

namespace Chain

variable {κ ν : Type*} [DecidableEq κ] {a b : κ} {v : ν}

theorem dlookup_kreplace (l : List (Sigma fun _ : κ => ν)) : (l.kreplace a v).dlookup b =
    if b = a then (l.dlookup b).map fun _ => v else l.dlookup b := by
  unfold List.kreplace
  induction l with
  | nil => simp
  | cons e l ih =>
    obtain ⟨c, w⟩ := e
    rw [List.lookmap_cons]
    by_cases hac : a = c
    · subst hac
      rw [if_pos rfl]
      by_cases hba : b = a
      · subst hba
        simp
      · simp [List.dlookup_cons_ne, hba]
    · rw [if_neg hac]
      by_cases hbc : b = c
      · subst hbc
        simp [Ne.symm hac]
      · simpa [List.dlookup_cons_ne, hbc] using ih

theorem lookup_replace (c : Chain κ ν) : (c.replace a v).lookup b =
    if b = a then (c.lookup b).map fun _ => v else c.lookup b :=
  dlookup_kreplace c.entries

end Chain

namespace Buckets

open Function

variable {β κ ν : Type*} [DecidableEq β] [DecidableEq κ] (h : κ → β) (t : β → Chain κ ν) (k : κ)

def find : Option ν := (t (h k)).lookup k

/-- The table with another chain for the hash of `k`. -/
def set (c : Chain κ ν) : β → Chain κ ν := update t (h k) c

variable {h t k}

theorem find_set {c : Chain κ ν} {r : Option ν} (hk : c.lookup k = r)
    (hne : ∀ l ≠ k, c.lookup l = (t (h k)).lookup l) :
    find h (set h t k c) = update (find h t) k r := by
  funext l
  by_cases hl : l = k
  · subst hl
    simp [find, set, hk]
  · by_cases hh : h l = h k
    · simp [find, set, hh, hl, hne l hl]
    · simp [find, set, hh, hl]

theorem find_insert (v : ν) :
    find h (set h t k ((t (h k)).insert k v)) = update (find h t) k (some v) :=
  find_set (AList.lookup_insert _) fun _ hl => AList.lookup_insert_ne hl

theorem find_erase : find h (set h t k ((t (h k)).erase k)) = update (find h t) k none :=
  find_set (AList.lookup_erase k _) fun _ hl => AList.lookup_erase_ne hl

theorem find_replace (v : ν) : find h (set h t k ((t (h k)).replace k v)) =
    update (find h t) k ((find h t k).map fun _ => v) := by
  refine find_set ?_ fun l hl => ?_
  · rw [Chain.lookup_replace, if_pos rfl]
    rfl
  · rw [Chain.lookup_replace, if_neg hl]

end Buckets

end VmFt
