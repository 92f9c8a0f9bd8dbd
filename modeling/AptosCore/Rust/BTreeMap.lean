import Mathlib

/-!
# `BTreeMap` as a sorted association list

A map is the list of its entries in increasing order of keys. `insert` replaces the value of a
key that is there and otherwise puts the entry in its place, so the keys stay strictly
increasing (`keysSorted_insert`), and an entry of a new key joins the others
(`insert_perm`): a map built from entries of distinct keys holds exactly those entries, in the
order of their keys.
-/

namespace AptosCore.Rust.BTreeMap

variable {κ β : Type}

section Operations

variable [DecidableEq κ] [LT κ] [DecidableLT κ]

/-- `BTreeMap::insert`: an entry of the same key is replaced. -/
def insert (key : κ) (value : β) : List (κ × β) → List (κ × β)
  | [] => [(key, value)]
  | (k, v) :: rest =>
    if key = k then (key, value) :: rest
    else if key < k then (key, value) :: (k, v) :: rest
    else (k, v) :: insert key value rest

def get (key : κ) (map : List (κ × β)) : Option β :=
  (map.find? (·.1 = key)).map (·.2)

/-- `BTreeMap::remove`: the entries that remain. -/
def erase (key : κ) (map : List (κ × β)) : List (κ × β) :=
  map.filter (·.1 ≠ key)

end Operations

section Sorted

variable [LinearOrder κ] {key : κ} {value : β} {map : List (κ × β)}

/-- The keys of a map are strictly increasing. -/
def KeysSorted (map : List (κ × β)) : Prop :=
  map.Pairwise fun entry entry' ↦ entry.1 < entry'.1

theorem mem_insert {entry : κ × β} (hentry : entry ∈ insert key value map) :
    entry = (key, value) ∨ entry ∈ map := by
  induction map with
  | nil => simpa [insert] using hentry
  | cons head rest ih =>
    obtain ⟨k, v⟩ := head
    unfold insert at hentry
    split_ifs at hentry
    · exact (List.mem_cons.mp hentry).imp_right (List.mem_cons_of_mem _)
    · exact List.mem_cons.mp hentry
    · rcases List.mem_cons.mp hentry with rfl | hrest
      · exact .inr List.mem_cons_self
      · exact (ih hrest).imp_right (List.mem_cons_of_mem _)

theorem keysSorted_insert (hsorted : KeysSorted map) : KeysSorted (insert key value map) := by
  induction map with
  | nil => simp [insert, KeysSorted]
  | cons head rest ih =>
    obtain ⟨k, v⟩ := head
    rw [KeysSorted, List.pairwise_cons] at hsorted
    unfold insert
    split_ifs with hsame hlt
    · subst hsame
      exact List.pairwise_cons.mpr hsorted
    · refine List.pairwise_cons.mpr ⟨fun entry hentry ↦ ?_, List.pairwise_cons.mpr hsorted⟩
      rcases List.mem_cons.mp hentry with rfl | hrest
      · exact hlt
      · exact hlt.trans (hsorted.1 entry hrest)
    · refine List.pairwise_cons.mpr ⟨fun entry hentry ↦ ?_, ih hsorted.2⟩
      rcases mem_insert hentry with rfl | hrest
      · exact lt_of_le_of_ne (not_lt.mp hlt) (Ne.symm hsame)
      · exact hsorted.1 entry hrest

theorem insert_perm (hnew : key ∉ map.map Prod.fst) :
    (insert key value map).Perm ((key, value) :: map) := by
  induction map with
  | nil => exact List.Perm.refl _
  | cons head rest ih =>
    obtain ⟨k, v⟩ := head
    have hne : key ≠ k := fun hsame ↦ hnew (by simp [hsame])
    have hrest : key ∉ rest.map Prod.fst := fun hmem ↦ hnew (List.mem_cons_of_mem _ hmem)
    unfold insert
    rw [if_neg hne]
    split_ifs
    · exact List.Perm.refl _
    · exact ((ih hrest).cons (k, v)).trans (List.Perm.swap _ _ _)

end Sorted

end AptosCore.Rust.BTreeMap
