import Mathlib

/-!
# Find-or-insert updates of keyed lists

The update `entry(k).or_insert(d)` followed by a change of the entry, on a map, and the update
"change the first element found with key `k`, or push a fresh one and change it", on a vector,
are one operation on a list whose elements carry a key: `modifyFirst`. Looking up the key
afterwards finds the changed element (`findKey_modifyFirst_self`), other keys find what they
found before (`findKey_modifyFirst_of_ne`), and distinct keys stay distinct
(`nodup_map_modifyFirst`), as long as the change keeps the key.
-/

namespace AptosCore.Collections

variable {β κ : Type} [DecidableEq κ] (key : β → κ)

/-- Changes the first element with key `k` by `f`, or appends `f d` when there is none. -/
def modifyFirst (k : κ) (d : β) (f : β → β) : List β → List β
  | [] => [f d]
  | b :: rest => if key b = k then f b :: rest else b :: modifyFirst k d f rest

/-- The first element with key `k`. -/
def findKey (k : κ) (xs : List β) : Option β :=
  xs.find? fun b ↦ decide (key b = k)

variable {key}

@[simp] theorem modifyFirst_nil (k : κ) (d : β) (f : β → β) : modifyFirst key k d f [] = [f d] :=
  rfl

theorem modifyFirst_cons (k : κ) (d : β) (f : β → β) (b : β) (rest : List β) :
    modifyFirst key k d f (b :: rest) =
      if key b = k then f b :: rest else b :: modifyFirst key k d f rest := rfl

@[simp] theorem findKey_nil (k : κ) : findKey key k [] = none := rfl

theorem findKey_cons (k : κ) (b : β) (rest : List β) :
    findKey key k (b :: rest) = if key b = k then some b else findKey key k rest := by
  by_cases hkey : key b = k <;> simp [findKey, hkey]

/-- An element of the update is an old one, or the change of an old one or of `d`. -/
theorem mem_modifyFirst {k : κ} {d : β} {f : β → β} {xs : List β} {c : β}
    (hc : c ∈ modifyFirst key k d f xs) : c ∈ xs ∨ ∃ b, (b ∈ xs ∨ b = d) ∧ c = f b := by
  induction xs with
  | nil =>
    simp only [modifyFirst_nil, List.mem_singleton] at hc
    exact .inr ⟨d, .inr rfl, hc⟩
  | cons e others ih =>
    by_cases hek : key e = k
    · simp only [modifyFirst_cons, hek, if_true, List.mem_cons] at hc
      rcases hc with rfl | hc
      · exact .inr ⟨e, .inl List.mem_cons_self, rfl⟩
      · exact .inl (List.mem_cons_of_mem _ hc)
    · simp only [modifyFirst_cons, hek, if_false, List.mem_cons] at hc
      rcases hc with rfl | hc
      · exact .inl List.mem_cons_self
      · rcases ih hc with hold | ⟨b, hb, rfl⟩
        · exact .inl (List.mem_cons_of_mem _ hold)
        · refine .inr ⟨b, ?_, rfl⟩
          rcases hb with hb | rfl
          · exact .inl (List.mem_cons_of_mem _ hb)
          · exact .inr rfl

section Modify

variable {k : κ} {d : β} {f : β → β} (hf : ∀ b, key (f b) = key b)
include hf

/-- After the update, the key finds the changed element: the one found before, or `d`. -/
theorem findKey_modifyFirst_self (hd : key d = k) (xs : List β) :
    findKey key k (modifyFirst key k d f xs) = some (f ((findKey key k xs).getD d)) := by
  induction xs with
  | nil => simp [findKey_cons, hf, hd]
  | cons b rest ih =>
    by_cases hkey : key b = k
    · simp [modifyFirst_cons, findKey_cons, hkey, hf]
    · simp [modifyFirst_cons, findKey_cons, hkey, ih]

theorem findKey_modifyFirst_of_ne (hd : key d = k) {other : κ} (hne : other ≠ k) (xs : List β) :
    findKey key other (modifyFirst key k d f xs) = findKey key other xs := by
  induction xs with
  | nil => simp [findKey_cons, hf, hd, Ne.symm hne]
  | cons b rest ih =>
    by_cases hkey : key b = k
    · simp [modifyFirst_cons, findKey_cons, hkey, hf, Ne.symm hne]
    · simp only [modifyFirst_cons, hkey, if_false, findKey_cons, ih]

/-- Distinct keys stay distinct: an element is only appended for a key that was missing. -/
theorem nodup_map_modifyFirst (hd : key d = k) {xs : List β} (hnodup : (xs.map key).Nodup) :
    ((modifyFirst key k d f xs).map key).Nodup := by
  induction xs with
  | nil => simp
  | cons b rest ih =>
    rw [List.map_cons, List.nodup_cons] at hnodup
    by_cases hkey : key b = k
    · simpa [modifyFirst_cons, hkey, hf] using hnodup
    · have hkeys : key b ∉ (modifyFirst key k d f rest).map key := by
        intro hmem
        obtain ⟨c, hc, hcb⟩ := List.mem_map.mp hmem
        rcases mem_modifyFirst hc with hold | ⟨e, he, rfl⟩
        · exact hnodup.1 (hcb ▸ List.mem_map_of_mem hold)
        · rw [hf] at hcb
          rcases he with he | rfl
          · exact hnodup.1 (hcb ▸ List.mem_map_of_mem he)
          · exact hkey (hcb ▸ hd)
      simp only [modifyFirst_cons, hkey, if_false, List.map_cons, List.nodup_cons]
      exact ⟨hkeys, ih hnodup.2⟩

end Modify

theorem findKey_of_mem {xs : List β} (hnodup : (xs.map key).Nodup) {b : β} (hmem : b ∈ xs) :
    findKey key (key b) xs = some b := by
  induction xs with
  | nil => simp at hmem
  | cons c rest ih =>
    rw [List.map_cons, List.nodup_cons] at hnodup
    rcases List.mem_cons.mp hmem with rfl | hrest
    · simp [findKey_cons]
    · have hne : key c ≠ key b := fun h ↦ hnodup.1 (h ▸ List.mem_map_of_mem hrest)
      rw [findKey_cons, if_neg hne, ih hnodup.2 hrest]

end AptosCore.Collections
