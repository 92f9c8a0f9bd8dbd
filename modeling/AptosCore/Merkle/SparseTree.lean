import Mathlib

/-!
# Sparse Merkle trees

A sparse Merkle tree holds a finite set of entries `(key, value hash)` whose keys are read as bit
strings of a fixed `width`. The hash of a subtree (`subtreeHash`) is a placeholder when the
subtree is empty, the leaf hash of its entry when it holds one, and otherwise the internal hash
of its two halves, split on the next bit.

A path from a subtree root down to some node is given by the bits it follows and the sibling
hash at each level; `pathHash` recomputes the root from the hash at the end of the path. When
the hashes are collision free (`TreeHasher.CollisionFree`: leaf and internal hashes injective,
and the three kinds of hash pairwise distinct), a path that recomputes the canonical root
descends into the canonical tree level by level (`pathHash_eq_subtreeHash`), so the hash at its
end is the canonical hash of the subtree it reaches. A leaf hash there is the only entry below
the path; a placeholder there means there is none.
-/

namespace AptosCore.Merkle

/-- The three hash functions of a sparse Merkle tree. -/
structure TreeHasher (K H : Type) where
  leaf : K → H → H
  internal : H → H → H
  placeholder : H

/-- Collision freedom of a tree hasher. -/
structure TreeHasher.CollisionFree {K H : Type} (hasher : TreeHasher K H) : Prop where
  leaf_injective : ∀ key value key' value', hasher.leaf key value = hasher.leaf key' value' →
    key = key' ∧ value = value'
  internal_injective : ∀ left right left' right',
    hasher.internal left right = hasher.internal left' right' → left = left' ∧ right = right'
  leaf_ne_internal : ∀ key value left right, hasher.leaf key value ≠ hasher.internal left right
  leaf_ne_placeholder : ∀ key value, hasher.leaf key value ≠ hasher.placeholder
  internal_ne_placeholder : ∀ left right, hasher.internal left right ≠ hasher.placeholder

variable {K H : Type} (hasher : TreeHasher K H) (bit : K → Nat → Bool)

/-- The hash of the subtree at `depth` that holds `entries`, with `remaining` levels of key bits
below it. -/
def subtreeHash : (remaining depth : Nat) → List (K × H) → H
  | _, _, [] => hasher.placeholder
  | _, _, [(key, value)] => hasher.leaf key value
  | 0, _, _ => hasher.placeholder
  | remaining + 1, depth, entries =>
    hasher.internal
      (subtreeHash remaining (depth + 1) (entries.filter fun entry ↦ !bit entry.1 depth))
      (subtreeHash remaining (depth + 1) (entries.filter fun entry ↦ bit entry.1 depth))

/-- The root hash recomputed along a path: `bits` are the turns from the root down (`true` for
right), `siblings` the hash beside the path at each level, and `current` the hash at its end. -/
def pathHash : List Bool → List H → H → H
  | turn :: bits, sibling :: siblings, current =>
    if turn then hasher.internal sibling (pathHash bits siblings current)
    else hasher.internal (pathHash bits siblings current) sibling
  | _, _, current => current

/-- The entries below the path `bits` started at `depth`. -/
def belowPath : List Bool → Nat → List (K × H) → List (K × H)
  | [], _, entries => entries
  | turn :: bits, depth, entries =>
    belowPath bits (depth + 1) (entries.filter fun entry ↦ bit entry.1 depth == turn)

@[simp] theorem subtreeHash_nil (remaining depth : Nat) :
    subtreeHash hasher bit remaining depth [] = hasher.placeholder := by
  cases remaining <;> rfl

@[simp] theorem subtreeHash_singleton (remaining depth : Nat) (key : K) (value : H) :
    subtreeHash hasher bit remaining depth [(key, value)] = hasher.leaf key value := by
  cases remaining <;> rfl

theorem subtreeHash_zero_two (depth : Nat) (first second : K × H) (rest : List (K × H)) :
    subtreeHash hasher bit 0 depth (first :: second :: rest) = hasher.placeholder := rfl

theorem subtreeHash_succ_two (remaining depth : Nat) (first second : K × H)
    (rest : List (K × H)) :
    subtreeHash hasher bit (remaining + 1) depth (first :: second :: rest) =
      hasher.internal
        (subtreeHash hasher bit remaining (depth + 1)
          ((first :: second :: rest).filter fun entry ↦ !bit entry.1 depth))
        (subtreeHash hasher bit remaining (depth + 1)
          ((first :: second :: rest).filter fun entry ↦ bit entry.1 depth)) := rfl

theorem pathHash_cons_cons (turn : Bool) (bits : List Bool) (sibling : H) (siblings : List H)
    (current : H) :
    pathHash hasher (turn :: bits) (sibling :: siblings) current =
      if turn then hasher.internal sibling (pathHash hasher bits siblings current)
      else hasher.internal (pathHash hasher bits siblings current) sibling := rfl

@[simp] theorem belowPath_nil (depth : Nat) (entries : List (K × H)) :
    belowPath bit [] depth entries = entries := rfl

theorem belowPath_cons (turn : Bool) (bits : List Bool) (depth : Nat) (entries : List (K × H)) :
    belowPath bit (turn :: bits) depth entries =
      belowPath bit bits (depth + 1) (entries.filter fun entry ↦ bit entry.1 depth == turn) :=
  rfl

/-- `pathHash` as a fold from the end of the path up to the root. -/
theorem pathHash_eq_foldr (bits : List Bool) (siblings : List H) (current : H) :
    pathHash hasher bits siblings current =
      (siblings.zip bits).foldr
        (fun step hash ↦
          if step.2 then hasher.internal step.1 hash else hasher.internal hash step.1)
        current := by
  induction bits generalizing siblings with
  | nil => cases siblings <;> rfl
  | cons turn bits ih =>
    cases siblings with
    | nil => rfl
    | cons sibling siblings => simp [pathHash_cons_cons, ih]

/-! ## The entries below a path -/

theorem mem_belowPath {bits : List Bool} {depth : Nat} {entries : List (K × H)}
    {entry : K × H} :
    entry ∈ belowPath bit bits depth entries ↔
      entry ∈ entries ∧ ∀ i (hi : i < bits.length), bit entry.1 (depth + i) = bits[i] := by
  induction bits generalizing depth entries with
  | nil => simp
  | cons turn bits ih =>
    rw [belowPath_cons, ih, List.mem_filter, beq_iff_eq]
    constructor
    · rintro ⟨⟨hmem, hturn⟩, hrest⟩
      refine ⟨hmem, fun i hi ↦ ?_⟩
      cases i with
      | zero => simpa using hturn
      | succ i =>
        have hbit := hrest i (by simpa using hi)
        rw [Nat.add_right_comm] at hbit
        simpa [Nat.add_assoc] using hbit
    · rintro ⟨hmem, hall⟩
      have hfirst := hall 0 (by simp)
      rw [List.getElem_cons_zero, Nat.add_zero] at hfirst
      refine ⟨⟨hmem, hfirst⟩, fun i hi ↦ ?_⟩
      have hbit := hall (i + 1) (by simpa using hi)
      rw [Nat.add_right_comm]
      simpa [Nat.add_assoc] using hbit

theorem belowPath_sublist (bits : List Bool) (depth : Nat) (entries : List (K × H)) :
    (belowPath bit bits depth entries).Sublist entries := by
  induction bits generalizing depth entries with
  | nil => exact List.Sublist.refl _
  | cons turn bits ih => exact (ih _ _).trans List.filter_sublist

/-! ## The shape of the canonical tree -/

section Shape

variable {hasher} (hcf : hasher.CollisionFree)
include hcf

theorem subtreeHash_eq_placeholder_iff {remaining depth : Nat} {entries : List (K × H)}
    (hsmall : remaining = 0 → entries.length ≤ 1) :
    subtreeHash hasher bit remaining depth entries = hasher.placeholder ↔ entries = [] := by
  match remaining, entries with
  | _, [] => simp
  | _, [(key, value)] => simp [hcf.leaf_ne_placeholder]
  | 0, _ :: _ :: _ => simp at hsmall
  | remaining + 1, _ :: _ :: _ => simp [subtreeHash_succ_two, hcf.internal_ne_placeholder]

theorem subtreeHash_eq_leaf_iff {remaining depth : Nat} {entries : List (K × H)}
    (hsmall : remaining = 0 → entries.length ≤ 1) {key : K} {value : H} :
    subtreeHash hasher bit remaining depth entries = hasher.leaf key value ↔
      entries = [(key, value)] := by
  match remaining, entries with
  | _, [] => simp [(hcf.leaf_ne_placeholder key value).symm]
  | _, [(key', value')] =>
    simp only [subtreeHash_singleton, List.cons.injEq, Prod.mk.injEq, and_true]
    exact ⟨hcf.leaf_injective _ _ _ _, fun ⟨hkey, hvalue⟩ ↦ hkey ▸ hvalue ▸ rfl⟩
  | 0, _ :: _ :: _ => simp at hsmall
  | remaining + 1, _ :: _ :: _ =>
    simp [subtreeHash_succ_two, (hcf.leaf_ne_internal key value _ _).symm]

/-- A subtree whose hash is an internal hash has a level below it, and its two halves hash to
the two children. -/
theorem subtreeHash_eq_internal {remaining depth : Nat} {entries : List (K × H)} {left right : H}
    (hhash : subtreeHash hasher bit remaining depth entries = hasher.internal left right) :
    ∃ below, remaining = below + 1 ∧
      left = subtreeHash hasher bit below (depth + 1)
        (entries.filter fun entry ↦ !bit entry.1 depth) ∧
      right = subtreeHash hasher bit below (depth + 1)
        (entries.filter fun entry ↦ bit entry.1 depth) := by
  match remaining, entries with
  | _, [] =>
    rw [subtreeHash_nil] at hhash
    exact absurd hhash.symm (hcf.internal_ne_placeholder left right)
  | _, [(key, value)] =>
    rw [subtreeHash_singleton] at hhash
    exact absurd hhash (hcf.leaf_ne_internal key value left right)
  | 0, _ :: _ :: _ =>
    rw [subtreeHash_zero_two] at hhash
    exact absurd hhash.symm (hcf.internal_ne_placeholder left right)
  | below + 1, _ :: _ :: _ =>
    rw [subtreeHash_succ_two] at hhash
    obtain ⟨hleft, hright⟩ := hcf.internal_injective _ _ _ _ hhash
    exact ⟨below, rfl, hleft.symm, hright.symm⟩

/-- A path that recomputes the hash of a subtree descends into it: the path is no longer than
the levels below the subtree, and the hash at its end is that of the subtree the path reaches. -/
theorem pathHash_eq_subtreeHash {bits : List Bool} {siblings : List H} {current : H}
    (hlength : bits.length = siblings.length) {remaining depth : Nat} {entries : List (K × H)}
    (hhash : pathHash hasher bits siblings current =
      subtreeHash hasher bit remaining depth entries) :
    siblings.length ≤ remaining ∧
      current = subtreeHash hasher bit (remaining - siblings.length) (depth + siblings.length)
        (belowPath bit bits depth entries) := by
  induction siblings generalizing bits remaining depth entries with
  | nil =>
    rw [List.length_nil, List.length_eq_zero_iff] at hlength
    subst hlength
    exact ⟨Nat.zero_le _, hhash⟩
  | cons sibling siblings ih =>
    obtain ⟨turn, bits, rfl⟩ := List.exists_cons_of_length_eq_add_one hlength
    have hlength' : bits.length = siblings.length := by simpa using hlength
    cases turn with
    | false =>
      rw [pathHash_cons_cons, if_neg Bool.false_ne_true] at hhash
      obtain ⟨below, rfl, hleft, -⟩ := subtreeHash_eq_internal bit hcf hhash.symm
      obtain ⟨hle, hcurrent⟩ := ih hlength' hleft
      refine ⟨by simpa using hle, ?_⟩
      rw [hcurrent, belowPath_cons]
      simp only [List.length_cons, Nat.add_sub_add_right, beq_false]
      congr 1
      omega
    | true =>
      rw [pathHash_cons_cons, if_pos rfl] at hhash
      obtain ⟨below, rfl, -, hright⟩ := subtreeHash_eq_internal bit hcf hhash.symm
      obtain ⟨hle, hcurrent⟩ := ih hlength' hright
      refine ⟨by simpa using hle, ?_⟩
      rw [hcurrent, belowPath_cons]
      simp only [List.length_cons, Nat.add_sub_add_right, beq_true]
      congr 1
      omega

end Shape

/-! ## Soundness of paths -/

section Lookup

variable [DecidableEq K] {entries : List (K × H)} {key : K}

theorem lookup_eq_some_of_mem (hnodup : (entries.map Prod.fst).Nodup) {value : H}
    (hmem : (key, value) ∈ entries) : entries.lookup key = some value := by
  induction entries with
  | nil => cases hmem
  | cons entry entries ih =>
    obtain ⟨entryKey, entryValue⟩ := entry
    rw [List.map_cons, List.nodup_cons] at hnodup
    rcases List.mem_cons.mp hmem with hentry | htail
    · rw [Prod.mk.injEq] at hentry
      obtain ⟨rfl, rfl⟩ := hentry
      simp
    · have hkeyTail : key ∈ entries.map Prod.fst := List.mem_map_of_mem (f := Prod.fst) htail
      have hne : key ≠ entryKey := by
        rintro rfl
        exact hnodup.1 hkeyTail
      simp only [List.lookup_cons, beq_false_of_ne hne]
      exact ih hnodup.2 htail

theorem lookup_eq_none_of_forall_not_mem (habsent : ∀ value, (key, value) ∉ entries) :
    entries.lookup key = none := by
  rw [List.lookup_eq_none_iff]
  intro entry hmem
  exact bne_iff_ne.mpr fun hkey ↦ habsent entry.2 (hkey ▸ hmem)

end Lookup

section Soundness

variable {hasher} (hcf : hasher.CollisionFree) {width : Nat}
  (hkey : ∀ key key', (∀ i < width, bit key i = bit key' i) → key = key')
  {entries : List (K × H)} (hnodup : (entries.map Prod.fst).Nodup)
  {key : K} {bits : List Bool} (hpath : ∀ i (hi : i < bits.length), bits[i] = bit key i)

include hkey hnodup hpath in
/-- A path of all `width` bits of a key leads to at most one entry. -/
theorem length_belowPath_le_one (hwidth : bits.length = width) :
    (belowPath bit bits 0 entries).length ≤ 1 := by
  have hkeys : ∀ k ∈ (belowPath bit bits 0 entries).map Prod.fst, k = key := by
    intro k hk
    obtain ⟨entry, hentry, rfl⟩ := List.mem_map.mp hk
    refine hkey _ _ fun i hi ↦ ?_
    obtain ⟨-, hall⟩ := (mem_belowPath bit).mp hentry
    have hbit := hall i (by omega)
    rw [Nat.zero_add] at hbit
    rw [hbit, hpath]
  have hnodup' : ((belowPath bit bits 0 entries).map Prod.fst).Nodup :=
    hnodup.sublist ((belowPath_sublist bit bits 0 entries).map Prod.fst)
  rw [List.eq_replicate_iff.mpr ⟨rfl, hkeys⟩, List.nodup_replicate] at hnodup'
  simpa using hnodup'

include hcf hkey hnodup hpath in
/-- A path of a key's bits that recomputes the canonical root from a leaf hash proves the
leaf's entry, on the key's path, and that entry is the key's own if the key has one. -/
theorem mem_of_pathHash_leaf {siblings : List H} (hlength : bits.length = siblings.length)
    {leafKey : K} {leafValue : H}
    (hroot : pathHash hasher bits siblings (hasher.leaf leafKey leafValue) =
      subtreeHash hasher bit width 0 entries) :
    (leafKey, leafValue) ∈ entries ∧
      (∀ i < siblings.length, bit leafKey i = bit key i) ∧
      ∀ value, (key, value) ∈ entries → key = leafKey ∧ value = leafValue := by
  obtain ⟨hle, hleaf⟩ := pathHash_eq_subtreeHash bit hcf hlength hroot
  have hsmall : width - siblings.length = 0 → (belowPath bit bits 0 entries).length ≤ 1 :=
    fun hzero ↦ length_belowPath_le_one bit hkey hnodup hpath (by omega)
  have hbelow : belowPath bit bits 0 entries = [(leafKey, leafValue)] :=
    ((subtreeHash_eq_leaf_iff bit hcf hsmall).mp hleaf.symm)
  have hmemLeaf := (mem_belowPath bit).mp (hbelow ▸ List.mem_singleton_self _)
  refine ⟨hmemLeaf.1, fun i hi ↦ ?_, fun value hmem ↦ ?_⟩
  · rw [← hpath i (by omega)]
    simpa using hmemLeaf.2 i (by omega)
  · have hmemKey : (key, value) ∈ belowPath bit bits 0 entries :=
      (mem_belowPath bit).mpr ⟨hmem, fun i hi ↦ by simp [hpath i hi]⟩
    rw [hbelow, List.mem_singleton, Prod.mk.injEq] at hmemKey
    exact hmemKey

include hcf hkey hnodup hpath in
/-- A path of a key's bits that recomputes the canonical root from the placeholder proves that
the key has no entry. -/
theorem not_mem_of_pathHash_placeholder {siblings : List H}
    (hlength : bits.length = siblings.length)
    (hroot : pathHash hasher bits siblings hasher.placeholder =
      subtreeHash hasher bit width 0 entries)
    (value : H) : (key, value) ∉ entries := by
  obtain ⟨hle, hplaceholder⟩ := pathHash_eq_subtreeHash bit hcf hlength hroot
  have hsmall : width - siblings.length = 0 → (belowPath bit bits 0 entries).length ≤ 1 :=
    fun hzero ↦ length_belowPath_le_one bit hkey hnodup hpath (by omega)
  have hbelow : belowPath bit bits 0 entries = [] :=
    (subtreeHash_eq_placeholder_iff bit hcf hsmall).mp hplaceholder.symm
  intro hmem
  have hmemKey : (key, value) ∈ belowPath bit bits 0 entries :=
    (mem_belowPath bit).mpr ⟨hmem, fun i hi ↦ by simp [hpath i hi]⟩
  rw [hbelow] at hmemKey
  exact List.not_mem_nil hmemKey

end Soundness

section Free

/-- Hashes as the terms that build them. -/
inductive HashTerm (K V : Type) where
  | value (value : V)
  | leaf (key : K) (valueHash : HashTerm K V)
  | internal (left right : HashTerm K V)
  | placeholder
  deriving DecidableEq

/-- The tree hasher whose hashes are terms: collision free by construction, so that the
collision-freedom hypotheses above can be met. -/
def TreeHasher.free (K V : Type) : TreeHasher K (HashTerm K V) :=
  ⟨.leaf, .internal, .placeholder⟩

theorem TreeHasher.free_collisionFree (K V : Type) : (TreeHasher.free K V).CollisionFree where
  leaf_injective _ _ _ _ hleaf := HashTerm.leaf.inj hleaf
  internal_injective _ _ _ _ hinternal := HashTerm.internal.inj hinternal
  leaf_ne_internal _ _ _ _ := nofun
  leaf_ne_placeholder _ _ := nofun
  internal_ne_placeholder _ _ := nofun

end Free

end AptosCore.Merkle
