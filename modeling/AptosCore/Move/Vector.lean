import Mathlib

/-!
# Move's `std::vector`

`move-stdlib/sources/vector.move` on lists: the operations the framework's bucketed vectors are
built from, and the abstract model they are compared with. `none` is an abort. Writing through
`borrow_mut(v, i)` is `borrowMut`.
-/

namespace AptosCore.Move.vector

variable {α : Type}

def popBack (v : List α) : Option (α × List α) :=
  v.getLast?.map fun last ↦ (last, v.dropLast)

def remove (v : List α) (i : Nat) : Option (α × List α) :=
  if h : i < v.length then some (v[i], v.eraseIdx i) else none

def swap (v : List α) (i j : Nat) : Option (List α) :=
  if h : i < v.length ∧ j < v.length then some ((v.set i v[j]).set j v[i]) else none

/-- `swap_remove`: swap with the last element, then `pop_back`. -/
def swapRemove (v : List α) (i : Nat) : Option (α × List α) :=
  if v = [] then none else (swap v i (v.length - 1)).bind popBack

/-- `*borrow_mut(v, i) = x`. -/
def borrowMut (v : List α) (i : Nat) (x : α) : Option (List α) :=
  if i < v.length then some (v.set i x) else none

/-- The loop of `index_of` from index `i`. -/
def indexOfFrom [DecidableEq α] (e : α) : List α → Nat → Bool × Nat
  | [], _ => (false, 0)
  | x :: rest, i => if x = e then (true, i) else indexOfFrom e rest (i + 1)

/-- `index_of`: `(true, i)` for the first `i` holding `e`, `(false, 0)` otherwise. -/
def indexOf [DecidableEq α] (v : List α) (e : α) : Bool × Nat := indexOfFrom e v 0

/-- One round of the second loop of `partition` at index `i`: an element that satisfies `pred`
is swapped into the split point `p`, which moves up. -/
def partitionStep (pred : α → Bool) (state : List α × Nat) (i : Nat) : Option (List α × Nat) :=
  match state.1[i]? with
  | none => none
  | some e => if pred e then (swap state.1 state.2 i).map fun v ↦ (v, state.2 + 1) else some state

/-- `partition`: the first loop stops at the first element that fails `pred`, the second
swaps every later element that satisfies it in front of the failing ones. The vector and the
split point are returned. -/
def partition (v : List α) (pred : α → Bool) : Option (List α × Nat) :=
  let p := v.findIdx fun e ↦ !pred e
  (List.range' (p + 1) (v.length - (p + 1))).foldlM (partitionStep pred) (v, p)

/-- `trim_reverse`: the elements past `new_len` are popped one by one into the result, which
holds them in reverse order; the vector keeps the first `new_len`. -/
def trimReverse (v : List α) (newLen : Nat) : Option (List α × List α) :=
  if newLen ≤ v.length then some (v.take newLen, (v.drop newLen).reverse) else none

/-! ## Spec lemmas -/

@[simp] theorem popBack_nil : popBack ([] : List α) = none := rfl

@[simp] theorem popBack_concat (v : List α) (x : α) : popBack (v ++ [x]) = some (x, v) := by
  simp [popBack]

theorem remove_of_lt {v : List α} {i : Nat} (h : i < v.length) :
    remove v i = some (v[i], v.eraseIdx i) := dif_pos h

theorem remove_of_le {v : List α} {i : Nat} (h : v.length ≤ i) : remove v i = none :=
  dif_neg (Nat.not_lt.mpr h)

theorem swap_of_lt {v : List α} {i j : Nat} (hi : i < v.length) (hj : j < v.length) :
    swap v i j = some ((v.set i v[j]).set j v[i]) := dif_pos ⟨hi, hj⟩

theorem swap_eq_none {v : List α} {i j : Nat} (h : ¬ (i < v.length ∧ j < v.length)) :
    swap v i j = none := dif_neg h

theorem dropLast_set_of_le {v : List α} {k : Nat} (hk : v.length - 1 ≤ k) (x : α) :
    (v.set k x).dropLast = v.dropLast := by
  apply List.ext_getElem?
  intro p
  rw [List.getElem?_dropLast, List.getElem?_dropLast, List.length_set, List.getElem?_set]
  split_ifs <;> first | rfl | omega

theorem swapRemove_of_lt {v : List α} {i : Nat} (h : i < v.length) :
    swapRemove v i = some (v[i], (v.set i v[v.length - 1]).dropLast) := by
  have hne : v ≠ [] := List.ne_nil_of_length_pos (by omega)
  have hlast : v.length - 1 < v.length := by omega
  have hget : ((v.set i v[v.length - 1]).set (v.length - 1) v[i]).getLast? = some v[i] := by
    rw [List.getLast?_eq_getElem?, List.length_set, List.length_set,
      List.getElem?_set_self (by rw [List.length_set]; exact hlast)]
  unfold swapRemove
  rw [if_neg hne, swap_of_lt h hlast, Option.bind_some, popBack, hget, Option.map_some,
    dropLast_set_of_le (Nat.le_of_eq (by rw [List.length_set]))]

theorem set_length_sub_one {v : List α} (h : v ≠ []) (x : α) :
    v.set (v.length - 1) x = v.dropLast ++ [x] := by
  obtain ⟨init, last, rfl⟩ := (List.eq_nil_or_concat' v).resolve_left h
  rw [List.length_append, List.length_singleton, Nat.add_sub_cancel, List.set_append,
    if_neg (Nat.lt_irrefl _), Nat.sub_self, List.dropLast_concat]
  rfl

/-- `swap_remove` takes one element out: what is left and the element make up the vector. -/
theorem swapRemove_perm {v : List α} {i : Nat} (h : i < v.length) :
    ((v.set i v[v.length - 1]).dropLast ++ [v[i]]).Perm v := by
  have hlast : v.length - 1 < v.length := by omega
  have hne : v.set i v[v.length - 1] ≠ [] := List.ne_nil_of_length_pos (by rw [List.length_set]; omega)
  rw [← set_length_sub_one hne, List.length_set]
  exact List.set_set_perm h hlast

theorem set_perm {v : List α} {i : Nat} (h : i < v.length) (x : α) :
    (v.set i x ++ [v[i]]).Perm (v ++ [x]) := by
  have hset : (v ++ [x]).set i x = v.set i x ++ [x] := by
    rw [List.set_append, if_pos h]
  have hlast : (v.set i x ++ [x]).set v.length v[i] = v.set i x ++ [v[i]] := by
    rw [List.set_append, List.length_set, if_neg (Nat.lt_irrefl _), Nat.sub_self]
    rfl
  have hperm := @List.set_set_perm α (v ++ [x]) i v.length (by simp; omega) (by simp)
  simp only [List.getElem_append_left h, List.getElem_concat_length] at hperm
  rwa [hset, hlast] at hperm

theorem swapRemove_of_le {v : List α} {i : Nat} (h : v.length ≤ i) : swapRemove v i = none := by
  unfold swapRemove
  split_ifs
  · rfl
  · rw [swap_eq_none (by omega), Option.bind_none]

/-- `swap_remove` at an index before the last: the last element takes its place. -/
theorem swapRemove_concat_of_lt {init : List α} {i : Nat} (hi : i < init.length) (last : α) :
    swapRemove (init ++ [last]) i = some (init[i], init.set i last) := by
  rw [swapRemove_of_lt (by simp; omega)]
  simp [List.getElem_append_left hi, List.set_append_left _ _ hi]

theorem swapRemove_concat_length (init : List α) (last : α) :
    swapRemove (init ++ [last]) init.length = some (last, init) := by
  rw [swapRemove_of_lt (by simp)]
  simp [List.set_append_right]

/-- `swap_remove(bucket, p)`, then a push of `x` and a swap of `p` with the last index: `x` is
written at `p`. This is how the bucketed vectors overwrite an element. -/
theorem swap_swapRemove_concat {bucket : List α} {p : Nat} (hp : p < bucket.length) (x : α) :
    swap ((bucket.set p bucket[bucket.length - 1]).dropLast ++ [x]) p (bucket.length - 1) =
      some (bucket.set p x) := by
  have hlen :
      ((bucket.set p bucket[bucket.length - 1]).dropLast ++ [x]).length = bucket.length := by
    simp only [List.length_append, List.length_dropLast, List.length_set, List.length_singleton]
    omega
  rw [swap_of_lt (by omega) (by omega), Option.some.injEq]
  apply List.ext_getElem (by simp only [List.length_set, hlen])
  intro j _ hj
  rw [List.length_set] at hj
  simp only [List.getElem_set, List.getElem_append, List.getElem_dropLast, List.length_dropLast,
    List.length_set]
  split_ifs <;> first | rfl | omega | simp_all

theorem borrowMut_of_lt {v : List α} {i : Nat} (h : i < v.length) (x : α) :
    borrowMut v i x = some (v.set i x) := if_pos h

theorem borrowMut_of_le {v : List α} {i : Nat} (h : v.length ≤ i) (x : α) :
    borrowMut v i x = none := if_neg (Nat.not_lt.mpr h)

section IndexOf

variable [DecidableEq α]

@[simp] theorem indexOfFrom_nil (e : α) (i : Nat) : indexOfFrom e [] i = (false, 0) := rfl

theorem indexOfFrom_cons (e x : α) (rest : List α) (i : Nat) :
    indexOfFrom e (x :: rest) i = if x = e then (true, i) else indexOfFrom e rest (i + 1) := rfl

theorem indexOfFrom_of_not_mem {e : α} {v : List α} (h : e ∉ v) (i : Nat) :
    indexOfFrom e v i = (false, 0) := by
  induction v generalizing i with
  | nil => rfl
  | cons x rest ih =>
    rw [List.mem_cons, not_or] at h
    rw [indexOfFrom_cons, if_neg (Ne.symm h.1), ih h.2]

theorem indexOfFrom_of_mem {e : α} {v : List α} (h : e ∈ v) (i : Nat) :
    indexOfFrom e v i = (true, i + (indexOf v e).2) := by
  unfold indexOf
  induction v generalizing i with
  | nil => simp at h
  | cons x rest ih =>
    rw [indexOfFrom_cons, indexOfFrom_cons]
    by_cases hx : x = e
    · rw [if_pos hx, if_pos hx]
      rfl
    · have hrest : e ∈ rest := (List.mem_cons.mp h).resolve_left (Ne.symm hx)
      rw [if_neg hx, if_neg hx, ih hrest, ih hrest 1]
      simp only [Prod.mk.injEq, true_and]
      omega

@[simp] theorem indexOf_fst (v : List α) (e : α) : (indexOf v e).1 = decide (e ∈ v) := by
  by_cases h : e ∈ v
  · rw [indexOf, indexOfFrom_of_mem h, decide_eq_true h]
  · rw [indexOf, indexOfFrom_of_not_mem h, decide_eq_false h]

theorem indexOf_of_not_mem {v : List α} {e : α} (h : e ∉ v) : indexOf v e = (false, 0) :=
  indexOfFrom_of_not_mem h 0

theorem indexOfFrom_append (v w : List α) (e : α) (i : Nat) :
    indexOfFrom e (v ++ w) i = if e ∈ v then indexOfFrom e v i else indexOfFrom e w (i + v.length) := by
  induction v generalizing i with
  | nil => simp
  | cons x rest ih =>
    rw [List.cons_append, indexOfFrom_cons, ih, indexOfFrom_cons]
    by_cases hx : x = e
    · simp [hx]
    · by_cases hrest : e ∈ rest
      · simp [hx, hrest]
      · have hnot : e ∉ x :: rest := by simp [Ne.symm hx, hrest]
        rw [if_neg hx, if_neg hrest, if_neg hnot, List.length_cons, Nat.add_comm rest.length 1,
          Nat.add_assoc]

theorem indexOf_append (v w : List α) (e : α) :
    indexOf (v ++ w) e = if e ∈ v then indexOf v e else indexOfFrom e w v.length := by
  rw [indexOf, indexOfFrom_append, Nat.zero_add]
  rfl

end IndexOf

/-! ## On the two parts of a vector

The smart vector keeps its elements in two parts; an operation at an index of one part acts on
that part alone. -/

theorem remove_append_left {l : List α} {i : Nat} (hi : i < l.length) (r : List α) :
    remove (l ++ r) i = (remove l i).map fun removed ↦ (removed.1, removed.2 ++ r) := by
  rw [remove_of_lt (by simp; omega), remove_of_lt hi, Option.map_some,
    List.eraseIdx_append_of_lt_length hi, List.getElem_append_left hi]

theorem remove_append_right (l : List α) {i : Nat} (hi : l.length ≤ i) (r : List α) :
    remove (l ++ r) i =
      (remove r (i - l.length)).map fun removed ↦ (removed.1, l ++ removed.2) := by
  by_cases hr : i - l.length < r.length
  · rw [remove_of_lt (by simp; omega), remove_of_lt hr, Option.map_some,
      List.eraseIdx_append_of_length_le hi, List.getElem_append_right hi]
  · rw [remove_of_le (by simp; omega), remove_of_le (by omega), Option.map_none]

theorem borrowMut_append_left {l : List α} {i : Nat} (hi : i < l.length) (r : List α) (x : α) :
    borrowMut (l ++ r) i x = (borrowMut l i x).map (· ++ r) := by
  rw [borrowMut_of_lt (by simp; omega), borrowMut_of_lt hi, Option.map_some,
    List.set_append_left _ _ hi]

theorem borrowMut_append_right (l : List α) {i : Nat} (hi : l.length ≤ i) (r : List α) (x : α) :
    borrowMut (l ++ r) i x = (borrowMut r (i - l.length) x).map (l ++ ·) := by
  by_cases hr : i - l.length < r.length
  · rw [borrowMut_of_lt (by simp; omega), borrowMut_of_lt hr, Option.map_some,
      List.set_append_right _ _ hi]
  · rw [borrowMut_of_le (by simp; omega), borrowMut_of_le (by omega), Option.map_none]

theorem swap_append_left {l : List α} {i j : Nat} (hi : i < l.length) (hj : j < l.length)
    (r : List α) : swap (l ++ r) i j = (swap l i j).map (· ++ r) := by
  rw [swap_of_lt (by simp; omega) (by simp; omega), swap_of_lt hi hj, Option.map_some,
    List.getElem_append_left hi, List.getElem_append_left hj, List.set_append_left _ _ hi,
    List.set_append_left _ _ (by simpa using hj)]

theorem swap_append_right (l : List α) {i j : Nat} (hi : l.length ≤ i) (hj : l.length ≤ j)
    (r : List α) : swap (l ++ r) i j = (swap r (i - l.length) (j - l.length)).map (l ++ ·) := by
  by_cases hr : i - l.length < r.length ∧ j - l.length < r.length
  · rw [swap_of_lt (by simp; omega) (by simp; omega), swap_of_lt hr.1 hr.2, Option.map_some,
      List.getElem_append_right hi, List.getElem_append_right hj, List.set_append_right _ _ hi,
      List.set_append_right _ _ (by simpa using hj)]
  · rw [swap_eq_none (by simp; omega), swap_eq_none hr, Option.map_none]

theorem swapRemove_append_right (l : List α) {i : Nat} (hi : l.length ≤ i) (r : List α) :
    swapRemove (l ++ r) i =
      (swapRemove r (i - l.length)).map fun removed ↦ (removed.1, l ++ removed.2) := by
  by_cases hr : i - l.length < r.length
  · have hne : r.set (i - l.length) r[r.length - 1] ≠ [] := by
      apply List.ne_nil_of_length_pos
      rw [List.length_set]
      omega
    rw [swapRemove_of_lt (by simp; omega), swapRemove_of_lt hr, Option.map_some,
      List.getElem_append_right hi]
    congr 2
    rw [List.set_append_right _ _ hi, ← List.dropLast_append_of_ne_nil hne]
    congr 3
    rw [List.getElem_append_right (by simp; omega)]
    congr 1
    simp only [List.length_append]
    omega
  · rw [swapRemove_of_le (by simp; omega), swapRemove_of_le (by omega), Option.map_none]

theorem swap_comm (v : List α) (i j : Nat) : swap v i j = swap v j i := by
  by_cases h : i < v.length ∧ j < v.length
  · rw [swap_of_lt h.1 h.2, swap_of_lt h.2 h.1]
    by_cases hij : i = j
    · subst hij
      rfl
    · rw [List.set_comm _ _ hij]
  · rw [swap_eq_none h, swap_eq_none (by omega)]

theorem swap_append_left_right {l r : List α} {i j : Nat} (hi : i < l.length)
    (hj : l.length ≤ j) (hjr : j - l.length < r.length) :
    swap (l ++ r) i j = some (l.set i r[j - l.length] ++ r.set (j - l.length) l[i]) := by
  rw [swap_of_lt (by simp; omega) (by simp; omega), List.getElem_append_left hi,
    List.getElem_append_right hj, List.set_append_left _ _ hi,
    List.set_append_right _ _ (by simpa using hj), List.length_set]

/-! ## `partition`

The second loop keeps the elements before the split point satisfying `pred` and those from the
split point up to the loop index failing it (`Partitioned`); each round keeps that and permutes
the vector (`partitionStep_spec`), so the whole loop returns a permutation split by `pred`
(`partition_spec`). -/

section Partition

variable {pred : α → Bool}

/-- The state of `partition`'s second loop before index `i`. -/
structure Partitioned (pred : α → Bool) (w : List α) (p i : Nat) : Prop where
  lt : p < i
  before : ∀ j (hj : j < w.length), j < p → pred w[j] = true
  between : ∀ j (hj : j < w.length), p ≤ j → j < i → pred w[j] = false

theorem partitionStep_spec {w : List α} {p i : Nat} (h : Partitioned pred w p i)
    (hi : i < w.length) :
    ∃ w' p', partitionStep pred (w, p) i = some (w', p') ∧ w'.Perm w ∧ Partitioned pred w' p' (i + 1) := by
  have hpi : p < i := h.lt
  have hp : p < w.length := Nat.lt_trans hpi hi
  unfold partitionStep
  dsimp only
  rw [List.getElem?_eq_getElem hi]
  dsimp only
  by_cases hpred : pred w[i] = true
  · rw [if_pos hpred, swap_of_lt hp hi, Option.map_some]
    refine ⟨_, _, rfl, List.set_set_perm hp hi, ⟨by omega, ?_, ?_⟩⟩
    · intro j hj hjp
      simp only [List.getElem_set]
      split_ifs with hij hpj
      · omega
      · exact hpred
      · exact h.before j (by simpa using hj) (by omega)
    · intro j hj hpj hji
      simp only [List.getElem_set]
      split_ifs with hij hpj'
      · exact h.between p hp (Nat.le_refl p) hpi
      · omega
      · exact h.between j (by simpa using hj) (by omega) (by omega)
  · rw [if_neg hpred]
    refine ⟨w, p, rfl, List.Perm.refl w, ⟨by omega, h.before, ?_⟩⟩
    intro j hj hpj hji
    rcases Nat.lt_or_ge j i with hlt | hge
    · exact h.between j hj hpj hlt
    · obtain rfl : j = i := by omega
      simpa using hpred

/-- The run lemma of the second loop, over the indices `s .. s + n`. -/
theorem foldlM_partitionStep (n : Nat) {s p : Nat} {w : List α} (h : Partitioned pred w p s)
    (hn : s + n ≤ w.length) :
    ∃ w' p', (List.range' s n).foldlM (partitionStep pred) (w, p) = some (w', p') ∧ w'.Perm w ∧
      Partitioned pred w' p' (s + n) := by
  induction n generalizing s p w with
  | zero => exact ⟨w, p, rfl, List.Perm.refl w, h⟩
  | succ n ih =>
    obtain ⟨w₁, p₁, hstep, hperm₁, h₁⟩ := partitionStep_spec h (by omega)
    obtain ⟨w₂, p₂, hrun, hperm₂, h₂⟩ := ih h₁ (by rw [hperm₁.length_eq]; omega)
    refine ⟨w₂, p₂, ?_, hperm₂.trans hperm₁, by rwa [Nat.add_right_comm] at h₂⟩
    rw [List.range'_succ, List.foldlM_cons, hstep, Option.bind_eq_bind, Option.bind_some]
    exact hrun

/-- `partition` permutes the vector and returns a split point before which every element
satisfies `pred` and from which none does. -/
theorem partition_spec (v : List α) (pred : α → Bool) :
    ∃ w p, partition v pred = some (w, p) ∧ w.Perm v ∧ p ≤ w.length ∧
      (∀ e ∈ w.take p, pred e = true) ∧ ∀ e ∈ w.drop p, pred e = false := by
  unfold partition
  dsimp only
  rcases Nat.lt_or_ge (v.findIdx fun e ↦ !pred e) v.length with hlt | hge
  · have hinit : Partitioned pred v (v.findIdx fun e ↦ !pred e) (v.findIdx (fun e ↦ !pred e) + 1) := by
      refine ⟨Nat.lt_succ_self _, fun j hj hjp ↦ ?_, fun j hj hpj hji ↦ ?_⟩
      · simpa using List.not_of_lt_findIdx hjp
      · obtain rfl : j = v.findIdx (fun e ↦ !pred e) := by omega
        simpa using List.findIdx_getElem (w := hlt)
    obtain ⟨w, p, hrun, hperm, h⟩ :=
      foldlM_partitionStep (v.length - (v.findIdx (fun e ↦ !pred e) + 1)) hinit (by omega)
    have hlen : w.length = v.length := hperm.length_eq
    have hlt : p < _ := h.lt
    refine ⟨w, p, hrun, hperm, by omega, fun e he ↦ ?_, fun e he ↦ ?_⟩
    · obtain ⟨j, hj, rfl⟩ := List.getElem_of_mem he
      rw [List.getElem_take]
      exact h.before j _ (by simp at hj; omega)
    · obtain ⟨j, hj, rfl⟩ := List.getElem_of_mem he
      rw [List.getElem_drop]
      exact h.between (p + j) _ (Nat.le_add_right p j) (by simp at hj; omega)
  · have hp : (v.findIdx fun e ↦ !pred e) = v.length := Nat.le_antisymm List.findIdx_le_length hge
    rw [hp, Nat.sub_eq_zero_of_le (Nat.le_succ _), List.range'_zero, List.foldlM_nil]
    refine ⟨v, v.length, rfl, List.Perm.refl v, Nat.le_refl _, fun e he ↦ ?_, fun e he ↦ ?_⟩
    · rw [List.take_length] at he
      have hnot := List.findIdx_eq_length.mp hp e he
      simpa using hnot
    · simp at he

end Partition

theorem trimReverse_of_le {v : List α} {newLen : Nat} (h : newLen ≤ v.length) :
    trimReverse v newLen = some (v.take newLen, (v.drop newLen).reverse) := if_pos h

/-! ## The loops of `append`

`append(lhs, other)` of the bucketed vectors moves the first half of `other` with
`swap_remove(other, i)` for `i` from `0`, and the rest with `pop_back`. After `k` rounds of the
first loop `other` holds its last `k` elements reversed and then the ones between
(`AppendFront`); popping all of that onto `lhs` after half the rounds leaves the elements in
order, because at most one element lies between. -/

/-- `lhs` and `other` after `k` rounds of `push_back(lhs, swap_remove(other, i))` from `i = 0`,
started from `l` and `a`. -/
def AppendFront (l a : List α) (k : Nat) (lhs other : List α) : Prop :=
  ∃ pre mid post, a = pre ++ mid ++ post ∧ pre.length = k ∧ post.length = k ∧
    lhs = l ++ pre ∧ other = post.reverse ++ mid

theorem appendFront_zero (l a : List α) : AppendFront l a 0 l a :=
  ⟨[], a, [], by simp, rfl, rfl, by simp, by simp⟩

/-- `swap_remove` at the first element after the reversed ones: it leaves the vector, and the
last element takes its place. -/
theorem swapRemove_reverse_append (post mid : List α) (x y : α) :
    swapRemove (post.reverse ++ x :: (mid ++ [y])) post.length =
      some (x, (y :: post).reverse ++ mid) := by
  have hv : post.reverse ++ x :: (mid ++ [y]) = (post.reverse ++ x :: mid) ++ [y] := by simp
  have hi : post.length < (post.reverse ++ x :: mid).length := by simp
  rw [hv, swapRemove_of_lt (by simp)]
  congr 2
  · simp
  · simp only [List.length_append, List.length_singleton, Nat.add_sub_cancel,
      List.getElem_concat_length, List.set_append_left _ _ hi, List.dropLast_concat]
    rw [List.set_append_right _ _ (by simp), List.length_reverse, Nat.sub_self,
      List.set_cons_zero, List.reverse_cons, List.append_assoc, List.singleton_append]

theorem reverse_of_length_le_one {l : List α} (h : l.length ≤ 1) : l.reverse = l := by
  rcases l with _ | ⟨x, _ | ⟨y, l⟩⟩
  · rfl
  · rfl
  · simp at h

namespace AppendFront

variable {l a lhs other : List α} {k : Nat}

theorem length_other (h : AppendFront l a k lhs other) : other.length = a.length - k := by
  obtain ⟨pre, mid, post, rfl, hpre, hpost, -, rfl⟩ := h
  simp only [List.length_append, List.length_reverse]
  omega

theorem swapRemove_step (h : AppendFront l a k lhs other) (hk : 2 * (k + 1) ≤ a.length) :
    ∃ x other', swapRemove other k = some (x, other') ∧
      AppendFront l a (k + 1) (lhs ++ [x]) other' := by
  obtain ⟨pre, mid, post, rfl, hpre, hpost, rfl, rfl⟩ := h
  have hmid : 2 ≤ mid.length := by
    simp only [List.length_append] at hk
    omega
  obtain ⟨x, mid', rfl⟩ := List.exists_cons_of_ne_nil
    (show mid ≠ [] from List.ne_nil_of_length_pos (by omega))
  obtain ⟨mid'', y, rfl⟩ : ∃ mid'' y, mid' = mid'' ++ [y] := by
    rcases mid'.eq_nil_or_concat' with rfl | ⟨mid'', y, rfl⟩
    · simp at hmid
    · exact ⟨mid'', y, rfl⟩
  refine ⟨x, (y :: post).reverse ++ mid'', ?_, pre ++ [x], mid'', y :: post, by simp, ?_, ?_,
    by simp, rfl⟩
  · rw [← hpost, swapRemove_reverse_append]
  · rw [List.length_append, List.length_singleton, hpre]
  · rw [List.length_cons, hpost]

/-- After half the rounds at most one element lies between, so popping everything left onto
`lhs` gives `l ++ a`. -/
theorem append_reverse (h : AppendFront l a (a.length / 2) lhs other) :
    lhs ++ other.reverse = l ++ a := by
  obtain ⟨pre, mid, post, heq, hpre, hpost, rfl, rfl⟩ := h
  have hmid : mid.length ≤ 1 := by
    have hlen := congrArg List.length heq
    simp only [List.length_append] at hlen
    omega
  rw [heq, List.reverse_append, List.reverse_reverse, reverse_of_length_le_one hmid]
  simp

end AppendFront

/-! The two loops of `append` over any vector type whose `swap_remove`, `pop_back` and
`push_back` act on its elements `elems` as the vector's do; each loop is given by its
equations. `validL` is kept by `push_back` on `lhs`, `validO` by the removals from `other`. -/

section AppendLoops

variable {V : Type} (elems : V → List α) {validL validO : V → Prop}
  {pushBackV : V → α → Option V}

/-- The first loop: `count` rounds of `push_back(lhs, swap_remove(other, i))` from `i = k`. -/
theorem appendSwapRemove_loop {swapRemoveV : V → Nat → Option (α × V)}
    {loop : Nat → Nat → V → V → Option (V × V)}
    (hzero : ∀ i lhs other, loop 0 i lhs other = some (lhs, other))
    (hsucc : ∀ count i lhs other, loop (count + 1) i lhs other =
      (swapRemoveV other i).bind fun removed ↦
        (pushBackV lhs removed.1).bind fun lhs ↦ loop count (i + 1) lhs removed.2)
    (hswap : ∀ other i x rest, validO other → swapRemove (elems other) i = some (x, rest) →
      ∃ other', swapRemoveV other i = some (x, other') ∧ validO other' ∧ elems other' = rest)
    (hpush : ∀ lhs x, validL lhs →
      ∃ lhs', pushBackV lhs x = some lhs' ∧ validL lhs' ∧ elems lhs' = elems lhs ++ [x])
    {l a : List α} (count : Nat) :
    ∀ {k : Nat} {lhs other : V}, validL lhs → validO other →
      AppendFront l a k (elems lhs) (elems other) → 2 * (k + count) ≤ a.length →
      ∃ lhs' other', loop count k lhs other = some (lhs', other') ∧ validL lhs' ∧
        validO other' ∧ AppendFront l a (k + count) (elems lhs') (elems other') := by
  induction count with
  | zero => exact fun hl ho h _ ↦ ⟨_, _, hzero .., hl, ho, h⟩
  | succ count ih =>
    intro k lhs other hl ho h hk
    obtain ⟨x, rest, hremove, h'⟩ := h.swapRemove_step (by omega)
    obtain ⟨other₁, hother, ho₁, hrest⟩ := hswap other k x rest ho hremove
    obtain ⟨lhs₁, hpush₁, hl₁, hlvec⟩ := hpush lhs x hl
    rw [← hlvec, ← hrest] at h'
    obtain ⟨lhs', other', hloop, hl', ho', h''⟩ := ih hl₁ ho₁ h' (by omega)
    refine ⟨lhs', other', ?_, hl', ho', by rwa [Nat.add_right_comm, Nat.add_assoc] at h''⟩
    rw [hsucc, hother, Option.bind_some, hpush₁, Option.bind_some, hloop]

/-- The second loop: `count` rounds of `push_back(lhs, pop_back(other))`, which move all of
`other` onto `lhs`, last element first. -/
theorem appendPopBack_loop {popBackV : V → Option (α × V)}
    {loop : Nat → V → V → Option (V × V)}
    (hzero : ∀ lhs other, loop 0 lhs other = some (lhs, other))
    (hsucc : ∀ count lhs other, loop (count + 1) lhs other =
      (popBackV other).bind fun popped ↦
        (pushBackV lhs popped.1).bind fun lhs ↦ loop count lhs popped.2)
    (hpop : ∀ other x rest, validO other → elems other = rest ++ [x] →
      ∃ other', popBackV other = some (x, other') ∧ validO other' ∧ elems other' = rest)
    (hpush : ∀ lhs x, validL lhs →
      ∃ lhs', pushBackV lhs x = some lhs' ∧ validL lhs' ∧ elems lhs' = elems lhs ++ [x])
    (count : Nat) :
    ∀ {lhs other : V}, validL lhs → validO other → (elems other).length = count →
      ∃ lhs' other', loop count lhs other = some (lhs', other') ∧ validL lhs' ∧
        validO other' ∧ elems lhs' = elems lhs ++ (elems other).reverse ∧ elems other' = [] := by
  induction count with
  | zero =>
    intro lhs other hl ho hlen
    rw [List.length_eq_zero_iff] at hlen
    exact ⟨lhs, other, hzero .., hl, ho, by simp [hlen], hlen⟩
  | succ count ih =>
    intro lhs other hl ho hlen
    obtain ⟨rest, x, hsplit⟩ : ∃ rest x, elems other = rest ++ [x] := by
      rcases (elems other).eq_nil_or_concat' with hnil | hconcat
      · rw [hnil] at hlen
        exact absurd hlen (Nat.succ_ne_zero _).symm
      · exact hconcat
    obtain ⟨other₁, hother, ho₁, hrest⟩ := hpop other x rest ho hsplit
    obtain ⟨lhs₁, hpush₁, hl₁, hlvec⟩ := hpush lhs x hl
    have hlen₁ : (elems other₁).length = count := by
      rw [hsplit, List.length_append, List.length_singleton] at hlen
      rw [hrest]
      omega
    obtain ⟨lhs', other', hloop, hl', ho', hlvec', hnil⟩ := ih hl₁ ho₁ hlen₁
    refine ⟨lhs', other', ?_, hl', ho', ?_, hnil⟩
    · rw [hsucc, hother, Option.bind_some, hpush₁, Option.bind_some, hloop]
    · rw [hlvec', hlvec, hrest, hsplit, List.reverse_concat, List.append_assoc,
        List.singleton_append]

end AppendLoops

/-! ## The vector API as calls

The bucketed vectors are compared with `std::vector` call by call: `perform` is the vector's
answer to one call of the API they share. -/

/-- A call of the vector API: the operations that change the vector and those that read it. The
vector passed to `append` is of type `β`. -/
inductive Call (α β : Type) where
  | pushBack (val : α)
  | popBack
  | remove (i : Nat)
  | swapRemove (i : Nat)
  | swap (i j : Nat)
  | borrowMut (i : Nat) (val : α)
  | reverse
  | append (other : β)
  | borrow (i : Nat)
  | indexOf (val : α)
  | contains (val : α)
  | length
  | isEmpty

/-- What a call returns. -/
inductive Ret (α : Type) where
  | unit
  | value (val : α)
  | index (found : Bool) (i : Nat)
  | count (n : Nat)
  | flag (b : Bool)
  deriving DecidableEq, Repr

/-- `std::vector`'s answer to a call, `none` for an abort; the vector passed to `append` holds
`elems other`. -/
def perform [DecidableEq α] {β : Type} (elems : β → List α) (v : List α) :
    Call α β → Option (List α × Ret α)
  | .pushBack val => some (v ++ [val], .unit)
  | .popBack => (popBack v).map fun popped ↦ (popped.2, .value popped.1)
  | .remove i => (remove v i).map fun removed ↦ (removed.2, .value removed.1)
  | .swapRemove i => (swapRemove v i).map fun removed ↦ (removed.2, .value removed.1)
  | .swap i j => (swap v i j).map fun v ↦ (v, .unit)
  | .borrowMut i val => (borrowMut v i val).map fun v ↦ (v, .unit)
  | .reverse => some (v.reverse, .unit)
  | .append other => some (v ++ elems other, .unit)
  | .borrow i => v[i]?.map fun val ↦ (v, .value val)
  | .indexOf val => some (v, .index (indexOf v val).1 (indexOf v val).2)
  | .contains val => some (v, .flag (decide (val ∈ v)))
  | .length => some (v, .count v.length)
  | .isEmpty => some (v, .flag (decide (v.length = 0)))

end AptosCore.Move.vector
