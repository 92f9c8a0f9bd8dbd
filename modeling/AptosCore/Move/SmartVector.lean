import AptosCore.Move.BigVector

/-!
# `aptos_std::smart_vector`

`aptos-stdlib/sources/data_structures/smart_vector.move`. A smart vector keeps its first
elements in `inline_vec` and the rest in an optional big vector; the logical vector is
`to_vector`, the inline part followed by the big vector's elements. `none` is an abort.

With the default configuration `push_back` sizes the inline part and the buckets from the BCS
sizes of the values (`type_info::size_of_val`): that size is a class here, with the vector
instance BCS gives it (the ULEB128 length followed by the elements).

A smart vector is valid when its big vector is valid and present only when non-empty, and the
configuration is either unset or fully set with a positive bucket size (`Valid`). On valid smart
vectors the operations act on `to_vector` as the vector operations do. `index_of` does not: when
the value is absent and the big vector is present it answers `(false, length of inline_vec)`,
where `std::vector::index_of` and its own documentation give `(false, 0)`
(`indexOf_absent_ne`).
-/

namespace AptosCore.Move

open Collections

/-- The number of bytes of the ULEB128 encoding of `n`. -/
def ulebLength (n : Nat) : Nat :=
  if n < 0x80 then 1 else ulebLength (n / 0x80) + 1
termination_by n
decreasing_by exact Nat.div_lt_self (by omega) (by omega)

/-- `type_info::size_of_val`: the length of the BCS encoding of a value. -/
class SerializedSize (α : Type) where
  sizeOfVal : α → Nat

export SerializedSize (sizeOfVal)

/-- A BCS vector is its length in ULEB128 followed by its elements. -/
instance {α : Type} [SerializedSize α] : SerializedSize (List α) where
  sizeOfVal v := ulebLength v.length + (v.map sizeOfVal).sum

/-- A `u64` takes eight bytes. -/
instance : SerializedSize UInt64 where
  sizeOfVal _ := 8

/-- `SmartVector<T>`. -/
structure SmartVector (α : Type) where
  inlineVec : List α
  bigVec : Option (BigVector α)
  inlineCapacity : Option Nat
  bucketSize : Option Nat
  deriving DecidableEq, Repr

namespace SmartVector

variable {α : Type}

/-- `empty` (and `new`): no configuration, sizes estimated from the values. -/
def empty : SmartVector α := ⟨[], none, none, none⟩

def emptyWithConfig (inlineCapacity bucketSize : Nat) : Option (SmartVector α) :=
  if 0 < bucketSize then some ⟨[], none, some inlineCapacity, some bucketSize⟩ else none

def length (v : SmartVector α) : Nat :=
  v.inlineVec.length + (v.bigVec.map BigVector.length).getD 0

def isEmpty (v : SmartVector α) : Bool := decide (v.length = 0)

def toVector (v : SmartVector α) : List α :=
  v.inlineVec ++ (v.bigVec.map BigVector.toVector).getD []

/-- `option::fill(&mut v.big_vec, big_vector::empty(bucket_size))`. -/
def fillBigVec (v : SmartVector α) (bucketSize : Nat) : Option (SmartVector α) :=
  match v.bigVec with
  | some _ => none
  | none => (BigVector.empty bucketSize).map fun big ↦ { v with bigVec := some big }

/-- `big_vector::push_back(option::borrow_mut(&mut v.big_vec), val)`. -/
def pushBig (v : SmartVector α) (val : α) : Option (SmartVector α) :=
  match v.bigVec with
  | none => none
  | some big => (big.pushBack val).map fun big ↦ { v with bigVec := some big }

/-- The end of every removal from the big vector: an emptied big vector is destroyed, any other
is put back. -/
def restoreBig (v : SmartVector α) (big : BigVector α) : Option (SmartVector α) :=
  if big.isEmpty then big.destroyEmpty.map fun _ ↦ { v with bigVec := none }
  else some { v with bigVec := some big }

/-- `push_back`. While everything is inline, the value goes inline up to the configured
capacity, or while the estimated size stays under 150 bytes; past that a big vector is opened
with the configured bucket size, or one estimated from the average value size. -/
def pushBack [SerializedSize α] (v : SmartVector α) (val : α) : Option (SmartVector α) :=
  let len := v.length
  let inlineLen := v.inlineVec.length
  if len = inlineLen then
    match v.inlineCapacity with
    | some inlineCapacity =>
      if len < inlineCapacity then some { v with inlineVec := v.inlineVec ++ [val] }
      else do
        let bucketSize ← v.bucketSize
        let v ← v.fillBigVec bucketSize
        v.pushBig val
    | none =>
      let valSize := sizeOfVal val
      if valSize * (inlineLen + 1) < 150 then some { v with inlineVec := v.inlineVec ++ [val] }
      else
        let estimatedAvgSize := max ((sizeOfVal v.inlineVec + valSize) / (inlineLen + 1)) 1
        do
          let v ← v.fillBigVec (max (1024 / estimatedAvgSize) 1)
          v.pushBig val
  else v.pushBig val

def popBack (v : SmartVector α) : Option (α × SmartVector α) :=
  if v.isEmpty then none
  else
    match v.bigVec with
    | some big => do
      let (val, big) ← big.popBack
      let v ← v.restoreBig big
      some (val, v)
    | none => (vector.popBack v.inlineVec).map fun (val, inlineVec) ↦ (val, { v with inlineVec })

def remove (v : SmartVector α) (i : Nat) : Option (α × SmartVector α) :=
  let len := v.length
  if i < len then
    let inlineLen := v.inlineVec.length
    if i < inlineLen then
      (vector.remove v.inlineVec i).map fun (val, inlineVec) ↦ (val, { v with inlineVec })
    else
      match v.bigVec with
      | none => none
      | some big => do
        let (val, big) ← big.remove (i - inlineLen)
        let v ← v.restoreBig big
        some (val, v)
  else none

/-- `swap_remove`. Removing inline while the big vector is present first moves the big
vector's last element to the end of the inline vector. -/
def swapRemove (v : SmartVector α) (i : Nat) : Option (α × SmartVector α) :=
  let len := v.length
  if i < len then
    let inlineLen := v.inlineVec.length
    if inlineLen ≤ i then
      match v.bigVec with
      | none => none
      | some big => do
        let (val, big) ← big.swapRemove (i - inlineLen)
        let v ← v.restoreBig big
        some (val, v)
    else do
      let v ← if inlineLen < len then
          match v.bigVec with
          | none => none
          | some big => do
            let (lastFromBigVec, big) ← big.popBack
            let v ← v.restoreBig big
            some { v with inlineVec := v.inlineVec ++ [lastFromBigVec] }
        else some v
      let (val, inlineVec) ← vector.swapRemove v.inlineVec i
      some (val, { v with inlineVec })
  else none

/-- The body of `swap` once `i ≤ j`. -/
def swapOrdered (v : SmartVector α) (i j : Nat) : Option (SmartVector α) :=
  let len := v.length
  if j < len then
    let inlineLen := v.inlineVec.length
    if inlineLen ≤ i then
      match v.bigVec with
      | none => none
      | some big => (big.swap (i - inlineLen) (j - inlineLen)).map fun big ↦
          { v with bigVec := some big }
    else if j < inlineLen then
      (vector.swap v.inlineVec i j).map fun inlineVec ↦ { v with inlineVec }
    else
      match v.bigVec with
      | none => none
      | some big => do
        let (elementI, inlineVec) ← vector.swapRemove v.inlineVec i
        let (elementJ, big) ← big.swapRemove (j - inlineLen)
        let inlineVec ← vector.swap (inlineVec ++ [elementJ]) i (inlineLen - 1)
        let big ← big.pushBack elementI
        let big ← big.swap (j - inlineLen) (len - inlineLen - 1)
        some { v with inlineVec, bigVec := some big }
  else none

/-- `swap`: `swap(v, j, i)` when `i > j`. -/
def swap (v : SmartVector α) (i j : Nat) : Option (SmartVector α) :=
  if i > j then v.swapOrdered j i else v.swapOrdered i j

/-- `for_each(vals, |val| push_back(v, val))`. -/
def pushBackAll [SerializedSize α] (v : SmartVector α) (vals : List α) : Option (SmartVector α) :=
  vals.foldlM (fun v val ↦ v.pushBack val) v

def addAll [SerializedSize α] (v : SmartVector α) (vals : List α) : Option (SmartVector α) :=
  v.pushBackAll vals

/-- The first loop of `reverse`: `count` elements popped from `v` onto `acc`. -/
def popBackInto : Nat → SmartVector α → List α → Option (SmartVector α × List α)
  | 0, v, acc => some (v, acc)
  | count + 1, v, acc => do
    let (val, v) ← v.popBack
    popBackInto count v (acc ++ [val])

/-- `while (!vector::is_empty(&src)) vector::push_back(&mut dst, vector::pop_back(&mut src))`. -/
def moveReversed (src dst : List α) : List α := dst ++ src.reverse

/-- `reverse`. The last `inline_len` elements are popped, the big vector is reversed, those
elements become the inline vector, and the old inline elements are pushed back last to
first. -/
def reverse [SerializedSize α] (v : SmartVector α) : Option (SmartVector α) := do
  let inlineLen := v.inlineVec.length
  let (v, newInlineVec) ← popBackInto inlineLen v []
  let newInlineVec := newInlineVec.reverse
  let v ← match v.bigVec with
    | none => some v
    | some big => big.reverse.map fun big ↦ { v with bigVec := some big }
  let tempVec := (moveReversed v.inlineVec []).reverse
  let v := { v with inlineVec := moveReversed newInlineVec [] }
  v.pushBackAll (moveReversed tempVec [])

/-- The first loop of `append`: `count` rounds of `push_back(lhs, swap_remove(other, i))`. -/
def appendSwapRemove [SerializedSize α] :
    Nat → Nat → SmartVector α → SmartVector α → Option (SmartVector α × SmartVector α)
  | 0, _, lhs, other => some (lhs, other)
  | count + 1, i, lhs, other => do
    let (val, other) ← other.swapRemove i
    let lhs ← lhs.pushBack val
    appendSwapRemove count (i + 1) lhs other

/-- The second loop of `append`: `count` rounds of `push_back(lhs, pop_back(other))`. -/
def appendPopBack [SerializedSize α] :
    Nat → SmartVector α → SmartVector α → Option (SmartVector α × SmartVector α)
  | 0, lhs, other => some (lhs, other)
  | count + 1, lhs, other => do
    let (val, other) ← other.popBack
    let lhs ← lhs.pushBack val
    appendPopBack count lhs other

def destroyEmpty (v : SmartVector α) : Option Unit :=
  if v.isEmpty then (match v.bigVec with | none => some () | some _ => none) else none

/-- `append`: the first half of `other` by `swap_remove` from the front, the rest by
`pop_back`. -/
def append [SerializedSize α] (lhs other : SmartVector α) : Option (SmartVector α) := do
  let otherLen := other.length
  let halfOtherLen := otherLen / 2
  let (lhs, other) ← appendSwapRemove halfOtherLen 0 lhs other
  let (lhs, other) ← appendPopBack (otherLen - halfOtherLen) lhs other
  let _ ← other.destroyEmpty
  some lhs

def clear (v : SmartVector α) : Option (SmartVector α) :=
  let v := { v with inlineVec := [] }
  match v.bigVec with
  | none => some v
  | some big => big.destroy.map fun _ ↦ { v with bigVec := none }

def borrow (v : SmartVector α) (i : Nat) : Option α :=
  if i < v.length then
    let inlineLen := v.inlineVec.length
    if i < inlineLen then v.inlineVec[i]?
    else v.bigVec.bind fun big ↦ big.borrow (i - inlineLen)
  else none

/-- `*borrow_mut(v, i) = x`. -/
def borrowMut (v : SmartVector α) (i : Nat) (x : α) : Option (SmartVector α) :=
  if i < v.length then
    let inlineLen := v.inlineVec.length
    if i < inlineLen then (vector.borrowMut v.inlineVec i x).map fun inlineVec ↦ { v with inlineVec }
    else
      match v.bigVec with
      | none => none
      | some big => (big.borrowMut (i - inlineLen) x).map fun big ↦ { v with bigVec := some big }
  else none

/-- `index_of`: the inline vector first, then the big vector with its index shifted by the
inline length. -/
def indexOf [DecidableEq α] (v : SmartVector α) (val : α) : Bool × Nat :=
  let inlineFound := vector.indexOf v.inlineVec val
  if inlineFound.1 then (true, inlineFound.2)
  else
    match v.bigVec with
    | some big =>
      let bigFound := big.indexOf val
      (bigFound.1, bigFound.2 + v.inlineVec.length)
    | none => (false, 0)

def contains [DecidableEq α] (v : SmartVector α) (val : α) : Bool :=
  if v.isEmpty then false else (v.indexOf val).1

/-! ## Validity -/

/-- The big vector is valid and present only when non-empty; the configuration is unset or
fully set, with a positive bucket size. -/
structure Valid (v : SmartVector α) : Prop where
  big_valid : ∀ big ∈ v.bigVec, big.Valid
  big_ne_nil : ∀ big ∈ v.bigVec, big.toVector ≠ []
  config : v.inlineCapacity.isSome = v.bucketSize.isSome
  bucketSize_pos : ∀ bucketSize ∈ v.bucketSize, 0 < bucketSize

@[simp] theorem toVector_mk (inlineVec : List α) (bigVec : Option (BigVector α))
    (inlineCapacity bucketSize : Option Nat) :
    toVector ⟨inlineVec, bigVec, inlineCapacity, bucketSize⟩ =
      inlineVec ++ (bigVec.map BigVector.toVector).getD [] := rfl

/-- Putting a valid big vector back: destroyed when empty, kept otherwise. -/
theorem restoreBig_spec (v : SmartVector α) {big : BigVector α} (hbig : big.Valid) :
    ∃ w, v.restoreBig big = some w ∧ w.toVector = v.inlineVec ++ big.toVector ∧
      w.inlineVec = v.inlineVec ∧ w.inlineCapacity = v.inlineCapacity ∧
      w.bucketSize = v.bucketSize ∧ (∀ b ∈ w.bigVec, b.Valid ∧ b.toVector ≠ []) := by
  unfold restoreBig
  split_ifs with hempty
  · have hnil := hbig.isEmpty_iff.mp hempty
    rw [BigVector.destroyEmpty_of_toVector_eq_nil hbig hnil]
    exact ⟨_, rfl, by simp [toVector, hnil], rfl, rfl, rfl, by simp⟩
  · have hne : big.toVector ≠ [] := fun h ↦ hempty (hbig.isEmpty_iff.mpr h)
    exact ⟨_, rfl, rfl, rfl, rfl, rfl, by simp [hbig, hne]⟩

namespace Valid

variable {v : SmartVector α} (hv : v.Valid)
include hv

theorem length_eq : v.length = v.toVector.length := by
  obtain ⟨inlineVec, bigVec, inlineCapacity, bucketSize⟩ := v
  cases bigVec with
  | none => simp [length]
  | some big =>
    have hbig : big.Valid := hv.big_valid big rfl
    simp [length, hbig.length_eq]

theorem isEmpty_iff : v.isEmpty ↔ v.toVector = [] := by
  rw [isEmpty, decide_eq_true_iff, hv.length_eq, List.length_eq_zero_iff]

theorem length_eq_inline_iff : v.length = v.inlineVec.length ↔ v.bigVec = none := by
  obtain ⟨inlineVec, bigVec, inlineCapacity, bucketSize⟩ := v
  cases bigVec with
  | none => simp [length]
  | some big =>
    have hbig : big.Valid := hv.big_valid big rfl
    have hne : big.toVector ≠ [] := hv.big_ne_nil big rfl
    simp only [length, Option.map_some, Option.getD_some, hbig.length_eq, reduceCtorEq,
      iff_false]
    intro h
    exact hne (List.eq_nil_of_length_eq_zero (by omega))

theorem borrow_eq (i : Nat) : v.borrow i = v.toVector[i]? := by
  obtain ⟨inlineVec, bigVec, inlineCapacity, bucketSize⟩ := v
  unfold borrow
  by_cases hi : i < length ⟨inlineVec, bigVec, inlineCapacity, bucketSize⟩
  · rw [if_pos hi]
    dsimp only
    by_cases hinline : i < inlineVec.length
    · rw [if_pos hinline, toVector_mk, List.getElem?_append_left hinline]
    · rw [if_neg hinline]
      cases bigVec with
      | none =>
        simp only [length, Option.map_none, Option.getD_none, Nat.add_zero] at hi
        exact absurd hi hinline
      | some big =>
        have hbig : big.Valid := hv.big_valid big rfl
        rw [Option.bind_some, hbig.borrow_eq, toVector_mk, Option.map_some, Option.getD_some,
          List.getElem?_append_right (Nat.le_of_not_lt hinline)]
  · rw [if_neg hi]
    rw [hv.length_eq] at hi
    exact (List.getElem?_eq_none (Nat.le_of_not_lt hi)).symm

/-- An operation that keeps the configuration and leaves a valid, non-empty big vector or
none leaves a valid smart vector. -/
theorem of_config_eq {w : SmartVector α} (hbig : ∀ big ∈ w.bigVec, big.Valid ∧ big.toVector ≠ [])
    (hcapacity : w.inlineCapacity = v.inlineCapacity) (hbucket : w.bucketSize = v.bucketSize) :
    w.Valid :=
  ⟨fun big hmem ↦ (hbig big hmem).1, fun big hmem ↦ (hbig big hmem).2,
    by rw [hcapacity, hbucket]; exact hv.config, by rw [hbucket]; exact hv.bucketSize_pos⟩

end Valid

/-- Opening a big vector with a positive bucket size and pushing into it. -/
theorem fillBigVec_pushBig {v : SmartVector α} (hnone : v.bigVec = none) {bucketSize : Nat}
    (hsize : 0 < bucketSize) (val : α) :
    ∃ w, ((v.fillBigVec bucketSize).bind fun v ↦ v.pushBig val) = some w ∧
      w.inlineVec = v.inlineVec ∧ w.inlineCapacity = v.inlineCapacity ∧
      w.bucketSize = v.bucketSize ∧ ∃ big, w.bigVec = some big ∧ big.Valid ∧ big.toVector = [val] := by
  obtain ⟨empty, hempty, hvalid, hnil, -⟩ := BigVector.empty_spec (α := α) hsize
  obtain ⟨big, hpush, hbig, hvec, -⟩ := hvalid.pushBack_spec val
  refine ⟨{ v with bigVec := some big }, ?_, rfl, rfl, rfl, big, rfl, hbig, by rw [hvec, hnil]; rfl⟩
  unfold fillBigVec
  rw [hnone]
  simp only [hempty, Option.map_some, Option.bind_some, pushBig, hpush]

/-- `push_back` never aborts on a valid smart vector and appends. -/
theorem Valid.pushBack_spec [SerializedSize α] {v : SmartVector α} (hv : v.Valid) (val : α) :
    ∃ w, v.pushBack val = some w ∧ w.Valid ∧ w.toVector = v.toVector ++ [val] := by
  cases hbig : v.bigVec with
  | some big =>
    have hbigValid : big.Valid := hv.big_valid big hbig
    have hlen : ¬ v.length = v.inlineVec.length := by
      rw [hv.length_eq_inline_iff, hbig]
      simp
    obtain ⟨big', hpush, hbig', hvec, -⟩ := hbigValid.pushBack_spec val
    refine ⟨{ v with bigVec := some big' }, ?_, hv.of_config_eq ?_ rfl rfl, ?_⟩
    · unfold pushBack
      rw [if_neg hlen]
      simp only [pushBig, hbig, hpush, Option.map_some]
    · simp only [Option.mem_def, Option.some.injEq, forall_eq']
      exact ⟨hbig', by simp [hvec]⟩
    · simp [toVector, hbig, hvec]
  | none =>
    have hlen : v.length = v.inlineVec.length := hv.length_eq_inline_iff.mpr hbig
    have hinline : ∀ capacity, v.inlineCapacity = capacity → ∃ w : SmartVector α,
        some (⟨v.inlineVec ++ [val], v.bigVec, capacity, v.bucketSize⟩ : SmartVector α) = some w ∧
          w.Valid ∧ w.toVector = v.toVector ++ [val] := fun capacity hcapacity ↦
      ⟨_, rfl, hv.of_config_eq (w := ⟨v.inlineVec ++ [val], v.bigVec, capacity, v.bucketSize⟩)
        (by simp [hbig]) hcapacity.symm rfl, by simp [toVector, hbig]⟩
    have hopen : ∀ bucketSize, 0 < bucketSize → ∃ w,
        ((v.fillBigVec bucketSize).bind fun v ↦ v.pushBig val) = some w ∧ w.Valid ∧
          w.toVector = v.toVector ++ [val] := by
      intro bucketSize hsize
      obtain ⟨w, hw, hinl, hcap, hbs, big, hwbig, hbigValid, hvec⟩ :=
        fillBigVec_pushBig hbig hsize val
      refine ⟨w, hw, hv.of_config_eq ?_ hcap hbs, ?_⟩
      · rw [hwbig]
        simp only [Option.mem_def, Option.some.injEq, forall_eq']
        exact ⟨hbigValid, by simp [hvec]⟩
      · simp [toVector, hwbig, hvec, hinl, hbig]
    unfold pushBack
    rw [if_pos hlen]
    dsimp only
    cases hcapacity : v.inlineCapacity with
    | some inlineCapacity =>
      dsimp only
      split_ifs with hroom
      · exact hinline _ hcapacity
      · cases hbucket : v.bucketSize with
        | none =>
          have hconfig := hv.config
          rw [hcapacity, hbucket] at hconfig
          simp at hconfig
        | some bucketSize =>
          exact hopen bucketSize (hv.bucketSize_pos bucketSize hbucket)
    | none =>
      dsimp only
      split_ifs with hsmall
      · exact hinline _ hcapacity
      · exact hopen _ (by omega)

/-- `pop_back` acts on the elements as the vector's does and keeps the smart vector valid. -/
theorem Valid.popBack_spec {v : SmartVector α} (hv : v.Valid) :
    v.popBack.map (fun popped ↦ (popped.1, popped.2.toVector)) = vector.popBack v.toVector ∧
      ∀ val w, v.popBack = some (val, w) → w.Valid := by
  by_cases hempty : v.isEmpty
  · have hpop : v.popBack = none := if_pos hempty
    rw [hpop, hv.isEmpty_iff.mp hempty]
    simp
  · have hpop : v.popBack = match v.bigVec with
        | some big => (big.popBack.bind fun popped ↦ (v.restoreBig popped.2).bind fun w ↦
            some (popped.1, w))
        | none => (vector.popBack v.inlineVec).map fun popped ↦ (popped.1, { v with inlineVec := popped.2 }) :=
      if_neg hempty
    cases hbig : v.bigVec with
    | some big =>
      have hbigValid : big.Valid := hv.big_valid big hbig
      have hne : big.toVector ≠ [] := hv.big_ne_nil big hbig
      obtain ⟨init, last, hsplit⟩ : ∃ init last, big.toVector = init ++ [last] := by
        rcases big.toVector.eq_nil_or_concat' with h | h
        · exact absurd h hne
        · exact h
      obtain ⟨hmap, hkeep⟩ := hbigValid.popBack_spec
      rw [hsplit, vector.popBack_concat] at hmap
      obtain ⟨⟨popped, big'⟩, hbigPop, hpair⟩ := Option.map_eq_some_iff.mp hmap
      obtain ⟨rfl, hvec'⟩ := Prod.mk.inj hpair
      obtain ⟨hbig', -⟩ := hkeep popped big' hbigPop
      obtain ⟨w, hrestore, hwvec, -, hcap, hbs, hwbig⟩ := v.restoreBig_spec hbig'
      rw [hpop, hbig]
      simp only [hbigPop, Option.bind_some, hrestore]
      dsimp only at hvec' hsplit
      have hvtoVector : v.toVector = v.inlineVec ++ init ++ [popped] := by
        simp [toVector, hbig, hsplit]
      refine ⟨?_, ?_⟩
      · rw [hvtoVector, vector.popBack_concat, Option.map_some, hwvec, hvec']
      · intro val w' hw'
        obtain ⟨-, rfl⟩ := Prod.mk.inj (Option.some.inj hw')
        exact hv.of_config_eq hwbig hcap hbs
    | none =>
      rw [hpop, hbig]
      refine ⟨?_, ?_⟩
      · simp only [toVector, hbig, Option.map_none, Option.getD_none, List.append_nil,
          Option.map_map]
        rcases v.inlineVec.eq_nil_or_concat' with h | ⟨init, last, h⟩ <;> simp [h]
      · intro val w hw
        obtain ⟨⟨val', inlineVec⟩, -, hpair⟩ := Option.map_eq_some_iff.mp hw
        obtain ⟨-, rfl⟩ := Prod.mk.inj hpair
        exact hv.of_config_eq (by simp) rfl rfl

section IndexOf

variable [DecidableEq α]

/-- `index_of` finds the first index of a present value; for an absent one it answers
`(false, 0)` without a big vector and `(false, length of inline_vec)` with one. -/
theorem Valid.indexOf_eq {v : SmartVector α} (hv : v.Valid) (val : α) :
    v.indexOf val =
      if val ∈ v.toVector then vector.indexOf v.toVector val
      else (false, if v.bigVec.isSome then v.inlineVec.length else 0) := by
  obtain ⟨inlineVec, bigVec, inlineCapacity, bucketSize⟩ := v
  simp only [indexOf, toVector_mk, vector.indexOf_fst, vector.indexOf_append]
  by_cases hinline : val ∈ inlineVec
  · simp only [hinline, decide_true, if_true, List.mem_append, true_or]
    exact Prod.ext (by simp [hinline]) rfl
  · cases bigVec with
    | none => simp [hinline]
    | some big =>
      have hbig : big.Valid := hv.big_valid big rfl
      simp only [hinline, decide_false, Bool.false_eq_true, if_false, hbig.indexOf_eq,
        Option.map_some, Option.getD_some, List.mem_append, false_or, Option.isSome_some,
        if_true, vector.indexOf_fst]
      by_cases hbigMem : val ∈ big.toVector
      · simp only [hbigMem, if_true, decide_true]
        rw [vector.indexOfFrom_of_mem hbigMem, Nat.add_comm]
      · simp only [hbigMem, if_false, decide_false]
        rw [vector.indexOf_of_not_mem hbigMem, Nat.zero_add]

/-- `empty_with_config(1, 1)`, then `push_back` of `1` and `2`: the `2` opens the big vector,
and `index_of` of the absent `3` answers `(false, 1)`, where `std::vector::index_of` on the same
elements answers `(false, 0)`. -/
theorem indexOf_absent_config_one_one :
    (((emptyWithConfig 1 1 : Option (SmartVector UInt64)).bind (·.pushBack 1)).bind
        (·.pushBack 2)).map (fun v ↦ (v.toVector, v.indexOf 3)) = some ([1, 2], (false, 1)) ∧
      vector.indexOf [1, 2] (3 : UInt64) = (false, 0) := by
  decide

theorem Valid.contains_eq {v : SmartVector α} (hv : v.Valid) (val : α) :
    v.contains val = decide (val ∈ v.toVector) := by
  unfold contains
  split_ifs with hempty
  · rw [hv.isEmpty_iff.mp hempty]
    simp
  · rw [hv.indexOf_eq]
    split_ifs with hmem <;> simp [hmem]

end IndexOf

end SmartVector

end AptosCore.Move
