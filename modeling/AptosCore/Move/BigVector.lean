import AptosCore.Collections.Chunks
import AptosCore.Move.Vector

/-!
# `aptos_std::big_vector`

`aptos-stdlib/sources/data_structures/big_vector.move`. The table of buckets always has the keys
`0 .. num_buckets`, so it is a list: `table_with_length::add` at key `num_buckets` appends,
`remove` of the last key drops it, and a `remove` followed by an `add` at one key replaces the
bucket there. `none` is an abort.

A big vector is valid when its buckets are a chunking by `bucket_size` and `end_index` counts the
elements (`Valid`). The operations then act on `to_vector` as the vector operations act on a
vector, and keep the big vector valid (`pushBack_spec`, `popBack_spec`, ...).
-/

namespace AptosCore.Move

open Collections

/-- `BigVector<T>`. -/
structure BigVector (α : Type) where
  buckets : List (List α)
  endIndex : Nat
  bucketSize : Nat
  deriving DecidableEq, Repr

namespace BigVector

variable {α : Type}

def empty (bucketSize : Nat) : Option (BigVector α) :=
  if 0 < bucketSize then some ⟨[], 0, bucketSize⟩ else none

def length (v : BigVector α) : Nat := v.endIndex

def isEmpty (v : BigVector α) : Bool := decide (v.length = 0)

/-- `to_vector`: the buckets one after the other. -/
def toVector (v : BigVector α) : List α := v.buckets.flatten

def borrow (v : BigVector α) (i : Nat) : Option α :=
  if i < v.length then v.buckets[i / v.bucketSize]?.bind (·[i % v.bucketSize]?) else none

/-- `*borrow_mut(v, i) = x`. -/
def borrowMut (v : BigVector α) (i : Nat) (x : α) : Option (BigVector α) :=
  if i < v.length then do
    let bucket ← v.buckets[i / v.bucketSize]?
    let bucket ← vector.borrowMut bucket (i % v.bucketSize) x
    some { v with buckets := v.buckets.set (i / v.bucketSize) bucket }
  else none

/-- `push_back`: into the last bucket, or into a new one when every bucket is full. -/
def pushBack (v : BigVector α) (val : α) : Option (BigVector α) :=
  let numBuckets := v.buckets.length
  if v.endIndex = numBuckets * v.bucketSize then
    some { v with buckets := v.buckets ++ [[val]], endIndex := v.endIndex + 1 }
  else do
    let lastBucket ← v.buckets[numBuckets - 1]?
    some { v with buckets := v.buckets.set (numBuckets - 1) (lastBucket ++ [val]),
                  endIndex := v.endIndex + 1 }

def singleton (element : α) (bucketSize : Nat) : Option (BigVector α) := do
  let v ← empty bucketSize
  v.pushBack element

/-- `pop_back`; an emptied last bucket is removed. -/
def popBack (v : BigVector α) : Option (α × BigVector α) :=
  if v.isEmpty then none
  else do
    let numBuckets := v.buckets.length
    let lastBucket ← v.buckets[numBuckets - 1]?
    let (val, lastBucket) ← vector.popBack lastBucket
    let buckets :=
      if lastBucket.isEmpty then v.buckets.dropLast else v.buckets.set (numBuckets - 1) lastBucket
    some (val, { v with buckets, endIndex := v.endIndex - 1 })

/-- The loop of `remove`, `count` rounds from bucket `curBucketIndex`: the head of the current
bucket moves to the end of the one before it. -/
def shiftBuckets : Nat → Nat → List (List α) → Option (List (List α))
  | 0, _, buckets => some buckets
  | count + 1, curBucketIndex, buckets => do
    let curBucket ← buckets[curBucketIndex]?
    let (t, curBucket) ← vector.remove curBucket 0
    let buckets := buckets.set curBucketIndex curBucket
    let prevBucket ← buckets[curBucketIndex - 1]?
    shiftBuckets count (curBucketIndex + 1) (buckets.set (curBucketIndex - 1) (prevBucket ++ [t]))

def remove (v : BigVector α) (i : Nat) : Option (α × BigVector α) :=
  if i < v.length then do
    let numBuckets := v.buckets.length
    let curBucketIndex := i / v.bucketSize + 1
    let curBucket ← v.buckets[curBucketIndex - 1]?
    let (res, curBucket) ← vector.remove curBucket (i % v.bucketSize)
    let buckets ← shiftBuckets (numBuckets - curBucketIndex) curBucketIndex
      (v.buckets.set (curBucketIndex - 1) curBucket)
    let lastBucket ← buckets[numBuckets - 1]?
    let buckets := if lastBucket.isEmpty then buckets.dropLast else buckets
    some (res, { v with buckets, endIndex := v.endIndex - 1 })
  else none

/-- `swap_remove`: `pop_back`, then the popped value takes the place of element `i`. -/
def swapRemove (v : BigVector α) (i : Nat) : Option (α × BigVector α) :=
  if i < v.length then do
    let (lastVal, v) ← v.popBack
    if v.endIndex = i then some (lastVal, v)
    else do
      let bucket ← v.buckets[i / v.bucketSize]?
      let bucketLen := bucket.length
      let (val, bucket) ← vector.swapRemove bucket (i % v.bucketSize)
      let bucket ← vector.swap (bucket ++ [lastVal]) (i % v.bucketSize) (bucketLen - 1)
      some (val, { v with buckets := v.buckets.set (i / v.bucketSize) bucket })
  else none

/-- `swap`. Across two buckets, each element is swap-removed from its bucket, pushed onto the
other one and swapped back into place. -/
def swap (v : BigVector α) (i j : Nat) : Option (BigVector α) :=
  if i < v.length ∧ j < v.length then
    let iBucketIndex := i / v.bucketSize
    let jBucketIndex := j / v.bucketSize
    let iVectorIndex := i % v.bucketSize
    let jVectorIndex := j % v.bucketSize
    if iBucketIndex = jBucketIndex then do
      let bucket ← v.buckets[iBucketIndex]?
      let bucket ← vector.swap bucket iVectorIndex jVectorIndex
      some { v with buckets := v.buckets.set iBucketIndex bucket }
    else do
      let bucketI ← v.buckets[iBucketIndex]?
      let bucketJ ← v.buckets[jBucketIndex]?
      let (elementI, bucketI) ← vector.swapRemove bucketI iVectorIndex
      let (elementJ, bucketJ) ← vector.swapRemove bucketJ jVectorIndex
      let bucketI := bucketI ++ [elementJ]
      let bucketJ := bucketJ ++ [elementI]
      let bucketI ← vector.swap bucketI iVectorIndex (bucketI.length - 1)
      let bucketJ ← vector.swap bucketJ jVectorIndex (bucketJ.length - 1)
      some { v with buckets := (v.buckets.set iBucketIndex bucketI).set jBucketIndex bucketJ }
  else none

/-- The last loop of `reverse`: `count` times, the bucket popped from `newBuckets` is added at
the next key. Leftover buckets abort `destroy_empty`. -/
def refill : Nat → List (List α) → List (List α) → Option (List (List α))
  | 0, newBuckets, buckets => if newBuckets.isEmpty then some buckets else none
  | count + 1, newBuckets, buckets => do
    let (bucket, newBuckets) ← vector.popBack newBuckets
    refill count newBuckets (buckets ++ [bucket])

/-- `reverse`: the buckets are removed from the last one, each is consumed from its end into
buckets of `bucket_size`, and the new buckets are added back in order. -/
def reverse (v : BigVector α) : Option (BigVector α) :=
  let numBuckets := v.buckets.length
  let filled := v.buckets.reverse.foldl
    (fun acc popBucket ↦ popBucket.reverse.foldl (chunkStep v.bucketSize) acc) ([], [])
  let newBuckets := if 0 < filled.2.length then filled.1 ++ [filled.2] else filled.1
  (refill numBuckets newBuckets.reverse []).map fun buckets ↦ { v with buckets }

/-- The loop of `index_of` from bucket `bucketIndex`. -/
def indexOfFrom [DecidableEq α] (bucketSize : Nat) (val : α) :
    List (List α) → Nat → Bool × Nat
  | [], _ => (false, 0)
  | cur :: rest, bucketIndex =>
    let found := vector.indexOf cur val
    if found.1 then (true, bucketIndex * bucketSize + found.2)
    else indexOfFrom bucketSize val rest (bucketIndex + 1)

def indexOf [DecidableEq α] (v : BigVector α) (val : α) : Bool × Nat :=
  indexOfFrom v.bucketSize val v.buckets 0

def contains [DecidableEq α] (v : BigVector α) (val : α) : Bool :=
  if v.isEmpty then false else (v.indexOf val).1

/-- The loop of `destroy`: buckets are removed from key `0` while elements remain; the table
must then be empty. -/
def destroyBuckets : List (List α) → Nat → Option Unit
  | buckets, 0 => if buckets.isEmpty then some () else none
  | [], _ + 1 => none
  | bucket :: rest, endIndex + 1 =>
    if bucket.length ≤ endIndex + 1 then destroyBuckets rest (endIndex + 1 - bucket.length)
    else none

def destroy (v : BigVector α) : Option Unit := destroyBuckets v.buckets v.endIndex

def destroyEmpty (v : BigVector α) : Option Unit :=
  if v.isEmpty then (if v.buckets.isEmpty then some () else none) else none

/-- The first loop of `append`: `count` rounds of `push_back(lhs, swap_remove(&mut other, i))`
from index `i`. -/
def appendSwapRemove : Nat → Nat → BigVector α → BigVector α → Option (BigVector α × BigVector α)
  | 0, _, lhs, other => some (lhs, other)
  | count + 1, i, lhs, other => do
    let (val, other) ← other.swapRemove i
    let lhs ← lhs.pushBack val
    appendSwapRemove count (i + 1) lhs other

/-- The second loop of `append`: `count` rounds of `push_back(lhs, pop_back(&mut other))`. -/
def appendPopBack : Nat → BigVector α → BigVector α → Option (BigVector α × BigVector α)
  | 0, lhs, other => some (lhs, other)
  | count + 1, lhs, other => do
    let (val, other) ← other.popBack
    let lhs ← lhs.pushBack val
    appendPopBack count lhs other

/-- `append`: the first half of `other` by `swap_remove` from the front, the rest by
`pop_back`; `other` is then destroyed empty. -/
def append (lhs other : BigVector α) : Option (BigVector α) := do
  let otherLen := other.length
  let halfOtherLen := otherLen / 2
  let (lhs, other) ← appendSwapRemove halfOtherLen 0 lhs other
  let (lhs, other) ← appendPopBack (otherLen - halfOtherLen) lhs other
  let _ ← other.destroyEmpty
  some lhs

/-! ## Validity -/

/-- The buckets are a chunking by `bucket_size` and `end_index` counts the elements. -/
structure Valid (v : BigVector α) : Prop where
  bucketSize_pos : 0 < v.bucketSize
  chunking : IsChunking v.bucketSize v.buckets
  endIndex_eq : v.endIndex = v.toVector.length

theorem empty_spec {bucketSize : Nat} (hsize : 0 < bucketSize) :
    ∃ v, (empty bucketSize : Option (BigVector α)) = some v ∧ v.Valid ∧ v.toVector = [] ∧
      v.bucketSize = bucketSize :=
  ⟨⟨[], 0, bucketSize⟩, if_pos hsize, ⟨hsize, IsChunking.nil, rfl⟩, rfl, rfl⟩

namespace Valid

variable {v : BigVector α} (hv : v.Valid)
include hv

theorem length_eq : v.length = v.toVector.length := hv.endIndex_eq

theorem isEmpty_iff : v.isEmpty ↔ v.toVector = [] := by
  rw [isEmpty, decide_eq_true_iff, hv.length_eq, List.length_eq_zero_iff]

theorem borrow_eq (i : Nat) : v.borrow i = v.toVector[i]? := by
  unfold borrow
  split_ifs with hi
  · rw [toVector, hv.chunking.getElem?_flatten hv.bucketSize_pos]
  · rw [hv.length_eq] at hi
    exact (List.getElem?_eq_none (Nat.le_of_not_lt hi)).symm

/-- `push_back` never aborts and appends. -/
theorem pushBack_spec (val : α) :
    ∃ w, v.pushBack val = some w ∧ w.Valid ∧ w.toVector = v.toVector ++ [val] ∧
      w.bucketSize = v.bucketSize := by
  obtain ⟨buckets, endIndex, bucketSize⟩ := v
  obtain ⟨hpos, hchunk, hend⟩ := hv
  dsimp only [toVector] at hpos hchunk hend
  unfold pushBack
  dsimp only
  split_ifs with hfull
  · have hall := hchunk.forall_full_of_length (hend ▸ hfull)
    refine ⟨_, rfl, ⟨hpos, IsChunking.concat_iff.mpr ⟨hall, by simp; omega, by simp⟩, ?_⟩, ?_, rfl⟩
    · simp [toVector, hend]
    · simp [toVector]
  · rcases buckets.eq_nil_or_concat' with rfl | ⟨init, last, rfl⟩
    · simp at hfull hend
      omega
    · obtain ⟨hinit, hle, hne⟩ := IsChunking.concat_iff.mp hchunk
      have hflat := length_flatten_concat last hinit
      have hidx : (init ++ [last]).length - 1 = init.length := by simp
      have hroom : last.length < bucketSize := by
        rw [List.length_append, List.length_singleton, Nat.succ_mul] at hfull
        omega
      rw [hidx, List.getElem?_concat_length]
      simp only [Option.bind_eq_bind, Option.bind_some]
      rw [set_length_concat]
      refine ⟨_, rfl, ⟨hpos, IsChunking.concat_iff.mpr ⟨hinit, ?_, by simp⟩, ?_⟩, ?_, rfl⟩
      · dsimp only
        rw [List.length_append, List.length_singleton]
        omega
      · simp [toVector, hend, Nat.add_assoc]
      · simp [toVector]

/-- `pop_back` acts on the elements as the vector's does, and keeps the big vector valid. -/
theorem popBack_spec :
    v.popBack.map (fun popped ↦ (popped.1, popped.2.toVector)) = vector.popBack v.toVector ∧
      ∀ val w, v.popBack = some (val, w) → w.Valid ∧ w.bucketSize = v.bucketSize := by
  obtain ⟨buckets, endIndex, bucketSize⟩ := v
  obtain ⟨hpos, hchunk, hend⟩ := hv
  dsimp only [toVector] at hpos hchunk hend
  rcases buckets.eq_nil_or_concat' with rfl | ⟨init, last, rfl⟩
  · have hpop : popBack ⟨([] : List (List α)), endIndex, bucketSize⟩ = none := by
      simp at hend
      simp [popBack, isEmpty, length, hend]
    rw [hpop]
    exact ⟨by simp [toVector], by simp⟩
  · obtain ⟨hinit, hle, hne⟩ := IsChunking.concat_iff.mp hchunk
    obtain ⟨last', x, rfl⟩ : ∃ last' x, last = last' ++ [x] := by
      rcases last.eq_nil_or_concat' with rfl | ⟨last', x, rfl⟩
      · exact absurd rfl hne
      · exact ⟨last', x, rfl⟩
    have hflat := length_flatten_concat (last' ++ [x]) hinit
    have hidx : (init ++ [last' ++ [x]]).length - 1 = init.length := by simp
    have hbuckets : (if last'.isEmpty then (init ++ [last' ++ [x]]).dropLast
        else (init ++ [last' ++ [x]]).set init.length last') =
        if last' = [] then init else init ++ [last'] := by
      rw [List.dropLast_concat, set_length_concat]
      simp only [List.isEmpty_iff]
    have hpop : popBack ⟨init ++ [last' ++ [x]], endIndex, bucketSize⟩ =
        some (x, ⟨if last' = [] then init else init ++ [last'], endIndex - 1, bucketSize⟩) := by
      have hne : ¬ endIndex = 0 := by
        rw [hend, hflat, List.length_append, List.length_singleton]
        omega
      unfold popBack
      rw [if_neg (by simp [isEmpty, length, hne])]
      dsimp only
      rw [hidx, List.getElem?_concat_length]
      simp only [Option.bind_eq_bind, Option.bind_some, vector.popBack_concat]
      rw [hbuckets]
    have hvec : (if last' = [] then init else init ++ [last']).flatten = init.flatten ++ last' := by
      split_ifs with hlast <;> simp [hlast]
    rw [hpop]
    refine ⟨?_, ?_⟩
    · simp only [Option.map_some, toVector, hvec]
      rw [List.flatten_append, List.flatten_singleton, ← List.append_assoc, vector.popBack_concat]
    · rintro val w hw
      obtain ⟨rfl, rfl⟩ := Prod.mk.inj (Option.some.inj hw)
      refine ⟨⟨hpos, IsChunking.of_full hpos hinit ?_, ?_⟩, rfl⟩
      · simp only [List.length_append, List.length_singleton] at hle
        dsimp only
        omega
      · simp only [toVector, hvec, hend, List.flatten_append, List.flatten_singleton,
          List.length_append, List.length_singleton]
        omega

end Valid

/-- A valid big vector without elements has no bucket, so `destroy_empty` accepts it. -/
theorem destroyEmpty_of_toVector_eq_nil {big : BigVector α} (hbig : big.Valid)
    (hnil : big.toVector = []) : big.destroyEmpty = some () := by
  have hbuckets : big.buckets = [] := by
    rcases hb : big.buckets with _ | ⟨b, rest⟩
    · rfl
    · have hchunk := hbig.chunking
      rw [hb] at hchunk
      obtain ⟨last, hlast⟩ : ∃ last, (b :: rest).getLast? = some last :=
        ⟨(b :: rest).getLast (by simp), List.getLast?_eq_some_getLast _⟩
      have hne := hchunk.last_ne_nil last hlast
      have hmem : last ∈ b :: rest := List.mem_of_getLast? hlast
      rw [BigVector.toVector, hb, List.flatten_eq_nil_iff] at hnil
      exact absurd (hnil last hmem) hne
  unfold BigVector.destroyEmpty
  rw [if_pos (hbig.isEmpty_iff.mpr hnil), hbuckets]
  rfl

section IndexOf

variable [DecidableEq α]

theorem indexOfFrom_nil (bucketSize : Nat) (val : α) (bucketIndex : Nat) :
    indexOfFrom bucketSize val [] bucketIndex = (false, 0) := rfl

theorem indexOfFrom_cons (bucketSize : Nat) (val : α) (cur : List α) (rest : List (List α))
    (bucketIndex : Nat) :
    indexOfFrom bucketSize val (cur :: rest) bucketIndex =
      if (vector.indexOf cur val).1 then (true, bucketIndex * bucketSize + (vector.indexOf cur val).2)
      else indexOfFrom bucketSize val rest (bucketIndex + 1) := rfl

/-- With full buckets, searching bucket by bucket is searching the elements from the first
index of the starting bucket. -/
theorem indexOfFrom_eq {bucketSize : Nat} (val : α) {buckets : List (List α)}
    (hfull : ∀ bucket ∈ buckets.dropLast, bucket.length = bucketSize) (bucketIndex : Nat) :
    indexOfFrom bucketSize val buckets bucketIndex =
      vector.indexOfFrom val buckets.flatten (bucketIndex * bucketSize) := by
  induction buckets generalizing bucketIndex with
  | nil => rfl
  | cons cur rest ih =>
    rw [indexOfFrom_cons, vector.indexOf_fst, List.flatten_cons, vector.indexOfFrom_append]
    by_cases hmem : val ∈ cur
    · rw [decide_eq_true hmem, if_pos rfl, if_pos hmem, vector.indexOfFrom_of_mem hmem]
    · rw [decide_eq_false hmem, if_neg (by simp), if_neg hmem]
      rcases rest.eq_nil_or_concat' with rfl | ⟨restInit, restLast, hrest⟩
      · rfl
      · have hcur : cur.length = bucketSize := hfull cur (by
          rw [List.dropLast_cons_of_ne_nil (by simp [hrest])]
          exact List.mem_cons_self)
        have hfull' : ∀ bucket ∈ rest.dropLast, bucket.length = bucketSize := fun b hb ↦
          hfull b (by
            rw [List.dropLast_cons_of_ne_nil (by simp [hrest])]
            exact List.mem_cons_of_mem _ hb)
        rw [ih hfull', hcur, Nat.succ_mul]

theorem Valid.indexOf_eq {v : BigVector α} (hv : v.Valid) (val : α) :
    v.indexOf val = vector.indexOf v.toVector val := by
  rw [indexOf, indexOfFrom_eq val hv.chunking.full, Nat.zero_mul]
  rfl

theorem Valid.contains_eq {v : BigVector α} (hv : v.Valid) (val : α) :
    v.contains val = decide (val ∈ v.toVector) := by
  unfold contains
  split_ifs with hempty
  · rw [hv.isEmpty_iff.mp hempty]
    simp
  · rw [hv.indexOf_eq, vector.indexOf_fst]

end IndexOf

end BigVector

end AptosCore.Move
