import Mathlib
import AptosCore.Move.SmartVector
import AptosCore.Transition.Reachable

/-!
# `aptos_std::smart_table`

`aptos-stdlib/sources/data_structures/smart_table.move`: a hash table by linear hashing. The
buckets are a `TableWithLength` from `u64` to vectors of entries, here a partial function with
the aborts of the table natives (`tableWithLength`). `sip_hash_from_value` is a class, as
`size_of_val` is for smart vectors. Counters are `Nat`: a `u64` overflow needs more entries or
buckets than any run can pay for. A failed call is `.error`: an `abort` with its code, or a
failed `std::vector` operation.

`add` puts an entry into bucket `bucket_index(level, num_buckets, hash)` and, once the load
factor reaches the threshold, splits bucket `num_buckets ^ (1 << level)` into itself and a new
bucket `num_buckets` (`split_one_bucket`). The operations a caller makes are `Op`; `call` runs
one, and `apply` is the table after it, unchanged when the call aborts.
-/

namespace AptosCore.Move

/-- How a call fails: an `abort` with its code, or a failed `std::vector` operation (an index
out of bounds). -/
inductive Failure where
  | abort (code : Nat)
  | vector
  deriving DecidableEq, Repr

/-- `assert!(cond, code)`. -/
def assert (cond : Prop) [Decidable cond] (code : Nat) : Except Failure Unit :=
  if cond then pure () else throw (.abort code)

@[simp] theorem assert_of_pos {cond : Prop} [Decidable cond] (h : cond) (code : Nat) :
    assert cond code = pure () := if_pos h

@[simp] theorem assert_of_neg {cond : Prop} [Decidable cond] (h : ¬ cond) (code : Nat) :
    assert cond code = .error (.abort code) := if_neg h

namespace error

def canonical (category reason : Nat) : Nat := (category <<< 16) + reason

def invalidArgument (r : Nat) : Nat := canonical 0x1 r

def permissionDenied (r : Nat) : Nat := canonical 0x5 r

end error

/-! The table natives and `table_with_length` on a partial function from keys to values. -/

namespace tableWithLength

variable {κ β : Type} [DecidableEq κ]

/-- `ALREADY_EXISTS` of the table natives. -/
def alreadyExists : Nat := (100 <<< 8) + 7

/-- `NOT_FOUND` of the table natives. -/
def notFound : Nat := (101 <<< 8) + 7

def borrow (table : κ → Option β) (key : κ) : Except Failure β :=
  match table key with
  | some val => pure val
  | none => throw (.abort notFound)

def add (table : κ → Option β) (key : κ) (val : β) : Except Failure (κ → Option β) :=
  if (table key).isSome then throw (.abort alreadyExists)
  else pure (Function.update table key (some val))

def remove (table : κ → Option β) (key : κ) : Except Failure (β × (κ → Option β)) :=
  match table key with
  | some val => pure (val, Function.update table key none)
  | none => throw (.abort notFound)

/-- `*borrow_mut(table, key) = val`. -/
def set (table : κ → Option β) (key : κ) (val : β) : Except Failure (κ → Option β) :=
  if (table key).isSome then pure (Function.update table key (some val))
  else throw (.abort notFound)

omit [DecidableEq κ] in
theorem borrow_of_eq_some {table : κ → Option β} {key : κ} {val : β} (h : table key = some val) :
    borrow table key = pure val := by
  rw [borrow, h]

theorem add_of_eq_none {table : κ → Option β} {key : κ} (h : table key = none) (val : β) :
    add table key val = pure (Function.update table key (some val)) := by
  rw [add, h]
  rfl

theorem set_of_isSome {table : κ → Option β} {key : κ} (h : (table key).isSome) (val : β) :
    set table key val = pure (Function.update table key (some val)) := if_pos h

theorem remove_of_isSome {table : κ → Option β} {key : κ} (h : (table key).isSome) :
    ∃ val, table key = some val ∧ remove table key = pure (val, Function.update table key none) := by
  obtain ⟨val, hval⟩ := Option.isSome_iff_exists.mp h
  exact ⟨val, hval, by rw [remove, hval]⟩

end tableWithLength

/-- `aptos_hash::sip_hash_from_value`: the SipHash of a value's BCS bytes. -/
class SipHash (α : Type) where
  sipHashFromValue : α → Nat

export SipHash (sipHashFromValue)

/-- `Entry<K, V>`. -/
structure Entry (K V : Type) where
  hash : Nat
  key : K
  value : V

/-- BCS writes a struct's fields one after the other; the hash is a `u64`. -/
instance {K V : Type} [SerializedSize K] [SerializedSize V] : SerializedSize (Entry K V) where
  sizeOfVal e := 8 + sizeOfVal e.key + sizeOfVal e.value

/-- `SmartTable<K, V>`. -/
structure SmartTable (K V : Type) where
  buckets : Nat → Option (List (Entry K V))
  numBuckets : Nat
  level : Nat
  size : Nat
  splitLoadThreshold : Nat
  targetBucketSize : Nat

namespace SmartTable

def enotFound : Nat := 1

def ealreadyExist : Nat := 4

def einvalidLoadThresholdPercent : Nat := 5

def eexceedMaxBucketSize : Nat := 7

def einvalidBucketIndex : Nat := 8

def einvalidVectorIndex : Nat := 9

/-- The code `vector::zip` aborts with on vectors of different lengths. -/
def evectorsLengthMismatch : Nat := 0x20002

/-- `bucket_index`: the hash modulo `2 ^ (level + 1)`, or modulo `2 ^ level` for a bucket not
split yet at this level. -/
def bucketIndex (level numBuckets hash : Nat) : Nat :=
  let index := hash % (1 <<< (level + 1))
  if index < numBuckets then
    index
  else
    index % (1 <<< level)

variable {K V : Type} [DecidableEq K] [SipHash K]

/-- `split_one_bucket`: bucket `num_buckets` is added and takes from bucket
`num_buckets ^ (1 << level)` the entries that now address it. -/
def splitOneBucket (table : SmartTable K V) : Except Failure (SmartTable K V) := do
  let newBucketIndex := table.numBuckets
  let toSplit := newBucketIndex ^^^ (1 <<< table.level)
  let numBuckets := newBucketIndex + 1
  let level := if toSplit + 1 = 1 <<< table.level then table.level + 1 else table.level
  let oldBucket ← tableWithLength.borrow table.buckets toSplit
  let some (oldBucket, p) := vector.partition oldBucket
      (fun entry ↦ bucketIndex level numBuckets entry.hash != newBucketIndex)
    | throw .vector
  let some (oldBucket, newBucket) := vector.trimReverse oldBucket p
    | throw .vector
  let buckets ← tableWithLength.add (Function.update table.buckets toSplit (some oldBucket))
    newBucketIndex newBucket
  pure { table with buckets, numBuckets, level }

/-- The loop of `new_with_config`: one split for each initial bucket past the first. -/
def splitInitialBuckets : Nat → SmartTable K V → Except Failure (SmartTable K V)
  | n + 2, table => do splitInitialBuckets (n + 1) (← table.splitOneBucket)
  | _, table => pure table

/-- `new_with_config`: a threshold of zero is the default 75%, and zero initial buckets the
default 2. -/
def newWithConfig (numInitialBuckets splitLoadThreshold targetBucketSize : Nat) :
    Except Failure (SmartTable K V) := do
  assert (splitLoadThreshold ≤ 100) (error.invalidArgument einvalidLoadThresholdPercent)
  let buckets ← tableWithLength.add (fun _ ↦ none) 0 []
  let table : SmartTable K V :=
    { buckets, numBuckets := 1, level := 0, size := 0,
      splitLoadThreshold := if splitLoadThreshold = 0 then 75 else splitLoadThreshold,
      targetBucketSize }
  splitInitialBuckets (if numInitialBuckets = 0 then 2 else numInitialBuckets) table

def new : Except Failure (SmartTable K V) := newWithConfig 0 0 0

/-- `clear`: bucket `0` is emptied and the others removed. -/
def clear (table : SmartTable K V) : Except Failure (SmartTable K V) := do
  let buckets ← tableWithLength.set table.buckets 0 []
  let buckets ← (List.range' 1 (table.numBuckets - 1)).foldlM
    (fun buckets i ↦ Prod.snd <$> tableWithLength.remove buckets i) buckets
  pure { table with buckets, numBuckets := 1, level := 0, size := 0 }

/-- `load_factor`. Move aborts on a zero divisor; `add` calls it with positive ones. -/
def loadFactor (table : SmartTable K V) : Nat :=
  table.size * 100 / table.numBuckets / table.targetBucketSize

/-- `add`, with its per-bucket limit of 10000 entries. -/
def add [SerializedSize K] [SerializedSize V] (table : SmartTable K V) (key : K) (value : V) :
    Except Failure (SmartTable K V) := do
  let hash := sipHashFromValue key
  let index := bucketIndex table.level table.numBuckets hash
  let bucket ← tableWithLength.borrow table.buckets index
  assert (bucket.length ≤ 10000) (error.permissionDenied eexceedMaxBucketSize)
  assert (bucket.all fun e ↦ e.key != key) (error.invalidArgument ealreadyExist)
  let e : Entry K V := ⟨hash, key, value⟩
  let targetBucketSize :=
    if table.targetBucketSize = 0 then max (1024 / max (sizeOfVal e) 1) 1
    else table.targetBucketSize
  let table := { table with
    buckets := Function.update table.buckets index (some (bucket ++ [e])),
    size := table.size + 1, targetBucketSize }
  if table.loadFactor ≥ table.splitLoadThreshold then table.splitOneBucket else pure table

/-- `add_all`: `vector::zip` checks the lengths, then adds the pairs in order. -/
def addAll [SerializedSize K] [SerializedSize V] (table : SmartTable K V) (keys : List K)
    (values : List V) : Except Failure (SmartTable K V) := do
  assert (keys.length = values.length) evectorsLengthMismatch
  (keys.zip values).foldlM (fun table (key, value) ↦ table.add key value) table

def contains (table : SmartTable K V) (key : K) : Except Failure Bool := do
  let hash := sipHashFromValue key
  let index := bucketIndex table.level table.numBuckets hash
  let bucket ← tableWithLength.borrow table.buckets index
  pure (bucket.any fun e ↦ e.hash == hash && e.key == key)

/-- `borrow`: the loop returns the value of the first entry with the key. -/
def borrow (table : SmartTable K V) (key : K) : Except Failure V := do
  let index := bucketIndex table.level table.numBuckets (sipHashFromValue key)
  let bucket ← tableWithLength.borrow table.buckets index
  match bucket.find? (·.key == key) with
  | some entry => pure entry.value
  | none => throw (.abort (error.invalidArgument enotFound))

/-- `*borrow_mut(table, key) = value`: the value of the first entry with the key is
overwritten. -/
def borrowMut (table : SmartTable K V) (key : K) (value : V) : Except Failure (SmartTable K V) := do
  let index := bucketIndex table.level table.numBuckets (sipHashFromValue key)
  let bucket ← tableWithLength.borrow table.buckets index
  match bucket.findIdx? (·.key == key) with
  | some i =>
    let bucket := bucket.modify i fun entry ↦ { entry with value }
    pure { table with buckets := Function.update table.buckets index (some bucket) }
  | none => throw (.abort (error.invalidArgument enotFound))

def borrowWithDefault (table : SmartTable K V) (key : K) (default : V) : Except Failure V := do
  if !(← table.contains key) then pure default else table.borrow key

/-- `remove`: the first entry with the key is swap-removed. -/
def remove (table : SmartTable K V) (key : K) : Except Failure (V × SmartTable K V) := do
  let index := bucketIndex table.level table.numBuckets (sipHashFromValue key)
  let bucket ← tableWithLength.borrow table.buckets index
  match bucket.findIdx? (·.key == key) with
  | some i =>
    let some (entry, bucket) := vector.swapRemove bucket i | throw .vector
    pure (entry.value, { table with
      buckets := Function.update table.buckets index (some bucket), size := table.size - 1 })
  | none => throw (.abort (error.invalidArgument enotFound))

def upsert [SerializedSize K] [SerializedSize V] (table : SmartTable K V) (key : K) (value : V) :
    Except Failure (SmartTable K V) := do
  if !(← table.contains key) then table.add key value else table.borrowMut key value

def length (table : SmartTable K V) : Nat := table.size

/-! ## `keys_paginated` -/

/-- The inner loop of `keys_paginated` over `bucket` from `vector_index`, `entries` being the
entries from there on: `.inl` carries the keys and the count still to get into the next bucket,
`.inr` is a return. -/
def keysOfBucket (numBuckets bucketIndex : Nat) (bucket : List (Entry K V)) :
    List (Entry K V) → Nat → List K → Nat → (List K × Nat) ⊕ (List K × Option Nat × Option Nat)
  | [], _, keys, numKeysToGet => .inl (keys, numKeysToGet)
  | entry :: entries, vectorIndex, keys, numKeysToGet =>
    let keys := keys ++ [entry.key]
    let numKeysToGet := numKeysToGet - 1
    if numKeysToGet = 0 then
      let vectorIndex := vectorIndex + 1
      .inr <|
        if vectorIndex = bucket.length then
          let bucketIndex := bucketIndex + 1
          if bucketIndex < numBuckets then (keys, some bucketIndex, some 0)
          else (keys, none, none)
        else (keys, some bucketIndex, some vectorIndex)
    else keysOfBucket numBuckets bucketIndex bucket entries (vectorIndex + 1) keys numKeysToGet

/-- The outer loop of `keys_paginated` over the bucket indices left. -/
def keysOfBuckets (table : SmartTable K V) :
    List Nat → Nat → List K → Nat → Except Failure (List K × Option Nat × Option Nat)
  | [], _, keys, _ => pure (keys, none, none)
  | bucketIndex :: rest, startingVectorIndex, keys, numKeysToGet => do
    let bucket ← tableWithLength.borrow table.buckets bucketIndex
    match keysOfBucket table.numBuckets bucketIndex bucket (bucket.drop startingVectorIndex)
        startingVectorIndex keys numKeysToGet with
    | .inr result => pure result
    | .inl (keys, numKeysToGet) =>
      keysOfBuckets table rest 0 keys numKeysToGet

/-- `keys_paginated`: the keys from a cursor on, and the cursor after them. -/
def keysPaginated (table : SmartTable K V) (startingBucketIndex startingVectorIndex
    numKeysToGet : Nat) : Except Failure (List K × Option Nat × Option Nat) := do
  assert (startingBucketIndex < table.numBuckets) einvalidBucketIndex
  let bucket ← tableWithLength.borrow table.buckets startingBucketIndex
  assert (startingVectorIndex < bucket.length ∨ startingVectorIndex = 0) einvalidVectorIndex
  if numKeysToGet = 0 then pure ([], some startingBucketIndex, some startingVectorIndex)
  else
    keysOfBuckets table
      (List.range' startingBucketIndex (table.numBuckets - startingBucketIndex))
      startingVectorIndex [] numKeysToGet

/-! ## Calls -/

/-- A call a caller makes; `borrowMut` writes a value through the returned reference. -/
inductive Op (K V : Type) where
  | add (key : K) (value : V)
  | addAll (keys : List K) (values : List V)
  | remove (key : K)
  | upsert (key : K) (value : V)
  | borrow (key : K)
  | borrowMut (key : K) (value : V)
  | borrowWithDefault (key : K) (default : V)
  | contains (key : K)
  | clear
  | length

/-- What a call returns. -/
inductive Output (V : Type) where
  | unit
  | value (value : V)
  | bool (b : Bool)
  | length (n : Nat)
  deriving DecidableEq

/-- Runs one call. -/
def call [SerializedSize K] [SerializedSize V] (table : SmartTable K V) :
    Op K V → Except Failure (SmartTable K V × Output V)
  | .add key value => (·, .unit) <$> table.add key value
  | .addAll keys values => (·, .unit) <$> table.addAll keys values
  | .remove key => (fun (value, table) ↦ (table, .value value)) <$> table.remove key
  | .upsert key value => (·, .unit) <$> table.upsert key value
  | .borrow key => (table, .value ·) <$> table.borrow key
  | .borrowMut key value => (·, .unit) <$> table.borrowMut key value
  | .borrowWithDefault key default => (table, .value ·) <$> table.borrowWithDefault key default
  | .contains key => (table, .bool ·) <$> table.contains key
  | .clear => (·, .unit) <$> table.clear
  | .length => pure (table, .length table.length)

/-- The table after a call: an aborted call leaves it as it was. -/
def apply [SerializedSize K] [SerializedSize V] (table : SmartTable K V) (op : Op K V) :
    SmartTable K V :=
  match table.call op with
  | .ok (table, _) => table
  | .error _ => table

end SmartTable

end AptosCore.Move
