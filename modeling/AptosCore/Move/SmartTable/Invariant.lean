import AptosCore.Move.SmartTable

/-!
# The linear-hashing invariant of `smart_table`

A table is well formed (`Inv`) when `2 ^ level ≤ num_buckets < 2 ^ (level + 1)`, exactly the
buckets `0 .. num_buckets` exist, every entry carries the hash of its key and lies in the bucket
its hash addresses, no key occurs twice, and `size` counts the entries.

Splitting bucket `num_buckets ^ (1 << level)` moves a hash to the new bucket `num_buckets` exactly
when the hash modulo `2 ^ (level + 1)` is `num_buckets`, and leaves every other hash where it was
(`bucketIndex_split`). So `split_one_bucket` keeps the invariant and permutes the entries
(`Inv.splitOneBucket_spec`), and every table `new_with_config` returns is well formed and empty.
-/

namespace AptosCore.Move.SmartTable

open scoped List

/-! ## Bucket addressing -/

theorem bucketIndex_eq (level numBuckets hash : Nat) :
    bucketIndex level numBuckets hash =
      if hash % 2 ^ (level + 1) < numBuckets then hash % 2 ^ (level + 1)
      else hash % 2 ^ level := by
  unfold bucketIndex
  simp only [Nat.one_shiftLeft]
  split_ifs
  · rfl
  · exact Nat.mod_mod_of_dvd hash (Nat.pow_dvd_pow 2 (Nat.le_succ level))

theorem bucketIndex_lt {level numBuckets : Nat} (hle : 2 ^ level ≤ numBuckets) (hash : Nat) :
    bucketIndex level numBuckets hash < numBuckets := by
  rw [bucketIndex_eq]
  split_ifs with h
  · exact h
  · exact Nat.lt_of_lt_of_le (Nat.mod_lt _ (Nat.two_pow_pos level)) hle

/-- From `2 ^ level` up to `2 ^ (level + 1)`, `^ (1 << level)` clears the top bit. -/
theorem xor_two_pow_of_le_of_lt {level n : Nat} (hle : 2 ^ level ≤ n)
    (hlt : n < 2 ^ (level + 1)) : n ^^^ 2 ^ level = n - 2 ^ level := by
  have hrest : n - 2 ^ level < 2 ^ level := by
    rw [Nat.pow_succ] at hlt
    omega
  have hor : n = 2 ^ level ||| (n - 2 ^ level) := by
    have hsum := Nat.two_pow_add_eq_or_of_lt hrest 1
    rw [Nat.mul_one] at hsum
    omega
  apply Nat.eq_of_testBit_eq
  intro i
  conv_lhs => rw [hor]
  rw [Nat.testBit_xor, Nat.testBit_or, Nat.testBit_two_pow]
  by_cases hi : level = i
  · subst hi
    rw [Nat.testBit_lt_two_pow hrest]
    simp
  · simp [hi]

/-- A residue modulo `2 ^ (k + 1)` below `2 ^ k` is the residue modulo `2 ^ k`. -/
theorem mod_two_pow_succ_of_lt {hash k : Nat} (h : hash % 2 ^ (k + 1) < 2 ^ k) :
    hash % 2 ^ (k + 1) = hash % 2 ^ k := by
  rw [← Nat.mod_eq_of_lt h, Nat.mod_mod_of_dvd hash (Nat.pow_dvd_pow 2 (Nat.le_succ k))]

/-- A hash whose residue modulo `2 ^ (level + 1)` is `num_buckets` lies in the bucket that
`split_one_bucket` splits next. -/
theorem bucketIndex_of_mod_eq {level n hash : Nat} (hle : 2 ^ level ≤ n)
    (hmod : hash % 2 ^ (level + 1) = n) : bucketIndex level n hash = n - 2 ^ level := by
  have hlt : n < 2 ^ (level + 1) := hmod ▸ Nat.mod_lt _ (Nat.two_pow_pos _)
  have hrest : n - 2 ^ level < 2 ^ level := by
    rw [Nat.pow_succ] at hlt
    omega
  rw [bucketIndex_eq, if_neg (by omega),
    ← Nat.mod_mod_of_dvd hash (Nat.pow_dvd_pow 2 (Nat.le_succ level)), hmod,
    Nat.mod_eq_sub_mod hle, Nat.mod_eq_of_lt hrest]

theorem level_split {level n : Nat} (hle : 2 ^ level ≤ n) (hlt : n < 2 ^ (level + 1)) :
    2 ^ (if n + 1 = 2 ^ (level + 1) then level + 1 else level) ≤ n + 1 ∧
      n + 1 < 2 ^ ((if n + 1 = 2 ^ (level + 1) then level + 1 else level) + 1) := by
  have hpow : 2 ^ (level + 1 + 1) = 2 * 2 ^ (level + 1) := by rw [Nat.pow_succ, Nat.mul_comm]
  split_ifs with hfull
  · omega
  · omega

/-- A split moves a hash to the new bucket `n` exactly when its residue modulo
`2 ^ (level + 1)` is `n`, and leaves every other hash in its bucket. -/
theorem bucketIndex_split (level n hash : Nat) :
    bucketIndex (if n + 1 = 2 ^ (level + 1) then level + 1 else level) (n + 1) hash =
      if hash % 2 ^ (level + 1) = n then n else bucketIndex level n hash := by
  have hmod : hash % 2 ^ (level + 1) < 2 ^ (level + 1) := Nat.mod_lt _ (Nat.two_pow_pos _)
  have hold : hash % 2 ^ (level + 1) < n → bucketIndex level n hash = hash % 2 ^ (level + 1) :=
    fun hlow ↦ by rw [bucketIndex_eq, if_pos hlow]
  split_ifs with hfull heq heq
  · rw [bucketIndex_eq, hfull]
    split_ifs with hlow
    · rw [mod_two_pow_succ_of_lt hlow, heq]
    · exact heq
  · rw [hold (by omega), bucketIndex_eq, hfull]
    split_ifs with hlow
    · exact mod_two_pow_succ_of_lt hlow
    · rfl
  · rw [bucketIndex_eq, if_pos (by omega), heq]
  · rw [bucketIndex_eq, bucketIndex_eq]
    by_cases hlow : hash % 2 ^ (level + 1) < n
    · rw [if_pos (by omega), if_pos hlow]
    · rw [if_neg (by omega), if_neg hlow]

/-! ## The entries of a table -/

section Entries

variable {K V : Type}

/-- The entries of the buckets below `n`, bucket after bucket. -/
def entriesBelow (buckets : Nat → Option (List (Entry K V))) (n : Nat) : List (Entry K V) :=
  (List.range n).flatMap fun i ↦ (buckets i).getD []

/-- The entries of a table, in the order `keys_paginated` visits them. -/
def entries (table : SmartTable K V) : List (Entry K V) :=
  entriesBelow table.buckets table.numBuckets

@[simp] theorem entriesBelow_zero (buckets : Nat → Option (List (Entry K V))) :
    entriesBelow buckets 0 = [] := rfl

theorem entriesBelow_succ (buckets : Nat → Option (List (Entry K V))) (n : Nat) :
    entriesBelow buckets (n + 1) = entriesBelow buckets n ++ (buckets n).getD [] := by
  simp [entriesBelow, List.range_succ]

theorem entriesBelow_congr {buckets buckets' : Nat → Option (List (Entry K V))} {n : Nat}
    (h : ∀ i < n, buckets i = buckets' i) : entriesBelow buckets n = entriesBelow buckets' n := by
  unfold entriesBelow
  exact List.flatMap_congr fun i hi ↦ by rw [h i (List.mem_range.mp hi)]

theorem mem_entriesBelow {buckets : Nat → Option (List (Entry K V))} {n : Nat} {e : Entry K V} :
    e ∈ entriesBelow buckets n ↔ ∃ i < n, ∃ bucket, buckets i = some bucket ∧ e ∈ bucket := by
  simp only [entriesBelow, List.mem_flatMap, List.mem_range]
  constructor
  · rintro ⟨i, hi, he⟩
    cases hbucket : buckets i with
    | none => simp [hbucket] at he
    | some bucket => exact ⟨i, hi, bucket, hbucket, by simpa [hbucket] using he⟩
  · rintro ⟨i, hi, bucket, hbucket, he⟩
    exact ⟨i, hi, by simpa [hbucket] using he⟩

/-- Replacing one bucket below `n` trades its entries for the new ones. -/
theorem entriesBelow_update_perm {buckets : Nat → Option (List (Entry K V))} {n i : Nat}
    (hi : i < n) {old : List (Entry K V)} (hold : buckets i = some old) (new : List (Entry K V)) :
    (entriesBelow (Function.update buckets i (some new)) n ++ old).Perm
      (entriesBelow buckets n ++ new) := by
  induction n with
  | zero => omega
  | succ n ih =>
    rw [entriesBelow_succ, entriesBelow_succ]
    rcases Nat.lt_or_ge i n with hlt | hge
    · rw [Function.update_of_ne (Nat.ne_of_gt hlt)]
      calc entriesBelow (Function.update buckets i (some new)) n ++ (buckets n).getD [] ++ old
          _ ~ entriesBelow (Function.update buckets i (some new)) n ++ old ++ (buckets n).getD [] := by
            rw [List.append_assoc, List.append_assoc]
            exact List.Perm.append_left _ List.perm_append_comm
          _ ~ entriesBelow buckets n ++ new ++ (buckets n).getD [] := (ih hlt).append_right _
          _ ~ entriesBelow buckets n ++ (buckets n).getD [] ++ new := by
            rw [List.append_assoc, List.append_assoc]
            exact List.Perm.append_left _ List.perm_append_comm
    · obtain rfl : i = n := by omega
      rw [entriesBelow_congr fun j hj ↦ Function.update_of_ne (Nat.ne_of_lt hj) _ _,
        Function.update_self, hold]
      simp only [Option.getD_some, List.append_assoc]
      exact List.Perm.append_left _ List.perm_append_comm

end Entries

/-! ## The invariant -/

section Invariant

variable {K V : Type} [SipHash K]

/-- The bucket a key addresses. -/
def keyIndex (table : SmartTable K V) (key : K) : Nat :=
  bucketIndex table.level table.numBuckets (sipHashFromValue key)

/-- A well-formed table. -/
structure Inv (table : SmartTable K V) : Prop where
  level_le : 2 ^ table.level ≤ table.numBuckets
  lt_level : table.numBuckets < 2 ^ (table.level + 1)
  isSome_iff : ∀ i, (table.buckets i).isSome ↔ i < table.numBuckets
  placed : ∀ i bucket, table.buckets i = some bucket → ∀ e ∈ bucket,
    e.hash = sipHashFromValue e.key ∧ bucketIndex table.level table.numBuckets e.hash = i
  nodup : (table.entries.map Entry.key).Nodup
  size_eq : table.size = table.entries.length

variable {table : SmartTable K V}

theorem Inv.exists_bucket (h : table.Inv) {i : Nat} (hi : i < table.numBuckets) :
    ∃ bucket, table.buckets i = some bucket :=
  Option.isSome_iff_exists.mp ((h.isSome_iff i).mpr hi)

theorem Inv.buckets_eq_none (h : table.Inv) {i : Nat} (hi : table.numBuckets ≤ i) :
    table.buckets i = none :=
  Option.not_isSome_iff_eq_none.mp fun hsome ↦ absurd ((h.isSome_iff i).mp hsome) (by omega)

theorem Inv.keyIndex_lt (h : table.Inv) (key : K) : table.keyIndex key < table.numBuckets :=
  bucketIndex_lt h.level_le _

/-- An entry with a given key can only be in the bucket the key addresses. -/
theorem Inv.mem_entries_iff (h : table.Inv) {key : K} {bucket : List (Entry K V)}
    (hbucket : table.buckets (table.keyIndex key) = some bucket) {e : Entry K V}
    (hkey : e.key = key) : e ∈ table.entries ↔ e ∈ bucket := by
  constructor
  · intro he
    obtain ⟨i, -, bucket', hbucket', he'⟩ := mem_entriesBelow.mp he
    obtain ⟨hhash, hindex⟩ := h.placed i bucket' hbucket' e he'
    have hi : i = table.keyIndex key := by rw [← hindex, hhash, hkey]; rfl
    rw [hi, hbucket] at hbucket'
    exact Option.some.inj hbucket' ▸ he'
  · intro he
    exact mem_entriesBelow.mpr ⟨_, h.keyIndex_lt key, bucket, hbucket, he⟩

/-! ## `split_one_bucket` -/

/-- Where an entry of bucket `j` goes in a split: to the new bucket `n` when its residue
modulo `2 ^ (level + 1)` is `n`, and otherwise nowhere. -/
theorem Inv.bucketIndex_split_of_mem (h : table.Inv) {j : Nat} {bucket : List (Entry K V)}
    (hbucket : table.buckets j = some bucket) {e : Entry K V} (he : e ∈ bucket) :
    bucketIndex (if table.numBuckets + 1 = 2 ^ (table.level + 1) then table.level + 1
        else table.level) (table.numBuckets + 1) e.hash =
      if e.hash % 2 ^ (table.level + 1) = table.numBuckets then table.numBuckets else j := by
  rw [bucketIndex_split, (h.placed j bucket hbucket e he).2]

omit [SipHash K] in
/-- What `split_one_bucket` computes, once the bucket to split and its partition are known: the
entries that stay keep their order, the moved ones come out reversed. -/
theorem splitOneBucket_eq {old w : List (Entry K V)} {p : Nat}
    (hold : table.buckets (table.numBuckets ^^^ (1 <<< table.level)) = some old)
    (hpart : vector.partition old (fun entry ↦ bucketIndex
        (if (table.numBuckets ^^^ (1 <<< table.level)) + 1 = 1 <<< table.level then table.level + 1
          else table.level) (table.numBuckets + 1) entry.hash != table.numBuckets) = some (w, p))
    (hp : p ≤ w.length) (hnew : table.buckets table.numBuckets = none) :
    table.splitOneBucket = .ok { table with
      buckets := Function.update
        (Function.update table.buckets (table.numBuckets ^^^ (1 <<< table.level)) (some (w.take p)))
        table.numBuckets (some (w.drop p).reverse),
      numBuckets := table.numBuckets + 1,
      level := if (table.numBuckets ^^^ (1 <<< table.level)) + 1 = 1 <<< table.level then
        table.level + 1 else table.level } := by
  have hne : table.numBuckets ^^^ (1 <<< table.level) ≠ table.numBuckets := by
    intro heq
    rw [heq, hnew] at hold
    cases hold
  have hadd := @tableWithLength.add_of_eq_none Nat (List (Entry K V)) _
    (Function.update table.buckets (table.numBuckets ^^^ (1 <<< table.level)) (some (w.take p)))
    table.numBuckets (by rw [Function.update_of_ne (Ne.symm hne)]; exact hnew)
  unfold splitOneBucket
  simp only [tableWithLength.borrow_of_eq_some hold, pure_bind, hpart, vector.trimReverse_of_le hp,
    hadd]
  rfl

/-- `split_one_bucket` keeps a table well formed, with the same entries. -/
theorem Inv.splitOneBucket_spec (h : table.Inv) :
    ∃ table', table.splitOneBucket = .ok table' ∧ table'.Inv ∧ table'.entries.Perm table.entries ∧
      table'.size = table.size ∧ table'.splitLoadThreshold = table.splitLoadThreshold ∧
      table'.targetBucketSize = table.targetBucketSize := by
  have hle := h.level_le
  have hlt := h.lt_level
  have hpow : 2 ^ (table.level + 1) = 2 * 2 ^ table.level := by rw [Nat.pow_succ, Nat.mul_comm]
  have htoSplit : table.numBuckets ^^^ (1 <<< table.level) = table.numBuckets - 2 ^ table.level := by
    rw [Nat.one_shiftLeft]
    exact xor_two_pow_of_le_of_lt hle hlt
  have hlevel : (if (table.numBuckets ^^^ (1 <<< table.level)) + 1 = 1 <<< table.level then
        table.level + 1 else table.level) =
      if table.numBuckets + 1 = 2 ^ (table.level + 1) then table.level + 1 else table.level := by
    rw [htoSplit, Nat.one_shiftLeft]
    split_ifs <;> omega
  have hs : table.numBuckets - 2 ^ table.level < table.numBuckets := by
    have := Nat.two_pow_pos table.level
    omega
  obtain ⟨old, hold⟩ := h.exists_bucket hs
  obtain ⟨w, p, hpart, hperm, hp, htake, hdrop⟩ := vector.partition_spec old fun entry ↦
    bucketIndex (if (table.numBuckets ^^^ (1 <<< table.level)) + 1 = 1 <<< table.level then
      table.level + 1 else table.level) (table.numBuckets + 1) entry.hash != table.numBuckets
  have hrun := splitOneBucket_eq (htoSplit ▸ hold) hpart hp (h.buckets_eq_none (Nat.le_refl _))
  rw [hlevel, htoSplit] at hrun
  rw [hlevel] at htake hdrop
  have hstay : ∀ e ∈ w.take p, e ∈ old ∧ bucketIndex
      (if table.numBuckets + 1 = 2 ^ (table.level + 1) then table.level + 1 else table.level)
      (table.numBuckets + 1) e.hash ≠ table.numBuckets := fun e he ↦
    ⟨hperm.mem_iff.mp (List.mem_of_mem_take he), by simpa using htake e he⟩
  have hmove : ∀ e ∈ (w.drop p).reverse, e ∈ old ∧ bucketIndex
      (if table.numBuckets + 1 = 2 ^ (table.level + 1) then table.level + 1 else table.level)
      (table.numBuckets + 1) e.hash = table.numBuckets := fun e he ↦
    ⟨hperm.mem_iff.mp (List.mem_of_mem_drop (List.mem_reverse.mp he)),
      by simpa using hdrop e (List.mem_reverse.mp he)⟩
  have hentries : (entriesBelow (Function.update
      (Function.update table.buckets (table.numBuckets - 2 ^ table.level) (some (w.take p)))
      table.numBuckets (some (w.drop p).reverse)) (table.numBuckets + 1)).Perm table.entries := by
    rw [← List.perm_append_right_iff old, entriesBelow_succ,
      entriesBelow_congr fun i hi ↦ Function.update_of_ne (Nat.ne_of_lt hi) _ _,
      Function.update_self, Option.getD_some]
    calc _ ~ entriesBelow (Function.update table.buckets (table.numBuckets - 2 ^ table.level)
            (some (w.take p))) table.numBuckets ++ old ++ (w.drop p).reverse := by
          rw [List.append_assoc, List.append_assoc]
          exact List.perm_append_comm.append_left _
      _ ~ table.entries ++ w.take p ++ (w.drop p).reverse :=
          (entriesBelow_update_perm hs hold _).append_right _
      _ ~ table.entries ++ w := by
          rw [List.append_assoc]
          conv_rhs => rw [← List.take_append_drop p w]
          exact ((List.reverse_perm _).append_left _).append_left _
      _ ~ table.entries ++ old := hperm.append_left _
  refine ⟨_, hrun, ⟨(level_split hle hlt).1, (level_split hle hlt).2, fun i ↦ ?_, ?_,
    (hentries.map _).nodup_iff.mpr h.nodup, h.size_eq.trans hentries.length_eq.symm⟩,
    hentries, rfl, rfl, rfl⟩
  · simp only [Function.update_apply]
    split_ifs with hnew hsplit
    · simp [hnew]
    · simp only [Option.isSome_some, true_iff]
      omega
    · rw [h.isSome_iff i]
      omega
  · intro i bucket hbucket e he
    simp only [Function.update_apply] at hbucket
    split_ifs at hbucket with hnew hsplit
    · cases hbucket
      obtain ⟨hold', hindex⟩ := hmove e he
      exact ⟨(h.placed _ old hold e hold').1, hnew ▸ hindex⟩
    · cases hbucket
      obtain ⟨hold', hindex⟩ := hstay e he
      refine ⟨(h.placed _ old hold e hold').1, ?_⟩
      rw [h.bucketIndex_split_of_mem hold hold'] at hindex ⊢
      rw [if_neg fun hres ↦ hindex (if_pos hres), hsplit]
    · refine ⟨(h.placed i bucket hbucket e he).1, ?_⟩
      rw [h.bucketIndex_split_of_mem hbucket he, if_neg]
      intro hres
      have hindex := (h.placed i bucket hbucket e he).2
      rw [bucketIndex_of_mod_eq hle hres] at hindex
      exact hsplit hindex.symm

/-! ## `new_with_config` -/

/-- The loop of `new_with_config` keeps a table well formed, with the same entries. -/
theorem Inv.splitInitialBuckets_spec (n : Nat) (h : table.Inv) :
    ∃ table', splitInitialBuckets n table = .ok table' ∧ table'.Inv ∧
      table'.entries.Perm table.entries ∧ table'.size = table.size := by
  induction n generalizing table with
  | zero => exact ⟨table, rfl, h, List.Perm.refl _, rfl⟩
  | succ n ih =>
    cases n with
    | zero => exact ⟨table, rfl, h, List.Perm.refl _, rfl⟩
    | succ n =>
      obtain ⟨split, hsplit, hinv, hperm, hsize, -, -⟩ := h.splitOneBucket_spec
      obtain ⟨table', hrest, hinv', hperm', hsize'⟩ := ih hinv
      refine ⟨table', ?_, hinv', hperm'.trans hperm, hsize'.trans hsize⟩
      simp only [splitInitialBuckets, hsplit]
      exact hrest

/-- The table `new_with_config` starts from: bucket `0`, empty. -/
theorem inv_initial (splitLoadThreshold targetBucketSize : Nat) :
    Inv ({ buckets := Function.update (fun _ ↦ none) 0 (some []), numBuckets := 1,
           level := 0, size := 0, splitLoadThreshold, targetBucketSize } : SmartTable K V) := by
  refine ⟨by simp, by simp, fun i ↦ ?_, fun i bucket hbucket e he ↦ ?_, by simp [entries, entriesBelow],
    by simp [entries, entriesBelow]⟩
  · by_cases hi : i = 0
    · simp [hi]
    · simp [Function.update_of_ne hi]
      omega
  · by_cases hi : i = 0
    · subst hi
      simp only [Function.update_self, Option.some.injEq] at hbucket
      subst hbucket
      exact absurd he List.not_mem_nil
    · simp [hi] at hbucket

/-- Every table `new_with_config` returns is well formed and empty. -/
theorem newWithConfig_spec {numInitialBuckets splitLoadThreshold targetBucketSize : Nat}
    (hnew : newWithConfig numInitialBuckets splitLoadThreshold targetBucketSize = .ok table) :
    table.Inv ∧ table.entries = [] ∧ table.size = 0 := by
  unfold newWithConfig at hnew
  by_cases hthreshold : splitLoadThreshold ≤ 100
  · rw [assert_of_pos hthreshold, pure_bind,
      tableWithLength.add_of_eq_none rfl, pure_bind] at hnew
    obtain ⟨table', hrun, hinv, hperm, hsize⟩ :=
      (@inv_initial K V _ (if splitLoadThreshold = 0 then 75 else splitLoadThreshold)
        targetBucketSize).splitInitialBuckets_spec
        (if numInitialBuckets = 0 then 2 else numInitialBuckets)
    rw [hrun] at hnew
    cases hnew
    exact ⟨hinv, List.Perm.eq_nil hperm, hsize⟩
  · rw [assert_of_neg hthreshold] at hnew
    cases hnew

end Invariant

end AptosCore.Move.SmartTable
