import AptosCore.Move.SmartTable.Invariant

/-!
# `keys_paginated`

A cursor `(bucket_index, vector_index)` stands for a position in the table's entries taken
bucket after bucket (`CursorAt`). From an accepted cursor, `keys_paginated` returns the next
`num_keys_to_get` keys in that order and a cursor at the position after them, or no cursor once
it has passed the last entry (`keysPaginated_spec`). Feeding each returned cursor back, with any
positive page sizes, therefore returns every key once, in bucket order, within `size + 1` calls
(`keysPaginatedChain_eq`).
-/

namespace AptosCore.Move.SmartTable

open scoped List

variable {K V : Type}

/-! ## Entries from a bucket on -/

/-- The entries of the `count` buckets from `start` on. -/
def entriesFrom (buckets : Nat → Option (List (Entry K V))) (start count : Nat) :
    List (Entry K V) :=
  (List.range' start count).flatMap fun i ↦ (buckets i).getD []

@[simp] theorem entriesFrom_zero (buckets : Nat → Option (List (Entry K V))) (start : Nat) :
    entriesFrom buckets start 0 = [] := rfl

theorem entriesFrom_succ (buckets : Nat → Option (List (Entry K V))) (start count : Nat) :
    entriesFrom buckets start (count + 1) =
      (buckets start).getD [] ++ entriesFrom buckets (start + 1) count := by
  simp [entriesFrom, List.range'_succ]

theorem entriesBelow_add (buckets : Nat → Option (List (Entry K V))) (start count : Nat) :
    entriesBelow buckets (start + count) =
      entriesBelow buckets start ++ entriesFrom buckets start count := by
  unfold entriesBelow entriesFrom
  rw [List.range_eq_range', List.range_eq_range', ← List.range'_append_1, List.flatMap_append,
    Nat.zero_add]

/-! ## One call -/

/-- The inner loop: the keys of the entries left in the bucket, up to the count asked for, and
the cursor after the last one when the count is reached. -/
theorem keysOfBucket_eq [DecidableEq K] [SipHash K] (numBuckets bucketIndex : Nat)
    (bucket : List (Entry K V)) :
    ∀ (rest : List (Entry K V)) (vectorIndex : Nat) (keys : List K) (numKeysToGet : Nat),
      vectorIndex + rest.length = bucket.length → 0 < numKeysToGet →
      keysOfBucket numBuckets bucketIndex bucket rest vectorIndex keys numKeysToGet =
        if rest.length < numKeysToGet then
          .inl (keys ++ rest.map Entry.key, numKeysToGet - rest.length)
        else .inr (keys ++ (rest.take numKeysToGet).map Entry.key,
          if vectorIndex + numKeysToGet = bucket.length then
            if bucketIndex + 1 < numBuckets then (some (bucketIndex + 1), some 0) else (none, none)
          else (some bucketIndex, some (vectorIndex + numKeysToGet)))
  | [], vectorIndex, keys, numKeysToGet, _, hn => by simp [keysOfBucket, hn]
  | entry :: rest, vectorIndex, keys, numKeysToGet, hlen, hn => by
    rw [List.length_cons] at hlen
    rcases Nat.lt_or_ge numKeysToGet 2 with hone | htwo
    · obtain rfl : numKeysToGet = 1 := by omega
      simp only [keysOfBucket, Nat.sub_self, if_true, List.length_cons, List.take_succ_cons,
        List.take_zero, List.map_cons, List.map_nil]
      split_ifs <;> first | rfl | omega
    · obtain ⟨m, rfl⟩ : ∃ m, numKeysToGet = m + 2 := ⟨numKeysToGet - 2, by omega⟩
      have hrest := keysOfBucket_eq numBuckets bucketIndex bucket rest (vectorIndex + 1)
        (keys ++ [entry.key]) (m + 1) (by omega) (Nat.succ_pos m)
      simp only [keysOfBucket]
      rw [show m + 2 - 1 = m + 1 by omega, if_neg (Nat.succ_ne_zero m), hrest, List.length_cons]
      by_cases hlt : rest.length < m + 1
      · rw [if_pos hlt, if_pos (show rest.length + 1 < m + 2 by omega)]
        simp only [List.append_assoc, List.map_cons, List.singleton_append, Sum.inl.injEq,
          Prod.mk.injEq, true_and]
        omega
      · rw [if_neg hlt, if_neg (show ¬ rest.length + 1 < m + 2 by omega)]
        simp only [List.append_assoc, List.take_succ_cons, List.map_cons, List.singleton_append,
          show vectorIndex + 1 + (m + 1) = vectorIndex + (m + 2) by omega]

/-- A cursor `keys_paginated` returns, standing at position `pos` of the entries: one the next
call accepts, or none once `pos` is past the last entry. -/
def CursorAt (table : SmartTable K V) (pos : Nat) : Option Nat × Option Nat → Prop
  | (some bucketIndex, some vectorIndex) => ∃ bucket, table.buckets bucketIndex = some bucket ∧
      bucketIndex < table.numBuckets ∧ (vectorIndex < bucket.length ∨ vectorIndex = 0) ∧
      (entriesBelow table.buckets bucketIndex).length + vectorIndex = pos
  | (none, none) => table.entries.length ≤ pos
  | _ => False

/-- A cursor the next call accepts stands at most at the end of the entries. -/
theorem CursorAt.le_length {table : SmartTable K V} {bucketIndex vectorIndex pos : Nat}
    (hcursor : CursorAt table pos (some bucketIndex, some vectorIndex)) :
    pos ≤ table.entries.length := by
  obtain ⟨bucket, hbucket, hindex, hvector, rfl⟩ := hcursor
  have hentries : table.entries = entriesBelow table.buckets (bucketIndex + 1) ++
      entriesFrom table.buckets (bucketIndex + 1) (table.numBuckets - (bucketIndex + 1)) := by
    rw [entries, ← entriesBelow_add, Nat.add_sub_cancel' hindex]
  rw [hentries, List.length_append, entriesBelow_succ, hbucket, Option.getD_some,
    List.length_append]
  omega

section Calls

variable [DecidableEq K] [SipHash K] {table : SmartTable K V}

/-- The outer loop from bucket `start` and index `vectorIndex` in it: the next keys in bucket
order, and a cursor after them. -/
theorem Inv.keysOfBuckets_spec (h : table.Inv) :
    ∀ (count start vectorIndex : Nat) (keys : List K) (numKeysToGet : Nat),
      start + count = table.numBuckets →
      (∃ bucket, table.buckets start = some bucket ∧ vectorIndex ≤ bucket.length) ∨ count = 0 →
      0 < numKeysToGet →
      ∃ cursor, keysOfBuckets table (List.range' start count) vectorIndex keys numKeysToGet =
          .ok (keys ++ (((entriesFrom table.buckets start count).drop vectorIndex).take
            numKeysToGet).map Entry.key, cursor) ∧
        CursorAt table ((entriesBelow table.buckets start).length + vectorIndex + numKeysToGet) cursor
  | 0, start, vectorIndex, keys, numKeysToGet, hend, _, _ => by
    refine ⟨(none, none), by simp [keysOfBuckets, entriesFrom_zero, pure, Except.pure], ?_⟩
    show (entriesBelow table.buckets table.numBuckets).length ≤ _
    rw [← hend, Nat.add_zero]
    omega
  | count + 1, start, vectorIndex, keys, numKeysToGet, hend, hstart, hn => by
    obtain ⟨bucket, hbucket, hvector⟩ := hstart.resolve_right (Nat.succ_ne_zero count)
    have hbelow : (entriesBelow table.buckets (start + 1)).length =
        (entriesBelow table.buckets start).length + bucket.length := by
      rw [entriesBelow_succ, hbucket, Option.getD_some, List.length_append]
    have hfrom : (entriesFrom table.buckets start (count + 1)).drop vectorIndex =
        bucket.drop vectorIndex ++ entriesFrom table.buckets (start + 1) count := by
      rw [entriesFrom_succ, hbucket, Option.getD_some, List.drop_append_of_le_length hvector]
    simp only [List.range'_succ, keysOfBuckets, tableWithLength.borrow_of_eq_some hbucket,
      pure_bind]
    rw [keysOfBucket_eq _ _ _ _ _ _ _ (by rw [List.length_drop]; omega) hn, hfrom]
    by_cases hlt : (bucket.drop vectorIndex).length < numKeysToGet
    · rw [if_pos hlt]
      dsimp only
      have hnext : (∃ next, table.buckets (start + 1) = some next ∧ 0 ≤ next.length) ∨ count = 0 := by
        rcases Nat.eq_zero_or_pos count with hzero | hpos
        · exact .inr hzero
        · obtain ⟨next, hnext⟩ := h.exists_bucket (show start + 1 < table.numBuckets by omega)
          exact .inl ⟨next, hnext, Nat.zero_le _⟩
      obtain ⟨cursor, hrun, hcursor⟩ := h.keysOfBuckets_spec count (start + 1) 0
        (keys ++ (bucket.drop vectorIndex).map Entry.key)
        (numKeysToGet - (bucket.drop vectorIndex).length) (by omega) hnext (by omega)
      refine ⟨cursor, ?_, ?_⟩
      · rw [hrun, List.drop_zero, List.take_append, List.take_of_length_le (Nat.le_of_lt hlt),
          List.map_append, List.append_assoc]
      · rw [List.length_drop] at hlt hcursor
        have hpos : (entriesBelow table.buckets (start + 1)).length + 0 +
            (numKeysToGet - (bucket.length - vectorIndex)) =
            (entriesBelow table.buckets start).length + vectorIndex + numKeysToGet := by
          clear hcursor hrun hnext
          omega
        rwa [hpos] at hcursor
    · rw [if_neg hlt, List.take_append_of_le_length (Nat.le_of_not_lt hlt)]
      dsimp only
      refine ⟨_, rfl, ?_⟩
      rw [List.length_drop] at hlt
      split_ifs with hlast hmore
      · obtain ⟨next, hnext⟩ := h.exists_bucket hmore
        exact ⟨next, hnext, hmore, .inr rfl, by omega⟩
      · show table.entries.length ≤ _
        have hlen : table.entries.length = (entriesBelow table.buckets (start + 1)).length := by
          rw [entries, show table.numBuckets = start + 1 by omega]
        omega
      · exact ⟨bucket, hbucket, by omega, .inl (by omega), by omega⟩

/-- From a cursor it accepts, `keys_paginated` returns the next keys in bucket order and a
cursor after them. -/
theorem Inv.keysPaginated_spec (h : table.Inv) {bucketIndex vectorIndex pos : Nat}
    (hcursor : CursorAt table pos (some bucketIndex, some vectorIndex)) {numKeysToGet : Nat}
    (hn : 0 < numKeysToGet) :
    ∃ cursor, table.keysPaginated bucketIndex vectorIndex numKeysToGet =
        .ok (((table.entries.map Entry.key).drop pos).take numKeysToGet, cursor) ∧
      CursorAt table (pos + numKeysToGet) cursor := by
  obtain ⟨bucket, hbucket, hindex, hvector, rfl⟩ := hcursor
  have hle : vectorIndex ≤ bucket.length := by omega
  obtain ⟨cursor, hrun, hcursor⟩ := h.keysOfBuckets_spec (table.numBuckets - bucketIndex)
    bucketIndex vectorIndex [] numKeysToGet (by omega) (.inl ⟨bucket, hbucket, hle⟩) hn
  refine ⟨cursor, ?_, hcursor⟩
  have hentries : table.entries = entriesBelow table.buckets bucketIndex ++
      entriesFrom table.buckets bucketIndex (table.numBuckets - bucketIndex) := by
    rw [entries, ← entriesBelow_add, Nat.add_sub_cancel' (Nat.le_of_lt hindex)]
  have hkeys : ((table.entries.map Entry.key).drop
      ((entriesBelow table.buckets bucketIndex).length + vectorIndex)).take numKeysToGet =
      (((entriesFrom table.buckets bucketIndex (table.numBuckets - bucketIndex)).drop
        vectorIndex).take numKeysToGet).map Entry.key := by
    rw [hentries, List.map_append, List.drop_append, List.length_map,
      List.drop_of_length_le (by rw [List.length_map]; omega), List.nil_append,
      Nat.add_sub_cancel_left, List.map_take, List.map_drop]
  unfold keysPaginated
  rw [assert_of_pos hindex, pure_bind, tableWithLength.borrow_of_eq_some hbucket, pure_bind,
    assert_of_pos hvector, pure_bind, if_neg (Nat.ne_of_gt hn), hrun, List.nil_append, hkeys]

end Calls

/-! ## Chained calls -/

/-- Chained `keys_paginated` calls from a cursor, each fed the cursor the one before returned,
the `i`-th asking for the `i`-th page size, until both returned indices are `none`; the cursor
left when the page sizes run out first. -/
def keysPaginatedChain [DecidableEq K] [SipHash K] (table : SmartTable K V) :
    List Nat → Nat → Nat → Except Failure (List K × Option (Nat × Nat))
  | [], bucketIndex, vectorIndex => pure ([], some (bucketIndex, vectorIndex))
  | numKeysToGet :: pageSizes, bucketIndex, vectorIndex => do
    let (keys, cursor) ← table.keysPaginated bucketIndex vectorIndex numKeysToGet
    match cursor with
    | (some bucketIndex, some vectorIndex) => do
      let (rest, last) ← keysPaginatedChain table pageSizes bucketIndex vectorIndex
      pure (keys ++ rest, last)
    | _ => pure (keys, none)

section Chain

variable [DecidableEq K] [SipHash K] {table : SmartTable K V}

/-- The run lemma: with positive page sizes and enough of them, the chain from a cursor returns
every key from its position on. Each call either ends the chain past the last entry or moves the
cursor forward by its page size. -/
theorem Inv.keysPaginatedChain_of_cursorAt (h : table.Inv) :
    ∀ (pageSizes : List Nat) {bucketIndex vectorIndex pos : Nat},
      CursorAt table pos (some bucketIndex, some vectorIndex) → (∀ n ∈ pageSizes, 0 < n) →
      table.entries.length - pos < pageSizes.length →
      table.keysPaginatedChain pageSizes bucketIndex vectorIndex =
        .ok ((table.entries.map Entry.key).drop pos, none)
  | [], _, _, _, _, _, hlen => absurd hlen (Nat.not_lt_zero _)
  | numKeysToGet :: pageSizes, bucketIndex, vectorIndex, pos, hcursor, hpos, hlen => by
    have hn : 0 < numKeysToGet := hpos numKeysToGet List.mem_cons_self
    obtain ⟨cursor, hcall, hnext⟩ := h.keysPaginated_spec hcursor hn
    rcases cursor with ⟨_ | bucketIndex', _ | vectorIndex'⟩
    · have hall : ((table.entries.map Entry.key).drop pos).length ≤ numKeysToGet := by
        rw [List.length_drop, List.length_map]
        exact Nat.sub_le_of_le_add (Nat.add_comm pos numKeysToGet ▸ hnext)
      simp only [keysPaginatedChain, hcall, bind, Except.bind, pure, Except.pure,
        List.take_of_length_le hall]
    · exact hnext.elim
    · exact hnext.elim
    · have hnext' := hnext.le_length
      simp only [keysPaginatedChain, hcall, bind, Except.bind]
      rw [h.keysPaginatedChain_of_cursorAt pageSizes hnext
        (fun n hmem ↦ hpos n (List.mem_cons_of_mem _ hmem))
        (by rw [List.length_cons] at hlen; omega)]
      dsimp only
      rw [← List.drop_drop, List.take_append_drop]
      rfl

/-- Chained from `(0, 0)` with positive page sizes, `size + 1` of them or more, `keys_paginated`
returns every key of the table once, in bucket order, and ends with both indices `none`. -/
theorem Inv.keysPaginatedChain_eq (h : table.Inv) (pageSizes : List Nat)
    (hpos : ∀ n ∈ pageSizes, 0 < n) (hlen : table.size < pageSizes.length) :
    table.keysPaginatedChain pageSizes 0 0 = .ok (table.entries.map Entry.key, none) := by
  have hzero : 0 < table.numBuckets := Nat.lt_of_lt_of_le (Nat.two_pow_pos _) h.level_le
  obtain ⟨bucket, hbucket⟩ := h.exists_bucket hzero
  have hstart : CursorAt table 0 (some 0, some 0) := ⟨bucket, hbucket, hzero, .inr rfl, rfl⟩
  rw [h.keysPaginatedChain_of_cursorAt pageSizes hstart hpos (by rw [← h.size_eq]; omega),
    List.drop_zero]

end Chain

end AptosCore.Move.SmartTable
