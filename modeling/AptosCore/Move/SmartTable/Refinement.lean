import Mathlib
import AptosCore.Move.SmartTable.Pagination
import AptosCore.Rust.Result

/-!
# `smart_table` refines a finite map

The abstract table is a finite map (`Finmap`), and `mapCall` says what each call does to it and
what it returns, as the module documents them. A well-formed table stands for the map from the
keys of its entries to their values (`toFinmap`). Every call keeps a table well formed
(`Inv.call_inv`) and, unless it adds into a bucket already over the 10000-entry bound
(`Blocked`), returns what the call on the map returns and leaves the table standing for the map
the call leaves (`Inv.call_refines`). An add into such a bucket aborts with
`EEXCEED_MAX_BUCKET_SIZE` (`Inv.call_blocked`), also when the key is present: the bound is
checked before the key.
-/

namespace AptosCore.Move

/-- The key and the value of an entry. -/
def Entry.toSigma {K V : Type} (e : Entry K V) : Σ _ : K, V := ⟨e.key, e.value⟩

namespace SmartTable

open scoped List

variable {K V : Type}

/-! ## The map of a list of entries -/

/-- The map from the keys of the entries to their values. -/
def mapOf [DecidableEq K] (entries : List (Entry K V)) : Finmap (fun _ : K ↦ V) :=
  (entries.map Entry.toSigma).toFinmap

section MapOf

variable {entries entries' : List (Entry K V)}

theorem nodupKeys_map_toSigma (hnodup : (entries.map Entry.key).Nodup) :
    (entries.map Entry.toSigma).NodupKeys := by
  unfold List.NodupKeys List.keys
  rwa [List.map_map]

variable [DecidableEq K]

theorem lookup_mapOf_eq_some_iff (hnodup : (entries.map Entry.key).Nodup) {key : K} {value : V} :
    (mapOf entries).lookup key = some value ↔ ∃ e ∈ entries, e.key = key ∧ e.value = value := by
  rw [mapOf, Finmap.dlookup_list_toFinmap, ← Option.mem_def,
    List.mem_dlookup_iff (nodupKeys_map_toSigma hnodup)]
  simp only [List.mem_map, Entry.toSigma, Sigma.mk.injEq, heq_eq_eq]

theorem mem_mapOf_iff {key : K} : key ∈ mapOf entries ↔ key ∈ entries.map Entry.key := by
  rw [mapOf, Finmap.mem_list_toFinmap]
  simp only [List.mem_map, Entry.toSigma, Sigma.mk.injEq, heq_eq_eq]
  constructor
  · rintro ⟨value, e, he, rfl, -⟩
    exact ⟨e, he, rfl⟩
  · rintro ⟨e, he, rfl⟩
    exact ⟨e.value, e, he, rfl, rfl⟩

theorem mapOf_eq_of_perm (hperm : entries.Perm entries') (hnodup : (entries.map Entry.key).Nodup) :
    mapOf entries = mapOf entries' :=
  Finmap.ext_lookup fun key ↦ by
    rw [mapOf, mapOf, Finmap.dlookup_list_toFinmap, Finmap.dlookup_list_toFinmap]
    exact List.perm_dlookup key (nodupKeys_map_toSigma hnodup) (hperm.map _)

theorem mapOf_append_singleton {e : Entry K V} (hkey : e.key ∉ entries.map Entry.key) :
    mapOf (entries ++ [e]) = (mapOf entries).insert e.key e.value :=
  Finmap.ext_lookup fun key ↦ by
    by_cases hk : key = e.key
    · subst hk
      have hnone : (mapOf entries).lookup e.key = none := Finmap.lookup_eq_none.mpr
        (fun hmem ↦ hkey (mem_mapOf_iff.mp hmem))
      rw [Finmap.lookup_insert, mapOf, Finmap.dlookup_list_toFinmap, List.map_append,
        List.dlookup_append]
      rw [mapOf, Finmap.dlookup_list_toFinmap] at hnone
      rw [hnone]
      simp [Entry.toSigma]
    · rw [Finmap.lookup_insert_of_ne _ hk, mapOf, mapOf, Finmap.dlookup_list_toFinmap,
        Finmap.dlookup_list_toFinmap, List.map_append, List.dlookup_append]
      have hnone : List.dlookup key ([e].map Entry.toSigma) = none := by
        rw [List.dlookup_eq_none]
        simpa [Entry.toSigma] using hk
      rw [hnone, Option.or_none]

/-- The map of entries with distinct keys, around the entry of one of them. -/
theorem mapOf_middle {s t : List (Entry K V)} {e : Entry K V}
    (hnodup : ((s ++ e :: t).map Entry.key).Nodup) :
    e.key ∉ (s ++ t).map Entry.key ∧ ((s ++ t).map Entry.key).Nodup ∧
      mapOf (s ++ e :: t) = (mapOf (s ++ t)).insert e.key e.value := by
  have hrest := hnodup
  rw [List.map_append, List.map_cons, List.nodup_middle, List.nodup_cons, ← List.map_append]
    at hrest
  refine ⟨hrest.1, hrest.2, ?_⟩
  rw [← mapOf_append_singleton hrest.1]
  exact mapOf_eq_of_perm (List.perm_middle.trans (List.perm_append_singleton _ _).symm) hnodup

omit [DecidableEq K] in
/-- Trading the entry `e` of `s ++ e :: t` for `extra`, where a bucket `old` becomes `new`. -/
theorem perm_trade {s t old new extra : List (Entry K V)} {e : Entry K V}
    (hbucket : (new ++ [e]).Perm (old ++ extra)) :
    (s ++ t ++ extra ++ old).Perm (s ++ e :: t ++ new) := calc
  s ++ t ++ extra ++ old ~ s ++ t ++ (old ++ extra) := by
    rw [List.append_assoc]
    exact List.perm_append_comm.append_left _
  _ ~ s ++ t ++ (new ++ [e]) := hbucket.symm.append_left _
  _ ~ s ++ t ++ ([e] ++ new) := List.perm_append_comm.append_left _
  _ = s ++ t ++ [e] ++ new := (List.append_assoc _ _ _).symm
  _ ~ s ++ e :: t ++ new := ((List.perm_append_singleton _ _).trans List.perm_middle.symm).append_right _

theorem erase_insert_of_notMem {m : Finmap (fun _ : K ↦ V)} {key : K} (hkey : key ∉ m) (value : V) :
    (m.insert key value).erase key = m :=
  Finmap.ext_lookup fun k ↦ by
    by_cases hk : k = key
    · subst hk
      rw [Finmap.lookup_erase, Finmap.lookup_eq_none.mpr hkey]
    · rw [Finmap.lookup_erase_ne hk, Finmap.lookup_insert_of_ne _ hk]

theorem card_keys_mapOf (hnodup : (entries.map Entry.key).Nodup) :
    (mapOf entries).keys.card = entries.length := by
  have hkeys : (mapOf entries).keys = (entries.map Entry.key).toFinset :=
    Finset.ext fun key ↦ by rw [Finmap.mem_keys, mem_mapOf_iff, List.mem_toFinset]
  rw [hkeys, List.toFinset_card_of_nodup hnodup, List.length_map]

end MapOf

/-! ## Reading a well-formed table -/

section Read

variable [SipHash K] {table : SmartTable K V}

/-- The bucket a key addresses. -/
def bucketAt (table : SmartTable K V) (key : K) : List (Entry K V) :=
  (table.buckets (table.keyIndex key)).getD []

theorem Inv.buckets_keyIndex (h : table.Inv) (key : K) :
    table.buckets (table.keyIndex key) = some (table.bucketAt key) := by
  obtain ⟨bucket, hbucket⟩ := h.exists_bucket (h.keyIndex_lt key)
  rw [bucketAt, hbucket, Option.getD_some]

/-- The calls borrow the bucket a key addresses. -/
theorem Inv.borrow_keyIndex (h : table.Inv) (key : K) :
    tableWithLength.borrow table.buckets
      (bucketIndex table.level table.numBuckets (sipHashFromValue key)) =
      pure (table.bucketAt key) :=
  tableWithLength.borrow_of_eq_some (h.buckets_keyIndex key)

theorem Inv.mem_bucketAt_iff (h : table.Inv) {key : K} {e : Entry K V} (hkey : e.key = key) :
    e ∈ table.bucketAt key ↔ e ∈ table.entries :=
  (h.mem_entries_iff (h.buckets_keyIndex key) hkey).symm

theorem Inv.hash_eq (h : table.Inv) {e : Entry K V} (he : e ∈ table.entries) :
    e.hash = sipHashFromValue e.key := by
  obtain ⟨i, -, bucket, hbucket, he'⟩ := mem_entriesBelow.mp he
  exact (h.placed i bucket hbucket e he').1

theorem Inv.eq_of_key_eq (h : table.Inv) {e e' : Entry K V} (he : e ∈ table.entries)
    (he' : e' ∈ table.entries) (hkey : e.key = e'.key) : e = e' :=
  List.inj_on_of_nodup_map h.nodup he he' hkey

variable [DecidableEq K]

/-- The finite map a table stands for. -/
def toFinmap (table : SmartTable K V) : Finmap (fun _ : K ↦ V) := mapOf table.entries

theorem Inv.mem_toFinmap_iff (h : table.Inv) {key : K} :
    key ∈ table.toFinmap ↔ ∃ e ∈ table.bucketAt key, e.key = key := by
  rw [toFinmap, mem_mapOf_iff, List.mem_map]
  constructor
  · rintro ⟨e, he, hkey⟩
    exact ⟨e, (h.mem_bucketAt_iff hkey).mpr he, hkey⟩
  · rintro ⟨e, he, hkey⟩
    exact ⟨e, (h.mem_bucketAt_iff hkey).mp he, hkey⟩

/-- The loop of `borrow` finds the value the map holds for the key. -/
theorem Inv.lookup_toFinmap (h : table.Inv) (key : K) :
    table.toFinmap.lookup key = ((table.bucketAt key).find? (·.key == key)).map Entry.value := by
  apply Option.ext
  intro value
  rw [toFinmap, lookup_mapOf_eq_some_iff h.nodup, Option.map_eq_some_iff]
  constructor
  · rintro ⟨e, he, hkey, rfl⟩
    obtain ⟨e', hfind⟩ : ∃ e', (table.bucketAt key).find? (·.key == key) = some e' :=
      Option.isSome_iff_exists.mp (List.find?_isSome.mpr
        ⟨e, (h.mem_bucketAt_iff hkey).mpr he, by simpa using hkey⟩)
    have hkey' : e'.key = key := by simpa using List.find?_some hfind
    have he' : e' ∈ table.entries :=
      (h.mem_bucketAt_iff hkey').mp (List.mem_of_find?_eq_some hfind)
    exact ⟨e', hfind, by rw [h.eq_of_key_eq he' he (hkey'.trans hkey.symm)]⟩
  · rintro ⟨e, hfind, rfl⟩
    have hkey : e.key = key := by simpa using List.find?_some hfind
    exact ⟨e, (h.mem_bucketAt_iff hkey).mp (List.mem_of_find?_eq_some hfind), hkey, rfl⟩

theorem Inv.contains_eq (h : table.Inv) (key : K) :
    table.contains key = pure (decide (key ∈ table.toFinmap)) := by
  unfold contains
  dsimp only
  rw [h.borrow_keyIndex, pure_bind]
  congr 1
  rw [Bool.eq_iff_iff, List.any_eq_true, decide_eq_true_iff, h.mem_toFinmap_iff]
  constructor
  · rintro ⟨e, he, hmatch⟩
    simp only [Bool.and_eq_true, beq_iff_eq] at hmatch
    exact ⟨e, he, hmatch.2⟩
  · rintro ⟨e, he, hkey⟩
    have hhash := h.hash_eq ((h.mem_bucketAt_iff hkey).mp he)
    exact ⟨e, he, by simp [hhash, hkey]⟩

theorem Inv.borrow_eq (h : table.Inv) (key : K) :
    table.borrow key =
      match table.toFinmap.lookup key with
      | some value => pure value
      | none => throw (.abort (error.invalidArgument enotFound)) := by
  unfold borrow
  dsimp only
  rw [h.borrow_keyIndex, pure_bind, h.lookup_toFinmap]
  cases (table.bucketAt key).find? (·.key == key) <;> rfl

theorem Inv.borrowWithDefault_eq (h : table.Inv) (key : K) (default : V) :
    table.borrowWithDefault key default = pure ((table.toFinmap.lookup key).getD default) := by
  unfold borrowWithDefault
  rw [h.contains_eq, pure_bind]
  by_cases hmem : key ∈ table.toFinmap
  · obtain ⟨value, hvalue⟩ := Finmap.mem_iff.mp hmem
    simp only [hmem, decide_true, Bool.not_true, Bool.false_eq_true, if_false, h.borrow_eq, hvalue,
      Option.getD_some]
  · simp only [hmem, decide_false, Bool.not_false, if_true, Finmap.lookup_eq_none.mpr hmem,
      Option.getD_none]

/-- `length` counts the keys of the map. -/
theorem Inv.size_eq_card (h : table.Inv) : table.size = table.toFinmap.keys.card := by
  rw [toFinmap, card_keys_mapOf h.nodup, h.size_eq]

end Read

/-! ## Changing one bucket -/

section Write

variable [SipHash K] {table : SmartTable K V}

/-- Well-formedness reads the buckets, their number, the level and the size only. -/
theorem Inv.of_fields (h : table.Inv) {table' : SmartTable K V} (hbuckets : table'.buckets = table.buckets)
    (hnum : table'.numBuckets = table.numBuckets) (hlevel : table'.level = table.level)
    (hsize : table'.size = table.size) : table'.Inv := by
  have hentries : table'.entries = table.entries := by rw [entries, entries, hbuckets, hnum]
  exact ⟨hlevel ▸ hnum ▸ h.level_le, hlevel ▸ hnum ▸ h.lt_level, hbuckets ▸ hnum ▸ h.isSome_iff,
    hbuckets ▸ hnum ▸ hlevel ▸ h.placed, hentries ▸ h.nodup, hentries ▸ hsize ▸ h.size_eq⟩

/-- A bucket replaced by one whose entries address it keeps a table well formed, when the
entries `l` that trade the old bucket for the new one have distinct keys and the size counts
them. -/
theorem Inv.updateBucket (h : table.Inv) {i : Nat} {old new l : List (Entry K V)} (size : Nat)
    (hold : table.buckets i = some old)
    (hplaced : ∀ e ∈ new, e.hash = sipHashFromValue e.key ∧
      bucketIndex table.level table.numBuckets e.hash = i)
    (hperm : (l ++ old).Perm (table.entries ++ new)) (hnodup : (l.map Entry.key).Nodup)
    (hsize : size = l.length) :
    Inv { table with buckets := Function.update table.buckets i (some new), size } ∧
      (entries { table with buckets := Function.update table.buckets i (some new), size }).Perm l := by
  have hi : i < table.numBuckets := (h.isSome_iff i).mp (by rw [hold]; rfl)
  have hentries : (entriesBelow (Function.update table.buckets i (some new)) table.numBuckets).Perm l := by
    rw [← List.perm_append_right_iff old]
    exact (entriesBelow_update_perm hi hold new).trans hperm.symm
  refine ⟨⟨h.level_le, h.lt_level, fun j ↦ ?_, fun j bucket hbucket e he ↦ ?_,
    (hentries.map Entry.key).nodup_iff.mpr hnodup, hsize.trans hentries.length_eq.symm⟩, hentries⟩
  · by_cases hj : j = i
    · subst hj
      simp [hi]
    · dsimp only
      rw [Function.update_of_ne hj]
      exact h.isSome_iff j
  · by_cases hj : j = i
    · subst hj
      simp only [Function.update_self, Option.some.injEq] at hbucket
      subst hbucket
      exact hplaced e he
    · dsimp only at hbucket
      rw [Function.update_of_ne hj] at hbucket
      exact h.placed j bucket hbucket e he

variable [DecidableEq K]

/-- The entries of a well-formed table with distinct keys stand for its map. -/
theorem Inv.toFinmap_eq_of_perm (h : table.Inv) {l : List (Entry K V)} (hperm : table.entries.Perm l) :
    table.toFinmap = mapOf l :=
  mapOf_eq_of_perm hperm h.nodup

/-! ### `add` -/

section Add

omit [DecidableEq K] in
/-- The split that `add` makes once the load factor reaches the threshold keeps the entries. -/
theorem Inv.splitIfLoaded (h : table.Inv) {P : SmartTable K V → Prop}
    (hP : ∀ table', table'.Inv → table'.entries.Perm table.entries → P table') :
    ∃ table', (if table.loadFactor ≥ table.splitLoadThreshold then table.splitOneBucket
      else pure table) = .ok table' ∧ P table' := by
  split_ifs
  · obtain ⟨table', hsplit, hinv, hperm, -⟩ := h.splitOneBucket_spec
    exact ⟨table', hsplit, hP table' hinv hperm⟩
  · exact ⟨table, rfl, hP table h (List.Perm.refl _)⟩

variable [SerializedSize K] [SerializedSize V]

/-- A bucket over the bound refuses every key, present or not. -/
theorem Inv.add_of_lt (h : table.Inv) {key : K} (hfull : 10000 < (table.bucketAt key).length)
    (value : V) :
    table.add key value = .error (.abort (error.permissionDenied eexceedMaxBucketSize)) := by
  unfold add
  dsimp only
  rw [h.borrow_keyIndex, pure_bind, assert_of_neg (Nat.not_le.mpr hfull)]
  rfl

theorem Inv.add_of_mem (h : table.Inv) {key : K} (hle : (table.bucketAt key).length ≤ 10000)
    (hmem : key ∈ table.toFinmap) (value : V) :
    table.add key value = .error (.abort (error.invalidArgument ealreadyExist)) := by
  obtain ⟨e, he, hkey⟩ := h.mem_toFinmap_iff.mp hmem
  have hall : ¬ ((table.bucketAt key).all fun e ↦ e.key != key) = true := by
    rw [List.all_eq_true]
    exact fun hall ↦ by simpa [hkey] using hall e he
  unfold add
  dsimp only
  rw [h.borrow_keyIndex, pure_bind, assert_of_pos hle, pure_bind, assert_of_neg hall]
  rfl

/-- A new key within the bound joins its bucket, and a split may follow. -/
theorem Inv.add_of_not_mem (h : table.Inv) {key : K} (hle : (table.bucketAt key).length ≤ 10000)
    (hmem : key ∉ table.toFinmap) (value : V) :
    ∃ table', table.add key value = .ok table' ∧ table'.Inv ∧
      table'.toFinmap = table.toFinmap.insert key value := by
  have hall : ((table.bucketAt key).all fun e ↦ e.key != key) = true := by
    rw [List.all_eq_true]
    intro e he
    simpa using fun hkey ↦ hmem (h.mem_toFinmap_iff.mpr ⟨e, he, hkey⟩)
  have hkey : key ∉ table.entries.map Entry.key := fun hk ↦ hmem (mem_mapOf_iff.mpr hk)
  obtain ⟨hpushed, hperm⟩ := h.updateBucket (table.size + 1) (h.buckets_keyIndex key)
    (show ∀ e ∈ table.bucketAt key ++ [⟨sipHashFromValue key, key, value⟩],
        e.hash = sipHashFromValue e.key ∧
          bucketIndex table.level table.numBuckets e.hash = table.keyIndex key from by
      intro e he
      rcases List.mem_append.mp he with hold | hnew
      · exact h.placed _ _ (h.buckets_keyIndex key) e hold
      · rw [List.mem_singleton.mp hnew]
        exact ⟨rfl, rfl⟩)
    (l := table.entries ++ [⟨sipHashFromValue key, key, value⟩])
    (by rw [List.append_assoc]
        exact List.perm_append_comm.append_left _)
    (by rw [List.map_append, List.nodup_append]
        exact ⟨h.nodup, List.nodup_singleton _, fun a ha b hb ↦ by
          rw [List.map_singleton, List.mem_singleton] at hb
          exact fun hab ↦ hkey (by rwa [hab, hb] at ha)⟩)
    (by rw [List.length_append, h.size_eq]; rfl)
  unfold add
  dsimp only
  rw [h.borrow_keyIndex, pure_bind, assert_of_pos hle, pure_bind, assert_of_pos hall, pure_bind]
  refine Inv.splitIfLoaded ?_ ?_
  · exact hpushed.of_fields rfl rfl rfl rfl
  · intro table' hinv hperm'
    refine ⟨hinv, ?_⟩
    rw [hinv.toFinmap_eq_of_perm (hperm'.trans hperm), mapOf_append_singleton hkey, toFinmap]

/-- What `add` does on a well-formed table: the bound is checked before the key. -/
theorem Inv.add_cases (h : table.Inv) (key : K) (value : V) :
    (10000 < (table.bucketAt key).length ∧
        table.add key value = .error (.abort (error.permissionDenied eexceedMaxBucketSize))) ∨
      ((table.bucketAt key).length ≤ 10000 ∧ key ∈ table.toFinmap ∧
        table.add key value = .error (.abort (error.invalidArgument ealreadyExist))) ∨
      ((table.bucketAt key).length ≤ 10000 ∧ key ∉ table.toFinmap ∧
        ∃ table', table.add key value = .ok table' ∧ table'.Inv ∧
          table'.toFinmap = table.toFinmap.insert key value) := by
  by_cases hfull : 10000 < (table.bucketAt key).length
  · exact .inl ⟨hfull, h.add_of_lt hfull value⟩
  have hle : (table.bucketAt key).length ≤ 10000 := Nat.not_lt.mp hfull
  by_cases hmem : key ∈ table.toFinmap
  · exact .inr (.inl ⟨hle, hmem, h.add_of_mem hle hmem value⟩)
  · exact .inr (.inr ⟨hle, hmem, h.add_of_not_mem hle hmem value⟩)

end Add

/-! ### `remove` and `borrow_mut` -/

section Found

/-- The loops of `remove` and `borrow_mut` stop at the entry of a key of the map, and the other
entries stand for the rest of the map. -/
theorem Inv.findIdx?_bucketAt (h : table.Inv) {key : K} (hmem : key ∈ table.toFinmap) :
    ∃ i, ∃ hi : i < (table.bucketAt key).length,
      (table.bucketAt key).findIdx? (·.key == key) = some i ∧ (table.bucketAt key)[i].key = key ∧
      ∃ s t, table.entries = s ++ (table.bucketAt key)[i] :: t := by
  obtain ⟨i, hfind⟩ : ∃ i, (table.bucketAt key).findIdx? (·.key == key) = some i := by
    apply Option.isSome_iff_exists.mp
    rw [List.findIdx?_isSome, List.any_eq_true]
    obtain ⟨e, he, hkey⟩ := h.mem_toFinmap_iff.mp hmem
    exact ⟨e, he, by simpa using hkey⟩
  obtain ⟨hi, hkey, -⟩ := List.findIdx?_eq_some_iff_getElem.mp hfind
  have hkey : (table.bucketAt key)[i].key = key := by simpa using hkey
  exact ⟨i, hi, hfind, hkey,
    List.append_of_mem ((h.mem_bucketAt_iff hkey).mp (List.getElem_mem hi))⟩

theorem Inv.findIdx?_bucketAt_of_notMem (h : table.Inv) {key : K} (hmem : key ∉ table.toFinmap) :
    (table.bucketAt key).findIdx? (·.key == key) = none := by
  rw [List.findIdx?_eq_none_iff]
  intro e he
  simpa using fun hkey ↦ hmem (h.mem_toFinmap_iff.mpr ⟨e, he, hkey⟩)

theorem Inv.remove_of_lookup (h : table.Inv) {key : K} {value : V}
    (hlookup : table.toFinmap.lookup key = some value) :
    ∃ table', table.remove key = .ok (value, table') ∧ table'.Inv ∧
      table'.toFinmap = table.toFinmap.erase key := by
  obtain ⟨i, hi, hfind, hkey, s, t, hst⟩ := h.findIdx?_bucketAt (Finmap.mem_of_lookup_eq_some hlookup)
  obtain ⟨hfresh, hnodup, hmap⟩ := mapOf_middle (hst ▸ h.nodup)
  have hvalue : (table.bucketAt key)[i].value = value := by
    rw [toFinmap, hst, hmap, hkey, Finmap.lookup_insert, Option.some.injEq] at hlookup
    exact hlookup
  have hswap := vector.swapRemove_of_lt hi
  have hsplit := vector.swapRemove_perm hi
  generalize ((table.bucketAt key).set i _).dropLast = new at hswap hsplit
  have hperm := @perm_trade K V s t (table.bucketAt key) new [] (table.bucketAt key)[i]
    (by rwa [List.append_nil])
  rw [List.append_nil, ← hst] at hperm
  obtain ⟨hremoved, hentries⟩ := h.updateBucket (table.size - 1) (h.buckets_keyIndex key)
    (fun e he ↦ h.placed _ _ (h.buckets_keyIndex key) e (hsplit.subset (List.mem_append_left _ he)))
    hperm hnodup (by rw [h.size_eq, hst]; simp)
  unfold remove
  dsimp only
  rw [h.borrow_keyIndex, pure_bind, hfind]
  dsimp only
  rw [hswap]
  dsimp only
  refine ⟨_, by rw [hvalue]; rfl, hremoved, ?_⟩
  rw [hremoved.toFinmap_eq_of_perm hentries, toFinmap, hst, hmap, hkey,
    erase_insert_of_notMem fun hmem ↦ hfresh (by rw [hkey]; exact mem_mapOf_iff.mp hmem)]

theorem Inv.remove_of_notMem (h : table.Inv) {key : K} (hmem : key ∉ table.toFinmap) :
    table.remove key = .error (.abort (error.invalidArgument enotFound)) := by
  unfold remove
  dsimp only
  rw [h.borrow_keyIndex, pure_bind, h.findIdx?_bucketAt_of_notMem hmem]
  rfl

theorem Inv.borrowMut_of_mem (h : table.Inv) {key : K} (hmem : key ∈ table.toFinmap) (value : V) :
    ∃ table', table.borrowMut key value = .ok table' ∧ table'.Inv ∧
      table'.toFinmap = table.toFinmap.insert key value := by
  obtain ⟨i, hi, hfind, hkey, s, t, hst⟩ := h.findIdx?_bucketAt hmem
  obtain ⟨hfresh, hnodup, hmap⟩ := mapOf_middle (hst ▸ h.nodup)
  have hmodify : (table.bucketAt key).modify i (fun entry ↦ { entry with value }) =
      (table.bucketAt key).set i { (table.bucketAt key)[i] with value } :=
    List.modify_eq_set_get _ hi
  have hplaced : ∀ e ∈ (table.bucketAt key).set i { (table.bucketAt key)[i] with value },
      e.hash = sipHashFromValue e.key ∧
        bucketIndex table.level table.numBuckets e.hash = table.keyIndex key := by
    intro e he
    rcases List.mem_or_eq_of_mem_set he with hold | rfl
    · exact h.placed _ _ (h.buckets_keyIndex key) e hold
    · have hentry := h.placed _ _ (h.buckets_keyIndex key) _ (List.getElem_mem hi)
      exact hentry
  have hperm := @perm_trade K V s t (table.bucketAt key) _ [{ (table.bucketAt key)[i] with value }]
    (table.bucketAt key)[i] (vector.set_perm hi _)
  rw [← hst] at hperm
  have hnodup' : ((s ++ t ++ [{ (table.bucketAt key)[i] with value }]).map Entry.key).Nodup := by
    rw [List.map_append, List.nodup_append]
    refine ⟨hnodup, List.nodup_singleton _, fun a ha b hb hab ↦ hfresh ?_⟩
    rw [List.map_singleton, List.mem_singleton] at hb
    rwa [hab, hb] at ha
  obtain ⟨hset, hentries⟩ := h.updateBucket table.size (h.buckets_keyIndex key) hplaced hperm
    hnodup' (by rw [h.size_eq, hst]; simp)
  unfold borrowMut
  dsimp only
  rw [h.borrow_keyIndex, pure_bind, hfind]
  dsimp only
  rw [hmodify]
  refine ⟨_, rfl, hset, (hset.toFinmap_eq_of_perm hentries).trans ?_⟩
  rw [toFinmap, hst, hmap,
    mapOf_append_singleton (e := { (table.bucketAt key)[i] with value }) hfresh, hkey,
    Finmap.insert_insert]

theorem Inv.borrowMut_of_notMem (h : table.Inv) {key : K} (hmem : key ∉ table.toFinmap) (value : V) :
    table.borrowMut key value = .error (.abort (error.invalidArgument enotFound)) := by
  unfold borrowMut
  dsimp only
  rw [h.borrow_keyIndex, pure_bind, h.findIdx?_bucketAt_of_notMem hmem]
  rfl

end Found

/-! ### `clear` -/

section Clear

omit [SipHash K] [DecidableEq K] in
/-- The loop of `clear` takes out the buckets `s, …, s + m - 1`, all present. -/
theorem foldlM_remove {buckets : Nat → Option (List (Entry K V))} (s m : Nat)
    (hsome : ∀ i, s ≤ i → i < s + m → (buckets i).isSome) :
    (List.range' s m).foldlM (fun buckets i ↦ Prod.snd <$> tableWithLength.remove buckets i)
      buckets = pure fun j ↦ if s ≤ j ∧ j < s + m then none else buckets j := by
  induction m generalizing s buckets with
  | zero =>
    have hnone : (fun j ↦ if s ≤ j ∧ j < s + 0 then none else buckets j) = buckets := by
      funext j
      rw [if_neg (by omega)]
    rw [hnone]
    rfl
  | succ m ih =>
    obtain ⟨val, -, hremove⟩ := tableWithLength.remove_of_isSome (hsome s le_rfl (by omega))
    rw [List.range'_succ, List.foldlM_cons, hremove, map_pure, pure_bind]
    dsimp only
    rw [ih (s + 1) fun i hlo hhi ↦ by
        rw [Function.update_of_ne (by omega)]
        exact hsome i (by omega) (by omega)]
    congr 1
    funext j
    by_cases hj : j = s
    · subst hj
      simp
    · rw [Function.update_of_ne hj]
      congr 1
      simp only [eq_iff_iff]
      omega

/-- `clear` leaves bucket `0` alone and empty, as `new_with_config` starts. -/
theorem Inv.clear_spec (h : table.Inv) :
    ∃ table', table.clear = .ok table' ∧ table'.Inv ∧ table'.toFinmap = ∅ := by
  have hpos : 0 < table.numBuckets := lt_of_lt_of_le (Nat.two_pow_pos _) h.level_le
  have hcleared : (fun j ↦ if 1 ≤ j ∧ j < 1 + (table.numBuckets - 1) then none
      else Function.update table.buckets 0 (some []) j) =
      Function.update (fun _ ↦ none) 0 (some ([] : List (Entry K V))) := by
    funext j
    by_cases hj : j = 0
    · subst hj
      simp
    · rw [Function.update_of_ne hj, Function.update_of_ne hj]
      split_ifs with hlt
      · rfl
      · exact h.buckets_eq_none (by omega)
  unfold clear
  rw [tableWithLength.set_of_isSome ((h.isSome_iff 0).mpr hpos), pure_bind,
    foldlM_remove 1 _ fun i hlo hhi ↦ by
      rw [Function.update_of_ne (by omega)]
      exact (h.isSome_iff i).mpr (by omega),
    hcleared, pure_bind]
  refine ⟨_, rfl, (inv_initial table.splitLoadThreshold table.targetBucketSize).of_fields rfl rfl
    rfl rfl, ?_⟩
  simp [toFinmap, entries, entriesBelow, mapOf]

end Clear

/-! ### `add_all` and `upsert` -/

section Batch

variable [SerializedSize K] [SerializedSize V]

/-- The map after a batch of adds, each aborting on a present key. -/
def mapAdd (m : Finmap fun _ : K ↦ V) (key : K) (value : V) :
    Except Failure (Finmap fun _ : K ↦ V) :=
  if key ∈ m then throw (.abort (error.invalidArgument ealreadyExist)) else pure (m.insert key value)

/-- Whether a batch of adds meets a bucket over the bound before it aborts otherwise. -/
def addAllBlocked (table : SmartTable K V) : List (K × V) → Prop
  | [] => False
  | (key, value) :: pairs =>
    10000 < (table.bucketAt key).length ∨
      match table.add key value with
      | .ok table => table.addAllBlocked pairs
      | .error _ => False

@[simp] theorem addAllBlocked_nil (table : SmartTable K V) : ¬ table.addAllBlocked [] := id

theorem addAllBlocked_cons (table : SmartTable K V) (key : K) (value : V) (pairs : List (K × V)) :
    table.addAllBlocked ((key, value) :: pairs) ↔
      10000 < (table.bucketAt key).length ∨
        match table.add key value with
        | .ok table => table.addAllBlocked pairs
        | .error _ => False := Iff.rfl

section Fold

/- The step of `add_all`'s loop is stated up to its pattern-matching lambda. -/
variable {step : SmartTable K V → K × V → Except Failure (SmartTable K V)}

theorem Inv.foldlM_add_inv (hstep : ∀ table key value, step table (key, value) = table.add key value)
    (h : table.Inv) (pairs : List (K × V)) {table' : SmartTable K V}
    (hrun : pairs.foldlM step table = .ok table') : table'.Inv := by
  induction pairs generalizing table with
  | nil =>
    cases hrun
    exact h
  | cons pair pairs ih =>
    obtain ⟨key, value⟩ := pair
    rw [List.foldlM_cons, hstep] at hrun
    rcases h.add_cases key value with ⟨-, hadd⟩ | ⟨-, -, hadd⟩ | ⟨-, -, table₁, hadd, hinv, -⟩
    · rw [hadd] at hrun
      cases hrun
    · rw [hadd] at hrun
      cases hrun
    · rw [hadd] at hrun
      exact ih hinv hrun

theorem Inv.foldlM_add_of_blocked
    (hstep : ∀ table key value, step table (key, value) = table.add key value)
    (h : table.Inv) (pairs : List (K × V)) (hblocked : table.addAllBlocked pairs) :
    pairs.foldlM step table = .error (.abort (error.permissionDenied eexceedMaxBucketSize)) := by
  induction pairs generalizing table with
  | nil => exact absurd hblocked (addAllBlocked_nil table)
  | cons pair pairs ih =>
    obtain ⟨key, value⟩ := pair
    rw [addAllBlocked_cons] at hblocked
    rw [List.foldlM_cons, hstep]
    rcases h.add_cases key value with ⟨-, hadd⟩ | ⟨hle, -, hadd⟩ | ⟨hle, -, table₁, hadd, hinv, -⟩
    · rw [hadd]
      rfl
    · rw [hadd] at hblocked
      exact absurd hblocked (by simp [Nat.not_lt.mpr hle])
    · rw [hadd] at hblocked ⊢
      exact ih hinv (hblocked.resolve_left (Nat.not_lt.mpr hle))

theorem Inv.foldlM_add_refines
    (hstep : ∀ table key value, step table (key, value) = table.add key value)
    (h : table.Inv) (pairs : List (K × V)) (hfree : ¬ table.addAllBlocked pairs) :
    toFinmap <$> pairs.foldlM step table =
      pairs.foldlM (fun m pair ↦ mapAdd m pair.1 pair.2) table.toFinmap := by
  induction pairs generalizing table with
  | nil => rfl
  | cons pair pairs ih =>
    obtain ⟨key, value⟩ := pair
    rw [addAllBlocked_cons, not_or] at hfree
    rw [List.foldlM_cons, List.foldlM_cons, hstep]
    rcases h.add_cases key value with ⟨hfull, -⟩ | ⟨-, hmem, hadd⟩ | ⟨-, hmem, table₁, hadd, hinv, hmap⟩
    · exact absurd hfull hfree.1
    · rw [hadd, mapAdd, if_pos hmem]
      rfl
    · have hfree' := hfree.2
      rw [hadd] at hfree'
      rw [hadd, mapAdd, if_neg hmem, ← hmap]
      exact ih hinv hfree'

end Fold

theorem Inv.upsert_of_blocked (h : table.Inv) {key : K} (hmem : key ∉ table.toFinmap)
    (hfull : 10000 < (table.bucketAt key).length) (value : V) :
    table.upsert key value = .error (.abort (error.permissionDenied eexceedMaxBucketSize)) := by
  unfold upsert
  rw [h.contains_eq, pure_bind, decide_eq_false hmem]
  exact h.add_of_lt hfull value

/-- Unless it adds into a bucket over the bound, `upsert` sets the key. -/
theorem Inv.upsert_spec (h : table.Inv) {key : K}
    (hfree : key ∈ table.toFinmap ∨ (table.bucketAt key).length ≤ 10000) (value : V) :
    ∃ table', table.upsert key value = .ok table' ∧ table'.Inv ∧
      table'.toFinmap = table.toFinmap.insert key value := by
  unfold upsert
  rw [h.contains_eq, pure_bind]
  by_cases hmem : key ∈ table.toFinmap
  · rw [decide_eq_true hmem]
    exact h.borrowMut_of_mem hmem value
  · rw [decide_eq_false hmem]
    exact h.add_of_not_mem (hfree.resolve_left hmem) hmem value

end Batch

end Write

/-! ## The calls on the map -/

section Calls

variable [DecidableEq K]

/-- `add_all` on the map: the lengths are checked, then the pairs are added in order. -/
def mapAddAll (m : Finmap fun _ : K ↦ V) (keys : List K) (values : List V) :
    Except Failure (Finmap fun _ : K ↦ V) := do
  assert (keys.length = values.length) evectorsLengthMismatch
  (keys.zip values).foldlM (fun m pair ↦ mapAdd m pair.1 pair.2) m

/-- `borrow` on the map. -/
def mapBorrow (m : Finmap fun _ : K ↦ V) (key : K) : Except Failure V :=
  match m.lookup key with
  | some value => pure value
  | none => throw (.abort (error.invalidArgument enotFound))

/-- `*borrow_mut(table, key) = value` on the map. -/
def mapBorrowMut (m : Finmap fun _ : K ↦ V) (key : K) (value : V) :
    Except Failure (Finmap fun _ : K ↦ V) :=
  if key ∈ m then pure (m.insert key value) else throw (.abort (error.invalidArgument enotFound))

/-- What a call does on the map and returns. -/
def mapCall (m : Finmap fun _ : K ↦ V) : Op K V → Except Failure ((Finmap fun _ : K ↦ V) × Output V)
  | .add key value => (·, .unit) <$> mapAdd m key value
  | .addAll keys values => (·, .unit) <$> mapAddAll m keys values
  | .remove key =>
    match m.lookup key with
    | some value => pure (m.erase key, .value value)
    | none => throw (.abort (error.invalidArgument enotFound))
  | .upsert key value => pure (m.insert key value, .unit)
  | .borrow key => (m, .value ·) <$> mapBorrow m key
  | .borrowMut key value => (·, .unit) <$> mapBorrowMut m key value
  | .borrowWithDefault key default => pure (m, .value ((m.lookup key).getD default))
  | .contains key => pure (m, .bool (decide (key ∈ m)))
  | .clear => pure (∅, .unit)
  | .length => pure (m, .length m.keys.card)

variable [SipHash K] [SerializedSize K] [SerializedSize V] {table : SmartTable K V}

/-- The calls that add into a bucket already over the 10000-entry bound. -/
def Blocked (table : SmartTable K V) : Op K V → Prop
  | .add key _ => 10000 < (table.bucketAt key).length
  | .addAll keys values => keys.length = values.length ∧ table.addAllBlocked (keys.zip values)
  | .upsert key _ => key ∉ table.toFinmap ∧ 10000 < (table.bucketAt key).length
  | _ => False

omit [SipHash K] [SerializedSize K] [SerializedSize V] in
/-- A call that returns nothing but the table refines its map counterpart when the table does. -/
theorem map_toFinmap_unit {x : Except Failure (SmartTable K V)}
    {y : Except Failure (Finmap fun _ : K ↦ V)} (hxy : toFinmap <$> x = y) :
    Prod.map toFinmap id <$> ((·, (Output.unit : Output V)) <$> x) = (·, .unit) <$> y := by
  subst hxy
  cases x <;> rfl

theorem Inv.add_refines (h : table.Inv) {key : K} (hle : (table.bucketAt key).length ≤ 10000)
    (value : V) : toFinmap <$> table.add key value = mapAdd table.toFinmap key value := by
  by_cases hmem : key ∈ table.toFinmap
  · rw [h.add_of_mem hle hmem value, mapAdd, if_pos hmem]
    rfl
  · obtain ⟨table', hadd, -, hmap⟩ := h.add_of_not_mem hle hmem value
    rw [hadd, mapAdd, if_neg hmem, ← hmap]
    rfl

theorem Inv.addAll_refines (h : table.Inv) {keys : List K} {values : List V}
    (hfree : ¬ (keys.length = values.length ∧ table.addAllBlocked (keys.zip values))) :
    toFinmap <$> table.addAll keys values = mapAddAll table.toFinmap keys values := by
  unfold addAll mapAddAll
  by_cases hlen : keys.length = values.length
  · rw [assert_of_pos hlen, pure_bind, pure_bind]
    exact h.foldlM_add_refines (fun _ _ _ ↦ rfl) _ fun hblocked ↦ hfree ⟨hlen, hblocked⟩
  · rw [assert_of_neg hlen]
    rfl

omit [SerializedSize K] [SerializedSize V] in
theorem Inv.borrowMut_refines (h : table.Inv) (key : K) (value : V) :
    toFinmap <$> table.borrowMut key value = mapBorrowMut table.toFinmap key value := by
  by_cases hmem : key ∈ table.toFinmap
  · obtain ⟨table', hset, -, hmap⟩ := h.borrowMut_of_mem hmem value
    rw [hset, mapBorrowMut, if_pos hmem, ← hmap]
    rfl
  · rw [h.borrowMut_of_notMem hmem value, mapBorrowMut, if_neg hmem]
    rfl

/-- An add into a bucket over the bound aborts with `EEXCEED_MAX_BUCKET_SIZE`, whether or not
the key is present. -/
theorem Inv.call_blocked (h : table.Inv) {op : Op K V} (hblocked : table.Blocked op) :
    table.call op = .error (.abort (error.permissionDenied eexceedMaxBucketSize)) := by
  cases op with
  | add key value =>
    unfold call
    dsimp only
    rw [h.add_of_lt hblocked value]
    rfl
  | addAll keys values =>
    obtain ⟨hlen, hpairs⟩ := hblocked
    unfold call addAll
    dsimp only
    rw [assert_of_pos hlen, pure_bind, h.foldlM_add_of_blocked (fun _ _ _ ↦ rfl) _ hpairs]
    rfl
  | upsert key value =>
    unfold call
    dsimp only
    rw [h.upsert_of_blocked hblocked.1 hblocked.2 value]
    rfl
  | remove | borrow | borrowMut | borrowWithDefault | contains | clear | length =>
    exact hblocked.elim

/-- Every other call returns what the call on the map returns, and leaves a table that stands
for the map the call leaves. -/
theorem Inv.call_refines (h : table.Inv) {op : Op K V} (hfree : ¬ table.Blocked op) :
    Prod.map toFinmap id <$> table.call op = mapCall table.toFinmap op := by
  cases op with
  | add key value => exact map_toFinmap_unit (h.add_refines (Nat.not_lt.mp hfree) value)
  | addAll keys values => exact map_toFinmap_unit (h.addAll_refines hfree)
  | remove key =>
    unfold call mapCall
    dsimp only
    cases hlookup : table.toFinmap.lookup key with
    | some value =>
      obtain ⟨table', hremove, -, hmap⟩ := h.remove_of_lookup hlookup
      rw [hremove, ← hmap]
      rfl
    | none =>
      rw [h.remove_of_notMem (Finmap.lookup_eq_none.mp hlookup)]
      rfl
  | upsert key value =>
    have hok : key ∈ table.toFinmap ∨ (table.bucketAt key).length ≤ 10000 := by
      by_cases hmem : key ∈ table.toFinmap
      · exact .inl hmem
      · exact .inr (Nat.not_lt.mp fun hfull ↦ hfree ⟨hmem, hfull⟩)
    obtain ⟨table', hupsert, -, hmap⟩ := h.upsert_spec hok value
    unfold call mapCall
    dsimp only
    rw [hupsert, ← hmap]
    rfl
  | borrow key =>
    unfold call mapCall mapBorrow
    dsimp only
    rw [h.borrow_eq]
    cases table.toFinmap.lookup key <;> rfl
  | borrowMut key value => exact map_toFinmap_unit (h.borrowMut_refines key value)
  | borrowWithDefault key default =>
    unfold call mapCall
    dsimp only
    rw [h.borrowWithDefault_eq]
    rfl
  | contains key =>
    unfold call mapCall
    dsimp only
    rw [h.contains_eq]
    rfl
  | clear =>
    obtain ⟨table', hclear, -, hmap⟩ := h.clear_spec
    unfold call mapCall
    dsimp only
    rw [hclear, ← hmap]
    rfl
  | length =>
    unfold call mapCall
    dsimp only
    rw [length, h.size_eq_card]
    rfl

/-! ### Every call keeps a table well formed -/

theorem Inv.add_inv (h : table.Inv) {key : K} {value : V} {table' : SmartTable K V}
    (hadd : table.add key value = .ok table') : table'.Inv := by
  rcases h.add_cases key value with ⟨-, herr⟩ | ⟨-, -, herr⟩ | ⟨-, -, table₁, hok, hinv, -⟩
  · rw [herr] at hadd
    cases hadd
  · rw [herr] at hadd
    cases hadd
  · rw [hok] at hadd
    cases hadd
    exact hinv

theorem Inv.addAll_inv (h : table.Inv) {keys : List K} {values : List V}
    {table' : SmartTable K V} (hadd : table.addAll keys values = .ok table') : table'.Inv := by
  unfold addAll at hadd
  by_cases hlen : keys.length = values.length
  · rw [assert_of_pos hlen, pure_bind] at hadd
    exact h.foldlM_add_inv (fun _ _ _ ↦ rfl) _ hadd
  · rw [assert_of_neg hlen] at hadd
    cases hadd

omit [SerializedSize K] [SerializedSize V] in
theorem Inv.borrowMut_inv (h : table.Inv) {key : K} {value : V} {table' : SmartTable K V}
    (hset : table.borrowMut key value = .ok table') : table'.Inv := by
  by_cases hmem : key ∈ table.toFinmap
  · obtain ⟨table₁, hok, hinv, -⟩ := h.borrowMut_of_mem hmem value
    rw [hok] at hset
    cases hset
    exact hinv
  · rw [h.borrowMut_of_notMem hmem value] at hset
    cases hset

theorem Inv.upsert_inv (h : table.Inv) {key : K} {value : V} {table' : SmartTable K V}
    (hupsert : table.upsert key value = .ok table') : table'.Inv := by
  unfold upsert at hupsert
  rw [h.contains_eq, pure_bind] at hupsert
  by_cases hmem : key ∈ table.toFinmap
  · rw [decide_eq_true hmem] at hupsert
    exact h.borrowMut_inv hupsert
  · rw [decide_eq_false hmem] at hupsert
    exact h.add_inv hupsert

omit [SerializedSize K] [SerializedSize V] in
theorem Inv.remove_inv (h : table.Inv) {key : K} {value : V} {table' : SmartTable K V}
    (hremove : table.remove key = .ok (value, table')) : table'.Inv := by
  cases hlookup : table.toFinmap.lookup key with
  | some value₁ =>
    obtain ⟨table₁, hok, hinv, -⟩ := h.remove_of_lookup hlookup
    rw [hok] at hremove
    cases hremove
    exact hinv
  | none =>
    rw [h.remove_of_notMem (Finmap.lookup_eq_none.mp hlookup)] at hremove
    cases hremove

omit [SerializedSize K] [SerializedSize V] in
theorem Inv.clear_inv (h : table.Inv) {table' : SmartTable K V} (hclear : table.clear = .ok table') :
    table'.Inv := by
  obtain ⟨table₁, hok, hinv, -⟩ := h.clear_spec
  rw [hok] at hclear
  cases hclear
  exact hinv

theorem Inv.call_inv (h : table.Inv) {op : Op K V} {table' : SmartTable K V} {out : Output V}
    (hcall : table.call op = .ok (table', out)) : table'.Inv := by
  unfold call at hcall
  cases op with
  | add key value =>
    obtain ⟨table₁, hadd, ⟨⟩⟩ := Rust.map_eq_ok_iff.mp hcall
    exact h.add_inv hadd
  | addAll keys values =>
    obtain ⟨table₁, hadd, ⟨⟩⟩ := Rust.map_eq_ok_iff.mp hcall
    exact h.addAll_inv hadd
  | remove key =>
    obtain ⟨⟨value, table₁⟩, hremove, ⟨⟩⟩ := Rust.map_eq_ok_iff.mp hcall
    exact h.remove_inv hremove
  | upsert key value =>
    obtain ⟨table₁, hupsert, ⟨⟩⟩ := Rust.map_eq_ok_iff.mp hcall
    exact h.upsert_inv hupsert
  | borrow key =>
    obtain ⟨value, -, ⟨⟩⟩ := Rust.map_eq_ok_iff.mp hcall
    exact h
  | borrowMut key value =>
    obtain ⟨table₁, hset, ⟨⟩⟩ := Rust.map_eq_ok_iff.mp hcall
    exact h.borrowMut_inv hset
  | borrowWithDefault key default =>
    obtain ⟨value, -, ⟨⟩⟩ := Rust.map_eq_ok_iff.mp hcall
    exact h
  | contains key =>
    obtain ⟨b, -, ⟨⟩⟩ := Rust.map_eq_ok_iff.mp hcall
    exact h
  | clear =>
    obtain ⟨table₁, hclear, ⟨⟩⟩ := Rust.map_eq_ok_iff.mp hcall
    exact h.clear_inv hclear
  | length =>
    cases hcall
    exact h

/-- The table after a call, aborted or not, is well formed. -/
theorem Inv.apply_op (h : table.Inv) (op : Op K V) : (table.apply op).Inv := by
  unfold apply
  split
  · next table' out hcall => exact h.call_inv hcall
  · exact h

end Calls

/-! ## Runs from `new_with_config` -/

section Runs

variable [DecidableEq K] [SipHash K] [SerializedSize K] [SerializedSize V]

/-- A table reached from `new_with_config` by any sequence of calls is well formed and starts
from the empty map. An add into a bucket over the 10000-entry bound aborts with
`EEXCEED_MAX_BUCKET_SIZE`; every other call returns what the call on the map returns and leaves a
table that stands for the map the call leaves; and chained `keys_paginated` calls from `(0, 0)`
with positive page sizes, enough of them, return every key of the map once. -/
theorem reachable_refines_finmap {numInitialBuckets splitLoadThreshold targetBucketSize : Nat}
    {table₀ table : SmartTable K V}
    (hnew : newWithConfig numInitialBuckets splitLoadThreshold targetBucketSize = .ok table₀)
    (hreach : Transition.Reachable apply (fun _ ↦ True) table₀ table) :
    table₀.toFinmap = ∅ ∧ table.Inv ∧
      (∀ op, table.Blocked op →
        table.call op = .error (.abort (error.permissionDenied eexceedMaxBucketSize))) ∧
      (∀ op, ¬ table.Blocked op →
        Prod.map toFinmap id <$> table.call op = mapCall table.toFinmap op) ∧
      ∀ pageSizes : List Nat, (∀ n ∈ pageSizes, 0 < n) → table.size < pageSizes.length →
        ∃ keys, table.keysPaginatedChain pageSizes 0 0 = .ok (keys, none) ∧ keys.Nodup ∧
          ∀ key, key ∈ keys ↔ key ∈ table.toFinmap := by
  obtain ⟨hinit, hempty, -⟩ := newWithConfig_spec hnew
  have h : table.Inv := hreach.invariant hinit fun table op _ _ hinv ↦ hinv.apply_op op
  refine ⟨by rw [toFinmap, hempty]; rfl, h, fun op ↦ h.call_blocked, fun op ↦ h.call_refines,
    fun pageSizes hpos hlen ↦ ⟨_, h.keysPaginatedChain_eq pageSizes hpos hlen, h.nodup,
      fun key ↦ mem_mapOf_iff.symm⟩⟩

end Runs

/-- `new_with_config(1, 0, 1)` and three adds, each of which splits a bucket, so that the keys
end in four buckets over two levels. -/
theorem reachable_refines_finmap_splits :
    letI : SipHash UInt64 := ⟨UInt64.toNat⟩
    let table₀ : SmartTable UInt64 UInt64 :=
      { buckets := Function.update (fun _ ↦ none) 0 (some []), numBuckets := 1, level := 0,
        size := 0, splitLoadThreshold := 75, targetBucketSize := 1 }
    let table := [Op.add 1 10, .add 2 20, .add 3 30].foldl apply table₀
    newWithConfig 1 0 1 = .ok table₀ ∧ Transition.Reachable apply (fun _ ↦ True) table₀ table ∧
      table.numBuckets = 4 ∧ table.level = 2 ∧ table.size = 3 ∧
      table₀.toFinmap = ∅ ∧ table.Inv ∧
      (∀ op, table.Blocked op →
        table.call op = .error (.abort (error.permissionDenied eexceedMaxBucketSize))) ∧
      (∀ op, ¬ table.Blocked op →
        Prod.map toFinmap id <$> table.call op = mapCall table.toFinmap op) ∧
      ∀ pageSizes : List Nat, (∀ n ∈ pageSizes, 0 < n) → table.size < pageSizes.length →
        ∃ keys, table.keysPaginatedChain pageSizes 0 0 = .ok (keys, none) ∧ keys.Nodup ∧
          ∀ key, key ∈ keys ↔ key ∈ table.toFinmap := by
  intro table₀ table
  let _ : SipHash UInt64 := ⟨UInt64.toNat⟩
  have hnew : newWithConfig 1 0 1 = .ok table₀ := rfl
  have hreach : Transition.Reachable apply (fun _ ↦ True) table₀ table :=
    Transition.Reachable.foldl .init _ fun _ _ ↦ trivial
  exact ⟨hnew, hreach, by decide, by decide, by decide,
    @reachable_refines_finmap UInt64 UInt64 _ ⟨UInt64.toNat⟩ _ _ 1 0 1 table₀ table hnew hreach⟩

/-! ## A bucket over the bound -/

section FullBucket

variable [SipHash UInt64]

/-- The table of `new_with_config(1, 100, 20000)` after the keys `0, …, n - 1` were added: a
single bucket, never split since the load factor stays below 100 while `n ≤ 10001`. -/
def oneBucket (n : Nat) : SmartTable UInt64 UInt64 :=
  { buckets := Function.update (fun _ ↦ none) 0
      (some ((List.range n).map fun k ↦ ⟨sipHashFromValue (UInt64.ofNat k), UInt64.ofNat k, 0⟩)),
    numBuckets := 1, level := 0, size := n, splitLoadThreshold := 100, targetBucketSize := 20000 }

omit [SipHash UInt64] in
theorem bucketIndex_one (hash : Nat) : bucketIndex 0 1 hash = 0 :=
  Nat.lt_one_iff.mp (bucketIndex_lt (Nat.le_refl 1) hash)

theorem borrow_oneBucket (n : Nat) (key : UInt64) :
    tableWithLength.borrow (oneBucket n).buckets
        (bucketIndex (oneBucket n).level (oneBucket n).numBuckets (sipHashFromValue key)) =
      pure ((List.range n).map fun k ↦ ⟨sipHashFromValue (UInt64.ofNat k), UInt64.ofNat k, 0⟩) := by
  rw [show (oneBucket n).level = 0 from rfl, show (oneBucket n).numBuckets = 1 from rfl,
    bucketIndex_one]
  exact tableWithLength.borrow_of_eq_some (by simp [oneBucket])

/-- One more key joins the bucket, and no split follows. -/
theorem add_oneBucket {n : Nat} (hn : n ≤ 10000) :
    (oneBucket n).add (UInt64.ofNat n) 0 = .ok (oneBucket (n + 1)) := by
  have hfresh : ((List.range n).map fun k ↦
      (⟨sipHashFromValue (UInt64.ofNat k), UInt64.ofNat k, 0⟩ : Entry UInt64 UInt64)).all
        (fun e ↦ e.key != UInt64.ofNat n) = true := by
    rw [List.all_eq_true]
    intro e he
    obtain ⟨k, hk, rfl⟩ := List.mem_map.mp he
    have hk : k < n := List.mem_range.mp hk
    simp only [bne_iff_ne, ne_eq]
    intro heq
    have hnat := congrArg UInt64.toNat heq
    rw [UInt64.toNat_ofNat', UInt64.toNat_ofNat'] at hnat
    omega
  unfold add
  dsimp only
  rw [borrow_oneBucket, pure_bind, assert_of_pos (by simp; omega), pure_bind, assert_of_pos hfresh,
    pure_bind, if_neg (by simp [oneBucket] : ¬ (oneBucket n).targetBucketSize = 0)]
  split_ifs with hload
  · simp only [loadFactor, oneBucket] at hload
    omega
  · simp [oneBucket, bucketIndex_one, List.range_succ]

theorem foldl_add_oneBucket {n : Nat} (hn : n ≤ 10001) :
    ((List.range n).map fun k ↦ Op.add (UInt64.ofNat k) (0 : UInt64)).foldl apply (oneBucket 0) =
      oneBucket n := by
  induction n with
  | zero => rfl
  | succ n ih =>
    rw [List.range_succ, List.map_append, List.foldl_append, ih (by omega), List.map_singleton,
      List.foldl_cons, List.foldl_nil]
    unfold apply call
    dsimp only
    rw [add_oneBucket (by omega)]
    rfl

/-- Once its one bucket holds 10001 keys, adding the present key `0` aborts with
`EEXCEED_MAX_BUCKET_SIZE`, not `EALREADY_EXIST`, whatever the hash. -/
theorem add_present_key_exceeds_bound_of_sipHash :
    ∃ table₀ table : SmartTable UInt64 UInt64,
      newWithConfig 1 100 20000 = .ok table₀ ∧
      Transition.Reachable apply (fun _ ↦ True) table₀ table ∧ (0 : UInt64) ∈ table.toFinmap ∧
      table.add 0 0 = .error (.abort (error.permissionDenied eexceedMaxBucketSize)) ∧
      error.permissionDenied eexceedMaxBucketSize ≠ error.invalidArgument ealreadyExist := by
  refine ⟨oneBucket 0, oneBucket 10001, rfl, ?_, ?_, ?_, by decide⟩
  · rw [← foldl_add_oneBucket le_rfl]
    exact Transition.Reachable.init.foldl _ fun _ _ ↦ trivial
  · rw [toFinmap, mem_mapOf_iff, List.mem_map]
    refine ⟨⟨sipHashFromValue (UInt64.ofNat 0), UInt64.ofNat 0, 0⟩, ?_, rfl⟩
    show _ ∈ entriesBelow _ (0 + 1)
    rw [entriesBelow_succ, entriesBelow_zero, List.nil_append]
    simp only [oneBucket, Function.update_self, Option.getD_some]
    exact List.mem_map.mpr ⟨0, List.mem_range.mpr (Nat.succ_pos _), rfl⟩
  · unfold add
    dsimp only
    rw [borrow_oneBucket, pure_bind, assert_of_neg (by simp)]
    rfl

end FullBucket

/-- Once its one bucket holds 10001 keys, adding the present key `0` aborts with
`EEXCEED_MAX_BUCKET_SIZE`, not `EALREADY_EXIST`; one bucket never reads the hash, so any hash
shows it. -/
theorem add_present_key_exceeds_bound :
    letI : SipHash UInt64 := ⟨UInt64.toNat⟩
    ∃ table₀ table : SmartTable UInt64 UInt64,
      newWithConfig 1 100 20000 = .ok table₀ ∧
      Transition.Reachable apply (fun _ ↦ True) table₀ table ∧ (0 : UInt64) ∈ table.toFinmap ∧
      table.add 0 0 = .error (.abort (error.permissionDenied eexceedMaxBucketSize)) ∧
      error.permissionDenied eexceedMaxBucketSize ≠ error.invalidArgument ealreadyExist :=
  @add_present_key_exceeds_bound_of_sipHash ⟨UInt64.toNat⟩


end SmartTable

end AptosCore.Move
