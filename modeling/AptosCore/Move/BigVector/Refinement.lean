import AptosCore.Move.BigVector
import AptosCore.Transition.Simulation

/-!
# `big_vector` refines `std::vector`

Every operation of `aptos_std::big_vector` acts on the elements (`to_vector`) of a valid big
vector as the `std::vector` operation of the same name acts on a vector, and leaves a valid big
vector with the same bucket size: `remove` through its loop that moves the head of every later
bucket to the end of the one before (`shiftBuckets_append_cons`), `swap_remove` and `swap`
through a `swap_remove`, a push and a `swap` inside a bucket, which overwrite one element
(`vector.swap_swapRemove_concat`), and `reverse` through buckets refilled from the back.

`append` moves the first half of `other` with `swap_remove` from the front and the rest with
`pop_back`; after the first loop at most one element lies between the reversed tail and the
front, so the elements arrive in order (`append_spec`).

A call of the API either aborts and changes nothing, or answers and changes the big vector
(`perform`). From a valid big vector every run of calls answers as the same calls on a
`std::vector` holding its elements, and ends holding what that vector holds
(`Valid.run_perform_eq_vector_run`).
-/

namespace AptosCore.Move

open Collections Transition

namespace BigVector

variable {α : Type}

/-! ## The loops -/

theorem shiftBuckets_succ (count curBucketIndex : Nat) (buckets : List (List α)) :
    shiftBuckets (count + 1) curBucketIndex buckets = (do
      let curBucket ← buckets[curBucketIndex]?
      let (t, curBucket) ← vector.remove curBucket 0
      let buckets := buckets.set curBucketIndex curBucket
      let prevBucket ← buckets[curBucketIndex - 1]?
      shiftBuckets count (curBucketIndex + 1)
        (buckets.set (curBucketIndex - 1) (prevBucket ++ [t]))) := rfl

theorem shiftBuckets_append_cons (pre : List (List α)) (prev : List α) {rest : List (List α)}
    (hrest : ∀ bucket ∈ rest, bucket ≠ []) :
    shiftBuckets rest.length (pre.length + 1) (pre ++ prev :: rest) =
      some (pre ++ shiftLeft prev rest) := by
  induction rest generalizing pre prev with
  | nil => rfl
  | cons next rest ih =>
    obtain ⟨x, xs, rfl⟩ := List.exists_cons_of_ne_nil (hrest next List.mem_cons_self)
    have hcur : (pre ++ prev :: (x :: xs) :: rest)[pre.length + 1]? = some (x :: xs) := by
      simp
    have hset : (pre ++ prev :: (x :: xs) :: rest).set (pre.length + 1) xs =
        pre ++ prev :: xs :: rest := by
      simp [List.set_append_right]
    have hprev : (pre ++ prev :: xs :: rest)[pre.length]? = some prev := by simp
    have hset' : (pre ++ prev :: xs :: rest).set pre.length (prev ++ [x]) =
        pre ++ (prev ++ [x]) :: xs :: rest := by
      simp [List.set_append_right]
    have hrec := ih (pre ++ [prev ++ [x]]) xs fun b hb ↦ hrest b (List.mem_cons_of_mem _ hb)
    rw [List.length_append, List.length_singleton, List.append_assoc, List.singleton_append,
      List.append_assoc, List.singleton_append] at hrec
    rw [List.length_cons, shiftBuckets_succ, hcur, Option.bind_eq_bind, Option.bind_some,
      vector.remove_of_lt (by simp)]
    simp only [Option.bind_eq_bind, Option.bind_some, List.getElem_cons_zero,
      List.eraseIdx_cons_zero, hset, Nat.add_sub_cancel, hprev, hset', hrec, shiftLeft_cons]
    rfl

theorem refill_zero (newBuckets buckets : List (List α)) :
    refill 0 newBuckets buckets = if newBuckets.isEmpty then some buckets else none := rfl

theorem refill_succ (count : Nat) (newBuckets buckets : List (List α)) :
    refill (count + 1) newBuckets buckets = (vector.popBack newBuckets).bind fun popped ↦
      refill count popped.2 (buckets ++ [popped.1]) := rfl

/-- Popping every bucket of `newBuckets` onto `buckets` appends them in reverse. -/
theorem refill_length (newBuckets buckets : List (List α)) :
    refill newBuckets.length newBuckets buckets = some (buckets ++ newBuckets.reverse) := by
  induction newBuckets using List.reverseRecOn generalizing buckets with
  | nil => simp [refill_zero]
  | append_singleton newBuckets bucket ih =>
    rw [List.length_append, List.length_singleton, refill_succ, vector.popBack_concat,
      Option.bind_some, ih, List.reverse_concat, List.append_assoc, List.singleton_append]

theorem appendSwapRemove_zero (i : Nat) (lhs other : BigVector α) :
    appendSwapRemove 0 i lhs other = some (lhs, other) := rfl

theorem appendSwapRemove_succ (count i : Nat) (lhs other : BigVector α) :
    appendSwapRemove (count + 1) i lhs other = (other.swapRemove i).bind fun removed ↦
      (lhs.pushBack removed.1).bind fun lhs ↦ appendSwapRemove count (i + 1) lhs removed.2 := rfl

theorem appendPopBack_zero (lhs other : BigVector α) :
    appendPopBack 0 lhs other = some (lhs, other) := rfl

theorem appendPopBack_succ (count : Nat) (lhs other : BigVector α) :
    appendPopBack (count + 1) lhs other = other.popBack.bind fun popped ↦
      (lhs.pushBack popped.1).bind fun lhs ↦ appendPopBack count lhs popped.2 := rfl

theorem destroyBuckets_cons_succ (bucket : List α) (rest : List (List α)) (endIndex : Nat) :
    destroyBuckets (bucket :: rest) (endIndex + 1) =
      if bucket.length ≤ endIndex + 1 then destroyBuckets rest (endIndex + 1 - bucket.length)
      else none := rfl

/-- Removing non-empty buckets from the front while elements remain removes them all. -/
theorem destroyBuckets_flatten {buckets : List (List α)} (hne : ∀ bucket ∈ buckets, bucket ≠ []) :
    destroyBuckets buckets buckets.flatten.length = some () := by
  induction buckets with
  | nil => rfl
  | cons bucket rest ih =>
    have hpos : 0 < bucket.length := List.length_pos_iff.mpr (hne bucket List.mem_cons_self)
    obtain ⟨endIndex, hend⟩ : ∃ endIndex, (bucket :: rest).flatten.length = endIndex + 1 :=
      ⟨_, (Nat.succ_pred_eq_of_pos (by simp; omega)).symm⟩
    have hlen : (bucket :: rest).flatten.length = bucket.length + rest.flatten.length := by simp
    have hrest : endIndex + 1 - bucket.length = rest.flatten.length := by omega
    rw [hend, destroyBuckets_cons_succ, if_pos (by omega), hrest]
    exact ih fun b hb ↦ hne b (List.mem_cons_of_mem _ hb)

theorem flatten_dropEmpty (init : List (List α)) (last : List α) :
    (if last = [] then init else init ++ [last]).flatten = init.flatten ++ last := by
  split_ifs with hlast <;> simp [hlast]

theorem remove_append_middle (pre cur post : List α) {p : Nat} (hp : p < cur.length) :
    vector.remove (pre ++ cur ++ post) (pre.length + p) =
      some (cur[p], pre ++ cur.eraseIdx p ++ post) := by
  rw [vector.remove_of_lt (by simp; omega), eraseIdx_append_middle _ _ _ hp]
  congr 2
  rw [List.getElem_append_left (by simp; omega), List.getElem_append_right (by omega)]
  simp

namespace Valid
variable {v : BigVector α} (hv : v.Valid)
include hv

/-- `remove` acts on the elements as the vector's does, and keeps the big vector valid. -/
theorem remove_spec (i : Nat) :
    (v.remove i).map (fun removed ↦ (removed.1, removed.2.toVector)) =
        vector.remove v.toVector i ∧
      ∀ val w, v.remove i = some (val, w) → w.Valid ∧ w.bucketSize = v.bucketSize := by
  by_cases hi : i < v.toVector.length
  swap
  · have hnone : v.remove i = none := if_neg (by rwa [hv.length_eq])
    rw [hnone, vector.remove_of_le (Nat.le_of_not_lt hi)]
    exact ⟨rfl, by simp⟩
  obtain ⟨buckets, endIndex, bucketSize⟩ := v
  obtain ⟨hpos, hchunk, hend⟩ := hv
  dsimp only [toVector] at hpos hchunk hend hi ⊢
  obtain ⟨pre, cur, rest, rfl, hpre, hp, hfull⟩ := hchunk.exists_split hpos hi
  obtain ⟨init, last, hshift, hinit, hlast⟩ := hchunk.append_right.shiftLeft_eraseIdx hp
  have hlen : init.length = rest.length := by
    have := congrArg List.length hshift
    simp only [length_shiftLeft, List.length_append, List.length_singleton] at this
    omega
  have hcur : (pre ++ cur :: rest)[i / bucketSize + 1 - 1]? = some cur := by
    rw [Nat.add_sub_cancel, ← hpre]
    simp
  have hset : (pre ++ cur :: rest).set (i / bucketSize + 1 - 1) (cur.eraseIdx (i % bucketSize)) =
      pre ++ cur.eraseIdx (i % bucketSize) :: rest := by
    rw [Nat.add_sub_cancel, ← hpre]
    simp [List.set_append_right]
  have hne : ∀ bucket ∈ rest, bucket ≠ [] := fun b hb ↦
    hchunk.ne_nil_of_mem hpos b (List.mem_append_right _ (List.mem_cons_of_mem _ hb))
  have hloop : shiftBuckets ((pre ++ cur :: rest).length - (i / bucketSize + 1))
      (i / bucketSize + 1) (pre ++ cur.eraseIdx (i % bucketSize) :: rest) =
        some (pre ++ (init ++ [last])) := by
    have hcount : (pre ++ cur :: rest).length - (i / bucketSize + 1) = rest.length := by
      simp only [List.length_append, List.length_cons]
      omega
    rw [hcount, ← hpre, shiftBuckets_append_cons _ _ hne, hshift]
  have hlastBucket : (pre ++ (init ++ [last]))[(pre ++ cur :: rest).length - 1]? = some last := by
    have hidx : (pre ++ cur :: rest).length - 1 = (pre ++ init).length := by
      simp only [List.length_append, List.length_cons]
      omega
    rw [hidx, ← List.append_assoc, List.getElem?_concat_length]
  have hshrink : (if last.isEmpty then (pre ++ (init ++ [last])).dropLast
      else pre ++ (init ++ [last])) = if last = [] then pre ++ init else pre ++ init ++ [last] := by
    rw [← List.append_assoc, List.dropLast_concat]
    simp only [List.isEmpty_iff]
  have hremove : remove ⟨pre ++ cur :: rest, endIndex, bucketSize⟩ i =
      some (cur[i % bucketSize], ⟨if last = [] then pre ++ init else pre ++ init ++ [last],
        endIndex - 1, bucketSize⟩) := by
    have hlt : i < (⟨pre ++ cur :: rest, endIndex, bucketSize⟩ : BigVector α).length := by
      show i < endIndex
      omega
    unfold remove
    rw [if_pos hlt]
    simp only [Option.bind_eq_bind, hcur, Option.bind_some, vector.remove_of_lt hp, hset, hloop,
      hlastBucket, hshrink]
  have hflat : (pre ++ cur :: rest).flatten = pre.flatten ++ cur ++ rest.flatten := by simp
  have hidx : i = pre.flatten.length + i % bucketSize := by
    rw [length_flatten_of_full hfull, hpre, Nat.mul_comm, Nat.div_add_mod]
  have hvec : (if last = [] then pre ++ init else pre ++ init ++ [last]).flatten =
      pre.flatten ++ cur.eraseIdx (i % bucketSize) ++ rest.flatten := by
    have hshifted : init.flatten ++ last = cur.eraseIdx (i % bucketSize) ++ rest.flatten := by
      rw [← flatten_shiftLeft, hshift, List.flatten_append, List.flatten_singleton]
    rw [flatten_dropEmpty, List.flatten_append, List.append_assoc, hshifted, List.append_assoc]
  rw [hremove]
  refine ⟨?_, ?_⟩
  · have hmiddle := remove_append_middle pre.flatten cur rest.flatten hp
    rw [← hidx] at hmiddle
    rw [Option.map_some, hvec, hflat, hmiddle]
  · rintro val w hw
    obtain ⟨rfl, rfl⟩ := Prod.mk.inj (Option.some.inj hw)
    refine ⟨⟨hpos, IsChunking.of_full hpos (List.forall_mem_append.mpr ⟨hfull, hinit⟩)
      (Nat.le_of_lt hlast), ?_⟩, rfl⟩
    show endIndex - 1 = (if last = [] then pre ++ init else pre ++ init ++ [last]).flatten.length
    rw [hvec, hend, hflat]
    simp only [List.length_append, List.length_eraseIdx_of_lt hp]
    omega

/-- `pop_back` of a valid big vector whose elements end with `last`. -/
theorem popBack_concat {init : List α} {last : α} (hvec : v.toVector = init ++ [last]) :
    ∃ w, v.popBack = some (last, w) ∧ w.Valid ∧ w.toVector = init ∧
      w.bucketSize = v.bucketSize := by
  obtain ⟨hmap, hvalid⟩ := hv.popBack_spec
  rw [hvec, vector.popBack_concat] at hmap
  obtain ⟨⟨val, w⟩, hpop, hpair⟩ := Option.map_eq_some_iff.mp hmap
  obtain ⟨rfl, hw⟩ := Prod.mk.inj hpair
  exact ⟨w, hpop, (hvalid val w hpop).1, hw, (hvalid val w hpop).2⟩

/-- The bucket holding element `i`, and the element at its place there. -/
theorem exists_bucket {i : Nat} (hi : i < v.toVector.length) :
    ∃ bucket, v.buckets[i / v.bucketSize]? = some bucket ∧ ∃ hp : i % v.bucketSize < bucket.length,
      bucket[i % v.bucketSize] = v.toVector[i] := by
  have helem := hv.chunking.getElem?_flatten hv.bucketSize_pos i
  rw [← toVector, List.getElem?_eq_getElem hi] at helem
  obtain ⟨bucket, hbucket, hget⟩ := Option.bind_eq_some_iff.mp helem.symm
  obtain ⟨hp, hget⟩ := List.getElem?_eq_some_iff.mp hget
  exact ⟨bucket, hbucket, hp, hget⟩

/-- Writing element `i % bucket_size` of bucket `i / bucket_size` writes element `i`, and keeps
the big vector valid. -/
theorem setBucket_spec {i : Nat} (hi : i < v.toVector.length) {bucket : List α}
    (hbucket : v.buckets[i / v.bucketSize]? = some bucket) (x : α) :
    (⟨v.buckets.set (i / v.bucketSize) (bucket.set (i % v.bucketSize) x), v.endIndex,
        v.bucketSize⟩ : BigVector α).Valid ∧
      (⟨v.buckets.set (i / v.bucketSize) (bucket.set (i % v.bucketSize) x), v.endIndex,
        v.bucketSize⟩ : BigVector α).toVector = v.toVector.set i x := by
  have hflat := hv.chunking.flatten_set hv.bucketSize_pos hi hbucket x
  obtain ⟨hk, hget⟩ := List.getElem?_eq_some_iff.mp hbucket
  refine ⟨⟨hv.bucketSize_pos, hv.chunking.set hk (by rw [List.length_set, hget]), ?_⟩, hflat⟩
  show v.endIndex = (v.buckets.set _ _).flatten.length
  rw [hflat, List.length_set, hv.endIndex_eq]
  rfl

/-- `borrow_mut` writes the element as the vector's does, and keeps the big vector valid. -/
theorem borrowMut_spec (i : Nat) (x : α) :
    (v.borrowMut i x).map toVector = vector.borrowMut v.toVector i x ∧
      ∀ w, v.borrowMut i x = some w → w.Valid ∧ w.bucketSize = v.bucketSize := by
  by_cases hi : i < v.toVector.length
  · obtain ⟨bucket, hbucket, hp, -⟩ := hv.exists_bucket hi
    have hwrite : v.borrowMut i x = some ⟨v.buckets.set (i / v.bucketSize)
        (bucket.set (i % v.bucketSize) x), v.endIndex, v.bucketSize⟩ := by
      unfold borrowMut
      rw [if_pos (hv.length_eq ▸ hi)]
      simp only [Option.bind_eq_bind, hbucket, Option.bind_some, vector.borrowMut_of_lt hp]
    obtain ⟨hvalid, hvec⟩ := hv.setBucket_spec hi hbucket x
    rw [hwrite, vector.borrowMut_of_lt hi, Option.map_some, hvec]
    refine ⟨rfl, ?_⟩
    rintro w hw
    obtain rfl := Option.some.inj hw
    exact ⟨hvalid, rfl⟩
  · have hnone : v.borrowMut i x = none := if_neg (by rwa [hv.length_eq])
    rw [hnone, vector.borrowMut_of_le (Nat.le_of_not_lt hi)]
    exact ⟨rfl, by simp⟩

/-- `swap_remove` acts on the elements as the vector's does, and keeps the big vector valid. -/
theorem swapRemove_spec (i : Nat) :
    (v.swapRemove i).map (fun removed ↦ (removed.1, removed.2.toVector)) =
        vector.swapRemove v.toVector i ∧
      ∀ val w, v.swapRemove i = some (val, w) → w.Valid ∧ w.bucketSize = v.bucketSize := by
  by_cases hi : i < v.toVector.length
  swap
  · have hnone : v.swapRemove i = none := if_neg (by rwa [hv.length_eq])
    rw [hnone, vector.swapRemove_of_le (Nat.le_of_not_lt hi)]
    exact ⟨rfl, by simp⟩
  have hlt : i < v.length := hv.length_eq ▸ hi
  obtain ⟨init, last, hvec⟩ : ∃ init last, v.toVector = init ++ [last] := by
    rcases v.toVector.eq_nil_or_concat' with hnil | hconcat
    · rw [hnil] at hi
      exact absurd hi (Nat.not_lt_zero _)
    · exact hconcat
  obtain ⟨w, hpop, hw, hwvec, hwsize⟩ := hv.popBack_concat hvec
  rw [hvec, List.length_append, List.length_singleton] at hi
  rw [hvec]
  rcases Nat.lt_or_ge i init.length with hinit | hge
  · have hwlen : w.endIndex ≠ i := by
      rw [hw.endIndex_eq, hwvec]
      omega
    obtain ⟨bucket, hbucket, hp, helem⟩ := hw.exists_bucket (i := i) (by rw [hwvec]; exact hinit)
    have hswap : v.swapRemove i = some (init[i], ⟨w.buckets.set (i / w.bucketSize)
        (bucket.set (i % w.bucketSize) last), w.endIndex, w.bucketSize⟩) := by
      unfold swapRemove
      rw [if_pos hlt]
      simp only [Option.bind_eq_bind, hpop, Option.bind_some, if_neg hwlen, hbucket,
        vector.swapRemove_of_lt hp, vector.swap_swapRemove_concat hp, helem, hwvec]
    obtain ⟨hvalid, hwset⟩ := hw.setBucket_spec (i := i) (by rw [hwvec]; exact hinit) hbucket last
    rw [hswap, vector.swapRemove_concat_of_lt hinit]
    refine ⟨by rw [Option.map_some, hwset, hwvec], ?_⟩
    rintro val w' hw'
    obtain ⟨rfl, rfl⟩ := Prod.mk.inj (Option.some.inj hw')
    exact ⟨hvalid, hwsize⟩
  · have heq : i = init.length := by omega
    subst heq
    have hwlen : w.endIndex = init.length := by rw [hw.endIndex_eq, hwvec]
    have hswap : v.swapRemove init.length = some (last, w) := by
      unfold swapRemove
      rw [if_pos hlt]
      simp only [Option.bind_eq_bind, hpop, Option.bind_some, if_pos hwlen]
    rw [hswap, vector.swapRemove_concat_length]
    refine ⟨by rw [Option.map_some, hwvec], ?_⟩
    rintro val w' hw'
    obtain ⟨rfl, rfl⟩ := Prod.mk.inj (Option.some.inj hw')
    exact ⟨hw, hwsize⟩

/-- `swap` exchanges the elements as the vector's does, and keeps the big vector valid. -/
theorem swap_spec (i j : Nat) :
    (v.swap i j).map toVector = vector.swap v.toVector i j ∧
      ∀ w, v.swap i j = some w → w.Valid ∧ w.bucketSize = v.bucketSize := by
  by_cases hij : i < v.toVector.length ∧ j < v.toVector.length
  swap
  · have hnone : v.swap i j = none := if_neg (by rwa [hv.length_eq])
    rw [hnone, vector.swap_eq_none hij]
    exact ⟨rfl, by simp⟩
  obtain ⟨hi, hj⟩ := hij
  have hlt : i < v.length ∧ j < v.length := ⟨hv.length_eq ▸ hi, hv.length_eq ▸ hj⟩
  obtain ⟨bucketI, hbucketI, hp, helemI⟩ := hv.exists_bucket hi
  obtain ⟨bucketJ, hbucketJ, hq, helemJ⟩ := hv.exists_bucket hj
  obtain ⟨hvalid₁, hvec₁⟩ := hv.setBucket_spec hi hbucketI v.toVector[j]
  have hj₁ : j < (v.toVector.set i v.toVector[j]).length := by rw [List.length_set]; exact hj
  by_cases hsame : i / v.bucketSize = j / v.bucketSize
  · rw [← hsame, hbucketI, Option.some.injEq] at hbucketJ
    subst hbucketJ
    have hbucket₁ : (v.buckets.set (i / v.bucketSize) (bucketI.set (i % v.bucketSize)
        v.toVector[j]))[j / v.bucketSize]? =
          some (bucketI.set (i % v.bucketSize) v.toVector[j]) := by
      rw [← hsame, List.getElem?_set_self (List.getElem?_eq_some_iff.mp hbucketI).1]
    obtain ⟨hvalid₂, hvec₂⟩ := hvalid₁.setBucket_spec (hvec₁ ▸ hj₁) hbucket₁ v.toVector[i]
    dsimp only at hvalid₂ hvec₂
    rw [hvec₁, hsame, List.set_set] at hvec₂
    rw [hsame, List.set_set] at hvalid₂
    have hswap : v.swap i j = some ⟨v.buckets.set (j / v.bucketSize)
        ((bucketI.set (i % v.bucketSize) v.toVector[j]).set (j % v.bucketSize) v.toVector[i]),
        v.endIndex, v.bucketSize⟩ := by
      unfold swap
      rw [if_pos hlt]
      rw [hsame] at hbucketI
      simp only [hsame, ↓reduceIte, Option.bind_eq_bind, hbucketI, Option.bind_some,
        vector.swap_of_lt hp hq, helemI, helemJ]
    rw [hswap, vector.swap_of_lt hi hj, Option.map_some, hvec₂]
    refine ⟨rfl, ?_⟩
    rintro w hw
    obtain rfl := Option.some.inj hw
    exact ⟨hvalid₂, rfl⟩
  · have hbucket₁ : (v.buckets.set (i / v.bucketSize) (bucketI.set (i % v.bucketSize)
        v.toVector[j]))[j / v.bucketSize]? = some bucketJ := by
      rw [List.getElem?_set_ne hsame, hbucketJ]
    obtain ⟨hvalid₂, hvec₂⟩ := hvalid₁.setBucket_spec (hvec₁ ▸ hj₁) hbucket₁ v.toVector[i]
    dsimp only at hvalid₂ hvec₂
    rw [hvec₁] at hvec₂
    have hswap : v.swap i j = some ⟨(v.buckets.set (i / v.bucketSize)
        (bucketI.set (i % v.bucketSize) v.toVector[j])).set (j / v.bucketSize)
          (bucketJ.set (j % v.bucketSize) v.toVector[i]), v.endIndex, v.bucketSize⟩ := by
      unfold swap
      rw [if_pos hlt]
      simp only [hsame, ↓reduceIte, Option.bind_eq_bind, hbucketI, hbucketJ, Option.bind_some,
        vector.swapRemove_of_lt hp, vector.swapRemove_of_lt hq, List.length_append,
        List.length_singleton, Nat.add_sub_cancel, List.length_dropLast, List.length_set,
        vector.swap_swapRemove_concat hp, vector.swap_swapRemove_concat hq, helemI, helemJ]
    rw [hswap, vector.swap_of_lt hi hj, Option.map_some, hvec₂]
    refine ⟨rfl, ?_⟩
    rintro w hw
    obtain rfl := Option.some.inj hw
    exact ⟨hvalid₂, rfl⟩

/-- `reverse` never aborts on a valid big vector and reverses its elements. -/
theorem reverse_spec :
    ∃ w, v.reverse = some w ∧ w.Valid ∧ w.toVector = v.toVector.reverse ∧
      w.bucketSize = v.bucketSize := by
  have hfold : v.buckets.reverse.foldl
      (fun acc popBucket ↦ popBucket.reverse.foldl (chunkStep v.bucketSize) acc) ([], []) =
        v.toVector.reverse.foldl (chunkStep v.bucketSize) ([], []) := by
    rw [toVector, List.reverse_flatten, ← List.map_reverse, List.foldl_flatten, List.foldl_map]
  obtain ⟨hclosed, hopen, hflat⟩ := @foldl_chunkStep α v.bucketSize v.toVector.reverse ([], [])
    (by simp) (by simpa using hv.bucketSize_pos)
  generalize hfilled : v.toVector.reverse.foldl (chunkStep v.bucketSize) ([], []) = filled
    at hclosed hopen hflat
  obtain ⟨closed, current⟩ := filled
  dsimp only at hclosed hopen hflat
  generalize hnew : (if 0 < current.length then closed ++ [current] else closed) = newBuckets
  have hdrop : newBuckets = if current = [] then closed else closed ++ [current] := by
    rw [← hnew]
    rcases current with _ | ⟨x, current⟩ <;> simp
  have hchunk : IsChunking v.bucketSize newBuckets := by
    rw [hdrop]
    exact IsChunking.of_full hv.bucketSize_pos hclosed (Nat.le_of_lt hopen)
  have hnewflat : newBuckets.flatten = v.toVector.reverse := by
    rw [hdrop, flatten_dropEmpty, hflat]
    simp
  have hcount : v.buckets.length = newBuckets.length :=
    hv.chunking.length_eq_of_length_flatten_eq hchunk hv.bucketSize_pos
      (by rw [hnewflat, List.length_reverse]; rfl)
  have hrefill : refill v.buckets.length newBuckets.reverse [] = some newBuckets := by
    rw [hcount, ← List.length_reverse, refill_length, List.reverse_reverse, List.nil_append]
  refine ⟨{ v with buckets := newBuckets }, ?_, ⟨hv.bucketSize_pos, hchunk, ?_⟩, hnewflat, rfl⟩
  · unfold reverse
    simp only [hfold, hfilled, hnew, hrefill, Option.map_some]
  · show v.endIndex = newBuckets.flatten.length
    rw [hnewflat, List.length_reverse, hv.endIndex_eq]

/-- `destroy` never aborts on a valid big vector. -/
theorem destroy_eq : v.destroy = some () := by
  unfold destroy
  rw [hv.endIndex_eq]
  exact destroyBuckets_flatten (hv.chunking.ne_nil_of_mem hv.bucketSize_pos)

end Valid

section Append

/-- `swap_remove` on a valid big vector where the vector's answer is known. -/
theorem Valid.swapRemove_of_eq_some {v : BigVector α} (hv : v.Valid) {i : Nat} {x : α}
    {rest : List α} (h : vector.swapRemove v.toVector i = some (x, rest)) :
    ∃ w, v.swapRemove i = some (x, w) ∧ w.Valid ∧ w.toVector = rest := by
  obtain ⟨hmap, hvalid⟩ := hv.swapRemove_spec i
  rw [h] at hmap
  obtain ⟨⟨x', w⟩, hremove, hpair⟩ := Option.map_eq_some_iff.mp hmap
  obtain ⟨rfl, hw⟩ := Prod.mk.inj hpair
  exact ⟨w, hremove, (hvalid x' w hremove).1, hw⟩

/-- `append` never aborts on valid big vectors and appends the elements of `other` in order:
half of them by `swap_remove` from the front, which leaves the rest reversed behind at most one
element, and the rest by `pop_back`. -/
theorem append_spec {lhs other : BigVector α} (hl : lhs.Valid) (ho : other.Valid) :
    ∃ w, lhs.append other = some w ∧ w.Valid ∧ w.toVector = lhs.toVector ++ other.toVector ∧
      w.bucketSize = lhs.bucketSize := by
  have hpush : ∀ (w : BigVector α) (x : α), w.Valid ∧ w.bucketSize = lhs.bucketSize →
      ∃ w', w.pushBack x = some w' ∧ (w'.Valid ∧ w'.bucketSize = lhs.bucketSize) ∧
        w'.toVector = w.toVector ++ [x] := by
    rintro w x ⟨hw, hsize⟩
    obtain ⟨w', hpush, hw', hvec, hsize'⟩ := hw.pushBack_spec x
    exact ⟨w', hpush, ⟨hw', hsize'.trans hsize⟩, hvec⟩
  have hpop : ∀ (w : BigVector α) x rest, w.Valid → w.toVector = rest ++ [x] →
      ∃ w', w.popBack = some (x, w') ∧ w'.Valid ∧ w'.toVector = rest := by
    intro w x rest hw hvec
    obtain ⟨w', hpop, hw', hvec', -⟩ := hw.popBack_concat hvec
    exact ⟨w', hpop, hw', hvec'⟩
  obtain ⟨lhs₁, other₁, hloop₁, hl₁, ho₁, hfront⟩ :=
    vector.appendSwapRemove_loop toVector appendSwapRemove_zero appendSwapRemove_succ
      (fun _ _ _ _ ho h ↦ Valid.swapRemove_of_eq_some ho h) hpush
      (other.toVector.length / 2) ⟨hl, rfl⟩ ho
      (vector.appendFront_zero lhs.toVector other.toVector) (by omega)
  rw [Nat.zero_add] at hfront
  obtain ⟨lhs₂, other₂, hloop₂, ⟨hl₂, hsize₂⟩, ho₂, hlvec, hnil⟩ :=
    vector.appendPopBack_loop toVector appendPopBack_zero appendPopBack_succ hpop hpush
      (other.toVector.length - other.toVector.length / 2) hl₁ ho₁ hfront.length_other
  refine ⟨lhs₂, ?_, hl₂, by rw [hlvec, hfront.append_reverse], hsize₂⟩
  unfold append
  simp only [ho.length_eq, Option.bind_eq_bind, hloop₁, Option.bind_some, hloop₂,
    destroyEmpty_of_toVector_eq_nil ho₂ hnil]

end Append
/-! ## Runs of calls -/

section Calls

variable [DecidableEq α]

/-- One call of the `big_vector` API on `v`, `none` when it aborts. The vector passed to
`append` is a valid big vector. -/
def perform (v : BigVector α) :
    vector.Call α {other : BigVector α // other.Valid} → Option (BigVector α × vector.Ret α)
  | .pushBack val => (v.pushBack val).map fun w ↦ (w, .unit)
  | .popBack => v.popBack.map fun popped ↦ (popped.2, .value popped.1)
  | .remove i => (v.remove i).map fun removed ↦ (removed.2, .value removed.1)
  | .swapRemove i => (v.swapRemove i).map fun removed ↦ (removed.2, .value removed.1)
  | .swap i j => (v.swap i j).map fun w ↦ (w, .unit)
  | .borrowMut i val => (v.borrowMut i val).map fun w ↦ (w, .unit)
  | .reverse => v.reverse.map fun w ↦ (w, .unit)
  | .append other => (v.append other.1).map fun w ↦ (w, .unit)
  | .borrow i => (v.borrow i).map fun val ↦ (v, .value val)
  | .indexOf val => some (v, .index (v.indexOf val).1 (v.indexOf val).2)
  | .contains val => some (v, .flag (v.contains val))
  | .length => some (v, .count v.length)
  | .isEmpty => some (v, .flag v.isEmpty)

namespace Valid

variable {v : BigVector α} (hv : v.Valid)
include hv

/-- A call on a valid big vector answers as the vector's on its elements, and aborts with it. -/
theorem perform_map (call : vector.Call α {other : BigVector α // other.Valid}) :
    (v.perform call).map (Prod.map toVector id) =
      vector.perform (fun other ↦ other.1.toVector) v.toVector call := by
  cases call with
  | pushBack val =>
    obtain ⟨w, hpush, -, hw, -⟩ := hv.pushBack_spec val
    dsimp only [perform, vector.perform]
    rw [hpush, Option.map_some, Option.map_some, Prod.map, hw]
    rfl
  | popBack =>
    dsimp only [perform, vector.perform]
    rw [← hv.popBack_spec.1, Option.map_map, Option.map_map]
    rfl
  | remove i =>
    dsimp only [perform, vector.perform]
    rw [← (hv.remove_spec i).1, Option.map_map, Option.map_map]
    rfl
  | swapRemove i =>
    dsimp only [perform, vector.perform]
    rw [← (hv.swapRemove_spec i).1, Option.map_map, Option.map_map]
    rfl
  | swap i j =>
    dsimp only [perform, vector.perform]
    rw [← (hv.swap_spec i j).1, Option.map_map, Option.map_map]
    rfl
  | borrowMut i val =>
    dsimp only [perform, vector.perform]
    rw [← (hv.borrowMut_spec i val).1, Option.map_map, Option.map_map]
    rfl
  | reverse =>
    obtain ⟨w, hrev, -, hw, -⟩ := hv.reverse_spec
    dsimp only [perform, vector.perform]
    rw [hrev, Option.map_some, Option.map_some, Prod.map, hw]
    rfl
  | append other =>
    obtain ⟨w, happ, -, hw, -⟩ := append_spec hv other.2
    dsimp only [perform, vector.perform]
    rw [happ, Option.map_some, Option.map_some, Prod.map, hw]
    rfl
  | borrow i =>
    dsimp only [perform, vector.perform]
    rw [hv.borrow_eq, Option.map_map]
    rfl
  | indexOf val =>
    dsimp only [perform, vector.perform]
    rw [hv.indexOf_eq]
    rfl
  | contains val =>
    dsimp only [perform, vector.perform]
    rw [hv.contains_eq]
    rfl
  | length =>
    dsimp only [perform, vector.perform]
    rw [hv.length_eq]
    rfl
  | isEmpty =>
    dsimp only [perform, vector.perform]
    rw [isEmpty, hv.length_eq]
    rfl

/-- A call that answers leaves a valid big vector. -/
theorem perform_valid (call : vector.Call α {other : BigVector α // other.Valid})
    {result : BigVector α × vector.Ret α} (h : v.perform call = some result) : result.1.Valid := by
  cases call with
  | pushBack val =>
    obtain ⟨w, hpush, hw, -⟩ := hv.pushBack_spec val
    dsimp only [perform] at h
    rw [hpush, Option.map_some, Option.some.injEq] at h
    rw [← h]
    exact hw
  | popBack =>
    dsimp only [perform] at h
    obtain ⟨popped, hpop, rfl⟩ := Option.map_eq_some_iff.mp h
    exact (hv.popBack_spec.2 popped.1 popped.2 hpop).1
  | remove i =>
    dsimp only [perform] at h
    obtain ⟨removed, hremove, rfl⟩ := Option.map_eq_some_iff.mp h
    exact ((hv.remove_spec i).2 removed.1 removed.2 hremove).1
  | swapRemove i =>
    dsimp only [perform] at h
    obtain ⟨removed, hremove, rfl⟩ := Option.map_eq_some_iff.mp h
    exact ((hv.swapRemove_spec i).2 removed.1 removed.2 hremove).1
  | swap i j =>
    dsimp only [perform] at h
    obtain ⟨w, hswap, rfl⟩ := Option.map_eq_some_iff.mp h
    exact ((hv.swap_spec i j).2 w hswap).1
  | borrowMut i val =>
    dsimp only [perform] at h
    obtain ⟨w, hwrite, rfl⟩ := Option.map_eq_some_iff.mp h
    exact ((hv.borrowMut_spec i val).2 w hwrite).1
  | reverse =>
    obtain ⟨w, hrev, hw, -⟩ := hv.reverse_spec
    dsimp only [perform] at h
    rw [hrev, Option.map_some, Option.some.injEq] at h
    rw [← h]
    exact hw
  | append other =>
    obtain ⟨w, happ, hw, -⟩ := append_spec hv other.2
    dsimp only [perform] at h
    rw [happ, Option.map_some, Option.some.injEq] at h
    rw [← h]
    exact hw
  | borrow i =>
    dsimp only [perform] at h
    obtain ⟨val, -, rfl⟩ := Option.map_eq_some_iff.mp h
    exact hv
  | indexOf val | contains val | length | isEmpty =>
    dsimp only [perform] at h
    rw [← Option.some.inj h]
    exact hv

end Valid

/-- `perform` on valid big vectors is simulated by the vector's `perform` on their elements. -/
theorem simulates_vector :
    Simulates Valid (atomic (perform (α := α)))
      (atomic (vector.perform fun other : {other : BigVector α // other.Valid} ↦ other.1.toVector))
      toVector :=
  Simulates.of_atomic (fun _ call hv ↦ hv.perform_map call)
    (fun _ call _ hv h ↦ hv.perform_valid call h)

/-- From a valid big vector, every run of calls (an aborted call leaving the big vector as it
was) answers as the same calls on a `std::vector` holding its elements, and ends with the
elements that vector ends with. -/
theorem Valid.run_perform_eq_vector_run {v : BigVector α} (hv : v.Valid)
    (calls : List (vector.Call α {other : BigVector α // other.Valid})) :
    Prod.map toVector id (run (atomic perform) v calls) =
      run (atomic (vector.perform fun other ↦ other.1.toVector)) v.toVector calls :=
  simulates_vector.abs_run hv calls

/-- Two buckets of size two, then a push, a removal from the front (which shifts the buckets), a
swap across buckets, a reverse and an aborted removal. -/
theorem run_perform_two_buckets :
    (⟨[[1, 2], [3]], 3, 2⟩ : BigVector Nat).Valid ∧
      Prod.map toVector id (run (atomic perform) ⟨[[1, 2], [3]], 3, 2⟩
          [.pushBack 4, .remove 0, .swap 0 2, .reverse, .remove 7]) =
        run (atomic (vector.perform fun other : {other : BigVector Nat // other.Valid} ↦
          other.1.toVector)) [1, 2, 3] [.pushBack 4, .remove 0, .swap 0 2, .reverse, .remove 7] :=
  have hv : (⟨[[1, 2], [3]], 3, 2⟩ : BigVector Nat).Valid :=
    ⟨by decide, ⟨by decide, by decide, by decide⟩, rfl⟩
  ⟨hv, Valid.run_perform_eq_vector_run hv _⟩

end Calls

end BigVector

end AptosCore.Move
