import Mathlib

/-!
# Lists cut into buckets

A list of buckets is a chunking by `size` when every bucket but the last holds `size` elements
and the last is non-empty and holds at most `size`. Element `i` of the flattened list then sits
at index `i % size` of bucket `i / size` (`getElem?_flatten`), and the number of buckets is the
flattened length divided by `size`, rounded up (`IsChunking.length_eq`), so two chunkings of
lists of one length have as many buckets.

The rest says how the operations of a bucketed vector keep the shape: a list of full buckets
followed by one bucket of at most `size` is a chunking once an empty last bucket is dropped
(`IsChunking.of_full`); replacing a bucket by one of the same length keeps it
(`IsChunking.of_map_length_eq`); `shiftLeft` moves the head of every later bucket to the end
of the one before it, as a removal does; and `chunkStep` fills buckets from the front, one
element at a time.
-/

namespace AptosCore.Collections

variable {α : Type} {size : Nat}

/-- Every bucket but the last is full; the last holds at most `size` elements and is not
empty. -/
structure IsChunking (size : Nat) (buckets : List (List α)) : Prop where
  full : ∀ bucket ∈ buckets.dropLast, bucket.length = size
  last_le : ∀ bucket ∈ buckets.getLast?, bucket.length ≤ size
  last_ne_nil : ∀ bucket ∈ buckets.getLast?, bucket ≠ []

namespace IsChunking

theorem nil : IsChunking size ([] : List (List α)) := ⟨by simp, by simp, by simp⟩

theorem concat_iff {init : List (List α)} {last : List α} :
    IsChunking size (init ++ [last]) ↔
      (∀ bucket ∈ init, bucket.length = size) ∧ last.length ≤ size ∧ last ≠ [] := by
  constructor
  · rintro ⟨hfull, hle, hne⟩
    simp only [List.dropLast_concat, List.getLast?_concat, Option.mem_def,
      Option.some.injEq, forall_eq'] at hfull hle hne
    exact ⟨hfull, hle, hne⟩
  · rintro ⟨hfull, hle, hne⟩
    refine ⟨?_, ?_, ?_⟩
    · simpa only [List.dropLast_concat] using hfull
    · simpa only [List.getLast?_concat, Option.mem_def, Option.some.injEq, forall_eq'] using hle
    · simpa only [List.getLast?_concat, Option.mem_def, Option.some.injEq, forall_eq'] using hne

/-- Full buckets, then a last bucket of at most `size` that is dropped when empty. -/
theorem of_full {init : List (List α)} {last : List α} (hsize : 0 < size)
    (hfull : ∀ bucket ∈ init, bucket.length = size) (hle : last.length ≤ size) :
    IsChunking size (if last = [] then init else init ++ [last]) := by
  split_ifs with hlast
  · rcases init.eq_nil_or_concat' with rfl | ⟨init', last', rfl⟩
    · exact nil
    · have hfull' := List.forall_mem_append.mp hfull
      have hlast' : last'.length = size := hfull'.2 last' (List.mem_singleton_self _)
      refine concat_iff.mpr ⟨hfull'.1, Nat.le_of_eq hlast', ?_⟩
      rintro rfl
      simp at hlast'
      omega
  · exact concat_iff.mpr ⟨hfull, hle, hlast⟩

theorem of_map_length_eq {buckets buckets' : List (List α)} (h : IsChunking size buckets)
    (heq : buckets'.map List.length = buckets.map List.length) : IsChunking size buckets' := by
  have hdrop : buckets'.dropLast.map List.length = buckets.dropLast.map List.length := by
    rw [List.map_dropLast, List.map_dropLast, heq]
  have hlast : buckets'.getLast?.map List.length = buckets.getLast?.map List.length := by
    rw [← List.getLast?_map, ← List.getLast?_map, heq]
  refine ⟨fun bucket hbucket ↦ ?_, fun bucket hbucket ↦ ?_, fun bucket hbucket ↦ ?_⟩
  · obtain ⟨other, hother, hlen⟩ : ∃ other ∈ buckets.dropLast, other.length = bucket.length := by
      rw [← List.mem_map, ← hdrop]
      exact List.mem_map_of_mem hbucket
    rw [← hlen]
    exact h.full other hother
  · rw [Option.mem_def] at hbucket
    rw [hbucket, Option.map_some] at hlast
    obtain ⟨other, hother, hlen⟩ := Option.map_eq_some_iff.mp hlast.symm
    rw [← hlen]
    exact h.last_le other hother
  · rw [Option.mem_def] at hbucket
    rw [hbucket, Option.map_some] at hlast
    obtain ⟨other, hother, hlen⟩ := Option.map_eq_some_iff.mp hlast.symm
    intro hnil
    rw [hnil, List.length_nil] at hlen
    exact h.last_ne_nil other hother (List.eq_nil_of_length_eq_zero hlen)

theorem set {buckets : List (List α)} (h : IsChunking size buckets) {k : Nat}
    (hk : k < buckets.length) {bucket : List α} (hlen : bucket.length = buckets[k].length) :
    IsChunking size (buckets.set k bucket) := by
  refine h.of_map_length_eq (List.ext_getElem? fun p ↦ ?_)
  rw [List.map_set, List.getElem?_set]
  split_ifs with hp hlt
  · subst hp
    simp [hlen, List.getElem?_eq_getElem hk]
  · simp only [List.length_map] at hlt
    omega
  · rfl

end IsChunking

theorem set_length_concat (init : List (List α)) (last bucket : List α) :
    (init ++ [last]).set init.length bucket = init ++ [bucket] := by
  rw [List.set_append_right _ _ (Nat.le_refl _), Nat.sub_self, List.set_cons_zero]

theorem length_flatten_concat {init : List (List α)} (last : List α)
    (hfull : ∀ bucket ∈ init, bucket.length = size) :
    (init ++ [last]).flatten.length = init.length * size + last.length := by
  induction init with
  | nil => simp
  | cons bucket init ih =>
    have hbucket := hfull bucket List.mem_cons_self
    rw [List.cons_append, List.flatten_cons, List.length_append,
      ih fun b hb ↦ hfull b (List.mem_cons_of_mem _ hb), hbucket, List.length_cons, Nat.succ_mul]
    omega

/-- Element `i` of the flattened list is element `i % size` of bucket `i / size`. This needs
only the full buckets and the bound on the last one. -/
theorem getElem?_flatten {buckets : List (List α)} (hsize : 0 < size)
    (hfull : ∀ bucket ∈ buckets.dropLast, bucket.length = size)
    (hlast : ∀ bucket ∈ buckets.getLast?, bucket.length ≤ size) (i : Nat) :
    buckets.flatten[i]? = buckets[i / size]?.bind (·[i % size]?) := by
  induction buckets generalizing i with
  | nil => simp
  | cons bucket rest ih =>
    cases rest with
    | nil =>
      have hle : bucket.length ≤ size := hlast bucket (by simp)
      by_cases hi : i < size
      · simp [Nat.div_eq_of_lt hi, Nat.mod_eq_of_lt hi]
      · obtain ⟨k, hk⟩ : ∃ k, i / size = k + 1 :=
          ⟨i / size - 1, by have := Nat.div_pos (Nat.le_of_not_lt hi) hsize; omega⟩
        rw [List.flatten_cons, List.flatten_nil, List.append_nil, List.getElem?_eq_none (by omega),
          hk]
        simp
    | cons next rest =>
      have hbucket : bucket.length = size :=
        hfull bucket (by rw [List.dropLast_cons_of_ne_nil (List.cons_ne_nil _ _)]; simp)
      have ih' := ih
        (fun b hb ↦ hfull b (by
          rw [List.dropLast_cons_of_ne_nil (List.cons_ne_nil _ _)]
          exact List.mem_cons_of_mem _ hb))
        (fun b hb ↦ hlast b (by rwa [List.getLast?_cons_cons]))
      rw [List.flatten_cons]
      by_cases hi : i < size
      · rw [List.getElem?_append_left (by omega), Nat.div_eq_of_lt hi, Nat.mod_eq_of_lt hi]
        simp
      · have hge : size ≤ i := Nat.le_of_not_lt hi
        rw [List.getElem?_append_right (by omega), hbucket, ih', Nat.div_eq_sub_div hsize hge,
          Nat.mod_eq_sub_mod hge, List.getElem?_cons_succ]

namespace IsChunking

theorem getElem?_flatten {buckets : List (List α)} (h : IsChunking size buckets) (hsize : 0 < size)
    (i : Nat) : buckets.flatten[i]? = buckets[i / size]?.bind (·[i % size]?) :=
  Collections.getElem?_flatten hsize h.full h.last_le i

/-- The number of buckets is the flattened length divided by `size`, rounded up. -/
theorem length_eq {buckets : List (List α)} (h : IsChunking size buckets) (hsize : 0 < size) :
    buckets.length = (buckets.flatten.length + size - 1) / size := by
  rcases buckets.eq_nil_or_concat' with rfl | ⟨init, last, rfl⟩
  · simp only [List.length_nil, List.flatten_nil, Nat.zero_add]
    exact (Nat.div_eq_of_lt (by omega)).symm
  · obtain ⟨hfull, hle, hne⟩ := concat_iff.mp h
    have hpos : 0 < last.length := List.length_pos_iff.mpr hne
    rw [length_flatten_concat last hfull, List.length_append, List.length_singleton]
    have hmul : (init.length + 1 + 1) * size = init.length * size + size + size := by
      rw [Nat.succ_mul, Nat.succ_mul]
    refine (Nat.div_eq_of_lt_le ?_ ?_).symm
    · rw [Nat.succ_mul]
      omega
    · omega

/-- A chunking whose elements fill all its buckets has no short bucket. -/
theorem forall_full_of_length {buckets : List (List α)} (h : IsChunking size buckets)
    (hlen : buckets.flatten.length = buckets.length * size) :
    ∀ bucket ∈ buckets, bucket.length = size := by
  rcases buckets.eq_nil_or_concat' with rfl | ⟨init, last, rfl⟩
  · simp
  · obtain ⟨hfull, hle, -⟩ := concat_iff.mp h
    rw [length_flatten_concat last hfull, List.length_append, List.length_singleton,
      Nat.succ_mul] at hlen
    refine List.forall_mem_append.mpr ⟨hfull, ?_⟩
    simp only [List.mem_singleton, forall_eq]
    omega

theorem length_eq_of_length_flatten_eq {buckets buckets' : List (List α)}
    (h : IsChunking size buckets) (h' : IsChunking size buckets') (hsize : 0 < size)
    (hlen : buckets.flatten.length = buckets'.flatten.length) :
    buckets.length = buckets'.length := by
  rw [h.length_eq hsize, h'.length_eq hsize, hlen]

end IsChunking

/-! ## The bucket of one element -/

theorem length_flatten_of_full {buckets : List (List α)}
    (hfull : ∀ bucket ∈ buckets, bucket.length = size) :
    buckets.flatten.length = buckets.length * size := by
  induction buckets with
  | nil => simp
  | cons bucket buckets ih =>
    rw [List.flatten_cons, List.length_append, hfull bucket List.mem_cons_self,
      ih fun b hb ↦ hfull b (List.mem_cons_of_mem _ hb), List.length_cons, Nat.succ_mul,
      Nat.add_comm]

theorem set_append_middle (pre cur post : List α) {p : Nat} (hp : p < cur.length) (x : α) :
    (pre ++ cur ++ post).set (pre.length + p) x = pre ++ cur.set p x ++ post := by
  rw [List.append_assoc, List.set_append_right _ _ (by omega), Nat.add_sub_cancel_left,
    List.set_append_left _ _ hp, List.append_assoc]

theorem eraseIdx_append_middle (pre cur post : List α) {p : Nat} (hp : p < cur.length) :
    (pre ++ cur ++ post).eraseIdx (pre.length + p) = pre ++ cur.eraseIdx p ++ post := by
  rw [List.append_assoc, List.eraseIdx_append_of_length_le (by omega), Nat.add_sub_cancel_left,
    List.eraseIdx_append_of_lt_length hp, List.append_assoc]

namespace IsChunking

theorem ne_nil_of_mem {buckets : List (List α)} (h : IsChunking size buckets) (hsize : 0 < size) :
    ∀ bucket ∈ buckets, bucket ≠ [] := by
  rcases buckets.eq_nil_or_concat' with rfl | ⟨init, last, rfl⟩
  · simp
  · obtain ⟨hfull, -, hne⟩ := concat_iff.mp h
    intro bucket hmem hnil
    rcases List.mem_append.mp hmem with hinit | hlast
    · have hlen := hfull bucket hinit
      rw [hnil, List.length_nil] at hlen
      omega
    · exact hne (hnil ▸ (List.mem_singleton.mp hlast).symm)

theorem append_right {pre rest : List (List α)} (h : IsChunking size (pre ++ rest)) :
    IsChunking size rest := by
  rcases rest.eq_nil_or_concat' with rfl | ⟨init, last, rfl⟩
  · exact nil
  · rw [← List.append_assoc] at h
    obtain ⟨hfull, hle, hne⟩ := concat_iff.mp h
    exact concat_iff.mpr ⟨fun b hb ↦ hfull b (List.mem_append_right _ hb), hle, hne⟩

theorem exists_split {buckets : List (List α)} (h : IsChunking size buckets) (hsize : 0 < size)
    {i : Nat} (hi : i < buckets.flatten.length) :
    ∃ pre cur rest, buckets = pre ++ cur :: rest ∧ pre.length = i / size ∧
      i % size < cur.length ∧ ∀ bucket ∈ pre, bucket.length = size := by
  have helem := h.getElem?_flatten hsize i
  rw [List.getElem?_eq_getElem hi] at helem
  obtain ⟨cur, hcur, hget⟩ := Option.bind_eq_some_iff.mp helem.symm
  have hlt : i / size < buckets.length := (List.getElem?_eq_some_iff.mp hcur).1
  refine ⟨buckets.take (i / size), cur, buckets.drop (i / size + 1), ?_, ?_, ?_, ?_⟩
  · rw [← (List.getElem?_eq_some_iff.mp hcur).2, List.getElem_cons_drop, List.take_append_drop]
  · rw [List.length_take, Nat.min_eq_left (Nat.le_of_lt hlt)]
  · exact (List.getElem?_eq_some_iff.mp hget).1
  · intro bucket hmem
    have hdrop : buckets.take (i / size) = buckets.dropLast.take (i / size) := by
      rw [List.dropLast_eq_take, List.take_take, Nat.min_eq_left (by omega)]
    rw [hdrop] at hmem
    exact h.full bucket (List.mem_of_mem_take hmem)

/-- Writing element `i % size` of bucket `i / size` writes element `i` of the flattened
list. -/
theorem flatten_set {buckets : List (List α)} (h : IsChunking size buckets) (hsize : 0 < size)
    {i : Nat} (hi : i < buckets.flatten.length) {bucket : List α}
    (hbucket : buckets[i / size]? = some bucket) (x : α) :
    (buckets.set (i / size) (bucket.set (i % size) x)).flatten = buckets.flatten.set i x := by
  obtain ⟨pre, cur, rest, rfl, hpre, hp, hfull⟩ := h.exists_split hsize hi
  have hcur : bucket = cur := by
    rw [← hpre, List.getElem?_append_right (Nat.le_refl _), Nat.sub_self,
      List.getElem?_cons_zero] at hbucket
    exact (Option.some.inj hbucket).symm
  have hidx : i = pre.flatten.length + i % size := by
    rw [length_flatten_of_full hfull, hpre, Nat.mul_comm, Nat.div_add_mod]
  subst hcur
  rw [← hpre, List.set_append_right _ _ (Nat.le_refl _), Nat.sub_self, List.set_cons_zero,
    List.flatten_append, List.flatten_cons, List.flatten_append, List.flatten_cons,
    ← List.append_assoc, ← List.append_assoc, hidx, set_append_middle _ _ _ hp,
    ← hidx]

end IsChunking

/-! ## Shifting buckets left -/

/-- Moves the head of every bucket of `rest` to the end of the bucket before it, starting with
`prev`. -/
def shiftLeft : List α → List (List α) → List (List α)
  | prev, [] => [prev]
  | prev, next :: rest => (prev ++ next.take 1) :: shiftLeft (next.drop 1) rest

@[simp] theorem shiftLeft_nil (prev : List α) : shiftLeft prev [] = [prev] := rfl

theorem shiftLeft_cons (prev next : List α) (rest : List (List α)) :
    shiftLeft prev (next :: rest) = (prev ++ next.take 1) :: shiftLeft (next.drop 1) rest := rfl

@[simp] theorem flatten_shiftLeft (prev : List α) (rest : List (List α)) :
    (shiftLeft prev rest).flatten = prev ++ rest.flatten := by
  induction rest generalizing prev with
  | nil => simp
  | cons next rest ih =>
    rw [shiftLeft_cons, List.flatten_cons, ih, List.flatten_cons, List.append_assoc,
      ← List.append_assoc (next.take 1), List.take_append_drop]

@[simp] theorem length_shiftLeft (prev : List α) (rest : List (List α)) :
    (shiftLeft prev rest).length = rest.length + 1 := by
  induction rest generalizing prev with
  | nil => rfl
  | cons next rest ih => rw [shiftLeft_cons, List.length_cons, ih, List.length_cons]

/-- After a removal from a full bucket, shifting a chunking left fills every bucket but the last
and leaves the last one short. -/
theorem shiftLeft_eq_concat {prev : List α} {rest : List (List α)} (hprev : prev.length + 1 = size)
    (hrest : IsChunking size rest) :
    ∃ init last, shiftLeft prev rest = init ++ [last] ∧
      (∀ bucket ∈ init, bucket.length = size) ∧ last.length < size := by
  induction rest generalizing prev with
  | nil => exact ⟨[], prev, rfl, by simp, by omega⟩
  | cons next rest ih =>
    rcases rest.eq_nil_or_concat' with rfl | ⟨restInit, restLast, hrestEq⟩
    · have hle : next.length ≤ size := hrest.last_le next (by simp)
      have hne : next ≠ [] := hrest.last_ne_nil next (by simp)
      have hpos : 0 < next.length := List.length_pos_iff.mpr hne
      refine ⟨[prev ++ next.take 1], next.drop 1, rfl, ?_, ?_⟩
      · simp only [List.mem_singleton, forall_eq, List.length_append, List.length_take]
        omega
      · rw [List.length_drop]
        omega
    · have hnext : next.length = size := hrest.full next (by
        rw [hrestEq, List.dropLast_cons_of_ne_nil (by simp)]
        exact List.mem_cons_self)
      have hrest' : IsChunking size rest := by
        refine ⟨fun b hb ↦ hrest.full b ?_, fun b hb ↦ hrest.last_le b ?_,
          fun b hb ↦ hrest.last_ne_nil b ?_⟩
        · rw [List.dropLast_cons_of_ne_nil (by rw [hrestEq]; simp)]
          exact List.mem_cons_of_mem _ hb
        · rw [hrestEq, List.getLast?_concat] at hb
          rwa [hrestEq, ← List.cons_append, List.getLast?_concat]
        · rw [hrestEq, List.getLast?_concat] at hb
          rwa [hrestEq, ← List.cons_append, List.getLast?_concat]
      obtain ⟨init, last, hshift, hfull, hlast⟩ :=
        @ih (next.drop 1) (by rw [List.length_drop]; omega) hrest'
      refine ⟨(prev ++ next.take 1) :: init, last, by rw [shiftLeft_cons, hshift]; rfl, ?_, hlast⟩
      rintro bucket (_ | ⟨_, hbucket⟩)
      · rw [List.length_append, List.length_take]
        omega
      · exact hfull bucket hbucket

/-- A removal from a bucket of a chunking, followed by the shift of the later buckets: full
buckets, then a short last one. -/
theorem IsChunking.shiftLeft_eraseIdx {cur : List α} {rest : List (List α)}
    (h : IsChunking size (cur :: rest)) {p : Nat} (hp : p < cur.length) :
    ∃ init last, shiftLeft (cur.eraseIdx p) rest = init ++ [last] ∧
      (∀ bucket ∈ init, bucket.length = size) ∧ last.length < size := by
  have hlen : (cur.eraseIdx p).length + 1 = cur.length := by
    rw [List.length_eraseIdx_of_lt hp]
    omega
  rcases rest.eq_nil_or_concat' with rfl | ⟨init, last, hrest⟩
  · have hle : cur.length ≤ size := h.last_le cur (by simp)
    exact ⟨[], cur.eraseIdx p, rfl, by simp, by omega⟩
  · have hcur : cur.length = size := h.full cur (by
      rw [List.dropLast_cons_of_ne_nil (by simp [hrest])]
      exact List.mem_cons_self)
    exact shiftLeft_eq_concat (by omega)
      (IsChunking.append_right (show IsChunking size ([cur] ++ rest) from h))

/-! ## Filling buckets from the front -/

/-- Adds `x` to the bucket being filled, and closes the bucket once it holds `size`
elements. -/
def chunkStep (size : Nat) (acc : List (List α) × List α) (x : α) : List (List α) × List α :=
  if (acc.2 ++ [x]).length = size then (acc.1 ++ [acc.2 ++ [x]], []) else (acc.1, acc.2 ++ [x])

/-- Filling keeps the closed buckets full, the open one short, and every element in order. -/
theorem foldl_chunkStep (xs : List α) {acc : List (List α) × List α}
    (hfull : ∀ bucket ∈ acc.1, bucket.length = size) (hopen : acc.2.length < size) :
    (∀ bucket ∈ (xs.foldl (chunkStep size) acc).1, bucket.length = size) ∧
      (xs.foldl (chunkStep size) acc).2.length < size ∧
      (xs.foldl (chunkStep size) acc).1.flatten ++ (xs.foldl (chunkStep size) acc).2 =
        acc.1.flatten ++ acc.2 ++ xs := by
  induction xs generalizing acc with
  | nil => exact ⟨hfull, hopen, by simp⟩
  | cons x xs ih =>
    obtain ⟨closed, current⟩ := acc
    rw [List.foldl_cons]
    by_cases hclose : (current ++ [x]).length = size
    · have hstep : chunkStep size (closed, current) x = (closed ++ [current ++ [x]], []) :=
        if_pos hclose
      obtain ⟨hfull', hopen', hflat⟩ := @ih (closed ++ [current ++ [x]], [])
        (List.forall_mem_append.mpr ⟨hfull, by simpa using hclose⟩)
        (by simp only [List.length_append, List.length_singleton, List.length_nil] at hclose hopen ⊢
            omega)
      rw [hstep]
      refine ⟨hfull', hopen', ?_⟩
      rw [hflat]
      simp
    · have hstep : chunkStep size (closed, current) x = (closed, current ++ [x]) := if_neg hclose
      obtain ⟨hfull', hopen', hflat⟩ := @ih (closed, current ++ [x]) hfull
        (by simp only [List.length_append, List.length_singleton] at hclose hopen ⊢; omega)
      rw [hstep]
      refine ⟨hfull', hopen', ?_⟩
      rw [hflat]
      simp

end AptosCore.Collections
