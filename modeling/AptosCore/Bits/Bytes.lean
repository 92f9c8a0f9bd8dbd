import Mathlib

/-!
# Bits of byte strings

A byte string is read as a bit string, most significant bit of the first byte first, as
bitmaps of signers are. `setBits` lists the positions of the set bits in increasing order;
`u8::count_ones` and `u8::trailing_zeros` count them byte by byte, and the lemmas here connect
the two readings: the ones of all bytes are the set bits (`length_setBits`), and the last set
bit sits in the last nonzero byte, `trailing_zeros` above its end (`getLast?_setBits`).

Scanning a bit string for its next set bit from some position is a walk along the sorted list of
set bits; the lemmas of the last section say how such a list is consumed from a position on.
-/

namespace AptosCore.Bits

def countOnes (byte : UInt8) : Nat := (List.range 8).countP fun j ↦ byte.toNat.testBit j

def trailingZeros (byte : UInt8) : Nat :=
  ((List.range 8).takeWhile fun j ↦ !byte.toNat.testBit j).length

/-- The positions of the set bits of a byte, most significant bit first. -/
def byteSetBits (byte : UInt8) : List Nat := (List.range 8).filter fun j ↦ byte.toNat.testBit (7 - j)

/-- The positions of the set bits of a byte string, in increasing order. -/
def setBits : List UInt8 → List Nat
  | [] => []
  | byte :: bytes => byteSetBits byte ++ (setBits bytes).map (· + 8)

/-- The bit at `index`, most significant bit of the first byte first; `false` past the end. -/
def bitAt (bytes : List UInt8) (index : Nat) : Bool :=
  match bytes[index / 8]? with
  | some byte => byte.toNat.testBit (7 - index % 8)
  | none => false

theorem bitAt_eq (bytes : List UInt8) (index : Nat) :
    bitAt bytes index =
      match bytes[index / 8]? with
      | some byte => byte.toNat.testBit (7 - index % 8)
      | none => false := rfl

/-- `slice::chunks_exact`: the consecutive chunks of `size` items, without the remainder. -/
def chunksExact {α : Type} (size : Nat) (items : List α) : List (List α) :=
  (List.range (items.length / size)).map fun i ↦ (items.drop (i * size)).take size

@[simp] theorem length_chunksExact {α : Type} (size : Nat) (items : List α) :
    (chunksExact size items).length = items.length / size := by
  simp [chunksExact]

section Byte

/-! Facts about one byte, checked over all 256 of them. -/

theorem and_shiftRight_ne_zero (byte : UInt8) (pos : Nat) (hpos : pos < 8) :
    (byte &&& (128 >>> pos.toUInt8) != 0) = byte.toNat.testBit (7 - pos) := by
  have hbyte : ∀ byte : UInt8, ∀ pos : Fin 8,
      (byte &&& (128 >>> pos.val.toUInt8) != 0) = byte.toNat.testBit (7 - pos) := by
    decide +kernel
  exact hbyte byte ⟨pos, hpos⟩

theorem countOnes_eq_length_byteSetBits (byte : UInt8) :
    countOnes byte = (byteSetBits byte).length := by
  revert byte
  decide +kernel

/-- The last set bit of a nonzero byte is `trailing_zeros` above its least significant end. -/
theorem getLast?_byteSetBits (byte : UInt8) :
    (byteSetBits byte).getLast? = if byte = 0 then none else some (7 - trailingZeros byte) := by
  revert byte
  decide +kernel

theorem lt_of_mem_byteSetBits {byte : UInt8} {j : Nat} (hj : j ∈ byteSetBits byte) : j < 8 :=
  List.mem_range.mp (List.mem_filter.mp hj).1

@[simp] theorem mem_byteSetBits {byte : UInt8} {j : Nat} :
    j ∈ byteSetBits byte ↔ j < 8 ∧ byte.toNat.testBit (7 - j) = true := by
  simp [byteSetBits]

theorem pairwise_byteSetBits (byte : UInt8) : (byteSetBits byte).Pairwise (· < ·) :=
  (List.pairwise_lt_range).filter _

end Byte

section String

@[simp] theorem setBits_nil : setBits [] = [] := rfl

@[simp] theorem setBits_cons (byte : UInt8) (bytes : List UInt8) :
    setBits (byte :: bytes) = byteSetBits byte ++ (setBits bytes).map (· + 8) := rfl

theorem lt_of_mem_setBits {bytes : List UInt8} {index : Nat} (hindex : index ∈ setBits bytes) :
    index < 8 * bytes.length := by
  induction bytes generalizing index with
  | nil => cases hindex
  | cons byte bytes ih =>
    rw [setBits_cons, List.mem_append, List.mem_map] at hindex
    rcases hindex with hfirst | ⟨rest, hrest, rfl⟩
    · have := lt_of_mem_byteSetBits hfirst
      simp only [List.length_cons]
      omega
    · have := ih hrest
      simp only [List.length_cons]
      omega

theorem mem_setBits_iff {bytes : List UInt8} {index : Nat} :
    index ∈ setBits bytes ↔ bitAt bytes index = true := by
  induction bytes generalizing index with
  | nil => simp [bitAt_eq]
  | cons byte bytes ih =>
    rw [setBits_cons, List.mem_append, mem_byteSetBits, List.mem_map]
    by_cases hfirst : index < 8
    case pos =>
      have hdiv : index / 8 = 0 := by omega
      have hmod : index % 8 = index := by omega
      simp only [bitAt_eq, hdiv, hmod, List.getElem?_cons_zero, hfirst, true_and]
      constructor
      · rintro (hbit | ⟨rest, -, hrest⟩)
        · exact hbit
        · omega
      · exact .inl
    case neg =>
      have hdiv : index / 8 = (index - 8) / 8 + 1 := by omega
      have hmod : index % 8 = (index - 8) % 8 := by omega
      have hbit : bitAt (byte :: bytes) index = bitAt bytes (index - 8) := by
        simp only [bitAt_eq, hdiv, hmod, List.getElem?_cons_succ]
      rw [hbit, ← ih]
      constructor
      · rintro (⟨hlt, -⟩ | ⟨rest, hrest, rfl⟩)
        · omega
        · simpa using hrest
      · intro hrest
        exact .inr ⟨index - 8, hrest, by omega⟩

theorem pairwise_setBits (bytes : List UInt8) : (setBits bytes).Pairwise (· < ·) := by
  induction bytes with
  | nil => exact List.Pairwise.nil
  | cons byte bytes ih =>
    rw [setBits_cons, List.pairwise_append, List.pairwise_map]
    refine ⟨pairwise_byteSetBits byte, ih.imp (by omega), ?_⟩
    intro first hfirst shifted hshifted
    obtain ⟨rest, -, rfl⟩ := List.mem_map.mp hshifted
    have := lt_of_mem_byteSetBits hfirst
    omega

theorem length_setBits (bytes : List UInt8) :
    (setBits bytes).length = (bytes.map countOnes).sum := by
  induction bytes with
  | nil => rfl
  | cons byte bytes ih =>
    rw [setBits_cons, List.length_append, List.length_map, ih, List.map_cons, List.sum_cons,
      countOnes_eq_length_byteSetBits]

theorem setBits_append_singleton (bytes : List UInt8) (byte : UInt8) :
    setBits (bytes ++ [byte]) = setBits bytes ++ (byteSetBits byte).map (· + 8 * bytes.length) := by
  induction bytes with
  | nil => simp
  | cons first bytes ih =>
    simp only [List.cons_append, setBits_cons, ih, List.map_append, List.map_map,
      List.append_assoc, List.length_cons]
    congr 3

/-- The last set bit is found in the last nonzero byte, counting the bytes from the end: the
computation of a bitmap's last set bit, for a string of any length. -/
theorem getLast?_setBits (bytes : List UInt8) :
    ((bytes.reverse.zipIdx.find? fun entry ↦ entry.1 != 0).map fun entry ↦
        8 * (bytes.length - entry.2) - trailingZeros entry.1 - 1) =
      (setBits bytes).getLast? := by
  induction bytes using List.reverseRecOn with
  | nil => rfl
  | append_singleton bytes byte ih =>
    rw [List.reverse_append, List.reverse_singleton, List.singleton_append, List.zipIdx_cons,
      List.find?_cons, setBits_append_singleton, List.getLast?_append, List.getLast?_map,
      getLast?_byteSetBits, List.length_append, List.length_singleton]
    by_cases hbyte : byte = 0
    case pos =>
      have hshift : ∀ entry : UInt8 × Nat,
          8 * (bytes.length + 1 - (entry.2 + 1)) - trailingZeros entry.1 - 1 =
            8 * (bytes.length - entry.2) - trailingZeros entry.1 - 1 := fun _ ↦ by omega
      simp only [hbyte, bne_self_eq_false, if_true, Option.map_none, Option.none_or,
        List.zipIdx_succ, List.find?_map]
      rw [← ih, Option.map_map]
      exact Option.map_congr fun entry _ ↦ hshift entry
    case neg =>
      have htz : trailingZeros byte < 8 := by
        revert byte
        decide +kernel
      have hne : (byte != 0) = true := bne_iff_ne.mpr hbyte
      simp only [hne, hbyte, if_false, Option.map_some, Option.some_or, Nat.sub_zero,
        Option.some.injEq]
      omega

end String

section Scan

/-! A sorted list of positions, consumed from a position on. -/

variable {positions : List Nat}

theorem filter_le_eq_nil {start : Nat} (hbelow : ∀ position ∈ positions, position < start) :
    positions.filter (fun position ↦ start ≤ position) = [] :=
  List.filter_eq_nil_iff.mpr fun position hmem ↦ by simpa using hbelow position hmem

theorem filter_le_succ_of_not_mem {start : Nat} (habsent : start ∉ positions) :
    positions.filter (fun position ↦ start ≤ position) =
      positions.filter (fun position ↦ start + 1 ≤ position) := by
  refine List.filter_congr fun position hmem ↦ ?_
  have hne : position ≠ start := fun heq ↦ habsent (heq ▸ hmem)
  simp only [decide_eq_decide]
  omega

variable (hsorted : positions.Pairwise (· < ·))
include hsorted

theorem le_of_getLast?_eq_some {last position : Nat} (hlast : positions.getLast? = some last)
    (hmem : position ∈ positions) : position ≤ last := by
  obtain ⟨init, rfl⟩ := List.getLast?_eq_some_iff.mp hlast
  rcases List.mem_append.mp hmem with hinit | hsingle
  · exact Nat.le_of_lt ((List.pairwise_append.mp hsorted).2.2 position hinit last
      (List.mem_singleton_self last))
  · exact Nat.le_of_eq (List.mem_singleton.mp hsingle)

theorem filter_le_eq_cons_of_mem {start : Nat} (hmem : start ∈ positions) :
    positions.filter (fun position ↦ start ≤ position) =
      start :: positions.filter (fun position ↦ start + 1 ≤ position) := by
  induction positions with
  | nil => cases hmem
  | cons first rest ih =>
    rw [List.pairwise_cons] at hsorted
    rcases List.mem_cons.mp hmem with rfl | htail
    · have hrest : rest.filter (fun position ↦ start ≤ position) =
          rest.filter (fun position ↦ start + 1 ≤ position) :=
        List.filter_congr fun position hpos ↦ by
          have := hsorted.1 position hpos
          simp only [decide_eq_decide]
          omega
      simp [hrest]
    · have hlt := hsorted.1 start htail
      have hnot : ¬start ≤ first := by omega
      have hnot' : ¬start + 1 ≤ first := by omega
      simp only [List.filter_cons, hnot, hnot', decide_false, Bool.false_eq_true, if_false]
      exact ih hsorted.2 htail

theorem filter_succ_le_of_filter_le_eq_cons {start first : Nat} {rest : List Nat}
    (hfilter : positions.filter (fun position ↦ start ≤ position) = first :: rest) :
    positions.filter (fun position ↦ first + 1 ≤ position) = rest := by
  have hstart : start ≤ first := by
    have hfirst : first ∈ positions.filter (fun position ↦ start ≤ position) :=
      hfilter ▸ List.mem_cons_self
    simpa using (List.mem_filter.mp hfirst).2
  have hrest : ∀ position ∈ rest, first < position :=
    (List.pairwise_cons.mp (hfilter ▸ hsorted.filter _)).1
  calc positions.filter (fun position ↦ first + 1 ≤ position)
      = (positions.filter fun position ↦ start ≤ position).filter
          (fun position ↦ first + 1 ≤ position) := by
        rw [List.filter_filter]
        refine List.filter_congr fun position _ ↦ ?_
        have : first + 1 ≤ position → start ≤ position := by omega
        simpa using this
    _ = rest := by
        rw [hfilter, List.filter_cons_of_neg (by simp), List.filter_eq_self]
        intro position hpos
        simpa using Nat.succ_le_of_lt (hrest position hpos)

end Scan

end AptosCore.Bits
