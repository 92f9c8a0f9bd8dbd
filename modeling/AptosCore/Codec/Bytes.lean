import Mathlib

/-!
# Byte strings, fixed-width integers and readers

A byte string is a list of numbers below 256. A number below `256 ^ width` is written in `width`
bytes, most significant first (`toBytesBE`) or least significant first (`toBytesLE`). A reader
takes bytes from the front of its input and fails with `eof` when the input runs out; reading back
what was written returns the number and the rest of the input (`readBE_toBytesBE_append`,
`readLE_toBytesLE_append`).

Byte strings compare lexicographically (`List.lt`). Two strings that start with parts of equal
length compare by those parts first (`append_lt_append_iff`), and big-endian strings of one width
compare as the numbers they write (`toBytesBE_lt_toBytesBE_iff`).

The bit lemmas turn the masks and shifts of hand-written encoders into arithmetic: a bit test is
a division and a remainder (`and_two_pow_eq_zero_iff`), and or-ing a number with a multiple of a
larger power of two adds them (`or_shiftLeft_eq_add`).

A `PrefixCodec` is a serializer with a reader that takes back exactly what it wrote from the front
of any input, the property serde derives give binary formats such as BCS.
-/

namespace AptosCore.Codec

variable {ε : Type}

/-! ## Fixed-width integers -/

/-- `value` in `width` bytes, most significant first. -/
def toBytesBE : Nat → Nat → List Nat
  | 0, _ => []
  | width + 1, value => value / 256 ^ width % 256 :: toBytesBE width value

/-- `value` in `width` bytes, least significant first. -/
def toBytesLE : Nat → Nat → List Nat
  | 0, _ => []
  | width + 1, value => value % 256 :: toBytesLE width (value / 256)

@[simp]
theorem length_toBytesBE (width value : Nat) : (toBytesBE width value).length = width := by
  induction width with
  | zero => rfl
  | succ width ih => simp [toBytesBE, ih]

theorem mod_pow_succ_eq (width value : Nat) :
    value % 256 ^ (width + 1) = value / 256 ^ width % 256 * 256 ^ width + value % 256 ^ width := by
  have hdvd : 256 ^ width ∣ 256 ^ (width + 1) := Nat.pow_dvd_pow 256 (Nat.le_succ width)
  have hlow : value % 256 ^ (width + 1) % 256 ^ width = value % 256 ^ width :=
    Nat.mod_mod_of_dvd value hdvd
  have hdigit : value / 256 ^ width % 256 = value % 256 ^ (width + 1) / 256 ^ width := by
    rw [← Nat.mod_mul_right_div_self, ← Nat.pow_succ]
  have hsplit := Nat.div_add_mod' (value % 256 ^ (width + 1)) (256 ^ width)
  rw [hdigit, ← hlow]
  omega

theorem toBytesBE_mod (width value : Nat) :
    toBytesBE width (value % 256 ^ width) = toBytesBE width value := by
  induction width generalizing value with
  | zero => rfl
  | succ width ih =>
    have hdigit : value % 256 ^ (width + 1) / 256 ^ width % 256 = value / 256 ^ width % 256 := by
      rw [Nat.pow_succ, Nat.mod_mul_right_div_self, Nat.mod_mod]
    have hlow : toBytesBE width (value % 256 ^ (width + 1)) = toBytesBE width value := by
      rw [← ih (value % 256 ^ (width + 1)),
        Nat.mod_mod_of_dvd _ (Nat.pow_dvd_pow 256 (Nat.le_succ width)), ih]
    rw [toBytesBE, toBytesBE, hdigit, hlow]

/-! ## Readers -/

def readU8 (eof : ε) : List Nat → Except ε (Nat × List Nat)
  | [] => .error eof
  | byte :: rest => .ok (byte, rest)

/-- Read `width` bytes, most significant first, onto `acc`. -/
def readBE (eof : ε) : Nat → Nat → List Nat → Except ε (Nat × List Nat)
  | 0, acc, input => .ok (acc, input)
  | width + 1, acc, input => do
    let (byte, rest) ← readU8 eof input
    readBE eof width (acc * 256 + byte) rest

/-- Read `width` bytes, least significant first. -/
def readLE (eof : ε) : Nat → List Nat → Except ε (Nat × List Nat)
  | 0, input => .ok (0, input)
  | width + 1, input => do
    let (byte, rest) ← readU8 eof input
    let (high, rest) ← readLE eof width rest
    return (byte + 256 * high, rest)

/-- `read_exact` of `count` bytes. -/
def readExact (eof : ε) (count : Nat) (input : List Nat) : Except ε (List Nat × List Nat) :=
  if count ≤ input.length then .ok (input.take count, input.drop count) else .error eof

@[simp]
theorem readU8_cons (eof : ε) (byte : Nat) (rest : List Nat) :
    readU8 eof (byte :: rest) = .ok (byte, rest) := rfl

theorem readU8_nil (eof : ε) : readU8 eof [] = .error eof := rfl

theorem readBE_zero (eof : ε) (acc : Nat) (input : List Nat) :
    readBE eof 0 acc input = .ok (acc, input) := rfl

theorem readBE_succ_nil (eof : ε) (width acc : Nat) :
    readBE eof (width + 1) acc [] = .error eof := rfl

theorem readBE_succ_cons (eof : ε) (width acc byte : Nat) (rest : List Nat) :
    readBE eof (width + 1) acc (byte :: rest) = readBE eof width (acc * 256 + byte) rest := rfl

theorem toBytesBE_succ (width value : Nat) :
    toBytesBE (width + 1) value = value / 256 ^ width % 256 :: toBytesBE width value := rfl

theorem readBE_toBytesBE_append (eof : ε) (width acc value : Nat) (rest : List Nat) :
    readBE eof width acc (toBytesBE width value ++ rest) =
      .ok (acc * 256 ^ width + value % 256 ^ width, rest) := by
  induction width generalizing acc with
  | zero => simp [readBE, toBytesBE, Nat.mod_one]
  | succ width ih =>
    rw [toBytesBE, List.cons_append, readBE]
    show readBE eof width (acc * 256 + value / 256 ^ width % 256)
      (toBytesBE width value ++ rest) = _
    rw [ih]
    rw [mod_pow_succ_eq, Nat.pow_succ]
    congr 1
    congr 1
    ring

/-- What the big-endian reader takes from bytes below 256 is the big-endian string of a number
below `256 ^ width`, added to `acc` shifted up by `width` bytes. -/
theorem readBE_eq_ok {eof : ε} {width acc value : Nat} {input rest : List Nat}
    (hbytes : ∀ byte ∈ input, byte < 256)
    (hread : readBE eof width acc input = .ok (value, rest)) :
    ∃ low < 256 ^ width, value = acc * 256 ^ width + low ∧ input = toBytesBE width low ++ rest := by
  induction width generalizing acc input with
  | zero =>
    rw [readBE_zero, Except.ok.injEq, Prod.mk.injEq] at hread
    obtain ⟨rfl, rfl⟩ := hread
    exact ⟨0, Nat.one_pos, by rw [Nat.pow_zero, Nat.mul_one, Nat.add_zero], rfl⟩
  | succ width ih =>
    cases input with
    | nil =>
      rw [readBE_succ_nil] at hread
      cases hread
    | cons byte input =>
      rw [readBE_succ_cons] at hread
      obtain ⟨low, hlow, rfl, rfl⟩ :=
        ih (fun other hother ↦ hbytes other (List.mem_cons_of_mem byte hother)) hread
      have hbyte : byte < 256 := hbytes byte List.mem_cons_self
      have hpos : 0 < 256 ^ width := Nat.pow_pos (by norm_num)
      refine ⟨256 ^ width * byte + low, ?_, ?_, ?_⟩
      · calc 256 ^ width * byte + low < 256 ^ width * byte + 256 ^ width := by omega
          _ = 256 ^ width * (byte + 1) := by rw [Nat.mul_succ]
          _ ≤ 256 ^ width * 256 := Nat.mul_le_mul_left _ hbyte
          _ = 256 ^ (width + 1) := (Nat.pow_succ 256 width).symm
      · rw [Nat.pow_succ', Nat.add_mul, Nat.add_assoc, Nat.mul_assoc, Nat.mul_comm byte]
      · rw [toBytesBE_succ, ← toBytesBE_mod width (256 ^ width * byte + low),
          Nat.mul_add_div hpos, Nat.div_eq_of_lt hlow, Nat.add_zero, Nat.mod_eq_of_lt hbyte,
          Nat.mul_add_mod, Nat.mod_eq_of_lt hlow, List.cons_append]

theorem readLE_toBytesLE_append (eof : ε) (width value : Nat) (rest : List Nat) :
    readLE eof width (toBytesLE width value ++ rest) = .ok (value % 256 ^ width, rest) := by
  induction width generalizing value with
  | zero => simp [readLE, toBytesLE, Nat.mod_one]
  | succ width ih =>
    rw [toBytesLE, List.cons_append, readLE]
    show (do
        let (high, rest) ← readLE eof width (toBytesLE width (value / 256) ++ rest)
        return (value % 256 + 256 * high, rest)) = _
    rw [ih]
    show Except.ok (value % 256 + 256 * (value / 256 % 256 ^ width), rest) = _
    rw [Nat.pow_succ', Nat.mod_mul]

/-! ## Lexicographic order -/

/-- Strings that start with parts of equal length compare by those parts first. -/
theorem append_lt_append_iff {front front' back back' : List Nat}
    (hlength : front.length = front'.length) :
    front ++ back < front' ++ back' ↔ front < front' ∨ front = front' ∧ back < back' := by
  induction front generalizing front' with
  | nil =>
    rw [List.length_nil, eq_comm, List.length_eq_zero_iff] at hlength
    subst hlength
    simp
  | cons byte front ih =>
    cases front' with
    | nil => cases hlength
    | cons byte' front' =>
      rw [List.cons_append, List.cons_append, List.cons_lt_cons_iff, List.cons_lt_cons_iff,
        ih (Nat.succ.inj hlength), List.cons.injEq]
      constructor
      · rintro (hlt | ⟨rfl, hlt | ⟨rfl, hback⟩⟩)
        · exact .inl (.inl hlt)
        · exact .inl (.inr ⟨rfl, hlt⟩)
        · exact .inr ⟨⟨rfl, rfl⟩, hback⟩
      · rintro ((hlt | ⟨rfl, hlt⟩) | ⟨⟨rfl, rfl⟩, hback⟩)
        · exact .inl hlt
        · exact .inr ⟨rfl, .inl hlt⟩
        · exact .inr ⟨rfl, .inr ⟨rfl, hback⟩⟩

/-- Big-endian strings of one width compare as the numbers they write. -/
theorem toBytesBE_lt_toBytesBE_iff {width value value' : Nat} (hvalue : value < 256 ^ width)
    (hvalue' : value' < 256 ^ width) :
    toBytesBE width value < toBytesBE width value' ↔ value < value' := by
  induction width generalizing value value' with
  | zero =>
    rw [Nat.pow_zero] at hvalue hvalue'
    simp [toBytesBE]
    omega
  | succ width ih =>
    have hpos : 0 < 256 ^ width := Nat.pow_pos (by norm_num)
    have hdigit : value / 256 ^ width < 256 := by
      rw [Nat.div_lt_iff_lt_mul hpos, ← Nat.pow_succ']
      exact hvalue
    have hdigit' : value' / 256 ^ width < 256 := by
      rw [Nat.div_lt_iff_lt_mul hpos, ← Nat.pow_succ']
      exact hvalue'
    rw [toBytesBE, toBytesBE, List.cons_lt_cons_iff, Nat.mod_eq_of_lt hdigit,
      Nat.mod_eq_of_lt hdigit', ← toBytesBE_mod width value, ← toBytesBE_mod width value',
      ih (Nat.mod_lt _ hpos) (Nat.mod_lt _ hpos)]
    have hsplit := Nat.div_add_mod' value (256 ^ width)
    have hsplit' := Nat.div_add_mod' value' (256 ^ width)
    have hlow := Nat.mod_lt value hpos
    have hlow' := Nat.mod_lt value' hpos
    constructor
    · rintro (hlt | ⟨heq, hlt⟩)
      · have hle : value / 256 ^ width * 256 ^ width + 256 ^ width ≤
            value' / 256 ^ width * 256 ^ width := by
          rw [← Nat.succ_mul]
          exact Nat.mul_le_mul_right _ hlt
        omega
      · rw [heq] at hsplit
        omega
    · intro hlt
      rcases Nat.lt_or_ge (value / 256 ^ width) (value' / 256 ^ width) with hdlt | hdge
      · exact .inl hdlt
      · have heq : value / 256 ^ width = value' / 256 ^ width :=
          le_antisymm (Nat.div_le_div_right hlt.le) hdge
        rw [heq] at hsplit
        exact .inr ⟨heq, by omega⟩

/-- Big-endian strings of one width are equal exactly when the numbers they write are. -/
theorem toBytesBE_inj {width value value' : Nat} (hvalue : value < 256 ^ width)
    (hvalue' : value' < 256 ^ width) : toBytesBE width value = toBytesBE width value' ↔ value = value' := by
  constructor
  · intro heq
    have hread := congrArg (fun bytes ↦ readBE (ε := Unit) () width 0 (bytes ++ [])) heq
    simp only [readBE_toBytesBE_append, Nat.zero_mul, Nat.zero_add, Nat.mod_eq_of_lt hvalue,
      Nat.mod_eq_of_lt hvalue', Except.ok.injEq, Prod.mk.injEq, and_true] at hread
    exact hread
  · rintro rfl
    rfl

/-! ## Bits -/

theorem and_two_pow_eq_zero_iff (n i : Nat) : n &&& 2 ^ i = 0 ↔ n / 2 ^ i % 2 = 0 := by
  rw [Nat.and_two_pow, Nat.testBit_eq_decide_div_mod_eq]
  by_cases hbit : n / 2 ^ i % 2 = 1
  · simp [hbit]
  · simp [hbit]
    omega

/-- A number below `2 ^ k` and a multiple of `2 ^ k` have no bit in common, so or-ing them
adds them. -/
theorem or_shiftLeft_eq_add {low k : Nat} (hlow : low < 2 ^ k) (high : Nat) :
    low ||| high <<< k = low + 2 ^ k * high := by
  rw [Nat.shiftLeft_eq, Nat.or_comm, Nat.mul_comm, ← Nat.two_pow_add_eq_or_of_lt hlow,
    Nat.add_comm]

/-- A number whose set bits are the members of a list without duplicates has as many set bits
as the list has members. -/
theorem length_bitIndices_of_testBit_iff {value : Nat} {indices : List Nat}
    (hnodup : indices.Nodup) (hbits : ∀ i, value.testBit i = true ↔ i ∈ indices) :
    value.bitIndices.length = indices.length := by
  have hset : value.bitIndices.toFinset = indices.toFinset := by
    ext i
    rw [List.mem_toFinset, List.mem_toFinset, Nat.mem_bitIndices, hbits]
  rw [← List.toFinset_card_of_nodup Nat.bitIndices_nodup, hset,
    List.toFinset_card_of_nodup hnodup]

/-! ## Prefix codecs -/

/-- A serializer with a reader that takes back exactly what it wrote from the front of any
input. -/
class PrefixCodec (α : Type) where
  serialize : α → List Nat
  deserialize : List Nat → Option (α × List Nat)
  deserialize_serialize_append :
    ∀ value rest, deserialize (serialize value ++ rest) = some (value, rest)

/-- The BCS format of `()`: no bytes. -/
instance instPrefixCodecUnit : PrefixCodec Unit where
  serialize _ := []
  deserialize input := some ((), input)
  deserialize_serialize_append _ _ := rfl

end AptosCore.Codec
