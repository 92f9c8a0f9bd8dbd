import Mathlib
import AptosCore.Jellyfish.NodeType
import AptosCore.Rust.Result

/-!
# The node codecs of the Jellyfish Merkle tree invert each other

Reading back what `serialize_u64_varint` writes gives the number back, for every `u64` and with
any bytes after it; a number of 57 bits or more takes all nine bytes
(`deserializeU64Varint_serializeU64Varint`). The round trip is an induction over the rounds of
the two loops with one invariant: after `i` rounds the reader holds the number modulo
`2 ^ (7 * i)` and the writer the number shifted right by `7 * i`.
-/

namespace AptosCore.Jellyfish

open Codec Rust

/-! ## Varints -/

theorem mod_256_and_0x7F (num : Nat) : num % 256 &&& 0x7F = num % 128 := by
  rw [show (0x7F : Nat) = 2 ^ 7 - 1 from rfl, Nat.and_two_pow_sub_one_eq_mod]
  omega

theorem serializeU64VarintLoop_succ (count num : Nat) :
    serializeU64VarintLoop (count + 1) num =
      if num / 128 = 0 then some [num % 128]
      else List.cons (num % 128 + 128) <$> serializeU64VarintLoop count (num / 128) := by
  have hshift : num >>> 7 = num / 128 := Nat.shiftRight_eq_div_pow num 7
  simp only [serializeU64VarintLoop, mod_256_and_0x7F, hshift]
  by_cases hlast : num / 128 = 0
  · simp [hlast]
  · have hmore : num % 128 ||| 0x80 = num % 128 + 128 :=
      Nat.or_two_pow_eq_add_of_lt (n := 7) (by omega)
    simp [hlast, hmore]

theorem deserializeU64VarintLoop_succ_cons (count i num byte : Nat) (rest : List Nat) :
    deserializeU64VarintLoop (count + 1) i num (byte :: rest) =
      if byte / 128 % 2 = 0 then .ok (num ||| (byte % 128) <<< (i * 7), rest)
      else deserializeU64VarintLoop count (i + 1) (num ||| (byte % 128) <<< (i * 7)) rest := by
  have hlow : byte &&& 0x7F = byte % 128 := by
    rw [show (0x7F : Nat) = 2 ^ 7 - 1 from rfl, Nat.and_two_pow_sub_one_eq_mod]
  have hhigh : byte &&& 0x80 = 0 ↔ byte / 128 % 2 = 0 := and_two_pow_eq_zero_iff byte 7
  simp only [deserializeU64VarintLoop, readU8_cons, ok_bind, hlow, hhigh]
  rfl

theorem mod_or_shiftLeft_eq_mod (x i : Nat) :
    x % 2 ^ (i * 7) ||| (x / 2 ^ (i * 7) % 128) <<< (i * 7) = x % 2 ^ ((i + 1) * 7) := by
  rw [or_shiftLeft_eq_add (Nat.mod_lt _ (Nat.two_pow_pos _)), Nat.add_mul, Nat.one_mul,
    Nat.pow_add, show (2 : Nat) ^ 7 = 128 from rfl, Nat.mod_mul]

theorem div_two_pow_div_128 (x i : Nat) : x / 2 ^ (i * 7) / 128 = x / 2 ^ ((i + 1) * 7) := by
  rw [Nat.div_div_eq_div_mul, Nat.add_mul, Nat.one_mul, Nat.pow_add]

/-- The rounds from `i` on: the writer, fed the number shifted right by `7 * i`, succeeds, and
the reader, holding the number modulo `2 ^ (7 * i)`, reads it back from what it wrote. Past the
first round the shifted number is not zero, since a zero ends the writer. -/
theorem deserializeU64VarintLoop_serialize {count i x : Nat} (hround : i + count = 8)
    (hx : x < 2 ^ 64) (hstart : x / 2 ^ (i * 7) = 0 → i = 0) :
    ∃ bytes, serializeU64VarintLoop count (x / 2 ^ (i * 7)) = some bytes ∧
      (2 ^ 56 ≤ x → bytes.length = count + 1) ∧
      ∀ rest, deserializeU64VarintLoop count i (x % 2 ^ (i * 7)) (bytes ++ rest) = .ok (x, rest) := by
  induction count generalizing i with
  | zero =>
    obtain rfl : i = 8 := by omega
    rw [show 8 * 7 = 56 from rfl]
    have htop : x / 2 ^ 56 < 256 := by
      rw [Nat.div_lt_iff_lt_mul (Nat.two_pow_pos 56)]
      exact hx
    have hne : x / 2 ^ 56 ≠ 0 := fun hzero ↦ absurd (hstart hzero) (by decide)
    refine ⟨[x / 2 ^ 56], ?_, fun _ ↦ rfl, fun rest ↦ ?_⟩
    · simp only [serializeU64VarintLoop]
      rw [if_pos ⟨hne, by omega⟩, Nat.mod_eq_of_lt htop]
    · simp only [List.cons_append, List.nil_append, deserializeU64VarintLoop, readU8_cons, ok_bind]
      rw [or_shiftLeft_eq_add (Nat.mod_lt _ (Nat.two_pow_pos _)), Nat.mod_add_div]
      rfl
  | succ count ih =>
    have hnext := div_two_pow_div_128 x i
    have hacc := mod_or_shiftLeft_eq_mod x i
    by_cases hlast : x / 2 ^ (i * 7) / 128 = 0
    · have hfit : x < 2 ^ ((i + 1) * 7) := by
        rw [hnext, Nat.div_eq_zero_iff] at hlast
        exact hlast.resolve_left (Nat.two_pow_pos _).ne'
      refine ⟨[x / 2 ^ (i * 7) % 128], ?_, fun hlarge ↦ ?_, fun rest ↦ ?_⟩
      · rw [serializeU64VarintLoop_succ, if_pos hlast]
      · have : 2 ^ ((i + 1) * 7) ≤ 2 ^ 56 := Nat.pow_le_pow_right (by decide) (by omega)
        omega
      · rw [List.cons_append, List.nil_append, deserializeU64VarintLoop_succ_cons,
          if_pos (by omega), Nat.mod_mod, hacc, Nat.mod_eq_of_lt hfit]
    · obtain ⟨bytes, hwrite, hlength, hread⟩ :=
        ih (i := i + 1) (by omega) (fun hzero ↦ absurd (hnext ▸ hzero) hlast)
      refine ⟨(x / 2 ^ (i * 7) % 128 + 128) :: bytes, ?_, fun hlarge ↦ ?_, fun rest ↦ ?_⟩
      · rw [serializeU64VarintLoop_succ, if_neg hlast, hnext, hwrite]
        rfl
      · rw [List.length_cons, hlength hlarge]
      · rw [List.cons_append, deserializeU64VarintLoop_succ_cons, if_neg (by omega),
          show (x / 2 ^ (i * 7) % 128 + 128) % 128 = x / 2 ^ (i * 7) % 128 by omega, hacc,
          hread]

/-- `deserialize_u64_varint` reads back what `serialize_u64_varint` writes, for every `u64`; a
number of 57 bits or more takes nine bytes. -/
theorem deserializeU64Varint_serializeU64Varint {x : Nat} (hx : x < 2 ^ 64) :
    ∃ bytes, serializeU64Varint x = some bytes ∧ (2 ^ 56 ≤ x → bytes.length = 9) ∧
      ∀ rest, deserializeU64Varint (bytes ++ rest) = .ok (x, rest) := by
  obtain ⟨bytes, hwrite, hlength, hread⟩ :=
    @deserializeU64VarintLoop_serialize 8 0 x rfl hx fun _ ↦ rfl
  rw [Nat.zero_mul, Nat.pow_zero, Nat.div_one] at hwrite
  rw [Nat.zero_mul, Nat.pow_zero, Nat.mod_one] at hread
  exact ⟨bytes, hwrite, hlength, hread⟩

/-! ## Node keys -/

namespace NodeKey

theorem encode_of_valid {key : NodeKey} (hkey : key.Valid) :
    key.encode = toBytesBE 8 key.version ++ key.nibblePath.numNibbles :: key.nibblePath.bytes := by
  have hle := hkey.nibblePath.numNibbles_le
  unfold rootNibbleHeight at hle
  rw [encode, Nat.mod_eq_of_lt (by omega), List.append_assoc, List.singleton_append]

theorem pow_256_eight : (256 : Nat) ^ 8 = 2 ^ 64 := by norm_num

theorem readBE_version {version : Nat} (hversion : version < 2 ^ 64) (rest : List Nat) :
    readBE CodecError.unexpectedEof 8 0 (toBytesBE 8 version ++ rest) = .ok (version, rest) := by
  rw [readBE_toBytesBE_append, Nat.zero_mul, Nat.zero_add, pow_256_eight,
    Nat.mod_eq_of_lt hversion]

/-- `decode` reads a valid key back from its encoding. -/
theorem decode_encode {key : NodeKey} (hkey : key.Valid) : decode key.encode = .ok key := by
  obtain ⟨version, numNibbles, bytes⟩ := key
  obtain ⟨hversion, hle, hlength, hpadding⟩ := hkey
  dsimp only at hversion hle hlength hpadding
  rw [encode_of_valid ⟨hversion, hle, hlength, hpadding⟩]
  unfold decode
  simp only [readBE_version hversion, ok_bind, readU8_cons]
  rw [if_neg (Nat.not_lt.mpr hle), if_neg (not_not.mpr hlength.symm)]
  unfold rootNibbleHeight at hle
  by_cases heven : numNibbles % 2 = 0
  · have hpath : NibblePath.newEven bytes = some ⟨numNibbles, bytes⟩ :=
      NibblePath.newEven_eq_some_iff.mpr
        ⟨by unfold rootNibbleHeight; omega, by rw [NibblePath.mk.injEq]; exact ⟨by omega, rfl⟩⟩
    rw [if_pos heven, hpath]
    rfl
  · have hne : bytes ≠ [] := List.ne_nil_of_length_pos (by omega)
    obtain ⟨last, hlast⟩ : ∃ last, bytes.getLast? = some last :=
      ⟨bytes.getLast hne, List.getLast?_eq_some_getLast hne⟩
    have hzero : last &&& 0x0F = 0 := hpadding (by omega) last hlast
    have hpath : NibblePath.newOdd bytes = some ⟨numNibbles, bytes⟩ :=
      NibblePath.newOdd_eq_some_iff.mpr ⟨by unfold rootNibbleHeight; omega,
        by rw [hlast, Option.map_some, hzero], by rw [NibblePath.mk.injEq]; exact ⟨by omega, rfl⟩⟩
    rw [if_neg heven, hlast, Option.map_some, hzero]
    show (do
      if (0 : Nat) ≠ 0 then throw (CodecError.nonZeroPadding 0)
      let nibblePath ← orPanic (NibblePath.newOdd bytes)
      pure ({ version, nibblePath } : NodeKey)) = _
    rw [if_neg (not_not.mpr rfl), hpath]
    rfl

/-- `decode` accepts only the encodings of valid keys: what it returns is valid and encodes to
the bytes it read. -/
theorem valid_of_decode_eq_ok {val : List Nat} {key : NodeKey}
    (hbytes : ∀ byte ∈ val, byte < 256) (hdecode : decode val = .ok key) :
    key.Valid ∧ key.encode = val := by
  unfold decode at hdecode
  rw [bind_eq_ok_iff] at hdecode
  obtain ⟨⟨version, reader⟩, hread, hdecode⟩ := hdecode
  obtain ⟨version, hversion, rfl, rfl⟩ := readBE_eq_ok hbytes hread
  rw [pow_256_eight] at hversion
  cases reader with
  | nil =>
    simp only [readU8_nil, error_bind] at hdecode
    cases hdecode
  | cons numNibbles bytes =>
    simp only [readU8_cons, ok_bind, Nat.zero_mul, Nat.zero_add] at hdecode
    have hbyte : numNibbles < 256 := hbytes numNibbles (by simp)
    by_cases hbig : rootNibbleHeight < numNibbles
    · simp [hbig] at hdecode
    by_cases hmismatch : (numNibbles + 1) / 2 ≠ bytes.length
    · simp [hbig, hmismatch] at hdecode
    rw [if_neg hbig, if_neg hmismatch] at hdecode
    rw [not_not] at hmismatch
    obtain ⟨path, hpath, hvalid, hkey⟩ : ∃ path, key = ⟨version, path⟩ ∧ path.Valid ∧
        path = ⟨numNibbles, bytes⟩ := by
      by_cases heven : numNibbles % 2 = 0
      · rw [if_pos heven, bind_eq_ok_iff] at hdecode
        obtain ⟨path, hnew, hpure⟩ := hdecode
        rw [orPanic_eq_ok_iff] at hnew
        obtain ⟨-, hpath⟩ := NibblePath.newEven_eq_some_iff.mp hnew
        refine ⟨path, (pure_eq_ok_iff.mp hpure).symm, NibblePath.valid_of_newEven hnew, ?_⟩
        rw [hpath, NibblePath.mk.injEq]
        exact ⟨by omega, rfl⟩
      · rw [if_neg heven, bind_eq_ok_iff] at hdecode
        obtain ⟨padding, -, hdecode⟩ := hdecode
        by_cases hpadding : padding ≠ 0
        · simp [hpadding] at hdecode
        rw [if_neg hpadding, bind_eq_ok_iff] at hdecode
        obtain ⟨path, hnew, hpure⟩ := hdecode
        rw [orPanic_eq_ok_iff] at hnew
        obtain ⟨-, hlast, hpath⟩ := NibblePath.newOdd_eq_some_iff.mp hnew
        have hpos : 0 < bytes.length := by
          refine List.length_pos_iff.mpr fun hnil ↦ ?_
          rw [hnil] at hlast
          cases hlast
        refine ⟨path, (pure_eq_ok_iff.mp hpure).symm, NibblePath.valid_of_newOdd hnew, ?_⟩
        rw [hpath, NibblePath.mk.injEq]
        exact ⟨by omega, rfl⟩
    subst hpath hkey
    refine ⟨⟨hversion, hvalid⟩, ?_⟩
    rw [encode, Nat.mod_eq_of_lt hbyte, List.append_assoc, List.singleton_append]

/-- `decode` is the inverse of `encode` on valid keys: on bytes, it returns a key exactly when
the key is valid and the bytes are its encoding. -/
theorem decode_eq_ok_iff_valid_encode {val : List Nat} (hbytes : ∀ byte ∈ val, byte < 256)
    (key : NodeKey) : decode val = .ok key ↔ key.Valid ∧ key.encode = val := by
  constructor
  · exact valid_of_decode_eq_ok hbytes
  · rintro ⟨hvalid, rfl⟩
    exact decode_encode hvalid

theorem decode_eq_ok_iff_valid_encode_odd_path :
    (∀ byte ∈ [0, 0, 0, 0, 0, 0, 0, 7, 3, 0xAB, 0xC0], byte < 256) ∧
      (decode [0, 0, 0, 0, 0, 0, 0, 7, 3, 0xAB, 0xC0] = .ok ⟨7, ⟨3, [0xAB, 0xC0]⟩⟩ ↔
        NodeKey.Valid ⟨7, ⟨3, [0xAB, 0xC0]⟩⟩ ∧
          NodeKey.encode ⟨7, ⟨3, [0xAB, 0xC0]⟩⟩ = [0, 0, 0, 0, 0, 0, 0, 7, 3, 0xAB, 0xC0]) :=
  ⟨by decide, decode_eq_ok_iff_valid_encode (by decide) ⟨7, ⟨3, [0xAB, 0xC0]⟩⟩⟩

/-- The byte order of the encodings of valid keys is the derived order of the keys. -/
theorem encode_lt_encode_iff {a b : NodeKey} (ha : a.Valid) (hb : b.Valid) :
    a.encode < b.encode ↔ a < b := by
  have hva : a.version < 256 ^ 8 := pow_256_eight ▸ ha.version_lt
  have hvb : b.version < 256 ^ 8 := pow_256_eight ▸ hb.version_lt
  rw [encode_of_valid ha, encode_of_valid hb, append_lt_append_iff (by simp),
    toBytesBE_lt_toBytesBE_iff hva hvb, toBytesBE_inj hva hvb, List.cons_lt_cons_iff, lt_iff,
    NibblePath.lt_iff]

theorem encode_lt_encode_iff_same_version :
    NodeKey.Valid ⟨7, ⟨3, [0xAB, 0xC0]⟩⟩ ∧ NodeKey.Valid ⟨7, ⟨4, [0xAB, 0xC0]⟩⟩ ∧
      (NodeKey.encode ⟨7, ⟨3, [0xAB, 0xC0]⟩⟩ < NodeKey.encode ⟨7, ⟨4, [0xAB, 0xC0]⟩⟩ ↔
        (⟨7, ⟨3, [0xAB, 0xC0]⟩⟩ : NodeKey) < ⟨7, ⟨4, [0xAB, 0xC0]⟩⟩) := by
  have hodd : NodeKey.Valid ⟨7, ⟨3, [0xAB, 0xC0]⟩⟩ :=
    ⟨by norm_num, by decide, by decide, fun _ last hlast ↦ by
      rw [Option.mem_def] at hlast
      cases hlast
      decide⟩
  have heven : NodeKey.Valid ⟨7, ⟨4, [0xAB, 0xC0]⟩⟩ :=
    ⟨by norm_num, by decide, by decide, fun hodd ↦ absurd hodd (by decide)⟩
  exact ⟨hodd, heven, encode_lt_encode_iff hodd heven⟩

end NodeKey

end AptosCore.Jellyfish
