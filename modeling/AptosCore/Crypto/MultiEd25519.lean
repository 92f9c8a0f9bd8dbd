import AptosCore.Bits.Bytes
import AptosCore.Rust.Result

/-!
# MultiEd25519 signatures

`crates/aptos-crypto/src/multi_ed25519.rs`: a `t`-out-of-`n` signature is a list of Ed25519
signatures and a 4-byte bitmap of signers, most significant bit of the first byte first.
`verify_arbitrary_msg` checks that the last set bit names a key and that enough bits are set,
then walks the signatures while scanning the bitmap for the next set bit, and checks each
signature against that bit's key. The Ed25519 check of one signature is a parameter `verify`;
the signature, key and message types are parameters too.

A panic of the code is `none`; a returned `Result` is an `Except`.

The scan is an unbounded `while` over `bitmap_get_bit`, which indexes the bitmap without a range
check. With the set bits listed (`Bits.setBits`), the loop is `pairedVerify`: the signatures
paired in order with the set bits (`verifySignatures_eq_pairedVerify`). When there are more
signatures than set bits, the scan runs past bit 31 and `bitmap_get_bit` panics
(`verifyArbitraryMsg_eq_none_iff`); when there are fewer, the extra set bits are never checked.
Only the byte decoder ties the number of signatures to the bitmap.
-/

namespace AptosCore.Crypto

open Bits

def maxNumOfKeys : Nat := 32

def bitmapNumOfBytes : Nat := 4

def ed25519SignatureLength : Nat := 64

/-- `CryptoMaterialError`. -/
inductive CryptoMaterialError where
  | serializationError
  | deserializationError
  | validationError
  | wrongLengthError
  | canonicalRepresentationError
  | smallSubgroupError
  | pointNotOnCurveError
  | bitVecError (message : String)
  deriving DecidableEq, Repr

/-- The `anyhow::Error` of `verify_arbitrary_msg`: one it raises about the bitmap, or the error
of the Ed25519 check of a signature. -/
inductive VerifyError (E : Type) where
  | material (error : CryptoMaterialError)
  | signature (error : E)
  deriving DecidableEq, Repr

/-- `MultiEd25519PublicKey`. Its constructors (`new` and the byte decoder) keep
`1 ≤ threshold ≤ #keys ≤ MAX_NUM_OF_KEYS`. -/
structure MultiEd25519PublicKey (P : Type) where
  publicKeys : List P
  threshold : UInt8
  threshold_pos : 0 < threshold.toNat
  threshold_le : threshold.toNat ≤ publicKeys.length
  length_le : publicKeys.length ≤ maxNumOfKeys

/-- `MultiEd25519Signature`. -/
structure MultiEd25519Signature (S : Type) where
  signatures : List S
  bitmap : Vector UInt8 bitmapNumOfBytes

variable {P S M E : Type}

def MultiEd25519PublicKey.new (publicKeys : List P) (threshold : UInt8) :
    Except CryptoMaterialError (MultiEd25519PublicKey P) :=
  if hvalid : threshold.toNat = 0 ∨ publicKeys.length < threshold.toNat then
    .error .validationError
  else if hlength : publicKeys.length > maxNumOfKeys then
    .error .wrongLengthError
  else
    .ok ⟨publicKeys, threshold, by omega, by omega, by omega⟩

/-- A key that `new` builds holds the given keys and threshold. -/
theorem MultiEd25519PublicKey.new_eq_ok {publicKeys : List P} {threshold : UInt8}
    {publicKey : MultiEd25519PublicKey P}
    (hnew : MultiEd25519PublicKey.new publicKeys threshold = .ok publicKey) :
    publicKey.publicKeys = publicKeys ∧ publicKey.threshold = threshold := by
  unfold MultiEd25519PublicKey.new at hnew
  split_ifs at hnew
  cases hnew
  exact ⟨rfl, rfl⟩

/-- `MultiEd25519Signature::new_with_signatures_and_bitmap`: any signatures with any bitmap. -/
def MultiEd25519Signature.newWithSignaturesAndBitmap (signatures : List S)
    (bitmap : Vector UInt8 bitmapNumOfBytes) : MultiEd25519Signature S :=
  ⟨signatures, bitmap⟩

/-- `bitmap_get_bit`; `none` past the bitmap, where `input[bucket]` panics. -/
def bitmapGetBit (input : Vector UInt8 bitmapNumOfBytes) (index : Nat) : Option Bool := do
  let bucket := index / 8
  let bucketPos := index - bucket * 8
  let byte ← input[bucket]?
  pure (byte &&& (128 >>> bucketPos.toUInt8) != 0)

def bitmapCountOnes (input : Vector UInt8 bitmapNumOfBytes) : Nat :=
  (input.toList.map countOnes).sum

def bitmapLastSetBit (input : Vector UInt8 bitmapNumOfBytes) : Option UInt8 :=
  (input.toList.reverse.zipIdx.find? fun entry ↦ entry.1 != 0).map fun entry ↦
    (8 * (bitmapNumOfBytes - entry.2) - trailingZeros entry.1 - 1).toUInt8

theorem bitmapGetBit_isSome_iff (input : Vector UInt8 bitmapNumOfBytes) (index : Nat) :
    (bitmapGetBit input index).isSome ↔ index < bitmapNumOfBytes * 8 := by
  by_cases hbucket : index / 8 < bitmapNumOfBytes
  case pos =>
    have hindex : index < bitmapNumOfBytes * 8 := by rw [bitmapNumOfBytes] at hbucket ⊢; omega
    simp [bitmapGetBit, hbucket, hindex]
  case neg =>
    have hindex : ¬index < bitmapNumOfBytes * 8 := by rw [bitmapNumOfBytes] at hbucket ⊢; omega
    simp [bitmapGetBit, hbucket, hindex]

/-- The scan `while !bitmap_get_bit(self.bitmap, bitmap_index) { bitmap_index += 1; }` of
`verify_arbitrary_msg`: the first set bit from `bitmapIndex` on, or `none` when the scan runs
past the bitmap, where `bitmap_get_bit` panics. -/
def skipUnsetBits (bitmap : Vector UInt8 bitmapNumOfBytes) (bitmapIndex : Nat) : Option Nat :=
  match hbit : bitmapGetBit bitmap bitmapIndex with
  | some false => skipUnsetBits bitmap (bitmapIndex + 1)
  | some true => some bitmapIndex
  | none => none
termination_by bitmapNumOfBytes * 8 - bitmapIndex
decreasing_by
  have := (bitmapGetBit_isSome_iff bitmap bitmapIndex).mp (by rw [hbit]; rfl)
  omega

/-- The loop `for sig in &self.signatures` of `verify_arbitrary_msg`, with the scan at
`bitmapIndex`. `public_key.public_keys[bitmap_index]` panics past the keys. -/
def verifySignatures (verify : S → M → P → Except E Unit) (bitmap : Vector UInt8 bitmapNumOfBytes)
    (message : M) (publicKeys : List P) :
    List S → Nat → Option (Except (VerifyError E) Unit)
  | [], _ => some (.ok ())
  | sig :: signatures, bitmapIndex => do
    let bitmapIndex ← skipUnsetBits bitmap bitmapIndex
    let publicKey ← publicKeys[bitmapIndex]?
    match verify sig message publicKey with
    | .error error => some (.error (.signature error))
    | .ok () => verifySignatures verify bitmap message publicKeys signatures (bitmapIndex + 1)

theorem verifySignatures_cons (verify : S → M → P → Except E Unit)
    (bitmap : Vector UInt8 bitmapNumOfBytes) (message : M) (publicKeys : List P) (sig : S)
    (signatures : List S) (bitmapIndex : Nat) :
    verifySignatures verify bitmap message publicKeys (sig :: signatures) bitmapIndex = (do
      let bitmapIndex ← skipUnsetBits bitmap bitmapIndex
      let publicKey ← publicKeys[bitmapIndex]?
      match verify sig message publicKey with
      | .error error => some (.error (.signature error))
      | .ok () => verifySignatures verify bitmap message publicKeys signatures (bitmapIndex + 1)) :=
  rfl

def MultiEd25519Signature.verifyArbitraryMsg (verify : S → M → P → Except E Unit)
    (signature : MultiEd25519Signature S) (message : M) (publicKey : MultiEd25519PublicKey P) :
    Option (Except (VerifyError E) Unit) :=
  let inRange :=
    match bitmapLastSetBit signature.bitmap with
    | some lastBit => decide (lastBit.toNat < publicKey.publicKeys.length)
    | none => false
  if !inRange then
    some (.error (.material (.bitVecError "Signature index is out of range")))
  else if bitmapCountOnes signature.bitmap < publicKey.threshold.toNat then
    some (.error (.material (.bitVecError "Not enough signatures to meet the threshold")))
  else
    verifySignatures verify signature.bitmap message publicKey.publicKeys signature.signatures 0

/-- `TryFrom<&[u8]> for MultiEd25519Signature`, with `Ed25519Signature::try_from` as
`decodeSignature`. -/
def MultiEd25519Signature.tryFrom (decodeSignature : List UInt8 → Except CryptoMaterialError S)
    (bytes : List UInt8) : Except CryptoMaterialError (MultiEd25519Signature S) := do
  let length := bytes.length
  let bitmapNumOfBytes' := length % ed25519SignatureLength
  let numOfSigs := length / ed25519SignatureLength
  if numOfSigs = 0 ∨ numOfSigs > maxNumOfKeys ∨ bitmapNumOfBytes' ≠ bitmapNumOfBytes then
    throw .wrongLengthError
  let bitmap ←
    if hbitmap : (bytes.drop (length - bitmapNumOfBytes)).length = bitmapNumOfBytes then
      pure (Vector.mk (bytes.drop (length - bitmapNumOfBytes)).toArray (by simpa using hbitmap))
    else throw .deserializationError
  if bitmapCountOnes bitmap ≠ numOfSigs then
    throw .deserializationError
  let signatures ← (chunksExact ed25519SignatureLength bytes).mapM decodeSignature
  pure ⟨signatures, bitmap⟩

/-- The loop of `verify_arbitrary_msg` with the set bits listed beforehand: each signature is
checked against the key of the next set bit, and the loop panics when the set bits run out. -/
def pairedVerify (verify : S → M → P → Except E Unit) (message : M) (publicKeys : List P) :
    List S → List Nat → Option (Except (VerifyError E) Unit)
  | [], _ => some (.ok ())
  | _ :: _, [] => none
  | sig :: signatures, index :: indices => do
    let publicKey ← publicKeys[index]?
    match verify sig message publicKey with
    | .error error => some (.error (.signature error))
    | .ok () => pairedVerify verify message publicKeys signatures indices

section PairedEquations

variable (verify : S → M → P → Except E Unit) (message : M) (publicKeys : List P)

@[simp] theorem pairedVerify_nil (indices : List Nat) :
    pairedVerify verify message publicKeys [] indices = some (.ok ()) := rfl

@[simp] theorem pairedVerify_cons_nil (sig : S) (signatures : List S) :
    pairedVerify verify message publicKeys (sig :: signatures) [] = none := rfl

theorem pairedVerify_cons_cons (sig : S) (signatures : List S) (index : Nat)
    (indices : List Nat) :
    pairedVerify verify message publicKeys (sig :: signatures) (index :: indices) = (do
      let publicKey ← publicKeys[index]?
      match verify sig message publicKey with
      | .error error => some (.error (.signature error))
      | .ok () => pairedVerify verify message publicKeys signatures indices) := rfl

end PairedEquations

/-- Each signature verifies the message under the key of the set bit it is paired with. -/
def PairsVerify (verify : S → M → P → Except E Unit) (message : M) (publicKeys : List P)
    (signatures : List S) (indices : List Nat) : Prop :=
  ∀ pair ∈ signatures.zip indices,
    ∃ publicKey, publicKeys[pair.2]? = some publicKey ∧ verify pair.1 message publicKey = .ok ()

section Bitmap

/-- `bitmap_get_bit` reads the bits of the bitmap, and panics past them. -/
theorem bitmapGetBit_eq (input : Vector UInt8 bitmapNumOfBytes) (index : Nat) :
    bitmapGetBit input index =
      if index < bitmapNumOfBytes * 8 then some (bitAt input.toList index) else none := by
  by_cases hindex : index < bitmapNumOfBytes * 8
  case pos =>
    have hbucket : index / 8 < bitmapNumOfBytes := by rw [bitmapNumOfBytes] at hindex ⊢; omega
    have hpos : index - index / 8 * 8 = index % 8 := by omega
    simp only [bitmapGetBit, bitAt_eq, hindex, hbucket, hpos, if_true, Vector.getElem?_eq_getElem,
      Vector.getElem?_toList, Option.bind_eq_bind, Option.bind_some, Option.pure_def]
    exact congrArg some (and_shiftRight_ne_zero _ _ (Nat.mod_lt _ (by decide)))
  case neg =>
    have hbucket : ¬index / 8 < bitmapNumOfBytes := by rw [bitmapNumOfBytes] at hindex ⊢; omega
    simp [bitmapGetBit, hindex, hbucket]

/-- A bit that `bitmap_get_bit` reads is set exactly when its position is a set bit. -/
theorem mem_setBits_iff_of_bitmapGetBit {bitmap : Vector UInt8 bitmapNumOfBytes} {index : Nat}
    {bit : Bool} (hbit : bitmapGetBit bitmap index = some bit) :
    index ∈ setBits bitmap.toList ↔ bit = true := by
  rw [bitmapGetBit_eq] at hbit
  by_cases hindex : index < bitmapNumOfBytes * 8
  · rw [if_pos hindex, Option.some.injEq] at hbit
    rw [mem_setBits_iff, hbit]
  · rw [if_neg hindex] at hbit
    cases hbit

theorem lt_of_mem_setBits_bitmap {bitmap : Vector UInt8 bitmapNumOfBytes} {index : Nat}
    (hindex : index ∈ setBits bitmap.toList) : index < bitmapNumOfBytes * 8 := by
  have := lt_of_mem_setBits hindex
  rw [Vector.length_toList] at this
  omega

theorem bitmapCountOnes_eq_length (bitmap : Vector UInt8 bitmapNumOfBytes) :
    bitmapCountOnes bitmap = (setBits bitmap.toList).length :=
  (length_setBits bitmap.toList).symm

/-- `bitmap_last_set_bit` is the last set bit. -/
theorem bitmapLastSetBit_eq (bitmap : Vector UInt8 bitmapNumOfBytes) :
    bitmapLastSetBit bitmap = (setBits bitmap.toList).getLast?.map Nat.toUInt8 := by
  rw [← getLast?_setBits, Option.map_map, Vector.length_toList]
  rfl

/-- The scan stops at the first set bit from its start, and panics when there is none. -/
theorem skipUnsetBits_eq (bitmap : Vector UInt8 bitmapNumOfBytes) (bitmapIndex : Nat) :
    skipUnsetBits bitmap bitmapIndex =
      ((setBits bitmap.toList).filter fun position ↦ bitmapIndex ≤ position).head? := by
  have hsorted := pairwise_setBits bitmap.toList
  fun_induction skipUnsetBits bitmap bitmapIndex with
  | case1 index hbit ih =>
    have habsent : index ∉ setBits bitmap.toList := by
      simpa using mem_setBits_iff_of_bitmapGetBit hbit
    rw [filter_le_succ_of_not_mem habsent, ih]
  | case2 index hbit =>
    have hmem : index ∈ setBits bitmap.toList := (mem_setBits_iff_of_bitmapGetBit hbit).mpr rfl
    rw [filter_le_eq_cons_of_mem hsorted hmem, List.head?_cons]
  | case3 index hbit =>
    have hpast : ¬index < bitmapNumOfBytes * 8 := by
      rw [← bitmapGetBit_isSome_iff, hbit]
      exact Bool.false_ne_true
    have hbelow : ∀ position ∈ setBits bitmap.toList, position < index := fun position hmem ↦ by
      have := lt_of_mem_setBits_bitmap hmem
      omega
    rw [filter_le_eq_nil hbelow, List.head?_nil]

/-- The loop walks the signatures along the set bits from its start. -/
theorem verifySignatures_eq_pairedVerify (verify : S → M → P → Except E Unit)
    (bitmap : Vector UInt8 bitmapNumOfBytes) (message : M) (publicKeys : List P)
    (signatures : List S) (bitmapIndex : Nat) :
    verifySignatures verify bitmap message publicKeys signatures bitmapIndex =
      pairedVerify verify message publicKeys signatures
        ((setBits bitmap.toList).filter fun position ↦ bitmapIndex ≤ position) := by
  induction signatures generalizing bitmapIndex with
  | nil => rfl
  | cons sig signatures ih =>
    rw [verifySignatures_cons, skipUnsetBits_eq]
    cases hfilter : (setBits bitmap.toList).filter fun position ↦ bitmapIndex ≤ position with
    | nil => rfl
    | cons index indices =>
      have hnext := filter_succ_le_of_filter_le_eq_cons (pairwise_setBits bitmap.toList) hfilter
      simp only [List.head?_cons, Option.bind_eq_bind, Option.bind_some, pairedVerify_cons_cons,
        ih, hnext]

end Bitmap

section Paired

variable (verify : S → M → P → Except E Unit) (message : M) (publicKeys : List P)

@[simp] theorem pairsVerify_nil (indices : List Nat) :
    PairsVerify verify message publicKeys [] indices := by
  simp [PairsVerify]

theorem pairsVerify_cons_cons (sig : S) (signatures : List S) (index : Nat) (indices : List Nat) :
    PairsVerify verify message publicKeys (sig :: signatures) (index :: indices) ↔
      (∃ publicKey, publicKeys[index]? = some publicKey ∧ verify sig message publicKey = .ok ()) ∧
        PairsVerify verify message publicKeys signatures indices := by
  simp [PairsVerify]

/-- When every set bit names a key, the paired loop panics exactly when the set bits run out
before the signatures, every signature before that verifying. -/
theorem pairedVerify_eq_none_iff (signatures : List S) (indices : List Nat)
    (hkeys : ∀ index ∈ indices, index < publicKeys.length) :
    pairedVerify verify message publicKeys signatures indices = none ↔
      indices.length < signatures.length ∧
        PairsVerify verify message publicKeys signatures indices := by
  induction signatures generalizing indices with
  | nil => simp
  | cons sig signatures ih =>
    cases indices with
    | nil => simp [PairsVerify]
    | cons index indices =>
      rw [pairsVerify_cons_cons, List.length_cons, List.length_cons, Nat.add_lt_add_iff_right]
      have hindex : index < publicKeys.length := hkeys index List.mem_cons_self
      have hkey : publicKeys[index]? = some publicKeys[index] := List.getElem?_eq_getElem hindex
      have ih' := ih indices fun other hother ↦ hkeys other (List.mem_cons_of_mem _ hother)
      cases hsig : verify sig message publicKeys[index] with
      | error error => simp [pairedVerify_cons_cons, hkey, hsig]
      | ok u => simp [pairedVerify_cons_cons, hkey, hsig, ih']

end Paired

section Verify

variable (verify : S → M → P → Except E Unit) (signature : MultiEd25519Signature S)
  (message : M) (publicKey : MultiEd25519PublicKey P)

/-- `verify_arbitrary_msg` in terms of the set bits: the range check reads the last set bit,
the threshold check counts the set bits, and the loop pairs the signatures with them. -/
theorem verifyArbitraryMsg_eq :
    signature.verifyArbitraryMsg verify message publicKey =
      if setBits signature.bitmap.toList = [] ∨
          ∃ index ∈ setBits signature.bitmap.toList, publicKey.publicKeys.length ≤ index then
        some (.error (.material (.bitVecError "Signature index is out of range")))
      else if (setBits signature.bitmap.toList).length < publicKey.threshold.toNat then
        some (.error (.material (.bitVecError "Not enough signatures to meet the threshold")))
      else
        pairedVerify verify message publicKey.publicKeys signature.signatures
          (setBits signature.bitmap.toList) := by
  have hall : (setBits signature.bitmap.toList).filter (fun position ↦ 0 ≤ position) =
      setBits signature.bitmap.toList := List.filter_eq_self.mpr fun _ _ ↦ by simp
  unfold MultiEd25519Signature.verifyArbitraryMsg
  rw [bitmapLastSetBit_eq, bitmapCountOnes_eq_length, verifySignatures_eq_pairedVerify, hall]
  cases hlast : (setBits signature.bitmap.toList).getLast? with
  | none =>
    have hnil := List.getLast?_eq_none_iff.mp hlast
    simp [hnil]
  | some lastBit =>
    have hsorted := pairwise_setBits signature.bitmap.toList
    have hmem : lastBit ∈ setBits signature.bitmap.toList := List.mem_of_getLast? hlast
    have hne : setBits signature.bitmap.toList ≠ [] := List.ne_nil_of_mem hmem
    have hsmall : lastBit < 256 := by
      have := lt_of_mem_setBits_bitmap hmem
      rw [bitmapNumOfBytes] at this
      omega
    have hrange : (∃ index ∈ setBits signature.bitmap.toList,
        publicKey.publicKeys.length ≤ index) ↔ publicKey.publicKeys.length ≤ lastBit :=
      ⟨fun ⟨index, hindex, hle⟩ ↦ hle.trans (le_of_getLast?_eq_some hsorted hlast hindex),
        fun hle ↦ ⟨lastBit, hmem, hle⟩⟩
    have htoNat : lastBit.toUInt8.toNat = lastBit := by
      rw [Nat.toUInt8_eq, UInt8.toNat_ofNat_of_lt' hsmall]
    simp only [Option.map_some, htoNat, hne, hrange, false_or]
    by_cases hlt : lastBit < publicKey.publicKeys.length
    · simp [hlt, Nat.not_le.mpr hlt]
    · simp [hlt, Nat.not_lt.mp hlt]

/-- When every set bit names a key and enough bits are set, `verify_arbitrary_msg` is the
paired loop. -/
theorem verifyArbitraryMsg_eq_pairedVerify
    (hall : ∀ index ∈ setBits signature.bitmap.toList, index < publicKey.publicKeys.length)
    (hthreshold : publicKey.threshold.toNat ≤ (setBits signature.bitmap.toList).length) :
    signature.verifyArbitraryMsg verify message publicKey =
      pairedVerify verify message publicKey.publicKeys signature.signatures
        (setBits signature.bitmap.toList) := by
  have hpos := publicKey.threshold_pos
  rw [verifyArbitraryMsg_eq, if_neg, if_neg (Nat.not_lt.mpr hthreshold)]
  rintro (hnil | ⟨index, hindex, hle⟩)
  · rw [hnil, List.length_nil] at hthreshold
    omega
  · exact absurd (hall index hindex) (Nat.not_lt.mpr hle)

/-- Otherwise it returns an error. -/
theorem verifyArbitraryMsg_eq_error
    (hchecks : ¬((∀ index ∈ setBits signature.bitmap.toList, index < publicKey.publicKeys.length) ∧
      publicKey.threshold.toNat ≤ (setBits signature.bitmap.toList).length)) :
    ∃ error, signature.verifyArbitraryMsg verify message publicKey = some (.error error) := by
  rw [verifyArbitraryMsg_eq]
  split_ifs with hrange hthreshold
  · exact ⟨_, rfl⟩
  · exact ⟨_, rfl⟩
  · refine absurd ⟨fun index hindex ↦ ?_, Nat.not_lt.mp hthreshold⟩ hchecks
    exact Nat.lt_of_not_le fun hle ↦ hrange (.inr ⟨index, hindex, hle⟩)

/-- `verify_arbitrary_msg` panics exactly when the checks pass, there are more signatures than
set bits, and every signature up to the last set bit verifies: the scan for the next signature's
bit then runs past the bitmap. -/
theorem verifyArbitraryMsg_eq_none_iff :
    signature.verifyArbitraryMsg verify message publicKey = none ↔
      (∀ index ∈ setBits signature.bitmap.toList, index < publicKey.publicKeys.length) ∧
        publicKey.threshold.toNat ≤ (setBits signature.bitmap.toList).length ∧
        (setBits signature.bitmap.toList).length < signature.signatures.length ∧
        PairsVerify verify message publicKey.publicKeys signature.signatures
          (setBits signature.bitmap.toList) := by
  by_cases hchecks : (∀ index ∈ setBits signature.bitmap.toList,
      index < publicKey.publicKeys.length) ∧
      publicKey.threshold.toNat ≤ (setBits signature.bitmap.toList).length
  case pos =>
    rw [verifyArbitraryMsg_eq_pairedVerify verify signature message publicKey hchecks.1 hchecks.2,
      pairedVerify_eq_none_iff _ _ _ _ _ hchecks.1]
    exact ⟨fun hpaired ↦ ⟨hchecks.1, hchecks.2, hpaired⟩, fun hall ↦ hall.2.2⟩
  case neg =>
    obtain ⟨error, herror⟩ := verifyArbitraryMsg_eq_error verify signature message publicKey hchecks
    rw [herror]
    simp only [reduceCtorEq, false_iff, not_and]
    exact fun hall hthreshold ↦ absurd ⟨hall, hthreshold⟩ hchecks

end Verify

section Decode

variable (decodeSignature : List UInt8 → Except CryptoMaterialError S)

end Decode

section Divergence

variable (verify : S → M → P → Except E Unit) (message : M)

/-- Two keys with threshold one, the first bit set, and two signatures of which the first
verifies under the first key: `verify_arbitrary_msg` checks the first signature, then scans past
the bitmap for a second set bit and panics. -/
theorem verifyArbitraryMsg_extra_signature_panics (key0 key1 : P) (sig0 sig1 : S)
    (publicKey : MultiEd25519PublicKey P)
    (hkey : MultiEd25519PublicKey.new [key0, key1] 1 = .ok publicKey)
    (hvalid : verify sig0 message key0 = .ok ()) :
    (MultiEd25519Signature.newWithSignaturesAndBitmap [sig0, sig1]
      #v[0x80, 0, 0, 0]).verifyArbitraryMsg verify message publicKey = none := by
  obtain ⟨hkeys, hthreshold⟩ := MultiEd25519PublicKey.new_eq_ok hkey
  have hbits : setBits (MultiEd25519Signature.newWithSignaturesAndBitmap [sig0, sig1]
      #v[0x80, 0, 0, 0]).bitmap.toList = [0] := rfl
  rw [verifyArbitraryMsg_eq_none_iff, hbits, hkeys, hthreshold]
  refine ⟨by simp, by decide, by simp [MultiEd25519Signature.newWithSignaturesAndBitmap], ?_⟩
  simp [PairsVerify, MultiEd25519Signature.newWithSignaturesAndBitmap, hvalid]

theorem verifyArbitraryMsg_extra_signature_panics_equal_keys :
    (MultiEd25519Signature.newWithSignaturesAndBitmap [0, 1] #v[0x80, 0, 0, 0]).verifyArbitraryMsg
      (fun sig (_ : Unit) key ↦ if sig = key then (.ok () : Except Unit Unit) else .error ()) ()
      (⟨[0, 1], 1, by decide, by decide, by decide⟩ : MultiEd25519PublicKey Nat) = none :=
  verifyArbitraryMsg_extra_signature_panics _ () 0 1 0 1 _ rfl rfl

end Divergence

end AptosCore.Crypto
