import Mathlib
import AptosCore.Rust.Result

/-!
# The consensus types that votes and certificates are made of

`consensus-types` and `aptos-types`, reduced to the fields `PendingVotes` and the certificate
checks read. `ι` stands for hash values, and a block id is the hash of the block's data. Hashing
is modelled as injective: a ledger info names the vote data it commits to (`consensusData`)
instead of holding its hash. Signatures are unforgeable: the signature of a validator on a
message verifies exactly when the validator made it, so every `verify` takes the list of all
signatures made so far and looks the signatures up in it.

A validator is known by its address and by its index in the `ValidatorVerifier`, which lists
the validators in order. An aggregate signature is then its bitmask of signer indices: the BLS
signature it carries verifies exactly when each validator whose bit is set signed its message,
and `get_signers_addresses` reads the bitmask back into addresses in index order. A timeout
certificate pairs those addresses with its list of rounds by position, so the rounds must be
listed in index order too. Each `verify` has its spec lemma.
-/

namespace AptosCore.Consensus

/-- `BlockInfo`, with the fields the certificate checks read; the execution state, version, timestamp
and next epoch state are left out. -/
structure BlockInfo (ι : Type) where
  epoch : Nat
  round : Nat
  id : ι
  deriving DecidableEq, Repr

/-- `VoteData`: the proposed block and its parent. -/
structure VoteData (ι : Type) where
  proposed : BlockInfo ι
  parent : BlockInfo ι
  deriving DecidableEq, Repr

/-- `LedgerInfo`. `commitInfo = none` is `BlockInfo::empty()`, the commit info of a ledger info
that commits nothing; `consensusData` is `some voteData` for `voteData.hash()` and `none` for
`HashValue::zero()`. -/
structure LedgerInfo (ι : Type) where
  commitInfo : Option (BlockInfo ι)
  consensusData : Option (VoteData ι)
  deriving DecidableEq, Repr

/-- `TimeoutSigningRepr`: what a validator signs when it times out. -/
structure TimeoutSigningRepr where
  epoch : Nat
  round : Nat
  hqcRound : Nat
  deriving DecidableEq, Repr

/-- The messages validators sign: ledger infos, for votes and order votes, and timeouts. -/
inductive SignedMessage (ι : Type) where
  | ledgerInfo (ledgerInfo : LedgerInfo ι)
  | timeout (repr : TimeoutSigningRepr)
  deriving DecidableEq, Repr

/-- A signature is looked up by its signer and message together, so every lookup decides
membership with the one lawful equality of the pair. -/
instance instLawfulBEqSignature {V ι : Type} [DecidableEq V] [DecidableEq ι] :
    LawfulBEq (V × SignedMessage ι) := inferInstance

/-! ## Signature verification -/

/-- `ValidatorVerifier`: the validators' addresses in index order, each once as in the validator
set of an epoch, and their voting power. -/
structure ValidatorVerifier (V : Type) where
  validatorInfos : List V
  votingPower : V → Nat
  nodup : validatorInfos.Nodup

/-- `VerifyError`, with the variants the checks below raise. -/
inductive VerifyError where
  | unknownAuthor
  | tooLittleVotingPower (votingPower expectedVotingPower : Nat)
  | invalidMultiSignature
  | invalidAggregatedSignature
  | failedToAggregatePubKey
  | failedToAggregateSignature
  | invalidBitVec
  deriving DecidableEq, Repr

/-- The message of each error. -/
def VerifyError.message : VerifyError → String
  | .unknownAuthor => "Author is unknown"
  | .tooLittleVotingPower votingPower expectedVotingPower =>
    "The voting power (" ++ toString votingPower ++ ") is less than expected voting power (" ++
      toString expectedVotingPower ++ ")"
  | .invalidMultiSignature => "Multi signature is invalid"
  | .invalidAggregatedSignature => "Aggregated signature is invalid"
  | .failedToAggregatePubKey => "Failed to aggregate public keys"
  | .failedToAggregateSignature => "Failed to aggregate signatures"
  | .invalidBitVec => "Invalid bitvec from the multi-signature"

/-- `AggregateSignature`: the bitmask of the signers' indices. The BLS signature is left out: it
verifies exactly when the signers in the bitmask signed. -/
structure AggregateSignature where
  validatorBitmask : Finset Nat
  deriving DecidableEq

namespace AggregateSignature

/-- `get_signers_addresses`: the addresses whose index is set, in index order. -/
def getSignersAddresses {V : Type} (sig : AggregateSignature) (validatorAddresses : List V) :
    List V :=
  (validatorAddresses.zipIdx.filter fun entry ↦ entry.2 ∈ sig.validatorBitmask).map Prod.fst

def getNumVoters (sig : AggregateSignature) : Nat := sig.validatorBitmask.card

theorem mem_getSignersAddresses {V : Type} {sig : AggregateSignature}
    {validatorAddresses : List V} {address : V} :
    address ∈ sig.getSignersAddresses validatorAddresses ↔
      ∃ index ∈ sig.validatorBitmask, validatorAddresses[index]? = some address := by
  simp [getSignersAddresses, List.mem_zipIdx_iff_getElem?, and_comm]

theorem getSignersAddresses_sublist {V : Type} (sig : AggregateSignature)
    (validatorAddresses : List V) :
    (sig.getSignersAddresses validatorAddresses).Sublist validatorAddresses := by
  have hsub := List.Sublist.map Prod.fst
    (List.filter_sublist (p := fun entry ↦ decide (entry.2 ∈ sig.validatorBitmask))
      (l := validatorAddresses.zipIdx))
  rwa [List.zipIdx_map_fst] at hsub

end AggregateSignature

namespace ValidatorVerifier

variable {V ι : Type} [DecidableEq V] [DecidableEq ι] (verifier : ValidatorVerifier V)

/-- The validators. -/
def validators : Finset V := verifier.validatorInfos.toFinset

def addressToValidatorIndex (address : V) : Option Nat :=
  if address ∈ verifier.validatorInfos then some (verifier.validatorInfos.idxOf address) else none

/-- The voting power of a set of validators. -/
def power (voters : Finset V) : Nat :=
  ∑ v ∈ voters, verifier.votingPower v

def totalVotingPower : Nat :=
  verifier.power verifier.validators

/-- `quorum_voting_power` as `ValidatorVerifier::new` sets it: `2f + 1`, or zero without
validators. -/
def quorumVotingPower : Nat :=
  if verifier.validators = ∅ then 0 else verifier.totalVotingPower * 2 / 3 + 1

/-- `check_voting_power` with `check_super_majority`. -/
def checkVotingPower (signers : Finset V) : Except VerifyError Unit :=
  if verifier.power signers < verifier.quorumVotingPower then
    .error (.tooLittleVotingPower (verifier.power signers) verifier.quorumVotingPower)
  else .ok ()

/-- `check_num_of_voters`: every index set is the index of a validator. The number of buckets
of the bitmask belongs to its encoding and is not modelled. -/
def checkNumOfVoters (sig : AggregateSignature) : Except VerifyError Unit :=
  if ∀ index ∈ sig.validatorBitmask, index < verifier.validatorInfos.length then .ok ()
  else .error .invalidBitVec

/-- `verify_multi_signatures`: the signers of the bitmask hold a quorum, and each of them signed
`message`; without a signer the aggregation of their keys fails. -/
def verifyMultiSignatures (signatures : List (V × SignedMessage ι)) (message : SignedMessage ι)
    (multiSignature : AggregateSignature) : Except VerifyError Unit :=
  verifier.checkNumOfVoters multiSignature >>= fun _ ↦
    let authors := multiSignature.getSignersAddresses verifier.validatorInfos
    verifier.checkVotingPower authors.toFinset >>= fun _ ↦
      if authors = [] then .error .failedToAggregatePubKey
      else if ∀ author ∈ authors, (author, message) ∈ signatures then .ok ()
      else .error .invalidMultiSignature

/-- `verify_aggregate_signatures`: the signers of the bitmask hold a quorum, and the signer at
each position signed the message at that position; `aggregate_verify` fails without a signer or
when there are not as many messages as signers. -/
def verifyAggregateSignatures (signatures : List (V × SignedMessage ι))
    (messages : List (SignedMessage ι)) (aggregatedSignature : AggregateSignature) :
    Except VerifyError Unit :=
  verifier.checkNumOfVoters aggregatedSignature >>= fun _ ↦
    let authors := aggregatedSignature.getSignersAddresses verifier.validatorInfos
    verifier.checkVotingPower authors.toFinset >>= fun _ ↦
      if authors ≠ [] ∧ authors.length = messages.length ∧
          ∀ signed ∈ authors.zip messages, signed ∈ signatures then .ok ()
      else .error .invalidAggregatedSignature

variable {verifier}

theorem checkVotingPower_eq_ok_iff {signers : Finset V} :
    verifier.checkVotingPower signers = .ok () ↔
      verifier.quorumVotingPower ≤ verifier.power signers := by
  unfold checkVotingPower
  split_ifs with hlow <;> simp <;> omega

omit [DecidableEq V] in
theorem checkNumOfVoters_eq_ok_iff {sig : AggregateSignature} :
    verifier.checkNumOfVoters sig = .ok () ↔
      ∀ index ∈ sig.validatorBitmask, index < verifier.validatorInfos.length := by
  unfold checkNumOfVoters
  split_ifs with hbits
  · exact iff_of_true rfl hbits
  · exact iff_of_false (fun h ↦ by cases h) hbits

/-- Both checks read the bitmask, then ask for a quorum of its signers. -/
theorem checkNumOfVoters_bind_eq_ok_iff {sig : AggregateSignature}
    {tail : Except VerifyError Unit} :
    (verifier.checkNumOfVoters sig >>= fun _ ↦
        verifier.checkVotingPower (sig.getSignersAddresses verifier.validatorInfos).toFinset >>=
          fun _ ↦ tail) = .ok () ↔
      (∀ index ∈ sig.validatorBitmask, index < verifier.validatorInfos.length) ∧
        verifier.quorumVotingPower ≤
          verifier.power (sig.getSignersAddresses verifier.validatorInfos).toFinset ∧
        tail = .ok () := by
  rw [Rust.bind_unit_eq_ok_iff, Rust.bind_unit_eq_ok_iff, checkNumOfVoters_eq_ok_iff,
    checkVotingPower_eq_ok_iff]

theorem verifyMultiSignatures_eq_ok_iff {signatures : List (V × SignedMessage ι)}
    {message : SignedMessage ι} {multiSignature : AggregateSignature} :
    verifier.verifyMultiSignatures signatures message multiSignature = .ok () ↔
      (∀ index ∈ multiSignature.validatorBitmask, index < verifier.validatorInfos.length) ∧
        verifier.quorumVotingPower ≤ verifier.power
          (multiSignature.getSignersAddresses verifier.validatorInfos).toFinset ∧
        multiSignature.getSignersAddresses verifier.validatorInfos ≠ [] ∧
        ∀ author ∈ multiSignature.getSignersAddresses verifier.validatorInfos,
          (author, message) ∈ signatures := by
  unfold verifyMultiSignatures
  rw [checkNumOfVoters_bind_eq_ok_iff]
  by_cases hempty : multiSignature.getSignersAddresses verifier.validatorInfos = []
  · rw [if_pos hempty]
    exact iff_of_false (fun h ↦ by cases h.2.2) (fun h ↦ h.2.2.1 hempty)
  rw [if_neg hempty]
  by_cases hsigned : ∀ author ∈ multiSignature.getSignersAddresses verifier.validatorInfos,
      (author, message) ∈ signatures
  · rw [if_pos hsigned]
    exact ⟨fun h ↦ ⟨h.1, h.2.1, hempty, hsigned⟩, fun h ↦ ⟨h.1, h.2.1, rfl⟩⟩
  · rw [if_neg hsigned]
    exact iff_of_false (fun h ↦ by cases h.2.2) (fun h ↦ hsigned h.2.2.2)

theorem verifyAggregateSignatures_eq_ok_iff {signatures : List (V × SignedMessage ι)}
    {messages : List (SignedMessage ι)} {aggregatedSignature : AggregateSignature} :
    verifier.verifyAggregateSignatures signatures messages aggregatedSignature = .ok () ↔
      (∀ index ∈ aggregatedSignature.validatorBitmask, index < verifier.validatorInfos.length) ∧
        verifier.quorumVotingPower ≤ verifier.power
          (aggregatedSignature.getSignersAddresses verifier.validatorInfos).toFinset ∧
        aggregatedSignature.getSignersAddresses verifier.validatorInfos ≠ [] ∧
        (aggregatedSignature.getSignersAddresses verifier.validatorInfos).length =
          messages.length ∧
        ∀ signed ∈ (aggregatedSignature.getSignersAddresses verifier.validatorInfos).zip messages,
          signed ∈ signatures := by
  unfold verifyAggregateSignatures
  rw [checkNumOfVoters_bind_eq_ok_iff]
  split_ifs with hsigned
  · exact ⟨fun h ↦ ⟨h.1, h.2.1, hsigned⟩, fun h ↦ ⟨h.1, h.2.1, rfl⟩⟩
  · exact iff_of_false (fun h ↦ by cases h.2.2) (fun h ↦ hsigned h.2.2)

end ValidatorVerifier

/-! ## Certificates -/

/-- `QuorumCert`: vote data, and the ledger info its signers signed with their aggregate
signature. -/
structure QuorumCert (ι : Type) where
  voteData : VoteData ι
  ledgerInfo : LedgerInfo ι
  signatures : AggregateSignature
  deriving DecidableEq

namespace QuorumCert

variable {ι : Type}

def certifiedBlock (qc : QuorumCert ι) : BlockInfo ι := qc.voteData.proposed

def parentBlock (qc : QuorumCert ι) : BlockInfo ι := qc.voteData.parent

end QuorumCert

/-- `VoteData::verify`, with the checks on epochs and rounds; timestamps and versions are not
modelled. -/
def VoteData.verify {ι : Type} (voteData : VoteData ι) : Except String Unit :=
  if voteData.parent.epoch ≠ voteData.proposed.epoch then
    .error "Parent and proposed epochs do not match"
  else if ¬ voteData.parent.round < voteData.proposed.round then
    .error "Proposed round is less than parent round"
  else .ok ()

/-- `QuorumCert::verify`. A QC on a round-0 block is taken as the epoch's genesis QC: it only has
to be consistent and unsigned. -/
def QuorumCert.verify {V ι : Type} [DecidableEq V] [DecidableEq ι]
    (verifier : ValidatorVerifier V) (signatures : List (V × SignedMessage ι))
    (qc : QuorumCert ι) : Except String Unit :=
  if qc.ledgerInfo.consensusData ≠ some qc.voteData then
    .error "Quorum Cert's hash mismatch LedgerInfo"
  else if qc.certifiedBlock.round = 0 then
    if qc.parentBlock ≠ qc.certifiedBlock then
      .error "Genesis QC has inconsistent parent block with certified block"
    else if qc.ledgerInfo.commitInfo ≠ some qc.certifiedBlock then
      .error "Genesis QC has inconsistent commit block with certified block"
    else if qc.signatures.getNumVoters ≠ 0 then .error "Genesis QC should not carry signatures"
    else .ok ()
  else
    (verifier.verifyMultiSignatures signatures (.ledgerInfo qc.ledgerInfo) qc.signatures).mapError
        (fun _ ↦ "Fail to verify QuorumCert") >>= fun _ ↦
      qc.voteData.verify

/-- `TwoChainTimeout`: a timeout with the highest QC its signer has seen. -/
structure TwoChainTimeout (ι : Type) where
  epoch : Nat
  round : Nat
  quorumCert : QuorumCert ι
  deriving DecidableEq

namespace TwoChainTimeout

variable {V ι : Type} [DecidableEq V] [DecidableEq ι]

def hqcRound (timeout : TwoChainTimeout ι) : Nat := timeout.quorumCert.certifiedBlock.round

def signingFormat (timeout : TwoChainTimeout ι) : TimeoutSigningRepr :=
  ⟨timeout.epoch, timeout.round, timeout.hqcRound⟩

def verify (verifier : ValidatorVerifier V) (signatures : List (V × SignedMessage ι))
    (timeout : TwoChainTimeout ι) : Except String Unit :=
  if ¬ timeout.hqcRound < timeout.round then
    .error "Timeout round should be larger than the QC round"
  else timeout.quorumCert.verify verifier signatures

end TwoChainTimeout

/-- `AggregateSignatureWithRounds`: the aggregate signature of the timeouts, and the hqc round
of each signer, listed as the bitmask lists the signers. -/
structure AggregateSignatureWithRounds where
  sig : AggregateSignature
  rounds : List Nat
  deriving DecidableEq

/-- `get_voters_and_rounds`: the signers in index order, each with the round at its position. -/
def AggregateSignatureWithRounds.getVotersAndRounds {V : Type}
    (signaturesWithRounds : AggregateSignatureWithRounds) (orderedValidatorAddresses : List V) :
    List (V × Nat) :=
  (signaturesWithRounds.sig.getSignersAddresses orderedValidatorAddresses).zip
    signaturesWithRounds.rounds

/-- `TwoChainTimeoutCertificate`: the timeout with the highest QC, and the signatures of the
timeouts with their rounds. -/
structure TwoChainTimeoutCertificate (ι : Type) where
  timeout : TwoChainTimeout ι
  signaturesWithRounds : AggregateSignatureWithRounds
  deriving DecidableEq

namespace TwoChainTimeoutCertificate

variable {V ι : Type} [DecidableEq V] [DecidableEq ι]

def round (tc : TwoChainTimeoutCertificate ι) : Nat := tc.timeout.round

def highestHqcRound (tc : TwoChainTimeoutCertificate ι) : Nat := tc.timeout.hqcRound

/-- The `timeout_messages` of `verify`: for each voter and round of `get_voters_and_rounds`, the
certificate's epoch and round with that round as hqc round. -/
def timeoutMessages (tc : TwoChainTimeoutCertificate ι) (verifier : ValidatorVerifier V) :
    List (SignedMessage ι) :=
  (tc.signaturesWithRounds.getVotersAndRounds verifier.validatorInfos).map fun voter ↦
    .timeout ⟨tc.timeout.epoch, tc.timeout.round, voter.2⟩

/-- `TwoChainTimeoutCertificate::verify`. The source panics on an empty list of rounds
(`expect("Empty rounds")`); that case is an error here. -/
def verify (verifier : ValidatorVerifier V) (signatures : List (V × SignedMessage ι))
    (tc : TwoChainTimeoutCertificate ι) : Except String Unit :=
  tc.timeout.verify verifier signatures >>= fun _ ↦
    (verifier.verifyAggregateSignatures signatures (tc.timeoutMessages verifier)
        tc.signaturesWithRounds.sig).mapError VerifyError.message >>= fun _ ↦
      match tc.signaturesWithRounds.rounds.max? with
      | none => .error "Empty rounds"
      | some signedHqc =>
        if tc.highestHqcRound = signedHqc then .ok ()
        else .error ("Inconsistent hqc round, qc has round " ++ toString tc.highestHqcRound ++
          ", highest signed round " ++ toString signedHqc)

end TwoChainTimeoutCertificate

/-! ## Votes -/

/-- `Vote`; the signature is the author's signature on the ledger info, and a timeout vote
carries a timeout its author signed as well (`two_chain_timeout`). -/
structure Vote (V ι : Type) where
  voteData : VoteData ι
  author : V
  ledgerInfo : LedgerInfo ι
  twoChainTimeout : Option (TwoChainTimeout ι)
  deriving DecidableEq

/-! ## What a successful verification says -/

theorem VoteData.verify_eq_ok_iff {ι : Type} {voteData : VoteData ι} :
    voteData.verify = .ok () ↔
      voteData.parent.epoch = voteData.proposed.epoch ∧
        voteData.parent.round < voteData.proposed.round := by
  unfold VoteData.verify
  split_ifs <;> simp_all

section Verify

variable {V ι : Type} [DecidableEq V] [DecidableEq ι] {verifier : ValidatorVerifier V}
  {signatures : List (V × SignedMessage ι)}

/-- A QC verifies when its ledger info names its vote data and either it is an unsigned QC on a
round-0 block that is its own parent and commit, or a quorum signed its ledger info and its
vote data is consistent. -/
theorem QuorumCert.verify_eq_ok_iff {qc : QuorumCert ι} :
    qc.verify verifier signatures = .ok () ↔
      qc.ledgerInfo.consensusData = some qc.voteData ∧
        ((qc.certifiedBlock.round = 0 ∧ qc.parentBlock = qc.certifiedBlock ∧
            qc.ledgerInfo.commitInfo = some qc.certifiedBlock ∧ qc.signatures.getNumVoters = 0) ∨
          (0 < qc.certifiedBlock.round ∧
            verifier.verifyMultiSignatures signatures (.ledgerInfo qc.ledgerInfo) qc.signatures =
              .ok () ∧
            qc.voteData.verify = .ok ())) := by
  unfold QuorumCert.verify
  by_cases hdata : qc.ledgerInfo.consensusData = some qc.voteData
  case neg => simp [hdata]
  case pos =>
    simp only [hdata, ne_eq, not_true_eq_false, if_false, true_and]
    by_cases hzero : qc.certifiedBlock.round = 0
    case pos =>
      simp only [hzero, if_true, true_and, lt_irrefl, false_and, or_false]
      split_ifs <;> simp_all
    case neg =>
      simp only [hzero, if_false, false_and, false_or, Nat.pos_of_ne_zero hzero, true_and,
        Rust.bind_unit_eq_ok_iff, Rust.mapError_eq_ok_iff]

theorem TwoChainTimeout.verify_eq_ok_iff {timeout : TwoChainTimeout ι} :
    timeout.verify verifier signatures = .ok () ↔
      timeout.hqcRound < timeout.round ∧ timeout.quorumCert.verify verifier signatures = .ok () := by
  unfold TwoChainTimeout.verify
  split_ifs <;> simp_all

/-- A timeout certificate verifies when its timeout does, a quorum signed the timeouts it lists
with their rounds, and its highest QC has the highest round among them. -/
theorem TwoChainTimeoutCertificate.verify_eq_ok_iff {tc : TwoChainTimeoutCertificate ι} :
    tc.verify verifier signatures = .ok () ↔
      tc.timeout.verify verifier signatures = .ok () ∧
        verifier.verifyAggregateSignatures signatures (tc.timeoutMessages verifier)
          tc.signaturesWithRounds.sig = .ok () ∧
        tc.signaturesWithRounds.rounds.max? = some tc.highestHqcRound := by
  unfold TwoChainTimeoutCertificate.verify
  simp only [Rust.bind_unit_eq_ok_iff, Rust.mapError_eq_ok_iff]
  cases tc.signaturesWithRounds.rounds.max? with
  | none => simp
  | some signedHqc =>
    by_cases hsame : tc.highestHqcRound = signedHqc
    · simp [hsame]
    · simp [hsame, Ne.symm hsame]

end Verify

end AptosCore.Consensus
