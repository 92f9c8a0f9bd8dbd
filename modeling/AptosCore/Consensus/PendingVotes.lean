import AptosCore.Consensus.Types
import AptosCore.Rust.BTreeMap
import AptosCore.Transition.Reachable

/-!
# Pending votes of a round

`consensus/src/pending_votes.rs`, `PendingVotes::insert_vote`, with the partial timeout
certificate of `consensus-types/src/timeout_2chain.rs`. The votes of one round arrive one at a
time. Each is refused as a duplicate or an equivocation, or is recorded under its ledger info;
a QC is formed once a quorum signed that ledger info, and otherwise a timeout vote joins the
partial 2-chain timeout certificate, which becomes a certificate once a quorum timed out.

As in `Types`, hashing is injective, so a ledger info's digest is the ledger info itself, and
signatures are unforgeable: a vote that `Vote::verify` accepts against the signatures made so
far was signed by its author. The QC aggregator decides, from the clock, whether to aggregate
now or to delay; that decision is an input of each call, and `NoDelayQcAggregator` always
aggregates now.

A timeout certificate keeps its signers as a bitmask of validator indices and their rounds as a
separate list. `get_partial_sig_with_rounds` sorts the rounds by index through a `BTreeMap`, so
that `get_voters_and_rounds`, which reads the bitmask in index order and zips it with the
rounds, pairs each signer with its own round (`getVotersAndRounds_of_sorted`).

Along any sequence of verified votes of one epoch and round (`insertVote_certificates_valid`),
no author is recorded under two ledger infos, every QC returned has a quorum of signers who all
voted for its ledger info, and every timeout certificate returned verifies. The invariant that
carries this (`Inv`) ties each recorded signature to its author's stored vote. Its one subtle
field says that every author in the partial timeout certificate has a stored timeout vote: the
duplicate check then keeps any author from adding to it twice, so the `or_insert` of
`add_signature` never drops the round of a timeout that `add` chose as the highest.
-/

namespace AptosCore.Consensus

open AptosCore.Transition AptosCore.Rust

variable {V ι : Type} [DecidableEq V] [DecidableEq ι]

/-! ## Single signatures and voting power -/

namespace ValidatorVerifier

variable (verifier : ValidatorVerifier V)

/-- `verify`: the signature of `author` on `message`. -/
def verify (signatures : List (V × SignedMessage ι)) (author : V) (message : SignedMessage ι) :
    Except VerifyError Unit :=
  if author ∈ verifier.validators then
    if (author, message) ∈ signatures then .ok () else .error .invalidMultiSignature
  else .error .unknownAuthor

/-- `sum_voting_power`: the power of `authors`, each of them a validator. -/
def sumVotingPower (authors : Finset V) : Except VerifyError Nat :=
  if authors ⊆ verifier.validators then .ok (verifier.power authors) else .error .unknownAuthor

/-- `check_aggregated_voting_power` with `check_super_majority`. -/
def checkAggregatedVotingPower (aggregatedVotingPower : Nat) : Except VerifyError Nat :=
  if aggregatedVotingPower < verifier.quorumVotingPower then
    .error (.tooLittleVotingPower aggregatedVotingPower verifier.quorumVotingPower)
  else .ok aggregatedVotingPower

/-- `aggregate_signatures`: the bitmask of the signers' indices. A signer without an index fails
it, and so does aggregating no signature at all, which `blst` refuses. -/
def aggregateSignatures (partialSignatures : Finset V) : Except VerifyError AggregateSignature :=
  if partialSignatures ⊆ verifier.validators then
    if partialSignatures = ∅ then .error .failedToAggregateSignature
    else .ok ⟨partialSignatures.image (verifier.validatorInfos.idxOf ·)⟩
  else .error .unknownAuthor

variable {verifier}

theorem verify_eq_ok_iff {signatures : List (V × SignedMessage ι)} {author : V}
    {message : SignedMessage ι} :
    verifier.verify signatures author message = .ok () ↔
      author ∈ verifier.validators ∧ (author, message) ∈ signatures := by
  unfold verify
  split_ifs <;> simp_all

theorem sumVotingPower_eq_ok_iff {authors : Finset V} {aggregatedVotingPower : Nat} :
    verifier.sumVotingPower authors = .ok aggregatedVotingPower ↔
      authors ⊆ verifier.validators ∧ verifier.power authors = aggregatedVotingPower := by
  unfold sumVotingPower
  split_ifs with hsub <;> simp [hsub]

theorem checkAggregatedVotingPower_eq_ok_iff {aggregatedVotingPower votingPower : Nat} :
    verifier.checkAggregatedVotingPower aggregatedVotingPower = .ok votingPower ↔
      verifier.quorumVotingPower ≤ aggregatedVotingPower ∧ aggregatedVotingPower = votingPower := by
  unfold checkAggregatedVotingPower
  split_ifs with hlow
  · exact iff_of_false (fun h ↦ by cases h) (fun h ↦ absurd h.1 (Nat.not_le.mpr hlow))
  · rw [Except.ok.injEq]
    exact (and_iff_right (Nat.not_lt.mp hlow)).symm

/-- `check_voting_power(authors, true)` passes exactly on validators that hold a quorum, and
returns their power. -/
theorem sumVotingPower_bind_eq_ok_iff {authors : Finset V} {aggregatedVotingPower : Nat} :
    (verifier.sumVotingPower authors >>= verifier.checkAggregatedVotingPower) =
        .ok aggregatedVotingPower ↔
      authors ⊆ verifier.validators ∧ aggregatedVotingPower = verifier.power authors ∧
        verifier.quorumVotingPower ≤ verifier.power authors := by
  simp only [Rust.bind_eq_ok_iff, sumVotingPower_eq_ok_iff, checkAggregatedVotingPower_eq_ok_iff]
  constructor
  · rintro ⟨_, ⟨hsub, rfl⟩, hquorum, rfl⟩
    exact ⟨hsub, rfl, hquorum⟩
  · rintro ⟨hsub, rfl, hquorum⟩
    exact ⟨_, ⟨hsub, rfl⟩, hquorum, rfl⟩

theorem aggregateSignatures_eq_ok {signers : Finset V} {aggregated : AggregateSignature}
    (hok : verifier.aggregateSignatures signers = .ok aggregated) :
    signers ⊆ verifier.validators ∧ signers ≠ ∅ ∧
      aggregated = ⟨signers.image (verifier.validatorInfos.idxOf ·)⟩ := by
  unfold aggregateSignatures at hok
  split_ifs at hok with hsub hempty
  exact ⟨hsub, hempty, (Except.ok.inj hok).symm⟩

@[simp] theorem mem_validators {validator : V} :
    validator ∈ verifier.validators ↔ validator ∈ verifier.validatorInfos :=
  List.mem_toFinset

theorem getElem?_idxOf {validator : V} (hmem : validator ∈ verifier.validatorInfos) :
    verifier.validatorInfos[verifier.validatorInfos.idxOf validator]? = some validator := by
  rw [List.getElem?_eq_getElem (List.idxOf_lt_length_of_mem hmem), List.getElem_idxOf]

theorem idxOf_injOn {validator validator' : V} (hmem : validator ∈ verifier.validatorInfos)
    (hmem' : validator' ∈ verifier.validatorInfos)
    (hsame : verifier.validatorInfos.idxOf validator = verifier.validatorInfos.idxOf validator') :
    validator = validator' := by
  have hget := getElem?_idxOf hmem
  rw [hsame, getElem?_idxOf hmem', Option.some.injEq] at hget
  exact hget.symm

/-- The bitmask of a set of validators reads back as that set. -/
theorem mem_getSignersAddresses_image {signers : Finset V} (hsub : signers ⊆ verifier.validators)
    {address : V} :
    address ∈ AggregateSignature.getSignersAddresses
        ⟨signers.image (verifier.validatorInfos.idxOf ·)⟩ verifier.validatorInfos ↔
      address ∈ signers := by
  rw [AggregateSignature.mem_getSignersAddresses]
  constructor
  · rintro ⟨index, hindex, hget⟩
    obtain ⟨signer, hsigner, rfl⟩ := Finset.mem_image.mp hindex
    rw [getElem?_idxOf (mem_validators.mp (hsub hsigner)), Option.some.injEq] at hget
    exact hget ▸ hsigner
  · intro hsigner
    exact ⟨_, Finset.mem_image_of_mem _ hsigner, getElem?_idxOf (mem_validators.mp (hsub hsigner))⟩

end ValidatorVerifier

/-! ## Votes -/

namespace Vote

def epoch (vote : Vote V ι) : Nat := vote.voteData.proposed.epoch

def isTimeout (vote : Vote V ι) : Bool := vote.twoChainTimeout.isSome

/-- The checks `verify` makes on the timeout a vote carries. -/
def verifyTwoChainTimeout (verifier : ValidatorVerifier V) (signatures : List (V × SignedMessage ι))
    (vote : Vote V ι) : Except String Unit :=
  match vote.twoChainTimeout with
  | none => .ok ()
  | some timeout =>
    if (timeout.epoch, timeout.round) ≠ (vote.epoch, vote.voteData.proposed.round) then
      .error "2-chain timeout has different (epoch, round) than Vote"
    else
      timeout.verify verifier signatures >>= fun _ ↦
        (verifier.verify signatures vote.author (.timeout timeout.signingFormat)).mapError
          (fun _ ↦ "Failed to verify 2-chain timeout signature")

def verify (verifier : ValidatorVerifier V) (signatures : List (V × SignedMessage ι))
    (vote : Vote V ι) : Except String Unit :=
  if vote.ledgerInfo.consensusData ≠ some vote.voteData then
    .error "Vote's hash mismatch with LedgerInfo"
  else
    (verifier.verify signatures vote.author (.ledgerInfo vote.ledgerInfo)).mapError
        (fun _ ↦ "Failed to verify Vote") >>= fun _ ↦
      vote.verifyTwoChainTimeout verifier signatures >>= fun _ ↦
        vote.voteData.verify

/-- A vote of the run: it verifies against the signatures made, and it is for `epoch` and
`round`. -/
def VerifiedFor (verifier : ValidatorVerifier V) (signatures : List (V × SignedMessage ι))
    (epoch round : Nat) (vote : Vote V ι) : Prop :=
  vote.verify verifier signatures = .ok () ∧ vote.epoch = epoch ∧
    vote.voteData.proposed.round = round

instance (verifier : ValidatorVerifier V) (signatures : List (V × SignedMessage ι))
    (epoch round : Nat) (vote : Vote V ι) :
    Decidable (vote.VerifiedFor verifier signatures epoch round) :=
  inferInstanceAs (Decidable (_ ∧ _ ∧ _))

end Vote

/-- A timeout of the run: it verifies, and it is for `epoch` and `round`. -/
def TwoChainTimeout.VerifiedFor (verifier : ValidatorVerifier V)
    (signatures : List (V × SignedMessage ι)) (epoch round : Nat)
    (timeout : TwoChainTimeout ι) : Prop :=
  timeout.verify verifier signatures = .ok () ∧ timeout.epoch = epoch ∧ timeout.round = round

section VerifiedVote

variable {verifier : ValidatorVerifier V} {signatures : List (V × SignedMessage ι)}
  {epoch round : Nat} {vote : Vote V ι}

theorem Vote.verifyTwoChainTimeout_eq_ok_iff :
    vote.verifyTwoChainTimeout verifier signatures = .ok () ↔
      ∀ timeout, vote.twoChainTimeout = some timeout →
        timeout.epoch = vote.epoch ∧ timeout.round = vote.voteData.proposed.round ∧
          timeout.verify verifier signatures = .ok () ∧ vote.author ∈ verifier.validators ∧
          (vote.author, .timeout timeout.signingFormat) ∈ signatures := by
  unfold verifyTwoChainTimeout
  cases vote.twoChainTimeout with
  | none => simp
  | some timeout =>
    simp only [Option.some.injEq, forall_eq']
    by_cases hsame : timeout.epoch = vote.epoch ∧ timeout.round = vote.voteData.proposed.round
    · rw [if_neg (by simpa using hsame), Rust.bind_unit_eq_ok_iff, Rust.mapError_eq_ok_iff,
        ValidatorVerifier.verify_eq_ok_iff]
      simp only [hsame, true_and]
    · rw [if_pos (by simpa using hsame)]
      exact iff_of_false (fun h ↦ by cases h) (fun h ↦ hsame ⟨h.1, h.2.1⟩)

theorem Vote.verify_eq_ok_iff :
    vote.verify verifier signatures = .ok () ↔
      vote.ledgerInfo.consensusData = some vote.voteData ∧ vote.author ∈ verifier.validators ∧
        (vote.author, .ledgerInfo vote.ledgerInfo) ∈ signatures ∧
        vote.verifyTwoChainTimeout verifier signatures = .ok () ∧
        vote.voteData.verify = .ok () := by
  unfold verify
  by_cases hdata : vote.ledgerInfo.consensusData = some vote.voteData
  case neg => simp [hdata]
  case pos =>
    simp only [hdata, ne_eq, not_true_eq_false, if_false, true_and, Rust.bind_unit_eq_ok_iff,
      Rust.mapError_eq_ok_iff, ValidatorVerifier.verify_eq_ok_iff, and_assoc]

theorem Vote.VerifiedFor.signed (hvote : vote.VerifiedFor verifier signatures epoch round) :
    (vote.author, .ledgerInfo vote.ledgerInfo) ∈ signatures :=
  (Vote.verify_eq_ok_iff.mp hvote.1).2.2.1

/-- The timeout a vote of the run carries is a timeout of the run, and its author signed it. -/
theorem Vote.VerifiedFor.twoChainTimeout (hvote : vote.VerifiedFor verifier signatures epoch round)
    {timeout : TwoChainTimeout ι} (htimeout : vote.twoChainTimeout = some timeout) :
    timeout.VerifiedFor verifier signatures epoch round ∧
      (vote.author, .timeout ⟨epoch, round, timeout.hqcRound⟩) ∈ signatures := by
  obtain ⟨hok, hepoch, hround⟩ := hvote
  obtain ⟨hepoch', hround', hverify, -, hsigned⟩ :=
    Vote.verifyTwoChainTimeout_eq_ok_iff.mp (Vote.verify_eq_ok_iff.mp hok).2.2.2.1 timeout htimeout
  have hepochs : timeout.epoch = epoch := hepoch'.trans hepoch
  have hrounds : timeout.round = round := hround'.trans hround
  refine ⟨⟨hverify, hepochs, hrounds⟩, ?_⟩
  rw [← hepochs, ← hrounds]
  exact hsigned

end VerifiedVote

/-! ## The partial timeout certificate -/

/-- `PartialSignaturesWithRound`: the hqc round each validator signed its timeout with; a
validator has at most one, as in the source's map. The entries are kept in the order they were
added, which nothing read from them depends on. -/
structure PartialSignaturesWithRound (V : Type) where
  signatures : List (V × Nat)
  nodup : (signatures.map Prod.fst).Nodup

namespace PartialSignaturesWithRound

def empty : PartialSignaturesWithRound V := ⟨[], List.nodup_nil⟩

/-- `add_signature`: a validator's first round is kept (`or_insert`). -/
def addSignature (signatures : PartialSignaturesWithRound V) (validator : V) (round : Nat) :
    PartialSignaturesWithRound V :=
  if hold : validator ∈ signatures.signatures.map Prod.fst then signatures
  else ⟨signatures.signatures ++ [(validator, round)], by
    rw [List.map_append, List.nodup_append]
    exact ⟨signatures.nodup, List.nodup_singleton _, fun a ha b hb hab ↦ by
      simp only [List.map_cons, List.map_nil, List.mem_singleton] at hb
      exact hold (by rw [← hb, ← hab]; exact ha)⟩⟩

/-- One turn of the `for_each` of `get_partial_sig_with_rounds`: a signer with an index joins
the partial signatures, and its round goes under its index into `index_to_rounds`. -/
def partialSigStep (addressToValidatorIndex : V → Option Nat)
    (acc : Finset V × List (Nat × Nat)) (entry : V × Nat) : Finset V × List (Nat × Nat) :=
  match addressToValidatorIndex entry.1 with
  | some index => (insert entry.1 acc.1, BTreeMap.insert index entry.2 acc.2)
  | none => acc

/-- `get_partial_sig_with_rounds`: the partial signatures of the signers that have an index, and
their rounds in the order of their indices. -/
def getPartialSigWithRounds (signatures : PartialSignaturesWithRound V)
    (addressToValidatorIndex : V → Option Nat) : Finset V × List Nat :=
  let acc := signatures.signatures.foldl (partialSigStep addressToValidatorIndex) (∅, [])
  (acc.1, acc.2.map Prod.snd)

theorem addSignature_of_notMem {signatures : PartialSignaturesWithRound V} {validator : V}
    (hnew : validator ∉ signatures.signatures.map Prod.fst) (round : Nat) :
    (signatures.addSignature validator round).signatures =
      signatures.signatures ++ [(validator, round)] := by
  rw [addSignature, dif_neg hnew]

/-- The loop over signers that all have an index, at distinct indices: it collects the signers,
and `index_to_rounds` holds each signer's round under its index, in the order of the indices. -/
theorem foldl_partialSigStep {addressToValidatorIndex : V → Option Nat} (index : V → Nat)
    (entries : List (V × Nat)) (acc : Finset V × List (Nat × Nat))
    (hindex : ∀ entry ∈ entries, addressToValidatorIndex entry.1 = some (index entry.1))
    (hnodup : (entries.map (index ·.1) ++ acc.2.map Prod.fst).Nodup)
    (hsorted : BTreeMap.KeysSorted acc.2) :
    (entries.foldl (partialSigStep addressToValidatorIndex) acc).1 =
        (entries.map Prod.fst).toFinset ∪ acc.1 ∧
      BTreeMap.KeysSorted (entries.foldl (partialSigStep addressToValidatorIndex) acc).2 ∧
      (entries.foldl (partialSigStep addressToValidatorIndex) acc).2.Perm
        (entries.map (fun entry ↦ (index entry.1, entry.2)) ++ acc.2) := by
  induction entries generalizing acc with
  | nil => exact ⟨by simp, hsorted, List.Perm.refl _⟩
  | cons entry rest ih =>
    have hstep : partialSigStep addressToValidatorIndex acc entry =
        (insert entry.1 acc.1, BTreeMap.insert (index entry.1) entry.2 acc.2) := by
      rw [partialSigStep, hindex entry List.mem_cons_self]
    rw [List.map_cons, List.cons_append, List.nodup_cons] at hnodup
    have hfresh : index entry.1 ∉ acc.2.map Prod.fst := fun hmem ↦
      hnodup.1 (List.mem_append_right _ hmem)
    have hinsert : (BTreeMap.insert (index entry.1) entry.2 acc.2).Perm
        ((index entry.1, entry.2) :: acc.2) := BTreeMap.insert_perm hfresh
    have hperm : (rest.map (fun entry ↦ (index entry.1, entry.2)) ++
          BTreeMap.insert (index entry.1) entry.2 acc.2).Perm
        ((entry :: rest).map (fun entry ↦ (index entry.1, entry.2)) ++ acc.2) :=
      (hinsert.append_left _).trans List.perm_middle
    have hnodup' : (rest.map (index ·.1) ++
        (BTreeMap.insert (index entry.1) entry.2 acc.2).map Prod.fst).Nodup := by
      have hkeys := (hperm.map Prod.fst).nodup_iff.mpr
        (by simpa [List.map_map, Function.comp_def] using List.nodup_cons.mpr hnodup)
      simpa [List.map_map, Function.comp_def] using hkeys
    obtain ⟨hsigners, hsorted', hperm'⟩ :=
      ih (partialSigStep addressToValidatorIndex acc entry)
      (fun entry hentry ↦ hindex entry (List.mem_cons_of_mem _ hentry)) (by rwa [hstep])
      (by rw [hstep]; exact BTreeMap.keysSorted_insert hsorted)
    rw [List.foldl_cons]
    refine ⟨?_, hsorted', ?_⟩
    · rw [hsigners, hstep]
      ext signer
      simp
    · rw [hstep] at hperm' ⊢
      exact hperm'.trans hperm

end PartialSignaturesWithRound

/-- `TwoChainTimeoutWithPartialSignatures`: the timeout with the highest QC seen so far, and
the signers' rounds. -/
structure TwoChainTimeoutWithPartialSignatures (V ι : Type) where
  timeout : TwoChainTimeout ι
  signatures : PartialSignaturesWithRound V

namespace TwoChainTimeoutWithPartialSignatures

def new (timeout : TwoChainTimeout ι) : TwoChainTimeoutWithPartialSignatures V ι :=
  ⟨timeout, .empty⟩

def signers (partialTc : TwoChainTimeoutWithPartialSignatures V ι) : Finset V :=
  (partialTc.signatures.signatures.map Prod.fst).toFinset

/-- `add`: a timeout with a strictly higher QC replaces the one kept, and the author's round is
added. -/
def add (partialTc : TwoChainTimeoutWithPartialSignatures V ι) (author : V)
    (timeout : TwoChainTimeout ι) : TwoChainTimeoutWithPartialSignatures V ι :=
  ⟨if timeout.hqcRound > partialTc.timeout.hqcRound then timeout else partialTc.timeout,
    partialTc.signatures.addSignature author timeout.hqcRound⟩

/-- `aggregate_signatures`. `AggregateSignatureWithRounds::new` asserts that there are as many
rounds as signers, which always holds here (`aggregateSignatures_eq_ok`). -/
def aggregateSignatures (partialTc : TwoChainTimeoutWithPartialSignatures V ι)
    (verifier : ValidatorVerifier V) : Except VerifyError (TwoChainTimeoutCertificate ι) :=
  let (partialSig, orderedRounds) :=
    partialTc.signatures.getPartialSigWithRounds verifier.addressToValidatorIndex
  verifier.aggregateSignatures partialSig >>= fun aggregatedSig ↦
    .ok ⟨partialTc.timeout, ⟨aggregatedSig, orderedRounds⟩⟩

omit [DecidableEq ι] in
theorem add_hqcRound (partialTc : TwoChainTimeoutWithPartialSignatures V ι) (author : V)
    (timeout : TwoChainTimeout ι) :
    (partialTc.add author timeout).timeout.hqcRound =
      max partialTc.timeout.hqcRound timeout.hqcRound := by
  unfold add
  split_ifs with hhigher <;> simp only [] <;> omega

end TwoChainTimeoutWithPartialSignatures

/-! ## What an aggregated certificate holds -/

section Aggregated

variable {verifier : ValidatorVerifier V}

theorem pairwise_zipIdx {α : Type} (items : List α) (start : Nat) :
    (items.zipIdx start).Pairwise fun entry entry' ↦ entry.2 < entry'.2 := by
  induction items generalizing start with
  | nil => exact List.Pairwise.nil
  | cons item rest ih =>
    rw [List.zipIdx_cons]
    refine List.pairwise_cons.mpr ⟨fun entry hentry ↦ ?_, ih (start + 1)⟩
    have hbound := (List.mem_zipIdx (x := entry.1) (i := entry.2) hentry).1
    exact Nat.lt_of_succ_le hbound

/-- Two lists of pairs whose inner components agree: an item of the zip of their outer
components is joined through an item of each. -/
theorem exists_of_mem_zip_map {α β γ : Type} {left : List (α × β)} {right : List (β × γ)}
    (hinner : left.map Prod.snd = right.map Prod.fst) {a : α} {c : γ}
    (hmem : (a, c) ∈ (left.map Prod.fst).zip (right.map Prod.snd)) :
    ∃ b, (a, b) ∈ left ∧ (b, c) ∈ right := by
  induction left generalizing right with
  | nil => simp at hmem
  | cons l left ih =>
    cases right with
    | nil => simp at hinner
    | cons r right =>
      rw [List.map_cons, List.map_cons, List.cons.injEq] at hinner
      rw [List.map_cons, List.map_cons, List.zip_cons_cons, List.mem_cons] at hmem
      rcases hmem with hhead | htail
      · obtain ⟨rfl, rfl⟩ := Prod.mk.inj hhead
        exact ⟨l.2, List.mem_cons_self, by rw [hinner.1]; exact List.mem_cons_self⟩
      · obtain ⟨b, hleft, hright⟩ := ih hinner.2 htail
        exact ⟨b, List.mem_cons_of_mem _ hleft, List.mem_cons_of_mem _ hright⟩

/-- The loop of `get_partial_sig_with_rounds` over validators: all of them sign, and their rounds
come in the order of their indices. -/
theorem PartialSignaturesWithRound.getPartialSigWithRounds_eq
    {signatures : PartialSignaturesWithRound V}
    (hvalid : ∀ entry ∈ signatures.signatures, entry.1 ∈ verifier.validatorInfos) :
    ∃ indexToRounds, signatures.getPartialSigWithRounds verifier.addressToValidatorIndex =
        ((signatures.signatures.map Prod.fst).toFinset, indexToRounds.map Prod.snd) ∧
      BTreeMap.KeysSorted indexToRounds ∧
      indexToRounds.Perm (signatures.signatures.map fun entry ↦
        (verifier.validatorInfos.idxOf entry.1, entry.2)) := by
  have hindex : ∀ entry ∈ signatures.signatures, verifier.addressToValidatorIndex entry.1 =
      some (verifier.validatorInfos.idxOf entry.1) := fun entry hentry ↦ by
    rw [ValidatorVerifier.addressToValidatorIndex, if_pos (hvalid entry hentry)]
  have hkeys : (signatures.signatures.map (verifier.validatorInfos.idxOf ·.1) ++
      ([] : List (Nat × Nat)).map Prod.fst).Nodup := by
    have hinj := signatures.nodup.map_on (f := verifier.validatorInfos.idxOf)
      fun validator hmem validator' hmem' ↦ by
        obtain ⟨entry, hentry, rfl⟩ := List.mem_map.mp hmem
        obtain ⟨entry', hentry', rfl⟩ := List.mem_map.mp hmem'
        exact ValidatorVerifier.idxOf_injOn (hvalid entry hentry) (hvalid entry' hentry')
    simpa [List.map_map, Function.comp_def] using hinj
  obtain ⟨hsigners, hsorted, hperm⟩ := PartialSignaturesWithRound.foldl_partialSigStep
    (verifier.validatorInfos.idxOf ·) signatures.signatures (∅, []) hindex hkeys List.Pairwise.nil
  refine ⟨_, ?_, hsorted, by simpa using hperm⟩
  rw [PartialSignaturesWithRound.getPartialSigWithRounds, hsigners, Finset.union_empty]

/-- The bitmask of signers of distinct validators, read back in index order, lines up with their
rounds sorted by index: `get_voters_and_rounds` pairs each signer with its own round. -/
theorem getVotersAndRounds_of_sorted {entries : List (V × Nat)}
    (hvalid : ∀ entry ∈ entries, entry.1 ∈ verifier.validatorInfos)
    {indexToRounds : List (Nat × Nat)} (hsorted : BTreeMap.KeysSorted indexToRounds)
    (hperm : indexToRounds.Perm
      (entries.map fun entry ↦ (verifier.validatorInfos.idxOf entry.1, entry.2))) :
    let sig : AggregateSignature :=
      ⟨(entries.map Prod.fst).toFinset.image (verifier.validatorInfos.idxOf ·)⟩
    (sig.getSignersAddresses verifier.validatorInfos).length = indexToRounds.length ∧
      ∀ pair ∈ (⟨sig, indexToRounds.map Prod.snd⟩ : AggregateSignatureWithRounds)
        |>.getVotersAndRounds verifier.validatorInfos, pair ∈ entries := by
  intro sig
  have hbitmask : ∀ index, index ∈ sig.validatorBitmask ↔
      ∃ entry ∈ entries, verifier.validatorInfos.idxOf entry.1 = index := by
    simp [sig]
  have hinner : (verifier.validatorInfos.zipIdx.filter fun entry ↦
      decide (entry.2 ∈ sig.validatorBitmask)).map Prod.snd = indexToRounds.map Prod.fst := by
    refine List.Pairwise.eq_of_mem_iff (r := (· < ·))
      (List.pairwise_map.mpr ((pairwise_zipIdx _ 0).filter _)) (List.pairwise_map.mpr hsorted)
      fun index ↦ ?_
    have hright : index ∈ (entries.map fun entry ↦
        (verifier.validatorInfos.idxOf entry.1, entry.2)).map Prod.fst ↔
        index ∈ sig.validatorBitmask := by
      rw [hbitmask, List.map_map]
      exact List.mem_map
    rw [(hperm.map Prod.fst).mem_iff, hright]
    constructor
    · intro hindex
      obtain ⟨entry, hentry, rfl⟩ := List.mem_map.mp hindex
      exact of_decide_eq_true (List.mem_filter.mp hentry).2
    · intro hindex
      obtain ⟨entry, hentry, rfl⟩ := (hbitmask _).mp hindex
      exact List.mem_map.mpr ⟨(entry.1, _), List.mem_filter.mpr
        ⟨List.mem_zipIdx_iff_getElem?.mpr (ValidatorVerifier.getElem?_idxOf (hvalid entry hentry)),
          decide_eq_true hindex⟩, rfl⟩
  refine ⟨by rw [AggregateSignature.getSignersAddresses, List.length_map,
    ← List.length_map (f := Prod.snd), hinner, List.length_map], ?_⟩
  rintro ⟨validator, round⟩ hpair
  obtain ⟨index, hleft, hright⟩ := exists_of_mem_zip_map hinner hpair
  have hget : verifier.validatorInfos[index]? = some validator :=
    List.mem_zipIdx_iff_getElem?.mp (List.mem_filter.mp hleft).1
  obtain ⟨entry, hentry, hsame⟩ := List.mem_map.mp (hperm.mem_iff.mp hright)
  obtain ⟨rfl, rfl⟩ := Prod.mk.inj hsame
  rw [ValidatorVerifier.getElem?_idxOf (hvalid entry hentry), Option.some.injEq] at hget
  rw [← hget]
  exact hentry

omit [DecidableEq ι] in
/-- The certificate aggregated from a partial certificate of validators: as many signers in the
bitmask as rounds, as `AggregateSignatureWithRounds::new` asserts; the signers are those of the
partial certificate, the rounds are theirs, and `get_voters_and_rounds` pairs each signer with
its own round. -/
theorem TwoChainTimeoutWithPartialSignatures.aggregateSignatures_eq_ok
    {partialTc : TwoChainTimeoutWithPartialSignatures V ι} {tc : TwoChainTimeoutCertificate ι}
    (hsub : partialTc.signers ⊆ verifier.validators)
    (haggregate : partialTc.aggregateSignatures verifier = .ok tc) :
    tc.timeout = partialTc.timeout ∧
      tc.signaturesWithRounds.sig.getNumVoters = tc.signaturesWithRounds.rounds.length ∧
      (tc.signaturesWithRounds.sig.getSignersAddresses verifier.validatorInfos).length =
        tc.signaturesWithRounds.rounds.length ∧
      (∀ index ∈ tc.signaturesWithRounds.sig.validatorBitmask,
        index < verifier.validatorInfos.length) ∧
      (tc.signaturesWithRounds.sig.getSignersAddresses verifier.validatorInfos).toFinset =
        partialTc.signers ∧
      tc.signaturesWithRounds.rounds.Perm (partialTc.signatures.signatures.map Prod.snd) ∧
      ∀ pair ∈ tc.signaturesWithRounds.getVotersAndRounds verifier.validatorInfos,
        pair ∈ partialTc.signatures.signatures := by
  have hinfos : ∀ validator ∈ partialTc.signers, validator ∈ verifier.validatorInfos :=
    fun _ hmem ↦ ValidatorVerifier.mem_validators.mp (hsub hmem)
  have hvalid : ∀ entry ∈ partialTc.signatures.signatures, entry.1 ∈ verifier.validatorInfos :=
    fun entry hentry ↦ hinfos _ (List.mem_toFinset.mpr (List.mem_map_of_mem hentry))
  obtain ⟨indexToRounds, hcollected, hsorted, hperm⟩ :=
    PartialSignaturesWithRound.getPartialSigWithRounds_eq hvalid
  unfold aggregateSignatures at haggregate
  rw [hcollected] at haggregate
  obtain ⟨aggregated, hagg, htc⟩ := Rust.bind_eq_ok_iff.mp haggregate
  obtain ⟨-, -, rfl⟩ := ValidatorVerifier.aggregateSignatures_eq_ok hagg
  cases htc
  dsimp only
  obtain ⟨hlength, hpairs⟩ := getVotersAndRounds_of_sorted hvalid hsorted hperm
  have hrounds : indexToRounds.length = partialTc.signatures.signatures.length := by
    rw [hperm.length_eq, List.length_map]
  have hcard : (partialTc.signers.image (verifier.validatorInfos.idxOf ·)).card =
      partialTc.signatures.signatures.length := by
    rw [Finset.card_image_of_injOn fun _ hmem _ hmem' ↦
        ValidatorVerifier.idxOf_injOn (hinfos _ hmem) (hinfos _ hmem'),
      signers, List.toFinset_card_of_nodup partialTc.signatures.nodup, List.length_map]
  refine ⟨rfl, ?_, by rw [hlength, List.length_map], fun index hindex ↦ ?_, ?_, ?_, hpairs⟩
  · rw [AggregateSignature.getNumVoters, List.length_map, hrounds]
    exact hcard
  · obtain ⟨validator, hvalidator, rfl⟩ := Finset.mem_image.mp hindex
    exact List.idxOf_lt_length_of_mem (hinfos _ hvalidator)
  · ext validator
    rw [List.mem_toFinset]
    exact ValidatorVerifier.mem_getSignersAddresses_image hsub
  · simpa [List.map_map, Function.comp_def] using hperm.map Prod.snd

end Aggregated

/-! ## `insert_vote` -/

/-- `VoteReceptionResult`, with the results `insert_vote` returns. -/
inductive VoteReceptionResult (V ι : Type) where
  | voteAdded (votingPower : Nat)
  | voteAddedQCDelayed (votingPower : Nat)
  | duplicateVote
  | equivocateVote
  | newQuorumCertificate (qc : QuorumCert ι)
  | new2ChainTimeoutCertificate (tc : TwoChainTimeoutCertificate ι)
  | errorAddingVote (error : VerifyError)
  | errorAggregatingSignature (error : VerifyError)
  | errorAggregatingTimeoutCertificate (error : VerifyError)
  | echoTimeout (votingPower : Nat)
  deriving DecidableEq

/-- `PendingVotes`. A ledger info nobody signed has no entry in `liDigestToVotes`; the index
of an entry is only logged and is left out. -/
structure PendingVotes (V ι : Type) where
  liDigestToVotes : LedgerInfo ι → Finset V
  maybePartial2chainTc : Option (TwoChainTimeoutWithPartialSignatures V ι)
  authorToVote : V → Option (Vote V ι)
  echoTimeout : Bool

namespace PendingVotes

def new : PendingVotes V ι := ⟨fun _ ↦ ∅, none, fun _ ↦ none, false⟩

def aggregateQcNow (verifier : ValidatorVerifier V) (ledgerInfo : LedgerInfo ι)
    (signers : Finset V) (voteData : VoteData ι) : VoteReceptionResult V ι :=
  match verifier.aggregateSignatures signers with
  | .ok aggregated => .newQuorumCertificate ⟨voteData, ledgerInfo, aggregated⟩
  | .error error => .errorAggregatingSignature error

/-- `QcAggregator::handle_aggregated_qc`, given the aggregator's decision to aggregate now. -/
def handleAggregatedQc (verifier : ValidatorVerifier V) (aggregateNow : Bool)
    (aggregatedVotingPower : Nat) (vote : Vote V ι) (signers : Finset V) :
    VoteReceptionResult V ι :=
  if aggregateNow then aggregateQcNow verifier vote.ledgerInfo signers vote.voteData
  else .voteAddedQCDelayed aggregatedVotingPower

/-- Step 2 of `insert_vote` and the signature of step 3: the vote is stored for its author, and
its author signs its ledger info (`or_insert`, so a signer stays one). -/
def recordVote (pending : PendingVotes V ι) (vote : Vote V ι) : PendingVotes V ι :=
  { pending with
    authorToVote := Function.update pending.authorToVote vote.author (some vote)
    liDigestToVotes := Function.update pending.liDigestToVotes vote.ledgerInfo
      (insert vote.author (pending.liDigestToVotes vote.ledgerInfo)) }

/-- Step 4 of `insert_vote`: a timeout vote that formed no QC joins the partial timeout
certificate, which is aggregated once a quorum timed out; the first time `f + 1` of the power
timed out, the timeout is echoed. -/
def addTimeoutVote (verifier : ValidatorVerifier V) (vote : Vote V ι) (votingPower : Nat)
    (pending : PendingVotes V ι) : PendingVotes V ι × VoteReceptionResult V ι :=
  match vote.twoChainTimeout with
  | none => (pending, .voteAdded votingPower)
  | some timeout =>
    let partialTc := (pending.maybePartial2chainTc.getD (.new timeout)).add vote.author timeout
    let pending := { pending with maybePartial2chainTc := some partialTc }
    match verifier.sumVotingPower partialTc.signers >>= verifier.checkAggregatedVotingPower with
    | .ok _ =>
      (pending, match partialTc.aggregateSignatures verifier with
        | .ok tc => .new2ChainTimeoutCertificate tc
        | .error error => .errorAggregatingTimeoutCertificate error)
    | .error (.tooLittleVotingPower tcVotingPower _) =>
      if !pending.echoTimeout &&
          verifier.totalVotingPower - verifier.quorumVotingPower + 1 ≤ tcVotingPower then
        ({ pending with echoTimeout := true }, .echoTimeout tcVotingPower)
      else (pending, .voteAdded votingPower)
    | .error error => (pending, .errorAddingVote error)

/-- Steps 2 to 5 of `insert_vote`, for a vote that is not refused. -/
def addVote (verifier : ValidatorVerifier V) (aggregateNow : Bool) (vote : Vote V ι)
    (pending : PendingVotes V ι) : PendingVotes V ι × VoteReceptionResult V ι :=
  let pending := pending.recordVote vote
  let signers := pending.liDigestToVotes vote.ledgerInfo
  match verifier.sumVotingPower signers >>= verifier.checkAggregatedVotingPower with
  | .ok aggregatedVotingPower =>
    (pending, handleAggregatedQc verifier aggregateNow aggregatedVotingPower vote signers)
  | .error (.tooLittleVotingPower votingPower _) => pending.addTimeoutVote verifier vote votingPower
  | .error error => (pending, .errorAddingVote error)

/-- `insert_vote`. Step 1 refuses a vote of an author that already voted, unless it is the
same vote now carrying a timeout. -/
def insertVote (verifier : ValidatorVerifier V) (aggregateNow : Bool) (vote : Vote V ι)
    (pending : PendingVotes V ι) : PendingVotes V ι × VoteReceptionResult V ι :=
  match pending.authorToVote vote.author with
  | some previouslySeenVote =>
    if vote.ledgerInfo = previouslySeenVote.ledgerInfo then
      let newTimeoutVote := vote.isTimeout && !previouslySeenVote.isTimeout
      if !newTimeoutVote then (pending, .duplicateVote)
      else pending.addVote verifier aggregateNow vote
    else (pending, .equivocateVote)
  | none => pending.addVote verifier aggregateNow vote

/-- The votes of a run, each with the QC aggregator's decision, fed to `insert_vote` one after
another from `PendingVotes::new`. -/
def insertVotes (verifier : ValidatorVerifier V) (inputs : List (Bool × Vote V ι)) :
    PendingVotes V ι :=
  inputs.foldl (fun pending input ↦ (pending.insertVote verifier input.1 input.2).1) new

/-! ## What one call can do -/

section Calls

variable {verifier : ValidatorVerifier V} {aggregateNow : Bool} {pending : PendingVotes V ι}
  {vote : Vote V ι}

/-- The guard of step 1 that `insert_vote` lets through: the author has not voted yet, or voted
for the same ledger info without a timeout. -/
def Fresh (pending : PendingVotes V ι) (vote : Vote V ι) : Prop :=
  ∀ previous, pending.authorToVote vote.author = some previous →
    previous.ledgerInfo = vote.ledgerInfo ∧ previous.twoChainTimeout = none

@[simp] theorem recordVote_authorToVote :
    (pending.recordVote vote).authorToVote =
      Function.update pending.authorToVote vote.author (some vote) := rfl

@[simp] theorem recordVote_liDigestToVotes :
    (pending.recordVote vote).liDigestToVotes =
      Function.update pending.liDigestToVotes vote.ledgerInfo
        (insert vote.author (pending.liDigestToVotes vote.ledgerInfo)) := rfl

@[simp] theorem recordVote_maybePartial2chainTc :
    (pending.recordVote vote).maybePartial2chainTc = pending.maybePartial2chainTc := rfl

/-- `insert_vote` refuses the vote and changes nothing, or lets it through step 1. -/
theorem insertVote_eq_or (verifier : ValidatorVerifier V) (aggregateNow : Bool)
    (pending : PendingVotes V ι) (vote : Vote V ι) :
    pending.insertVote verifier aggregateNow vote = (pending, .duplicateVote) ∨
      pending.insertVote verifier aggregateNow vote = (pending, .equivocateVote) ∨
      pending.Fresh vote ∧
        pending.insertVote verifier aggregateNow vote = pending.addVote verifier aggregateNow vote := by
  unfold insertVote
  cases hprevious : pending.authorToVote vote.author with
  | none =>
    refine .inr (.inr ⟨fun previous hsome ↦ ?_, rfl⟩)
    rw [hprevious] at hsome
    cases hsome
  | some previous =>
    dsimp only
    by_cases hsame : vote.ledgerInfo = previous.ledgerInfo
    case neg => exact .inr (.inl (if_neg hsame))
    case pos =>
      rw [if_pos hsame]
      cases hnew : (vote.isTimeout && !previous.isTimeout)
      case false => exact .inl (if_pos rfl)
      case true =>
        refine .inr (.inr ⟨fun other hother ↦ ?_, if_neg Bool.false_ne_true⟩)
        rw [hprevious, Option.some.injEq] at hother
        subst hother
        simp only [Bool.and_eq_true, Bool.not_eq_eq_eq_not, Bool.not_true, Vote.isTimeout,
          Option.isSome_eq_false_iff, Option.isNone_iff_eq_none] at hnew
        exact ⟨hsame.symm, hnew.2⟩

/-- Past step 1, the vote is recorded, and the voting power of its ledger info's signers
decides between a QC, the timeout step and an error. -/
theorem addVote_eq_or (verifier : ValidatorVerifier V) (aggregateNow : Bool)
    (pending : PendingVotes V ι) (vote : Vote V ι) :
    (∃ votingPower, verifier.quorumVotingPower ≤ votingPower ∧
        (pending.recordVote vote).liDigestToVotes vote.ledgerInfo ⊆ verifier.validators ∧
        votingPower = verifier.power ((pending.recordVote vote).liDigestToVotes vote.ledgerInfo) ∧
        pending.addVote verifier aggregateNow vote =
          (pending.recordVote vote, handleAggregatedQc verifier aggregateNow votingPower vote
            ((pending.recordVote vote).liDigestToVotes vote.ledgerInfo))) ∨
      (∃ votingPower, pending.addVote verifier aggregateNow vote =
        (pending.recordVote vote).addTimeoutVote verifier vote votingPower) ∨
      (∃ error, pending.addVote verifier aggregateNow vote =
        (pending.recordVote vote, .errorAddingVote error)) := by
  unfold addVote
  dsimp only
  split
  next votingPower hcheck =>
    obtain ⟨hsub, hpower, hquorum⟩ := ValidatorVerifier.sumVotingPower_bind_eq_ok_iff.mp hcheck
    exact .inl ⟨votingPower, hpower ▸ hquorum, hsub, hpower, rfl⟩
  next votingPower _ _ => exact .inr (.inl ⟨votingPower, rfl⟩)
  next error _ _ => exact .inr (.inr ⟨error, rfl⟩)

omit [DecidableEq ι] in
theorem handleAggregatedQc_eq_newQuorumCertificate {votingPower : Nat} {signers : Finset V}
    {qc : QuorumCert ι}
    (hqc : handleAggregatedQc verifier aggregateNow votingPower vote signers =
      .newQuorumCertificate qc) :
    signers ⊆ verifier.validators ∧
      qc = ⟨vote.voteData, vote.ledgerInfo, ⟨signers.image (verifier.validatorInfos.idxOf ·)⟩⟩ := by
  unfold handleAggregatedQc aggregateQcNow at hqc
  split_ifs at hqc
  split at hqc
  next aggregated haggregated =>
    obtain ⟨hsub, -, rfl⟩ := ValidatorVerifier.aggregateSignatures_eq_ok haggregated
    cases hqc
    exact ⟨hsub, rfl⟩
  next => cases hqc

omit [DecidableEq ι] in
theorem handleAggregatedQc_ne_new2ChainTimeoutCertificate {votingPower : Nat}
    {signers : Finset V} (tc : TwoChainTimeoutCertificate ι) :
    handleAggregatedQc verifier aggregateNow votingPower vote signers ≠
      .new2ChainTimeoutCertificate tc := by
  unfold handleAggregatedQc aggregateQcNow
  split_ifs
  · split <;> simp
  · simp

omit [DecidableEq ι] in
theorem addTimeoutVote_ne_newQuorumCertificate {votingPower : Nat} (qc : QuorumCert ι) :
    (pending.addTimeoutVote verifier vote votingPower).2 ≠ .newQuorumCertificate qc := by
  unfold addTimeoutVote
  split
  · simp
  · dsimp only
    split
    · split <;> simp
    · split_ifs <;> simp
    · simp

omit [DecidableEq ι] in
/-- A timeout certificate comes out of step 4 only: it is aggregated from the partial
certificate left in the state, whose signers are validators holding a quorum. -/
theorem addTimeoutVote_new2ChainTimeoutCertificate {votingPower : Nat}
    {tc : TwoChainTimeoutCertificate ι}
    (htc : (pending.addTimeoutVote verifier vote votingPower).2 = .new2ChainTimeoutCertificate tc) :
    ∃ partialTc,
      (pending.addTimeoutVote verifier vote votingPower).1.maybePartial2chainTc = some partialTc ∧
        partialTc.signers ⊆ verifier.validators ∧
        verifier.quorumVotingPower ≤ verifier.power partialTc.signers ∧
        partialTc.aggregateSignatures verifier = .ok tc := by
  revert htc
  unfold addTimeoutVote
  split
  · simp
  · dsimp only
    split
    next hcheck =>
      obtain ⟨hsub, -, hquorum⟩ := ValidatorVerifier.sumVotingPower_bind_eq_ok_iff.mp hcheck
      intro htc
      split at htc
      next haggregate =>
        cases htc
        exact ⟨_, rfl, hsub, hquorum, haggregate⟩
      next => cases htc
    · split_ifs <;> simp
    · simp

/-- The QC `insert_vote` returns is on the vote's ledger info, and its bitmask reads back as the
validators recorded under it, who hold a quorum. -/
theorem insertVote_newQuorumCertificate {qc : QuorumCert ι}
    (hqc : (pending.insertVote verifier aggregateNow vote).2 = .newQuorumCertificate qc) :
    (∀ signer, signer ∈ qc.signatures.getSignersAddresses verifier.validatorInfos ↔
      signer ∈ (pending.insertVote verifier aggregateNow vote).1.liDigestToVotes qc.ledgerInfo) ∧
      verifier.quorumVotingPower ≤
        verifier.power (qc.signatures.getSignersAddresses verifier.validatorInfos).toFinset := by
  rcases insertVote_eq_or verifier aggregateNow pending vote with hrefused | hrefused | ⟨-, hadded⟩
  · rw [hrefused] at hqc ⊢
    cases hqc
  · rw [hrefused] at hqc ⊢
    cases hqc
  rw [hadded] at hqc ⊢
  rcases addVote_eq_or verifier aggregateNow pending vote with
    ⟨votingPower, hquorum, -, hpower, hcall⟩ | ⟨votingPower, hcall⟩ | ⟨error, hcall⟩
  · rw [hcall] at hqc ⊢
    obtain ⟨hsub, rfl⟩ := handleAggregatedQc_eq_newQuorumCertificate hqc
    have hsigners : ∀ signer, signer ∈ AggregateSignature.getSignersAddresses
        ⟨((pending.recordVote vote).liDigestToVotes vote.ledgerInfo).image
          (verifier.validatorInfos.idxOf ·)⟩ verifier.validatorInfos ↔
        signer ∈ (pending.recordVote vote).liDigestToVotes vote.ledgerInfo :=
      fun _ ↦ ValidatorVerifier.mem_getSignersAddresses_image hsub
    refine ⟨hsigners, ?_⟩
    have hset : (AggregateSignature.getSignersAddresses
        ⟨((pending.recordVote vote).liDigestToVotes vote.ledgerInfo).image
          (verifier.validatorInfos.idxOf ·)⟩ verifier.validatorInfos).toFinset =
        (pending.recordVote vote).liDigestToVotes vote.ledgerInfo := by
      ext signer
      rw [List.mem_toFinset, hsigners]
    rw [hset, ← hpower]
    exact hquorum
  · rw [hcall] at hqc
    exact absurd hqc (addTimeoutVote_ne_newQuorumCertificate qc)
  · rw [hcall] at hqc
    cases hqc

/-- The timeout certificate `insert_vote` returns is aggregated from the partial certificate
left in the state, whose signers are validators holding a quorum. -/
theorem insertVote_new2ChainTimeoutCertificate {tc : TwoChainTimeoutCertificate ι}
    (htc : (pending.insertVote verifier aggregateNow vote).2 = .new2ChainTimeoutCertificate tc) :
    ∃ partialTc,
      (pending.insertVote verifier aggregateNow vote).1.maybePartial2chainTc = some partialTc ∧
        partialTc.signers ⊆ verifier.validators ∧
        verifier.quorumVotingPower ≤ verifier.power partialTc.signers ∧
        partialTc.aggregateSignatures verifier = .ok tc := by
  rcases insertVote_eq_or verifier aggregateNow pending vote with hrefused | hrefused | ⟨-, hadded⟩
  · rw [hrefused] at htc
    cases htc
  · rw [hrefused] at htc
    cases htc
  rw [hadded] at htc ⊢
  rcases addVote_eq_or verifier aggregateNow pending vote with
    ⟨votingPower, -, -, -, hcall⟩ | ⟨votingPower, hcall⟩ | ⟨error, hcall⟩
  · rw [hcall] at htc
    exact absurd htc (handleAggregatedQc_ne_new2ChainTimeoutCertificate tc)
  · rw [hcall] at htc ⊢
    exact addTimeoutVote_new2ChainTimeoutCertificate htc
  · rw [hcall] at htc
    cases htc

end Calls

/-! ## What every state of a run satisfies -/

/-- The partial timeout certificate of a run: each signer has a stored timeout vote with the
round it signed, the timeout kept is a timeout of the run, and its hqc round is the highest
signed. -/
structure PartialTcInv (verifier : ValidatorVerifier V) (signatures : List (V × SignedMessage ι))
    (epoch round : Nat) (pending : PendingVotes V ι)
    (partialTc : TwoChainTimeoutWithPartialSignatures V ι) : Prop where
  timeoutVoted : ∀ entry ∈ partialTc.signatures.signatures, ∃ vote timeout,
    pending.authorToVote entry.1 = some vote ∧ vote.twoChainTimeout = some timeout ∧
      timeout.hqcRound = entry.2
  timeout : partialTc.timeout.VerifiedFor verifier signatures epoch round
  hqcRound_mem : partialTc.timeout.hqcRound ∈ partialTc.signatures.signatures.map Prod.snd
  le_hqcRound : ∀ entry ∈ partialTc.signatures.signatures, entry.2 ≤ partialTc.timeout.hqcRound

/-- What every state of a run of verified votes for `epoch` and `round` satisfies: each stored
vote is a vote of the run, each recorded signature is of a stored vote for that ledger info,
and the partial timeout certificate is one of the run. -/
structure Inv (verifier : ValidatorVerifier V) (signatures : List (V × SignedMessage ι))
    (epoch round : Nat) (pending : PendingVotes V ι) : Prop where
  stored : ∀ author vote, pending.authorToVote author = some vote →
    vote.author = author ∧ vote.VerifiedFor verifier signatures epoch round
  recorded : ∀ ledgerInfo, ∀ author ∈ pending.liDigestToVotes ledgerInfo,
    ∃ vote, pending.authorToVote author = some vote ∧ vote.ledgerInfo = ledgerInfo
  partialTc : ∀ partialTc, pending.maybePartial2chainTc = some partialTc →
    PartialTcInv verifier signatures epoch round pending partialTc

section Invariant

variable {verifier : ValidatorVerifier V} {signatures : List (V × SignedMessage ι)}
  {epoch round : Nat} {pending : PendingVotes V ι} {vote : Vote V ι}
  {partialTc : TwoChainTimeoutWithPartialSignatures V ι}

theorem inv_new : Inv verifier signatures epoch round (new : PendingVotes V ι) where
  stored _ _ hstored := by cases hstored
  recorded _ _ hmem := by simp [new] at hmem
  partialTc _ hsome := by cases hsome

/-- An author in the partial certificate has a stored timeout vote, so an author that passes
step 1 is not in it. -/
theorem PartialTcInv.ne_author (h : PartialTcInv verifier signatures epoch round pending partialTc)
    (hfresh : pending.Fresh vote) :
    ∀ entry ∈ partialTc.signatures.signatures, entry.1 ≠ vote.author := by
  intro entry hentry hauthor
  obtain ⟨previous, timeout, hprevious, htimeout, -⟩ := h.timeoutVoted entry hentry
  rw [hauthor] at hprevious
  rw [(hfresh previous hprevious).2] at htimeout
  cases htimeout

/-- The partial certificate's invariant reads the stored votes of its signers only. -/
theorem PartialTcInv.of_authorToVote (h : PartialTcInv verifier signatures epoch round pending partialTc)
    {pending' : PendingVotes V ι}
    (hsame : ∀ entry ∈ partialTc.signatures.signatures,
      pending'.authorToVote entry.1 = pending.authorToVote entry.1) :
    PartialTcInv verifier signatures epoch round pending' partialTc where
  timeoutVoted entry hentry := by
    rw [hsame entry hentry]
    exact h.timeoutVoted entry hentry
  timeout := h.timeout
  hqcRound_mem := h.hqcRound_mem
  le_hqcRound := h.le_hqcRound

/-- `add` on the partial certificate `get_or_insert_with` returns, the run's own or a new one on
the author's timeout: the author, not in it yet, joins with its round, and the kept timeout is
still the highest. -/
theorem partialTcInv_add {author : V} {timeout : TwoChainTimeout ι}
    (hbase : PartialTcInv verifier signatures epoch round pending partialTc ∨
      partialTc = .new timeout)
    (hstored : pending.authorToVote author = some vote)
    (hvote : vote.VerifiedFor verifier signatures epoch round)
    (htimeout : vote.twoChainTimeout = some timeout)
    (hnew : ∀ entry ∈ partialTc.signatures.signatures, entry.1 ≠ author) :
    PartialTcInv verifier signatures epoch round pending (partialTc.add author timeout) := by
  have hverified := (hvote.twoChainTimeout htimeout).1
  obtain ⟨hvoted, hkept, hle, hmem⟩ :
      (∀ entry ∈ partialTc.signatures.signatures, ∃ vote timeout,
        pending.authorToVote entry.1 = some vote ∧ vote.twoChainTimeout = some timeout ∧
          timeout.hqcRound = entry.2) ∧
      partialTc.timeout.VerifiedFor verifier signatures epoch round ∧
      (∀ entry ∈ partialTc.signatures.signatures, entry.2 ≤ partialTc.timeout.hqcRound) ∧
      (partialTc.timeout.hqcRound ∈ partialTc.signatures.signatures.map Prod.snd ∨
        partialTc.timeout.hqcRound ≤ timeout.hqcRound) := by
    rcases hbase with h | rfl
    · exact ⟨h.timeoutVoted, h.timeout, h.le_hqcRound, .inl h.hqcRound_mem⟩
    · exact ⟨fun _ h ↦ (by cases h), hverified, fun _ h ↦ (by cases h), .inr le_rfl⟩
  have hsignatures : (partialTc.add author timeout).signatures.signatures =
      partialTc.signatures.signatures ++ [(author, timeout.hqcRound)] := by
    refine PartialSignaturesWithRound.addSignature_of_notMem (fun hmem ↦ ?_) _
    obtain ⟨entry, hentry, hfst⟩ := List.mem_map.mp hmem
    exact hnew entry hentry hfst
  have hentries : ∀ entry ∈ (partialTc.add author timeout).signatures.signatures,
      entry ∈ partialTc.signatures.signatures ∨ entry = (author, timeout.hqcRound) := by
    intro entry hentry
    rwa [hsignatures, List.mem_append, List.mem_singleton] at hentry
  have hhqc := partialTc.add_hqcRound author timeout
  refine ⟨fun entry hentry ↦ ?_, ?_, ?_, fun entry hentry ↦ ?_⟩
  · rcases hentries entry hentry with hold | rfl
    · exact hvoted entry hold
    · exact ⟨vote, timeout, hstored, htimeout, rfl⟩
  · unfold TwoChainTimeoutWithPartialSignatures.add
    split_ifs
    · exact hverified
    · exact hkept
  · rw [hsignatures, hhqc, List.map_append, List.mem_append]
    by_cases hhigher : partialTc.timeout.hqcRound ≤ timeout.hqcRound
    · rw [max_eq_right hhigher]
      exact .inr (List.mem_singleton_self _)
    · rw [max_eq_left (by omega)]
      exact .inl (hmem.resolve_right hhigher)
  · rw [hhqc]
    rcases hentries entry hentry with hold | rfl
    · exact le_max_of_le_left (hle entry hold)
    · exact le_max_right _ _

/-- Step 2 and 3 keep the invariant for a verified vote past step 1. -/
theorem Inv.recordVote (hinv : Inv verifier signatures epoch round pending)
    (hvote : vote.VerifiedFor verifier signatures epoch round) (hfresh : pending.Fresh vote) :
    Inv verifier signatures epoch round (pending.recordVote vote) where
  stored author stored hstored := by
    rw [recordVote_authorToVote, Function.update_apply] at hstored
    split_ifs at hstored with hauthor
    · cases hstored
      exact ⟨hauthor.symm, hvote⟩
    · exact hinv.stored author stored hstored
  recorded ledgerInfo author hauthor := by
    rw [recordVote_liDigestToVotes, Function.update_apply] at hauthor
    rw [recordVote_authorToVote]
    by_cases hself : author = vote.author
    case pos =>
      refine ⟨vote, by rw [hself, Function.update_self], ?_⟩
      split_ifs at hauthor with hledger
      · exact hledger.symm
      · obtain ⟨previous, hprevious, hledger'⟩ := hinv.recorded ledgerInfo author hauthor
        rw [hself] at hprevious
        exact (hfresh previous hprevious).1.symm.trans hledger'
    case neg =>
      rw [Function.update_of_ne hself]
      split_ifs at hauthor with hledger
      · rcases Finset.mem_insert.mp hauthor with hvoter | hvoter
        · exact absurd hvoter hself
        · rw [hledger]
          exact hinv.recorded _ author hvoter
      · exact hinv.recorded ledgerInfo author hauthor
  partialTc partialTc hsome :=
    (hinv.partialTc partialTc hsome).of_authorToVote fun entry hentry ↦ by
      rw [recordVote_authorToVote,
        Function.update_of_ne ((hinv.partialTc partialTc hsome).ne_author hfresh entry hentry)]

/-- The echo flag is not part of the invariant. -/
theorem Inv.withEchoTimeout (hinv : Inv verifier signatures epoch round pending) (echo : Bool) :
    Inv verifier signatures epoch round { pending with echoTimeout := echo } where
  stored := hinv.stored
  recorded := hinv.recorded
  partialTc partialTc hsome := (hinv.partialTc partialTc hsome).of_authorToVote fun _ _ ↦ rfl

/-- Step 4 keeps the invariant when the author of the stored timeout vote is not in the partial
certificate yet. -/
theorem Inv.addTimeoutVote (hinv : Inv verifier signatures epoch round pending)
    (hstored : pending.authorToVote vote.author = some vote)
    (hnew : ∀ partialTc, pending.maybePartial2chainTc = some partialTc →
      ∀ entry ∈ partialTc.signatures.signatures, entry.1 ≠ vote.author)
    (votingPower : Nat) :
    Inv verifier signatures epoch round (pending.addTimeoutVote verifier vote votingPower).1 := by
  unfold PendingVotes.addTimeoutVote
  cases htimeout : vote.twoChainTimeout with
  | none => exact hinv
  | some timeout =>
    have hvote := (hinv.stored vote.author vote hstored).2
    have hadded : Inv verifier signatures epoch round { pending with
        maybePartial2chainTc :=
          some ((pending.maybePartial2chainTc.getD (.new timeout)).add vote.author timeout) } := by
      refine ⟨hinv.stored, hinv.recorded, fun partialTc hsome ↦ ?_⟩
      rw [Option.some.injEq] at hsome
      subst hsome
      have hadd : PartialTcInv verifier signatures epoch round pending
          ((pending.maybePartial2chainTc.getD (.new timeout)).add vote.author timeout) := by
        cases hmaybe : pending.maybePartial2chainTc with
        | none => exact partialTcInv_add (.inr rfl) hstored hvote htimeout (fun _ h ↦ (by cases h))
        | some partialTc =>
          exact partialTcInv_add (.inl (hinv.partialTc partialTc hmaybe)) hstored hvote htimeout
            (hnew partialTc hmaybe)
      exact hadd.of_authorToVote fun _ _ ↦ rfl
    dsimp only
    split
    · exact hadded
    · split_ifs
      · exact hadded.withEchoTimeout true
      · exact hadded
    · exact hadded

theorem Inv.addVote (hinv : Inv verifier signatures epoch round pending)
    (hvote : vote.VerifiedFor verifier signatures epoch round) (hfresh : pending.Fresh vote)
    (aggregateNow : Bool) :
    Inv verifier signatures epoch round (pending.addVote verifier aggregateNow vote).1 := by
  have hrecorded := hinv.recordVote hvote hfresh
  rcases addVote_eq_or verifier aggregateNow pending vote with
    ⟨_, -, -, -, hcall⟩ | ⟨votingPower, hcall⟩ | ⟨_, hcall⟩ <;> rw [hcall]
  · exact hrecorded
  · exact hrecorded.addTimeoutVote (by simp)
      (fun partialTc hsome ↦ (hinv.partialTc partialTc hsome).ne_author hfresh) votingPower
  · exact hrecorded

/-- `insert_vote` on a verified vote keeps the invariant. -/
theorem Inv.insertVote (hinv : Inv verifier signatures epoch round pending)
    (hvote : vote.VerifiedFor verifier signatures epoch round) (aggregateNow : Bool) :
    Inv verifier signatures epoch round (pending.insertVote verifier aggregateNow vote).1 := by
  rcases insertVote_eq_or verifier aggregateNow pending vote with hcall | hcall | ⟨hfresh, hcall⟩ <;> rw [hcall]
  · exact hinv
  · exact hinv
  · exact hinv.addVote hvote hfresh aggregateNow

/-- Every state of a run of verified votes satisfies the invariant. -/
theorem inv_insertVotes (inputs : List (Bool × Vote V ι))
    (hinputs : ∀ input ∈ inputs, input.2.VerifiedFor verifier signatures epoch round) :
    Inv verifier signatures epoch round (insertVotes verifier inputs) := by
  have hreach : Transition.Reachable (fun pending (input : Bool × Vote V ι) ↦
      (pending.insertVote verifier input.1 input.2).1)
      (fun input ↦ input.2.VerifiedFor verifier signatures epoch round) new
      (insertVotes verifier inputs) :=
    Transition.Reachable.init.foldl inputs hinputs
  exact hreach.invariant inv_new fun pending input _ hinput hinv ↦ hinv.insertVote hinput input.1

/-- An author's signatures are recorded under one ledger info only. -/
theorem Inv.eq_of_mem_liDigestToVotes (hinv : Inv verifier signatures epoch round pending)
    {author : V} {ledgerInfo ledgerInfo' : LedgerInfo ι}
    (hmem : author ∈ pending.liDigestToVotes ledgerInfo)
    (hmem' : author ∈ pending.liDigestToVotes ledgerInfo') : ledgerInfo = ledgerInfo' := by
  obtain ⟨stored, hstored, hledger⟩ := hinv.recorded ledgerInfo author hmem
  obtain ⟨stored', hstored', hledger'⟩ := hinv.recorded ledgerInfo' author hmem'
  rw [hstored, Option.some.injEq] at hstored'
  rw [← hledger, ← hledger', hstored']

/-- The signers recorded under a ledger info each voted for it and signed it. -/
theorem Inv.voted_of_mem_liDigestToVotes (hinv : Inv verifier signatures epoch round pending)
    {ledgerInfo : LedgerInfo ι} {signer : V} (hsigner : signer ∈ pending.liDigestToVotes ledgerInfo) :
    ∃ signed, pending.authorToVote signer = some signed ∧ signed.ledgerInfo = ledgerInfo ∧
      (signer, .ledgerInfo ledgerInfo) ∈ signatures := by
  obtain ⟨signed, hstored, hledger⟩ := hinv.recorded ledgerInfo signer hsigner
  obtain ⟨hauthor, hverified⟩ := hinv.stored signer signed hstored
  refine ⟨signed, hstored, hledger, ?_⟩
  rw [← hledger, ← hauthor]
  exact hverified.signed

/-- The messages of a zip, zipped again with its first components, are the zip's items with
their messages. -/
theorem zip_map_zip {α β γ : Type} (left : List α) (right : List β) (message : α × β → γ) :
    left.zip ((left.zip right).map message) =
      (left.zip right).map fun item ↦ (item.1, message item) := by
  induction left generalizing right with
  | nil => rfl
  | cons a left ih =>
    cases right with
    | nil => rfl
    | cons b right =>
      rw [List.zip_cons_cons, List.map_cons, List.zip_cons_cons, List.map_cons, ih]

/-- The partial certificate of a run, once its signers are validators holding a quorum,
aggregates to a certificate that verifies. -/
theorem Inv.verify_of_partialTc (hinv : Inv verifier signatures epoch round pending)
    (hsome : pending.maybePartial2chainTc = some partialTc)
    (hsub : partialTc.signers ⊆ verifier.validators)
    (hquorum : verifier.quorumVotingPower ≤ verifier.power partialTc.signers)
    {tc : TwoChainTimeoutCertificate ι}
    (haggregate : partialTc.aggregateSignatures verifier = .ok tc) :
    tc.verify verifier signatures = .ok () := by
  have h := hinv.partialTc partialTc hsome
  obtain ⟨hkept, hepoch, hround⟩ := h.timeout
  obtain ⟨htimeout, -, hlength, hbits, hsigners, hrounds, hpairs⟩ :=
    partialTc.aggregateSignatures_eq_ok hsub haggregate
  have hne : tc.signaturesWithRounds.rounds ≠ [] := fun hnil ↦ by
    have hmem := hrounds.mem_iff.mpr h.hqcRound_mem
    rw [hnil] at hmem
    cases hmem
  rw [TwoChainTimeoutCertificate.verify_eq_ok_iff,
    ValidatorVerifier.verifyAggregateSignatures_eq_ok_iff, hsigners, List.max?_eq_some_iff,
    TwoChainTimeoutCertificate.highestHqcRound, htimeout]
  refine ⟨htimeout ▸ hkept, ⟨hbits, hquorum, fun hnil ↦ hne ?_, ?_, fun signed hsigned ↦ ?_⟩,
    hrounds.mem_iff.mpr h.hqcRound_mem, fun hqcRound hmem ↦ ?_⟩
  · rw [← List.length_eq_zero_iff, ← hlength, hnil, List.length_nil]
  · rw [TwoChainTimeoutCertificate.timeoutMessages, List.length_map,
      AggregateSignatureWithRounds.getVotersAndRounds, List.length_zip, hlength, Nat.min_self]
  · rw [TwoChainTimeoutCertificate.timeoutMessages, AggregateSignatureWithRounds.getVotersAndRounds,
      zip_map_zip] at hsigned
    obtain ⟨entry, hentry, rfl⟩ := List.mem_map.mp hsigned
    obtain ⟨stored, timeout, hstored, htimeoutVote, hhqc⟩ := h.timeoutVoted entry (hpairs entry hentry)
    obtain ⟨hauthor, hverified⟩ := hinv.stored entry.1 stored hstored
    have hsignedTimeout := (hverified.twoChainTimeout htimeoutVote).2
    rw [hauthor, hhqc, ← hepoch, ← hround, ← htimeout] at hsignedTimeout
    exact hsignedTimeout
  · obtain ⟨entry, hentry, rfl⟩ := List.mem_map.mp (hrounds.mem_iff.mp hmem)
    exact h.le_hqcRound entry hentry

end Invariant

/-- `PendingVotes` only forms valid certificates. After any sequence of verified votes of one
epoch and round, the next call of `insert_vote` leaves every author recorded under one ledger
info at most; the bitmask of a QC it returns reads back as validators holding a quorum, each of
whom voted for the QC's ledger info and signed it; a timeout certificate it returns verifies, has
as many signers in its bitmask as rounds, lists each signer once, and pairs each signer with the
hqc round of the timeout it voted. -/
theorem insertVote_certificates_valid {verifier : ValidatorVerifier V}
    {signatures : List (V × SignedMessage ι)} {epoch round : Nat} (inputs : List (Bool × Vote V ι))
    (hinputs : ∀ input ∈ inputs, input.2.VerifiedFor verifier signatures epoch round)
    (aggregateNow : Bool) (vote : Vote V ι)
    (hvote : vote.VerifiedFor verifier signatures epoch round) :
    let call := (insertVotes verifier inputs).insertVote verifier aggregateNow vote
    (∀ author ledgerInfo ledgerInfo', author ∈ call.1.liDigestToVotes ledgerInfo →
        author ∈ call.1.liDigestToVotes ledgerInfo' → ledgerInfo = ledgerInfo') ∧
      (∀ qc, call.2 = .newQuorumCertificate qc →
        verifier.quorumVotingPower ≤
          verifier.power (qc.signatures.getSignersAddresses verifier.validatorInfos).toFinset ∧
          ∀ signer ∈ qc.signatures.getSignersAddresses verifier.validatorInfos, ∃ signed,
            call.1.authorToVote signer = some signed ∧ signed.ledgerInfo = qc.ledgerInfo ∧
              (signer, .ledgerInfo qc.ledgerInfo) ∈ signatures) ∧
      (∀ tc, call.2 = .new2ChainTimeoutCertificate tc →
        tc.verify verifier signatures = .ok () ∧
          tc.signaturesWithRounds.sig.getNumVoters = tc.signaturesWithRounds.rounds.length ∧
          ((tc.signaturesWithRounds.getVotersAndRounds verifier.validatorInfos).map Prod.fst).Nodup ∧
          ∀ voter ∈ tc.signaturesWithRounds.getVotersAndRounds verifier.validatorInfos,
            ∃ signed timeout, call.1.authorToVote voter.1 = some signed ∧
              signed.twoChainTimeout = some timeout ∧ timeout.hqcRound = voter.2) := by
  intro call
  have hinv : Inv verifier signatures epoch round call.1 :=
    (inv_insertVotes inputs hinputs).insertVote hvote aggregateNow
  refine ⟨fun _ _ _ ↦ hinv.eq_of_mem_liDigestToVotes, fun qc hqc ↦ ?_, fun tc htc ↦ ?_⟩
  · obtain ⟨hsigners, hquorum⟩ := insertVote_newQuorumCertificate hqc
    refine ⟨hquorum, fun signer hsigner ↦ ?_⟩
    exact hinv.voted_of_mem_liDigestToVotes ((hsigners signer).mp hsigner)
  · obtain ⟨partialTc, hsome, hsub, hquorum, haggregate⟩ := insertVote_new2ChainTimeoutCertificate htc
    obtain ⟨-, hnumVoters, hlength, -, -, -, hpairs⟩ :=
      partialTc.aggregateSignatures_eq_ok hsub haggregate
    refine ⟨hinv.verify_of_partialTc hsome hsub hquorum haggregate, hnumVoters, ?_,
      fun voter hvoter ↦ (hinv.partialTc partialTc hsome).timeoutVoted voter (hpairs voter hvoter)⟩
    rw [AggregateSignatureWithRounds.getVotersAndRounds, List.map_fst_zip hlength.le]
    exact (tc.signaturesWithRounds.sig.getSignersAddresses_sublist _).nodup verifier.nodup

/-- Four validators of one vote each, listed from `13` down to `10`: validator `10` has index 3. -/
def fourValidators : ValidatorVerifier Nat := ⟨[13, 12, 11, 10], fun _ ↦ 1, by decide⟩

/-- The QC on block `5` of round 1, signed by validators `10`, `11` and `12`, of indices 3, 2
and 1. -/
def roundOneQc : QuorumCert Nat :=
  ⟨⟨⟨1, 1, 5⟩, ⟨1, 0, 4⟩⟩, ⟨none, some ⟨⟨1, 1, 5⟩, ⟨1, 0, 4⟩⟩⟩, ⟨{1, 2, 3}⟩⟩

/-- The QC on block `6` of round 2, child of block `5`, signed by the same validators. -/
def roundTwoQc : QuorumCert Nat :=
  ⟨⟨⟨1, 2, 6⟩, ⟨1, 1, 5⟩⟩, ⟨none, some ⟨⟨1, 2, 6⟩, ⟨1, 1, 5⟩⟩⟩, ⟨{1, 2, 3}⟩⟩

/-- Validator `author` votes for a block `20 + author` of its own in round 3 and times out with
`qc`. -/
def timeoutVote (author : Nat) (qc : QuorumCert Nat) : Vote Nat Nat :=
  ⟨⟨⟨1, 3, 20 + author⟩, ⟨1, 2, 6⟩⟩, author, ⟨none, some ⟨⟨1, 3, 20 + author⟩, ⟨1, 2, 6⟩⟩⟩,
    some ⟨1, 3, qc⟩⟩

/-- What validators `10`, `11` and `12` signed: the two QCs' ledger infos, their votes, and their
timeouts, `12` with the hqc round 2 and the others with 1. -/
def timeoutSignatures : List (Nat × SignedMessage Nat) :=
  [10, 11, 12].flatMap fun author ↦
    [(author, .ledgerInfo roundOneQc.ledgerInfo), (author, .ledgerInfo roundTwoQc.ledgerInfo),
      (author, .ledgerInfo (timeoutVote author roundOneQc).ledgerInfo),
      (author, .timeout ⟨1, 3, if author = 12 then 2 else 1⟩)]

/-- Three of four validators time out on different blocks of round 3, `10` and `11` with the QC
of round 1 and `12` with that of round 2: no QC forms, the second vote is echoed, and the third
forms the timeout certificate. Its rounds follow the indices, `12` first, not the order the
votes came in. -/
theorem insertVote_certificates_valid_three_timeouts :
    (∀ input ∈ [(true, timeoutVote 10 roundOneQc), (true, timeoutVote 11 roundOneQc)],
        input.2.VerifiedFor fourValidators timeoutSignatures 1 3) ∧
      (timeoutVote 12 roundTwoQc).VerifiedFor fourValidators timeoutSignatures 1 3 ∧
      let call := (insertVotes fourValidators
          [(true, timeoutVote 10 roundOneQc), (true, timeoutVote 11 roundOneQc)])
        |>.insertVote fourValidators true (timeoutVote 12 roundTwoQc)
      call.2 = .new2ChainTimeoutCertificate ⟨⟨1, 3, roundTwoQc⟩, ⟨⟨{1, 2, 3}⟩, [2, 1, 1]⟩⟩ ∧
      (∀ author ledgerInfo ledgerInfo', author ∈ call.1.liDigestToVotes ledgerInfo →
          author ∈ call.1.liDigestToVotes ledgerInfo' → ledgerInfo = ledgerInfo') ∧
        (∀ qc, call.2 = .newQuorumCertificate qc →
          fourValidators.quorumVotingPower ≤ fourValidators.power
            (qc.signatures.getSignersAddresses fourValidators.validatorInfos).toFinset ∧
            ∀ signer ∈ qc.signatures.getSignersAddresses fourValidators.validatorInfos,
              ∃ signed, call.1.authorToVote signer = some signed ∧
                signed.ledgerInfo = qc.ledgerInfo ∧
                  (signer, SignedMessage.ledgerInfo qc.ledgerInfo) ∈ timeoutSignatures) ∧
        (∀ tc, call.2 = .new2ChainTimeoutCertificate tc →
          tc.verify fourValidators timeoutSignatures = .ok () ∧
            tc.signaturesWithRounds.sig.getNumVoters = tc.signaturesWithRounds.rounds.length ∧
            ((tc.signaturesWithRounds.getVotersAndRounds fourValidators.validatorInfos).map
              Prod.fst).Nodup ∧
            ∀ voter ∈ tc.signaturesWithRounds.getVotersAndRounds fourValidators.validatorInfos,
              ∃ signed timeout, call.1.authorToVote voter.1 = some signed ∧
                signed.twoChainTimeout = some timeout ∧ timeout.hqcRound = voter.2) := by
  have hinputs : ∀ input ∈ [(true, timeoutVote 10 roundOneQc), (true, timeoutVote 11 roundOneQc)],
      input.2.VerifiedFor fourValidators timeoutSignatures 1 3 := by decide
  have hvote : (timeoutVote 12 roundTwoQc).VerifiedFor fourValidators timeoutSignatures 1 3 := by
    decide
  exact ⟨hinputs, hvote, by decide,
    insertVote_certificates_valid
      [(true, timeoutVote 10 roundOneQc), (true, timeoutVote 11 roundOneQc)] hinputs true
      (timeoutVote 12 roundTwoQc) hvote⟩

end PendingVotes

end AptosCore.Consensus
