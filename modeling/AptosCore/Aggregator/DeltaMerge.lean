import AptosCore.Aggregator.DeltaChangeSet

/-!
# Merging deltas is composing them

A well-formed `DeltaOp` denotes a partial map on aggregator values: it adds its update to every
starting value its history accepts (`DeltaOp.denote`). This module shows that `apply_to`
computes that map, and that `create_merged_delta` of two well-formed operations with one limit
denotes their composition.

Each field of the merged history comes from one offset step, and each step is correct for a whole
class of conditions on the starting value: for a failure bound, any condition closed upwards that
holds above `max_value` and fails below zero; for an achieved bound, any condition closed
downwards that holds below zero and fails above `max_value`. The four conditions of
`DeltaHistory.ValidOn` are instances of these two classes, one per field.
-/

namespace AptosCore.Aggregator

/-! ## Well-formed operations -/

/-- Bounds on a history: every recorded delta within the limit, and each failure beyond the
success on its side. -/
structure DeltaHistory.WellFormed (history : DeltaHistory) (maxValue : Nat) : Prop where
  maxAchieved_le : history.maxAchievedPositiveDelta ≤ maxValue
  minAchieved_le : history.minAchievedNegativeDelta ≤ maxValue
  minOverflow_le : ∀ delta ∈ history.minOverflowPositiveDelta, delta ≤ maxValue
  maxUnderflow_le : ∀ delta ∈ history.maxUnderflowNegativeDelta, delta ≤ maxValue
  maxAchieved_lt : ∀ delta ∈ history.minOverflowPositiveDelta,
    history.maxAchievedPositiveDelta < delta
  minAchieved_lt : ∀ delta ∈ history.maxUnderflowNegativeDelta,
    history.minAchievedNegativeDelta < delta

/-- A well-formed operation: a well-formed history that has seen the update itself. -/
structure DeltaOp.WellFormed (op : DeltaOp) : Prop where
  positive_le : ∀ value, op.update = .positive value →
    value ≤ op.history.maxAchievedPositiveDelta
  negative_le : ∀ value, op.update = .negative value →
    value ≤ op.history.minAchievedNegativeDelta
  history : op.history.WellFormed op.maxValue

instance (history : DeltaHistory) (maxValue : Nat) : Decidable (history.WellFormed maxValue) :=
  decidable_of_iff
    (history.maxAchievedPositiveDelta ≤ maxValue ∧ history.minAchievedNegativeDelta ≤ maxValue ∧
      (∀ delta ∈ history.minOverflowPositiveDelta, delta ≤ maxValue) ∧
      (∀ delta ∈ history.maxUnderflowNegativeDelta, delta ≤ maxValue) ∧
      (∀ delta ∈ history.minOverflowPositiveDelta, history.maxAchievedPositiveDelta < delta) ∧
      ∀ delta ∈ history.maxUnderflowNegativeDelta, history.minAchievedNegativeDelta < delta)
    ⟨fun ⟨h1, h2, h3, h4, h5, h6⟩ ↦ ⟨h1, h2, h3, h4, h5, h6⟩,
      fun ⟨h1, h2, h3, h4, h5, h6⟩ ↦ ⟨h1, h2, h3, h4, h5, h6⟩⟩

/-- The update condition of a well-formed operation, on the update as an integer. -/
theorem DeltaOp.wellFormed_update_iff (op : DeltaOp) :
    ((∀ value, op.update = .positive value → value ≤ op.history.maxAchievedPositiveDelta) ∧
      ∀ value, op.update = .negative value → value ≤ op.history.minAchievedNegativeDelta) ↔
      op.update.toInt ≤ op.history.maxAchievedPositiveDelta ∧
        -op.update.toInt ≤ op.history.minAchievedNegativeDelta := by
  cases op.update with
  | positive value => simp
  | negative value => simp

instance (op : DeltaOp) : Decidable op.WellFormed :=
  decidable_of_iff
    ((op.update.toInt ≤ op.history.maxAchievedPositiveDelta ∧
        -op.update.toInt ≤ op.history.minAchievedNegativeDelta) ∧
      op.history.WellFormed op.maxValue)
    ⟨fun ⟨hupdate, hhistory⟩ ↦
      ⟨(op.wellFormed_update_iff.mpr hupdate).1, (op.wellFormed_update_iff.mpr hupdate).2,
        hhistory⟩,
      fun hwf ↦ ⟨op.wellFormed_update_iff.mp ⟨hwf.positive_le, hwf.negative_le⟩, hwf.history⟩⟩

theorem DeltaOp.WellFormed.toInt_le {op : DeltaOp} (hwf : op.WellFormed) :
    op.update.toInt ≤ op.history.maxAchievedPositiveDelta :=
  ((op.wellFormed_update_iff).mp ⟨hwf.positive_le, hwf.negative_le⟩).1

theorem DeltaOp.WellFormed.neg_toInt_le {op : DeltaOp} (hwf : op.WellFormed) :
    -op.update.toInt ≤ op.history.minAchievedNegativeDelta :=
  ((op.wellFormed_update_iff).mp ⟨hwf.positive_le, hwf.negative_le⟩).2

/-! ## The offset steps -/

namespace DeltaHistory

section OffsetSteps

variable {maxValue : Nat} {P : Int → Prop} {Q R : Nat → Prop}

/-- Shifting a failure bound by `delta` and merging it is correct for every condition `P` closed
upwards that holds above `max_value` and fails below zero: the step succeeds when the shifted
bound satisfies `P`, and then the merged bound satisfies `P` exactly when both bounds do. `Q`
and `R` are `P` read on a bound and on a shifted bound. -/
theorem offsetAndMergeMinOverflow_correct (delta : SignedU128) {minOverflow : Option Nat}
    (prevMinOverflow : Option Nat) (hQ : ∀ n : Nat, Q n ↔ P n)
    (hR : ∀ n : Nat, R n ↔ P (n + delta.toInt))
    (hup : ∀ a b : Int, a ≤ b → P a → P b) (habove : ∀ a : Int, maxValue < a → P a)
    (hbelow : ∀ a : Int, a < 0 → ¬ P a) (hbound : ∀ o ∈ minOverflow, o ≤ maxValue) :
    ((∀ o ∈ minOverflow, R o) →
        ∃ merged, offsetAndMergeMinOverflow minOverflow delta prevMinOverflow ⟨maxValue⟩ =
          .ok merged) ∧
      ∀ merged, offsetAndMergeMinOverflow minOverflow delta prevMinOverflow ⟨maxValue⟩ =
          .ok merged →
        ((∀ o ∈ merged, Q o) ↔ (∀ o ∈ prevMinOverflow, Q o) ∧ ∀ o ∈ minOverflow, R o) := by
  rw [offsetAndMergeMinOverflow_spec hbound]
  cases minOverflow with
  | none =>
    refine ⟨fun _ ↦ ⟨_, rfl⟩, ?_⟩
    rintro merged ⟨⟩
    simp
  | some overflow =>
    simp only
    by_cases hneg : (overflow : Int) + delta.toInt < 0
    · have hunsat : ¬ R overflow := fun hR' ↦ hbelow _ hneg ((hR overflow).mp hR')
      simp only [if_pos hneg]
      exact ⟨fun hsat ↦ absurd (hsat overflow rfl) hunsat, fun _ hmerge ↦ by cases hmerge⟩
    · simp only [if_neg hneg]
      by_cases hmax : (overflow : Int) + delta.toInt ≤ maxValue
      · simp only [if_pos hmax]
        refine ⟨fun _ ↦ ⟨_, rfl⟩, ?_⟩
        rintro merged ⟨⟩
        have hQup : ∀ x y : Nat, x ≤ y → Q x → Q y := fun x y hxy hx ↦
          (hQ y).mpr (hup _ _ (by exact_mod_cast hxy) ((hQ x).mp hx))
        have hshift : Q ((overflow : Int) + delta.toInt).toNat ↔ R overflow := by
          rw [hQ, hR, Int.toNat_of_nonneg (by omega)]
        rw [Rust.forall_mem_merge_min_iff hQup]
        simp [hshift, and_comm]
      · have hsat : R overflow := (hR overflow).mpr (habove _ (by omega))
        simp only [if_neg hmax]
        refine ⟨fun _ ↦ ⟨_, rfl⟩, ?_⟩
        rintro merged ⟨⟩
        simp [hsat]

theorem offsetAndMergeMinOverflow_le {delta : SignedU128}
    {minOverflow prevMinOverflow merged : Option Nat}
    (hbound : ∀ o ∈ minOverflow, o ≤ maxValue) (hprev : ∀ o ∈ prevMinOverflow, o ≤ maxValue)
    (hmerge : offsetAndMergeMinOverflow minOverflow delta prevMinOverflow ⟨maxValue⟩ =
      .ok merged) :
    ∀ o ∈ merged, o ≤ maxValue := by
  rw [offsetAndMergeMinOverflow_spec hbound] at hmerge
  cases minOverflow with
  | none =>
    cases hmerge
    exact hprev
  | some overflow =>
    simp only at hmerge
    by_cases hneg : (overflow : Int) + delta.toInt < 0
    · simp only [if_pos hneg] at hmerge
      cases hmerge
    · by_cases hmax : (overflow : Int) + delta.toInt ≤ maxValue
      · simp only [if_neg hneg, if_pos hmax, Except.ok.injEq] at hmerge
        subst hmerge
        rcases Rust.merge_min_eq_or (some ((overflow : Int) + delta.toInt).toNat)
          prevMinOverflow with hmerged | hmerged <;> rw [hmerged]
        · simp only [Option.mem_def, Option.some.injEq, forall_eq']
          omega
        · exact hprev
      · simp only [if_neg hneg, if_neg hmax, Except.ok.injEq] at hmerge
        subst hmerge
        exact hprev

/-- Shifting an achieved bound by `delta` and merging it is correct for every condition `P`
closed downwards that holds below zero and fails above `max_value`. -/
theorem offsetAndMergeMaxAchieved_correct (delta : SignedU128) {maxAchieved : Nat}
    (prevMaxAchieved : Nat) (hQ : ∀ n : Nat, Q n ↔ P n) (hR : ∀ n : Nat, R n ↔ P (n + delta.toInt))
    (hdown : ∀ a b : Int, a ≤ b → P b → P a) (hbelow : ∀ a : Int, a < 0 → P a)
    (habove : ∀ a : Int, maxValue < a → ¬ P a) (hbound : maxAchieved ≤ maxValue) :
    (R maxAchieved →
        ∃ merged, offsetAndMergeMaxAchieved maxAchieved delta prevMaxAchieved ⟨maxValue⟩ =
          .ok merged) ∧
      ∀ merged, offsetAndMergeMaxAchieved maxAchieved delta prevMaxAchieved ⟨maxValue⟩ =
          .ok merged →
        (Q merged ↔ Q prevMaxAchieved ∧ R maxAchieved) := by
  rw [offsetAndMergeMaxAchieved_spec hbound]
  by_cases hmax : (maxAchieved : Int) + delta.toInt ≤ maxValue
  · simp only [if_pos hmax]
    refine ⟨fun _ ↦ ⟨_, rfl⟩, ?_⟩
    rintro merged ⟨⟩
    rw [hQ, hQ, hR]
    by_cases hneg : (maxAchieved : Int) + delta.toInt < 0
    · have hzero : ((maxAchieved : Int) + delta.toInt).toNat = 0 := by omega
      rw [hzero, Nat.max_zero]
      exact ⟨fun h ↦ ⟨h, hbelow _ hneg⟩, fun h ↦ h.1⟩
    · have hshift : ((((maxAchieved : Int) + delta.toInt).toNat : Nat) : Int) =
          (maxAchieved : Int) + delta.toInt := Int.toNat_of_nonneg (by omega)
      rcases le_total prevMaxAchieved ((maxAchieved : Int) + delta.toInt).toNat with hle | hle
      · rw [max_eq_right hle, hshift]
        exact ⟨fun h ↦ ⟨hdown _ _ (by omega) h, h⟩, fun h ↦ h.2⟩
      · rw [max_eq_left hle]
        exact ⟨fun h ↦ ⟨h, hdown _ _ (by omega) h⟩, fun h ↦ h.1⟩
  · have hunsat : ¬ R maxAchieved := fun hR' ↦ habove _ (by omega) ((hR maxAchieved).mp hR')
    simp only [if_neg hmax]
    exact ⟨fun hsat ↦ absurd hsat hunsat, fun _ hmerge ↦ by cases hmerge⟩

/-- The merged achieved bound dominates both bounds it merges and stays within the limit. -/
theorem offsetAndMergeMaxAchieved_bounds {delta : SignedU128}
    {maxAchieved prevMaxAchieved merged : Nat}
    (hbound : maxAchieved ≤ maxValue)
    (hmerge : offsetAndMergeMaxAchieved maxAchieved delta prevMaxAchieved ⟨maxValue⟩ =
      .ok merged) :
    prevMaxAchieved ≤ merged ∧ (maxAchieved : Int) + delta.toInt ≤ merged ∧
      (prevMaxAchieved ≤ maxValue → merged ≤ maxValue) := by
  rw [offsetAndMergeMaxAchieved_spec hbound] at hmerge
  by_cases hmax : (maxAchieved : Int) + delta.toInt ≤ maxValue
  · simp only [if_pos hmax, Except.ok.injEq] at hmerge
    subst hmerge
    omega
  · simp only [if_neg hmax] at hmerge
    cases hmerge

end OffsetSteps

section Merge

variable {prev next : DeltaHistory} {delta : SignedU128} {maxValue base w : Nat}

/-- The history merge seen from one starting value `base` and the value `w` that `delta` makes
of it: the merge succeeds whenever `prev` accepts `base` and `next` accepts `w`, and a merged
history accepts `base` exactly when both do. -/
theorem offsetAndMergeHistory_correct (hnext : next.WellFormed maxValue) (hbase : base ≤ maxValue)
    (hshift : (w : Int) = base + delta.toInt) :
    (prev.ValidOn base maxValue → next.ValidOn w maxValue →
        ∃ merged, next.offsetAndMergeHistory delta prev maxValue = .ok merged) ∧
      ∀ merged, next.offsetAndMergeHistory delta prev maxValue = .ok merged →
        (merged.ValidOn base maxValue ↔ prev.ValidOn base maxValue ∧ next.ValidOn w maxValue) := by
  have hoverflow := offsetAndMergeMinOverflow_correct delta prev.minOverflowPositiveDelta
    (P := fun a ↦ (maxValue : Int) < base + a) (Q := fun n ↦ maxValue < base + n)
    (R := fun n ↦ maxValue < w + n) (fun n ↦ by omega) (fun n ↦ by omega)
    (fun a b hab h ↦ by omega) (fun a ha ↦ by omega) (fun a ha h ↦ by omega)
    hnext.minOverflow_le
  have hunderflow := offsetAndMergeMinOverflow_correct delta.minus prev.maxUnderflowNegativeDelta
    (P := fun a ↦ (base : Int) < a) (Q := fun n ↦ base < n) (R := fun n ↦ w < n)
    (fun n ↦ by omega) (fun n ↦ by rw [SignedU128.toInt_minus]; omega)
    (fun a b hab h ↦ by omega) (fun a ha ↦ by omega) (fun a ha h ↦ by omega)
    hnext.maxUnderflow_le
  have hachieved := offsetAndMergeMaxAchieved_correct delta prev.maxAchievedPositiveDelta
    (P := fun a ↦ (base : Int) + a ≤ maxValue) (Q := fun n ↦ base + n ≤ maxValue)
    (R := fun n ↦ w + n ≤ maxValue) (fun n ↦ by omega) (fun n ↦ by omega)
    (fun a b hab h ↦ by omega) (fun a ha ↦ by omega) (fun a ha h ↦ by omega)
    hnext.maxAchieved_le
  have hnegative := offsetAndMergeMaxAchieved_correct delta.minus prev.minAchievedNegativeDelta
    (P := fun a ↦ a ≤ (base : Int)) (Q := fun n ↦ n ≤ base) (R := fun n ↦ n ≤ w)
    (fun n ↦ by omega) (fun n ↦ by rw [SignedU128.toInt_minus]; omega)
    (fun a b hab h ↦ by omega) (fun a ha ↦ by omega) (fun a ha h ↦ by omega)
    hnext.minAchieved_le
  constructor
  · rintro ⟨hprevA, hprevB, hprevO, hprevU⟩ ⟨hnextA, hnextB, hnextO, hnextU⟩
    obtain ⟨O, hO⟩ := hoverflow.1 hnextO
    obtain ⟨U, hU⟩ := hunderflow.1 hnextU
    obtain ⟨A, hA⟩ := hachieved.1 hnextA
    obtain ⟨B, hB⟩ := hnegative.1 hnextB
    have hA' := (hachieved.2 A hA).mpr ⟨hprevA, hnextA⟩
    have hB' := (hnegative.2 B hB).mpr ⟨hprevB, hnextB⟩
    have hO' := (hoverflow.2 O hO).mpr ⟨hprevO, hnextO⟩
    have hU' := (hunderflow.2 U hU).mpr ⟨hprevU, hnextU⟩
    refine ⟨⟨A, B, O, U⟩, offsetAndMergeHistory_eq_ok_iff.mpr ⟨hO, hU, hA, hB, ?_, ?_⟩⟩
    · intro o (ho : o ∈ O)
      show A < o
      have := hO' o ho
      omega
    · intro u (hu : u ∈ U)
      show B < u
      have := hU' u hu
      omega
  · intro merged hmerge
    obtain ⟨hO, hU, hA, hB, -, -⟩ := offsetAndMergeHistory_eq_ok_iff.mp hmerge
    unfold ValidOn
    rw [hoverflow.2 _ hO, hunderflow.2 _ hU, hachieved.2 _ hA, hnegative.2 _ hB]
    constructor
    · rintro ⟨⟨hprevA, hnextA⟩, ⟨hprevB, hnextB⟩, ⟨hprevO, hnextO⟩, hprevU, hnextU⟩
      exact ⟨⟨hprevA, hprevB, hprevO, hprevU⟩, hnextA, hnextB, hnextO, hnextU⟩
    · rintro ⟨⟨hprevA, hprevB, hprevO, hprevU⟩, hnextA, hnextB, hnextO, hnextU⟩
      exact ⟨⟨hprevA, hnextA⟩, ⟨hprevB, hnextB⟩, ⟨hprevO, hnextO⟩, hprevU, hnextU⟩

end Merge

end DeltaHistory

/-! ## What an operation denotes -/

namespace DeltaOp

/-- The partial map an operation stands for: add the update to every starting value the history
accepts. -/
def denote (op : DeltaOp) (base : Nat) : Option Nat :=
  if op.history.ValidOn base op.maxValue then some (base + op.update.toInt).toNat else none

/-- `apply_to` on a well-formed operation never panics nor breaks a code invariant, and it
computes `denote`. -/
theorem applyTo_spec {op : DeltaOp} (hwf : op.WellFormed) (base : Nat) :
    ∃ result, op.applyTo base = some result ∧ NoCodeInvariant result ∧
      ∀ value, result = .ok value ↔ op.denote base = some value := by
  obtain ⟨validation, hvalidation, hvalid⟩ :=
    @DeltaHistory.validateAgainstBaseValue_spec op.history base op.maxValue
      hwf.history.minOverflow_le
  unfold applyTo mergeDataAndDelta denote
  rw [hvalidation, Option.map_some]
  refine ⟨_, rfl, ?_⟩
  cases validation with
  | error error =>
    have hinvalid : ¬ op.history.ValidOn base op.maxValue := fun h ↦ by
      cases hvalid.mpr h
    simp [hinvalid]
  | ok u =>
    obtain ⟨hachieved, hneg, -, -⟩ := hvalid.mp rfl
    have hvalidOn : op.history.ValidOn base op.maxValue := hvalid.mp rfl
    have hlow : ¬ (base : Int) + op.update.toInt < 0 := by
      have := hwf.neg_toInt_le
      omega
    have hhigh : (base : Int) + op.update.toInt ≤ op.maxValue := by
      have := hwf.toInt_le
      omega
    have hbase : base ≤ op.maxValue := by omega
    simp only [BoundedMath.unsignedAddDelta_spec ⟨op.maxValue⟩ hbase, hlow, hhigh, if_false,
      if_true, hvalidOn]
    simp [expectOk, Except.mapError]

theorem denote_eq_some_iff {op : DeltaOp} (hwf : op.WellFormed) {base value : Nat} :
    op.denote base = some value ↔
      op.history.ValidOn base op.maxValue ∧ (value : Int) = base + op.update.toInt := by
  unfold denote
  by_cases hvalid : op.history.ValidOn base op.maxValue
  · have hnonneg : 0 ≤ (base : Int) + op.update.toInt := by
      have := hwf.neg_toInt_le
      have := hvalid.2.1
      omega
    simp only [hvalid, if_true, Option.some.injEq, true_and]
    omega
  · simp [hvalid]

theorem applyTo_eq_ok_iff {op : DeltaOp} (hwf : op.WellFormed) {base value : Nat} :
    op.applyTo base = some (.ok value) ↔ op.denote base = some value := by
  obtain ⟨result, hresult, -, hdenote⟩ := applyTo_spec hwf base
  rw [hresult, Option.some.injEq, hdenote]

/-! ## Merging -/

variable {prev next merged : DeltaOp}

/-- The merged history has seen the sum of the two updates, and stays within the limit. -/
theorem offsetAndMergeHistory_sum_le (hprev : prev.WellFormed) (hnext : next.WellFormed)
    (hmax : prev.maxValue = next.maxValue) {history : DeltaHistory}
    (hhistory : next.history.offsetAndMergeHistory prev.update prev.history next.maxValue =
      .ok history) :
    prev.update.toInt + next.update.toInt ≤ history.maxAchievedPositiveDelta ∧
      -(prev.update.toInt + next.update.toInt) ≤ history.minAchievedNegativeDelta ∧
      history.maxAchievedPositiveDelta ≤ next.maxValue ∧
      history.minAchievedNegativeDelta ≤ next.maxValue := by
  obtain ⟨-, -, hA, hB, -, -⟩ := DeltaHistory.offsetAndMergeHistory_eq_ok_iff.mp hhistory
  obtain ⟨-, hAshift, hAmax⟩ :=
    DeltaHistory.offsetAndMergeMaxAchieved_bounds hnext.history.maxAchieved_le hA
  obtain ⟨-, hBshift, hBmax⟩ :=
    DeltaHistory.offsetAndMergeMaxAchieved_bounds hnext.history.minAchieved_le hB
  have hprevA : prev.history.maxAchievedPositiveDelta ≤ next.maxValue :=
    hmax ▸ hprev.history.maxAchieved_le
  have hprevB : prev.history.minAchievedNegativeDelta ≤ next.maxValue :=
    hmax ▸ hprev.history.minAchieved_le
  refine ⟨?_, ?_, hAmax hprevA, hBmax hprevB⟩
  · calc prev.update.toInt + next.update.toInt
        ≤ next.history.maxAchievedPositiveDelta + prev.update.toInt := by
          have := hnext.toInt_le
          omega
      _ ≤ history.maxAchievedPositiveDelta := hAshift
  · calc -(prev.update.toInt + next.update.toInt)
        ≤ next.history.minAchievedNegativeDelta + prev.update.minus.toInt := by
          have := hnext.neg_toInt_le
          rw [SignedU128.toInt_minus]
          omega
      _ ≤ history.minAchievedNegativeDelta := hBshift

/-- With equal limits, a successful history merge makes the whole merge succeed: the sum of the
updates cannot leave `[-max_value, max_value]`, so the `expect_ok` is never reached with an
error. -/
theorem createMergedDelta_isOk (hmax : prev.maxValue = next.maxValue) (hprev : prev.WellFormed)
    (hnext : next.WellFormed) {history : DeltaHistory}
    (hhistory : next.history.offsetAndMergeHistory prev.update prev.history next.maxValue =
      .ok history) :
    ∃ merged, createMergedDelta prev next = .ok merged := by
  obtain ⟨hsumA, hsumB, hAmax, hBmax⟩ := offsetAndMergeHistory_sum_le hprev hnext hmax hhistory
  obtain ⟨sum, hsum⟩ := BoundedMath.signedAdd_isOk ⟨next.maxValue⟩ prev.update
    next.update (by show -(next.maxValue : Int) ≤ _; omega)
    (by show _ ≤ (next.maxValue : Int); omega)
  exact ⟨⟨history, next.maxValue, sum⟩, createMergedDelta_eq_ok_iff.mpr ⟨hmax, hhistory, hsum, rfl⟩⟩

theorem createMergedDelta_wellFormed (hprev : prev.WellFormed) (hnext : next.WellFormed)
    (hmerge : createMergedDelta prev next = .ok merged) : merged.WellFormed := by
  obtain ⟨hmax, hhistory, hupdate, hmaxValue⟩ := createMergedDelta_eq_ok_iff.mp hmerge
  obtain ⟨hO, hU, -, -, hoverlapO, hoverlapU⟩ :=
    DeltaHistory.offsetAndMergeHistory_eq_ok_iff.mp hhistory
  obtain ⟨hsumA, hsumB, hAmax, hBmax⟩ := offsetAndMergeHistory_sum_le hprev hnext hmax hhistory
  have hsum := BoundedMath.signedAdd_toInt _ hupdate
  have hupdate' := merged.wellFormed_update_iff.mpr ⟨hsum ▸ hsumA, hsum ▸ hsumB⟩
  refine ⟨hupdate'.1, hupdate'.2, ?_⟩
  rw [hmaxValue]
  exact ⟨hAmax, hBmax,
    DeltaHistory.offsetAndMergeMinOverflow_le hnext.history.minOverflow_le
      (hmax ▸ hprev.history.minOverflow_le) hO,
    DeltaHistory.offsetAndMergeMinOverflow_le hnext.history.maxUnderflow_le
      (hmax ▸ hprev.history.maxUnderflow_le) hU,
    hoverlapO, hoverlapU⟩

/-- The merged operation denotes the composition of the two it merges. -/
theorem createMergedDelta_denote (hprev : prev.WellFormed) (hnext : next.WellFormed)
    (hmerge : createMergedDelta prev next = .ok merged) (base : Nat) :
    merged.denote base = (prev.denote base).bind next.denote := by
  obtain ⟨hmax, hhistory, hupdate, hmaxValue⟩ := createMergedDelta_eq_ok_iff.mp hmerge
  have hsum := BoundedMath.signedAdd_toInt _ hupdate
  obtain ⟨-, -, -, hB, -, -⟩ := DeltaHistory.offsetAndMergeHistory_eq_ok_iff.mp hhistory
  obtain ⟨hprevB, -, -⟩ :=
    DeltaHistory.offsetAndMergeMaxAchieved_bounds hnext.history.minAchieved_le hB
  have hprevUpdate := hprev.neg_toInt_le
  apply Option.ext
  intro value
  rw [Option.bind_eq_some_iff, denote_eq_some_iff (createMergedDelta_wellFormed hprev hnext hmerge)]
  simp only [denote_eq_some_iff hprev, denote_eq_some_iff hnext, hmaxValue, hmax]
  constructor
  · rintro ⟨hvalid, hvalue⟩
    have hbase : base ≤ next.maxValue := by
      have := hvalid.1
      omega
    have hnonneg : 0 ≤ (base : Int) + prev.update.toInt := by
      have := hvalid.2.1
      omega
    have hshift : ((((base : Int) + prev.update.toInt).toNat : Nat) : Int) =
        base + prev.update.toInt := Int.toNat_of_nonneg hnonneg
    obtain ⟨hprevValid, hnextValid⟩ :=
      ((DeltaHistory.offsetAndMergeHistory_correct hnext.history hbase hshift).2 _ hhistory).mp
        hvalid
    refine ⟨_, ⟨hprevValid, hshift⟩, hnextValid, ?_⟩
    rw [hvalue, hsum, hshift]
    omega
  · rintro ⟨mid, ⟨hprevValid, hmid⟩, hnextValid, hvalue⟩
    have hbase : base ≤ next.maxValue := by
      have := hprevValid.1
      omega
    refine ⟨((DeltaHistory.offsetAndMergeHistory_correct hnext.history hbase hmid).2 _
      hhistory).mpr ⟨hprevValid, hnextValid⟩, ?_⟩
    rw [hvalue, hmid, hsum]
    omega

/-- Merging two well-formed operations with one limit is a homomorphism of `apply_to`: neither
`apply_to` nor the merge panics or breaks a code invariant; a merged operation is well-formed
and applies exactly as the two applied one after the other; and a speculative merge error means
that no starting value goes through both. -/
theorem createMergedDelta_apply_homomorphism (hmax : prev.maxValue = next.maxValue)
    (hprev : prev.WellFormed) (hnext : next.WellFormed) :
    (∀ base, ∃ result, prev.applyTo base = some result ∧ NoCodeInvariant result) ∧
      (∀ base, ∃ result, next.applyTo base = some result ∧ NoCodeInvariant result) ∧
      NoCodeInvariant (createMergedDelta prev next) ∧
      (∀ merged, createMergedDelta prev next = .ok merged →
        merged.WellFormed ∧
          (∀ base, ∃ result, merged.applyTo base = some result ∧ NoCodeInvariant result) ∧
          ∀ base value, merged.applyTo base = some (.ok value) ↔
            ∃ mid, prev.applyTo base = some (.ok mid) ∧ next.applyTo mid = some (.ok value)) ∧
      ∀ error, createMergedDelta prev next = .error (.or error) →
        ∀ base mid value,
          ¬ (prev.applyTo base = some (.ok mid) ∧ next.applyTo mid = some (.ok value)) := by
  have hnoPanic {op : DeltaOp} (hwf : op.WellFormed) (base : Nat) :
      ∃ result, op.applyTo base = some result ∧ NoCodeInvariant result := by
    obtain ⟨result, hresult, hno, -⟩ := applyTo_spec hwf base
    exact ⟨result, hresult, hno⟩
  refine ⟨hnoPanic hprev, hnoPanic hnext, ?_, ?_, ?_⟩
  · cases hhistory : next.history.offsetAndMergeHistory prev.update prev.history next.maxValue with
    | error error =>
      rw [createMergedDelta_eq_error_of_history hmax hhistory]
      trivial
    | ok history =>
      obtain ⟨merged, hmerged⟩ := createMergedDelta_isOk hmax hprev hnext hhistory
      rw [hmerged]
      trivial
  · intro merged hmerge
    have hmergedWf := createMergedDelta_wellFormed hprev hnext hmerge
    refine ⟨hmergedWf, hnoPanic hmergedWf, fun base value ↦ ?_⟩
    rw [applyTo_eq_ok_iff hmergedWf, createMergedDelta_denote hprev hnext hmerge,
      Option.bind_eq_some_iff]
    simp only [applyTo_eq_ok_iff hprev, applyTo_eq_ok_iff hnext]
  · rintro error herror base mid value ⟨hprevApply, hnextApply⟩
    obtain ⟨hprevValid, hmid⟩ :=
      (denote_eq_some_iff hprev).mp ((applyTo_eq_ok_iff hprev).mp hprevApply)
    obtain ⟨hnextValid, -⟩ :=
      (denote_eq_some_iff hnext).mp ((applyTo_eq_ok_iff hnext).mp hnextApply)
    rw [hmax] at hprevValid
    have hbase : base ≤ next.maxValue := by
      have := hprevValid.1
      omega
    obtain ⟨history, hhistory⟩ :=
      (DeltaHistory.offsetAndMergeHistory_correct hnext.history hbase hmid).1 hprevValid hnextValid
    obtain ⟨merged, hmerged⟩ := createMergedDelta_isOk hmax hprev hnext hhistory
    rw [hmerged] at herror
    cases herror

/-- The homomorphism for `+24` followed by `-23` under the limit `100`. -/
theorem createMergedDelta_apply_homomorphism_add_sub :
    ((deltaAdd 24 100).maxValue = (deltaSub 23 100).maxValue ∧ (deltaAdd 24 100).WellFormed ∧
        (deltaSub 23 100).WellFormed) ∧
      (∀ base, ∃ result, (deltaAdd 24 100).applyTo base = some result ∧
        NoCodeInvariant result) ∧
      (∀ base, ∃ result, (deltaSub 23 100).applyTo base = some result ∧
        NoCodeInvariant result) ∧
      NoCodeInvariant (createMergedDelta (deltaAdd 24 100) (deltaSub 23 100)) ∧
      (∀ merged, createMergedDelta (deltaAdd 24 100) (deltaSub 23 100) = .ok merged →
        merged.WellFormed ∧
          (∀ base, ∃ result, merged.applyTo base = some result ∧ NoCodeInvariant result) ∧
          ∀ base value, merged.applyTo base = some (.ok value) ↔
            ∃ mid, (deltaAdd 24 100).applyTo base = some (.ok mid) ∧
              (deltaSub 23 100).applyTo mid = some (.ok value)) ∧
      ∀ error, createMergedDelta (deltaAdd 24 100) (deltaSub 23 100) = .error (.or error) →
        ∀ base mid value,
          ¬ ((deltaAdd 24 100).applyTo base = some (.ok mid) ∧
            (deltaSub 23 100).applyTo mid = some (.ok value)) :=
  ⟨⟨rfl, by decide, by decide⟩,
    createMergedDelta_apply_homomorphism rfl (by decide) (by decide)⟩

end DeltaOp

end AptosCore.Aggregator
