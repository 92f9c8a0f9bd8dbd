import AptosCore.Mutator.ForLoop

/-!
# What the mutants of a function are

Every entry a mutant produces is a one-range edit of the source that the entry reports
faithfully: `Mutation.changed_place` is the edited byte range, `old_value` the text it held and
`new_value` the text put in its place (`MutationOp.apply_isEditOf`). Hence two entries that edit
one range coincide exactly when they write the same text, and an entry reproduces the source
exactly when it writes back the old text. `Binary` and `Literal` drop that last case by filtering
their candidates, `BreakContinue` because none of its candidates is the keyword in place, and
`Unary` on every node that starts with its operator (`apply_breakContinue_unary_ne_source`). The
operators do not compare candidates with each other, so duplicates are possible, and a literal
`1 : u8` already gives two equal entries (`literal_u8_one_duplicate_mutants`).
-/

namespace AptosCore.Mutator

open AptosCore.Text

/-- An entry is an edit of `source` when its old value is the text of its changed range and
replacing that range by its new value gives its mutated source. -/
def MutantInfo.IsEditOf (source : List Char) (info : MutantInfo) : Prop :=
  slice? source info.mutation.changedPlace.start info.mutation.changedPlace.stop =
      some info.mutation.oldValue ∧
    replaceRange? source info.mutation.changedPlace.start info.mutation.changedPlace.stop
      info.mutation.newValue = some info.mutatedSource

/-- The operators whose candidate list drops the text already in place. -/
def MutationOp.filtersCurrentText : MutationOp → Bool
  | .binary .. | .literal .. => true
  | _ => false

/-- The shared tail: every entry edits `start..stop`, reports the sliced text as old value and
takes its new value from the candidates. -/
theorem mutateRange_spec {source curOp operatorName : List Char} {start stop : Nat}
    {ops : List (List Char)} {infos : List MutantInfo}
    (hslice : slice? source start stop = some curOp)
    (hmutate : mutateRange source start stop operatorName curOp ops = some infos) :
    ∀ info ∈ infos, info.IsEditOf source ∧ info.mutation.changedPlace = ⟨start, stop⟩ ∧
      info.mutation.oldValue = curOp ∧ info.mutation.newValue ∈ ops := by
  induction ops generalizing infos with
  | nil =>
    simp only [mutateRange, List.mapM_nil, Option.pure_def, Option.some.injEq] at hmutate
    subst hmutate
    simp
  | cons op rest ih =>
    unfold mutateRange at hmutate
    rw [List.mapM_cons] at hmutate
    simp only [Option.bind_eq_bind, Option.bind_eq_some_iff, Option.pure_def,
      Option.some.injEq] at hmutate
    obtain ⟨info, ⟨mutated, hreplace, range, hrange, rfl⟩, others, hothers, rfl⟩ := hmutate
    have hle : start ≤ stop := le_of_slice?_eq_some hslice
    simp only [Range.new?, hle, if_true, Option.some.injEq] at hrange
    subst hrange
    intro entry hentry
    rcases List.mem_cons.mp hentry with rfl | hentry
    · exact ⟨⟨hslice, hreplace⟩, rfl, rfl, List.mem_cons_self⟩
    · obtain ⟨hedit, hplace, hold, hnew⟩ := ih hothers entry hentry
      exact ⟨hedit, hplace, hold, List.mem_cons_of_mem _ hnew⟩

/-- An operator applied to a source that does not hold enough operands produces no entry. -/
theorem mutateRange_nil_of_slice (source : List Char) (operatorName : List Char) :
    slice? source 0 0 = some [] ∧ mutateRange source 0 0 operatorName [] [] = some [] :=
  ⟨slice?_eq_some_iff.mpr ⟨[], source, by simp, rfl, rfl⟩, rfl⟩

/-- What an application can be: one call of the shared tail on a range the operator sliced,
with candidates that exclude the current text when the operator filters it. -/
theorem MutationOp.apply_eq_some {operator : MutationOp} {source : List Char}
    {infos : List MutantInfo} (happly : operator.apply source = some infos) :
    ∃ start stop operatorName curOp ops, slice? source start stop = some curOp ∧
      mutateRange source start stop operatorName curOp ops = some infos ∧
      (operator.filtersCurrentText = true → ∀ op ∈ ops, op ≠ curOp) := by
  have hempty := mutateRange_nil_of_slice source []
  cases operator with
  | binary operation loc exps =>
    rw [MutationOp.apply_binary] at happly
    unfold binaryApply at happly
    split at happly
    · simp only [Option.bind_eq_bind, Option.bind_eq_some_iff] at happly
      obtain ⟨⟨start, stop⟩, -, curOp, hslice, hmutate⟩ := happly
      refine ⟨start, stop, _, curOp, _, hslice, hmutate, fun _ op hop ↦ ?_⟩
      simpa using (List.mem_filter.mp hop).2
    · obtain rfl := Option.some.inj happly.symm
      exact ⟨0, 0, [], [], [], hempty.1, hempty.2, by simp⟩
  | binarySwap operation loc exps =>
    rw [MutationOp.apply_binarySwap] at happly
    unfold binarySwapApply at happly
    split at happly
    · obtain rfl := Option.some.inj happly.symm
      exact ⟨0, 0, [], [], [], hempty.1, hempty.2, by simp⟩
    · split at happly
      · simp only [Option.bind_eq_bind, Option.bind_eq_some_iff] at happly
        obtain ⟨_, -, _, -, curOp, hslice, _, -, _, -, hmutate⟩ := happly
        exact ⟨_, _, _, curOp, _, hslice, hmutate, fun hfilter ↦ nomatch hfilter⟩
      · obtain rfl := Option.some.inj happly.symm
        exact ⟨0, 0, [], [], [], hempty.1, hempty.2, by simp⟩
  | unary operation loc exps =>
    rw [MutationOp.apply_unary] at happly
    unfold unaryApply at happly
    split at happly
    · simp only [Option.bind_eq_bind, Option.bind_eq_some_iff] at happly
      obtain ⟨_, -, curOp, hslice, hmutate⟩ := happly
      exact ⟨_, _, _, curOp, _, hslice, hmutate, fun hfilter ↦ nomatch hfilter⟩
    · obtain rfl := Option.some.inj happly.symm
      exact ⟨0, 0, [], [], [], hempty.1, hempty.2, by simp⟩
  | literal value optype loc =>
    simp only [MutationOp.apply_literal, literalApply, Option.bind_eq_bind,
      Option.bind_eq_some_iff] at happly
    obtain ⟨curOp, hslice, ops, -, hmutate⟩ := happly
    refine ⟨_, _, _, curOp, _, hslice, hmutate, fun _ op hop ↦ ?_⟩
    simpa using (List.mem_filter.mp hop).2
  | ifElse cond ifexpr elseexpr =>
    simp only [MutationOp.apply_ifElse, ifElseApply, Option.bind_eq_bind,
      Option.bind_eq_some_iff] at happly
    obtain ⟨curOp, hslice, hmutate⟩ := happly
    exact ⟨_, _, _, curOp, _, hslice, hmutate, fun hfilter ↦ nomatch hfilter⟩
  | breakContinue loc =>
    simp only [MutationOp.apply_breakContinue, breakContinueApply, Option.bind_eq_bind,
      Option.bind_eq_some_iff] at happly
    obtain ⟨curOp, hslice, hmutate⟩ := happly
    exact ⟨_, _, _, curOp, _, hslice, hmutate, fun hfilter ↦ nomatch hfilter⟩
  | deleteStmt operation loc =>
    simp only [MutationOp.apply_deleteStmt, deleteStmtApply, Option.bind_eq_bind,
      Option.bind_eq_some_iff] at happly
    obtain ⟨curOp, hslice, hmutate⟩ := happly
    exact ⟨_, _, _, curOp, _, hslice, hmutate, fun hfilter ↦ nomatch hfilter⟩

/-- Every entry of every operator is an edit of the source it was applied to. -/
theorem MutationOp.apply_isEditOf {operator : MutationOp} {source : List Char}
    {infos : List MutantInfo} (happly : operator.apply source = some infos) :
    ∀ info ∈ infos, info.IsEditOf source := by
  obtain ⟨start, stop, operatorName, curOp, ops, hslice, hmutate, -⟩ :=
    MutationOp.apply_eq_some happly
  exact fun info hinfo ↦ (mutateRange_spec hslice hmutate info hinfo).1

/-- `Binary` and `Literal` never write back the text already in place. -/
theorem MutationOp.apply_newValue_ne {operator : MutationOp} {source : List Char}
    {infos : List MutantInfo} (hfilter : operator.filtersCurrentText = true)
    (happly : operator.apply source = some infos) :
    ∀ info ∈ infos, info.mutation.newValue ≠ info.mutation.oldValue := by
  obtain ⟨start, stop, operatorName, curOp, ops, hslice, hmutate, hops⟩ :=
    MutationOp.apply_eq_some happly
  intro info hinfo
  obtain ⟨-, -, hold, hnew⟩ := mutateRange_spec hslice hmutate info hinfo
  rw [hold]
  exact hops hfilter _ hnew

/-- `BreakContinue` turns `break` into `continue` and back, or deletes the statement: no candidate
is the text in place. -/
theorem ne_of_mem_breakContinueOps {curOp op : List Char} (hop : op ∈ breakContinueOps curOp) :
    op ≠ curOp := by
  unfold breakContinueOps at hop
  split_ifs at hop with hbreak hcontinue
  · subst hbreak
    rcases List.mem_pair.mp hop with rfl | rfl <;> decide
  · subst hcontinue
    rcases List.mem_pair.mp hop with rfl | rfl <;> decide
  · simp at hop

theorem breakContinueApply_newValue_ne {loc : Loc} {source : List Char} {infos : List MutantInfo}
    (happly : breakContinueApply loc source = some infos) :
    ∀ info ∈ infos, info.mutation.newValue ≠ info.mutation.oldValue := by
  simp only [breakContinueApply, Option.bind_eq_bind, Option.bind_eq_some_iff] at happly
  obtain ⟨curOp, hslice, hmutate⟩ := happly
  intro info hinfo
  obtain ⟨-, -, hold, hnew⟩ := mutateRange_spec hslice hmutate info hinfo
  rw [hold]
  exact ne_of_mem_breakContinueOps hnew

section Unary

variable {loc : Loc} {source rest : List Char} {c : Char} {infos : List MutantInfo}

/-- A `Unary` node whose text starts with a character that is not whitespace: the search for the
operator stops at the node's start, and the shared tail edits the node's own span. -/
theorem unaryApply_eq_mutateRange {operand : ExpLoc} (hc : isWhitespace c = false)
    (hstart : suffixFrom? source loc.start = some (c :: rest))
    (happly : unaryApply loc [operand] source = some infos) :
    ∃ curOp, slice? source loc.start loc.stop = some curOp ∧
      mutateRange source loc.start loc.stop unaryOperatorName curOp [" ".toList] = some infos := by
  have hfind : findByte? (fun c ↦ !isWhitespace c) (c :: rest) = some 0 := by
    simp [findByte?_cons, hc]
  simpa only [unaryApply_singleton, hstart, hfind, Option.bind_eq_bind, Option.bind_some,
    Option.map_some, Option.getD_some, Nat.add_zero, Option.bind_eq_some_iff] using happly

/-- The text a slice takes from a start offset is the suffix the text has there. -/
theorem slice?_prefix_of_suffixFrom? {curOp : List Char} {start stop : Nat}
    (hstart : suffixFrom? source start = some (c :: rest))
    (hslice : slice? source start stop = some curOp) : ∃ back, curOp ++ back = c :: rest := by
  obtain ⟨head, back, htext, hhead, -⟩ := slice?_eq_some_iff.mp hslice
  obtain ⟨front, htext', hfront⟩ := suffixFrom?_eq_some_iff.mp hstart
  have hsplit : splitAt? source start = some (head, curOp ++ back) :=
    splitAt?_eq_some_iff.mpr ⟨by rw [htext, List.append_assoc], hhead⟩
  rw [splitAt?_eq_some_iff.mpr ⟨htext', hfront⟩, Option.some.injEq, Prod.mk.injEq] at hsplit
  exact ⟨back, hsplit.2.symm⟩

/-- `Unary` writes one space, and a node that starts with a character that is not whitespace
never holds just that space. -/
theorem unaryApply_newValue_ne {exps : List ExpLoc} (hc : isWhitespace c = false)
    (hstart : suffixFrom? source loc.start = some (c :: rest))
    (happly : unaryApply loc exps source = some infos) :
    ∀ info ∈ infos, info.mutation.newValue ≠ info.mutation.oldValue := by
  intro info hinfo
  match exps, happly with
  | [_], happly =>
    obtain ⟨curOp, hslice, hmutate⟩ := unaryApply_eq_mutateRange hc hstart happly
    obtain ⟨-, -, hold, hnew⟩ := mutateRange_spec hslice hmutate info hinfo
    obtain ⟨back, hprefix⟩ := slice?_prefix_of_suffixFrom? hstart hslice
    rw [List.mem_singleton.mp hnew, hold]
    rintro rfl
    obtain ⟨rfl, -⟩ := List.cons.inj hprefix
    exact absurd hc (by decide)
  | [], happly | _ :: _ :: _, happly =>
    cases Option.some.inj happly.symm
    cases hinfo

end Unary

/-- Two edits of one range give the same text exactly when they write the same text. -/
theorem MutantInfo.IsEditOf.mutatedSource_eq_iff {source : List Char} {first second : MutantInfo}
    (hfirst : first.IsEditOf source) (hsecond : second.IsEditOf source)
    (hplace : first.mutation.changedPlace = second.mutation.changedPlace) :
    first.mutatedSource = second.mutatedSource ↔
      first.mutation.newValue = second.mutation.newValue := by
  have hsecondReplace := hsecond.2
  rw [← hplace] at hsecondReplace
  constructor
  · exact replaceRange?_injective hfirst.2 hsecondReplace
  · intro hsame
    have hfirstReplace := hfirst.2
    rw [hsame, hsecondReplace] at hfirstReplace
    exact (Option.some.inj hfirstReplace).symm

/-- An edit gives the source back exactly when it writes the old text. -/
theorem MutantInfo.IsEditOf.mutatedSource_eq_source_iff {source : List Char} {info : MutantInfo}
    (hedit : info.IsEditOf source) :
    info.mutatedSource = source ↔ info.mutation.newValue = info.mutation.oldValue :=
  replaceRange?_eq_self_iff hedit.1 hedit.2

/-! ## The entries of a function -/

/-- The list `L` of every entry of every mutant `traverse_function` finds, in order, or `none`
when an application panics. -/
def functionMutantInfos (function : FunctionEnv) (selected : Option (List (List Char)))
    (source : List Char) : Option (List MutantInfo) :=
  ((traverseFunction function selected).mapM fun mutant : Mutant ↦ mutant.apply source).map
    List.flatten

/-- Each result of a successful `mapM` into `Option` is the image of one element. -/
theorem exists_mem_of_mapM_eq_some {α β : Type} {f : α → Option β} {xs : List α} {ys : List β}
    (hmap : xs.mapM f = some ys) {y : β} (hy : y ∈ ys) : ∃ x ∈ xs, f x = some y := by
  induction xs generalizing ys with
  | nil =>
    simp only [List.mapM_nil, Option.pure_def, Option.some.injEq] at hmap
    subst hmap
    simp at hy
  | cons x rest ih =>
    rw [List.mapM_cons] at hmap
    simp only [Option.bind_eq_bind, Option.bind_eq_some_iff, Option.pure_def,
      Option.some.injEq] at hmap
    obtain ⟨first, hfirst, others, hothers, rfl⟩ := hmap
    rcases List.mem_cons.mp hy with rfl | hy
    · exact ⟨x, List.mem_cons_self, hfirst⟩
    · obtain ⟨x', hx', hfx'⟩ := ih hothers hy
      exact ⟨x', List.mem_cons_of_mem _ hx', hfx'⟩

theorem exists_mutant_of_mem_functionMutantInfos {function : FunctionEnv}
    {selected : Option (List (List Char))} {source : List Char} {infos : List MutantInfo}
    (hinfos : functionMutantInfos function selected source = some infos) {info : MutantInfo}
    (hinfo : info ∈ infos) :
    ∃ mutant ∈ traverseFunction function selected, ∃ entries, mutant.apply source = some entries ∧
      info ∈ entries := by
  simp only [functionMutantInfos, Option.map_eq_some_iff] at hinfos
  obtain ⟨groups, hgroups, rfl⟩ := hinfos
  obtain ⟨entries, hentries, hmem⟩ := List.mem_flatten.mp hinfo
  obtain ⟨mutant, hmutant, happly⟩ := exists_mem_of_mapM_eq_some hgroups hentries
  exact ⟨mutant, hmutant, entries, happly, hmem⟩

/-- The function `f` of `module 0x1::m { fun f(): u8 { 1 } }`: its body is the literal `1`, of
type `u8`, at bytes `30..31`. -/
def literalFunction : FunctionEnv where
  name := "f".toList
  attributes := []
  definition := some (.value ⟨30, 31⟩ (.primitive .u8) (.number 1))

/-- The source of `literalFunction`. -/
def literalSource : List Char :=
  "module 0x1::m \x7b fun f(): u8 \x7b 1 \x7d \x7d".toList

/-- The literal `1 : u8` gets the candidates `0`, `255`, `2` and `0`: `u8::MIN` and the
saturating `1 - 1` coincide, and both become entries. -/
theorem literal_u8_one_duplicate_mutants :
    ∃ infos, functionMutantInfos literalFunction none literalSource = some infos ∧
      ¬ (infos.map (·.mutatedSource)).Nodup := by
  have hcheck : (functionMutantInfos literalFunction none literalSource).any
      (fun infos ↦ !decide (infos.map (·.mutatedSource)).Nodup) = true := by
    decide
  cases hinfos : functionMutantInfos literalFunction none literalSource with
  | none => simp [hinfos] at hcheck
  | some infos =>
    rw [hinfos] at hcheck
    exact ⟨infos, rfl, by simpa using hcheck⟩

/-- Beyond `Binary` and `Literal`: no entry of a `BreakContinue` mutant is the unchanged source,
nor one of a `Unary` mutant whose node starts with a character that is not whitespace, as the
span of a parsed `!e` does. -/
theorem apply_breakContinue_unary_ne_source (mutant : Mutant) (source : List Char)
    (entries : List MutantInfo) (happly : mutant.apply source = some entries)
    (hoperator : (∃ loc, mutant.operator = .breakContinue loc) ∨
      ∃ operation loc exps c rest, mutant.operator = .unary operation loc exps ∧
        suffixFrom? source loc.start = some (c :: rest) ∧ isWhitespace c = false) :
    ∀ info ∈ entries, info.mutatedSource ≠ source := by
  intro info hinfo hsame
  have hwrites :=
    (MutationOp.apply_isEditOf happly info hinfo).mutatedSource_eq_source_iff.mp hsame
  rcases hoperator with ⟨loc, hop⟩ | ⟨operation, loc, exps, c, rest, hop, hstart, hc⟩
  · rw [Mutant.apply, hop, MutationOp.apply_breakContinue] at happly
    exact breakContinueApply_newValue_ne happly info hinfo hwrites
  · rw [Mutant.apply, hop, MutationOp.apply_unary] at happly
    exact unaryApply_newValue_ne hc hstart happly info hinfo hwrites

/-- The `break` of a loop becomes `continue` or the empty block, and neither is the source. -/
theorem apply_breakContinue_unary_ne_source_break :
    ∃ entries, Mutant.apply ⟨.breakContinue ⟨17, 22⟩, none, none⟩
        "fun f() \x7b loop \x7b break \x7d \x7d".toList = some entries ∧
      entries.map (·.mutation.newValue) = [moveContinue, moveEmptyStmt] ∧
      ∀ info ∈ entries, info.mutatedSource ≠ "fun f() \x7b loop \x7b break \x7d \x7d".toList := by
  have happly : Mutant.apply ⟨.breakContinue ⟨17, 22⟩, none, none⟩
      "fun f() \x7b loop \x7b break \x7d \x7d".toList =
      some [⟨"fun f() \x7b loop \x7b continue \x7d \x7d".toList,
          ⟨⟨17, 22⟩, breakContinueOperatorName, moveBreak, moveContinue⟩⟩,
        ⟨"fun f() \x7b loop \x7b \x7b\x7d \x7d \x7d".toList,
          ⟨⟨17, 22⟩, breakContinueOperatorName, moveBreak, moveEmptyStmt⟩⟩] := by
    decide
  exact ⟨_, happly, rfl,
    apply_breakContinue_unary_ne_source _ _ _ happly (.inl ⟨⟨17, 22⟩, rfl⟩)⟩

/-- The literal `0u8`: its text is no decimal candidate, so nothing is filtered out, and both
`u8::MIN` and the saturating `0 - 1` become the new value `0`, the literal's own value. -/
theorem literal_u8_suffixed_zero_mutants :
    (literalApply (.number 0) (.primitive .u8) ⟨0, 3⟩ "0u8".toList).map
        (·.map (·.mutation.newValue)) =
      some ["0".toList, "255".toList, "1".toList, "0".toList] := by
  decide

/-- Every entry of `L` edits the range it reports; so two entries editing one range are equal
exactly when they write the same text, an entry is the unchanged source exactly when it writes
back the old text, and no entry of a `Binary` or `Literal` mutant is the unchanged source. -/
theorem functionMutantInfos_edits (function : FunctionEnv)
    (selected : Option (List (List Char))) (source : List Char) (infos : List MutantInfo)
    (hinfos : functionMutantInfos function selected source = some infos) :
    (∀ info ∈ infos, info.IsEditOf source) ∧
    (∀ first ∈ infos, ∀ second ∈ infos,
      first.mutation.changedPlace = second.mutation.changedPlace →
        (first.mutatedSource = second.mutatedSource ↔
          first.mutation.newValue = second.mutation.newValue)) ∧
    (∀ info ∈ infos,
      info.mutatedSource = source ↔ info.mutation.newValue = info.mutation.oldValue) ∧
    (∀ mutant ∈ traverseFunction function selected, mutant.operator.filtersCurrentText = true →
      ∀ entries, mutant.apply source = some entries → ∀ info ∈ entries,
        info.mutatedSource ≠ source) := by
  have hedit : ∀ info ∈ infos, info.IsEditOf source := by
    intro info hinfo
    obtain ⟨mutant, -, entries, happly, hmem⟩ :=
      exists_mutant_of_mem_functionMutantInfos hinfos hinfo
    exact MutationOp.apply_isEditOf happly info hmem
  refine ⟨hedit, ?_, ?_, ?_⟩
  · intro first hfirst second hsecond hplace
    exact (hedit first hfirst).mutatedSource_eq_iff (hedit second hsecond) hplace
  · intro info hinfo
    exact (hedit info hinfo).mutatedSource_eq_source_iff
  · intro mutant _ hfilter entries happly info hinfo hsame
    have hinfoEdit := MutationOp.apply_isEditOf happly info hinfo
    exact MutationOp.apply_newValue_ne hfilter happly info hinfo
      (hinfoEdit.mutatedSource_eq_source_iff.mp hsame)

/-- `functionMutantInfos_edits` on the `u8` literal, whose entries exist. -/
theorem functionMutantInfos_edits_literal :
    ∃ infos, functionMutantInfos literalFunction none literalSource = some infos ∧
      (∀ info ∈ infos, info.IsEditOf literalSource) := by
  cases hinfos : functionMutantInfos literalFunction none literalSource with
  | none => exact absurd hinfos (by decide)
  | some infos =>
    exact ⟨infos, rfl, (functionMutantInfos_edits literalFunction none literalSource infos hinfos).1⟩

end AptosCore.Mutator
