import AptosCore.Mutator.Ast

/-!
# The mutation operators of `move-mutator`

`MutationOperator::apply` for the seven operators of `src/operators/`, on the source text of the
mutated file. Every slice and `replace_range` goes through `AptosCore.Text`, so an application
is `none` exactly where the Rust code panics; `Range::new` asserts `start <= end` and is partial
in the same way.

All operators end alike: each candidate text replaces one byte range and is reported with the
old text of that range. That common tail is `mutateRange`; each operator is written as the
source writes it up to the list of candidates it hands to that tail.
-/

namespace AptosCore.Mutator

open AptosCore.Text

/-- `report::Range`. -/
structure Range where
  start : Nat
  stop : Nat
  deriving DecidableEq, Repr

/-- `Range::new`, which asserts `start <= end`. -/
def Range.new? (start stop : Nat) : Option Range :=
  if start ≤ stop then some ⟨start, stop⟩ else none

/-- `report::Mutation`: where the source changed, by which operator, from which text to which. -/
structure Mutation where
  changedPlace : Range
  operatorName : List Char
  oldValue : List Char
  newValue : List Char
  deriving DecidableEq, Repr

/-- `operator::MutantInfo`. -/
structure MutantInfo where
  mutatedSource : List Char
  mutation : Mutation
  deriving DecidableEq, Repr

/-- `operators::ExpLoc`: an operand with its location. -/
structure ExpLoc where
  exp : Exp
  loc : Loc
  deriving Repr

/-! ## Move constants of `operators/mod.rs` -/

def moveEmptyStmt : List Char := "\x7b\x7d".toList
def moveContinue : List Char := "continue".toList
def moveBreak : List Char := "break".toList
def moveTrue : List Char := "true".toList
def moveFalse : List Char := "false".toList
def moveZeroU256 : List Char := "0u256".toList
def moveMaxU256 : List Char :=
  "115792089237316195423570985008687907853269984665640564039457584007913129639935u256".toList
def moveMaxInferredNum : List Char :=
  "115792089237316195423570985008687907853269984665640564039457584007913129639935".toList
def moveAddrZero : List Char := "0x0".toList
def moveAddrMax : List Char :=
  "0xFFFFFFFFFFFFFFFFFFFFFFFFFFFFFFFFFFFFFFFFFFFFFFFFFFFFFFFFFFFFFFFF".toList

/-! ## The shared tail and the operator-range search -/

/-- The `ops.into_iter().map(..).collect()` every operator ends with: each candidate replaces
the bytes `start..stop` of the source. -/
def mutateRange (source : List Char) (start stop : Nat) (operatorName curOp : List Char)
    (ops : List (List Char)) : Option (List MutantInfo) :=
  ops.mapM fun op ↦ do
    let mutatedSource ← replaceRange? source start stop op
    let changedPlace ← Range.new? start stop
    pure ⟨mutatedSource, ⟨changedPlace, operatorName, curOp, op⟩⟩

/-- The operator position `Binary` and `BinarySwap` rebuild from the operand locations: the
first non-whitespace byte at or after the left operand's end, and one past the last
non-whitespace byte before the right operand's start. -/
def operatorRange (source : List Char) (left right : Loc) : Option (Nat × Nat) := do
  let start := left.stop
  let afterLeft ← suffixFrom? source start
  let start := ((findByte? (fun c ↦ !isWhitespace c) afterLeft).map (start + ·)).getD start
  let stop := right.start
  let beforeRight ← prefixTo? source stop
  let stop := ((rfindByte? (fun c ↦ !isWhitespace c) beforeRight).map (· + 1)).getD stop
  pure (start, stop)

/-! ## `binary.rs` -/

/-- `binary::OPERATOR_NAME`. -/
def binaryOperatorName : List Char := "binary_operator_replacement".toList

/-- The group of exchangeable binary operators of `Binary::apply`. -/
def binaryOps : Operation → List (List Char)
  | .add | .sub | .mul | .div | .mod => ["+".toList, "-".toList, "*".toList, "/".toList, "%".toList]
  | .bitOr | .bitAnd | .xor => ["|".toList, "&".toList, "^".toList]
  | .shl | .shr => ["<<".toList, ">>".toList]
  | .or | .and => ["||".toList, "&&".toList]
  | .eq | .neq | .lt | .gt | .le | .ge =>
    ["==".toList, "!=".toList, "<".toList, ">".toList, "<=".toList, ">=".toList]
  | _ => []

/-- `Binary::apply`. -/
def binaryApply (operation : Operation) (exps : List ExpLoc) (source : List Char) :
    Option (List MutantInfo) :=
  match exps with
  | [left, right] => do
    let (start, stop) ← operatorRange source left.loc right.loc
    let curOp ← slice? source start stop
    mutateRange source start stop binaryOperatorName curOp
      ((binaryOps operation).filter (· != curOp))
  | _ => some []

/-! ## `binary_swap.rs` -/

/-- `binary_swap::OPERATOR_NAME`. -/
def binarySwapOperatorName : List Char := "binary_operator_swap".toList

/-- `BinarySwap::apply`: the span from the left operand to the right one becomes the right
operand, the operator and the left operand, with nothing between them: the whitespace around the
operator is dropped, so `a - b` becomes `b-a`. -/
def binarySwapApply (operation : Operation) (exps : List ExpLoc) (source : List Char) :
    Option (List MutantInfo) :=
  if operation = .add ∨ operation = .mul ∨ operation = .eq ∨ operation = .neq then some []
  else
    match exps with
    | [left, right] => do
      let (opStart, opStop) ← operatorRange source left.loc right.loc
      let binopStr ← slice? source opStart opStop
      let start := left.loc.start
      let stop := right.loc.stop
      let curOp ← slice? source start stop
      let leftStr ← slice? source left.loc.start left.loc.stop
      let rightStr ← slice? source right.loc.start right.loc.stop
      mutateRange source start stop binarySwapOperatorName curOp [rightStr ++ binopStr ++ leftStr]
    | _ => some []

/-! ## `unary.rs` -/

/-- `unary::OPERATOR_NAME`. -/
def unaryOperatorName : List Char := "unary_operator_replacement".toList

/-- `Unary::apply`: the bytes from the first non-whitespace at the node's start to the node's
end become one space. -/
def unaryApply (loc : Loc) (exps : List ExpLoc) (source : List Char) : Option (List MutantInfo) :=
  match exps with
  | [_] => do
    let start := loc.start
    let afterStart ← suffixFrom? source start
    let start := ((findByte? (fun c ↦ !isWhitespace c) afterStart).map (start + ·)).getD start
    let stop := loc.stop
    let curOp ← slice? source start stop
    mutateRange source start stop unaryOperatorName curOp [" ".toList]
  | _ => some []

theorem unaryApply_singleton (loc : Loc) (exp : ExpLoc) (source : List Char) :
    unaryApply loc [exp] source = (do
      let start := loc.start
      let afterStart ← suffixFrom? source start
      let start := ((findByte? (fun c ↦ !isWhitespace c) afterStart).map (start + ·)).getD start
      let stop := loc.stop
      let curOp ← slice? source start stop
      mutateRange source start stop unaryOperatorName curOp [" ".toList]) := rfl

/-! ## `literal.rs` -/

/-- `literal::OPERATOR_NAME`. -/
def literalOperatorName : List Char := "literal_replacement".toList

/-- The candidates for an unsigned literal of a width whose maximum is `max`: minimum,
maximum, and the value moved by one with saturation. `to_uN().expect(..)` panics on a value
that does not fit. -/
def unsignedLiterals (max : Nat) (value : Value) : Option (List (List Char)) :=
  match value with
  | .number value =>
    if value ≤ max then
      some [(toString 0).toList, (toString max).toList, (toString (min (value + 1) max)).toList,
        (toString (value - 1)).toList]
    else none
  | _ => some []

/-- The literal candidates of `Literal::apply` by type. -/
def literalOps (value : Value) : Ty → Option (List (List Char))
  | .primitive .address => some [moveAddrZero, moveAddrMax]
  | .primitive .bool => some [moveTrue, moveFalse]
  | .primitive .u8 => unsignedLiterals (2 ^ 8 - 1) value
  | .primitive .u16 => unsignedLiterals (2 ^ 16 - 1) value
  | .primitive .u32 => unsignedLiterals (2 ^ 32 - 1) value
  | .primitive .u64 => unsignedLiterals (2 ^ 64 - 1) value
  | .primitive .u128 => unsignedLiterals (2 ^ 128 - 1) value
  | .primitive .u256 => some [moveZeroU256, moveMaxU256]
  | .primitive .num => some ["0".toList, moveMaxInferredNum]
  | _ => some []

/-- `Literal::apply`. The source computes the slice before the candidates. -/
def literalApply (value : Value) (optype : Ty) (loc : Loc) (source : List Char) :
    Option (List MutantInfo) := do
  let curOp ← slice? source loc.start loc.stop
  let ops ← literalOps value optype
  mutateRange source loc.start loc.stop literalOperatorName curOp (ops.filter (· != curOp))

/-! ## `ifelse.rs`, `break_continue.rs`, `delete_stmt.rs` -/

/-- `ifelse::OPERATOR_NAME`. -/
def ifElseOperatorName : List Char := "if_else_replacement".toList

/-- `IfElse::apply`: the condition becomes `true`, `false` or its negation. -/
def ifElseApply (cond : ExpLoc) (source : List Char) : Option (List MutantInfo) := do
  let curOp ← slice? source cond.loc.start cond.loc.stop
  mutateRange source cond.loc.start cond.loc.stop ifElseOperatorName curOp
    ["true".toList, "false".toList, "!(".toList ++ curOp ++ ")".toList]

/-- `break_continue::OPERATOR_NAME`. -/
def breakContinueOperatorName : List Char := "break_continue_replacement".toList

/-- The replacements `BreakContinue::apply` chooses by the current text. -/
def breakContinueOps (curOp : List Char) : List (List Char) :=
  if curOp = moveBreak then [moveContinue, moveEmptyStmt]
  else if curOp = moveContinue then [moveBreak, moveEmptyStmt]
  else []

/-- `BreakContinue::apply`. -/
def breakContinueApply (loc : Loc) (source : List Char) : Option (List MutantInfo) := do
  let curOp ← slice? source loc.start loc.stop
  mutateRange source loc.start loc.stop breakContinueOperatorName curOp (breakContinueOps curOp)

/-- `delete_stmt::OPERATOR_NAME`. -/
def deleteStmtOperatorName : List Char := "delete_statement".toList

/-- `DeleteStmt::apply`: the statement becomes the empty block. -/
def deleteStmtApply (loc : Loc) (source : List Char) : Option (List MutantInfo) := do
  let curOp ← slice? source loc.start loc.stop
  mutateRange source loc.start loc.stop deleteStmtOperatorName curOp [moveEmptyStmt]

/-! ## `MutationOp` and `Mutant` -/

/-- The boxed `dyn MutationOperator` of `MutationOp`, one constructor per operator struct. -/
inductive MutationOp where
  | binary (operation : Operation) (loc : Loc) (exps : List ExpLoc)
  | binarySwap (operation : Operation) (loc : Loc) (exps : List ExpLoc)
  | unary (operation : Operation) (loc : Loc) (exps : List ExpLoc)
  | literal (operation : Value) (optype : Ty) (loc : Loc)
  | ifElse (cond ifexpr elseexpr : ExpLoc)
  | breakContinue (loc : Loc)
  | deleteStmt (operation : Exp) (loc : Loc)
  deriving Repr

/-- `MutationOperator::apply`, dispatched to the operator. -/
def MutationOp.apply : MutationOp → List Char → Option (List MutantInfo)
  | .binary operation _ exps, source => binaryApply operation exps source
  | .binarySwap operation _ exps, source => binarySwapApply operation exps source
  | .unary _ loc exps, source => unaryApply loc exps source
  | .literal operation optype loc, source => literalApply operation optype loc source
  | .ifElse cond _ _, source => ifElseApply cond source
  | .breakContinue loc, source => breakContinueApply loc source
  | .deleteStmt _ loc, source => deleteStmtApply loc source

section ApplyEquations

variable (loc : Loc) (exps : List ExpLoc) (source : List Char)

@[simp] theorem MutationOp.apply_binary (operation : Operation) :
    (MutationOp.binary operation loc exps).apply source = binaryApply operation exps source := rfl

@[simp] theorem MutationOp.apply_binarySwap (operation : Operation) :
    (MutationOp.binarySwap operation loc exps).apply source =
      binarySwapApply operation exps source := rfl

@[simp] theorem MutationOp.apply_unary (operation : Operation) :
    (MutationOp.unary operation loc exps).apply source = unaryApply loc exps source := rfl

@[simp] theorem MutationOp.apply_literal (operation : Value) (optype : Ty) :
    (MutationOp.literal operation optype loc).apply source =
      literalApply operation optype loc source := rfl

@[simp] theorem MutationOp.apply_ifElse (cond ifexpr elseexpr : ExpLoc) :
    (MutationOp.ifElse cond ifexpr elseexpr).apply source = ifElseApply cond source := rfl

@[simp] theorem MutationOp.apply_breakContinue :
    (MutationOp.breakContinue loc).apply source = breakContinueApply loc source := rfl

@[simp] theorem MutationOp.apply_deleteStmt (operation : Exp) :
    (MutationOp.deleteStmt operation loc).apply source = deleteStmtApply loc source := rfl

end ApplyEquations

/-- `mutant::Mutant`. -/
structure Mutant where
  operator : MutationOp
  moduleName : Option (List Char) := none
  functionName : Option (List Char) := none
  deriving Repr

def Mutant.apply (mutant : Mutant) (source : List Char) : Option (List MutantInfo) :=
  mutant.operator.apply source

end AptosCore.Mutator
