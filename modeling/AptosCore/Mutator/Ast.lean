import AptosCore.Text.Utf8

/-!
# The `move_model` expressions the mutator walks

The fragment of `move_model::ast::ExpData` that `move-mutator` reads: every variant keeps its
children in the order `ExpData::visit_positions_impl` visits them, and every node carries the
source location and, for values, the type that the model builder attached to its node id.
Locations are `codespan` byte spans of the one file a mutant edits, so the file id is left out.

`Exp.events` is the sequence of calls `visit_pre_post` makes to its visitor: `(false, e)` when
it enters `e` and `(true, e)` when it leaves it.
-/

namespace AptosCore.Mutator

/-- A `codespan::Span`: the byte offsets `start()` and `end()` of a node in its file. -/
structure Loc where
  start : Nat
  stop : Nat
  deriving DecidableEq, Repr

/-- The `move_model::ast::Operation`s that `parse_expression_and_find_mutants` tells apart;
every other operation is `other`. -/
inductive Operation where
  | moveTo | abort
  | add | sub | mul | div | mod
  | and | or
  | eq | neq | ge | gt | le | lt
  | bitAnd | bitOr | shl | shr | xor
  | not
  | other
  deriving DecidableEq, Repr

/-- `move_model::ast::Value`, with the number and address payloads the literal operator reads. -/
inductive Value where
  | address (value : Nat)
  | number (value : Nat)
  | bool (value : Bool)
  | other
  deriving DecidableEq, Repr

/-- `move_model::ty::PrimitiveType`. -/
inductive PrimitiveType where
  | bool | u8 | u16 | u32 | u64 | u128 | u256 | num | range | address | signer | eventStore
  deriving DecidableEq, Repr

/-- `move_model::ty::Type`, reduced to what `Literal::apply` matches on. -/
inductive Ty where
  | primitive (type : PrimitiveType)
  | other
  deriving DecidableEq, Repr

/-- `move_model::ast::ExpData`. Patterns, symbols and the types of non-value nodes are not read
by the mutator and are dropped; `matchExp` holds its arms' conditions and bodies in visiting
order, `quant` its ranges, triggers, condition and body, and `specBlock` the expressions of its
spec. -/
inductive Exp where
  | invalid (loc : Loc)
  | value (loc : Loc) (ty : Ty) (value : Value)
  | localVar (loc : Loc) (name : List Char)
  | temporary (loc : Loc) (index : Nat)
  | call (loc : Loc) (op : Operation) (args : List Exp)
  | invoke (loc : Loc) (target : Exp) (args : List Exp)
  | lambda (loc : Loc) (body : Exp)
  | quant (loc : Loc) (parts : List Exp)
  | block (loc : Loc) (binding : Option Exp) (body : Exp)
  | ifElse (loc : Loc) (cond thenBranch elseBranch : Exp)
  | matchExp (loc : Loc) (discriminator : Exp) (arms : List Exp)
  | «return» (loc : Loc) (value : Exp)
  | sequence (loc : Loc) (items : List Exp)
  | loop (loc : Loc) (body : Exp)
  | loopCont (loc : Loc) (isContinue : Bool)
  | assign (loc : Loc) (rhs : Exp)
  | mutate (loc : Loc) (lhs rhs : Exp)
  | specBlock (loc : Loc) (contents : List Exp)
  deriving Repr

namespace Exp

/-- `env.get_node_loc(exp.node_id())`. -/
def loc : Exp → Loc
  | invalid loc | value loc _ _ | localVar loc _ | temporary loc _ | call loc _ _
  | invoke loc _ _ | lambda loc _ | quant loc _ | block loc _ _ | ifElse loc _ _ _
  | matchExp loc _ _ | «return» loc _ | sequence loc _ | loop loc _ | loopCont loc _
  | assign loc _ | mutate loc _ _ | specBlock loc _ => loc

/-- `matches!(exp, ExpData::SpecBlock(..))`. -/
def isSpecBlock : Exp → Bool
  | specBlock _ _ => true
  | _ => false

mutual
/-- The visitor calls of `visit_pre_post`: enter the node, visit the children in
`visit_positions_impl` order (the right-hand side of a `Mutate` before its left-hand side),
leave the node. -/
def events : Exp → List (Bool × Exp)
  | exp@(invalid _) | exp@(value _ _ _) | exp@(localVar _ _) | exp@(temporary _ _)
  | exp@(loopCont _ _) => [(false, exp), (true, exp)]
  | exp@(call _ _ args) => (false, exp) :: eventsOfList args ++ [(true, exp)]
  | exp@(invoke _ target args) =>
    (false, exp) :: events target ++ eventsOfList args ++ [(true, exp)]
  | exp@(lambda _ body) => (false, exp) :: events body ++ [(true, exp)]
  | exp@(quant _ parts) => (false, exp) :: eventsOfList parts ++ [(true, exp)]
  | exp@(block _ binding body) =>
    (false, exp) :: eventsOfOption binding ++ events body ++ [(true, exp)]
  | exp@(ifElse _ cond thenBranch elseBranch) =>
    (false, exp) :: events cond ++ events thenBranch ++ events elseBranch ++ [(true, exp)]
  | exp@(matchExp _ discriminator arms) =>
    (false, exp) :: events discriminator ++ eventsOfList arms ++ [(true, exp)]
  | exp@(«return» _ returned) => (false, exp) :: events returned ++ [(true, exp)]
  | exp@(sequence _ items) => (false, exp) :: eventsOfList items ++ [(true, exp)]
  | exp@(loop _ body) => (false, exp) :: events body ++ [(true, exp)]
  | exp@(assign _ rhs) => (false, exp) :: events rhs ++ [(true, exp)]
  | exp@(mutate _ lhs rhs) => (false, exp) :: events rhs ++ events lhs ++ [(true, exp)]
  | exp@(specBlock _ contents) => (false, exp) :: eventsOfList contents ++ [(true, exp)]

/-- The visits of a list of sibling expressions, in order. -/
def eventsOfList : List Exp → List (Bool × Exp)
  | [] => []
  | exp :: rest => events exp ++ eventsOfList rest

/-- The visits of an optional child. -/
def eventsOfOption : Option Exp → List (Bool × Exp)
  | none => []
  | some exp => events exp
end

end Exp

end AptosCore.Mutator
