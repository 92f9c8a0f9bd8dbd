import AptosCore.Mutator.Operators

/-!
# Finding mutants in a function body

`parse_expression_and_find_mutants` maps one expression node to the mutants its operators
produce, and `traverse_function` runs it, through `visit_pre_post`, on every node of a function
body that is entered outside a spec block. The closure's state is the pair
`(is_inside_spec, result)`; `visitStep` is one call of it and `traverseFunction` folds it over
`Exp.events`.
-/

namespace AptosCore.Mutator

/-- `convert_exps_to_explocs`: each operand with the location of its node. -/
def toExpLocs (exps : List Exp) : List ExpLoc :=
  exps.map fun exp ↦ ⟨exp, exp.loc⟩

def parseExpressionAndFindMutants : Exp → List Mutant
  | exp@(.call loc op args) =>
    match op with
    | .moveTo | .abort => [⟨.deleteStmt exp loc, none, none⟩]
    | .add | .sub | .mul | .div | .mod | .and | .or | .eq | .neq | .ge | .gt | .le | .lt
    | .bitAnd | .bitOr | .shl | .shr | .xor =>
      [⟨.binary op loc (toExpLocs args), none, none⟩,
        ⟨.binarySwap op loc (toExpLocs args), none, none⟩]
    | .not => [⟨.unary op loc (toExpLocs args), none, none⟩]
    | .other => []
  | .ifElse _ cond thenBranch elseBranch =>
    [⟨.ifElse ⟨cond, cond.loc⟩ ⟨thenBranch, thenBranch.loc⟩ ⟨elseBranch, elseBranch.loc⟩,
      none, none⟩]
  | .value loc ty value => [⟨.literal value ty loc, none, none⟩]
  | .loopCont loc _ => [⟨.breakContinue loc, none, none⟩]
  | _ => []

/-- One call of the visitor closure of `traverse_function` on `(is_inside_spec, result)`:
a spec block sets the flag on entry and clears it on exit, and a node entered with the flag
clear contributes its mutants. -/
def visitStep (state : Bool × List Mutant) (event : Bool × Exp) : Bool × List Mutant :=
  let isInsideSpec := if event.2.isSpecBlock then !event.1 else state.1
  if !event.1 && !isInsideSpec then (isInsideSpec, state.2 ++ parseExpressionAndFindMutants event.2)
  else (isInsideSpec, state.2)

/-- The parts of a `FunctionEnv` that `traverse_function` reads: its name, the names of its
attributes and its definition. -/
structure FunctionEnv where
  name : List Char
  attributes : List (List Char)
  definition : Option Exp

/-- `traverse_function`, with `selected` the function list of an individual file configuration
(`IncludeFunctions::Selected`), if there is one. Any attribute whose name contains `test` skips
the function. -/
def traverseFunction (function : FunctionEnv) (selected : Option (List (List Char))) :
    List Mutant :=
  if function.attributes.any (fun attr ↦ decide ("test".toList <:+: attr)) then []
  else if selected.any (fun funcs ↦ !funcs.contains function.name) then []
  else
    let result := match function.definition with
      | some exp => (exp.events.foldl visitStep (false, [])).2
      | none => []
    result.map fun mutant ↦ { mutant with functionName := some function.name }

end AptosCore.Mutator
