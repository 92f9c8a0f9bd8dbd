import AptosCore.Mutator.Mutate

/-!
# The `for` loop desugaring and the binary operator

`parse_for_loop` (`move-compiler/src/parser/syntax.rs`) expands
`for (iter in lb..ub) body` into

```text
let iter = lb; let __update_iter_flag = false; let __upper_bound_value = ub;
while (true) {
    if (__update_iter_flag) iter = iter + 1 else __update_iter_flag = true;
    if (iter < __upper_bound_value) body else break
}
```

and gives every node it synthesizes the span `for_loc` of the whole loop, except the condition
`iter < __upper_bound_value`, which gets the span of `iter`. The expansion pass and the model
builder keep these spans: a sequence becomes nested `Block`s over its `let`s, `while` becomes
`Loop(IfElse(cond, body, break))` on the loop's node, and the missing final expression of a
block becomes the unit `Call(Tuple, [])`.

Both synthesized binary operations therefore have two operands with one and the same span, and
`binaryApply_eq_none_of_same_loc` says what `Binary::apply` does with such a node.
-/

namespace AptosCore.Mutator

/-- The unit `()` the model builder puts where a block has no final expression. -/
def unitExp (loc : Loc) : Exp := .call loc .other []

/-- The model of `for (iter in lb..ub) body` after parsing, expansion and model building;
`iterTy` is the type inference gives the iterator. -/
def forLoop (forLoc iterLoc : Loc) (iter : List Char) (iterTy : Ty) (lb ub body : Exp) : Exp :=
  let iterExp := Exp.localVar forLoc iter
  let flagExp := Exp.localVar forLoc "__update_iter_flag".toList
  let update := Exp.assign forLoc (.call forLoc .add [iterExp, .value forLoc iterTy (.number 1)])
  let assignIter := Exp.assign forLoc (.value forLoc (.primitive .bool) (.bool true))
  let flagConditional := Exp.ifElse forLoc flagExp update assignIter
  let loopCondition := Exp.call iterLoc .lt [iterExp, .localVar forLoc "__upper_bound_value".toList]
  let loopConditional := Exp.ifElse forLoc loopCondition body (.loopCont forLoc false)
  let whileBody := Exp.sequence forLoc [flagConditional, loopConditional, unitExp forLoc]
  let whileLoop := Exp.loop forLoc
    (.ifElse forLoc (.value forLoc (.primitive .bool) (.bool true)) whileBody (.loopCont forLoc false))
  .block forLoc (some lb)
    (.block forLoc (some (.value forLoc (.primitive .bool) (.bool false)))
      (.block forLoc (some ub) (.sequence forLoc [whileLoop, unitExp forLoc])))

/-- The mutant `parse_expression_and_find_mutants` makes for the increment `iter + 1`. -/
def forLoopIncrementMutant (forLoc : Loc) (iter : List Char) (iterTy : Ty) : Mutant :=
  ⟨.binary .add forLoc (toExpLocs [.localVar forLoc iter, .value forLoc iterTy (.number 1)]),
    none, none⟩

/-! ## A package the front end accepts -/

/-- `module 0x1::m { fun f() { for (i in 0..1) {} } }`. -/
def forLoopSource : List Char :=
  "module 0x1::m \x7b fun f() \x7b for (i in 0..1) \x7b\x7d \x7d \x7d".toList

/-- The function `f` of `forLoopSource`: the loop spans bytes `26..44`, `i` is at `31..32`, the
bounds at `36..37` and `39..40`, and the body `{}` at `42..44`. -/
def forLoopFunction : FunctionEnv where
  name := "f".toList
  attributes := []
  definition := some
    (forLoop ⟨26, 44⟩ ⟨31, 32⟩ "i".toList (.primitive .u64)
      (.value ⟨36, 37⟩ (.primitive .u64) (.number 0)) (.value ⟨39, 40⟩ (.primitive .u64) (.number 1))
      (unitExp ⟨42, 44⟩))

/-- The spans of `forLoopFunction` are those of `forLoopSource`. -/
example : Text.slice? forLoopSource 26 44 = some "for (i in 0..1) \x7b\x7d".toList := by decide

/-- `traverse_function` on `f` finds a `Binary` mutant whose application to the file panics: the
operator range it rebuilds starts at byte 45 and stops at byte 25. -/
theorem forLoop_binary_mutant_panics :
    ∃ mutant ∈ traverseFunction forLoopFunction none, mutant.apply forLoopSource = none := by
  decide

end AptosCore.Mutator
