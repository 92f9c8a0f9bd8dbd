import AptosCore.Mutator.Mutate

/-!
# Spec blocks are never mutated

`traverse_function` keeps one flag, `is_inside_spec`, which entering a `SpecBlock` sets and
leaving it clears, and collects mutants only from the nodes it enters with the flag clear. The
flag stands for "inside a spec block" as long as no spec block holds another, and that is how the
model builder makes function bodies: a `spec` expression met while translating a specification
becomes a no-op call (`ExpTranslationMode::Spec` in `exp_builder.rs`), so spec blocks only occur
in implementation code (`SpecBlocksFlat`). With a spec block inside another, leaving the inner
one would clear the flag while the walk is still inside the outer one.

`nodesOutsideSpec` lists, in the order `visit_pre_post` enters them, the nodes of an expression
that are neither a spec block nor inside one. Walking the contents of a spec block keeps the flag
set and collects nothing (`foldl_visitStep_inside`); walking a body from outside collects exactly
the mutants of its nodes outside spec blocks and ends outside (`collectsFrom_events`). Both are
proved over the event list, one lemma per shape of event list (`CollectsFrom.node`,
`CollectsFrom.specBlock`, `CollectsFrom.append`), and assembled by a recursion over the
expression that follows `Exp.events`.
-/

namespace AptosCore.Mutator

namespace Exp

mutual
/-- The nodes of an expression that are neither a spec block nor inside one, in the order
`visit_pre_post` enters them. -/
def nodesOutsideSpec : Exp → List Exp
  | exp@(invalid _) | exp@(value _ _ _) | exp@(localVar _ _) | exp@(temporary _ _)
  | exp@(loopCont _ _) => [exp]
  | exp@(call _ _ args) => exp :: nodesOutsideSpecList args
  | exp@(invoke _ target args) => exp :: nodesOutsideSpec target ++ nodesOutsideSpecList args
  | exp@(lambda _ body) => exp :: nodesOutsideSpec body
  | exp@(quant _ parts) => exp :: nodesOutsideSpecList parts
  | exp@(block _ binding body) => exp :: nodesOutsideSpecOption binding ++ nodesOutsideSpec body
  | exp@(ifElse _ cond thenBranch elseBranch) =>
    exp :: nodesOutsideSpec cond ++ nodesOutsideSpec thenBranch ++ nodesOutsideSpec elseBranch
  | exp@(matchExp _ discriminator arms) =>
    exp :: nodesOutsideSpec discriminator ++ nodesOutsideSpecList arms
  | exp@(«return» _ returned) => exp :: nodesOutsideSpec returned
  | exp@(sequence _ items) => exp :: nodesOutsideSpecList items
  | exp@(loop _ body) => exp :: nodesOutsideSpec body
  | exp@(assign _ rhs) => exp :: nodesOutsideSpec rhs
  | exp@(mutate _ lhs rhs) => exp :: nodesOutsideSpec rhs ++ nodesOutsideSpec lhs
  | specBlock _ _ => []

/-- The nodes outside spec blocks of a list of sibling expressions, in order. -/
def nodesOutsideSpecList : List Exp → List Exp
  | [] => []
  | exp :: rest => nodesOutsideSpec exp ++ nodesOutsideSpecList rest

/-- The nodes outside spec blocks of an optional child. -/
def nodesOutsideSpecOption : Option Exp → List Exp
  | none => []
  | some exp => nodesOutsideSpec exp
end

end Exp

/-! ## Walks of event lists -/

/-- No event of a walk is at a spec block. -/
def NoSpecBlock (events : List (Bool × Exp)) : Prop :=
  ∀ event ∈ events, event.2.isSpecBlock = false

/-- No spec block entered in a walk holds a spec block. -/
def SpecBlocksFlat (events : List (Bool × Exp)) : Prop :=
  ∀ loc contents, (false, Exp.specBlock loc contents) ∈ events →
    NoSpecBlock (Exp.eventsOfList contents)

/-- Walking `events` with the flag clear collects the mutants of `nodes`, in order, and ends
with the flag clear. -/
def CollectsFrom (events : List (Bool × Exp)) (nodes : List Exp) : Prop :=
  ∀ mutants, events.foldl visitStep (false, mutants) =
    (false, mutants ++ nodes.flatMap parseExpressionAndFindMutants)

/-- Inside a spec block that holds none, the flag stays set and nothing is collected. -/
theorem foldl_visitStep_inside {events : List (Bool × Exp)} (hno : NoSpecBlock events)
    (mutants : List Mutant) : events.foldl visitStep (true, mutants) = (true, mutants) := by
  induction events with
  | nil => rfl
  | cons event events ih =>
    have hstep : visitStep (true, mutants) event = (true, mutants) := by
      simp [visitStep, hno event List.mem_cons_self]
    rw [List.foldl_cons, hstep]
    exact ih fun event' hmem ↦ hno event' (List.mem_cons_of_mem _ hmem)

namespace SpecBlocksFlat

variable {events events₁ events₂ : List (Bool × Exp)}

theorem mono (hflat : SpecBlocksFlat events) {events' : List (Bool × Exp)}
    (hsub : ∀ event ∈ events', event ∈ events) : SpecBlocksFlat events' :=
  fun loc contents hmem ↦ hflat loc contents (hsub _ hmem)

theorem left (hflat : SpecBlocksFlat (events₁ ++ events₂)) : SpecBlocksFlat events₁ :=
  hflat.mono fun _ hmem ↦ List.mem_append_left _ hmem

theorem right (hflat : SpecBlocksFlat (events₁ ++ events₂)) : SpecBlocksFlat events₂ :=
  hflat.mono fun _ hmem ↦ List.mem_append_right _ hmem

/-- The walk of a node's children is part of the walk of the node. -/
theorem inner {exp : Exp} (hflat : SpecBlocksFlat ((false, exp) :: events ++ [(true, exp)])) :
    SpecBlocksFlat events :=
  hflat.mono fun _ hmem ↦ List.mem_cons_of_mem _ (List.mem_append_left _ hmem)

end SpecBlocksFlat

namespace CollectsFrom

variable {events events₁ events₂ : List (Bool × Exp)} {nodes nodes₁ nodes₂ : List Exp}

theorem nil : CollectsFrom [] [] := fun mutants ↦ by simp

theorem append (h₁ : CollectsFrom events₁ nodes₁) (h₂ : CollectsFrom events₂ nodes₂) :
    CollectsFrom (events₁ ++ events₂) (nodes₁ ++ nodes₂) := fun mutants ↦ by
  rw [List.foldl_append, h₁, h₂, List.flatMap_append, List.append_assoc]

/-- A node outside spec blocks contributes its mutants when it is entered, before those of its
children, and leaving it keeps the flag clear. -/
theorem node {exp : Exp} (hexp : exp.isSpecBlock = false) (h : CollectsFrom events nodes) :
    CollectsFrom ((false, exp) :: events ++ [(true, exp)]) (exp :: nodes) := fun mutants ↦ by
  have henter : visitStep (false, mutants) (false, exp) =
      (false, mutants ++ parseExpressionAndFindMutants exp) := by
    simp [visitStep, hexp]
  have hleave : ∀ mutants', visitStep (false, mutants') (true, exp) = (false, mutants') := by
    simp [visitStep, hexp]
  rw [List.cons_append, List.foldl_cons, henter, List.foldl_append, h, List.foldl_cons,
    List.foldl_nil, hleave, List.flatMap_cons, List.append_assoc]

/-- Entering a spec block sets the flag, its contents collect nothing, and leaving it clears
the flag again. -/
theorem specBlock {loc : Loc} {contents : List Exp}
    (hno : NoSpecBlock (Exp.eventsOfList contents)) :
    CollectsFrom ((false, .specBlock loc contents) :: Exp.eventsOfList contents ++
      [(true, .specBlock loc contents)]) [] := fun mutants ↦ by
  have henter : visitStep (false, mutants) (false, .specBlock loc contents) = (true, mutants) := rfl
  have hleave : visitStep (true, mutants) (true, .specBlock loc contents) = (false, mutants) := rfl
  rw [List.cons_append, List.foldl_cons, henter, List.foldl_append, foldl_visitStep_inside hno,
    List.foldl_cons, List.foldl_nil, hleave, List.flatMap_nil, List.append_nil]

end CollectsFrom

/-! ## Walks of expressions -/

mutual
/-- A body whose spec blocks hold none is walked from outside collecting exactly the mutants of
its nodes outside spec blocks. Recursion on the expression, one case per constructor of
`Exp.events`. -/
theorem collectsFrom_events :
    ∀ exp : Exp, SpecBlocksFlat exp.events → CollectsFrom exp.events exp.nodesOutsideSpec
  | .invalid _, _ | .value _ _ _, _ | .localVar _ _, _ | .temporary _ _, _ | .loopCont _ _, _ =>
    .node rfl .nil
  | .call _ _ args, hflat => .node rfl (collectsFrom_eventsOfList args hflat.inner)
  | .invoke _ target args, hflat =>
    .node rfl ((collectsFrom_events target hflat.inner.left).append
      (collectsFrom_eventsOfList args hflat.inner.right))
  | .lambda _ body, hflat => .node rfl (collectsFrom_events body hflat.inner)
  | .quant _ parts, hflat => .node rfl (collectsFrom_eventsOfList parts hflat.inner)
  | .block _ binding body, hflat =>
    .node rfl ((collectsFrom_eventsOfOption binding hflat.inner.left).append
      (collectsFrom_events body hflat.inner.right))
  | .ifElse _ cond thenBranch elseBranch, hflat =>
    .node rfl (((collectsFrom_events cond hflat.inner.left.left).append
      (collectsFrom_events thenBranch hflat.inner.left.right)).append
        (collectsFrom_events elseBranch hflat.inner.right))
  | .matchExp _ discriminator arms, hflat =>
    .node rfl ((collectsFrom_events discriminator hflat.inner.left).append
      (collectsFrom_eventsOfList arms hflat.inner.right))
  | .return _ returned, hflat => .node rfl (collectsFrom_events returned hflat.inner)
  | .sequence _ items, hflat => .node rfl (collectsFrom_eventsOfList items hflat.inner)
  | .loop _ body, hflat => .node rfl (collectsFrom_events body hflat.inner)
  | .assign _ rhs, hflat => .node rfl (collectsFrom_events rhs hflat.inner)
  | .mutate _ lhs rhs, hflat =>
    .node rfl ((collectsFrom_events rhs hflat.inner.left).append
      (collectsFrom_events lhs hflat.inner.right))
  | .specBlock loc contents, hflat => .specBlock (hflat loc contents List.mem_cons_self)

theorem collectsFrom_eventsOfList : ∀ exps : List Exp, SpecBlocksFlat (Exp.eventsOfList exps) →
    CollectsFrom (Exp.eventsOfList exps) (Exp.nodesOutsideSpecList exps)
  | [], _ => .nil
  | exp :: rest, hflat =>
    (collectsFrom_events exp hflat.left).append (collectsFrom_eventsOfList rest hflat.right)

theorem collectsFrom_eventsOfOption : ∀ exp : Option Exp, SpecBlocksFlat (Exp.eventsOfOption exp) →
    CollectsFrom (Exp.eventsOfOption exp) (Exp.nodesOutsideSpecOption exp)
  | none, _ => .nil
  | some exp, hflat => collectsFrom_events exp hflat
end

/-! ## `traverse_function` -/

/-- `traverse_function` never mutates a spec block. For a body whose spec blocks hold none, the
walk of `visit_pre_post` collects exactly the mutants of the nodes outside spec blocks and ends
with `is_inside_spec` clear, the flag stays set while the walk is inside a spec block, and every
mutant `traverse_function` returns comes from a node outside spec blocks. -/
theorem traverseFunction_mutants_outside_spec (function : FunctionEnv)
    (selected : Option (List (List Char))) {body : Exp} (hdef : function.definition = some body)
    (hflat : SpecBlocksFlat body.events) :
    body.events.foldl visitStep (false, []) =
        (false, body.nodesOutsideSpec.flatMap parseExpressionAndFindMutants) ∧
      (∀ loc contents, (false, .specBlock loc contents) ∈ body.events → ∀ mutants,
        (Exp.eventsOfList contents).foldl visitStep (true, mutants) = (true, mutants)) ∧
      ∀ mutant ∈ traverseFunction function selected, ∃ node ∈ body.nodesOutsideSpec,
        ∃ found ∈ parseExpressionAndFindMutants node,
          mutant = { found with functionName := some function.name } := by
  have hwalk := collectsFrom_events body hflat []
  rw [List.nil_append] at hwalk
  refine ⟨hwalk, fun loc contents hmem ↦ foldl_visitStep_inside (hflat loc contents hmem), ?_⟩
  intro mutant hmutant
  unfold traverseFunction at hmutant
  rw [hdef] at hmutant
  split at hmutant
  · cases hmutant
  · split at hmutant
    · cases hmutant
    · dsimp only at hmutant
      rw [hwalk] at hmutant
      obtain ⟨found, hfound, rfl⟩ := List.mem_map.mp hmutant
      obtain ⟨node, hnode, hfound'⟩ := List.mem_flatMap.mp hfound
      exact ⟨node, hnode, found, hfound', rfl⟩

/-- The body `1; spec { 2 }`: only the literal outside the spec block is mutated. -/
theorem traverseFunction_mutants_outside_spec_sequence :
    let body := Exp.sequence ⟨0, 12⟩ [.value ⟨0, 1⟩ (.primitive .u8) (.number 1),
      .specBlock ⟨3, 12⟩ [.value ⟨10, 11⟩ (.primitive .u8) (.number 2)]]
    SpecBlocksFlat body.events ∧
      ∀ mutant ∈ traverseFunction ⟨"f".toList, [], some body⟩ none,
        ∃ node ∈ body.nodesOutsideSpec, ∃ found ∈ parseExpressionAndFindMutants node,
          mutant = { found with functionName := some "f".toList } := by
  intro body
  have hflat : SpecBlocksFlat body.events := by
    intro loc contents hmem
    have hevents : body.events = [(false, body),
        (false, .value ⟨0, 1⟩ (.primitive .u8) (.number 1)),
        (true, .value ⟨0, 1⟩ (.primitive .u8) (.number 1)),
        (false, .specBlock ⟨3, 12⟩ [.value ⟨10, 11⟩ (.primitive .u8) (.number 2)]),
        (false, .value ⟨10, 11⟩ (.primitive .u8) (.number 2)),
        (true, .value ⟨10, 11⟩ (.primitive .u8) (.number 2)),
        (true, .specBlock ⟨3, 12⟩ [.value ⟨10, 11⟩ (.primitive .u8) (.number 2)]),
        (true, body)] := rfl
    rw [hevents] at hmem
    simp [body] at hmem
    obtain ⟨rfl, rfl⟩ := hmem
    show ∀ event ∈ Exp.eventsOfList [.value ⟨10, 11⟩ (.primitive .u8) (.number 2)], _
    decide
  exact ⟨hflat, (traverseFunction_mutants_outside_spec ⟨"f".toList, [], some body⟩ none rfl
    hflat).2.2⟩

end AptosCore.Mutator
