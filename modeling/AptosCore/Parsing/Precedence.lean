import Mathlib

/-!
# Precedence climbing

A binary expression is a first operand followed by operator-operand pairs; precedence climbing
turns it into a tree, reading the operators only through their precedences. `climb` is the loop
of a precedence-climbing parser: it extends the tree it has while the next operator binds at
least `minPrec`, and parses a right operand first when the operator after it binds tighter.

Two facts about it are general. It is sound: the tree it builds reads back as the tokens it
consumed (`climb_sound`). And it is natural in the operators: relabelling the operators without
changing their precedences relabels the tree and changes nothing else (`climb_mapOp`). Hence
replacing one operator by another of the same precedence gives the same tree with that one node
relabelled (`parse_replaceOpAt`); an operator of another precedence can regroup the operands.
-/

namespace AptosCore.Parsing

/-- Binary expression trees: operands at the leaves, operators at the inner nodes. -/
inductive BinTree (α β : Type) where
  | operand (value : α)
  | binop (lhs : BinTree α β) (op : β) (rhs : BinTree α β)
  deriving DecidableEq, Repr

namespace BinTree

variable {α β γ : Type}

/-- The tree with its operators relabelled. -/
def mapOp (g : β → γ) : BinTree α β → BinTree α γ
  | operand value => operand value
  | binop lhs op rhs => binop (lhs.mapOp g) (g op) (rhs.mapOp g)

/-- The first operand of a tree. -/
def first : BinTree α β → α
  | operand value => value
  | binop lhs _ _ => lhs.first

/-- The operator-operand pairs after the first operand: the tree read back as tokens. -/
def rest : BinTree α β → List (β × α)
  | operand _ => []
  | binop lhs op rhs => lhs.rest ++ (op, rhs.first) :: rhs.rest

@[simp] theorem first_operand (value : α) : (operand value : BinTree α β).first = value := rfl

@[simp] theorem first_binop (lhs : BinTree α β) (op : β) (rhs : BinTree α β) :
    (binop lhs op rhs).first = lhs.first := rfl

@[simp] theorem rest_operand (value : α) : (operand value : BinTree α β).rest = [] := rfl

theorem rest_binop (lhs : BinTree α β) (op : β) (rhs : BinTree α β) :
    (binop lhs op rhs).rest = lhs.rest ++ (op, rhs.first) :: rhs.rest := rfl

@[simp] theorem mapOp_operand (g : β → γ) (value : α) :
    (operand value : BinTree α β).mapOp g = operand value := rfl

@[simp] theorem mapOp_binop (g : β → γ) (lhs : BinTree α β) (op : β) (rhs : BinTree α β) :
    (binop lhs op rhs).mapOp g = binop (lhs.mapOp g) (g op) (rhs.mapOp g) := rfl

end BinTree

open BinTree

variable {α β γ : Type} (prec : β → Nat)

/-- The precedence of the next token: that of its operator, or `0` at the end of the binary
expression, below every operator's. -/
def peekPrec : List (β × α) → Nat
  | [] => 0
  | (op, _) :: _ => prec op

@[simp] theorem peekPrec_nil : peekPrec prec ([] : List (β × α)) = 0 := rfl

@[simp] theorem peekPrec_cons (op : β) (value : α) (rest : List (β × α)) :
    peekPrec prec ((op, value) :: rest) = prec op := rfl

/-- The loop of a precedence-climbing parser from the tree `lhs`, consuming pairs while their
operator binds at least `minPrec`; `fuel` bounds the number of pairs it may consume. A tighter operator after
the operand takes the operand as its left side first. -/
def climb : Nat → BinTree α β → Nat → List (β × α) → BinTree α β × List (β × α)
  | 0, lhs, _, tokens => (lhs, tokens)
  | _ + 1, lhs, _, [] => (lhs, [])
  | fuel + 1, lhs, minPrec, (op, value) :: rest =>
    if minPrec ≤ prec op then
      let (rhs, rest) :=
        if prec op < peekPrec prec rest then climb fuel (.operand value) (prec op + 1) rest
        else (.operand value, rest)
      climb fuel (.binop lhs op rhs) minPrec rest
    else (lhs, (op, value) :: rest)

@[simp] theorem climb_zero (lhs : BinTree α β) (minPrec : Nat) (tokens : List (β × α)) :
    climb prec 0 lhs minPrec tokens = (lhs, tokens) := rfl

@[simp] theorem climb_succ_nil (fuel : Nat) (lhs : BinTree α β) (minPrec : Nat) :
    climb prec (fuel + 1) lhs minPrec [] = (lhs, []) := rfl

theorem climb_succ_cons (fuel : Nat) (lhs : BinTree α β) (minPrec : Nat) (op : β) (value : α)
    (rest : List (β × α)) :
    climb prec (fuel + 1) lhs minPrec ((op, value) :: rest) =
      if minPrec ≤ prec op then
        let (rhs, rest) :=
          if prec op < peekPrec prec rest then climb prec fuel (.operand value) (prec op + 1) rest
          else (.operand value, rest)
        climb prec fuel (.binop lhs op rhs) minPrec rest
      else (lhs, (op, value) :: rest) := rfl

/-- A whole binary expression, with one unit of fuel for each pair. -/
def parse (first : α) (tokens : List (β × α)) : BinTree α β :=
  (climb prec tokens.length (.operand first) 1 tokens).1

/-- The pairs with the operator at position `i` replaced. -/
def replaceOpAt (i : Nat) (op' : β) (tokens : List (β × α)) : List (β × α) :=
  tokens.mapIdx fun j token ↦ if j = i then (op', token.2) else token

section Sound

/-- The tree `climb` returns, read back, is the tree it started from followed by the pairs it
consumed; the pairs it leaves follow them in the input. -/
theorem climb_sound (fuel : Nat) (lhs : BinTree α β) (minPrec : Nat) (tokens : List (β × α)) :
    (climb prec fuel lhs minPrec tokens).1.first = lhs.first ∧
      (climb prec fuel lhs minPrec tokens).1.rest ++ (climb prec fuel lhs minPrec tokens).2 =
        lhs.rest ++ tokens := by
  induction fuel generalizing lhs minPrec tokens with
  | zero => exact ⟨rfl, rfl⟩
  | succ fuel ih =>
    cases tokens with
    | nil => exact ⟨rfl, by simp⟩
    | cons token rest =>
      obtain ⟨op, value⟩ := token
      by_cases hbind : minPrec ≤ prec op
      case neg => simp [climb_succ_cons, hbind]
      case pos =>
        have hrhs : ∃ rhs rest', (if prec op < peekPrec prec rest then
            climb prec fuel (.operand value) (prec op + 1) rest
            else (.operand value, rest)) = (rhs, rest') ∧
            rhs.first = value ∧ rhs.rest ++ rest' = rest := by
          split_ifs
          · obtain ⟨hfirst, hrest⟩ := ih (.operand value) (prec op + 1) rest
            exact ⟨_, _, rfl, hfirst, hrest⟩
          · exact ⟨_, _, rfl, rfl, rfl⟩
        obtain ⟨rhs, rest', hsplit, hfirst, hrest⟩ := hrhs
        simp only [climb_succ_cons, hbind, if_true, hsplit]
        obtain ⟨hfirst', hrest''⟩ := ih (.binop lhs op rhs) minPrec rest'
        refine ⟨hfirst', ?_⟩
        rw [hrest'', BinTree.rest_binop, hfirst, List.append_assoc, List.cons_append, hrest]

end Sound

section Natural

variable (prec' : γ → Nat) (g : β → γ)

theorem peekPrec_map {tokens : List (β × α)}
    (hprec : ∀ token ∈ tokens, prec' (g token.1) = prec token.1) :
    peekPrec prec' (tokens.map fun token ↦ (g token.1, token.2)) = peekPrec prec tokens := by
  cases tokens with
  | nil => rfl
  | cons token rest => exact hprec token List.mem_cons_self

/-- Relabelling the operators of the input without changing their precedences relabels the
tree and the pairs left over, and changes nothing else. -/
theorem climb_mapOp (fuel : Nat) (lhs : BinTree α β) (minPrec : Nat) (tokens : List (β × α))
    (hprec : ∀ token ∈ tokens, prec' (g token.1) = prec token.1) :
    climb prec' fuel (lhs.mapOp g) minPrec (tokens.map fun token ↦ (g token.1, token.2)) =
      ((climb prec fuel lhs minPrec tokens).1.mapOp g,
        (climb prec fuel lhs minPrec tokens).2.map fun token ↦ (g token.1, token.2)) := by
  induction fuel generalizing lhs minPrec tokens with
  | zero => rfl
  | succ fuel ih =>
    cases tokens with
    | nil => rfl
    | cons token rest =>
      obtain ⟨op, value⟩ := token
      have hop : prec' (g op) = prec op := hprec (op, value) List.mem_cons_self
      have hrest : ∀ token ∈ rest, prec' (g token.1) = prec token.1 :=
        fun token htoken ↦ hprec token (List.mem_cons_of_mem _ htoken)
      have hpeek := peekPrec_map prec prec' g hrest
      by_cases hbind : minPrec ≤ prec op
      case neg => simp [climb_succ_cons, hop, hbind]
      case pos =>
        by_cases htighter : prec op < peekPrec prec rest
        case pos =>
          have hrhs := ih (.operand value) (prec op + 1) rest hrest
          rw [BinTree.mapOp_operand] at hrhs
          have hsuffix := (climb_sound prec fuel (.operand value) (prec op + 1) rest).2
          simp only [List.map_cons, climb_succ_cons, hop, hpeek, hbind, htighter, if_true]
          rw [hrhs]
          generalize climb prec fuel (.operand value) (prec op + 1) rest = result at hsuffix ⊢
          obtain ⟨rhs, rest'⟩ := result
          simp only [BinTree.rest_operand, List.nil_append] at hsuffix
          have hrest' : ∀ token ∈ rest', prec' (g token.1) = prec token.1 := fun token htoken ↦
            hrest token (hsuffix ▸ List.mem_append_right _ htoken)
          rw [← BinTree.mapOp_binop]
          exact ih _ minPrec rest' hrest'
        case neg =>
          simp only [List.map_cons, climb_succ_cons, hop, hpeek, hbind, htighter, if_true,
            if_false]
          rw [← BinTree.mapOp_operand g value, ← BinTree.mapOp_binop]
          exact ih _ minPrec rest hrest

end Natural

section Replace

/-- Each operator tagged with its position. -/
def tagOps (tokens : List (β × α)) : List ((Nat × β) × α) :=
  tokens.mapIdx fun j token ↦ ((j, token.1), token.2)

/-- The operator of a tag, replaced by `op'` at position `i`. -/
def relabelAt (i : Nat) (op' : β) (tag : Nat × β) : β :=
  if tag.1 = i then op' else tag.2

@[simp] theorem length_tagOps (tokens : List (β × α)) : (tagOps tokens).length = tokens.length := by
  simp [tagOps]

@[simp] theorem length_replaceOpAt (i : Nat) (op' : β) (tokens : List (β × α)) :
    (replaceOpAt i op' tokens).length = tokens.length := by
  simp [replaceOpAt]

theorem map_snd_tagOps (tokens : List (β × α)) :
    (tagOps tokens).map (fun token ↦ (token.1.2, token.2)) = tokens := by
  apply List.ext_getElem <;> simp [tagOps]

theorem map_relabelAt_tagOps (i : Nat) (op' : β) (tokens : List (β × α)) :
    (tagOps tokens).map (fun token ↦ (relabelAt i op' token.1, token.2)) =
      replaceOpAt i op' tokens := by
  apply List.ext_getElem
  · simp
  · intro j _ _
    by_cases hj : j = i <;> simp [tagOps, replaceOpAt, relabelAt, hj]

theorem getElem?_of_mem_tagOps {tokens : List (β × α)} {token : (Nat × β) × α}
    (htoken : token ∈ tagOps tokens) : tokens[token.1.1]? = some (token.1.2, token.2) := by
  obtain ⟨j, hj, rfl⟩ := List.mem_iff_getElem.mp htoken
  have hj' : j < tokens.length := by simpa using hj
  simp [tagOps, hj']

/-- Replacing the operator at position `i` by one of the same precedence changes the parse of a
binary expression at that operator's node only: both parses are one tree of position-tagged
operators, read with the original operators and with the relabelled one. -/
theorem parse_replaceOpAt (first : α) (tokens : List (β × α)) (i : Nat) (op' : β)
    (hprec : ∀ token ∈ tokens[i]?, prec op' = prec token.1) :
    ∃ tree : BinTree α (Nat × β), parse prec first tokens = tree.mapOp Prod.snd ∧
      parse prec first (replaceOpAt i op' tokens) = tree.mapOp (relabelAt i op') := by
  let tagPrec : Nat × β → Nat := fun tag ↦ prec tag.2
  refine ⟨parse tagPrec first (tagOps tokens), ?_, ?_⟩
  · have h := climb_mapOp tagPrec prec Prod.snd (tagOps tokens).length (.operand first) 1
      (tagOps tokens) fun _ _ ↦ rfl
    rw [map_snd_tagOps, mapOp_operand] at h
    rw [parse, parse, ← length_tagOps tokens, h]
  · have hkeep : ∀ token ∈ tagOps tokens, prec (relabelAt i op' token.1) = tagPrec token.1 := by
      intro token htoken
      unfold relabelAt
      split_ifs with hi
      · exact hprec _ (by rw [← hi]; exact getElem?_of_mem_tagOps htoken)
      · rfl
    have h := climb_mapOp tagPrec prec (relabelAt i op') (tagOps tokens).length (.operand first) 1
      (tagOps tokens) hkeep
    rw [map_relabelAt_tagOps, mapOp_operand] at h
    rw [parse, parse, length_replaceOpAt, ← length_tagOps tokens, h]

end Replace

end AptosCore.Parsing
