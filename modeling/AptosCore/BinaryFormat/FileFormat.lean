import Mathlib

/-!
# Bytecode of the Move binary format

`move-binary-format/src/file_format.rs`: the `Bytecode` instructions and what the control-flow
graph reads of them, the branch kinds, the branch target (`offset`) and the successors of an
instruction (`get_successors`). Pool indices and immediate values are `Nat`. Code offsets are
below `2 ^ 16`, which the bounds checker ensures; that bound is left out.

A successor is the branch target or the next instruction, in ascending order; an instruction
that is not a branch has the next instruction as its only successor
(`getSuccessors_of_isBranch_eq_false`).
-/

namespace AptosCore.BinaryFormat

/-- `Bytecode`. -/
inductive Bytecode where
  | pop
  | ret
  | brTrue (offset : Nat)
  | brFalse (offset : Nat)
  | branch (offset : Nat)
  | ldU8 (value : Nat)
  | ldU64 (value : Nat)
  | ldU128 (value : Nat)
  | castU8
  | castU64
  | castU128
  | ldConst (idx : Nat)
  | ldTrue
  | ldFalse
  | copyLoc (idx : Nat)
  | moveLoc (idx : Nat)
  | stLoc (idx : Nat)
  | call (idx : Nat)
  | callGeneric (idx : Nat)
  | pack (idx : Nat)
  | packGeneric (idx : Nat)
  | unpack (idx : Nat)
  | unpackGeneric (idx : Nat)
  | readRef
  | writeRef
  | freezeRef
  | mutBorrowLoc (idx : Nat)
  | immBorrowLoc (idx : Nat)
  | mutBorrowField (idx : Nat)
  | mutBorrowFieldGeneric (idx : Nat)
  | immBorrowField (idx : Nat)
  | immBorrowFieldGeneric (idx : Nat)
  | mutBorrowGlobal (idx : Nat)
  | mutBorrowGlobalGeneric (idx : Nat)
  | immBorrowGlobal (idx : Nat)
  | immBorrowGlobalGeneric (idx : Nat)
  | add
  | sub
  | mul
  | mod
  | div
  | bitOr
  | bitAnd
  | xor
  | or
  | and
  | not
  | eq
  | neq
  | lt
  | gt
  | le
  | ge
  | abort
  | nop
  | exists (idx : Nat)
  | existsGeneric (idx : Nat)
  | moveFrom (idx : Nat)
  | moveFromGeneric (idx : Nat)
  | moveTo (idx : Nat)
  | moveToGeneric (idx : Nat)
  | shl
  | shr
  | vecPack (idx : Nat) (num : Nat)
  | vecLen (idx : Nat)
  | vecImmBorrow (idx : Nat)
  | vecMutBorrow (idx : Nat)
  | vecPushBack (idx : Nat)
  | vecPopBack (idx : Nat)
  | vecUnpack (idx : Nat) (num : Nat)
  | vecSwap (idx : Nat)
  | ldU16 (value : Nat)
  | ldU32 (value : Nat)
  | ldU256 (value : Nat)
  | castU16
  | castU32
  | castU256

namespace Bytecode

def isUnconditionalBranch : Bytecode → Bool
  | .ret | .abort | .branch _ => true
  | _ => false

def isConditionalBranch : Bytecode → Bool
  | .brFalse _ | .brTrue _ => true
  | _ => false

def isBranch (bytecode : Bytecode) : Bool :=
  bytecode.isConditionalBranch || bytecode.isUnconditionalBranch

def offset : Bytecode → Option Nat
  | .brFalse offset | .brTrue offset | .branch offset => some offset
  | _ => none

/-- `get_successors`. The source asserts that `pc` is in the code; outside it there is no
successor here. Two successors are given in ascending order. -/
def getSuccessors (pc : Nat) (code : List Bytecode) : List Nat :=
  match code[pc]? with
  | none => []
  | some bytecode =>
    let v := bytecode.offset.toList
    let nextPc := pc + 1
    if nextPc ≥ code.length then v
    else
      let v := if !bytecode.isUnconditionalBranch && !v.contains nextPc then v ++ [nextPc] else v
      match v with
      | [first, second] => if first > second then [second, first] else v
      | _ => v

theorem offset_eq_none_of_isBranch_eq_false {bytecode : Bytecode}
    (hbranch : bytecode.isBranch = false) : bytecode.offset = none := by
  unfold offset
  split
  all_goals first
    | rfl
    | simp [isBranch, isConditionalBranch, isUnconditionalBranch] at hbranch

theorem isUnconditionalBranch_eq_false {bytecode : Bytecode}
    (hbranch : bytecode.isBranch = false) : bytecode.isUnconditionalBranch = false := by
  unfold isBranch at hbranch
  rw [Bool.or_eq_false_iff] at hbranch
  exact hbranch.2

@[simp] theorem isBranch_ret : Bytecode.ret.isBranch = true := rfl

@[simp] theorem isBranch_abort : Bytecode.abort.isBranch = true := rfl

/-- An instruction that is not a branch falls through to the next one. -/
theorem getSuccessors_of_isBranch_eq_false {pc : Nat} {code : List Bytecode} {bytecode : Bytecode}
    (hpc : code[pc]? = some bytecode) (hbranch : bytecode.isBranch = false)
    (hnext : pc + 1 < code.length) : getSuccessors pc code = [pc + 1] := by
  unfold getSuccessors
  rw [hpc]
  dsimp only
  rw [offset_eq_none_of_isBranch_eq_false hbranch, isUnconditionalBranch_eq_false hbranch]
  simp [Nat.not_le.mpr hnext]

/-- A successor of an instruction is its branch target or the next instruction. -/
theorem mem_getSuccessors {pc next : Nat} {code : List Bytecode} {bytecode : Bytecode}
    (hpc : code[pc]? = some bytecode) (hmem : next ∈ getSuccessors pc code) :
    bytecode.offset = some next ∨ (next = pc + 1 ∧ pc + 1 < code.length) := by
  unfold getSuccessors at hmem
  rw [hpc] at hmem
  dsimp only at hmem
  have hunsorted : next ∈ bytecode.offset.toList ∨ (next = pc + 1 ∧ pc + 1 < code.length) := by
    split_ifs at hmem with hend hfall
    · exact .inl hmem
    · have hsorted : next ∈ bytecode.offset.toList ++ [pc + 1] := by
        split at hmem
        next first second hpair =>
          split_ifs at hmem
          · rw [hpair]
            simp only [List.mem_cons, List.not_mem_nil, or_false] at hmem ⊢
            omega
          · exact hmem
        next => exact hmem
      rcases List.mem_append.mp hsorted with hoffset | hself
      · exact .inl hoffset
      · exact .inr ⟨List.mem_singleton.mp hself, by omega⟩
    · split at hmem
      next first second hpair =>
        split_ifs at hmem
        · rw [hpair]
          simp only [List.mem_cons, List.not_mem_nil, or_false] at hmem ⊢
          omega
        · exact .inl hmem
      next => exact .inl hmem
  rcases hunsorted with hoffset | hself
  · exact .inl (Option.mem_toList.mp hoffset)
  · exact .inr hself

end Bytecode

end AptosCore.BinaryFormat
