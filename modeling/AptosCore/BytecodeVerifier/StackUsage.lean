import Mathlib
import AptosCore.BinaryFormat.ControlFlowGraph
import AptosCore.Move.Integer
import AptosCore.Rust.Result

/-!
# The stack usage verifier

`move-bytecode-verifier/src/stack_usage_verifier.rs`. Each basic block is checked on its own:
from a height of zero above the block's start, no instruction pops below it, the height stays
within `max_value_stack_size`, and the block ends where it started. What an instruction pops and
pushes (`instruction_effect`) is read from the module's tables for calls and structs; the
`BinaryIndexedView` here gives those counts.

An execution is modelled by the height of the function's own operand stack and the program
counter: each instruction applies its effect and passes control to one of its successors
(`Step`). The result (`verify_stack_sound`): when `verify` accepts a code unit, every execution
from the entry enters each basic block with an empty stack, never pops below it, stays within
the bound, and reaches `Ret` with exactly the returned values and `Abort` with exactly one. The
invariant (`InBlock`) says that the height at `pc` is the one `verify_block` computes for the
instructions of `pc`'s block before it; the control-flow graph's facts carry it from one block
to the next.
-/

namespace AptosCore.BytecodeVerifier

open BinaryFormat BinaryFormat.VMControlFlowGraph Move.Integer

/-- `StatusCode`, with the statuses the stack usage verifier raises. -/
inductive StatusCode where
  | valueStackPushOverflow
  | negativeStackSizeWithinBlock
  | positiveStackSizeAtBlockEnd
  | valueStackOverflow
  | invalidOperationInScript
  deriving DecidableEq, Repr

/-- `PartialVMError`: the status and the offset of the block where it was raised. -/
structure PartialVMError where
  majorStatus : StatusCode
  codeOffset : Option Nat
  deriving DecidableEq, Repr

/-- `VerifierConfig`, with the fields the stack usage verifier reads. -/
structure VerifierConfig where
  maxValueStackSize : Nat
  maxPushSize : Option Nat

/-- `StructFieldInformation`, with the number of declared fields. -/
inductive StructFieldInformation where
  | native
  | declared (fields : Nat)

/-- `FunctionHandle`, with the lengths of its parameter and return signatures. -/
structure FunctionHandle where
  parameters : Nat
  returns : Nat

/-- What the stack usage verifier reads through `BinaryIndexedView`: function handles, the handle
of a function instantiation, struct definitions and the definition of a struct instantiation.
The struct tables fail in a script. -/
structure BinaryIndexedView where
  functionHandleAt : Nat → FunctionHandle
  functionInstantiationAt : Nat → Nat
  structDefAt : Nat → Except PartialVMError StructFieldInformation
  structInstantiationAt : Nat → Except PartialVMError Nat

/-- `StackUsageVerifier`: the module's tables, the code unit and the number of values the
function returns (`return_.len()`). -/
structure StackUsageVerifier where
  resolver : BinaryIndexedView
  code : List Bytecode
  returnCount : Nat

namespace StackUsageVerifier

/-- The number of fields of a struct definition; a native one counts as none. -/
def fieldCount : StructFieldInformation → Nat
  | .native => 0
  | .declared fields => fields

/-- `instruction_effect`: the number of values an instruction pops and pushes. -/
def instructionEffect (verifier : StackUsageVerifier) :
    Bytecode → Except PartialVMError (Nat × Nat)
  | .pop | .brTrue _ | .brFalse _ | .stLoc _ | .abort => .ok (1, 0)
  | .ldU8 _ | .ldU16 _ | .ldU32 _ | .ldU64 _ | .ldU128 _ | .ldU256 _ | .ldTrue | .ldFalse
  | .ldConst _ | .copyLoc _ | .moveLoc _ | .mutBorrowLoc _ | .immBorrowLoc _ => .ok (0, 1)
  | .not | .freezeRef | .readRef | .exists _ | .existsGeneric _ | .mutBorrowGlobal _
  | .mutBorrowGlobalGeneric _ | .immBorrowGlobal _ | .immBorrowGlobalGeneric _
  | .mutBorrowField _ | .mutBorrowFieldGeneric _ | .immBorrowField _ | .immBorrowFieldGeneric _
  | .moveFrom _ | .moveFromGeneric _ | .castU8 | .castU16 | .castU32 | .castU64 | .castU128
  | .castU256 | .vecLen _ | .vecPopBack _ => .ok (1, 1)
  | .add | .sub | .mul | .mod | .div | .bitOr | .bitAnd | .xor | .shl | .shr | .or | .and | .eq
  | .neq | .lt | .gt | .le | .ge => .ok (2, 1)
  | .vecPack _ num => .ok (num, 1)
  | .vecUnpack _ num => .ok (1, num)
  | .vecImmBorrow _ | .vecMutBorrow _ => .ok (2, 1)
  | .moveTo _ | .moveToGeneric _ | .writeRef | .vecPushBack _ => .ok (2, 0)
  | .vecSwap _ => .ok (3, 0)
  | .branch _ | .nop => .ok (0, 0)
  | .ret => .ok (verifier.returnCount, 0)
  | .call idx =>
    let functionHandle := verifier.resolver.functionHandleAt idx
    .ok (functionHandle.parameters, functionHandle.returns)
  | .callGeneric idx =>
    let functionHandle := verifier.resolver.functionHandleAt
      (verifier.resolver.functionInstantiationAt idx)
    .ok (functionHandle.parameters, functionHandle.returns)
  | .pack idx => do
    let structDefinition ← verifier.resolver.structDefAt idx
    pure (fieldCount structDefinition, 1)
  | .packGeneric idx => do
    let definition ← verifier.resolver.structInstantiationAt idx
    let structDefinition ← verifier.resolver.structDefAt definition
    pure (fieldCount structDefinition, 1)
  | .unpack idx => do
    let structDefinition ← verifier.resolver.structDefAt idx
    pure (1, fieldCount structDefinition)
  | .unpackGeneric idx => do
    let definition ← verifier.resolver.structInstantiationAt idx
    let structDefinition ← verifier.resolver.structDefAt definition
    pure (1, fieldCount structDefinition)

/-- The checks of one iteration of `verify_block`'s loop, once the instruction's effect is
known: `stackSizeIncrement` is the height above the block's start and `overallPush` the values
pushed so far, both `u64`. On overflow the count of pushes is kept. -/
def verifyEffect (config : VerifierConfig) (blockStart stackSizeIncrement overallPush numPops
    numPushes : Nat) : Except PartialVMError (Nat × Nat) :=
  let overallPush := (addChecked 64 overallPush numPushes).getD overallPush
  if config.maxPushSize.any (fun maxPushSize ↦ overallPush > maxPushSize) then
    .error ⟨.valueStackPushOverflow, some blockStart⟩
  else if stackSizeIncrement < numPops then
    .error ⟨.negativeStackSizeWithinBlock, some blockStart⟩
  else
    match subChecked stackSizeIncrement numPops with
    | none => .error ⟨.negativeStackSizeWithinBlock, some blockStart⟩
    | some stackSizeIncrement =>
      match addChecked 64 stackSizeIncrement numPushes with
      | none => .error ⟨.positiveStackSizeAtBlockEnd, some blockStart⟩
      | some stackSizeIncrement =>
        if stackSizeIncrement > config.maxValueStackSize then
          .error ⟨.valueStackOverflow, some blockStart⟩
        else .ok (stackSizeIncrement, overallPush)

/-- The loop of `verify_block` over `instructions`. -/
def verifyInstructions (verifier : StackUsageVerifier) (config : VerifierConfig)
    (blockStart : Nat) : List Bytecode → Nat → Nat → Except PartialVMError (Nat × Nat)
  | [], stackSizeIncrement, overallPush => .ok (stackSizeIncrement, overallPush)
  | instruction :: instructions, stackSizeIncrement, overallPush => do
    let (numPops, numPushes) ← verifier.instructionEffect instruction
    let (stackSizeIncrement, overallPush) ←
      verifyEffect config blockStart stackSizeIncrement overallPush numPops numPushes
    verifier.verifyInstructions config blockStart instructions stackSizeIncrement overallPush

/-- The instructions of the code from `start` up to, and without, `stop`. -/
def instructionsBetween (code : List Bytecode) (start stop : Nat) : List Bytecode :=
  (code.drop start).take (stop - start)

/-- `verify_block`, on the instructions from `blockStart` to `blockEnd`. -/
def verifyBlock (verifier : StackUsageVerifier) (config : VerifierConfig)
    (blockStart blockEnd : Nat) : Except PartialVMError Unit := do
  let (stackSizeIncrement, _) ← verifier.verifyInstructions config blockStart
    (instructionsBetween verifier.code blockStart (blockEnd + 1)) 0 0
  if stackSizeIncrement = 0 then pure ()
  else throw ⟨.positiveStackSizeAtBlockEnd, some blockStart⟩

/-- `verify`: every block of the control-flow graph `VMControlFlowGraph::new` builds. -/
def verify (verifier : StackUsageVerifier) (config : VerifierConfig) :
    Except PartialVMError Unit :=
  (VMControlFlowGraph.new verifier.code).blocks.forM fun block ↦
    verifier.verifyBlock config block.1 block.2.exit

/-! ## Executions -/

/-- What the stack usage verifier speaks about in an execution: the program counter and the
height of the function's own operand stack. -/
structure Frame where
  pc : Nat
  height : Nat

/-- One instruction executed: the height loses what it pops and gains what it pushes, and
control passes to one of its successors. -/
inductive Step (verifier : StackUsageVerifier) : Frame → Frame → Prop
  | mk {pc height numPops numPushes next : Nat} {instruction : Bytecode}
      (hinstruction : verifier.code[pc]? = some instruction)
      (heffect : verifier.instructionEffect instruction = .ok (numPops, numPushes))
      (hnext : next ∈ Bytecode.getSuccessors pc verifier.code) :
      Step verifier ⟨pc, height⟩ ⟨next, height - numPops + numPushes⟩

@[simp] theorem instructionEffect_ret (verifier : StackUsageVerifier) :
    verifier.instructionEffect .ret = .ok (verifier.returnCount, 0) := rfl

@[simp] theorem instructionEffect_abort (verifier : StackUsageVerifier) :
    verifier.instructionEffect .abort = .ok (1, 0) := rfl

/-! ## What the checks say -/

section Checks

variable {verifier : StackUsageVerifier} {config : VerifierConfig}

/-- An instruction passes the checks when it pops no more than the height and the height after
it stays within the bound; the height after it is then what it pops and pushes make it. -/
theorem verifyEffect_eq_ok {blockStart stackSizeIncrement overallPush numPops numPushes : Nat}
    {stackSizeIncrement' overallPush' : Nat}
    (hok : verifyEffect config blockStart stackSizeIncrement overallPush numPops numPushes =
      .ok (stackSizeIncrement', overallPush')) :
    numPops ≤ stackSizeIncrement ∧
      stackSizeIncrement - numPops + numPushes ≤ config.maxValueStackSize ∧
      stackSizeIncrement' = stackSizeIncrement - numPops + numPushes := by
  unfold verifyEffect at hok
  simp only at hok
  split at hok
  · cases hok
  split at hok
  · cases hok
  rename_i hpops
  rw [subChecked_of_le (Nat.not_lt.mp hpops)] at hok
  simp only at hok
  split at hok
  · cases hok
  rename_i sum hsum
  rw [eq_of_addChecked_eq_some hsum] at hok
  split at hok
  · cases hok
  rename_i hmax
  cases hok
  exact ⟨Nat.not_lt.mp hpops, Nat.not_lt.mp hmax, rfl⟩

theorem verifyInstructions_append (blockStart : Nat) (first second : List Bytecode)
    (stackSizeIncrement overallPush : Nat) :
    verifier.verifyInstructions config blockStart (first ++ second) stackSizeIncrement overallPush =
      verifier.verifyInstructions config blockStart first stackSizeIncrement overallPush >>=
        fun state ↦ verifier.verifyInstructions config blockStart second state.1 state.2 := by
  induction first generalizing stackSizeIncrement overallPush with
  | nil => rfl
  | cons instruction first ih =>
    simp only [List.cons_append, verifyInstructions, ih, bind_assoc]

/-- The loop passes an instruction exactly when its effect is known and passes the checks. -/
theorem verifyInstructions_singleton {blockStart stackSizeIncrement overallPush : Nat}
    {instruction : Bytecode} {state : Nat × Nat}
    (hok : verifier.verifyInstructions config blockStart [instruction] stackSizeIncrement
      overallPush = .ok state) :
    ∃ numPops numPushes, verifier.instructionEffect instruction = .ok (numPops, numPushes) ∧
      verifyEffect config blockStart stackSizeIncrement overallPush numPops numPushes =
        .ok state := by
  simp only [verifyInstructions, Rust.bind_eq_ok_iff] at hok
  obtain ⟨⟨numPops, numPushes⟩, heffect, ⟨stackSizeIncrement', overallPush'⟩, hcheck, hdone⟩ := hok
  cases hdone
  exact ⟨numPops, numPushes, heffect, hcheck⟩

/-- A loop that passes the instructions of a block passes those before any point of it. -/
theorem verifyInstructions_of_append {blockStart : Nat} {first second : List Bytecode}
    {state : Nat × Nat}
    (hok : verifier.verifyInstructions config blockStart (first ++ second) 0 0 = .ok state) :
    ∃ middle, verifier.verifyInstructions config blockStart first 0 0 = .ok middle ∧
      verifier.verifyInstructions config blockStart second middle.1 middle.2 = .ok state := by
  rw [verifyInstructions_append, Rust.bind_eq_ok_iff] at hok
  exact hok

theorem verifyBlock_eq_ok {blockStart blockEnd : Nat}
    (hok : verifier.verifyBlock config blockStart blockEnd = .ok ()) :
    ∃ overallPush, verifier.verifyInstructions config blockStart
      (instructionsBetween verifier.code blockStart (blockEnd + 1)) 0 0 = .ok (0, overallPush) := by
  unfold verifyBlock at hok
  rw [Rust.bind_eq_ok_iff] at hok
  obtain ⟨⟨stackSizeIncrement, overallPush⟩, hloop, hend⟩ := hok
  dsimp only at hend
  split_ifs at hend with hzero
  rw [hzero] at hloop
  exact ⟨overallPush, hloop⟩

theorem forM_eq_ok_iff {α ε : Type} {items : List α} {f : α → Except ε Unit} :
    items.forM f = .ok () ↔ ∀ item ∈ items, f item = .ok () := by
  induction items with
  | nil => exact iff_of_true rfl (fun _ hmem ↦ absurd hmem List.not_mem_nil)
  | cons item items ih =>
    show (f item >>= fun _ ↦ items.forM f) = .ok () ↔ _
    rw [Rust.bind_unit_eq_ok_iff, ih, List.forall_mem_cons]

/-- `verify` passes every block of the control-flow graph. -/
theorem verifyBlock_of_verify (hverify : verifier.verify config = .ok ()) {start : Nat}
    {block : BasicBlock} (hmem : (start, block) ∈ (VMControlFlowGraph.new verifier.code).blocks) :
    verifier.verifyBlock config start block.exit = .ok () :=
  forM_eq_ok_iff.mp hverify (start, block) hmem

end Checks

/-! ## The slices of a block -/

section Slices

theorem instructionsBetween_succ {code : List Bytecode} {start pc : Nat} {instruction : Bytecode}
    (hstart : start ≤ pc) (hpc : code[pc]? = some instruction) :
    instructionsBetween code start (pc + 1) = instructionsBetween code start pc ++ [instruction] := by
  unfold instructionsBetween
  rw [show pc + 1 - start = pc - start + 1 by omega, List.take_add_one, List.getElem?_drop,
    show start + (pc - start) = pc by omega, hpc]
  rfl

theorem instructionsBetween_append {code : List Bytecode} {start middle stop : Nat}
    (hstart : start ≤ middle) (hstop : middle ≤ stop) :
    instructionsBetween code start stop =
      instructionsBetween code start middle ++ instructionsBetween code middle stop := by
  unfold instructionsBetween
  rw [show stop - start = (middle - start) + (stop - middle) by omega, List.take_add,
    List.drop_drop, show start + (middle - start) = middle by omega]

@[simp] theorem instructionsBetween_self (code : List Bytecode) (start : Nat) :
    instructionsBetween code start start = [] := by
  simp [instructionsBetween]

end Slices

/-! ## Soundness -/

/-- The invariant of an execution: at an instruction of the code, the height is what the loop of
`verify_block` computes for the instructions of a block before `pc`, and it is within the
bound. -/
def InBlock (verifier : StackUsageVerifier) (config : VerifierConfig) (frame : Frame) : Prop :=
  frame.height ≤ config.maxValueStackSize ∧
    (frame.pc < verifier.code.length →
      ∃ start block, (start, block) ∈ (VMControlFlowGraph.new verifier.code).blocks ∧
        start ≤ frame.pc ∧ frame.pc ≤ block.exit ∧
        ∃ overallPush, verifier.verifyInstructions config start
          (instructionsBetween verifier.code start frame.pc) 0 0 = .ok (frame.height, overallPush))

section Soundness

variable {verifier : StackUsageVerifier} {config : VerifierConfig}

/-- What `verify` says of an instruction reached with the invariant: its effect passes the
checks from the current height, and at the block's exit the block ends at height zero. -/
theorem instruction_checked (hverify : verifier.verify config = .ok ()) {start pc height : Nat}
    {block : BasicBlock} (hmem : (start, block) ∈ (VMControlFlowGraph.new verifier.code).blocks)
    (hstart : start ≤ pc) (hexit : pc ≤ block.exit) {overallPush : Nat}
    (hbefore : verifier.verifyInstructions config start
      (instructionsBetween verifier.code start pc) 0 0 = .ok (height, overallPush))
    {instruction : Bytecode} (hpc : verifier.code[pc]? = some instruction) :
    ∃ numPops numPushes, verifier.instructionEffect instruction = .ok (numPops, numPushes) ∧
      numPops ≤ height ∧ height - numPops + numPushes ≤ config.maxValueStackSize ∧
      (∃ overallPush', verifier.verifyInstructions config start
        (instructionsBetween verifier.code start (pc + 1)) 0 0 =
          .ok (height - numPops + numPushes, overallPush')) ∧
      (pc = block.exit → height - numPops + numPushes = 0) := by
  obtain ⟨endPush, hblock⟩ := verifyBlock_eq_ok (verifyBlock_of_verify hverify hmem)
  rw [instructionsBetween_append (show start ≤ pc + 1 by omega) (show pc + 1 ≤ block.exit + 1 by omega),
    instructionsBetween_succ hstart hpc, List.append_assoc] at hblock
  obtain ⟨middle, hfirst, hrest⟩ := verifyInstructions_of_append hblock
  rw [hbefore, Except.ok.injEq] at hfirst
  subst hfirst
  rw [verifyInstructions_append, Rust.bind_eq_ok_iff] at hrest
  obtain ⟨⟨afterHeight, afterPush⟩, hstep, hremaining⟩ := hrest
  obtain ⟨numPops, numPushes, heffect, hcheck⟩ := verifyInstructions_singleton hstep
  obtain ⟨hpops, hmax, hafter⟩ := verifyEffect_eq_ok hcheck
  subst hafter
  refine ⟨numPops, numPushes, heffect, hpops, hmax, ⟨afterPush, ?_⟩, fun hend ↦ ?_⟩
  · rw [instructionsBetween_succ hstart hpc, verifyInstructions_append, hbefore]
    exact hstep
  · rw [hend, instructionsBetween_self, verifyInstructions, Except.ok.injEq, Prod.mk.injEq]
      at hremaining
    exact hremaining.1

theorem eq_exit_of_isBranch {start pc : Nat} {block : BasicBlock}
    (hmem : (start, block) ∈ (VMControlFlowGraph.new verifier.code).blocks)
    (hstart : start ≤ pc) (hexit : pc ≤ block.exit) {instruction : Bytecode}
    (hpc : verifier.code[pc]? = some instruction) (hbranch : instruction.isBranch = true) :
    pc = block.exit := by
  obtain ⟨-, -, -, hinside, -, -⟩ := mem_blocks hmem
  by_contra hne
  have hend := isEndOfBlock_of_isBranch hpc hbranch
  rw [hinside pc hstart (by omega)] at hend
  cases hend

/-- An execution starts in the entry block with nothing on the stack. -/
theorem inBlock_entry : InBlock verifier config ⟨entryBlockId, 0⟩ := by
  refine ⟨Nat.zero_le _, fun hpc ↦ ?_⟩
  obtain ⟨start, block, hmem, hstart, hexit⟩ := exists_mem_blocks hpc
  refine ⟨start, block, hmem, hstart, hexit, 0, ?_⟩
  rw [Nat.le_zero.mp hstart]
  rfl

/-- One instruction keeps the invariant: inside a block control falls through to the next
instruction, and from the exit of a block, whose height is back to zero, it enters another
block at its start. -/
theorem InBlock.step (hverify : verifier.verify config = .ok ())
    {pc height numPops numPushes next : Nat} {instruction : Bytecode}
    (hin : InBlock verifier config ⟨pc, height⟩) (hpc : verifier.code[pc]? = some instruction)
    (heffect : verifier.instructionEffect instruction = .ok (numPops, numPushes))
    (hnext : next ∈ Bytecode.getSuccessors pc verifier.code) :
    InBlock verifier config ⟨next, height - numPops + numPushes⟩ := by
  have hlt : pc < verifier.code.length := (List.getElem?_eq_some_iff.mp hpc).1
  obtain ⟨start, block, hmem, hstart, hexit, overallPush, hbefore⟩ := hin.2 hlt
  dsimp only at hstart hexit hbefore
  obtain ⟨numPops', numPushes', heffect', -, hmax, ⟨overallPush', hafter⟩, hend⟩ :=
    instruction_checked hverify hmem hstart hexit hbefore hpc
  rw [heffect, Except.ok.injEq, Prod.mk.injEq] at heffect'
  obtain ⟨rfl, rfl⟩ := heffect'
  refine ⟨hmax, fun hnextlt ↦ ?_⟩
  dsimp only at hnextlt ⊢
  by_cases hinside : pc < block.exit
  case pos =>
    have hbranch : instruction.isBranch = false := by
      by_contra hbranch
      exact absurd (eq_exit_of_isBranch hmem hstart hexit hpc (by simpa using hbranch))
        (Nat.ne_of_lt hinside)
    obtain ⟨-, hexitlt, -⟩ := mem_blocks hmem
    rw [Bytecode.getSuccessors_of_isBranch_eq_false hpc hbranch (by omega),
      List.mem_singleton] at hnext
    subst hnext
    exact ⟨start, block, hmem, by omega, by omega, overallPush', hafter⟩
  case neg =>
    have hexiteq : pc = block.exit := by omega
    obtain ⟨-, -, hexitend, -, -, -⟩ := mem_blocks hmem
    rw [← hexiteq] at hexitend
    obtain ⟨block', hmem'⟩ := exists_block_of_mem_collectBlockIds
      (mem_collectBlockIds_of_mem_getSuccessors hexitend hnext) hnextlt
    obtain ⟨hle', -⟩ := mem_blocks hmem'
    refine ⟨next, block', hmem', le_rfl, hle', 0, ?_⟩
    rw [instructionsBetween_self, hend hexiteq]
    rfl

/-- The invariant holds along every execution from the entry. -/
theorem inBlock_of_reachable (hverify : verifier.verify config = .ok ()) {frame : Frame}
    (hreach : Relation.ReflTransGen verifier.Step ⟨entryBlockId, 0⟩ frame) :
    InBlock verifier config frame := by
  induction hreach with
  | refl => exact inBlock_entry
  | tail _ hstep ih =>
    cases hstep with
    | mk hpc heffect hnext => exact ih.step hverify hpc heffect hnext

end Soundness

/-- The stack usage verifier is sound. When `verify` accepts a code unit, along every execution
from the entry the height stays within `max_value_stack_size`, each basic block is entered with
an empty stack, no instruction pops more than the stack holds, and `Ret` finds exactly the
returned values on the stack and `Abort` exactly one. -/
theorem verify_stack_sound {config : VerifierConfig} {verifier : StackUsageVerifier}
    (hverify : verifier.verify config = .ok ()) {frame : Frame}
    (hreach : Relation.ReflTransGen verifier.Step ⟨entryBlockId, 0⟩ frame) :
    frame.height ≤ config.maxValueStackSize ∧
      (∀ block ∈ (VMControlFlowGraph.new verifier.code).blocks, frame.pc = block.1 →
        frame.height = 0) ∧
      ∀ instruction, verifier.code[frame.pc]? = some instruction →
        ∃ numPops numPushes, verifier.instructionEffect instruction = .ok (numPops, numPushes) ∧
          numPops ≤ frame.height ∧ frame.height - numPops + numPushes ≤ config.maxValueStackSize ∧
          (instruction = .ret → frame.height = verifier.returnCount) ∧
          (instruction = .abort → frame.height = 1) := by
  have hin := inBlock_of_reachable hverify hreach
  refine ⟨hin.1, fun entered hentered hpc ↦ ?_, fun instruction hinstruction ↦ ?_⟩
  · obtain ⟨-, hexitlt, -, -, -, hstarted⟩ := mem_blocks hentered
    obtain ⟨start, block, hmem, hstart, hexit, overallPush, hbefore⟩ :=
      hin.2 (by rw [hpc]; exact Nat.lt_of_le_of_lt (mem_blocks hentered).1 hexitlt)
    have hsame : start = frame.pc := start_eq_of_mem_blocks hmem hstart hexit (hpc ▸ hstarted)
    rw [hsame, instructionsBetween_self, verifyInstructions, Except.ok.injEq, Prod.mk.injEq]
      at hbefore
    exact hbefore.1.symm
  · obtain ⟨start, block, hmem, hstart, hexit, overallPush, hbefore⟩ :=
      hin.2 (List.getElem?_eq_some_iff.mp hinstruction).1
    obtain ⟨numPops, numPushes, heffect, hpops, hmax, -, hend⟩ :=
      instruction_checked hverify hmem hstart hexit hbefore hinstruction
    refine ⟨numPops, numPushes, heffect, hpops, hmax, fun hret ↦ ?_, fun habort ↦ ?_⟩
    · subst hret
      have hzero := hend (eq_exit_of_isBranch hmem hstart hexit hinstruction rfl)
      rw [instructionEffect_ret, Except.ok.injEq, Prod.mk.injEq] at heffect
      obtain ⟨rfl, rfl⟩ := heffect
      omega
    · subst habort
      have hzero := hend (eq_exit_of_isBranch hmem hstart hexit hinstruction rfl)
      rw [instructionEffect_abort, Except.ok.injEq, Prod.mk.injEq] at heffect
      obtain ⟨rfl, rfl⟩ := heffect
      omega

/-- The entry block branches at 1 to the block at 4, whose `Ret` returns the one value the block
pushes. -/
theorem verify_stack_sound_two_exits :
    let verifier : StackUsageVerifier :=
      ⟨⟨fun _ ↦ ⟨0, 0⟩, fun _ ↦ 0, fun _ ↦ .ok .native, fun _ ↦ .ok 0⟩,
        [.ldTrue, .brFalse 4, .ldU64 7, .ret, .ldU64 0, .ret], 1⟩
    let frame : Frame := ⟨5, 1⟩
    verifier.verify ⟨1024, none⟩ = .ok () ∧
      Relation.ReflTransGen verifier.Step ⟨entryBlockId, 0⟩ frame ∧
      frame.height ≤ 1024 ∧
      (∀ block ∈ (VMControlFlowGraph.new verifier.code).blocks, frame.pc = block.1 →
        frame.height = 0) ∧
      ∀ instruction, verifier.code[frame.pc]? = some instruction →
        ∃ numPops numPushes, verifier.instructionEffect instruction = .ok (numPops, numPushes) ∧
          numPops ≤ frame.height ∧ frame.height - numPops + numPushes ≤ 1024 ∧
          (instruction = .ret → frame.height = verifier.returnCount) ∧
          (instruction = .abort → frame.height = 1) := by
  intro verifier frame
  have hverify : verifier.verify ⟨1024, none⟩ = .ok () := by decide
  have hreach : Relation.ReflTransGen verifier.Step ⟨entryBlockId, 0⟩ frame :=
    ((Relation.ReflTransGen.single (@Step.mk _ 0 0 0 1 1 .ldTrue rfl rfl (by decide))).tail
      (@Step.mk _ 1 1 1 0 4 (.brFalse 4) rfl rfl (by decide))).tail
      (@Step.mk _ 4 0 0 1 5 (.ldU64 0) rfl rfl (by decide))
  exact ⟨hverify, hreach, verify_stack_sound hverify hreach⟩

end StackUsageVerifier

end AptosCore.BytecodeVerifier
