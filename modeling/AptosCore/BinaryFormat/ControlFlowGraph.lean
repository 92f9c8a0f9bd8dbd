import Mathlib
import AptosCore.BinaryFormat.FileFormat

/-!
# Basic blocks of the control-flow graph

`move-binary-format/src/control_flow_graph.rs`, `VMControlFlowGraph::new` up to its loop
analysis: the block ids are the entry, every branch target and every instruction after a branch;
a block runs from its id to the first instruction that ends a block (`is_end_of_block`), the
last instruction or the one before a block id. The traversal order and the loop heads computed
after that are not modelled.

The scan that creates the blocks is read back as three facts: every instruction lies in a
block (`exists_mem_blocks`); inside a block no instruction ends one, and its successors are
those of its exit (`mem_blocks`); and a block id in the code is the start of the block it lies
in (`start_eq_of_mem_blocks`). Together they say that control only enters a block at its start.
-/

namespace AptosCore.BinaryFormat

/-- `BasicBlock`. -/
structure BasicBlock where
  exit : Nat
  successors : List Nat

/-- `VMControlFlowGraph`: the basic blocks by their first offset, in code order. -/
structure VMControlFlowGraph where
  blocks : List (Nat × BasicBlock)

namespace VMControlFlowGraph

def entryBlockId : Nat := 0

def recordBlockIds (pc : Nat) (code : List Bytecode) (blockIds : Finset Nat) : Finset Nat :=
  match code[pc]? with
  | none => blockIds
  | some bytecode =>
    let blockIds := match bytecode.offset with
      | some offset => insert offset blockIds
      | none => blockIds
    if bytecode.isBranch && pc + 1 < code.length then insert (pc + 1) blockIds else blockIds

def isEndOfBlock (pc : Nat) (code : List Bytecode) (blockIds : Finset Nat) : Bool :=
  pc + 1 = code.length || decide (pc + 1 ∈ blockIds)

/-- The first loop of `new`: the offsets that begin basic blocks. -/
def collectBlockIds (code : List Bytecode) : Finset Nat :=
  (List.range code.length).foldl (fun blockIds pc ↦ recordBlockIds pc code blockIds) {entryBlockId}

/-- The second loop of `new`, over the offsets `pcs`: `entry` is the first offset of the block
being scanned. -/
def createBlocks (code : List Bytecode) (blockIds : Finset Nat) :
    List Nat → Nat → List (Nat × BasicBlock)
  | [], _ => []
  | pc :: pcs, entry =>
    if isEndOfBlock pc code blockIds then
      (entry, ⟨pc, Bytecode.getSuccessors pc code⟩) :: createBlocks code blockIds pcs (pc + 1)
    else createBlocks code blockIds pcs entry

/-- `new`, without the loop analysis. -/
def new (code : List Bytecode) : VMControlFlowGraph :=
  ⟨createBlocks code (collectBlockIds code) (List.range code.length) entryBlockId⟩

@[simp] theorem createBlocks_nil (code : List Bytecode) (blockIds : Finset Nat) (entry : Nat) :
    createBlocks code blockIds [] entry = [] := rfl

theorem createBlocks_cons (code : List Bytecode) (blockIds : Finset Nat) (pc : Nat)
    (pcs : List Nat) (entry : Nat) :
    createBlocks code blockIds (pc :: pcs) entry =
      if isEndOfBlock pc code blockIds then
        (entry, ⟨pc, Bytecode.getSuccessors pc code⟩) :: createBlocks code blockIds pcs (pc + 1)
      else createBlocks code blockIds pcs entry := rfl

/-! ## Block ids -/

section BlockIds

variable {code : List Bytecode} {pc : Nat} {bytecode : Bytecode}

theorem subset_recordBlockIds (blockIds : Finset Nat) :
    blockIds ⊆ recordBlockIds pc code blockIds := by
  unfold recordBlockIds
  cases code[pc]? with
  | none => exact subset_rfl
  | some bytecode =>
    dsimp only
    have hoffset : blockIds ⊆ (match bytecode.offset with
        | some offset => insert offset blockIds
        | none => blockIds) := by
      split
      · exact Finset.subset_insert _ _
      · exact subset_rfl
    split_ifs
    · exact hoffset.trans (Finset.subset_insert _ _)
    · exact hoffset

theorem offset_mem_recordBlockIds (hpc : code[pc]? = some bytecode) {offset : Nat}
    (hoffset : bytecode.offset = some offset) (blockIds : Finset Nat) :
    offset ∈ recordBlockIds pc code blockIds := by
  unfold recordBlockIds
  rw [hpc]
  dsimp only
  rw [hoffset]
  split_ifs
  · exact Finset.mem_insert_of_mem (Finset.mem_insert_self _ _)
  · exact Finset.mem_insert_self _ _

theorem succ_mem_recordBlockIds (hpc : code[pc]? = some bytecode)
    (hbranch : bytecode.isBranch = true) (hnext : pc + 1 < code.length)
    (blockIds : Finset Nat) : pc + 1 ∈ recordBlockIds pc code blockIds := by
  unfold recordBlockIds
  rw [hpc]
  dsimp only
  rw [if_pos (by simp [hbranch, hnext])]
  exact Finset.mem_insert_self _ _

/-- The fold of `record_block_ids` keeps every id it has collected, and collects what each of
its offsets adds. -/
theorem mem_foldl_recordBlockIds {x : Nat} {pcs : List Nat} (hpc : pc ∈ pcs)
    (hx : ∀ blockIds, x ∈ recordBlockIds pc code blockIds) (init : Finset Nat) :
    x ∈ pcs.foldl (fun blockIds pc ↦ recordBlockIds pc code blockIds) init := by
  induction pcs generalizing init with
  | nil => cases hpc
  | cons head rest ih =>
    rw [List.foldl_cons]
    rcases List.mem_cons.mp hpc with rfl | hrest
    · have hkeep : ∀ (pcs : List Nat) (blockIds : Finset Nat), x ∈ blockIds →
          x ∈ pcs.foldl (fun blockIds pc ↦ recordBlockIds pc code blockIds) blockIds := by
        intro pcs
        induction pcs with
        | nil => exact fun _ hmem ↦ hmem
        | cons next pcs ihkeep =>
          exact fun blockIds hmem ↦ ihkeep _ (subset_recordBlockIds blockIds hmem)
      exact hkeep rest _ (hx init)
    · exact ih hrest _

theorem offset_mem_collectBlockIds (hpc : code[pc]? = some bytecode) {offset : Nat}
    (hoffset : bytecode.offset = some offset) : offset ∈ collectBlockIds code :=
  mem_foldl_recordBlockIds (List.mem_range.mpr (List.getElem?_eq_some_iff.mp hpc).1)
    (offset_mem_recordBlockIds hpc hoffset) _

theorem succ_mem_collectBlockIds (hpc : code[pc]? = some bytecode)
    (hbranch : bytecode.isBranch = true) (hnext : pc + 1 < code.length) :
    pc + 1 ∈ collectBlockIds code :=
  mem_foldl_recordBlockIds (List.mem_range.mpr (by omega))
    (succ_mem_recordBlockIds hpc hbranch hnext) _

theorem isEndOfBlock_of_isBranch (hpc : code[pc]? = some bytecode)
    (hbranch : bytecode.isBranch = true) : isEndOfBlock pc code (collectBlockIds code) = true := by
  have hlt : pc < code.length := (List.getElem?_eq_some_iff.mp hpc).1
  unfold isEndOfBlock
  by_cases hlast : pc + 1 = code.length
  · simp [hlast]
  · simp [succ_mem_collectBlockIds hpc hbranch (by omega)]

/-- The successors of an instruction that ends a block are block ids. -/
theorem mem_collectBlockIds_of_mem_getSuccessors
    (hend : isEndOfBlock pc code (collectBlockIds code) = true) {next : Nat}
    (hnext : next ∈ Bytecode.getSuccessors pc code) : next ∈ collectBlockIds code := by
  cases hpc : code[pc]? with
  | none => simp [Bytecode.getSuccessors, hpc] at hnext
  | some bytecode =>
    rcases Bytecode.mem_getSuccessors hpc hnext with hoffset | ⟨rfl, hlt⟩
    · exact offset_mem_collectBlockIds hpc hoffset
    · unfold isEndOfBlock at hend
      simpa [Nat.ne_of_lt hlt] using hend

end BlockIds

/-! ## The scan that creates the blocks -/

section Scan

variable {code : List Bytecode} {blockIds : Finset Nat}

/-- A block the scan creates: it ends at an instruction that ends a block, no instruction before
its exit does, it starts where the scan started or after an instruction that ends a block, and
its successors are those of its exit. -/
theorem mem_createBlocks {p k entry start : Nat} {block : BasicBlock} (hentry : entry ≤ p)
    (hgap : ∀ q, entry ≤ q → q < p → isEndOfBlock q code blockIds = false)
    (hmem : (start, block) ∈ createBlocks code blockIds (List.range' p k) entry) :
    start ≤ block.exit ∧ block.exit < p + k ∧ isEndOfBlock block.exit code blockIds = true ∧
      (∀ q, start ≤ q → q < block.exit → isEndOfBlock q code blockIds = false) ∧
      block.successors = Bytecode.getSuccessors block.exit code ∧
      (start = entry ∨ 0 < start ∧ isEndOfBlock (start - 1) code blockIds = true) := by
  induction k generalizing p entry with
  | zero => simp at hmem
  | succ k ih =>
    rw [List.range'_succ, createBlocks_cons] at hmem
    split_ifs at hmem with hend
    · rcases List.mem_cons.mp hmem with hhead | htail
      · rw [Prod.mk.injEq] at hhead
        obtain ⟨rfl, rfl⟩ := hhead
        refine ⟨hentry, ?_, hend, hgap, rfl, .inl rfl⟩
        show p < p + (k + 1)
        omega
      · obtain ⟨hle, hlt, hexit, hinside, hsucc, hstart⟩ :=
          ih le_rfl (fun q hq hqp ↦ absurd hqp (Nat.not_lt.mpr hq)) htail
        refine ⟨hle, by omega, hexit, hinside, hsucc, .inr ?_⟩
        rcases hstart with rfl | hafter
        · exact ⟨Nat.succ_pos p, hend⟩
        · exact hafter
    · have hgap' : ∀ q, entry ≤ q → q < p + 1 → isEndOfBlock q code blockIds = false := by
        intro q hq hqp
        rcases Nat.lt_succ_iff_lt_or_eq.mp hqp with hlt | rfl
        · exact hgap q hq hlt
        · simpa using hend
      obtain ⟨hle, hlt, hexit, hinside, hsucc, hstart⟩ := ih (by omega) hgap' hmem
      exact ⟨hle, by omega, hexit, hinside, hsucc, hstart⟩

/-- Every offset before an instruction that ends a block lies in a block the scan creates. -/
theorem exists_mem_createBlocks {p k entry pc : Nat} (hentry : entry ≤ pc)
    (hgap : ∀ q, entry ≤ q → q < p → isEndOfBlock q code blockIds = false)
    (hend : ∃ q, pc ≤ q ∧ q < p + k ∧ isEndOfBlock q code blockIds = true) :
    ∃ start block, (start, block) ∈ createBlocks code blockIds (List.range' p k) entry ∧
      start ≤ pc ∧ pc ≤ block.exit := by
  induction k generalizing p entry with
  | zero =>
    obtain ⟨q, hpcq, hqp, hqend⟩ := hend
    rw [hgap q (by omega) (by omega)] at hqend
    cases hqend
  | succ k ih =>
    rw [List.range'_succ, createBlocks_cons]
    by_cases hpend : isEndOfBlock p code blockIds = true
    · rw [if_pos hpend]
      by_cases hpcp : pc ≤ p
      · exact ⟨entry, _, List.mem_cons_self, hentry, hpcp⟩
      · obtain ⟨q, hpcq, hqp, hqend⟩ := hend
        obtain ⟨start, block, hmem, hstart, hexit⟩ :=
          @ih (p + 1) (p + 1) (by omega) (fun q hq hqp ↦ absurd hqp (Nat.not_lt.mpr hq))
            ⟨q, hpcq, by omega, hqend⟩
        exact ⟨start, block, List.mem_cons_of_mem _ hmem, hstart, hexit⟩
    · rw [if_neg hpend]
      obtain ⟨q, hpcq, hqp, hqend⟩ := hend
      refine ih hentry (fun q hq hqp ↦ ?_) ⟨q, hpcq, by omega, hqend⟩
      rcases Nat.lt_succ_iff_lt_or_eq.mp hqp with hlt | rfl
      · exact hgap q hq hlt
      · simpa using hpend

end Scan

/-! ## The blocks of a code unit -/

section Blocks

variable {code : List Bytecode}

/-- A block of `new`: it lies in the code, ends at an instruction that ends a block, no
instruction before its exit does, and it starts at the entry or after one that ends a block. -/
theorem mem_blocks {start : Nat} {block : BasicBlock}
    (hmem : (start, block) ∈ (new code).blocks) :
    start ≤ block.exit ∧ block.exit < code.length ∧
      isEndOfBlock block.exit code (collectBlockIds code) = true ∧
      (∀ q, start ≤ q → q < block.exit → isEndOfBlock q code (collectBlockIds code) = false) ∧
      block.successors = Bytecode.getSuccessors block.exit code ∧
      (start = entryBlockId ∨ 0 < start ∧ isEndOfBlock (start - 1) code (collectBlockIds code)) := by
  unfold new at hmem
  rw [List.range_eq_range'] at hmem
  obtain ⟨hle, hlt, hend, hinside, hsucc, hstart⟩ :=
    mem_createBlocks le_rfl (fun q hq hqp ↦ absurd hqp (Nat.not_lt.mpr (Nat.zero_le q))) hmem
  exact ⟨hle, by simpa using hlt, hend, hinside, hsucc, hstart⟩

theorem exists_mem_blocks {pc : Nat} (hpc : pc < code.length) :
    ∃ start block, (start, block) ∈ (new code).blocks ∧ start ≤ pc ∧ pc ≤ block.exit := by
  unfold new
  rw [List.range_eq_range']
  refine exists_mem_createBlocks (Nat.zero_le pc)
    (fun q hq hqp ↦ absurd hqp (Nat.not_lt.mpr (Nat.zero_le q))) ⟨code.length - 1, by omega, by omega, ?_⟩
  simp [isEndOfBlock, show code.length - 1 + 1 = code.length by omega]

/-- A block that contains the entry, or an instruction after one that ends a block, starts
there: control only enters a block at its start. -/
theorem start_eq_of_mem_blocks {start pc : Nat} {block : BasicBlock}
    (hmem : (start, block) ∈ (new code).blocks) (hstart : start ≤ pc) (hexit : pc ≤ block.exit)
    (hentered : pc = entryBlockId ∨ 0 < pc ∧ isEndOfBlock (pc - 1) code (collectBlockIds code)) :
    start = pc := by
  obtain ⟨-, -, -, hinside, -, -⟩ := mem_blocks hmem
  by_contra hne
  rcases hentered with hentry | ⟨hpos, hend⟩
  · exact hne (by unfold entryBlockId at hentry; omega)
  · rw [hinside (pc - 1) (by omega) (by omega)] at hend
    cases hend

/-- A block id in the code is the start of a block. -/
theorem exists_block_of_mem_collectBlockIds {pc : Nat} (hid : pc ∈ collectBlockIds code)
    (hpc : pc < code.length) : ∃ block, (pc, block) ∈ (new code).blocks := by
  obtain ⟨start, block, hmem, hstart, hexit⟩ := exists_mem_blocks hpc
  have hentered : pc = entryBlockId ∨ 0 < pc ∧ isEndOfBlock (pc - 1) code (collectBlockIds code) := by
    rcases Nat.eq_zero_or_pos pc with hzero | hpos
    · exact .inl hzero
    · refine .inr ⟨hpos, ?_⟩
      simp [isEndOfBlock, Nat.sub_add_cancel hpos, hid]
  rw [← start_eq_of_mem_blocks hmem hstart hexit hentered]
  exact ⟨block, hmem⟩

end Blocks

end VMControlFlowGraph

end AptosCore.BinaryFormat
