import Boogie.Core.ProcessLoops
import Boogie.Foundation.Chains
import Boogie.Foundation.Flowchart

/-!
# Merging blocks into their predecessors

The graph of the blocks is computed once.  Then the blocks are taken in any order, and
each one with a single predecessor that has a single successor goes to the end of the
block that the predecessor has become a part of.
-/

namespace Boogie
namespace UniformityAnalyser

abbrev Heap :=
  Nat -> Block

def objects (blocks : List Block) : Heap :=
  fun id => (blocks.find? (fun b => b.uniqueId = id)).getD
    { uniqueId := id, label := "", cmds := [], transferCmd := .returnCmd }

/-- `uni` may be null; otherwise it tells which blocks are uniform. -/
def sameUniformity (uni : Option (Nat -> Bool)) (pred block : Nat) : Bool :=
  match uni with
  | none => true
  | some isUniform =>
    (isUniform pred && isUniform block) || (!isUniform pred && !isUniform block)

/-- The predecessor that a block is merged into.  Where there is not exactly one
predecessor or successor, `Single()` throws and the block is skipped. -/
def mergesInto (uni : Option (Nat -> Bool)) (blockGraph : Graph Nat) (block : Nat) :
    Option Nat :=
  match blockGraph.predecessors block with
  | [pred] =>
    match blockGraph.successors pred with
    | [succ] => if succ = block ∧ sameUniformity uni pred block = true then some pred else none
    | _ => none
  | _ => none

/-- `impl.Blocks` as a list of references, and the map from merged blocks to the blocks
they went into. -/
structure State where
  heap : Heap
  blocks : List Nat
  predMap : Nat -> Option Nat

/-- A block that is merged into itself gets its own commands a second time. -/
def merge (heap : Heap) (pred block : Nat) : Heap :=
  Function.update heap pred
    { heap pred with
      cmds := (heap pred).cmds ++ (heap block).cmds
      transferCmd := (heap block).transferCmd }

/-- One round of the loop; `none` when the search for the predecessor takes more steps
than `fuel`. -/
def mergeBlock (fuel : Nat) (uni : Option (Nat -> Bool)) (blockGraph : Graph Nat)
    (s : State) (block : Nat) : Option State :=
  match mergesInto uni blockGraph block with
  | none => some s
  | some pred =>
    (Chains.follow s.predMap fuel pred).map (fun pred =>
      { heap := merge s.heap pred block
        blocks := s.blocks.erase block
        predMap := Function.update s.predMap block (some pred) })

def mergeBlocks (fuel : Nat) (uni : Option (Nat -> Bool)) (blockGraph : Graph Nat) :
    List Nat -> State -> Option State
  | [], s => some s
  | block :: rest, s =>
    (mergeBlock fuel uni blockGraph s block).bind (mergeBlocks fuel uni blockGraph rest)

/-- The nodes of the graph are a hash set, enumerated in some order. -/
def mergeBlocksIntoPredecessors (fuel : Nat) (pruneInfeasibleEdges : Bool)
    (uni : Option (Nat -> Bool)) (enumerate : List Nat -> List Nat)
    (impl : Implementation) : Option State :=
  (impl.processLoops fuel pruneInfeasibleEdges).bind (fun processed =>
    mergeBlocks fuel uni processed.2 (enumerate processed.2.ns)
      { heap := objects processed.1.blocks
        blocks := processed.1.blockIds
        predMap := fun _ => none })

/-!
# Executions
-/

def chart (heap : Heap) : Flowchart Nat Cmd (Option TransferCmd) where
  cmds := fun b => (heap b).cmds
  next := fun b => (heap b).labelTargets
  exit := fun b => some (heap b).transferCmd

/-- An execution does not get past a condition that is the literal `false`. -/
def executed (heap : Heap) : Flowchart Nat Cmd (Option TransferCmd) :=
  (chart heap).stopping Cmd.isFalse none

def commandSequences (heap : Heap) (b : Nat) :
    Set (Executions.Behaviour Cmd (Option TransferCmd)) :=
  (executed heap).sequences b

def KeepsSequences (impl : Implementation) (s : State) : Prop :=
  exists entry first, impl.blocks.head? = some entry ∧ s.blocks.head? = some first ∧
    commandSequences s.heap first = commandSequences (objects impl.blocks) entry.uniqueId

def firstLeft (uni : Option (Nat -> Bool)) (blockGraph : Graph Nat) (blocks : List Nat) :
    Option Nat :=
  blocks.find? (fun b => (mergesInto uni blockGraph b).isNone)

end UniformityAnalyser
end Boogie
