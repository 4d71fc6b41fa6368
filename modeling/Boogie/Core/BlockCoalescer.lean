import Mathlib.Data.Finset.Insert
import Mathlib.Logic.Function.Basic
import Boogie.Foundation.Executions
import Boogie.Foundation.Rounds

/-!
# Coalescing of blocks

A block that is left by a goto with a single target takes over the commands and
the transfer command of the target, provided that no other edge leads there.
Blocks are objects that are changed in place.
-/

namespace Boogie
namespace BlockCoalescer

/-!
# Implementations
-/

/-- `labelTargets` is null before resolution. -/
inductive TransferCmd (BlockId Label : Type) where
  | returnCmd
  | gotoCmd (labelNames : List Label) (labelTargets : Option (List BlockId))
deriving DecidableEq

/-- `TransferCmd` may be null. -/
structure Block (BlockId Label Token Cmd : Type) where
  tok : Token
  label : Label
  cmds : List Cmd
  transferCmd : Option (TransferCmd BlockId Label)

section Coalescer

variable {BlockId Label Token Cmd : Type}

def TransferCmd.targets : TransferCmd BlockId Label -> List BlockId
  | gotoCmd _ (some targets) => targets
  | _ => []

abbrev Heap (BlockId Label Token Cmd : Type) :=
  BlockId -> Block BlockId Label Token Cmd

def successors (heap : Heap BlockId Label Token Cmd) (b : BlockId) : List BlockId :=
  (heap b).transferCmd.elim [] TransferCmd.targets

structure Implementation (BlockId Label Token Cmd : Type) where
  first : BlockId
  others : List BlockId
  heap : Heap BlockId Label Token Cmd
  distinct : (first :: others).Nodup
  targets_mem : forall b, b ∈ first :: others ->
    successors heap b ⊆ first :: others

def Implementation.blocks (impl : Implementation BlockId Label Token Cmd) :
    List BlockId :=
  impl.first :: impl.others

/-!
# Blocks with several predecessors
-/

variable [DecidableEq BlockId]

structure SearchState (BlockId : Type) where
  dfsStack : List BlockId
  visitedBlocks : Finset BlockId
  multiPredBlocks : Finset BlockId

/-- One round of the search for blocks with several predecessors. -/
def searchStep (heap : Heap BlockId Label Token Cmd) (s : SearchState BlockId) :
    Option (SearchState BlockId) :=
  match s.dfsStack with
  | [] => none
  | b :: rest =>
    if b ∈ s.visitedBlocks then
      some { s with
        dfsStack := rest
        multiPredBlocks := insert b s.multiPredBlocks }
    else
      some { s with
        dfsStack := (successors heap b).reverse ++ rest
        visitedBlocks := insert b s.visitedBlocks }

def computeMultiPredecessorBlocks (fuel : Nat)
    (impl : Implementation BlockId Label Token Cmd) : Option (Finset BlockId) :=
  (Rounds.repeatWhile (searchStep impl.heap) (fun s => !s.dfsStack.isEmpty) fuel
    { dfsStack := [impl.first]
      visitedBlocks := ∅
      multiPredBlocks := ∅ }).map SearchState.multiPredBlocks

/-!
# Merging
-/

/-- The block takes over what follows it, and its name when it has no position in
the program text. -/
def Block.merge (isValid : Token -> Bool)
    (b succ : Block BlockId Label Token Cmd) : Block BlockId Label Token Cmd where
  tok := if !isValid b.tok && isValid succ.tok then succ.tok else b.tok
  label := if !isValid b.tok && isValid succ.tok then succ.label else b.label
  cmds := b.cmds ++ succ.cmds
  transferCmd := succ.transferCmd

def merge (isValid : Token -> Bool) (heap : Heap BlockId Label Token Cmd)
    (b succ : BlockId) : Heap BlockId Label Token Cmd :=
  Function.update heap b ((heap b).merge isValid (heap succ))

structure State (BlockId Label Token Cmd : Type) where
  heap : Heap BlockId Label Token Cmd
  dfsStack : List BlockId
  visitedBlocks : Finset BlockId
  removedBlocks : Finset BlockId

/-- One round of the loop; the blocks that have no goto with targets push
nothing.  `none` when a block is merged with itself, whose commands would be
extended while they are enumerated. -/
def coalesceStep (isValid : Token -> Bool) (multiPredBlocks : Finset BlockId)
    (s : State BlockId Label Token Cmd) : Option (State BlockId Label Token Cmd) :=
  match s.dfsStack with
  | [] => none
  | b :: rest =>
    if b ∈ s.visitedBlocks then some { s with dfsStack := rest }
    else
      match successors s.heap b with
      | [succ] =>
        if succ ∈ multiPredBlocks then
          some { s with
            dfsStack := succ :: rest
            visitedBlocks := insert b s.visitedBlocks }
        else if succ = b then none
        else
          some { s with
            heap := merge isValid s.heap b succ
            dfsStack := b :: rest
            removedBlocks := insert succ s.removedBlocks }
      | targets =>
        some { s with
          dfsStack := targets.reverse ++ rest
          visitedBlocks := insert b s.visitedBlocks }

structure Result (BlockId Label Token Cmd : Type) where
  heap : Heap BlockId Label Token Cmd
  blocks : List BlockId

def newBlocks (impl : Implementation BlockId Label Token Cmd)
    (s : State BlockId Label Token Cmd) : List BlockId :=
  impl.blocks.filter (fun b => b ∈ s.visitedBlocks ∧ b ∉ s.removedBlocks)

def visitImplementation (isValid : Token -> Bool) (fuel : Nat)
    (impl : Implementation BlockId Label Token Cmd) :
    Option (Result BlockId Label Token Cmd) := do
  let multiPredBlocks ← computeMultiPredecessorBlocks fuel impl
  let s ← Rounds.repeatWhile (coalesceStep isValid multiPredBlocks)
    (fun s => !s.dfsStack.isEmpty) fuel
    { heap := impl.heap
      dfsStack := [impl.first]
      visitedBlocks := ∅
      removedBlocks := ∅ }
  some {
    heap := s.heap
    blocks := newBlocks impl s }

end Coalescer

/-!
# Executions
-/

section Executions

variable {BlockId Label Token Cmd : Type}

abbrev Config (BlockId Cmd : Type) :=
  List Cmd × BlockId

inductive Step (heap : Heap BlockId Label Token Cmd) :
    Config BlockId Cmd -> Option Cmd -> Config BlockId Cmd -> Prop where
  | cmd (c : Cmd) (rest : List Cmd) (b : BlockId) :
      Step heap (c :: rest, b) (some c) (rest, b)
  | goto {b target : BlockId} (h : target ∈ successors heap b) :
      Step heap ([], b) none ((heap target).cmds, target)

/-- An execution ends with the transfer command of a block without successors. -/
def Final (heap : Heap BlockId Label Token Cmd) (c : Config BlockId Cmd)
    (e : Option (TransferCmd BlockId Label)) : Prop :=
  c.1 = [] ∧ successors heap c.2 = [] ∧ (heap c.2).transferCmd = e

def system (heap : Heap BlockId Label Token Cmd) :
    Executions.System (Config BlockId Cmd) Cmd
      (Option (TransferCmd BlockId Label)) where
  step := Step heap
  final := Final heap

def commandSequences (heap : Heap BlockId Label Token Cmd) (b : BlockId) :
    Set (Executions.Behaviour Cmd (Option (TransferCmd BlockId Label))) :=
  Executions.behaviours (system heap) ((heap b).cmds, b)

end Executions

end BlockCoalescer
end Boogie
