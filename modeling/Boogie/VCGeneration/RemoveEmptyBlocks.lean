import Boogie.Core.BlockCoalescer
import Boogie.Core.Cmd
import Boogie.Foundation.Dictionary
import Boogie.Graph.PostOrderWaiting

/-!
# Removing empty blocks

A traversal lists the blocks that are reached and records whose name the first
block may take.  Then the gotos to each empty block are redirected to its
targets, one block after the other.  The lists of predecessors stay as they were
before.
-/

namespace Boogie

namespace VCGen

namespace RemoveEmptyBlocks

open BlockCoalescer (Heap TransferCmd successors)
open DomRelation (PostOrderState pushChild)

variable {Token : Type}

/-!
# The traversal
-/

structure VisitState extends PostOrderState Nat where
  keep : List Nat
  renameInfo : Dictionary Nat (Option Nat)

def initial (startBlock : Nat) : VisitState where
  toPostOrderState := DomRelation.initial startBlock
  keep := []
  renameInfo := Dictionary.empty

def visitTarget (curr : Nat) (st : VisitState) (s : Nat) : VisitState :=
  if s ∈ st.visited then
    if s ∈ st.grey ∧ s ∉ st.numbered then
      { st with keep := hashSetAdd st.keep s }
    else st
  else { st with toPostOrderState := pushChild curr st.toPostOrderState s }

/-- A target whose information is missing raises an exception. -/
def addRenameInfo (keep : List Nat) (renameInfo : Dictionary Nat (Option Nat))
    (successorRenameInfo : List (Option Nat)) (s : Nat) :
    Option (List (Option Nat)) :=
  if s ∈ keep then some (hashSetAdd successorRenameInfo none)
  else
    match renameInfo.tryGetValue s with
    | none => none
    | some info => some (hashSetAdd successorRenameInfo info)

def renameInfoOf (isValid : Token -> Bool) (heap : Heap Nat String Token Cmd)
    (startBlock : Nat) (keep : List Nat)
    (renameInfo : Dictionary Nat (Option Nat)) (curr : Nat) :
    Option (Option Nat) :=
  match successors heap curr with
  | [] =>
    some (if (heap curr).cmds = [] ∧ isValid (heap curr).tok = true then
      some curr else none)
  | targets =>
    if (heap curr).cmds = [] ∨ curr = startBlock then
      if isValid (heap curr).tok = true then some (some curr)
      else
        match targets.foldlM (addRenameInfo keep (renameInfo.set curr none))
            [] with
        | none => none
        | some [info] => some info
        | some _ => some none
    else some none

/-- One iteration, which takes `curr` from the stack. -/
def visitBlock (isValid : Token -> Bool) (heap : Heap Nat String Token Cmd)
    (startBlock curr : Nat) (rest : List Nat) (st : VisitState) :
    Option VisitState :=
  if curr ∈ st.grey then
    match renameInfoOf isValid heap startBlock st.keep st.renameInfo curr with
    | none => none
    | some info =>
      some { st with
        stack := rest
        numbered := st.numbered ++ [curr]
        renameInfo := (st.renameInfo.set curr none).set curr info }
  else
    some ((successors heap curr).foldl (visitTarget curr)
      { st with grey := curr :: st.grey, stack := curr :: rest })

def visitBlocks (isValid : Token -> Bool) (heap : Heap Nat String Token Cmd)
    (startBlock : Nat) : Nat -> VisitState -> Option VisitState
  | 0, _ => none
  | fuel + 1, st =>
    match st.stack with
    | [] => some st
    | curr :: rest =>
      match visitBlock isValid heap startBlock curr rest st with
      | none => none
      | some st => visitBlocks isValid heap startBlock fuel st

/-!
# Redirecting gotos
-/

def setGoto (heap : Heap Nat String Token Cmd) (p : Nat)
    (goto : List String × List Nat) : Heap Nat String Token Cmd :=
  Function.update heap p
    { heap p with transferCmd := some (.gotoCmd goto.1 (some goto.2)) }

/-- A predecessor without a goto raises an exception. -/
def changeGoto
    (change : List String × List Nat -> List String × List Nat)
    (heap : Heap Nat String Token Cmd) (p : Nat) :
    Option (Heap Nat String Token Cmd) :=
  match (heap p).transferCmd with
  | some (.gotoCmd labelNames (some labelTargets)) =>
    some (setGoto heap p (change (labelNames, labelTargets)))
  | _ => none

def removeTarget (b : Nat) (label : String) (goto : List String × List Nat) :
    List String × List Nat :=
  (goto.1.erase label, goto.2.erase b)

def addTarget (goto : List String × List Nat) (s : Nat × String) :
    List String × List Nat :=
  if s.1 ∈ goto.2 then goto else (goto.1 ++ [s.2], goto.2 ++ [s.1])

def moveTarget (s : Nat) (label newLabel : String)
    (goto : List String × List Nat) : List String × List Nat :=
  ((removeTarget s label goto).1 ++ [newLabel],
    (removeTarget s label goto).2 ++ [s])

def pushToken (isValid : Token -> Bool) (predecessors : Nat -> List Nat)
    (startInfo : Option Nat) (heap : Heap Nat String Token Cmd) (b : Nat) :
    List Nat -> Option (Heap Nat String Token Cmd)
  | [s] =>
    if isValid (heap b).tok = true ∧ some b ≠ startInfo ∧
        isValid (heap s).tok = false then
      match ((predecessors s).filter (fun p => p ≠ b)).foldlM
          (changeGoto (moveTarget s (heap s).label (heap b).label)) heap with
      | none => none
      | some heap =>
        some (Function.update heap s
          { heap s with tok := (heap b).tok, label := (heap b).label })
    else some heap
  | _ => some heap

def removeBlock (isValid : Token -> Bool) (predecessors : Nat -> List Nat)
    (keep : List Nat) (startInfo : Option Nat)
    (heap : Heap Nat String Token Cmd) (b : Nat) :
    Option (Heap Nat String Token Cmd) :=
  if b ∈ keep ∨ (heap b).cmds ≠ [] then some heap
  else
    match (predecessors b).foldlM
        (changeGoto (removeTarget b (heap b).label)) heap with
    | none => none
    | some heap =>
      match successors heap b with
      | [] => some heap
      | targets =>
        match pushToken isValid predecessors startInfo heap b targets with
        | none => none
        | some heap =>
          (predecessors b).foldlM
            (changeGoto (fun goto =>
              (targets.map (fun s => (s, (heap s).label))).foldl
                addTarget goto))
            heap

def isAssume : Cmd -> Bool
  | .assumeCmd _ => true
  | _ => false

def renameStart (isValid : Token -> Bool) (startBlock : Nat)
    (startInfo : Option Nat) (heap : Heap Nat String Token Cmd) :
    Heap Nat String Token Cmd :=
  if isValid (heap startBlock).tok = false ∧
      (heap startBlock).cmds.all isAssume = true then
    match startInfo with
    | none => heap
    | some r =>
      Function.update heap startBlock
        { heap startBlock with tok := (heap r).tok, label := (heap r).label }
  else heap

end RemoveEmptyBlocks

open BlockCoalescer (Heap)

/-- What becomes of the blocks; an exception is `none`. -/
def removeEmptyBlocksIterative {Token : Type} (isValid : Token -> Bool)
    (predecessors : Nat -> List Nat) (fuel : Nat)
    (heap : Heap Nat String Token Cmd) :
    List Nat -> Option (Heap Nat String Token Cmd)
  | [] => none
  | startBlock :: _ =>
    match RemoveEmptyBlocks.visitBlocks isValid heap startBlock fuel
        (RemoveEmptyBlocks.initial startBlock) with
    | none => none
    | some st =>
      match st.renameInfo.tryGetValue startBlock with
      | none => none
      | some startInfo =>
        match st.numbered.foldlM
            (RemoveEmptyBlocks.removeBlock isValid predecessors
              (hashSetAdd st.keep startBlock) startInfo) heap with
        | none => none
        | some heap =>
          some (RemoveEmptyBlocks.renameStart isValid startBlock
            startInfo heap)

end VCGen

end Boogie
