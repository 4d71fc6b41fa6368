import Boogie.Foundation.DepthFirst
import Boogie.VCGeneration.LetVC
import Mathlib.Data.Rat.Defs

/-!
# Splitting a formula

A passive program is replaced by several smaller ones.  A split at a block
separates some of its branches from the rest of the program; a slice divides the
assertions in two groups.  The assertions that one half leaves to the other are
turned into assumptions.
-/

namespace Boogie

namespace VCGen

def assertTurnedIntoAssume (o : CommandLineOptions) (assrt : AssertCmd) :
    AssumeCmd where
  uniqueId := assrt.uniqueId
  expr :=
    match Wlp.subsumption o assrt with
    | .never => Expr.trueExpr
    | .always => assrt.expr
    | .notForQuantifiers =>
      match assrt.expr with
      | .quantifier _ _ _ => Expr.trueExpr
      | e => e
  attributes := []

/--
The blocks and, for each of them, its `Predecessors`.  A copy of a block takes
its identifier, as the two are in different programs.
-/
structure Split where
  blocks : List Block
  predecessors : Nat -> List Nat

namespace Split

def ids (s : Split) : List Nat :=
  s.blocks.map Block.uniqueId

/-- The identifier of `blocks[0]`. -/
def start (s : Split) : Nat :=
  s.ids.headD 0

def exits (s : Split) (id : Nat) : List Nat :=
  match findBlock s.blocks id with
  | some b => b.labelTargets
  | none => []

/-!
# The blocks of a half
-/

def computeReachableNodes (s : Split) (id : Nat) : List Nat :=
  DepthFirst.order s.exits s.blocks.length id

inductive Half where
  | branch (assertToAssume : Bool) (splitBlock : Nat)
      (assumizedBranches : List Nat)
  | slice (sliceInitialLimit : Rat) (slicePos : Bool)
deriving DecidableEq

structure BlockSets where
  keepAtAll : List Nat
  protectedFromAssertToAssume : List Nat

def helperExits (s : Split) (splitBlock : Nat) (assumizedBranches : List Nat)
    (id : Nat) : List Nat :=
  (s.exits id).filter (fun ch =>
    !(decide (id = splitBlock) && assumizedBranches.contains ch))

def computeBlockSets (s : Split) (assertToAssume : Bool) (splitBlock : Nat)
    (assumizedBranches : List Nat) : BlockSets :=
  if assertToAssume then
    let reachable := assumizedBranches.flatMap s.computeReachableNodes
    { keepAtAll :=
        s.ids.filter (fun b => (s.computeReachableNodes b).contains splitBlock)
          ++ reachable
      protectedFromAssertToAssume := reachable }
  else
    { keepAtAll :=
        DepthFirst.order (s.helperExits splitBlock assumizedBranches)
          s.blocks.length s.start
      protectedFromAssertToAssume := [] }

def shouldAssumize (assertToAssume : Bool) (sets : BlockSets) (id : Nat) :
    Bool :=
  assertToAssume && !sets.protectedFromAssertToAssume.contains id

/-!
# Commands of a half
-/

def assertionCost : Rat :=
  1

def turnAssert (o : CommandLineOptions) : Cmd -> Cmd
  | .assertCmd a => .assumeCmd (assertTurnedIntoAssume o a)
  | c => c

/-- An assertion belongs to the first group while the limit is not exceeded. -/
def isFirst (sliceInitialLimit sliceLimit : Rat) : Bool :=
  decide (0 ≤ sliceLimit - assertionCost) ||
    decide (sliceInitialLimit = sliceLimit)

def sliceLoop (o : CommandLineOptions) (sliceInitialLimit : Rat)
    (slicePos : Bool) : List Cmd -> Rat -> List Cmd × Rat
  | [], sliceLimit => ([], sliceLimit)
  | .assertCmd a :: cs, sliceLimit =>
    let swap := slicePos == isFirst sliceInitialLimit sliceLimit
    let rest := sliceLoop o sliceInitialLimit slicePos cs
      (sliceLimit - assertionCost)
    ((if swap then turnAssert o (.assertCmd a) else .assertCmd a) :: rest.1,
      rest.2)
  | c :: cs, sliceLimit =>
    let rest := sliceLoop o sliceInitialLimit slicePos cs sliceLimit
    (c :: rest.1, rest.2)

def sliceCmds (s : Split) (o : CommandLineOptions) (b : Block)
    (sliceLimit : Rat) : Half -> List Cmd × Rat
  | .branch assertToAssume splitBlock assumizedBranches =>
    let sets := s.computeBlockSets assertToAssume splitBlock assumizedBranches
    if shouldAssumize assertToAssume sets b.uniqueId then
      (b.cmds.map (turnAssert o), sliceLimit)
    else (b.cmds, sliceLimit)
  | .slice sliceInitialLimit slicePos =>
    sliceLoop o sliceInitialLimit slicePos b.cmds sliceLimit

/-!
# Copies
-/

def cloneExits (s : Split) (half : Half) (id : Nat) : List Nat :=
  match half with
  | .branch assertToAssume splitBlock assumizedBranches =>
    let sets := s.computeBlockSets assertToAssume splitBlock assumizedBranches
    (s.exits id).filter (fun ch =>
      (decide (id ≠ splitBlock) ||
          assumizedBranches.contains ch == assertToAssume) &&
        sets.keepAtAll.contains ch)
  | .slice _ _ => s.exits id

def copyBlock (s : Split) (o : CommandLineOptions) (half : Half)
    (sliceLimit : Rat) (b : Block) : Block :=
  { b with
    cmds := (s.sliceCmds o b sliceLimit half).1
    transferCmd :=
      match b.transferCmd with
      | .gotoCmd _ => .gotoCmd (s.cloneExits half b.uniqueId)
      | transferCmd => transferCmd }

structure CloneState where
  copies : List Block
  sliceLimit : Rat

def cloneBlock (s : Split) (o : CommandLineOptions) (half : Half)
    (st : CloneState) (id : Nat) : CloneState :=
  match findBlock s.blocks id with
  | none => st
  | some b =>
    { copies := st.copies ++ [s.copyBlock o half st.sliceLimit b]
      sliceLimit := (s.sliceCmds o b st.sliceLimit half).2 }

def Half.sliceLimit : Half -> Rat
  | branch _ _ _ => 0
  | slice sliceInitialLimit _ => sliceInitialLimit

def copies (s : Split) (o : CommandLineOptions) (half : Half) : List Block :=
  (DepthFirst.visit (s.cloneExits half) (s.cloneBlock o half) s.blocks.length
    ([], { copies := [], sliceLimit := half.sliceLimit }) s.start).2.copies

/-- `DoSplit` of one half. -/
def doHalf (s : Split) (o : CommandLineOptions) (half : Half) : Split where
  blocks := s.blocks.filterMap (fun b =>
    findBlock (s.copies o half) b.uniqueId)
  predecessors := fun id => (s.predecessors id).filter (fun p =>
    (findBlock (s.copies o half) p).isSome)

def splitAt (s : Split) (o : CommandLineOptions) (splitBlock : Nat)
    (assumizedBranches : List Nat) (idx : Nat) : Split :=
  s.doHalf o (.branch (idx == 0) splitBlock assumizedBranches)

def sliceAsserts (s : Split) (o : CommandLineOptions) (limit : Rat)
    (pos : Bool) : Split :=
  s.doHalf o (.slice limit pos)

/-!
# The best split

The scores are left open.  The statistics decide which blocks may be chosen: a
block that is merged with its only predecessor is not big.
-/

structure BlockStats where
  bigBlock : Bool
  assertionCost : Rat
  virtualSuccessors : List Nat

structure Stats where
  stats : Nat -> BlockStats
  assertionCount : Nat
  assertionCost : Rat

def Stats.empty : Stats where
  stats := fun _ => ⟨false, -1, []⟩
  assertionCount := 0
  assertionCost := 0

def countAsserts (cs : List Cmd) : Nat :=
  cs.countP (fun c =>
    match c with
    | .assertCmd _ => true
    | _ => false)

def Stats.count (st : Stats) (s : Split) (id : Nat) : Stats :=
  let n : Nat :=
    match findBlock s.blocks id with
    | some b => countAsserts b.cmds
    | none => 0
  { stats := Function.update st.stats id
      ⟨true, (n : Rat) * Split.assertionCost, s.exits id⟩
    assertionCount := st.assertionCount + n
    assertionCost := st.assertionCost + (n : Rat) * Split.assertionCost }

def Stats.merge (st : Stats) (id next : Nat) : Stats :=
  let bs := st.stats id
  let se := st.stats next
  { st with
    stats := Function.update
      (Function.update st.stats id
        { bs with
          virtualSuccessors := se.virtualSuccessors
          assertionCost := bs.assertionCost + se.assertionCost })
      next { se with bigBlock := false } }

def countAssertions (s : Split) : Nat -> Stats -> Nat -> Stats
  | 0, st, _ => st
  | depth + 1, st, id =>
    if 0 ≤ (st.stats id).assertionCost then st
    else
      match s.exits id with
      | [next] =>
        let st := countAssertions s depth (st.count s id) next
        if 1 < (s.predecessors next).length ∨
            (st.stats next).virtualSuccessors.length ≠ 1 then st
        else st.merge id next
      | _ => st.count s id

def computeStats (s : Split) : Stats :=
  s.ids.foldl (s.countAssertions s.blocks.length) .empty

inductive SplitError where
  | nonBigAccessed
  | missingAssertion
  | missingExit
  | indexOutOfRange
  | running
deriving DecidableEq, Repr

def checkBigBlocks (s : Split) (st : Stats) : Bool :=
  s.ids.all (fun b => !(st.stats b).bigBlock ||
    (st.stats b).virtualSuccessors.all (fun ch => (st.stats ch).bigBlock))

def splitCandidates (s : Split) (st : Stats) : List Block :=
  s.blocks.filter (fun b =>
    (st.stats b.uniqueId).bigBlock && decide (2 ≤ b.labelTargets.length))

/--
The outcome of the scores: the cost of a program, and one of the candidates, with
its first exit or the other exits as branches, when splitting pays off.
-/
structure Scores where
  totalCost : Split -> Rat
  bestSplit : Split -> (candidates : List Block) ->
    Option (Fin candidates.length × Bool)

structure BestSplit where
  totalCost : Rat
  assertionCount : Nat
  assertionCost : Rat
  splitBlock : Option (Block × List Nat)

def computeBestSplit (scores : Scores) (s : Split) :
    Except SplitError BestSplit :=
  let st := s.computeStats
  if s.checkBigBlocks st then
    .ok
      { totalCost := scores.totalCost s
        assertionCount := st.assertionCount
        assertionCost := st.assertionCost
        splitBlock :=
          match scores.bestSplit s (s.splitCandidates st) with
          | some (i, firstExit) =>
            let b := (s.splitCandidates st).get i
            if firstExit then some (b, b.labelTargets.take 1)
            else some (b, b.labelTargets.drop 1)
          | none => none }
  else .error .nonBigAccessed

/-!
# The check of a split
-/

abbrev Copies := List (Bool × Block)

def checkCmd (copies : Copies) (i : Nat) : Cmd -> Except SplitError Unit
  | .assertCmd a =>
    if copies.all (fun c => i < c.2.cmds.length) then
      if copies.any (fun c => c.2.cmds[i]? = some (.assertCmd a)) then .ok ()
      else .error .missingAssertion
    else .error .indexOutOfRange
  | _ => .ok ()

def checkCmds (copies : Copies) : Nat -> List Cmd -> Except SplitError Unit
  | _, [] => .ok ()
  | i, c :: cs => do
      checkCmd copies i c
      checkCmds copies (i + 1) cs

def exitBlocks (s : Split) (b : Block) : List Block :=
  b.labelTargets.filterMap (findBlock s.blocks)

def newCopies (halves : Bool -> Split) (copies : Copies) (exit : Block) :
    Copies :=
  copies.flatMap (fun c =>
    (((halves c.1).exitBlocks c.2).filter
      (fun cexit => cexit.label = exit.label)).map (fun cexit => (c.1, cexit)))

abbrev Cache := List (Block × Copies)

def soundnessCheck (s : Split) (halves : Bool -> Split) :
    Nat -> Cache -> Block -> Copies -> Except SplitError Cache
  | 0, _, _, _ => .error .running
  | depth + 1, cache, orig, copies =>
    if (orig, copies) ∈ cache then .ok cache
    else do
      checkCmds copies 0 orig.cmds
      (s.exitBlocks orig).foldlM
        (fun cache exit =>
          let newcopies := newCopies halves copies exit
          if newcopies.isEmpty then .error .missingExit
          else soundnessCheck s halves depth cache exit newcopies)
        ((orig, copies) :: cache)

def checkHalves (s s0 s1 : Split) : Except SplitError Unit :=
  match s.blocks, s0.blocks, s1.blocks with
  | b :: _, b0 :: _, b1 :: _ => do
      let _ <- soundnessCheck s (fun second => if second then s1 else s0)
        (s.blocks.length + 1) [] b [(false, b0), (true, b1)]
      return ()
  | _, _, _ => .error .indexOutOfRange

/-!
# The loop
-/

def findBest (scores : Scores) (maxCost : Rat) :
    List Split -> Nat -> Option (Nat × Split × BestSplit) ->
      Except SplitError (Option (Nat × Split × BestSplit))
  | [], _, best => .ok best
  | s :: res, pos, best => do
      let bs <- computeBestSplit scores s
      let better :=
        decide (maxCost < bs.totalCost) &&
          (match best with
            | none => true
            | some (_, _, b) => decide (b.totalCost < bs.totalCost)) &&
          (decide (1 < bs.assertionCount) || bs.splitBlock.isSome)
      findBest scores maxCost res (pos + 1)
        (if better then some (pos, s, bs) else best)

def halves (o : CommandLineOptions) (s : Split) (bs : BestSplit) :
    Split × Split :=
  match bs.splitBlock with
  | some (b, branches) =>
    (s.splitAt o b.uniqueId branches 0, s.splitAt o b.uniqueId branches 1)
  | none =>
    (s.sliceAsserts o (bs.assertionCost / 2) true,
      s.sliceAsserts o (bs.assertionCost / 2) false)

/-- The first argument is `max - res.Count`, the rounds that are left. -/
def doSplitLoop (o : CommandLineOptions) (scores : Scores) (maxCost : Rat) :
    Nat -> List Split -> Except SplitError (List Split)
  | 0, res => .ok res
  | rounds + 1, res => do
      match <- findBest scores maxCost res 0 none with
      | none => return res
      | some (bestIdx, best, bs) =>
        let (s0, s1) := halves o best bs
        checkHalves best s0 s1
        doSplitLoop o scores maxCost rounds (res.set bestIdx s0 ++ [s1])

def doSplit (o : CommandLineOptions) (scores : Scores) (initial : Split)
    (maxCost : Rat) (max : Int) : Except SplitError (List Split) :=
  doSplitLoop o scores maxCost (max - 1).toNat [initial]

end Split

end VCGen

end Boogie
