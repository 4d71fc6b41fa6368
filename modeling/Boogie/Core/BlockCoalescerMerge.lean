import Mathlib.Logic.Relation
import Boogie.Core.BlockCoalescer
import Boogie.Foundation.Flowchart

/-!
# One merge

A block is merged with its only successor, which no other block leads to.  In the
merged program a block stands for itself and for what it has been merged with.
-/

namespace Boogie
namespace BlockCoalescer

section Merge

variable {BlockId Label Token Cmd : Type} [DecidableEq BlockId]
variable {isValid : Token -> Bool} {heap : Heap BlockId Label Token Cmd}
variable {b succ : BlockId}

/-!
# The merged blocks
-/

theorem merge_self : merge isValid heap b succ b = (heap b).merge isValid (heap succ) :=
  Function.update_self _ _ _

theorem merge_of_ne {x : BlockId} (h : x ≠ b) : merge isValid heap b succ x = heap x :=
  Function.update_of_ne h _ _

@[simp] theorem cmds_merge_self :
    (merge isValid heap b succ b).cmds = (heap b).cmds ++ (heap succ).cmds := by
  rw [merge_self, Block.merge]

@[simp] theorem transferCmd_merge_self :
    (merge isValid heap b succ b).transferCmd = (heap succ).transferCmd := by
  rw [merge_self, Block.merge]

theorem successors_merge_self :
    successors (merge isValid heap b succ) b = successors heap succ := by
  rw [successors, successors, transferCmd_merge_self]

theorem successors_merge_of_ne {x : BlockId} (h : x ≠ b) :
    successors (merge isValid heap b succ) x = successors heap x := by
  rw [successors, successors, merge_of_ne h]

/-- The block and its successor are the ends of the only edge between them, among
blocks that edges do not lead out of. -/
structure Mergeable (heap : Heap BlockId Label Token Cmd) (alive : Finset BlockId)
    (b succ : BlockId) : Prop where
  mem : b ∈ alive
  mem_succ : succ ∈ alive
  ne : succ ≠ b
  successors_eq : successors heap b = [succ]
  only : forall x, x ∈ alive -> succ ∈ successors heap x -> x = b
  closed : forall x, x ∈ alive -> forall t, t ∈ successors heap x -> t ∈ alive

/-!
# Executions
-/

def chart (heap : Heap BlockId Label Token Cmd) :
    Flowchart BlockId Cmd (Option (TransferCmd BlockId Label)) where
  cmds := fun x => (heap x).cmds
  next := successors heap
  exit := fun x => (heap x).transferCmd

omit [DecidableEq BlockId] in
theorem step_chart {c d : Config BlockId Cmd} {o : Option Cmd} :
    Flowchart.Step (chart heap) c o d <-> Step heap c o d := by
  constructor
  · intro h
    cases h with
    | cmd a rest x => exact Step.cmd a rest x
    | goto ht => exact Step.goto ht
  · intro h
    cases h with
    | cmd a rest x => exact Flowchart.Step.cmd a rest x
    | goto ht => exact Flowchart.Step.goto (F := chart heap) ht

omit [DecidableEq BlockId] in
theorem sequences_chart (x : BlockId) : (chart heap).sequences x = commandSequences heap x := by
  have hsystem : (chart heap).system = system heap := by
    rw [Flowchart.system, system, Executions.System.mk.injEq]
    constructor
    · funext c o d
      exact propext step_chart
    · rfl
  rw [Flowchart.sequences, commandSequences, hsystem]
  rfl

theorem chart_merge :
    chart (merge isValid heap b succ) = (chart heap).fuse b succ := by
  ext1 <;> funext x <;> rcases eq_or_ne x b with rfl | hne
  · rw [Flowchart.cmds_fuse_self]
    exact cmds_merge_self
  · rw [Flowchart.cmds_fuse_of_ne hne]
    exact congrArg Block.cmds (merge_of_ne hne)
  · rw [Flowchart.next_fuse_self]
    exact successors_merge_self
  · rw [Flowchart.next_fuse_of_ne hne]
    exact successors_merge_of_ne hne
  · rw [Flowchart.exit_fuse_self]
    exact transferCmd_merge_self
  · rw [Flowchart.exit_fuse_of_ne hne]
    exact congrArg Block.transferCmd (merge_of_ne hne)

variable {alive : Finset BlockId}

omit [DecidableEq BlockId] in
theorem Mergeable.target_ne (h : Mergeable heap alive b succ) {x t : BlockId}
    (hx : x ∈ alive) (hb : x ≠ b) (ht : t ∈ successors heap x) : t ≠ succ :=
  fun heq => hb (h.only x hx (heq ▸ ht))

omit [DecidableEq BlockId] in
theorem Mergeable.fusible (h : Mergeable heap alive b succ) :
    (chart heap).Fusible (fun x => x ∈ alive) b succ where
  mem_succ := h.mem_succ
  ne := h.ne
  next := by
    intro t
    change t ∈ successors heap b <-> t = succ
    rw [h.successors_eq, List.mem_singleton]
  only := h.only
  closed := h.closed

theorem Mergeable.commandSequences_eq (h : Mergeable heap alive b succ) {x : BlockId}
    (hx : x ∈ alive) (hsucc : x ≠ succ) :
    commandSequences (merge isValid heap b succ) x = commandSequences heap x := by
  rw [← sequences_chart, ← sequences_chart, chart_merge]
  exact h.fusible.sequences_eq hx hsucc

end Merge

end BlockCoalescer
end Boogie
