import Boogie.Foundation.Text
import Boogie.Houdini.Progress
import Boogie.Provers.ProverInterface

/-!
# Balance of the assertion stack

A call pushes a frame and is expected to pop it again, whatever the process
answers.  The lemmas follow what the commands do below the top frame.
-/

namespace Boogie

namespace SMTLib

variable {F L : Type}

/-!
# Commands
-/

section Commands

variable {s : ProverState F L} {stack : Stack F L} {c : Command F L}

@[simp] theorem Stack.tail_add : (stack.add c).tail = stack.tail := by
  cases stack <;> rfl

theorem Stack.add_ne_nil : stack.add c ≠ [] := by
  cases stack with
  | nil => exact List.cons_ne_nil _ _
  | cons frame frames => exact List.cons_ne_nil _ _

theorem assertions_add {a : Assertion F L} :
    a ∈ (stack.add c).assertions <-> c = .assert a ∨ a ∈ stack.assertions := by
  cases c with
  | declareFun name =>
    cases stack with
    | nil => simp [Stack.add, Stack.assertions]
    | cons frame frames => simp [Stack.add, Stack.assertions]
  | assert b =>
    cases stack with
    | nil =>
      simp only [Stack.add, Stack.assertions, List.flatMap_cons,
        List.flatMap_nil, List.filterMap_cons, List.filterMap_nil,
        List.append_nil, List.mem_singleton, Command.assert.injEq,
        List.not_mem_nil, or_false]
      exact eq_comm
    | cons frame frames =>
      simp only [Stack.add, Stack.assertions, List.flatMap_cons,
        List.filterMap_append, List.filterMap_cons, List.filterMap_nil,
        List.mem_append, List.mem_singleton, Command.assert.injEq]
      tauto

structure Above (s s' : ProverState F L) : Prop where
  tail : s'.stack.tail = s.stack.tail
  nonempty : s.stack ≠ [] -> s'.stack ≠ []

theorem Above.refl (s : ProverState F L) : Above s s :=
  ⟨rfl, fun h => h⟩

theorem Above.trans {s₁ s₂ s₃ : ProverState F L} (h : Above s₁ s₂)
    (h' : Above s₂ s₃) : Above s₁ s₃ :=
  ⟨h'.tail.trans h.tail, fun hne => h'.nonempty (h.nonempty hne)⟩

theorem above_send : Above s (s.send c) :=
  ⟨Stack.tail_add, fun _ => Stack.add_ne_nil⟩

theorem above_foldl_send {α : Type} {f : α -> Command F L} {as : List α} :
    Above s (as.foldl (fun s a => s.send (f a)) s) := by
  induction as generalizing s with
  | nil => exact Above.refl s
  | cons a as ih => exact above_send.trans ih

theorem foldl_send_eq {α : Type} {f : α -> Command F L} {as : List α} :
    exists stack, as.foldl (fun s a => s.send (f a)) s =
      { s with stack := stack } := by
  induction as generalizing s with
  | nil => exact ⟨s.stack, rfl⟩
  | cons a as ih =>
    rcases ih (s := s.send (f a)) with ⟨stack, hstack⟩
    exact ⟨stack, hstack⟩

theorem above_assertAxioms : Above s s.assertAxioms := by
  have h : Above s
      (s.pendingAxioms.foldl (fun s a => s.send (.assert (.formula a))) s) :=
    above_foldl_send
  exact ⟨h.tail, h.nonempty⟩

theorem assertAxioms_eq : exists stack,
    s.assertAxioms = { s with stack := stack, pendingAxioms := [] } := by
  have h : exists stack,
      s.pendingAxioms.foldl (fun s a => s.send (.assert (.formula a))) s =
        { s with stack := stack } := foldl_send_eq
  rcases h with ⟨stack, hstack⟩
  exact ⟨stack, by rw [ProverState.assertAxioms, hstack]⟩

end Commands

/-!
# Streams of answers
-/

/-- A process whose answers do not depend on the stack. -/
structure Stream (F L : Type) where
  process : Process F L
  answers : Nat -> Response
  labels : Nat -> List L
  respond_eq : forall n stack, process.respond n stack = answers n
  labels_eq : forall n stack, process.labels n stack = labels n

def Response.outcome : Response -> ProverInterface.Outcome
  | unsat => .valid
  | sat => .invalid
  | silent => .undetermined
  | unknown .memout => .outOfMemory
  | unknown .timeout => .timeOut
  | unknown .canceled => .timeOut
  | unknown .other => .invalid

namespace Stream

variable (stream : Stream F L) (options : Options)

/--
The loop over the counterexamples ends, that is it never needs the last two
labels of a counterexample that has one label only.
-/
def Enumerates : Nat -> Nat -> Prop
  | 0, _ => True
  | errorsLeft + 1, n =>
    hasLabels (stream.answers n).outcome = true ->
      stream.labels (n + 1) = [] ∨ errorsLeft = 0 ∨
        ((options.useLabels = true ∨ (stream.labels (n + 1)).length ≠ 1) ∧
          Enumerates errorsLeft (n + 1))

end Stream

section Answers

variable {stream : Stream F L} {options : Options} {s : ProverState F L}

theorem getResponse_installed {process : Process F L} (h : s.currentErrorHandler = true) :
    getResponse process s = .ok ((process.respond s.queries s.stack).outcome, s.answered) := by
  unfold getResponse
  cases process.respond s.queries s.stack with
  | unknown reason =>
    cases reason with
    | other => rfl
    | _ => exact if_pos h
  | _ => rfl

theorem getResponse_handled (h : s.currentErrorHandler = true) :
    getResponse stream.process s = .ok ((stream.answers s.queries).outcome, s.answered) := by
  rw [getResponse_installed h, stream.respond_eq]

theorem blockingClause_isOk {labels : List L} (hne : labels ≠ []) :
    (exists clause : Assertion F L, blockingClause options labels = .ok clause) <->
      options.useLabels = true ∨ labels.length ≠ 1 := by
  unfold blockingClause
  by_cases huse : options.useLabels = true
  · rw [if_pos huse]
    exact ⟨fun _ => Or.inl huse, fun _ => ⟨_, rfl⟩⟩
  · rw [if_neg huse]
    have hlength : labels.reverse.length = labels.length :=
      List.length_reverse
    rcases hrev : labels.reverse with _ | ⟨target, _ | ⟨source, rest⟩⟩
    · rw [List.reverse_eq_nil_iff] at hrev
      exact absurd hrev hne
    · rw [hrev] at hlength
      constructor
      · rintro ⟨clause, hclause⟩
        cases hclause
      · rintro (h | h)
        · exact absurd h huse
        · exact absurd hlength.symm h
    · rw [hrev] at hlength
      constructor
      · intro _
        right
        intro hone
        rw [hone] at hlength
        cases hlength
      · intro _
        exact ⟨_, rfl⟩

def globalOutcome (globalResult result : ProverInterface.Outcome) :
    ProverInterface.Outcome :=
  if globalResult = .undetermined then result else globalResult

theorem checkOutcomeLoop_succ {errorsLeft : Nat}
    {globalResult : ProverInterface.Outcome} (h : s.currentErrorHandler = true) :
    checkOutcomeLoop stream.process options (errorsLeft + 1) globalResult s =
      if hasLabels (stream.answers s.queries).outcome = true then
        if stream.labels (s.queries + 1) = [] ∨ errorsLeft = 0 then
          .ok (globalOutcome globalResult (stream.answers s.queries).outcome,
            s.answered.onModel (stream.labels (s.queries + 1)))
        else
          (blockingClause options (stream.labels (s.queries + 1))).bind (fun clause =>
              checkOutcomeLoop stream.process options errorsLeft (globalOutcome globalResult
                  (stream.answers s.queries).outcome)
                ((s.answered.onModel (stream.labels (s.queries + 1))).send (.assert clause)))
      else
        .ok (globalOutcome globalResult (stream.answers s.queries).outcome, s.answered) := by
  rw [checkOutcomeLoop, getResponse_handled h]
  simp only [bind, Except.bind, pure, Except.pure, stream.labels_eq,
    ProverState.answered, globalOutcome, Bool.or_eq_true, List.isEmpty_iff,
    decide_eq_true_eq]

structure Enumerated (stream : Stream F L) (s : ProverState F L)
    (globalResult : ProverInterface.Outcome)
    (r : ProverInterface.Outcome × ProverState F L) : Prop where
  outcome : r.1 = globalOutcome globalResult (stream.answers s.queries).outcome
  above : Above s r.2
  valid : (stream.answers s.queries).outcome = .valid -> r.2 = s.answered

theorem above_answered : Above s s.answered :=
  ⟨rfl, fun h => h⟩

theorem above_onModel {labels : List L} : Above s (s.onModel labels) :=
  ⟨rfl, fun h => h⟩

theorem globalOutcome_globalOutcome
    {globalResult result result' : ProverInterface.Outcome} (h : result ≠ .undetermined) :
    globalOutcome (globalOutcome globalResult result) result' =
      globalOutcome globalResult result := by
  unfold globalOutcome
  by_cases hglobal : globalResult = .undetermined
  · rw [if_pos hglobal, if_neg h]
  · rw [if_neg hglobal, if_neg hglobal]

theorem checkOutcomeLoop_enumerated {errorsLeft : Nat}
    {globalResult : ProverInterface.Outcome}
    {r : ProverInterface.Outcome × ProverState F L} (h : s.currentErrorHandler = true)
    (hr : checkOutcomeLoop stream.process options (errorsLeft + 1) globalResult s = .ok r) :
    Enumerated stream s globalResult r ∧ stream.Enumerates options (errorsLeft + 1) s.queries := by
  induction errorsLeft generalizing s globalResult with
  | zero =>
    rw [checkOutcomeLoop_succ h] at hr
    split at hr
    · rename_i hlabels
      rw [if_pos (Or.inr rfl)] at hr
      cases hr
      constructor
      · constructor
        · rfl
        · exact above_answered.trans above_onModel
        · intro hvalid
          rw [hvalid] at hlabels
          cases hlabels
      · exact fun _ => Or.inr (Or.inl rfl)
    · rename_i hlabels
      cases hr
      exact ⟨⟨rfl, above_answered, fun _ => rfl⟩,
        fun hl => absurd hl hlabels⟩
  | succ errorsLeft ih =>
    rw [checkOutcomeLoop_succ h] at hr
    split at hr
    · rename_i hlabels
      have hinvalid : (stream.answers s.queries).outcome ≠ .valid := by
        intro hvalid
        rw [hvalid] at hlabels
        cases hlabels
      split at hr
      · rename_i hlast
        cases hr
        constructor
        · exact ⟨rfl, above_answered.trans above_onModel,
            fun hvalid => absurd hvalid hinvalid⟩
        · intro _
          rcases hlast with hempty | hzero
          · exact Or.inl hempty
          · exact Or.inr (Or.inl hzero)
      · rename_i hlast
        rw [not_or] at hlast
        cases hclause : blockingClause (F := F) options
            (stream.labels (s.queries + 1)) with
        | error e =>
          rw [hclause] at hr
          cases hr
        | ok clause =>
          rw [hclause] at hr
          rcases ih (s := (s.answered.onModel
            (stream.labels (s.queries + 1))).send (.assert clause)) h hr with
            ⟨hrest, hpaths⟩
          have hdetermined :
              (stream.answers s.queries).outcome ≠ .undetermined := by
            intro hundetermined
            rw [hundetermined] at hlabels
            cases hlabels
          constructor
          · constructor
            · rw [hrest.outcome, globalOutcome_globalOutcome hdetermined]
            · exact (above_answered.trans
                (above_onModel.trans above_send)).trans hrest.above
            · exact fun hvalid => absurd hvalid hinvalid
          · intro _
            exact Or.inr (Or.inr
              ⟨(blockingClause_isOk hlast.1).mp ⟨clause, hclause⟩, hpaths⟩)
    · rename_i hlabels
      cases hr
      exact ⟨⟨rfl, above_answered, fun _ => rfl⟩,
        fun hl => absurd hl hlabels⟩

theorem checkOutcomeLoop_isOk {errorsLeft : Nat}
    {globalResult : ProverInterface.Outcome} (h : s.currentErrorHandler = true)
    (hpaths : stream.Enumerates options (errorsLeft + 1) s.queries) :
    exists r, checkOutcomeLoop stream.process options (errorsLeft + 1) globalResult s = .ok r := by
  induction errorsLeft generalizing s globalResult with
  | zero =>
    rw [checkOutcomeLoop_succ h]
    split
    · rw [if_pos (Or.inr rfl)]
      exact ⟨_, rfl⟩
    · exact ⟨_, rfl⟩
  | succ errorsLeft ih =>
    rw [checkOutcomeLoop_succ h]
    split
    · rename_i hlabels
      split
      · exact ⟨_, rfl⟩
      · rename_i hlast
        rw [not_or] at hlast
        rcases hpaths hlabels with hempty | hzero | ⟨hlong, hrest⟩
        · exact absurd hempty hlast.1
        · exact absurd hzero hlast.2
        · rcases (blockingClause_isOk (F := F) hlast.1).mpr hlong with
            ⟨clause, hclause⟩
          rw [hclause]
          exact ih (s := (s.answered.onModel
            (stream.labels (s.queries + 1))).send (.assert clause)) h hrest
    · exact ⟨_, rfl⟩

theorem Options.errorsLeft_pos (options : Options) :
    exists n, options.errorsLeft = n + 1 := by
  have hpos : 1 ≤ options.errorsLeft := by
    unfold Options.errorsLeft
    omega
  exact ⟨options.errorsLeft - 1, by omega⟩

/-- The counterexamples of the query about to be answered can be enumerated. -/
def Stream.Reports (stream : Stream F L) (options : Options) (n : Nat) : Prop :=
  stream.Enumerates options options.errorsLeft n

structure Checked (stream : Stream F L) (s : ProverState F L)
    (r : ProverInterface.Outcome × ProverState F L) : Prop where
  outcome : r.1 = (stream.answers s.queries).outcome
  above : Above s r.2
  handler : r.2.currentErrorHandler = false
  valid : r.1 = .valid -> r.2.queries = s.queries + 1 ∧ r.2.stack = s.stack

theorem checkOutcomeCore_checked
    {r : ProverInterface.Outcome × ProverState F L}
    (hr : checkOutcomeCore stream.process options s = .ok r) :
    Checked stream s r ∧ stream.Reports options s.queries := by
  rcases options.errorsLeft_pos with ⟨n, hn⟩
  unfold checkOutcomeCore at hr
  rw [hn] at hr
  cases hloop : checkOutcomeLoop stream.process options (n + 1) .undetermined
      (s.setErrorHandler true) with
  | error e =>
    rw [hloop] at hr
    cases hr
  | ok r' =>
    rw [hloop] at hr
    cases hr
    rcases checkOutcomeLoop_enumerated rfl hloop with ⟨henum, hpaths⟩
    constructor
    · constructor
      · exact henum.outcome
      · exact ⟨henum.above.tail, henum.above.nonempty⟩
      · rfl
      · intro hvalid
        have hanswer : (stream.answers s.queries).outcome = .valid :=
          henum.outcome.symm.trans hvalid
        rw [henum.valid hanswer]
        exact ⟨rfl, rfl⟩
    · rw [Stream.Reports, hn]
      exact hpaths

theorem checkOutcomeCore_isOk (h : stream.Reports options s.queries) :
    exists r, checkOutcomeCore stream.process options s = .ok r := by
  rcases options.errorsLeft_pos with ⟨n, hn⟩
  rw [Stream.Reports, hn] at h
  have hloop : exists r, checkOutcomeLoop stream.process options (n + 1)
      .undetermined (s.setErrorHandler true) = .ok r :=
    checkOutcomeLoop_isOk rfl h
  rcases hloop with ⟨r, hr⟩
  unfold checkOutcomeCore
  rw [hn, hr]
  exact ⟨_, rfl⟩

end Answers

/-!
# A list of assumptions
-/

section Named

variable {stream : Stream F L} {options : Options} {s : ProverState F L}
  {nameToAssumption : Dictionary String Nat}

theorem assumptionName_injective {m n : Nat} (h : assumptionName m = assumptionName n) : m = n :=
  Text.append_toString_injective h

theorem names_send_named {vc : F} {name : String}
    {t : ProverState F L} :
    (t.send (.assert (.named vc name))).stack.names = t.stack.names ++ [name] := by
  rcases t with ⟨stack, _, _, _, _, _⟩
  cases stack with
  | nil => rfl
  | cons frame frames =>
    simp [ProverState.send, Stack.add, Stack.names]

theorem names_assertAxioms {t : ProverState F L} :
    t.assertAxioms.stack.names = t.stack.names := by
  have hfold : forall (axs : List F) (t : ProverState F L),
      (axs.foldl (fun s a => s.send (.assert (.formula a))) t).stack.names =
        t.stack.names := by
    intro axs
    induction axs with
    | nil => intro t; rfl
    | cons a axs ih =>
      intro t
      rw [List.foldl_cons, ih]
      rcases t with ⟨stack, _, _, _, _, _⟩
      cases stack with
      | nil => rfl
      | cons frame frames =>
        simp [ProverState.send, Stack.add, Stack.names]
  exact hfold t.pendingAxioms t

structure Naming (nameToAssumption : Dictionary String Nat)
    (s : ProverState F L) : Prop where
  older : forall name, name ∈ nameToAssumption.keys ->
    exists m, m < s.nameCounter ∧ name = assumptionName m
  asserted : forall name, name ∈ s.stack.names -> name ∈ nameToAssumption.keys

theorem nameAssumptions_ok (assumptions : List F) {i : Nat} (h : Naming nameToAssumption s) :
    exists r, nameAssumptions assumptions i nameToAssumption s = .ok r ∧
      Naming r.1 r.2 ∧ Above s r.2 ∧ r.2.queries = s.queries := by
  induction assumptions generalizing i nameToAssumption s with
  | nil => exact ⟨_, rfl, h, Above.refl s, rfl⟩
  | cons vc assumptions ih =>
    have hnew : ¬ nameToAssumption.containsKey
        (assumptionName s.nameCounter) = true := by
      rw [Dictionary.containsKey_iff]
      intro hmem
      rcases h.older _ hmem with ⟨m, hm, heq⟩
      rw [assumptionName_injective heq] at hm
      exact absurd hm (Nat.lt_irrefl m)
    rcases assertAxioms_eq (s := { s with nameCounter := s.nameCounter + 1 })
      with ⟨stack, hnext⟩
    have hnaming : Naming
        (nameToAssumption.set (assumptionName s.nameCounter) i)
        (({ s with nameCounter := s.nameCounter + 1 } :
          ProverState F L).assertAxioms.send
            (.assert (.named vc (assumptionName s.nameCounter)))) := by
      constructor
      · intro name hname
        show exists m, m < _ ∧ _
        rw [ProverState.send, hnext]
        rcases Dictionary.mem_keys_set.mp hname with hold | rfl
        · rcases h.older name hold with ⟨m, hm, heq⟩
          exact ⟨m, Nat.lt_succ_of_lt hm, heq⟩
        · exact ⟨s.nameCounter, Nat.lt_succ_self _, rfl⟩
      · intro name hname
        rw [names_send_named, names_assertAxioms, List.mem_append,
          List.mem_singleton] at hname
        rw [Dictionary.mem_keys_set]
        rcases hname with hname | hname
        · exact Or.inl (h.asserted name hname)
        · exact Or.inr hname
    rcases ih (i := i + 1) hnaming with ⟨r, hr, hnaming', habove, hqueries⟩
    refine ⟨r, ?_, hnaming', ?_, ?_⟩
    · rw [nameAssumptions, if_neg hnew]
      exact hr
    · have hcounter : Above s
          ({ s with nameCounter := s.nameCounter + 1 } :
            ProverState F L) := ⟨rfl, fun hne => hne⟩
      exact ((hcounter.trans above_assertAxioms).trans above_send).trans
        habove
    · rw [hqueries, hnext]
      rfl

theorem mapM_indexer_isOk {names : List String}
    (h : forall name, name ∈ names -> name ∈ nameToAssumption.keys) :
    exists unsatCore, names.mapM (indexer nameToAssumption) = Except.ok unsatCore := by
  induction names with
  | nil => exact ⟨[], rfl⟩
  | cons name names ih =>
    rcases Dictionary.mem_keys.mp (h name List.mem_cons_self) with ⟨i, hi⟩
    rcases ih (fun n hn => h n (List.mem_cons_of_mem _ hn)) with
      ⟨unsatCore, hcore⟩
    rw [List.mapM_cons, indexer, hi, hcore]
    exact ⟨i :: unsatCore, rfl⟩

/-- The call returns, and the assertion stack is the same as before. -/
def ReturnsBalanced (s : ProverState F L)
    (call : Nat -> Except Interruption
      (ProverInterface.Outcome × List Nat × ProverState F L)) : Prop :=
  exists fuel r, call fuel = .ok r ∧ r.2.2.stack = s.stack

theorem checkAssumptions_balanced_iff {assumptions : List F} :
    ReturnsBalanced s (fun _ => checkAssumptions stream.process options assumptions s) <->
      stream.Reports options s.queries := by
  have hnaming : Naming (.empty : Dictionary String Nat) s.push := by
    constructor
    · intro name hname
      cases hname
    · intro name hname
      cases hname
  rcases nameAssumptions_ok assumptions (i := 0) hnaming with
    ⟨⟨nameToAssumption, s₁⟩, hnames, hnaming₁, habove, hqueries⟩
  have hqueries' : s₁.queries = s.queries := hqueries
  constructor
  · rintro ⟨fuel, r, hr, _⟩
    unfold checkAssumptions at hr
    rw [hnames] at hr
    cases hcore : checkOutcomeCore stream.process options s₁ with
    | error e =>
      simp only [bind, Except.bind, hcore] at hr
      cases hr
    | ok r' =>
      rw [← hqueries']
      exact (checkOutcomeCore_checked hcore).2
  · intro hreports
    rw [← hqueries'] at hreports
    rcases checkOutcomeCore_isOk hreports with ⟨⟨outcome, s₂⟩, hcore⟩
    have hchecked := (checkOutcomeCore_checked hcore).1
    have hstack : s₂.pop.stack = s.stack := by
      have htail := (habove.trans hchecked.above).tail
      exact htail
    unfold ReturnsBalanced checkAssumptions
    simp only [hnames, hcore, bind, Except.bind]
    by_cases hvalid : outcome = .valid
    · have hnamed : forall name,
          name ∈ stream.process.unsatCore s₂.queries s₂.stack ->
            name ∈ nameToAssumption.keys := by
        intro name hname
        have hmem := stream.process.unsatCore_named _ _ _ hname
        rw [(hchecked.valid hvalid).2] at hmem
        exact hnaming₁.asserted name hmem
      rcases mapM_indexer_isOk hnamed with ⟨unsatCore, hlookup⟩
      rw [if_pos hvalid, hlookup]
      exact ⟨0, _, rfl, hstack⟩
    · rw [if_neg hvalid]
      exact ⟨0, _, rfl, hstack⟩

end Named

/-!
# Hard and soft assumptions
-/

namespace Stream

variable (stream : Stream F L) (options : Options)

def Refutes (n : Nat) : Prop :=
  stream.answers n = .sat ∨ stream.answers n = .unknown .other

/--
Some round of the soft assumptions is refuted after rounds that were not, and
its counterexamples can be enumerated.
-/
def EndsRefuted (n : Nat) : Prop :=
  exists j, (forall i, i < j -> stream.answers (n + i) = .unsat) ∧
    stream.Refutes (n + j) ∧ stream.Reports options (n + j)

def KeepsBalance (n : Nat) : Prop :=
  stream.answers n = .unsat ∨ stream.answers n = .silent ∨
    (stream.Refutes n ∧ stream.EndsRefuted options (n + 1))

end Stream

section Soft

variable {stream : Stream F L} {options : Options} {s : ProverState F L}

theorem outcome_invalid {n : Nat} :
    (stream.answers n).outcome = .invalid <-> stream.Refutes n := by
  unfold Stream.Refutes
  cases stream.answers n with
  | unknown reason =>
    cases reason with
    | other => simp [Response.outcome]
    | _ => simp [Response.outcome]
  | _ => simp [Response.outcome]

theorem outcome_valid {n : Nat} :
    (stream.answers n).outcome = .valid <-> stream.answers n = .unsat := by
  cases stream.answers n with
  | unknown reason =>
    cases reason with
    | _ => simp [Response.outcome]
  | _ => simp [Response.outcome]

def Lifted (s s' : ProverState F L) : Prop :=
  exists frame frame', s'.stack = frame :: frame' :: s.stack.tail

theorem lifted_of_above {s' : ProverState F L} (hne : s.stack ≠ [])
    {t : ProverState F L} (htail : t.stack.tail = s.stack)
    (habove : Above t s') (ht : t.stack ≠ []) : Lifted s s' := by
  have htail' := habove.tail.trans htail
  rcases hstack : s'.stack with _ | ⟨frame, frames⟩
  · exact absurd hstack (habove.nonempty ht)
  · rw [hstack, List.tail_cons] at htail'
    rcases hold : s.stack with _ | ⟨frame', frames'⟩
    · exact absurd hold hne
    · exact ⟨frame, frame', by rw [hstack, htail', hold]; rfl⟩

structure Searched (stream : Stream F L) (options : Options)
    (s : ProverState F L)
    (r : ProverInterface.Outcome × Nat × ProverState F L) : Prop where
  round : exists j,
    (forall i, i < j -> stream.answers (s.queries + i) = .unsat) ∧
    stream.answers (s.queries + j) ≠ .unsat ∧
    r.1 = (stream.answers (s.queries + j)).outcome ∧
    stream.Reports options (s.queries + j)
  lifted : Lifted s r.2.2

def softRound (currAssumptions : List (Assertion F L)) (s : ProverState F L) :
    ProverState F L :=
  currAssumptions.foldl (fun s a => s.send (.assert a)) s.push

theorem above_softRound {currAssumptions : List (Assertion F L)} :
    Above s.push (softRound currAssumptions s) :=
  above_foldl_send

theorem queries_softRound {currAssumptions : List (Assertion F L)} :
    (softRound currAssumptions s).queries = s.queries := by
  have h : exists stack, softRound currAssumptions s =
      { s.push with stack := stack } := foldl_send_eq
  rcases h with ⟨stack, hstack⟩
  rw [hstack]
  rfl

theorem softLoop_succ {process : Process F L} {fuel k : Nat}
    {currAssumptions : List (Assertion F L)} :
    softLoop process options (fuel + 1) k currAssumptions s = (checkOutcomeCore process options
        (softRound currAssumptions s)).bind (fun r =>
          if r.1 = .valid then
            softLoop process options fuel (k + 1) (relaxAll currAssumptions k)
              (r.2.pop.send (.declareFun (relaxVar k)))
          else .ok (r.1, k, r.2)) := rfl

theorem nextRound_above {currAssumptions : List (Assertion F L)} {k : Nat}
    {r : ProverInterface.Outcome × ProverState F L}
    (h : Checked stream (softRound currAssumptions s) r) :
    Above s (r.2.pop.send (.declareFun (relaxVar k))) ∧
      (r.2.pop.send (.declareFun (relaxVar k))).stack ≠ [] := by
  have hpop : r.2.pop.stack = s.stack :=
    (above_softRound.trans h.above).tail
  have hsend : Above r.2.pop (r.2.pop.send (.declareFun (relaxVar k))) :=
    above_send
  constructor
  · constructor
    · rw [hsend.tail, hpop]
    · exact fun _ => Stack.add_ne_nil
  · exact Stack.add_ne_nil

theorem softLoop_searched {fuel k : Nat}
    {currAssumptions : List (Assertion F L)}
    {r : ProverInterface.Outcome × Nat × ProverState F L} (hne : s.stack ≠ [])
    (hr : softLoop stream.process options fuel k currAssumptions s = .ok r) :
    Searched stream options s r := by
  induction fuel generalizing k currAssumptions s with
  | zero => cases hr
  | succ fuel ih =>
    rw [softLoop_succ] at hr
    cases hcore : checkOutcomeCore stream.process options
        (softRound currAssumptions s) with
    | error e =>
      rw [hcore] at hr
      cases hr
    | ok r' =>
      rw [hcore] at hr
      rcases checkOutcomeCore_checked hcore with ⟨hchecked, hreports⟩
      have houtcome := hchecked.outcome
      rw [queries_softRound] at hreports houtcome
      simp only [Except.bind] at hr
      split at hr
      · rename_i hvalid
        have hunsat : stream.answers s.queries = .unsat :=
          outcome_valid.mp (houtcome.symm.trans hvalid)
        rcases nextRound_above (k := k) hchecked with ⟨habove, hne'⟩
        have hrest := ih hne' hr
        have hqueries : (r'.2.pop.send
            (.declareFun (relaxVar k))).queries = s.queries + 1 := by
          have hcount := (hchecked.valid hvalid).1
          rw [queries_softRound] at hcount
          exact hcount
        constructor
        · rcases hrest.round with ⟨j, hbefore, hstop, hresult, hpaths⟩
          rw [hqueries] at hbefore hstop hresult hpaths
          have hshift : s.queries + 1 + j = s.queries + (j + 1) := by
            omega
          rw [hshift] at hstop hresult hpaths
          refine ⟨j + 1, ?_, hstop, hresult, hpaths⟩
          intro i hi
          cases i with
          | zero => exact hunsat
          | succ i =>
            have hprevious := hbefore i (by omega)
            rwa [show s.queries + 1 + i = s.queries + (i + 1) by omega]
              at hprevious
        · rcases hrest.lifted with ⟨frame, frame', hstack⟩
          exact ⟨frame, frame', by rw [hstack, habove.tail]⟩
      · rename_i hinvalid
        cases hr
        constructor
        · refine ⟨0, ?_, ?_, houtcome, hreports⟩
          · intro i hi
            exact absurd hi (Nat.not_lt_zero i)
          · intro hunsat
            exact hinvalid (houtcome.trans (outcome_valid.mpr hunsat))
        · exact lifted_of_above hne rfl
            (above_softRound.trans hchecked.above) (List.cons_ne_nil _ _)

theorem softLoop_isOk {k j : Nat} {currAssumptions : List (Assertion F L)}
    (hbefore : forall i, i < j -> stream.answers (s.queries + i) = .unsat)
    (hrefutes : stream.Refutes (s.queries + j))
    (hreports : stream.Reports options (s.queries + j)) :
    exists k' s', softLoop stream.process options (j + 1) k currAssumptions s =
      .ok (.invalid, k', s') := by
  have hunsat : forall {n : Nat}, stream.answers n = .unsat ->
      stream.Reports options n := by
    intro n hn
    rcases options.errorsLeft_pos with ⟨m, hm⟩
    rw [Stream.Reports, hm]
    intro hlabels
    rw [hn] at hlabels
    cases hlabels
  induction j generalizing k currAssumptions s with
  | zero =>
    have hround : stream.Reports options
        (softRound currAssumptions s).queries := by
      rw [queries_softRound]
      exact hreports
    rcases checkOutcomeCore_isOk hround with ⟨r, hcore⟩
    have houtcome := (checkOutcomeCore_checked hcore).1.outcome
    rw [queries_softRound] at houtcome
    have hinvalid : r.1 = .invalid :=
      houtcome.trans (outcome_invalid.mpr hrefutes)
    rw [softLoop_succ, hcore]
    simp only [Except.bind, hinvalid]
    exact ⟨_, _, rfl⟩
  | succ j ih =>
    have hround : stream.Reports options
        (softRound currAssumptions s).queries := by
      rw [queries_softRound]
      exact hunsat (hbefore 0 (Nat.succ_pos j))
    rcases checkOutcomeCore_isOk hround with ⟨r, hcore⟩
    have hchecked := (checkOutcomeCore_checked hcore).1
    have houtcome := hchecked.outcome
    rw [queries_softRound] at houtcome
    have hvalid : r.1 = .valid :=
      houtcome.trans (outcome_valid.mpr (hbefore 0 (Nat.succ_pos j)))
    have hqueries : (r.2.pop.send
        (.declareFun (relaxVar k))).queries = s.queries + 1 := by
      have hcount := (hchecked.valid hvalid).1
      rw [queries_softRound] at hcount
      exact hcount
    have hshift : forall i, s.queries + 1 + i = s.queries + (i + 1) := by
      intro i
      omega
    rw [softLoop_succ, hcore]
    simp only [Except.bind]
    rw [if_pos hvalid]
    apply ih
    · intro i hi
      rw [hqueries, hshift]
      exact hbefore (i + 1) (by omega)
    · rw [hqueries, hshift]
      exact hrefutes
    · rw [hqueries, hshift]
      exact hreports

theorem getResponse_unhandled (h : s.currentErrorHandler = false)
    {r : ProverInterface.Outcome × ProverState F L} :
    getResponse stream.process s = .ok r <-> r = ((stream.answers s.queries).outcome, s.answered) ∧
        (stream.answers s.queries = .unsat ∨ stream.answers s.queries = .silent ∨
            stream.Refutes s.queries) := by
  unfold getResponse Stream.Refutes
  rw [stream.respond_eq, h]
  cases stream.answers s.queries with
  | unknown reason =>
    cases reason with
    | _ => simp [Response.outcome, eq_comm]
  | _ => simp [Response.outcome, eq_comm]

def hardRound (hard : List F) (s : ProverState F L) : ProverState F L :=
  hard.foldl (fun s a => s.send (.assert (.formula a))) s.push.assertAxioms

theorem above_hardRound {hard : List F} : Above s.push (hardRound hard s) :=
  above_assertAxioms.trans above_foldl_send

theorem hardRound_eq (hard : List F) : exists stack,
    hardRound hard s = { s with stack := stack, pendingAxioms := [] } := by
  have h : exists stack, hardRound hard s =
      { s.push.assertAxioms with stack := stack } := foldl_send_eq
  rcases h with ⟨stack, hstack⟩
  rcases assertAxioms_eq (s := s.push) with ⟨stack', hstack'⟩
  rw [hstack'] at hstack
  exact ⟨stack, hstack⟩

theorem hardRound_spec (hard : List F) :
    (hardRound hard s).stack.tail = s.stack ∧ (hardRound hard s).stack ≠ [] ∧
      (hardRound hard s).queries = s.queries ∧
      (hardRound hard s).currentErrorHandler = s.currentErrorHandler := by
  refine ⟨above_hardRound.tail, above_hardRound.nonempty (List.cons_ne_nil _ _), ?_⟩
  rcases hardRound_eq (s := s) hard with ⟨stack, hround⟩
  rw [hround]
  exact ⟨rfl, rfl⟩

theorem checkSoftAssumptions_eq {process : Process F L} {hard soft : List F}
    {fuel : Nat} :
    checkSoftAssumptions process options fuel hard soft s =
      (getResponse process (hardRound hard s)).bind (fun r =>
        if r.1 ≠ .invalid then .ok (r.1, [], r.2.pop)
        else
          (softLoop process options fuel 0 (soft.map .formula) r.2).bind (fun t =>
              if t.1 = .invalid then
                .ok (t.1, relaxValues (process.getValue t.2.2.queries t.2.2.stack)
                    (List.range t.2.1), t.2.2.pop.pop)
              else .ok (t.1, [], t.2.2.pop))) := rfl

section Balance

variable {hard soft : List F}

theorem keepsBalance_of_returns {fuel : Nat}
    {r : ProverInterface.Outcome × List Nat × ProverState F L}
    (hhandler : s.currentErrorHandler = false)
    (hr : checkSoftAssumptions stream.process options fuel hard soft s = .ok r)
    (hbalanced : r.2.2.stack = s.stack) :
    stream.KeepsBalance options s.queries := by
  rcases hardRound_spec (s := s) hard with ⟨htail, hne, hqueries, hhandler'⟩
  rw [hhandler] at hhandler'
  rw [checkSoftAssumptions_eq] at hr
  cases hresponse : getResponse stream.process (hardRound hard s) with
  | error e =>
    rw [hresponse] at hr
    cases hr
  | ok answer =>
    rw [hresponse] at hr
    simp only [Except.bind] at hr
    rcases (getResponse_unhandled hhandler').mp hresponse with
      ⟨rfl, hanswer⟩
    rw [hqueries] at hanswer hr
    split at hr
    · rename_i hnotInvalid
      rcases hanswer with hunsat | hsilent | hrefutes
      · exact Or.inl hunsat
      · exact Or.inr (Or.inl hsilent)
      · exact absurd (outcome_invalid.mpr hrefutes) hnotInvalid
    · rename_i hinvalid
      have hrefutes : stream.Refutes s.queries :=
        outcome_invalid.mp (not_not.mp hinvalid)
      cases hsoft : softLoop stream.process options fuel 0
          (soft.map .formula) (hardRound hard s).answered with
      | error e =>
        rw [hsoft] at hr
        cases hr
      | ok t =>
        rw [hsoft] at hr
        have hsearched := softLoop_searched (s :=
          (hardRound hard s).answered) hne hsoft
        rcases hsearched.lifted with ⟨frame, frame', hstack⟩
        rcases hsearched.round with ⟨j, hbefore, hstop, hresult, hreports⟩
        have hanswered : (hardRound hard s).answered.queries =
            s.queries + 1 := congrArg (· + 1) hqueries
        rw [hanswered] at hbefore hstop hresult hreports
        simp only at hr
        split at hr
        · rename_i hagain
          have hlast : stream.Refutes (s.queries + 1 + j) :=
            outcome_invalid.mp (hresult.symm.trans hagain)
          exact Or.inr (Or.inr ⟨hrefutes, j, hbefore, hlast, hreports⟩)
        · -- the frame of the hard assumptions is still there
          cases hr
          have hpop : t.2.2.pop.stack =
              frame' :: (hardRound hard s).answered.stack.tail := by
            show t.2.2.stack.tail = _
            rw [hstack]
            rfl
          have hleak : frame' :: (hardRound hard s).stack.tail = s.stack :=
            hpop.symm.trans hbalanced
          rw [htail] at hleak
          exact absurd (congrArg List.length hleak) (by simp)

theorem returns_of_keepsBalance (hhandler : s.currentErrorHandler = false)
    (hkeeps : stream.KeepsBalance options s.queries) :
    exists fuel r, checkSoftAssumptions stream.process options fuel hard soft s = .ok r ∧
        r.2.2.stack = s.stack := by
  rcases hardRound_spec (s := s) hard with ⟨htail, hne, hqueries, hhandler'⟩
  rw [hhandler] at hhandler'
  have hresponse : forall answer, answer = stream.answers s.queries ->
      (answer = .unsat ∨ answer = .silent ∨ stream.Refutes s.queries) ->
        getResponse stream.process (hardRound hard s) =
          .ok (answer.outcome, (hardRound hard s).answered) := by
    rintro answer rfl hanswer
    rw [getResponse_unhandled hhandler', hqueries]
    exact ⟨rfl, hanswer⟩
  rcases hkeeps with hunsat | hsilent | ⟨hrefutes, j, hbefore, hlast, hreports⟩
  · have hvalid := hresponse .unsat hunsat.symm (Or.inl rfl)
    exact ⟨0, (.valid, [], (hardRound hard s).answered.pop),
      by rw [checkSoftAssumptions_eq, hvalid]; rfl, htail⟩
  · have hundetermined := hresponse .silent hsilent.symm (Or.inr (Or.inl rfl))
    exact ⟨0, (.undetermined, [], (hardRound hard s).answered.pop),
      by rw [checkSoftAssumptions_eq, hundetermined]; rfl, htail⟩
  · have hinvalid := hresponse _ rfl (Or.inr (Or.inr hrefutes))
    rw [outcome_invalid.mpr hrefutes] at hinvalid
    have hanswered : (hardRound hard s).answered.queries = s.queries + 1 :=
      congrArg (· + 1) hqueries
    rw [← hanswered] at hbefore hlast hreports
    have hloop : exists k' s', softLoop stream.process options (j + 1) 0
        (soft.map .formula) (hardRound hard s).answered =
          .ok (.invalid, k', s') := softLoop_isOk hbefore hlast hreports
    rcases hloop with ⟨k', s', hsoft⟩
    have hsearched := softLoop_searched (s :=
      (hardRound hard s).answered) hne hsoft
    rcases hsearched.lifted with ⟨frame, frame', hstack⟩
    have hbalanced : s'.pop.pop.stack = s.stack := by
      show s'.stack.tail.tail = s.stack
      rw [hstack]
      exact htail
    exact ⟨j + 1, (.invalid, relaxValues
        (stream.process.getValue s'.queries s'.stack) (List.range k'),
      s'.pop.pop), by
        rw [checkSoftAssumptions_eq, hinvalid]
        show (softLoop _ _ _ _ _ _).bind _ = _
        rw [hsoft]
        rfl, hbalanced⟩

theorem checkSoftAssumptions_balanced_iff (hhandler : s.currentErrorHandler = false) :
    ReturnsBalanced s (fun fuel =>
        checkSoftAssumptions stream.process options fuel hard soft s) <->
      stream.KeepsBalance options s.queries := by
  constructor
  · rintro ⟨fuel, r, hr, hbalanced⟩
    exact keepsBalance_of_returns hhandler hr hbalanced
  · exact returns_of_keepsBalance hhandler

end Balance

end Soft

def timeoutStream : Stream Nat Nat where
  process :=
    { respond := fun _ _ => .unknown .timeout
      labels := fun _ _ => []
      getValue := fun _ _ _ => none
      unsatCore := fun _ _ => []
      unsatCore_named := fun _ _ _ h => nomatch h }
  answers := fun _ => .unknown .timeout
  labels := fun _ => []
  respond_eq := fun _ _ => rfl
  labels_eq := fun _ _ => rfl

def initialState : ProverState F L where
  stack := [[]]
  queries := 0
  nameCounter := 0
  pendingAxioms := []
  currentErrorHandler := false
  reported := []

/-- A timeout for the hard assumptions finds no error handler. -/
theorem checkSoftAssumptions_timeout :
    (forall fuel, checkSoftAssumptions timeoutStream.process ⟨false, 1⟩ fuel
      [0] [1] initialState = .error .nullReference) ∧ ¬ ReturnsBalanced initialState (fun fuel =>
      checkSoftAssumptions timeoutStream.process ⟨false, 1⟩ fuel [0] [1] initialState) := by
  have hthrows : forall fuel, checkSoftAssumptions timeoutStream.process
      ⟨false, 1⟩ fuel [0] [1] initialState = .error .nullReference :=
    fun _ => rfl
  constructor
  · exact hthrows
  · rintro ⟨fuel, r, hr, _⟩
    change checkSoftAssumptions timeoutStream.process ⟨false, 1⟩ fuel [0] [1]
      initialState = .ok r at hr
    rw [hthrows fuel] at hr
    cases hr

end SMTLib

/-!
# Rounds of the learner's loop
-/

namespace MLHoudini

open SMTLib

structure ContextState where
  learn : LearnState
  stack : Stack VCExpr String

def roundFrame (finalVC : VCExpr) (clauses : List (Command VCExpr String)) :
    List (Command VCExpr String) :=
  .assert (.formula (VCExpressionGenerator.not finalVC)) :: clauses

def stackAfter (outcome : ProverInterface.Outcome) (cexs : List Cex)
    (collector : MLHoudiniCounterexampleCollector)
    (stack : Stack VCExpr String) : Stack VCExpr String :=
  if outcome = .timeOut ∨ outcome = .outOfMemory then stack
  else if cexs = [] then stack.tail
  else if collector.realErrors ≠ [] then stack
  else stack.tail

/-- The steps of `LearnInv` with the assertion stack of the prover. -/
inductive ContextStep (H : MLHoudini) (prover : Prover) :
    ContextState -> LearnEvent -> ContextState -> Prop where
  | internal {s s' : LearnState} {stack : Stack VCExpr String} :
      Step H prover s .internal s' ->
      ContextStep H prover ⟨s, stack⟩ .internal ⟨s', stack⟩
  | query {s s' : LearnState} {stack : Stack VCExpr String} {impl : String}
      {i : Nat} {finalVC : VCExpr} {clauses : List (Command VCExpr String)}
      {outcome : ProverInterface.Outcome} {cexs : List Cex}
      {tree : Option C5TreeNode} {collector : MLHoudiniCounterexampleCollector}
      {samples : SampleState} :
      s.control = .bounds impl i ->
      (H.genVC impl).finalVC s.function2Value (bound i) = some finalVC ->
      prover.answers finalVC outcome cexs ->
      collect cexs s.samples = some (collector, samples) ->
      H.useAnswer impl i outcome cexs tree s = some s' ->
      ContextStep H prover ⟨s, stack⟩ (.answered impl i outcome cexs)
        ⟨s', stackAfter outcome cexs collector
          (roundFrame finalVC clauses :: stack)⟩

inductive ContextRun (H : MLHoudini) (prover : Prover) :
    ContextState -> List LearnEvent -> ContextState -> Prop where
  | nil {c : ContextState} : ContextRun H prover c [] c
  | cons {c c₁ c' : ContextState} {event : LearnEvent}
      {events : List LearnEvent} :
      ContextStep H prover c event c₁ -> ContextRun H prover c₁ events c' ->
      ContextRun H prover c (event :: events) c'

/-- The answer does not end the loop before the frame is popped. -/
def LearnEvent.KeepsContext : LearnEvent -> Prop
  | internal => True
  | answered _ _ outcome cexs =>
    outcome ≠ .timeOut ∧ outcome ≠ .outOfMemory ∧
      forall cex, cex ∈ cexs -> ¬ cex.IsReal

theorem onCounterexample_realErrors {cex : Cex}
    {state state' : MLHoudiniCounterexampleCollector × SampleState}
    (h : MLHoudiniCounterexampleCollector.onCounterexample cex state = some state') :
    state'.1.realErrors = state.1.realErrors ++ [cex].filter (fun cex => cex.IsReal) := by
  unfold MLHoudiniCounterexampleCollector.onCounterexample at h
  by_cases hreal : cex.lhs.length = 0 ∧ cex.rhs.length = 0
  · have hfilter : [cex].filter (fun cex => cex.IsReal) = [cex] := by
      rw [List.length_eq_zero_iff, List.length_eq_zero_iff] at hreal
      simp [Cex.IsReal, hreal]
    rw [handleCounterExample, if_pos hreal] at h
    cases h
    rw [hfilter]
  · have hfilter : [cex].filter (fun cex => cex.IsReal) = [] := by
      rw [List.length_eq_zero_iff, List.length_eq_zero_iff] at hreal
      simp only [List.filter_cons, Cex.IsReal, hreal]
      rfl
    rw [handleCounterExample, if_neg hreal] at h
    rw [hfilter, List.append_nil]
    split at h
    · rename_i samples hcase
      split at hcase
      · rcases Option.bind_eq_some_iff.mp hcase with ⟨_, _, heq⟩
        cases heq
      · cases hcase
    · cases h
      rfl
    · cases h
      rfl
    · cases h

theorem collect_realErrors {cexs : List Cex} {s samples : SampleState}
    {collector : MLHoudiniCounterexampleCollector}
    (h : collect cexs s = some (collector, samples)) :
    collector.realErrors = cexs.filter (fun cex => cex.IsReal) := by
  have hfold : forall (cexs : List Cex)
      (state state' : MLHoudiniCounterexampleCollector × SampleState),
      cexs.foldlM (fun state cex =>
        MLHoudiniCounterexampleCollector.onCounterexample cex state) state =
          some state' ->
        state'.1.realErrors =
          state.1.realErrors ++ cexs.filter (fun cex => cex.IsReal) := by
    intro cexs
    induction cexs with
    | nil =>
      intro state state' h
      cases h
      exact (List.append_nil _).symm
    | cons cex cexs ih =>
      intro state state' h
      rw [List.foldlM_cons] at h
      rcases Option.bind_eq_some_iff.mp h with ⟨state₁, hfirst, hrest⟩
      rw [ih state₁ state' hrest, onCounterexample_realErrors hfirst,
        List.append_assoc, ← List.filter_append, List.singleton_append]
  exact hfold cexs _ _ h

theorem contextStep_stack {H : MLHoudini} {prover : Prover}
    {c c' : ContextState} {event : LearnEvent} (h : ContextStep H prover c event c') :
    (event.KeepsContext -> c'.stack = c.stack) ∧ (¬ event.KeepsContext -> c'.stack ≠ c.stack ∧
        exists outcome errors, c'.learn.control = .returned outcome errors) := by
  cases h with
  | internal hstep => exact ⟨fun _ => rfl, fun hnot => absurd trivial hnot⟩
  | query hcontrol hvc hanswers hcollect huse =>
    rename_i s s' stack impl i finalVC clauses outcome cexs tree collector
      samples
    have hreal : collector.realErrors ≠ [] <->
        ¬ forall cex, cex ∈ cexs -> ¬ cex.IsReal := by
      rw [collect_realErrors hcollect, ne_eq, List.filter_eq_nil_iff]
      simp
    have hne : roundFrame finalVC clauses :: stack ≠ stack := by
      intro heq
      exact absurd (congrArg List.length heq) (by simp)
    unfold useAnswer at huse
    rcases Option.bind_eq_some_iff.mp huse with ⟨r, hr, huse⟩
    rw [hcollect] at hr
    cases hr
    simp only at huse
    unfold stackAfter
    by_cases hlimit : outcome = .timeOut ∨ outcome = .outOfMemory
    · rw [if_pos hlimit] at huse
      cases huse
      constructor
      · intro hkeeps
        rcases hlimit with hlimit | hlimit
        · exact absurd hlimit hkeeps.1
        · exact absurd hlimit hkeeps.2.1
      · intro _
        rw [if_pos hlimit]
        exact ⟨hne, _, _, rfl⟩
    · rw [if_neg hlimit] at huse
      rw [if_neg hlimit]
      rw [not_or] at hlimit
      by_cases hempty : cexs = []
      · rw [if_pos hempty]
        subst hempty
        constructor
        · exact fun _ => rfl
        · intro hnot
          exact absurd ⟨hlimit.1, hlimit.2, fun _ hcex => nomatch hcex⟩ hnot
      · rw [if_neg hempty] at huse
        rw [if_neg hempty]
        unfold useCounterexamples at huse
        by_cases hrealErrors : collector.realErrors ≠ []
        · rw [if_pos hrealErrors] at huse
          rw [if_pos hrealErrors]
          cases huse
          constructor
          · exact fun hkeeps => absurd hkeeps.2.2 (hreal.mp hrealErrors)
          · exact fun _ => ⟨hne, _, _, rfl⟩
        · rw [if_neg hrealErrors]
          constructor
          · exact fun _ => rfl
          · intro hnot
            exact absurd ⟨hlimit.1, hlimit.2,
              not_not.mp (fun h => hrealErrors (hreal.mpr h))⟩ hnot

theorem contextRun_stack {H : MLHoudini} {prover : Prover}
    {c c' : ContextState} {events : List LearnEvent} (h : ContextRun H prover c events c') :
    c'.stack = c.stack <-> forall event, event ∈ events -> event.KeepsContext := by
  induction h with
  | nil => simp
  | cons hstep hrest ih =>
    rename_i c c₁ c' event events
    have hstack := contextStep_stack hstep
    by_cases hkeeps : event.KeepsContext
    · rw [← hstack.1 hkeeps, ih]
      simp [hkeeps]
    · rcases hstack.2 hkeeps with ⟨hne, outcome, errors, hreturned⟩
      have hlast : c' = c₁ := by
        cases hrest with
        | nil => rfl
        | cons hnext _ =>
          cases hnext with
          | internal hinternal =>
            cases hinternal with
            | dequeue hcontrol _ =>
              rw [hcontrol] at hreturned
              cases hreturned
            | finish hcontrol _ =>
              rw [hcontrol] at hreturned
              cases hreturned
          | query hcontrol _ _ _ _ =>
            rw [hcontrol] at hreturned
            cases hreturned
      rw [hlast]
      constructor
      · exact fun heq => absurd heq hne
      · exact fun hall => absurd (hall event List.mem_cons_self) hkeeps

end MLHoudini

/-!
# Contexts
-/

namespace SMTLib

open MLHoudini

/--
When the calls return with the stack they were given.  The version with a list
of assumptions only needs counterexamples that can be enumerated.  The version
with hard and soft assumptions also needs answers within the limits and a round
that is refuted, and the learner's loop answers within the limits that are no
real errors.
-/
theorem contexts_balanced_iff {F L : Type} (stream : Stream F L)
    (options : Options) {s : ProverState F L} (H : MLHoudini) (prover : Prover)
    (hhandler : s.currentErrorHandler = false) :
    (forall assumptions, ReturnsBalanced s
        (fun _ => checkAssumptions stream.process options assumptions s) <->
      stream.Reports options s.queries) ∧ (forall hard soft, ReturnsBalanced s (fun fuel =>
        checkSoftAssumptions stream.process options fuel hard soft s) <->
      stream.KeepsBalance options s.queries) ∧
    (forall stack events c', ContextRun H prover ⟨H.initial, stack⟩ events c' ->
      (c'.stack = stack <-> forall event, event ∈ events -> event.KeepsContext)) := by
  constructor
  · exact fun _ => checkAssumptions_balanced_iff
  · constructor
    · exact fun _ _ => checkSoftAssumptions_balanced_iff hhandler
    · exact fun _ _ _ hrun => contextRun_stack hrun

/-- A timeout is harmless for one of the two versions only. -/
theorem contexts_balanced_timeout :
    ReturnsBalanced initialState (fun _ =>
        checkAssumptions timeoutStream.process ⟨false, 1⟩ [0] initialState) ∧
      ¬ ReturnsBalanced initialState (fun fuel =>
        checkSoftAssumptions timeoutStream.process ⟨false, 1⟩ fuel [0] [1] initialState) := by
  have h := contexts_balanced_iff (s := initialState) timeoutStream
    ⟨false, 1⟩ relabels anyAnswer rfl
  constructor
  · rw [h.1]
    exact fun _ => Or.inl rfl
  · rw [h.2.1]
    rintro (hunsat | hsilent | ⟨hsat | hother, _⟩)
    · cases hunsat
    · cases hsilent
    · cases hsat
    · cases hother

end SMTLib

end Boogie
