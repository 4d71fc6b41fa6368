import Mathlib.Data.List.Nodup
import Mathlib.Logic.Function.Basic

/-!
# Unique names

A namer gives objects names that are as close as possible to their inherent ones.
A counter is added as a suffix if a name clashes. Names are global or belong to
the innermost scope.
-/

namespace Boogie
namespace VCExprAST

abbrev Name := List Char

instance lawfulBEqName : LawfulBEq Name := inferInstance

structure UniqueNamer (Obj : Type) where
  globalNames : Obj -> Option Name
  /-- The innermost scope comes first. -/
  localNames : List (Obj -> Option Name)
  usedNames : List Name
  currentCounters : Name -> Option Nat
  globalPlusLocalNames : Obj -> Option Name

namespace UniqueNamer

variable {Obj : Type}

def initial : UniqueNamer Obj where
  globalNames := fun _ => none
  localNames := [fun _ => none]
  usedNames := []
  currentCounters := fun _ => none
  globalPlusLocalNames := fun _ => none

def spacer : Name := ['@', '@']

def numbered (baseName : Name) (counter : Nat) : Name :=
  baseName ++ spacer ++ Nat.toDigits 10 counter

/-- The loop that looks for a name which is not used. -/
def firstFree (usedNames : List Name) (baseName : Name) :
    Nat -> Name -> Nat -> Name × Nat
  | 0, candidate, counter => (candidate, counter)
  | rounds + 1, candidate, counter =>
    if candidate ∈ usedNames then
      firstFree usedNames baseName rounds (numbered baseName counter) (counter + 1)
    else (candidate, counter)

def freeName (n : UniqueNamer Obj) (baseName : Name) : Name × Nat :=
  let start := match n.currentCounters baseName with
    | some counter => (numbered baseName counter, counter + 1)
    | none => (baseName, 0)
  firstFree n.usedNames baseName (n.usedNames.length + 1) start.1 start.2

def pushScope (n : UniqueNamer Obj) : UniqueNamer Obj :=
  { n with localNames := (fun _ => none) :: n.localNames }

def popScope (n : UniqueNamer Obj) : Option (UniqueNamer Obj) :=
  match n.localNames with
  | [] => none
  | _ :: scopes => some { n with localNames := scopes }

def nameIn (globalNames : Obj -> Option Name) :
    List (Obj -> Option Name) -> Obj -> Option Name
  | [], thingie => globalNames thingie
  | scope :: scopes, thingie =>
    match scope thingie with
    | some res => some res
    | none => nameIn globalNames scopes thingie

def nameOf (n : UniqueNamer Obj) (thingie : Obj) : Option Name :=
  nameIn n.globalNames n.localNames thingie

section Registering

variable [DecidableEq Obj]

def nextFreeName (n : UniqueNamer Obj) (thingie : Obj) (baseName : Name) :
    Name × UniqueNamer Obj :=
  let candidate := (n.freeName baseName).1
  (candidate,
    { n with
      usedNames := n.usedNames ++ [candidate]
      currentCounters :=
        Function.update n.currentCounters baseName (some (n.freeName baseName).2)
      globalPlusLocalNames :=
        Function.update n.globalPlusLocalNames thingie (some candidate) })

def getName (n : UniqueNamer Obj) (thingie : Obj) (inherentName : Name) :
    Name × UniqueNamer Obj :=
  match n.nameOf thingie with
  | some res => (res, n)
  | none =>
    let (res, n') := n.nextFreeName thingie inherentName
    (res, { n' with
      globalNames := Function.update n'.globalNames thingie (some res) })

def getLocalName (n : UniqueNamer Obj) (thingie : Obj) (inherentName : Name) :
    Option (Name × UniqueNamer Obj) :=
  let (res, n') := n.nextFreeName thingie inherentName
  match n'.localNames with
  | [] => none
  | scope :: scopes =>
    some (res, { n' with
      localNames := Function.update scope thingie (some res) :: scopes })

end Registering

/-!
# Free names
-/

theorem numbered_injective {baseName : Name} {i j : Nat}
    (h : numbered baseName i = numbered baseName j) : i = j := by
  have hdigits : Nat.toDigits 10 i = Nat.toDigits 10 j :=
    List.append_cancel_left h
  have hparsed := congrArg (fun ds => Nat.ofDigitChars 10 ds 0) hdigits
  simpa using hparsed

theorem numbered_mem_of_firstFree_mem {usedNames : List Name} {baseName : Name}
    {rounds : Nat} {candidate : Name} {counter : Nat}
    (h : (firstFree usedNames baseName rounds candidate counter).1 ∈ usedNames) :
    candidate ∈ usedNames ∧
      forall i, i < rounds -> numbered baseName (counter + i) ∈ usedNames := by
  induction rounds generalizing candidate counter with
  | zero => exact ⟨h, fun i hi => absurd hi (Nat.not_lt_zero i)⟩
  | succ rounds ih =>
    rw [firstFree] at h
    split at h
    next hused =>
      rcases ih h with ⟨hfirst, hrest⟩
      refine ⟨hused, ?_⟩
      intro i hi
      cases i with
      | zero => exact hfirst
      | succ i =>
        have hnext := hrest i (Nat.lt_of_succ_lt_succ hi)
        rwa [Nat.add_right_comm] at hnext
    next hfree => exact absurd h hfree

theorem freeName_not_mem (n : UniqueNamer Obj) (baseName : Name) :
    (n.freeName baseName).1 ∉ n.usedNames := by
  intro h
  unfold freeName at h
  have hall := (numbered_mem_of_firstFree_mem h).2
  generalize hstart : (match n.currentCounters baseName with
    | some counter => (numbered baseName counter, counter + 1)
    | none => (baseName, 0)) = start at hall
  have hnodup : ((List.range (n.usedNames.length + 1)).map
      (fun i => numbered baseName (start.2 + i))).Nodup := by
    refine List.Nodup.map ?_ List.nodup_range
    intro i j hij
    exact Nat.add_left_cancel (numbered_injective hij)
  have hsubset : (List.range (n.usedNames.length + 1)).map
      (fun i => numbered baseName (start.2 + i)) ⊆ n.usedNames := by
    intro name hname
    rcases List.mem_map.mp hname with ⟨i, hi, rfl⟩
    exact hall i (List.mem_range.mp hi)
  have hlength := hnodup.length_le_of_subset hsubset
  rw [List.length_map, List.length_range] at hlength
  omega

theorem freeName_cases (n : UniqueNamer Obj) (baseName : Name) :
    (n.freeName baseName).1 = baseName ∨
      exists counter, (n.freeName baseName).1 = numbered baseName counter := by
  have hloop : forall rounds candidate counter,
      (candidate = baseName ∨ exists k, candidate = numbered baseName k) ->
      (firstFree n.usedNames baseName rounds candidate counter).1 = baseName ∨
        exists k, (firstFree n.usedNames baseName rounds candidate counter).1 =
          numbered baseName k := by
    intro rounds
    induction rounds with
    | zero => exact fun _ _ h => h
    | succ rounds ih =>
      intro candidate counter h
      rw [firstFree]
      split
      next => exact ih _ _ (Or.inr ⟨counter, rfl⟩)
      next => exact h
  unfold freeName
  apply hloop
  split
  next counter _ => exact Or.inr ⟨counter, rfl⟩
  next => exact Or.inl rfl

/-!
# Registered objects
-/

/-- The object has the name, which may be hidden by an inner scope. -/
def Registered (n : UniqueNamer Obj) (thingie : Obj) (name : Name) : Prop :=
  n.globalNames thingie = some name ∨
    exists scope, scope ∈ n.localNames ∧ scope thingie = some name

/-- No name is given twice. -/
structure Unique (n : UniqueNamer Obj) : Prop where
  nodup : n.usedNames.Nodup
  used : forall o name, n.Registered o name -> name ∈ n.usedNames
  injective : forall o o' name, n.Registered o name -> n.Registered o' name ->
    o = o'

theorem globalNames_of_nameIn_none {globalNames : Obj -> Option Name}
    {scopes : List (Obj -> Option Name)} {o : Obj}
    (h : nameIn globalNames scopes o = none) : globalNames o = none := by
  induction scopes with
  | nil => exact h
  | cons scope scopes ih =>
    rw [nameIn] at h
    split at h
    next => cases h
    next => exact ih h

theorem nameIn_congr {globalNames globalNames' : Obj -> Option Name}
    {scopes : List (Obj -> Option Name)} {o : Obj} {name : Name}
    (h : nameIn globalNames scopes o = some name)
    (hglobal : globalNames o = some name -> globalNames' o = some name) :
    nameIn globalNames' scopes o = some name := by
  induction scopes with
  | nil => exact hglobal h
  | cons scope scopes ih =>
    cases hscope : scope o with
    | some res =>
      rw [nameIn, hscope] at h ⊢
      exact h
    | none =>
      rw [nameIn, hscope] at h ⊢
      exact ih h

theorem Unique.extend {n n' : UniqueNamer Obj} (thingie : Obj) {name : Name}
    (h : n.Unique) (hfree : name ∉ n.usedNames) (hused : n'.usedNames = n.usedNames ++ [name])
    (hregistered : forall o s, n'.Registered o s ->
      n.Registered o s ∨ (o = thingie ∧ s = name)) : n'.Unique := by
  refine ⟨?_, ?_, ?_⟩
  · rw [hused, ← List.concat_eq_append, List.nodup_concat]
    exact ⟨hfree, h.nodup⟩
  · intro o s ho
    rw [hused]
    rcases hregistered o s ho with hold | ⟨_, rfl⟩
    · exact List.mem_append_left _ (h.used o s hold)
    · exact List.mem_append_right _ (List.mem_singleton_self s)
  · intro o o' s ho ho'
    rcases hregistered o s ho with hold | ⟨rfl, rfl⟩
    · rcases hregistered o' s ho' with hold' | ⟨_, rfl⟩
      · exact h.injective o o' s hold hold'
      · exact absurd (h.used o s hold) hfree
    · rcases hregistered o' s ho' with hold' | ⟨rfl, _⟩
      · exact absurd (h.used o' s hold') hfree
      · rfl

theorem Unique.pushScope {n : UniqueNamer Obj} (h : n.Unique) :
    n.pushScope.Unique := by
  have hregistered : forall o s, n.pushScope.Registered o s -> n.Registered o s := by
    intro o s ho
    rcases ho with hglobal | ⟨scope, hscope, ho⟩
    · exact Or.inl hglobal
    · rcases List.mem_cons.mp hscope with rfl | hrest
      · cases ho
      · exact Or.inr ⟨scope, hrest, ho⟩
  exact ⟨h.nodup, fun o s ho => h.used o s (hregistered o s ho),
    fun o o' s ho ho' => h.injective o o' s (hregistered o s ho)
      (hregistered o' s ho')⟩

theorem popScope_eq_some {n n' : UniqueNamer Obj} (h : n.popScope = some n') :
    exists scope scopes, n.localNames = scope :: scopes ∧ n' = { n with localNames := scopes } := by
  unfold UniqueNamer.popScope at h
  split at h
  next => cases h
  next scope scopes heq =>
    cases h
    exact ⟨scope, scopes, heq, rfl⟩

theorem Unique.popScope {n n' : UniqueNamer Obj} (h : n.Unique)
    (hpop : n.popScope = some n') : n'.Unique := by
  rcases popScope_eq_some hpop with ⟨scope, scopes, heq, rfl⟩
  have hregistered : forall o s,
      UniqueNamer.Registered { n with localNames := scopes } o s ->
      n.Registered o s := by
    intro o s ho
    rcases ho with hglobal | ⟨other, hother, ho⟩
    · exact Or.inl hglobal
    · refine Or.inr ⟨other, ?_, ho⟩
      rw [heq]
      exact List.mem_cons_of_mem scope hother
  exact ⟨h.nodup, fun o s ho => h.used o s (hregistered o s ho),
    fun o o' s ho ho' => h.injective o o' s (hregistered o s ho)
      (hregistered o' s ho')⟩

/-!
# Giving names
-/

section Giving

variable [DecidableEq Obj]

theorem getName_cases (n : UniqueNamer Obj) (thingie : Obj) (inherentName : Name) :
    (exists res, n.nameOf thingie = some res ∧ n.getName thingie inherentName = (res, n)) ∨
    (n.nameOf thingie = none ∧ n.getName thingie inherentName = ((n.freeName inherentName).1,
        { (n.nextFreeName thingie inherentName).2 with
          globalNames := Function.update n.globalNames thingie
            (some (n.freeName inherentName).1) })) := by
  unfold getName
  cases hname : n.nameOf thingie with
  | some res => exact Or.inl ⟨res, rfl, rfl⟩
  | none => exact Or.inr ⟨rfl, rfl⟩

theorem getLocalName_eq_some {n : UniqueNamer Obj} {thingie : Obj}
    {inherentName : Name} {r : Name × UniqueNamer Obj}
    (h : n.getLocalName thingie inherentName = some r) :
    exists scope scopes, n.localNames = scope :: scopes ∧ r = ((n.freeName inherentName).1,
        { (n.nextFreeName thingie inherentName).2 with
          localNames := Function.update scope thingie
            (some (n.freeName inherentName).1) :: scopes }) := by
  unfold getLocalName at h
  dsimp only [nextFreeName] at h
  split at h
  next => cases h
  next scope scopes heq =>
    cases h
    exact ⟨scope, scopes, heq, rfl⟩

theorem Unique.getName {n : UniqueNamer Obj} (h : n.Unique) (thingie : Obj)
    (inherentName : Name) : (n.getName thingie inherentName).2.Unique := by
  rcases n.getName_cases thingie inherentName with ⟨res, _, heq⟩ | ⟨_, heq⟩
  · rw [heq]
    exact h
  · rw [heq]
    refine h.extend thingie (n.freeName_not_mem inherentName) rfl ?_
    intro o s ho
    rcases ho with hglobal | hlocal
    · change Function.update n.globalNames thingie _ o = some s at hglobal
      rw [Function.update_apply] at hglobal
      split at hglobal
      next hothingie =>
        cases hglobal
        exact Or.inr ⟨hothingie, rfl⟩
      next => exact Or.inl (Or.inl hglobal)
    · exact Or.inl (Or.inr hlocal)

theorem Unique.getLocalName {n : UniqueNamer Obj} (h : n.Unique) {thingie : Obj}
    {inherentName : Name} {r : Name × UniqueNamer Obj}
    (hr : n.getLocalName thingie inherentName = some r) : r.2.Unique := by
  rcases getLocalName_eq_some hr with ⟨scope, scopes, heq, rfl⟩
  refine h.extend thingie (n.freeName_not_mem inherentName) rfl ?_
  intro o s ho
  rcases ho with hglobal | ⟨other, hother, ho⟩
  · exact Or.inl (Or.inl hglobal)
  · rcases List.mem_cons.mp hother with rfl | hrest
    · rw [Function.update_apply] at ho
      split at ho
      next hothingie =>
        cases ho
        exact Or.inr ⟨hothingie, rfl⟩
      next =>
        refine Or.inl (Or.inr ⟨scope, ?_, ho⟩)
        rw [heq]
        exact List.mem_cons_self
    · refine Or.inl (Or.inr ⟨other, ?_, ho⟩)
      rw [heq]
      exact List.mem_cons_of_mem scope hrest

theorem nameOf_getName {n : UniqueNamer Obj} {o : Obj} {name : Name}
    (h : n.nameOf o = some name) (thingie : Obj) (inherentName : Name) :
    (n.getName thingie inherentName).2.nameOf o = some name := by
  rcases n.getName_cases thingie inherentName with ⟨res, _, heq⟩ | ⟨hnone, heq⟩
  · rw [heq]
    exact h
  · rw [heq]
    refine nameIn_congr h ?_
    intro hglobal
    have hne : o ≠ thingie := by
      intro heq'
      rw [← heq', h] at hnone
      cases hnone
    change Function.update n.globalNames thingie _ o = some name
    rw [Function.update_of_ne hne]
    exact hglobal

theorem nameOf_getLocalName {n : UniqueNamer Obj} {thingie : Obj}
    {inherentName : Name} {r : Name × UniqueNamer Obj}
    (hr : n.getLocalName thingie inherentName = some r) (o : Obj) :
    r.2.nameOf o = if o = thingie then some r.1 else n.nameOf o := by
  rcases getLocalName_eq_some hr with ⟨scope, scopes, heq, rfl⟩
  unfold nameOf
  rw [heq, nameIn, nameIn, Function.update_apply]
  cases ho : decide (o = thingie) with
  | true =>
    rw [if_pos (of_decide_eq_true ho), if_pos (of_decide_eq_true ho)]
  | false =>
    rw [if_neg (of_decide_eq_false ho), if_neg (of_decide_eq_false ho)]
    rfl

end Giving

@[simp] theorem nameOf_pushScope (n : UniqueNamer Obj) (o : Obj) :
    n.pushScope.nameOf o = n.nameOf o := rfl

end UniqueNamer
end VCExprAST
end Boogie
