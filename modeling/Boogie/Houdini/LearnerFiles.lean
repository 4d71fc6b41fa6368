import Boogie.Houdini.C5DomainSound
import Boogie.Houdini.SampleCoherence

/-!
# Agreement of the learner's files

The attributes are written to the names file, counted in the intervals file,
collected in dictionaries and repeated as columns of the data file.  All of
these go through the attributes of the functions in the same order.
-/

namespace Boogie

namespace MLHoudini

/-!
# One attribute at a time
-/

def attributeLine (F : DeclaredFunction) : Attribute Parameter -> String
  | .parameter p => F.key (.parameter p) ++ ": continuous."
  | .sum p q =>
    F.key (.sum p q) ++ ":= " ++ F.name ++ "$" ++ p.1.name ++ " + " ++
      F.name ++ "$" ++ q.1.name ++ "."
  | .difference p q =>
    F.key (.difference p q) ++ ":= " ++ F.name ++ "$" ++ p.1.name ++ " - " ++
      F.name ++ "$" ++ q.1.name ++ "."

def addAttribute (F : DeclaredFunction) (s : FunctionSetup)
    (a : Attribute Parameter) : FunctionSetup where
  newentry := s.newentry.set (F.key a) a
  namesFile := s.namesFile ++ (attributeLine F a ++ "\n")
  upperInterval := s.upperInterval + 1

section Loops

variable {F : DeclaredFunction} {s : FunctionSetup}

theorem addParameter_eq {p : Parameter} :
    addParameter F.name s p = addAttribute F s (.parameter p) := by
  unfold addParameter addAttribute attributeLine DeclaredFunction.key
  simp only [Attribute.map, Attribute.key, String.append_assoc]
  rfl

theorem addPair_eq {pair : Parameter × Parameter} :
    addPair F.name s pair = (if pair.1.1.type = .int ∧ pair.2.1.type = .int then
        [Attribute.sum pair.1 pair.2, Attribute.difference pair.1 pair.2]
      else []).foldl (addAttribute F) s := by
  unfold addPair
  by_cases h : pair.1.1.type = .int ∧ pair.2.1.type = .int
  · rw [if_pos h, if_pos h]
    simp only [List.foldl_cons, List.foldl_nil, addAttribute, attributeLine,
      DeclaredFunction.key, Attribute.map, Attribute.key, String.append_assoc]
    rfl
  · rw [if_neg h, if_neg h]
    rfl

theorem foldl_addAttribute :
    (pairs F.parameters).foldl (addPair F.name) (F.parameters.foldl (addParameter F.name) s) =
      F.attributes.foldl (addAttribute F) s := by
  have hparameters : F.parameters.foldl (addParameter F.name) s =
      (F.parameters.map Attribute.parameter).foldl (addAttribute F) s := by
    rw [List.foldl_map]
    congr 1
    funext s p
    exact addParameter_eq
  rw [DeclaredFunction.attributes, MLHoudini.attributes, List.foldl_append,
    hparameters, List.foldl_flatMap]
  congr 1
  funext s pair
  exact addPair_eq

theorem foldl_addAttribute_namesFile {as : List (Attribute Parameter)} :
    (as.foldl (addAttribute F) s).namesFile =
      s.namesFile ++ Text.unlines (as.map (attributeLine F)) := by
  induction as generalizing s with
  | nil => exact (String.append_empty).symm
  | cons a as ih =>
    rw [List.foldl_cons, ih, List.map_cons, Text.unlines, addAttribute]
    simp only [String.append_assoc]

theorem foldl_addAttribute_upperInterval {as : List (Attribute Parameter)} :
    (as.foldl (addAttribute F) s).upperInterval = s.upperInterval + as.length := by
  induction as generalizing s with
  | nil => rfl
  | cons a as ih =>
    rw [List.foldl_cons, ih, List.length_cons]
    show s.upperInterval + 1 + as.length = s.upperInterval + (as.length + 1)
    omega

theorem foldl_addAttribute_newentry {as : List (Attribute Parameter)} :
    (as.foldl (addAttribute F) s).newentry =
      as.foldl (fun newentry a => newentry.set (F.key a) a) s.newentry := by
  induction as generalizing s with
  | nil => rfl
  | cons a as ih =>
    rw [List.foldl_cons, ih]
    rfl

end Loops

def newentry (F : DeclaredFunction) :
    Dictionary String (Attribute Parameter) :=
  F.attributes.foldl (fun newentry a => newentry.set (F.key a) a) .empty

theorem addFunction_eq {s : C5Setup} {F : DeclaredFunction} :
    addFunction s F =
      { namesFile :=
          s.namesFile ++ Text.unlines (F.attributes.map (attributeLine F))
        intervalsFile :=
          s.intervalsFile ++
            (toString s.lowerInterval ++ " " ++
              toString (s.upperInterval + F.attributes.length - 1) ++ "\n")
        lowerInterval := s.upperInterval + F.attributes.length
        upperInterval := s.upperInterval + F.attributes.length
        attribute2Expr := s.attribute2Expr.set F.name (newentry F)
        functionID := s.functionID.set F.name s.functionID.count } := by
  unfold addFunction
  simp only [foldl_addAttribute, foldl_addAttribute_namesFile,
    foldl_addAttribute_upperInterval, foldl_addAttribute_newentry, newentry]

/-!
# All functions
-/

def intervalsFrom (lowerInterval : Nat) :
    List DeclaredFunction -> List (Nat × Nat)
  | [] => []
  | F :: Fs =>
    (lowerInterval, lowerInterval + F.attributes.length - 1) ::
      intervalsFrom (lowerInterval + F.attributes.length) Fs

def attributeLines (Fs : List DeclaredFunction) : List String :=
  Fs.flatMap (fun F => F.attributes.map (attributeLine F))

section Functions

variable {s : C5Setup} {Fs : List DeclaredFunction}

theorem foldl_addFunction_namesFile :
    (Fs.foldl addFunction s).namesFile = s.namesFile ++ Text.unlines (attributeLines Fs) := by
  induction Fs generalizing s with
  | nil => exact (String.append_empty).symm
  | cons F Fs ih =>
    rw [List.foldl_cons, ih, addFunction_eq, attributeLines, attributeLines,
      List.flatMap_cons, Text.unlines_append, String.append_assoc]

theorem foldl_addFunction_intervalsFile (h : s.lowerInterval = s.upperInterval) :
    (Fs.foldl addFunction s).intervalsFile = s.intervalsFile ++
        Text.unlines ((intervalsFrom s.lowerInterval Fs).map pairLine) := by
  induction Fs generalizing s with
  | nil => exact (String.append_empty).symm
  | cons F Fs ih =>
    rw [List.foldl_cons, ih (by rw [addFunction_eq]), addFunction_eq,
      intervalsFrom, List.map_cons, Text.unlines, pairLine, h]
    simp only [String.append_assoc]

theorem foldl_addFunction_attribute2Expr :
    (Fs.foldl addFunction s).attribute2Expr =
      Fs.foldl (fun d F => d.set F.name (newentry F)) s.attribute2Expr := by
  induction Fs generalizing s with
  | nil => rfl
  | cons F Fs ih => rw [List.foldl_cons, List.foldl_cons, ih, addFunction_eq]

end Functions

/-!
# Reading the files
-/

def attributeName (line : String) : Option String :=
  if ':' ∈ line.toList then
    some (String.ofList (line.toList.takeWhile (fun c => c ≠ ':' ∧ c ≠ ' ')))
  else none

def attributeNames (names : String) : List String :=
  ((Text.lines names).drop 1).filterMap attributeName

/-- The attributes that an interval selects, where the first has number 1. -/
def numbered (names : List String) (t : Nat × Nat) : List String :=
  (names.drop (t.1 - 1)).take (t.2 + 1 - t.1)

def Consecutive : Nat -> List (Nat × Nat) -> Prop
  | _, [] => True
  | lower, t :: ts => t.1 = lower ∧ lower ≤ t.2 + 1 ∧ Consecutive (t.2 + 1) ts

section Keys

variable {F : DeclaredFunction} {a : Attribute Parameter} {c : Char}

theorem not_mem_key (ha : a ∈ F.attributes) (hc : c ∈ [',', ':', ' ', '\n']) :
    c ∉ (F.key a).toList := by
  have hseparator : c ∈ separators := by
    simp only [separators, List.mem_cons, List.not_mem_nil, or_false] at hc ⊢
    tauto
  have hname : c ∉ F.name.toList := F.identifier.not_separator hseparator
  have hover := (mem_attributes ha).1
  have hparam : forall {p : Parameter}, p ∈ F.parameters ->
      c ∉ p.1.name.toList := by
    intro p hp
    exact (F.identifiers p.1
      (List.fst_mem_of_mem_zipIdx hp)).not_separator hseparator
  have hothers : c ≠ '$' ∧ c ≠ '+' ∧ c ≠ '-' := by
    simp only [List.mem_cons, List.not_mem_nil, or_false] at hc
    rcases hc with rfl | rfl | rfl | rfl
    all_goals decide
  cases a with
  | parameter p =>
    simp [DeclaredFunction.key, Attribute.map, Attribute.key, hname,
      hparam hover, hothers]
  | sum p q =>
    simp [DeclaredFunction.key, Attribute.map, Attribute.key, attrPrefix,
      hname, hparam hover.1, hparam hover.2, hothers]
  | difference p q =>
    simp [DeclaredFunction.key, Attribute.map, Attribute.key, attrPrefix,
      hname, hparam hover.1, hparam hover.2, hothers]

theorem attributeName_append {key rest : String}
    (hcolon : ':' ∉ key.toList) (hspace : ' ' ∉ key.toList) :
    attributeName (key ++ ":" ++ rest) = some key := by
  have hkey : forall c, c ∈ key.toList ->
      decide (c ≠ ':' ∧ c ≠ ' ') = true := by
    intro c hc
    rw [decide_eq_true_eq]
    constructor
    · rintro rfl
      exact hcolon hc
    · rintro rfl
      exact hspace hc
  unfold attributeName
  rw [if_pos (by simp)]
  congr 1
  rw [String.toList_append, String.toList_append, List.append_assoc,
    List.takeWhile_append_of_pos hkey]
  simp

theorem attributeName_attributeLine (ha : a ∈ F.attributes) :
    attributeName (attributeLine F a) = some (F.key a) := by
  have hcolon := not_mem_key ha (c := ':') (by decide)
  have hspace := not_mem_key ha (c := ' ') (by decide)
  have hend : forall rest : String, ":= " ++ rest = ":" ++ ("= " ++ rest) := by
    intro rest
    rw [← String.append_assoc]
    rfl
  cases a with
  | parameter p =>
    have hstart : ": continuous." = ":" ++ " continuous." := by decide
    rw [attributeLine, hstart, ← String.append_assoc]
    exact attributeName_append hcolon hspace
  | sum p q =>
    simp only [attributeLine, String.append_assoc, hend]
    rw [← String.append_assoc]
    exact attributeName_append hcolon hspace
  | difference p q =>
    simp only [attributeLine, String.append_assoc, hend]
    rw [← String.append_assoc]
    exact attributeName_append hcolon hspace

theorem not_mem_attributeLine (ha : a ∈ F.attributes) :
    '\n' ∉ (attributeLine F a).toList := by
  have hkey := not_mem_key ha (c := '\n') (by decide)
  have hname : '\n' ∉ F.name.toList := F.identifier.not_separator (by decide)
  have hover := (mem_attributes ha).1
  have hparam : forall {p : Parameter}, p ∈ F.parameters ->
      '\n' ∉ p.1.name.toList := by
    intro p hp
    exact (F.identifiers p.1
      (List.fst_mem_of_mem_zipIdx hp)).not_separator (by decide)
  cases a with
  | parameter p => simp [attributeLine, hkey]
  | sum p q =>
    simp [attributeLine, hkey, hname, hparam hover.1, hparam hover.2]
  | difference p q =>
    simp [attributeLine, hkey, hname, hparam hover.1, hparam hover.2]

end Keys

/-!
# The names file
-/

/-- The values of the selector; there are never fewer than two. -/
def selectorValues (keys : List String) : List String :=
  if keys.length = 1 then keys ++ [pcAttrName ++ "_dummy"] else keys

def selectorLine (newLine : NewLine) (keys : List String) : String :=
  pcAttrName ++ " : " ++ Text.separated ',' (selectorValues keys) ++ "." ++
    newLine.carriage

theorem foldl_keys {keys : List String} {i n : Nat} {namesFile : String}
    (hn : n = i + keys.length) :
    (keys.zipIdx i).foldl (fun namesFile functionName =>
          namesFile ++ (functionName.1 ++ if functionName.2 + 1 < n then "," else ""))
        namesFile = namesFile ++ Text.separated ',' keys := by
  induction keys generalizing i namesFile with
  | nil => exact (String.append_empty).symm
  | cons key keys ih =>
    rw [List.length_cons] at hn
    rw [List.zipIdx_cons, List.foldl_cons, ih (by omega)]
    cases keys with
    | nil =>
      rw [List.length_nil] at hn
      rw [if_neg (by omega), String.append_assoc, String.append_assoc]
      simp [Text.separated]
    | cons next rest =>
      rw [List.length_cons] at hn
      rw [if_pos (by omega), String.append_assoc, Text.separated]
      rfl

theorem addSelector_eq {newLine : NewLine} {keys : List String}
    {namesFile : String} :
    addSelector newLine keys namesFile = namesFile ++ (selectorLine newLine keys ++ "\n") := by
  have hvalues : (if keys.length = 1 then
        namesFile ++ pcAttrName ++ " : " ++ Text.separated ',' keys ++ "," ++
          pcAttrName ++ "_dummy"
      else namesFile ++ pcAttrName ++ " : " ++ Text.separated ',' keys) =
      namesFile ++ pcAttrName ++ " : " ++
        Text.separated ',' (selectorValues keys) := by
    unfold selectorValues
    split
    · rename_i hone
      rcases List.length_eq_one_iff.mp hone with ⟨key, rfl⟩
      simp only [List.singleton_append, Text.separated, String.append_assoc]
      rfl
    · rfl
  unfold addSelector
  simp only [foldl_keys (Nat.zero_add _).symm, hvalues]
  simp only [selectorLine, NewLine.text, String.append_assoc]

def DeclaredFunctions.keys (fs : DeclaredFunctions) : List String :=
  fs.functions.map DeclaredFunction.name

theorem not_mem_selectorLine {newLine : NewLine} {fs : DeclaredFunctions} :
    '\n' ∉ (selectorLine newLine fs.keys).toList := by
  have hvalues : '\n' ∉
      (Text.separated ',' (selectorValues fs.keys)).toList := by
    intro h
    have hname : forall name, name ∈ fs.keys -> '\n' ∉ name.toList := by
      intro name hname
      rcases List.mem_map.mp hname with ⟨F, _, rfl⟩
      exact F.identifier.not_separator (by decide)
    rcases Text.mem_toList_separated h with hsep | ⟨name, hmem, hc⟩
    · exact absurd hsep (by decide)
    · unfold selectorValues at hmem
      split at hmem
      · rcases List.mem_append.mp hmem with hmem | hmem
        · exact hname name hmem hc
        · rw [List.mem_singleton.mp hmem] at hc
          exact absurd hc (by decide)
      · exact hname name hmem hc
  cases newLine with
  | lf => simp [selectorLine, pcAttrName, NewLine.carriage, hvalues]
  | crlf => simp [selectorLine, pcAttrName, NewLine.carriage, hvalues]

def setupStart (newLine : NewLine) (fs : DeclaredFunctions) : C5Setup where
  namesFile := addSelector newLine fs.keys "invariant.\n"
  intervalsFile := ""
  lowerInterval := 2
  upperInterval := 2
  attribute2Expr := .empty
  functionID := .empty

theorem setupC5_names {newLine : NewLine} {fs : DeclaredFunctions} :
    (setupC5 newLine fs).names = writeLine newLine (Text.unlines
        ("invariant." :: selectorLine newLine fs.keys ::
          (attributeLines fs.functions ++ ["invariant: true, false."]))) := by
  have hnames : (setupC5 newLine fs).names =
      writeLine newLine
        ((fs.functions.foldl addFunction (setupStart newLine fs)).namesFile ++
          "invariant: true, false.\n") := rfl
  rw [hnames, foldl_addFunction_namesFile, setupStart, addSelector_eq]
  congr 1
  rw [Text.unlines, Text.unlines, Text.unlines_append]
  simp only [Text.unlines, String.append_assoc, String.append_empty]
  rfl

theorem not_mem_attributeLines {Fs : List DeclaredFunction} {line : String}
    (h : line ∈ attributeLines Fs) : '\n' ∉ line.toList := by
  rcases List.mem_flatMap.mp h with ⟨F, _, hline⟩
  rcases List.mem_map.mp hline with ⟨a, ha, rfl⟩
  exact not_mem_attributeLine ha

theorem lines_names {newLine : NewLine} {fs : DeclaredFunctions} :
    Text.lines (setupC5 newLine fs).names = "invariant." :: selectorLine newLine fs.keys ::
        (attributeLines fs.functions ++ ["invariant: true, false.", newLine.carriage, ""]) := by
  rw [setupC5_names, lines_writeLine]
  · simp
  · intro line hline
    simp only [List.mem_cons, List.mem_append, List.not_mem_nil,
      or_false] at hline
    rcases hline with rfl | rfl | hline | rfl
    · decide
    · exact not_mem_selectorLine
    · exact not_mem_attributeLines hline
    · decide

def allKeys (Fs : List DeclaredFunction) : List String :=
  Fs.flatMap (fun F => F.attributes.map F.key)

theorem filterMap_attributeLines {Fs : List DeclaredFunction} :
    (attributeLines Fs).filterMap attributeName = allKeys Fs := by
  have hF : forall F : DeclaredFunction,
      (F.attributes.map (attributeLine F)).filterMap attributeName =
        F.attributes.map F.key := by
    intro F
    rw [List.filterMap_map, ← List.filterMap_eq_map]
    exact List.filterMap_congr (fun a ha => attributeName_attributeLine ha)
  induction Fs with
  | nil => rfl
  | cons F Fs ih =>
    rw [attributeLines, List.flatMap_cons, List.filterMap_append, hF]
    show _ ++ (attributeLines Fs).filterMap attributeName = _
    rw [ih, allKeys, allKeys, List.flatMap_cons]

theorem attributeName_selectorLine {newLine : NewLine} {keys : List String} :
    attributeName (selectorLine newLine keys) = some pcAttrName := by
  have hline : selectorLine newLine keys =
      "$pc :" ++ (" " ++ Text.separated ',' (selectorValues keys) ++ "." ++
        newLine.carriage) := by
    have hstart : pcAttrName ++ " : " = "$pc :" ++ " " := by decide
    rw [selectorLine, hstart]
    simp only [String.append_assoc]
  rw [hline, attributeName, if_pos (by simp)]
  simp [pcAttrName]

theorem attributeNames_names {newLine : NewLine} {fs : DeclaredFunctions} :
    attributeNames (setupC5 newLine fs).names =
      pcAttrName :: (allKeys fs.functions ++ ["invariant"]) := by
  have hend : ["invariant: true, false.", newLine.carriage, ""].filterMap
      attributeName = ["invariant"] := by
    cases newLine with
    | lf => decide
    | crlf => decide
  rw [attributeNames, lines_names, List.drop_succ_cons, List.drop_zero,
    List.filterMap_cons_some attributeName_selectorLine,
    List.filterMap_append, filterMap_attributeLines, hend]

/-!
# The intervals file
-/

theorem consecutive_intervalsFrom {Fs : List DeclaredFunction} {lower : Nat}
    (h : 0 < lower) : Consecutive lower (intervalsFrom lower Fs) := by
  induction Fs generalizing lower with
  | nil => trivial
  | cons F Fs ih =>
    have hnext : lower + F.attributes.length - 1 + 1 =
        lower + F.attributes.length := by
      omega
    constructor
    · rfl
    · constructor
      · rw [hnext]
        omega
      · rw [hnext]
        exact ih (by omega)

theorem length_intervalsFrom {Fs : List DeclaredFunction} {lower : Nat} :
    (intervalsFrom lower Fs).length = Fs.length := by
  induction Fs generalizing lower with
  | nil => rfl
  | cons F Fs ih => rw [intervalsFrom, List.length_cons, List.length_cons, ih]

theorem numbered_intervalsFrom {Fs : List DeclaredFunction} {lower i : Nat}
    (before : List String) {after : List String} {F : DeclaredFunction} {t : Nat × Nat}
    (hbefore : before.length + 1 = lower) (hF : Fs[i]? = some F)
    (ht : (intervalsFrom lower Fs)[i]? = some t) :
    numbered (before ++ (allKeys Fs ++ after)) t = F.attributes.map F.key := by
  induction Fs generalizing lower i before with
  | nil => cases hF
  | cons G Gs ih =>
    have hkeys : allKeys (G :: Gs) = G.attributes.map G.key ++ allKeys Gs := by
      rw [allKeys, allKeys, List.flatMap_cons]
    cases i with
    | zero =>
      cases hF
      cases ht
      have hstart : lower - 1 = before.length := by omega
      have hlength : lower + F.attributes.length - 1 + 1 - lower =
          (F.attributes.map F.key).length := by
        rw [List.length_map]
        omega
      rw [numbered, hstart, List.drop_left, hlength, hkeys,
        List.append_assoc, List.take_left]
    | succ i =>
      rw [List.getElem?_cons_succ] at hF
      rw [intervalsFrom, List.getElem?_cons_succ] at ht
      have hrest := ih (before ++ G.attributes.map G.key)
        (by rw [List.length_append, List.length_map]; omega) hF ht
      rw [hkeys]
      simpa only [List.append_assoc] using hrest

theorem take_lines_intervals {newLine : NewLine} {fs : DeclaredFunctions} :
    (Text.lines (setupC5 newLine fs).intervals).take fs.functions.length =
      (intervalsFrom 2 fs.functions).map pairLine := by
  have hfile : (fs.functions.foldl addFunction
      (setupStart newLine fs)).intervalsFile =
        Text.unlines ((intervalsFrom 2 fs.functions).map pairLine) := by
    rw [foldl_addFunction_intervalsFile rfl, setupStart, String.empty_append]
  have hintervals : exists rest, (setupC5 newLine fs).intervals =
      Text.unlines ((intervalsFrom 2 fs.functions).map pairLine) ++
        rest := by
    rw [← hfile]
    by_cases hone : fs.functions.length = 1
    · exact ⟨"2 2" ++ newLine.text, by
        rw [← String.append_assoc]
        show writeLine newLine (if fs.functions.length = 1 then _ else _) = _
        rw [if_pos hone]
        rfl⟩
    · exact ⟨newLine.text, by
        show writeLine newLine (if fs.functions.length = 1 then _ else _) = _
        rw [if_neg hone]
        rfl⟩
  have hlines : forall line,
      line ∈ (intervalsFrom 2 fs.functions).map pairLine ->
        '\n' ∉ line.toList := by
    intro line hline
    rcases List.mem_map.mp hline with ⟨t, _, rfl⟩
    exact not_mem_pairLine
  rcases hintervals with ⟨rest, hrest⟩
  rw [hrest, Text.lines_unlines_append hlines]
  apply List.take_left'
  rw [List.length_map, length_intervalsFrom]

/-!
# The dictionaries
-/

section Dictionaries

variable {F : DeclaredFunction}

theorem map_parameters_name :
    F.parameters.map (fun p => p.1.name) = F.inParams.map TypedIdent.name := by
  rw [← Function.comp_def TypedIdent.name Prod.fst, ← List.map_map,
    DeclaredFunction.parameters, List.zipIdx_map_fst]

theorem parameters_nodup : F.parameters.Nodup := by
  apply List.Nodup.of_map Prod.snd
  rw [DeclaredFunction.parameters, List.zipIdx_map_snd]
  exact List.nodup_range'

theorem key_inj (h : (F.inParams.map TypedIdent.name).Nodup)
    {a b : Attribute Parameter} (ha : a ∈ F.attributes) (hb : b ∈ F.attributes)
    (hkey : F.key a = F.key b) : a = b := by
  have hplain : forall {name : String}, IsIdentifier name -> PlainName name :=
    fun hname => ⟨hname.not_separator (by decide),
      hname.not_separator (by decide)⟩
  rw [← map_parameters_name] at h
  exact attribute_key_inj (hplain F.identifier)
    (fun p hp => hplain
      (F.identifiers p.1 (List.fst_mem_of_mem_zipIdx hp)))
    (fun p hp q hq hname => List.inj_on_of_nodup_map h hp hq hname) ha hb hkey

def Complete (F : DeclaredFunction) : Prop :=
  forall a, a ∈ F.attributes -> (newentry F).tryGetValue (F.key a) = some a

theorem complete_iff :
    Complete F <-> (F.inParams.map TypedIdent.name).Nodup := by
  constructor
  · intro h
    rw [← map_parameters_name]
    apply List.Nodup.map_on _ parameters_nodup
    intro p hp q hq hname
    have hp' := h (.parameter p)
      (List.mem_append_left _ (List.mem_map_of_mem hp))
    have hq' := h (.parameter q)
      (List.mem_append_left _ (List.mem_map_of_mem hq))
    have hkey : F.key (.parameter p) = F.key (.parameter q) := by
      simp only [DeclaredFunction.key, Attribute.map, Attribute.key, hname]
    rw [hkey, hq'] at hp'
    cases hp'
    rfl
  · intro h a ha
    exact Dictionary.tryGetValue_foldl_set_of_inj ha
      (fun b hb hkey => key_inj h hb ha hkey)

def DeclaredFunction.unnamed (F : DeclaredFunction) : List TypedIdent :=
  F.inParams.filter (fun p => p.name = noName)

theorem nodup_names_iff :
    (F.inParams.map TypedIdent.name).Nodup <-> F.unnamed.length ≤ 1 := by
  have hcount : (F.inParams.map TypedIdent.name).count noName =
      F.unnamed.length := by
    rw [List.count, List.countP_map, List.countP_eq_length_filter,
      DeclaredFunction.unnamed]
    congr 1
  rw [List.nodup_iff_count_le_one, ← hcount]
  constructor
  · exact fun h => h noName
  · intro h name
    by_cases hname : name = noName
    · rw [hname]
      exact h
    · have hfilter := List.nodup_iff_count_le_one.mp F.registered name
      rwa [List.count_filter (by simpa using hname)] at hfilter

end Dictionaries

/-!
# Agreement
-/

def IsBlock (p : DataPoint) (F : DeclaredFunction) (block : List String) :
    Prop :=
  block.length = F.inParams.length ∧
    block =
      if F.name = p.functionName then p.value.map toString
      else F.inParams.map (fun _ => "?")

theorem columns_blocks {fs : DeclaredFunctions} {p : DataPoint}
    (h : fs.HasPoint p) : exists blocks : List (List String), columns fs p = blocks.flatten ∧
      List.Forall₂ (IsBlock p) fs.functions blocks := by
  rcases h with ⟨F, hF, hname, hlength⟩
  have hblock : forall G, G ∈ fs.functions ->
      IsBlock p G (if G.name = p.functionName then p.value.map toString
        else G.inParams.map (fun _ => "?")) := by
    intro G hG
    constructor
    · split
      · rename_i hG'
        have hsame : G = F := List.inj_on_of_nodup_map fs.distinct hG hF
          (hG'.trans hname.symm)
        rw [List.length_map, hsame, hlength]
      · exact List.length_map _
    · rfl
  constructor
  · constructor
    · exact List.flatMap_def
    · rw [List.forall₂_map_right_iff, List.forall₂_same]
      exact hblock

/-- The names, the intervals, the dictionaries and the rows agree. -/
structure FilesAgree (newLine : NewLine) (fs : DeclaredFunctions)
    (s : SampleTables) : Prop where
  selector : (attributeNames (setupC5 newLine fs).names)[0]? = some pcAttrName
  intervals : exists ts : List (Nat × Nat),
    (Text.lines (setupC5 newLine fs).intervals).take fs.functions.length =
      ts.map pairLine ∧
    ts.length = fs.functions.length ∧ Consecutive 2 ts ∧
    forall (i : Nat) (F : DeclaredFunction) t, fs.functions[i]? = some F ->
      ts[i]? = some t ->
        numbered (attributeNames (setupC5 newLine fs).names) t =
          F.attributes.map F.key
  expressions : forall F, F ∈ fs.functions -> exists newentry,
    (setupC5 newLine fs).attribute2Expr.tryGetValue F.name = some newentry ∧
      forall a, a ∈ F.attributes -> newentry.tryGetValue (F.key a) = some a
  rows : forall i, i < s.samplePointToClassAttr.count ->
    exists p c row blocks, s.samplePointToClassAttr.tryGetValue p = some c ∧
      (Text.lines (generateC5Files newLine fs s).data)[i]? = some row ∧
      Text.splitAt ',' row =
        p.functionName :: (List.flatten blocks ++ [classColumn c]) ∧
      List.Forall₂ (IsBlock p) fs.functions blocks

theorem setupC5_attribute2Expr {newLine : NewLine} {fs : DeclaredFunctions}
    {F : DeclaredFunction} (hF : F ∈ fs.functions) :
    (setupC5 newLine fs).attribute2Expr.tryGetValue F.name = some (newentry F) := by
  have hdictionary : (setupC5 newLine fs).attribute2Expr =
      fs.functions.foldl (fun d F => d.set F.name (newentry F)) .empty :=
    foldl_addFunction_attribute2Expr (s := setupStart newLine fs)
  rw [hdictionary]
  exact Dictionary.tryGetValue_foldl_set_of_inj hF
    (fun G hG hname => List.inj_on_of_nodup_map fs.distinct hG hF hname)

theorem FilesAgree.unnamed {newLine : NewLine} {fs : DeclaredFunctions}
    {s : SampleTables} (h : FilesAgree newLine fs s) {F : DeclaredFunction}
    (hF : F ∈ fs.functions) : F.unnamed.length ≤ 1 := by
  rcases h.expressions F hF with ⟨entry, hentry, hcomplete⟩
  rw [setupC5_attribute2Expr hF] at hentry
  cases hentry
  exact nodup_names_iff.mp (complete_iff.mp hcomplete)

theorem splitAt_rows {newLine : NewLine} {fs : DeclaredFunctions}
    {s : SampleTables} (h : s.Coherent)
    (hpoints : forall p, p ∈ s.samplePointToClassAttr.keys -> fs.HasPoint p)
    {i : Nat} (hi : i < s.samplePointToClassAttr.count) :
    exists p c row blocks, s.samplePointToClassAttr.tryGetValue p = some c ∧
      (Text.lines (generateC5Files newLine fs s).data)[i]? = some row ∧ Text.splitAt ',' row =
        p.functionName :: (List.flatten blocks ++ [classColumn c]) ∧
      List.Forall₂ (IsBlock p) fs.functions blocks := by
  have hcount : s.samplePointToClassAttr.count =
      s.samplePointToIndex.count := by
    rw [← Dictionary.length_keys, ← h.sameKeys, Dictionary.length_keys]
  rcases h.numbered.surjective (hcount ▸ hi) with ⟨p, hp⟩
  have hmem : p ∈ s.samplePointToClassAttr.keys := by
    rw [← h.sameKeys]
    exact Dictionary.mem_keys.mpr ⟨i, hp⟩
  rcases Dictionary.mem_keys.mp hmem with ⟨c, hc⟩
  have hpoint := hpoints p hmem
  rcases columns_blocks hpoint with ⟨blocks, hblocks, hforall⟩
  have hrow : (s.rows fs)[i]? = some (row fs p c) :=
    SampleTables.rows_getElem? h hp hc
  refine ⟨p, c, row fs p c, blocks, hc, ?_, ?_, hforall⟩
  · rw [SampleTables.lines_data h hpoints,
      List.getElem?_append_left (List.getElem?_eq_some_iff.mp hrow).1, hrow]
  · rw [splitAt_row hpoint.identifier, hblocks]

/-- The files agree unless a function has several unnamed parameters. -/
theorem filesAgree_iff {newLine : NewLine} {fs : DeclaredFunctions}
    {cexs : List (Cex × Bool)} {s : SampleTables} (hcalls : fs.CallsOf cexs)
    (hs : SampleTables.recordAll cexs .empty = some s) :
    FilesAgree newLine fs s <-> forall F, F ∈ fs.functions -> F.unnamed.length ≤ 1 := by
  constructor
  · exact fun h F hF => h.unnamed hF
  · intro h
    have hrecords := SampleTables.recordAll_records
      SampleTables.empty_coherent hs
    constructor
    · rw [attributeNames_names]
      rfl
    · constructor
      · constructor
        · exact take_lines_intervals
        · constructor
          · exact length_intervalsFrom
          · constructor
            · exact consecutive_intervalsFrom (by omega)
            · intro i F t hF ht
              rw [attributeNames_names]
              exact numbered_intervalsFrom [pcAttrName] rfl hF ht
    · intro F hF
      exact ⟨newentry F, setupC5_attribute2Expr hF,
        complete_iff.mpr (nodup_names_iff.mpr (h F hF))⟩
    · exact fun i hi => splitAt_rows hrecords.coherent
        (fun p => hcalls.hasPoint hrecords) hi

theorem filesAgree_loop : exists s,
    SampleTables.recordAll SampleTables.loopSamples .empty = some s ∧
      FilesAgree .lf SampleTables.loopInvariant s :=
  ⟨_, rfl, (filesAgree_iff SampleTables.loopSamples_calls rfl).mpr
    (by decide)⟩

def unnamedParameters : DeclaredFunctions where
  functions :=
    [{ name := "f"
       inParams := [⟨noName, .int⟩, ⟨noName, .bool⟩]
       types := by simp
       registered := by decide
       identifier := by decide
       identifiers := by decide }]
  distinct := by decide

/-- Both parameters have the key `f$`, which stands for the second one. -/
theorem filesAgree_unnamed : ¬ FilesAgree .lf unnamedParameters .empty := by
  intro h
  have hlength := h.unnamed (List.mem_singleton_self _)
  exact absurd hlength (by decide)

end MLHoudini

end Boogie
