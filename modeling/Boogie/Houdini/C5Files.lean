import Boogie.Foundation.Dictionary
import Boogie.Foundation.Text
import Boogie.Houdini.C5Samples

/-!
# Files of the learner

The learner reads a file of attributes, a file of intervals that assigns the
attributes to functions, a file of data points and a file of implications.  The
first two are written once, the others before every run of the learner.
-/

namespace Boogie

namespace MLHoudini

/-!
# Declared functions
-/

def special : List Char :=
  "'~#$^_.?`\\".toList

def IsIdentifier (name : String) : Prop :=
  forall c, c ∈ name.toList -> c.isAlphanum = true ∨ c ∈ special

instance (name : String) : Decidable (IsIdentifier name) :=
  List.decidableBAll _ _

def noName : String :=
  ""

/--
An existential function as it is declared.  Named parameters are registered
when the function is resolved and have different names.
-/
structure DeclaredFunction where
  name : String
  inParams : List TypedIdent
  types : forall p, p ∈ inParams -> p.type = .bool ∨ p.type = .int
  registered : ((inParams.map TypedIdent.name).filter (· ≠ noName)).Nodup
  identifier : IsIdentifier name
  identifiers : forall p, p ∈ inParams -> IsIdentifier p.name

structure DeclaredFunctions where
  functions : List DeclaredFunction
  distinct : (functions.map DeclaredFunction.name).Nodup

abbrev Parameter := TypedIdent × Nat

namespace DeclaredFunction

def parameters (F : DeclaredFunction) : List Parameter :=
  F.inParams.zipIdx

def attributes (F : DeclaredFunction) : List (Attribute Parameter) :=
  MLHoudini.attributes Prod.fst F.parameters

/-- The key of an attribute in the dictionary and in the names file. -/
def key (F : DeclaredFunction) (a : Attribute Parameter) : String :=
  (a.map Prod.fst).key F.name

end DeclaredFunction

/-!
# Attributes
-/

/-- What `Environment.NewLine` stands for. -/
inductive NewLine where
  | lf
  | crlf
deriving DecidableEq, Repr

namespace NewLine

def carriage : NewLine -> String
  | lf => ""
  | crlf => "\r"

def text (newLine : NewLine) : String :=
  newLine.carriage ++ "\n"

end NewLine

def writeLine (newLine : NewLine) (text : String) : String :=
  text ++ newLine.text

def pcAttrName : String :=
  "$pc"

structure C5Setup where
  namesFile : String
  intervalsFile : String
  lowerInterval : Nat
  upperInterval : Nat
  attribute2Expr : Dictionary String (Dictionary String (Attribute Parameter))
  functionID : Dictionary String Nat

def addSelector (newLine : NewLine) (keys : List String) (namesFile : String) :
    String :=
  let namesFile := namesFile ++ pcAttrName ++ " : "
  let namesFile := keys.zipIdx.foldl
    (fun namesFile functionName =>
      namesFile ++
        (functionName.1 ++ if functionName.2 + 1 < keys.length then "," else ""))
    namesFile
  let namesFile :=
    if keys.length = 1 then namesFile ++ "," ++ pcAttrName ++ "_dummy"
    else namesFile
  namesFile ++ "." ++ newLine.text

structure FunctionSetup where
  newentry : Dictionary String (Attribute Parameter)
  namesFile : String
  upperInterval : Nat

def addParameter (func : String) (s : FunctionSetup) (p : Parameter) :
    FunctionSetup where
  newentry := s.newentry.set (func ++ "$" ++ p.1.name) (.parameter p)
  namesFile := s.namesFile ++ (func ++ "$" ++ p.1.name ++ ": continuous.\n")
  upperInterval := s.upperInterval + 1

def addPair (func : String) (s : FunctionSetup) (pair : Parameter × Parameter) :
    FunctionSetup :=
  let var1 := pair.1.1
  let var2 := pair.2.1
  if var1.type = .int ∧ var2.type = .int then
    { newentry :=
        (s.newentry.set
          (attrPrefix ++ func ++ "$" ++ var1.name ++ "+" ++ var2.name)
          (.sum pair.1 pair.2)).set
          (attrPrefix ++ func ++ "$" ++ var1.name ++ "-" ++ var2.name)
          (.difference pair.1 pair.2)
      namesFile :=
        s.namesFile ++
          (attrPrefix ++ func ++ "$" ++ var1.name ++ "+" ++ var2.name ++ ":= " ++
            func ++ "$" ++ var1.name ++ " + " ++
            func ++ "$" ++ var2.name ++ ".\n") ++
          (attrPrefix ++ func ++ "$" ++ var1.name ++ "-" ++ var2.name ++ ":= " ++
            func ++ "$" ++ var1.name ++ " - " ++
            func ++ "$" ++ var2.name ++ ".\n")
      upperInterval := s.upperInterval + 2 }
  else s

def addFunction (s : C5Setup) (F : DeclaredFunction) : C5Setup :=
  let start : FunctionSetup := ⟨.empty, s.namesFile, s.upperInterval⟩
  let args := F.parameters
  let t := args.foldl (addParameter F.name) start
  let t := (pairs args).foldl (addPair F.name) t
  { namesFile := t.namesFile
    intervalsFile :=
      s.intervalsFile ++
        (toString s.lowerInterval ++ " " ++ toString (t.upperInterval - 1) ++
          "\n")
    lowerInterval := t.upperInterval
    upperInterval := t.upperInterval
    attribute2Expr := s.attribute2Expr.set F.name t.newentry
    functionID := s.functionID.set F.name s.functionID.count }

structure C5Attributes where
  names : String
  intervals : String
  attribute2Expr : Dictionary String (Dictionary String (Attribute Parameter))
  functionID : Dictionary String Nat

def setupC5 (newLine : NewLine) (existentialFunctions : DeclaredFunctions) :
    C5Attributes :=
  let fs := existentialFunctions.functions
  let start : C5Setup :=
    { namesFile :=
        addSelector newLine (fs.map DeclaredFunction.name) "invariant.\n"
      intervalsFile := ""
      lowerInterval := 2
      upperInterval := 2
      attribute2Expr := .empty
      functionID := .empty }
  let s := fs.foldl addFunction start
  let intervalsFile :=
    if fs.length = 1 then s.intervalsFile ++ "2 2" else s.intervalsFile
  { names := writeLine newLine (s.namesFile ++ "invariant: true, false.\n")
    intervals := writeLine newLine intervalsFile
    attribute2Expr := s.attribute2Expr
    functionID := s.functionID }

/-!
# Data points
-/

/-- The tables of samples, as the dictionaries of the source. -/
structure SampleTables where
  samplePointToClassAttr : Dictionary DataPoint Nat
  samplePointToIndex : Dictionary DataPoint Nat
  implications : List (Nat × Nat)
  dataPointsIndex : Nat

namespace SampleTables

def empty : SampleTables where
  samplePointToClassAttr := .empty
  samplePointToIndex := .empty
  implications := []
  dataPointsIndex := 0

def addPoint (s : SampleTables) (argsval : DataPoint) (classAttr : Nat) :
    SampleTables :=
  { s with
    samplePointToIndex := s.samplePointToIndex.set argsval s.dataPointsIndex
    dataPointsIndex := s.dataPointsIndex + 1
    samplePointToClassAttr := s.samplePointToClassAttr.set argsval classAttr }

def addSample (s : SampleTables) (argsval : DataPoint) (classAttr : Nat) :
    SampleTables :=
  if s.samplePointToIndex.containsKey argsval then
    { s with
      samplePointToClassAttr := s.samplePointToClassAttr.set argsval classAttr }
  else s.addPoint argsval classAttr

def addUnknown (s : SampleTables) (argsval : DataPoint) : Nat × SampleTables :=
  match s.samplePointToIndex.tryGetValue argsval with
  | some index => (index, s)
  | none => (s.dataPointsIndex, s.addPoint argsval unknown)

def addImplication (s : SampleTables) (t : Nat × Nat) : SampleTables :=
  { s with implications := s.implications ++ [t] }

def recordCexForC5 (cex : Cex) (recordImplications : Bool) (s : SampleTables) :
    Option SampleTables :=
  if cex.lhs.length = 0 then do
    let argsval <- (<- cex.rhs[0]?).dataPoint
    return s.addSample argsval positive
  else if cex.rhs.length = 0 then do
    let argsval <- (<- (lastOnly cex.lhs)[0]?).dataPoint
    return s.addSample argsval negative
  else do
    let argsval1 <- (<- (lastOnly cex.lhs)[0]?).dataPoint
    let argsval2 <- (<- cex.rhs[0]?).dataPoint
    let (antecedent, s) := s.addUnknown argsval1
    let (consequent, s) := s.addUnknown argsval2
    return if recordImplications then s.addImplication (antecedent, consequent)
      else s

def recordAll (cexs : List (Cex × Bool)) (s : SampleTables) :
    Option SampleTables :=
  cexs.foldlM (fun s cex => recordCexForC5 cex.1 cex.2 s) s

end SampleTables

/-!
# Rows
-/

def outputDataPoint (existentialFunctions : DeclaredFunctions) (p : DataPoint) :
    String :=
  existentialFunctions.functions.foldl
    (fun ret exFunc =>
      if exFunc.name = p.functionName then
        p.value.foldl (fun ret x => ret ++ "," ++ toString x) ret
      else exFunc.inParams.foldl (fun ret _ => ret ++ ",?") ret)
    p.functionName

def classSuffix (classAttr : Nat) : String :=
  if classAttr = unknown then ",?\n"
  else if classAttr = positive then ",true\n"
  else if classAttr = negative then ",false\n"
  else ""

structure C5Data where
  data : String
  implications : String

def generateC5Files (newLine : NewLine)
    (existentialFunctions : DeclaredFunctions) (s : SampleTables) : C5Data where
  data := writeLine newLine (s.samplePointToClassAttr.entries.foldl
    (fun dataFile model =>
      dataFile ++ outputDataPoint existentialFunctions model.1 ++
        classSuffix model.2) "")
  implications := writeLine newLine (s.implications.foldl
    (fun implicationsFile implication =>
      implicationsFile ++ toString implication.1 ++ " " ++
        toString implication.2 ++ "\n") "")

end MLHoudini

end Boogie
