import Mathlib.Data.List.Basic

namespace SVF.Graphs.ClassHierarchy

abbrev Name := List Char

section

inductive Opcode
  | intToPtr
  | bitCast
  | other
deriving DecidableEq

variable (F : Type*)

/-- What an alias stands for; a cast has its operand if that is a function. -/
inductive Aliasee
  | function (f : F)
  | expr (opcode : Opcode) (operand : Option F)
  | other

/-- An entry of an array; a constant expression has the name of its first operand. -/
inductive Operand
  | null
  | expr (opcode : Opcode) (operand : Name)
  | function (f : F)
  | globalAlias (name : Name) (aliasee : Aliasee F)
  | global (name : Name)

/-- An array of null entries only is `zero`. -/
inductive Constant
  | struct (operands : List Constant)
  | array (operands : List (Operand F))
  | zero (isArrayTy : Bool)
  | other

structure GlobalVariable where
  name : Name
  initializer : Option (Constant F)

structure DemangledName where
  className : Name
  isThunkFunc : Bool

/-- What the functions are called and what they call; a call has its callee if it is direct. -/
structure Program where
  name : F → Name
  calls : F → List (Option F)
  demangle : Name → DemangledName
  getClassNameFromVtblObj : Name → Name

end

section

inductive CHEdgeType
  | inheritance
  | instantce
deriving DecidableEq

structure CHNode (F : Type*) where
  vtable : Option Name
  pureAbstract : Bool
  multiInheritance : Bool
  template : Bool
  virtualFunctionVectors : List (List F)

structure CHGraph (F : Type*) where
  getNode : Name → Option (CHNode F)
  edges : List (Name × Name × CHEdgeType)
  templateNameToInstancesMap : Name → List Name

variable {F : Type*}

def CHNode.getVirtualFunctions (node : CHNode F) (idx : ℕ) : List F :=
  node.virtualFunctionVectors.filterMap fun v => v[idx]?

def CHNode.addVirtualFunctionVector (node : CHNode F) (v : List F) : CHNode F :=
  { node with virtualFunctionVectors := node.virtualFunctionVectors ++ [v] }

def CHGraph.modify (chg : CHGraph F) (className : Name) (f : CHNode F → CHNode F) : CHGraph F :=
  { chg with getNode := Function.update chg.getNode className ((chg.getNode className).map f) }

def CHGraph.addEdge (chg : CHGraph F) (className baseClassName : Name) (edgeType : CHEdgeType) :
    Option (CHGraph F) :=
  (chg.getNode className).bind fun _ =>
    (chg.getNode baseClassName).map fun _ =>
      if (className, baseClassName, edgeType) ∈ chg.edges then chg
      else { chg with edges := (className, baseClassName, edgeType) :: chg.edges }

def CHGraph.addInstances (chg : CHGraph F) (templateName className : Name) : CHGraph F :=
  let instances := className :: chg.templateNameToInstancesMap templateName
  { chg with templateNameToInstancesMap := Function.update chg.templateNameToInstancesMap templateName instances }

def beforeBracket : ℕ → Name → Option Name
  | _, [] => none
  | bracketNum, '>' :: rest => beforeBracket (bracketNum + 1) rest
  | bracketNum, '<' :: rest => if bracketNum = 1 then some rest else beforeBracket (bracketNum - 1) rest
  | bracketNum, _ :: rest => beforeBracket bracketNum rest

def getBeforeBrackets (name : Name) : Name :=
  match name.reverse with
  | '>' :: rest => ((beforeBracket 1 rest).map List.reverse).getD name
  | _ => name

/-- The names of templates get shorter, so the length of the name bounds the calls. -/
def createNode : ℕ → Name → CHGraph F → Option (CHGraph F)
  | 0, _, _ => none
  | fuel + 1, className, chg =>
      if (chg.getNode className).isSome then none
      else
        let node : CHNode F := ⟨none, false, false, false, []⟩
        let chg := { chg with getNode := Function.update chg.getNode className (some node) }
        if className.getLast? = some '>' then
          let templateName := getBeforeBrackets className
          let created := if (chg.getNode templateName).isSome then some chg
            else (createNode fuel templateName chg).map fun chg =>
              chg.modify templateName fun node => { node with template := true }
          created.bind fun chg =>
            (chg.addEdge className templateName .instantce).map fun chg => chg.addInstances templateName className
        else some chg

end

section

variable {F : Type*}

def ztiLabel : Name := "_ZTI".toList

def vtblLabelBeforeDemangle : Name := "_ZTV".toList

def pureVirtualFunName : Name := "__cxa_pure_virtual".toList

structure Segment (F : Type*) where
  virtualFunctions : List F
  isVirtual : Bool
  nullPtrNum : ℕ

structure Scan (F : Type*) where
  chg : CHGraph F
  pureAbstract : Bool
  segment : Segment F

def Segment.empty : Segment F := ⟨[], false, 0⟩

variable (P : Program F)

def getThunkTarget (f : F) : Option F := (P.calls f).foldl (fun _ called => called) none

def isCPPThunkFunction (f : F) : Bool := (P.demangle (P.name f)).isThunkFunc

def addFuncToFuncVector (v : List F) (lf : F) : List F :=
  if isCPPThunkFunction P lf then
    match getThunkTarget P lf with
    | some tf => v ++ [tf]
    | none => v
  else v ++ [lf]

/-- The name that is compared with the label of type information, if there is one to compare. -/
def labelled : Operand F → Bool
  | .null => false
  | .expr opcode operand => opcode == .bitCast && ztiLabel.isPrefixOf operand
  | .function f => ztiLabel.isPrefixOf (P.name f)
  | .globalAlias name _ => ztiLabel.isPrefixOf name
  | .global name => ztiLabel.isPrefixOf name

def Operand.isNull : Operand F → Bool
  | .null => true
  | .expr _ _ => false
  | .function _ => false
  | .globalAlias _ _ => false
  | .global _ => false

/-- A null entry with the entry before it and the entries from it on. -/
def visitNull (prev : Option (Operand F)) (rest : List (Operand F)) (segment : Segment F) : Segment F :=
  if prev.any (labelled P) then { segment with isVirtual := true, nullPtrNum := (rest.takeWhile Operand.isNull).length }
  else segment

def aliasedFunction : Aliasee F → Option F
  | .function f => some f
  | .expr opcode operand => if opcode = .bitCast then operand else none
  | .other => none

def addBaseClass (vtblClassName : Name) (f : F) (chg : CHGraph F) : Option (CHGraph F) :=
  let className := (P.demangle (P.name f)).className
  if className ≠ [] ∧ vtblClassName ≠ className then
    let created := if (chg.getNode className).isSome then some chg else createNode (className.length + 1) className chg
    created.bind fun chg => chg.addEdge vtblClassName className .inheritance
  else some chg

def addFunction (vtblClassName : Name) (f : F) (scan : Scan F) : Option (Scan F) :=
  (addBaseClass P vtblClassName f scan.chg).map fun chg =>
    ⟨chg, scan.pureAbstract && P.name f == pureVirtualFunName,
      { scan.segment with virtualFunctions := addFuncToFuncVector P scan.segment.virtualFunctions f }⟩

def addAlias (aliasee : Aliasee F) (scan : Scan F) : Option (Scan F) :=
  (aliasedFunction aliasee).map fun f =>
    { scan with
      pureAbstract := false
      segment := { scan.segment with virtualFunctions := addFuncToFuncVector P scan.segment.virtualFunctions f } }

def padFront (nullPtrNum : ℕ) (virtualFunctions : List F) : List F :=
  (List.range nullPtrNum).foldl (fun v i => v[i]?.toList ++ v) virtualFunctions

def Segment.padded (segment : Segment F) : List F :=
  if segment.isVirtual ∧ 0 < segment.virtualFunctions.length then padFront segment.nullPtrNum segment.virtualFunctions
  else segment.virtualFunctions

def Scan.finish (vtblClassName : Name) (scan : Scan F) : Scan F :=
  { scan with
    chg := if 0 < scan.segment.padded.length then
      scan.chg.modify vtblClassName fun node => node.addVirtualFunctionVector scan.segment.padded else scan.chg
    segment := .empty }

def Scan.setMultiInheritance (vtblClassName : Name) (scan : Scan F) : Scan F :=
  { scan with chg := scan.chg.modify vtblClassName fun node => { node with multiInheritance := true } }

/-- Both loops over an array, with the entry before the next one. An offset ends the inner loop. -/
def scanArray (vtblClassName : Name) : Option (Operand F) → List (Operand F) → Scan F → Option (Scan F)
  | _, [], scan => some (scan.finish vtblClassName)
  | prev, .null :: rest, scan =>
      scanArray vtblClassName (some .null) rest { scan with segment := visitNull P prev (.null :: rest) scan.segment }
  | _, .expr opcode operand :: rest, scan =>
      if opcode = .intToPtr then
        scanArray vtblClassName (some (.expr opcode operand)) rest
          ((scan.setMultiInheritance vtblClassName).finish vtblClassName)
      else none
  | _, .function f :: rest, scan =>
      (addFunction P vtblClassName f scan).bind fun scan => scanArray vtblClassName (some (.function f)) rest scan
  | _, .globalAlias name aliasee :: rest, scan =>
      (addAlias P aliasee scan).bind fun scan => scanArray vtblClassName (some (.globalAlias name aliasee)) rest scan
  | _, .global name :: rest, scan => scanArray vtblClassName (some (.global name)) rest scan

def analyzeArray (vtblClassName : Name) (chg : CHGraph F) : Constant F → Option (CHGraph F)
  | .array operands => (scanArray P vtblClassName none operands ⟨chg, true, .empty⟩).map fun scan =>
      if scan.pureAbstract then scan.chg.modify vtblClassName fun node => { node with pureAbstract := true }
      else scan.chg
  | .struct _ => none
  | .zero _ => none
  | .other => none

def Constant.isArrayTy : Constant F → Bool
  | .struct _ => false
  | .array _ => true
  | .zero isArrayTy => isArrayTy
  | .other => false

def getVtblStruct : Constant F → Option (List (Constant F))
  | .struct [.struct inner, second] => some (if second.isArrayTy then inner else [.struct inner, second])
  | .struct operands => some operands
  | .array _ => none
  | .zero _ => none
  | .other => none

def isValVtbl (globalvalue : GlobalVariable F) : Bool := vtblLabelBeforeDemangle.isPrefixOf globalvalue.name

def analyzeVTable (chg : CHGraph F) (globalvalue : GlobalVariable F) : Option (CHGraph F) :=
  match isValVtbl globalvalue, globalvalue.initializer with
  | true, some initializer =>
      (getVtblStruct initializer).bind fun vtblStruct =>
        let vtblClassName := P.getClassNameFromVtblObj globalvalue.name
        (chg.getNode vtblClassName).bind fun _ =>
          vtblStruct.foldlM (analyzeArray P vtblClassName)
            (chg.modify vtblClassName fun node => { node with vtable := some globalvalue.name })
  | true, none => some chg
  | false, _ => some chg

def analyzeVTables (globals : List (GlobalVariable F)) (chg : CHGraph F) : Option (CHGraph F) :=
  globals.foldlM (analyzeVTable P) chg

end

end SVF.Graphs.ClassHierarchy
