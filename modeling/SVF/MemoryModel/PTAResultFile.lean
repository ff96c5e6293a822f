import Mathlib.Algebra.Group.Int.Defs
import SVF.MemoryModel.PtsLines
import SVF.Util.DefaultMaps

namespace SVF.MemoryModel.PTAResultFile

open PointsToSets PtsLines Util.TextFiles Util.DefaultMaps

/-- The results of `getModulusOffset`, which are not negative. -/
abbrev APOffset := ℕ

def maxOffset : ℕ := 2 ^ 64 - 1

inductive PAGNode
  | valVar
  | baseObjVar
  | gepObjVar (base : NodeID) (apOffset : APOffset)
  deriving DecidableEq

/-- The nodes of the program and the state of the analysis. -/
structure PTAState where
  nodes : DefaultMap NodeID (Option PAGNode)
  gepObjVarMap : DefaultMap (NodeID × APOffset) (Option NodeID)
  fieldInsensitive : NodeID → Bool
  pts : NodeID → PointsTo

namespace PTAState

variable (s : PTAState)

/-- `none` where an assertion fails or the result is null. -/
def getBaseObject (id : NodeID) : Option NodeID :=
  match s.nodes.get id with
  | some .baseObjVar => some id
  | some (.gepObjVar base _) => if s.nodes.get base = some .baseObjVar then some base else none
  | _ => none

def setObjFieldInsensitive (id : NodeID) : Option PTAState :=
  (s.getBaseObject id).map fun base =>
    { s with fieldInsensitive := Function.update s.fieldInsensitive base true }

def addGepObjNode (base : NodeID) (apOffset : APOffset) (gepId : NodeID) : Option PTAState :=
  if s.gepObjVarMap.get (base, apOffset) = none then
    some { s with
      gepObjVarMap := s.gepObjVarMap.set (base, apOffset) (some gepId)
      nodes := s.nodes.set gepId (some (.gepObjVar base apOffset)) }
  else none

end PTAState

def separator : Text := "------".toList

def objVarLine (s : PTAState) (n : NodeID) : Text :=
  number n ++ [' '] ++ (if s.fieldInsensitive n then ['1'] else ['0'])

def baseObjects (s : PTAState) : List NodeID := (s.nodes.keys.filterMap s.getBaseObject).eraseDups

def writeObjVarToFile (s : PTAState) : Text :=
  unlines ((baseObjects s).map (objVarLine s) ++ [separator])

def ptsLines (s : PTAState) : List Text :=
  s.nodes.keys.map fun var => ptsLine (number var) (s.pts var)

def gepObjVarLine (s : PTAState) (offsetPair : NodeID × APOffset) : Text :=
  number offsetPair.1 ++ [' '] ++ number offsetPair.2 ++ [' '] ++
    number ((s.gepObjVarMap.get offsetPair).getD 0)

def writeToFile (s : PTAState) : Text :=
  unlines (ptsLines s ++ [separator] ++ s.gepObjVarMap.keys.map (gepObjVarLine s) ++ [separator] ++
    (baseObjects s).map (objVarLine s))

/-- The file that a run leaves which starts in the one state and ends in the other. -/
def solveAndwritePtsToFile (start final : PTAState) : Text :=
  writeObjVarToFile start ++ writeToFile final

/-- `(int) strtol(…)` with a `long` of 64 bits, converted to an identifier. -/
def atoi (s : Text) : NodeID :=
  let digits := (s.dropWhile isSpace).takeWhile Char.isDigit
  min (Nat.ofDigitChars 10 digits 0) (2 ^ 63 - 1) % 2 ^ 32

/-- With the lines that are left; `none` where an assertion fails. -/
def readAndSetObjFieldSensitivity (delimiterStr : Text) :
    List Text → PTAState → Option (PTAState × List Text)
  | [], s => some (s, [])
  | line :: rest, s =>
    if line = [] ∨ line = delimiterStr then some (s, rest)
    else
      let (base, ss) := extract maxID 0 line
      let insensitive := ss.elim 0 fun ss => (extract maxID 0 ss).1
      if insensitive ≠ 0 then
        (s.setObjFieldInsensitive base).bind (readAndSetObjFieldSensitivity delimiterStr rest)
      else readAndSetObjFieldSensitivity delimiterStr rest s

structure PtsMaps where
  nodePtsMap : NodeID → Option Text
  strPtsMap : Text → Option PointsTo

def PtsMaps.insert (m : PtsMaps) (var : NodeID) (objs : Text) : PtsMaps where
  nodePtsMap := Function.update m.nodePtsMap var (some objs)
  strPtsMap :=
    if (m.strPtsMap objs).isSome then m.strPtsMap
    else Function.update m.strPtsMap objs (some (setAll (extractAll maxID objs)))

/-- `none` where `at(0)` of an empty line throws. -/
def readPtsLines : List Text → PtsMaps → Option (PtsMaps × List Text)
  | [], m => some (m, [])
  | [] :: _, _ => none
  | (c :: line) :: rest, m =>
    let line := c :: line
    if c = '[' ∨ line = "---VERSIONED---".toList then readPtsLines rest m
    else if line = separator then some (m, rest)
    else
      match objsOf line with
      | none => some (m, rest)
      | some (pos, objs) =>
        readPtsLines rest (if objs = [] then m else m.insert (atoi (line.take pos)) objs)

def readPtsResultFromFile (F : List Text) (s : PTAState) : Option (PTAState × List Text) :=
  (readPtsLines F ⟨fun _ => none, fun _ => none⟩).map fun (m, F) =>
    ({ s with pts := fun var =>
        (m.nodePtsMap var).elim (s.pts var) fun objs => s.pts var ∪ (m.strPtsMap objs).getD ∅ }, F)

/-- The body of the loop over the field objects, with the map as it has been before. -/
def readGepObjVar (gepObjVarMap : NodeID × APOffset → Option NodeID) (line : Text) (s : PTAState) :
    Option PTAState :=
  let (base, ss) := extract maxID 0 line
  let (offset, ss) := ss.elim (0, none) (extract maxOffset 0)
  let id := ss.elim 0 fun ss => (extract maxID 0 ss).1
  if gepObjVarMap (base, offset) = none then
    (s.getBaseObject base).bind fun obj => s.addGepObjNode obj offset id
  else some s

def readGepObjVarLines (gepObjVarMap : NodeID × APOffset → Option NodeID) :
    List Text → PTAState → Option (PTAState × List Text)
  | [], s => some (s, [])
  | line :: rest, s =>
    if line = separator then some (s, rest)
    else (readGepObjVar gepObjVarMap line s).bind (readGepObjVarLines gepObjVarMap rest)

def readGepObjVarMapFromFile (F : List Text) (s : PTAState) : Option (PTAState × List Text) :=
  readGepObjVarLines s.gepObjVarMap.get F s

/-- Up to the update of the call graph, which the class leaves to its subclasses. -/
def readFromFile (file : Text) (s : PTAState) : Option PTAState := do
  let (s, F) ← readAndSetObjFieldSensitivity separator (lines file) s
  let (s, F) ← readPtsResultFromFile F s
  let (s, F) ← readGepObjVarMapFromFile F s
  let (s, _) ← readAndSetObjFieldSensitivity [] F s
  some s

end SVF.MemoryModel.PTAResultFile
