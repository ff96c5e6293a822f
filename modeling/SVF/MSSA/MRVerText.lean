import Mathlib.Algebra.Group.Int.Defs
import SVF.MemoryModel.PtsLines

namespace SVF.MSSA.MRVerText

open MemoryModel.PointsToSets MemoryModel.PtsLines Util.TextFiles

inductive DEFTYPE
  | SSACHI | StoreMSSACHI | CallMSSACHI | EntryMSSACHI | SSAPHI
  deriving DecidableEq

def DEFTYPE.toNat : DEFTYPE → ℕ
  | .SSACHI => 0
  | .StoreMSSACHI => 1
  | .CallMSSACHI => 2
  | .EntryMSSACHI => 3
  | .SSAPHI => 4

/-- `static_cast`, or `none` for a number that is not one of the values. -/
def DEFTYPE.ofInt : ℤ → Option DEFTYPE
  | 0 => some .SSACHI
  | 1 => some .StoreMSSACHI
  | 2 => some .CallMSSACHI
  | 3 => some .EntryMSSACHI
  | 4 => some .SSAPHI
  | _ => none

structure MSSADEF where
  type : DEFTYPE
  mr : PointsTo
  deriving DecidableEq

structure MRVer where
  mr : PointsTo
  version : NodeID
  vid : ℕ
  ssaDef : MSSADEF
  deriving DecidableEq

/-- An unsigned number of 32 bits as one with a sign, which is what `%d` prints. -/
def toSigned (n : ℕ) : ℤ := if n < 2 ^ 31 then n else n - 2 ^ 32

def dumpObjects (pts : PointsTo) : Text := pts.elems.flatMap fun n => integer (toSigned n) ++ [' ']

def dumpStr (pts : PointsTo) : Text := "pts\x7b".toList ++ dumpObjects pts ++ "\x7d".toList

def MRVer.text (mrver : MRVer) : Text :=
  "MRVERID: ".toList ++ number mrver.vid ++ " MemRegion: ".toList ++ dumpStr mrver.mr ++
    " MRVERSION: ".toList ++ number mrver.version ++ " MSSADef: ".toList ++
    number mrver.ssaDef.type.toNat ++ ", ".toList ++ dumpStr mrver.ssaDef.mr

/-- The value that `>>` gives to a variable of an unsigned type of 32 bits. -/
def toNodeID (z : ℤ) : ℕ := if maxID < z.natAbs then maxID else (z % 2 ^ 32).toNat

/-- Of a text that is not empty; `none` where a position is out of range, or where a variable is
used that has no value. -/
def getMRVERFromString (totalVERNum : ℕ) (s : Text) : Option MRVer := do
  let temp ← between s (after (find "MemRegion: pts\x7b".toList s) 15)
    (find "\x7d MRVERSION: ".toList s)
  let dstPts ← (fields ' ' temp).mapM fun point => (extractInt point).map toNodeID
  let temp ← between s (after (find "MSSADef: ".toList s) 9) (find "\x7d >=".toList s)
  let obj1 ← extractInt (substr temp 0 (find ", ".toList temp))
  let defType ← DEFTYPE.ofInt obj1
  let temp ← between s (after (find "MRVERSION: ".toList s) 11) (find " MSSADef:".toList s)
  let obj2 ← extractInt temp
  some ⟨setAll dstPts, toNodeID obj2, totalVERNum, ⟨defType, setAll dstPts⟩⟩

theorem toNodeID_toSigned {n : ℕ} (hn : n ≤ maxID) : toNodeID (toSigned n) = n := by
  rw [maxID] at hn
  have habs : ¬ maxID < (toSigned n).natAbs := by
    rw [toSigned, maxID]
    split <;> omega
  rw [toNodeID, if_neg habs, toSigned]
  split <;> omega

theorem toNodeID_natCast {n : ℕ} (hn : n ≤ maxID) : toNodeID n = n := by
  rw [maxID] at hn
  have habs : ¬ maxID < (n : ℤ).natAbs := by
    rw [maxID]
    omega
  rw [toNodeID, if_neg habs]
  omega

theorem ofInt_toNat (type : DEFTYPE) : DEFTYPE.ofInt type.toNat = some type := by
  cases type <;> rfl

theorem number_eq_integer (n : ℕ) : number n = integer n := by
  rw [integer, if_neg (by omega)]
  rfl

theorem extractInt_number (n : ℕ) (s : Text) (hs : ∀ d ∈ s.head?, d.isDigit = false) :
    extractInt (number n ++ s) = some (n : ℤ) := by
  rw [number_eq_integer]
  exact extractInt_integer n s hs

theorem notMem_dumpObjects {c : Char} (hdigit : c.isDigit = false) (hsign : c ≠ '-')
    (hspace : c ≠ ' ') (pts : PointsTo) : c ∉ dumpObjects pts := by
  intro hc
  obtain ⟨n, -, hmem⟩ := List.mem_flatMap.mp hc
  rcases List.mem_append.mp hmem with h | h
  · exact notMem_integer hdigit hsign h
  · exact hspace (List.mem_singleton.mp h)

theorem mapM_fields_dumpObjects {pts : PointsTo} (hpts : ∀ n ∈ pts, n ≤ maxID) :
    (fields ' ' (dumpObjects pts)).mapM (fun point => (extractInt point).map toNodeID) =
      some pts.elems := by
  have hfields : fields ' ' (dumpObjects pts) = pts.elems.map fun n => integer (toSigned n) := by
    have hspace : ∀ l ∈ pts.elems.map fun n => integer (toSigned n), ' ' ∉ l := by
      intro l hl
      obtain ⟨n, -, rfl⟩ := List.mem_map.mp hl
      exact notMem_integer rfl (by decide)
    have hterm := fields_terminated hspace
    rw [List.flatMap_map] at hterm
    exact hterm
  rw [hfields]
  have hall : ∀ ns : List NodeID, (∀ n ∈ ns, n ≤ maxID) →
      (ns.map fun n => integer (toSigned n)).mapM
        (fun point => (extractInt point).map toNodeID) = some ns := by
    intro ns hns
    induction ns with
    | nil => rfl
    | cons n ns ih =>
        obtain ⟨hn, hrest⟩ := List.forall_mem_cons.mp hns
        have hread := extractInt_integer (toSigned n) [] (by simp)
        rw [List.append_nil] at hread
        rw [List.map_cons, List.mapM_cons, hread, Option.map_some, toNodeID_toSigned hn, ih hrest]
        rfl
  exact hall pts.elems fun n hn => hpts n ((Util.OrderedSets.mem_elems _ n).mp hn)

structure Fits (v : MRVer) : Prop where
  mr : ∀ n ∈ v.mr, n ≤ maxID
  version : v.version ≤ maxID

def MRVer.restored (v : MRVer) (totalVERNum : ℕ) : MRVer :=
  ⟨v.mr, v.version, totalVERNum, ⟨v.ssaDef.type, v.mr⟩⟩

def MRVer.start (v : MRVer) : Text := "MRVERID: ".toList ++ number v.vid ++ " ".toList

def MRVer.rest (v : MRVer) : Text := ", ".toList ++ dumpStr v.ssaDef.mr

theorem notMem_start {c : Char} (hdigit : c.isDigit = false) (hc : c ∉ "MRVERID: ".toList)
    (v : MRVer) : c ∉ v.start := by
  have hnumber := notMem_number (n := v.vid) hdigit
  simp at hc
  unfold MRVer.start
  simp [hnumber, hc]

theorem notMem_dumpStr {c : Char} (hdigit : c.isDigit = false) (hsign : c ≠ '-')
    (hc : c ∉ "pts\x7b \x7d".toList) (pts : PointsTo) : c ∉ dumpStr pts := by
  simp at hc
  have hobjects := notMem_dumpObjects hdigit hsign hc.2.2.2.2.1 pts
  unfold dumpStr
  simp [hobjects, hc]

theorem notMem_rest {c : Char} (hdigit : c.isDigit = false) (hsign : c ≠ '-')
    (hc : c ∉ ", pts\x7b \x7d".toList) (v : MRVer) : c ∉ v.rest := by
  simp at hc
  have hdump := notMem_dumpStr hdigit hsign (by simp [hc]) v.ssaDef.mr
  unfold MRVer.rest
  simp [hdump, hc]

section

variable {v : MRVer} {lead tail : Text}

theorem region_text (v : MRVer) (lead tail : Text) : lead ++ v.text ++ tail =
    (lead ++ v.start) ++ "MemRegion: pts\x7b".toList ++ dumpObjects v.mr ++
      "\x7d MRVERSION: ".toList ++ (number v.version ++ " MSSADef: ".toList ++
        number v.ssaDef.type.toNat ++ v.rest ++ tail) := by
  unfold MRVer.text MRVer.start MRVer.rest dumpStr
  simp

theorem version_text (v : MRVer) (lead tail : Text) : lead ++ v.text ++ tail =
    (lead ++ v.start ++ "MemRegion: ".toList ++ dumpStr v.mr ++ " ".toList) ++
      "MRVERSION: ".toList ++ number v.version ++ " MSSADef:".toList ++
      (" ".toList ++ number v.ssaDef.type.toNat ++ v.rest ++ tail) := by
  unfold MRVer.text MRVer.start MRVer.rest dumpStr
  simp

theorem def_text (v : MRVer) (lead tail : Text) : lead ++ v.text ++ tail =
    (lead ++ v.start ++ "MemRegion: ".toList ++ dumpStr v.mr ++ " MRVERSION: ".toList ++
      number v.version ++ " ".toList) ++ "MSSADef: ".toList ++
      (number v.ssaDef.type.toNat ++ v.rest ++ tail) := by
  unfold MRVer.text MRVer.start MRVer.rest dumpStr
  simp

theorem between_region (hlead : 'g' ∉ lead ∧ 'S' ∉ lead) :
    between (lead ++ v.text ++ tail) (after (find "MemRegion: pts\x7b".toList (lead ++ v.text ++ tail)) 15)
      (find "\x7d MRVERSION: ".toList (lead ++ v.text ++ tail)) = some (dumpObjects v.mr) := by
  have hg : 'g' ∉ lead ++ v.start := by
    simp [hlead.1, notMem_start (c := 'g') rfl (by decide) v]
  have hS : 'S' ∉ lead ++ v.start ++ "MemRegion: pts\x7b".toList ++ dumpObjects v.mr := by
    simp [hlead.2, notMem_start (c := 'S') rfl (by decide) v,
      notMem_dumpObjects (c := 'S') rfl (by decide) (by decide)]
  exact between_found (region_text v lead tail) (c := 'g') (by decide) hg (d := 'S') (by decide) hS

theorem between_version (hlead : 'S' ∉ lead ∧ 'A' ∉ lead) :
    between (lead ++ v.text ++ tail) (after (find "MRVERSION: ".toList (lead ++ v.text ++ tail)) 11)
      (find " MSSADef:".toList (lead ++ v.text ++ tail)) = some (number v.version) := by
  have hdump : ∀ c ∈ ['S', 'A'], c ∉ dumpStr v.mr := by
    intro c hc
    simp at hc
    rcases hc with rfl | rfl
    · exact notMem_dumpStr rfl (by decide) (by decide) v.mr
    · exact notMem_dumpStr rfl (by decide) (by decide) v.mr
  have hS : 'S' ∉ lead ++ v.start ++ "MemRegion: ".toList ++ dumpStr v.mr ++ " ".toList := by
    simp [hlead.1, notMem_start (c := 'S') rfl (by decide) v, hdump]
  have hA : 'A' ∉ lead ++ v.start ++ "MemRegion: ".toList ++ dumpStr v.mr ++ " ".toList ++
      "MRVERSION: ".toList ++ number v.version := by
    simp [hlead.2, notMem_start (c := 'A') rfl (by decide) v, hdump, notMem_number]
  exact between_found (version_text v lead tail) (c := 'S') (by decide) hS (d := 'A') (by decide) hA

/-- The type stands before the first comma of what the reader cuts out for the definition. -/
theorem between_def (hlead : 'A' ∉ lead ∧ '>' ∉ lead) (htail : '>' ∉ tail) :
    between (lead ++ v.text ++ tail) (after (find "MSSADef: ".toList (lead ++ v.text ++ tail)) 9)
      (find "\x7d >=".toList (lead ++ v.text ++ tail)) =
        some (number v.ssaDef.type.toNat ++ v.rest ++ tail) := by
  have hdump : ∀ c ∈ ['A', '>'], c ∉ dumpStr v.mr := by
    intro c hc
    simp at hc
    rcases hc with rfl | rfl
    · exact notMem_dumpStr rfl (by decide) (by decide) v.mr
    · exact notMem_dumpStr rfl (by decide) (by decide) v.mr
  have hA : 'A' ∉ lead ++ v.start ++ "MemRegion: ".toList ++ dumpStr v.mr ++
      " MRVERSION: ".toList ++ number v.version ++ " ".toList := by
    simp [hlead.1, notMem_start (c := 'A') rfl (by decide) v, hdump, notMem_number]
  have hend : find "\x7d >=".toList (lead ++ v.text ++ tail) = none := by
    apply find_eq_none (c := '>') (by decide)
    rw [def_text]
    simp [hlead.2, htail, notMem_start (c := '>') rfl (by decide) v, hdump, notMem_number,
      notMem_rest (c := '>') rfl (by decide) (by decide) v]
  rw [hend, def_text]
  generalize lead ++ v.start ++ "MemRegion: ".toList ++ dumpStr v.mr ++ " MRVERSION: ".toList ++
    number v.version ++ " ".toList = pre at hA ⊢
  rw [find_of_mem (c := 'A') (by decide) hA]
  have hpos : after (some pre.length) 9 = (pre ++ "MSSADef: ".toList).length := by
    rw [List.length_append]
    rfl
  rw [hpos]
  exact between_end _ _

theorem getMRVERFromString_text (hv : Fits v) (hlead : ∀ c ∈ ['g', 'S', 'A', '>'], c ∉ lead)
    (htail : '>' ∉ tail) (totalVERNum : ℕ) :
    getMRVERFromString totalVERNum (lead ++ v.text ++ tail) = some (v.restored totalVERNum) := by
  simp only [List.forall_mem_cons] at hlead
  obtain ⟨hg, hS, hA, hgt, -⟩ := hlead
  have htype : extractInt (substr (number v.ssaDef.type.toNat ++ v.rest ++ tail) 0
      (find ", ".toList (number v.ssaDef.type.toNat ++ v.rest ++ tail))) =
        some (v.ssaDef.type.toNat : ℤ) := by
    have hsplit : number v.ssaDef.type.toNat ++ v.rest ++ tail =
        number v.ssaDef.type.toNat ++ ", ".toList ++ (dumpStr v.ssaDef.mr ++ tail) := by
      unfold MRVer.rest
      simp
    have hread := extractInt_number v.ssaDef.type.toNat [] (by simp)
    rw [List.append_nil] at hread
    rw [hsplit, find_of_mem (c := ',') (by decide) (notMem_number rfl)]
    simpa [substr] using hread
  have hversion := extractInt_number v.version [] (by simp)
  rw [List.append_nil] at hversion
  rw [getMRVERFromString, between_region ⟨hg, hS⟩, between_version ⟨hS, hA⟩,
    between_def ⟨hA, hgt⟩ htail, Option.bind_eq_bind, Option.bind_some,
    mapM_fields_dumpObjects hv.mr]
  simp only [Option.bind_eq_bind, Option.bind_some, htype, ofInt_toNat, hversion, setAll_elems,
    toNodeID_natCast hv.version]
  rfl

end

end SVF.MSSA.MRVerText
