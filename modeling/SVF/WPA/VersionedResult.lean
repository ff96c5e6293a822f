import SVF.MemoryModel.PtsLines

namespace SVF.WPA.VersionedResult

open MemoryModel MemoryModel.PointsToSets MemoryModel.PtsLines Util.TextFiles

abbrev Version := ℕ

def invalidVersion : Version := 0

abbrev ObjToVersionMap := List (NodeID × Version)

abbrev LocVersionMap := List ObjToVersionMap

abbrev VersionedPTData := NodeID × Version → PointsTo

structure VersionedFlowSensitive where
  consume : LocVersionMap
  yield : LocVersionMap
  equivalentObject : NodeID → Option NodeID
  isStore : NodeID → Bool
  vPtD : VersionedPTData
  versions_le : ∀ lov ∈ consume ++ yield, ∀ ov ∈ lov, ov.1 ≤ maxID ∧ ov.2 ≤ maxID
  pts_le : ∀ key, ∀ n ∈ vPtD key, n ≤ maxID

def versionText (ov : NodeID × Version) : Text :=
  "[ ".toList ++ number ov.1 ++ [' '] ++ number ov.2 ++ " ]".toList

def endOfVersions : Text := "---VERSIONED---".toList

namespace VersionedFlowSensitive

variable (r : VersionedFlowSensitive)

def getVersion (l o : NodeID) (lvm : LocVersionMap) : Version :=
  let op := (r.equivalentObject o).getD o
  ((lvm.getD l []).lookup op).getD invalidVersion

def getConsume (l o : NodeID) : Version := r.getVersion l o r.consume

def getYield (l o : NodeID) : Version :=
  if r.isStore l then r.getVersion l o r.yield else r.getVersion l o r.consume

def written : List (NodeID × Version) :=
  (r.consume ++ r.yield).flatMap fun lov => lov.filter fun ov => decide (r.vPtD ov ≠ ∅)

def writeVersionedAnalysisResultToFile : Text :=
  unlines ((r.written.map fun ov => ptsLine (versionText ov) (r.vPtD ov)) ++ [endOfVersions])

end VersionedFlowSensitive

/-- `none` where the loop is left at the line. -/
def readVersion (line : Text) : Option ((NodeID × Version) × PointsTo) :=
  let pair := substr line (after (find "[ ".toList line) 1) (find " ]".toList line)
  let (nodeID, rest) := extract maxID 0 pair
  let nodeVersion := rest.elim 0 fun rest => (extract maxID 0 rest).1
  (objsOf line).map fun r => ((nodeID, nodeVersion), parsePts r.2)

def unionPts (vPtD : VersionedPTData) (key : NodeID × Version) (pts : PointsTo) : VersionedPTData :=
  Function.update vPtD key (vPtD key ∪ pts)

def readVersionedAnalysisResultFromFile (vPtD : VersionedPTData) : List Text → VersionedPTData
  | [] => vPtD
  | line :: rest =>
    if line = endOfVersions then vPtD
    else
      match readVersion line with
      | some (keyPair, dstPts) =>
        readVersionedAnalysisResultFromFile (unionPts vPtD keyPair dstPts) rest
      | none => vPtD

section

variable {ov : NodeID × Version} {pts : PointsTo}

theorem notMem_versionText {c : Char} (hdigit : c.isDigit = false) (hc : c ∉ "[ ]".toList) :
    c ∉ versionText ov := by
  have hchars : c ≠ '[' ∧ c ≠ ' ' ∧ c ≠ ']' := by simpa using hc
  intro h
  simp only [versionText, List.mem_append] at h
  have hfirst := notMem_number (n := ov.1) hdigit
  have hsecond := notMem_number (n := ov.2) hdigit
  simp [hfirst, hsecond, hchars] at h

theorem readVersion_line (hov : ov.1 ≤ maxID ∧ ov.2 ≤ maxID) (hpts : ∀ n ∈ pts, n ≤ maxID) :
    readVersion (ptsLine (versionText ov) pts) = some (ov, pts) := by
  have hobjs : objsOf (ptsLine (versionText ov) pts) =
      some ((versionText ov).length, objsText pts) :=
    objsOf_ptsLine (notMem_versionText (by decide) (by decide))
  let front := "[ ".toList ++ number ov.1 ++ [' '] ++ number ov.2
  let back := delimiter1 ++ (writePts pts ++ ['\x7d'])
  have hline : ptsLine (versionText ov) pts = front ++ ([' '] ++ ']' :: []) ++ back := by
    simp [ptsLine, versionText, front, back]
  have hopen : find "[ ".toList (ptsLine (versionText ov) pts) = some 0 := by
    have hstart : ptsLine (versionText ov) pts =
        "[ ".toList ++ (number ov.1 ++ [' '] ++ number ov.2 ++ " ]".toList ++ back) := by
      simp [ptsLine, versionText, back]
    rw [hstart]
    exact find_start _ _
  have hclose : find " ]".toList (ptsLine (versionText ov) pts) = some front.length := by
    have hfront : ']' ∉ front := by
      have hfirst := notMem_number (n := ov.1) (c := ']') (by decide)
      have hsecond := notMem_number (n := ov.2) (c := ']') (by decide)
      simp [front, hfirst, hsecond]
    rw [hline]
    exact find_append hfront (fun h => absurd h (by decide : ']' ∉ [' ']))
  have hpair : substr (ptsLine (versionText ov) pts) (after (some 0) 1) (some front.length) =
      ' ' :: (number ov.1 ++ ' ' :: (number ov.2 ++ [' '])) := by
    let middle := ' ' :: (number ov.1 ++ ' ' :: (number ov.2 ++ [' ']))
    have hsplit : ptsLine (versionText ov) pts = ['['] ++ middle ++ (']' :: back) := by
      simp [ptsLine, versionText, middle, back]
    have hlength : front.length = middle.length := by
      simp [front, middle]
      omega
    rw [hlength, hsplit]
    exact substr_middle ['['] middle _
  rw [readVersion, hobjs, hopen, hclose, hpair]
  rw [extract_space, extract_number hov.1 0 _ (by simp), if_neg (List.cons_ne_nil _ _)]
  simp only [Option.elim_some, Option.map_some, parsePts_objsText hpts]
  rw [extract_space, extract_number hov.2 0 _ (by simp)]

theorem ptsLine_ne_end (ov : NodeID × Version) (pts : PointsTo) :
    ptsLine (versionText ov) pts ≠ endOfVersions := by
  have hhead : (ptsLine (versionText ov) pts).head? = some '[' := by
    simp [ptsLine, versionText]
  intro heq
  rw [heq] at hhead
  exact absurd hhead (by decide)

end

section

theorem foldl_unionPts (pts : NodeID × Version → PointsTo) (keys : List (NodeID × Version))
    (t : VersionedPTData) (key : NodeID × Version) :
    (keys.foldl (fun t k => unionPts t k (pts k)) t) key =
      if key ∈ keys then t key ∪ pts key else t key := by
  induction keys generalizing t with
  | nil => simp
  | cons k keys ih =>
      rw [List.foldl_cons, ih]
      by_cases hk : key = k
      · subst hk
        have htable : unionPts t key (pts key) key = t key ∪ pts key := Function.update_self ..
        rw [htable, if_pos List.mem_cons_self]
        split
        · exact ext fun n => by simp
        · rfl
      · have htable : unionPts t k (pts k) key = t key := Function.update_of_ne hk ..
        rw [htable]
        simp [hk]

variable (r : VersionedFlowSensitive)

theorem written_le {ov : NodeID × Version} (h : ov ∈ r.written) :
    ov.1 ≤ maxID ∧ ov.2 ≤ maxID := by
  obtain ⟨lov, hlov, hov⟩ := List.mem_flatMap.mp h
  exact r.versions_le lov hlov ov (List.mem_of_mem_filter hov)

theorem read_lines {keys : List (NodeID × Version)}
    (hkeys : ∀ ov ∈ keys, ov.1 ≤ maxID ∧ ov.2 ≤ maxID) (rest : List Text) (t : VersionedPTData) :
    readVersionedAnalysisResultFromFile t
        ((keys.map fun ov => ptsLine (versionText ov) (r.vPtD ov)) ++ endOfVersions :: rest) =
      keys.foldl (fun t k => unionPts t k (r.vPtD k)) t := by
  induction keys generalizing t with
  | nil =>
      rw [List.map_nil, List.nil_append, readVersionedAnalysisResultFromFile, if_pos rfl]
      rfl
  | cons ov keys ih =>
      obtain ⟨hov, hrest⟩ := List.forall_mem_cons.mp hkeys
      have hne := ptsLine_ne_end ov (r.vPtD ov)
      rw [List.map_cons, List.cons_append, readVersionedAnalysisResultFromFile, if_neg hne,
        readVersion_line hov (r.pts_le ov)]
      exact ih hrest _

theorem read_written (key : NodeID × Version) :
    readVersionedAnalysisResultFromFile (fun _ => ∅)
        (lines r.writeVersionedAnalysisResultToFile) key =
      if key ∈ r.written then r.vPtD key else ∅ := by
  have hlines : ∀ l ∈ (r.written.map fun ov => ptsLine (versionText ov) (r.vPtD ov)) ++
      [endOfVersions], '\n' ∉ l := by
    intro l hl
    rcases List.mem_append.mp hl with hl | hl
    · obtain ⟨ov, -, rfl⟩ := List.mem_map.mp hl
      exact notMem_ptsLine (notMem_versionText (by decide) (by decide))
    · rw [List.mem_singleton.mp hl]
      decide
  have hsplit := lines_unlines hlines []
  rw [List.append_nil, List.append_assoc, List.singleton_append] at hsplit
  rw [VersionedFlowSensitive.writeVersionedAnalysisResultToFile, hsplit,
    read_lines r (fun ov => written_le r), foldl_unionPts]
  split
  · exact empty_union _
  · rfl

/-- The key is in one of the version maps, which have canonical objects for keys, or there
is nothing to write for it. -/
def Kept (key : NodeID × Version) : Prop :=
  r.vPtD key = ∅ ∨ ∃ lov ∈ r.consume ++ r.yield, key ∈ lov

theorem read_eq_iff (key : NodeID × Version) :
    readVersionedAnalysisResultFromFile (fun _ => ∅)
        (lines r.writeVersionedAnalysisResultToFile) key = r.vPtD key ↔ Kept r key := by
  rw [read_written]
  have hmem : key ∈ r.written ↔ (∃ lov ∈ r.consume ++ r.yield, key ∈ lov) ∧ r.vPtD key ≠ ∅ := by
    simp only [VersionedFlowSensitive.written, List.mem_flatMap, List.mem_filter, decide_eq_true_eq]
    constructor
    · rintro ⟨lov, hlov, hkey, hne⟩
      exact ⟨⟨lov, hlov, hkey⟩, hne⟩
    · rintro ⟨⟨lov, hlov, hkey⟩, hne⟩
      exact ⟨lov, hlov, hkey, hne⟩
  by_cases hempty : r.vPtD key = ∅
  · rw [hempty, ite_self]
    exact iff_of_true rfl (.inl hempty)
  · by_cases hlov : ∃ lov ∈ r.consume ++ r.yield, key ∈ lov
    · rw [if_pos (hmem.mpr ⟨hlov, hempty⟩)]
      exact iff_of_true rfl (.inr hlov)
    · rw [if_neg fun h => hlov (hmem.mp h).1]
      exact iff_of_false (fun h => hempty h.symm) fun h => h.elim hempty hlov

end

/-- All versions are restored if and only if every object that has a version with a
points-to set is a canonical one, for which the version maps have the version. -/
theorem versions_restored_iff (r : VersionedFlowSensitive) :
    (∀ l o, (r.getConsume l o ≠ invalidVersion →
        readVersionedAnalysisResultFromFile (fun _ => ∅)
          (lines r.writeVersionedAnalysisResultToFile) (o, r.getConsume l o) =
            r.vPtD (o, r.getConsume l o)) ∧
      (r.getYield l o ≠ invalidVersion →
        readVersionedAnalysisResultFromFile (fun _ => ∅)
          (lines r.writeVersionedAnalysisResultToFile) (o, r.getYield l o) =
            r.vPtD (o, r.getYield l o))) ↔
    ∀ l o, (r.getConsume l o ≠ invalidVersion → Kept r (o, r.getConsume l o)) ∧
      (r.getYield l o ≠ invalidVersion → Kept r (o, r.getYield l o)) := by
  simp only [read_eq_iff]

/-- `2` is of the class of `1`, and consumes a version of its own points-to set. -/
def sample : VersionedFlowSensitive where
  consume := [[(1, 1)]]
  yield := []
  equivalentObject o := if o = 2 then some 1 else none
  isStore _ := false
  vPtD key := if key = (2, 1) then PointsTo.set ∅ 5 else ∅
  versions_le := by decide
  pts_le key n hn := by
    split at hn
    · rw [mem_set] at hn
      rcases hn with hn | rfl
      · exact absurd hn (notMem_empty n)
      · decide
    · exact absurd hn (notMem_empty n)

theorem sample_not_restored : sample.getConsume 0 2 ≠ invalidVersion ∧
    readVersionedAnalysisResultFromFile (fun _ => ∅)
        (lines sample.writeVersionedAnalysisResultToFile) (2, sample.getConsume 0 2) ≠
      sample.vPtD (2, sample.getConsume 0 2) := by
  decide +kernel

end SVF.WPA.VersionedResult
