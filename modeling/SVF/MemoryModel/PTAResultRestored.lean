import SVF.MemoryModel.PTAResultFile

namespace SVF.MemoryModel.PTAResultRestored

open PointsToSets PtsLines PTAResultFile PTAState Util.TextFiles Util.DefaultMaps

/-- A state whose field objects are those of the map, with values that have the sizes
of their types. -/
structure ValidState extends PTAState where
  node_some : ∀ n ∈ nodes.keys, nodes.get n ≠ none
  gep_some : ∀ k ∈ gepObjVarMap.keys, gepObjVarMap.get k ≠ none
  gep_node : ∀ k id, gepObjVarMap.get k = some id →
    nodes.get id = some (.gepObjVar k.1 k.2) ∧ nodes.get k.1 = some .baseObjVar
  node_gep : ∀ id b o, nodes.get id = some (.gepObjVar b o) → gepObjVarMap.get (b, o) = some id
  nodes_le : ∀ n ∈ nodes.keys, n ≤ maxID
  offsets_le : ∀ k ∈ gepObjVarMap.keys, k.2 ≤ maxOffset
  pts_le : ∀ var, ∀ n ∈ pts var, n ≤ maxID

namespace ValidState

variable {s : ValidState}

theorem mem_nodes {n : NodeID} {node : PAGNode} (h : s.nodes.get n = some node) :
    n ∈ s.nodes.keys := by
  by_contra hn
  rw [s.nodes.get_absent n hn] at h
  contradiction

theorem mem_geps {k : NodeID × APOffset} {id : NodeID} (h : s.gepObjVarMap.get k = some id) :
    k ∈ s.gepObjVarMap.keys := by
  by_contra hk
  rw [s.gepObjVarMap.get_absent k hk] at h
  contradiction

theorem mem_baseObjects {n : NodeID} :
    n ∈ baseObjects s.toPTAState ↔ s.nodes.get n = some .baseObjVar := by
  rw [baseObjects, List.mem_eraseDups, List.mem_filterMap]
  constructor
  · rintro ⟨m, -, hm⟩
    rw [getBaseObject] at hm
    split at hm
    · rename_i hbase
      cases hm
      exact hbase
    · split at hm
      · rename_i hbase
        cases hm
        exact hbase
      · contradiction
    · contradiction
  · intro h
    exact ⟨n, mem_nodes h, by rw [getBaseObject, h]⟩

end ValidState

/-- The one state is that of a run on the same program, from where the other may be reached. -/
structure Starts (start final : ValidState) : Prop where
  nodes : ∀ n node, start.nodes.get n = some node → final.nodes.get n = some node
  geps : ∀ k id, start.gepObjVarMap.get k = some id → final.gepObjVarMap.get k = some id
  insensitive : ∀ n, final.nodes.get n = some .baseObjVar → start.fieldInsensitive n = true →
    final.fieldInsensitive n = true
  pts : ∀ var, ∀ n ∈ start.pts var, n ∈ final.pts var

section

variable {w s : PTAState} {n : NodeID} {rest : List Text} {delimiterStr : Text}

theorem objVarLine_ne (hdelim : ' ' ∉ delimiterStr) :
    objVarLine w n ≠ [] ∧ objVarLine w n ≠ delimiterStr := by
  have hspace : ' ' ∈ objVarLine w n := by simp [objVarLine]
  refine ⟨fun h => ?_, fun h => hdelim (h ▸ hspace)⟩
  rw [h] at hspace
  exact List.not_mem_nil hspace

theorem readAndSet_line (hn : n ≤ maxID) (hdelim : ' ' ∉ delimiterStr) :
    readAndSetObjFieldSensitivity delimiterStr (objVarLine w n :: rest) s =
      if w.fieldInsensitive n = true then
        (s.setObjFieldInsensitive n).bind (readAndSetObjFieldSensitivity delimiterStr rest)
      else readAndSetObjFieldSensitivity delimiterStr rest s := by
  have hbit : ∀ b : ℕ, b ≤ maxID → extract maxID 0 (number n ++ ' ' :: number b) =
      (n, some (' ' :: number b)) ∧ extract maxID 0 (' ' :: number b) = (b, none) := by
    intro b hb
    have hlast := extract_number hb 0 [] (by simp)
    rw [List.append_nil] at hlast
    rw [extract_number hn 0 _ (by simp), if_neg (List.cons_ne_nil _ _), extract_space, hlast]
    exact ⟨rfl, rfl⟩
  obtain ⟨hnil, hne⟩ := objVarLine_ne (w := w) (n := n) hdelim
  rw [readAndSetObjFieldSensitivity, if_neg (not_or.mpr ⟨hnil, hne⟩)]
  cases hw : w.fieldInsensitive n with
  | true =>
      have hline : objVarLine w n = number n ++ ' ' :: number 1 := by
        have hdigit : number 1 = ['1'] := rfl
        rw [hdigit]
        simp [objVarLine, hw]
      obtain ⟨hfirst, hsecond⟩ := hbit 1 (by decide)
      rw [hline, hfirst]
      simp only [Option.elim_some, hsecond]
      rfl
  | false =>
      have hline : objVarLine w n = number n ++ ' ' :: number 0 := by
        have hdigit : number 0 = ['0'] := rfl
        rw [hdigit]
        simp [objVarLine, hw]
      obtain ⟨hfirst, hsecond⟩ := hbit 0 (by decide)
      rw [hline, hfirst]
      simp only [Option.elim_some, hsecond]
      rfl

def mark (w : PTAState) (bases : List NodeID) (s : PTAState) : PTAState :=
  { s with fieldInsensitive := fun n =>
      s.fieldInsensitive n || (decide (n ∈ bases) && w.fieldInsensitive n) }

theorem setObjFieldInsensitive_base (h : s.nodes.get n = some .baseObjVar) :
    s.setObjFieldInsensitive n =
      some { s with fieldInsensitive := Function.update s.fieldInsensitive n true } := by
  rw [setObjFieldInsensitive, getBaseObject, h]
  rfl

theorem readAndSet_lines {bases : List NodeID} (hdelim : ' ' ∉ delimiterStr)
    (hle : ∀ n ∈ bases, n ≤ maxID)
    (hknown : ∀ n ∈ bases, w.fieldInsensitive n = true → s.nodes.get n = some .baseObjVar)
    (rest : List Text) : readAndSetObjFieldSensitivity delimiterStr (bases.map (objVarLine w) ++ rest) s =
      readAndSetObjFieldSensitivity delimiterStr rest (mark w bases s) := by
  induction bases generalizing s with
  | nil => simp [mark]
  | cons n bases ih =>
      rw [List.map_cons, List.cons_append, readAndSet_line (hle n List.mem_cons_self) hdelim]
      have hle' := fun m hm => hle m (List.mem_cons_of_mem n hm)
      have hknown' := fun m hm => hknown m (List.mem_cons_of_mem n hm)
      split
      · rename_i hw
        rw [setObjFieldInsensitive_base (hknown n List.mem_cons_self hw), Option.bind_some,
          ih (s := { s with fieldInsensitive := Function.update s.fieldInsensitive n true }) hle'
            hknown']
        congr 1
        simp only [mark]
        congr 1
        funext m
        by_cases hm : m = n
        · subst hm
          simp [hw]
        · simp [hm]
      · rename_i hw
        rw [ih hle' hknown']
        congr 1
        simp only [mark]
        congr 1
        funext m
        by_cases hm : m = n
        · subst hm
          simp [hw]
        · simp [hm]

theorem known_of_readAndSet {bases : List NodeID} (hdelim : ' ' ∉ delimiterStr)
    (hle : ∀ n ∈ bases, n ≤ maxID)
    (hkinds : ∀ n ∈ bases, s.nodes.get n = some .baseObjVar ∨ s.nodes.get n = none)
    (h : readAndSetObjFieldSensitivity delimiterStr (bases.map (objVarLine w) ++ rest) s ≠ none) :
    ∀ n ∈ bases, w.fieldInsensitive n = true → s.nodes.get n = some .baseObjVar := by
  induction bases generalizing s with
  | nil => exact fun n hn => absurd hn List.not_mem_nil
  | cons n bases ih =>
      rw [List.map_cons, List.cons_append, readAndSet_line (hle n List.mem_cons_self) hdelim] at h
      have hle' := fun m hm => hle m (List.mem_cons_of_mem n hm)
      have hkinds' := fun m hm => hkinds m (List.mem_cons_of_mem n hm)
      by_cases hw : w.fieldInsensitive n = true
      · rw [if_pos hw] at h
        rcases hkinds n List.mem_cons_self with hn | hn
        · rw [setObjFieldInsensitive_base hn, Option.bind_some] at h
          exact List.forall_mem_cons.mpr ⟨fun _ => hn, ih (s := { s with
            fieldInsensitive := Function.update s.fieldInsensitive n true }) hle' hkinds' h⟩
        · rw [setObjFieldInsensitive, getBaseObject, hn] at h
          exact absurd rfl h
      · rw [if_neg hw] at h
        exact List.forall_mem_cons.mpr ⟨fun htrue => absurd htrue hw, ih hle' hkinds' h⟩

end

section

variable {pts : NodeID → PointsTo} {m : PtsMaps} {rest : List Text}

theorem atoi_number {n : NodeID} (hn : n ≤ maxID) : atoi (number n) = n := by
  have hskip : (number n).dropWhile isSpace = number n := by
    cases hnum : number n with
    | nil => rfl
    | cons d ds =>
        have hd : d.isDigit = true := isDigit_of_mem_number (hnum ▸ List.mem_cons_self)
        rw [List.dropWhile_cons, isSpace_of_isDigit hd]
        rfl
  have htake := (takeWhile_number (n := n) [] (by simp)).1
  have hvalue : Nat.ofDigitChars 10 (number n) 0 = n := Nat.ofDigitChars_ten_toDigits
  have hlt : n < 2 ^ 32 := Nat.lt_of_le_of_lt hn (by decide)
  rw [List.append_nil] at htake
  rw [atoi, hskip, htake, hvalue, Nat.min_eq_left (hlt.le.trans (by decide)), Nat.mod_eq_of_lt hlt]

def addVar (pts : NodeID → PointsTo) (m : PtsMaps) (var : NodeID) : PtsMaps :=
  if pts var = ∅ then m else m.insert var (objsText (pts var))

theorem notMem_number_dash (n : ℕ) : '-' ∉ number n := notMem_number (by decide)

theorem ptsLine_number (var : NodeID) (set : PointsTo) : ∃ c line,
    ptsLine (number var) set = c :: line ∧ c.isDigit = true := by
  cases hnum : number var with
  | nil => exact absurd hnum number_ne_nil
  | cons d ds =>
      exact ⟨d, ds ++ delimiter1 ++ (writePts set ++ ['\x7d']), by rw [ptsLine]; rfl,
        isDigit_of_mem_number (hnum ▸ List.mem_cons_self)⟩

theorem readPtsLines_line {var : NodeID} (hvar : var ≤ maxID) :
    readPtsLines (ptsLine (number var) (pts var) :: rest) m =
      readPtsLines rest (addVar pts m var) := by
  have hobjs : objsOf (ptsLine (number var) (pts var)) =
      some ((number var).length, objsText (pts var)) := objsOf_ptsLine (notMem_number_dash var)
  have htake : (ptsLine (number var) (pts var)).take (number var).length = number var := by
    simp [ptsLine]
  obtain ⟨c, line, hline, hc⟩ := ptsLine_number var (pts var)
  have hdigit : ∀ l : Text, (∀ d ∈ l.head?, d.isDigit = false) → c :: line ≠ l := by
    intro l hl heq
    have hhead : c ∈ l.head? := heq ▸ rfl
    exact Bool.false_ne_true ((hl c hhead).symm.trans hc)
  have hbracket : c ≠ '[' := by
    intro heq
    rw [heq] at hc
    exact absurd hc (by decide)
  rw [hline] at hobjs htake ⊢
  rw [readPtsLines, if_neg (not_or.mpr ⟨hbracket, hdigit _ (by rintro d ⟨⟩; rfl)⟩),
    if_neg (hdigit _ (by rintro d ⟨⟩; rfl)), hobjs]
  dsimp only
  rw [htake, atoi_number hvar, addVar]
  simp only [objsText_eq_nil_iff]

theorem readPtsLines_lines {vars : List NodeID} (hvars : ∀ var ∈ vars, var ≤ maxID) :
    readPtsLines ((vars.map fun var => ptsLine (number var) (pts var)) ++ separator :: rest) m =
      some (vars.foldl (addVar pts) m, rest) := by
  induction vars generalizing m with
  | nil =>
      have hsep : separator = '-' :: ['-', '-', '-', '-', '-'] := rfl
      rw [List.map_nil, List.nil_append, hsep, readPtsLines,
        if_neg (by decide), ← hsep, if_pos rfl]
      rfl
  | cons var vars ih =>
      obtain ⟨hvar, hrest⟩ := List.forall_mem_cons.mp hvars
      rw [List.map_cons, List.cons_append, readPtsLines_line hvar]
      exact ih hrest

structure PtsRead (pts : NodeID → PointsTo) (done : List NodeID) (m : PtsMaps) : Prop where
  node : ∀ var, m.nodePtsMap var =
    if var ∈ done ∧ pts var ≠ ∅ then some (objsText (pts var)) else none
  str : ∀ var ∈ done, pts var ≠ ∅ → (m.strPtsMap (objsText (pts var))).isSome
  parsed : ∀ objs set, m.strPtsMap objs = some set → set = setAll (extractAll maxID objs)

theorem PtsRead.insert {done : List NodeID} (h : PtsRead pts done m) {var : NodeID}
    (hne : pts var ≠ ∅) : PtsRead pts (var :: done) (m.insert var (objsText (pts var))) where
  node := by
    intro v
    by_cases hv : v = var
    · subst hv
      simp [PtsMaps.insert, hne]
    · simp [PtsMaps.insert, hv, h.node]
  str := by
    intro v hv hvne
    rw [PtsMaps.insert]
    dsimp only
    by_cases hsome : (m.strPtsMap (objsText (pts var))).isSome = true
    · rw [if_pos hsome]
      rcases List.mem_cons.mp hv with rfl | hv
      · exact hsome
      · exact h.str v hv hvne
    · rw [if_neg hsome]
      by_cases htext : objsText (pts v) = objsText (pts var)
      · rw [htext, Function.update_self]
        rfl
      · rw [Function.update_of_ne htext]
        refine h.str v ((List.mem_cons.mp hv).resolve_left fun heq => htext (heq ▸ rfl)) hvne
  parsed := by
    intro objs set hset
    rw [PtsMaps.insert] at hset
    dsimp only at hset
    split at hset
    · exact h.parsed objs set hset
    · by_cases hobjs : objs = objsText (pts var)
      · rw [hobjs, Function.update_self] at hset
        rw [hobjs, Option.some.inj hset]
      · rw [Function.update_of_ne hobjs] at hset
        exact h.parsed objs set hset

theorem PtsRead.addVar {done : List NodeID} (h : PtsRead pts done m) (var : NodeID) :
    PtsRead pts (var :: done) (addVar pts m var) := by
  rw [PTAResultRestored.addVar]
  by_cases hempty : pts var = ∅
  · rw [if_pos hempty]
    refine ⟨fun v => ?_, fun v hv hne => ?_, h.parsed⟩
    · by_cases hv : v = var
      · subst hv
        rw [h.node]
        simp [hempty]
      · rw [h.node]
        simp [hv]
    · refine h.str v ((List.mem_cons.mp hv).resolve_left fun heq => hne (heq ▸ hempty)) hne
  · rw [if_neg hempty]
    exact h.insert hempty

theorem ptsRead_foldl {done : List NodeID} (h : PtsRead pts done m) (vars : List NodeID) :
    ∃ all : List NodeID, (∀ v, v ∈ all ↔ v ∈ vars ∨ v ∈ done) ∧
      PtsRead pts all (vars.foldl (PTAResultRestored.addVar pts) m) := by
  induction vars generalizing m done with
  | nil => exact ⟨done, by simp, h⟩
  | cons var vars ih =>
      obtain ⟨all, hall, hread⟩ := ih (h.addVar var)
      refine ⟨all, fun v => ?_, hread⟩
      rw [hall, List.mem_cons, List.mem_cons]
      tauto

theorem readPtsResultFromFile_lines {vars : List NodeID} (hvars : ∀ var ∈ vars, var ≤ maxID)
    (hpts : ∀ var, ∀ n ∈ pts var, n ≤ maxID) (s : PTAState) (rest : List Text) :
    readPtsResultFromFile ((vars.map fun var => ptsLine (number var) (pts var)) ++
        separator :: rest) s =
      some ({ s with pts := fun var =>
        if var ∈ vars then s.pts var ∪ pts var else s.pts var }, rest) := by
  have hstart : PtsRead pts [] ⟨fun _ => none, fun _ => none⟩ :=
    ⟨fun _ => by simp, fun _ h => absurd h List.not_mem_nil, fun _ _ h => nomatch h⟩
  obtain ⟨all, hall, hread⟩ := ptsRead_foldl hstart vars
  rw [readPtsResultFromFile, readPtsLines_lines hvars, Option.map_some]
  have hset : ∀ var, ((vars.foldl (addVar pts) ⟨fun _ => none, fun _ => none⟩).nodePtsMap var).elim
      (s.pts var) (fun objs => s.pts var ∪
        ((vars.foldl (addVar pts) ⟨fun _ => none, fun _ => none⟩).strPtsMap objs).getD ∅) =
      if var ∈ vars then s.pts var ∪ pts var else s.pts var := by
    intro var
    have hmem : var ∈ all ↔ var ∈ vars := by
      rw [hall]
      simp
    simp only [hread.node, hmem]
    by_cases hvar : var ∈ vars
    · by_cases hempty : pts var = ∅
      · have hsame : s.pts var ∪ ∅ = s.pts var := ext fun n => by simp
        simp [hvar, hempty, hsame]
      · obtain ⟨set, hstr⟩ := Option.isSome_iff_exists.mp
          (hread.str var (hmem.mpr hvar) hempty)
        have hparse := parsePts_objsText (hpts var)
        rw [parsePts, if_neg fun hnil => hempty (objsText_eq_nil_iff.mp hnil)] at hparse
        rw [if_pos ⟨hvar, hempty⟩, if_pos hvar, Option.elim_some, hstr, hread.parsed _ _ hstr, hparse]
        rfl
    · simp [hvar]
  simp only [hset]

end

section

variable {start final : ValidState} {s : PTAState} {rest : List Text}

theorem gepObjVarLine_ne (k : NodeID × APOffset) :
    gepObjVarLine final.toPTAState k ≠ separator := by
  have hspace : ' ' ∈ gepObjVarLine final.toPTAState k := by simp [gepObjVarLine]
  exact fun h => absurd (h ▸ hspace) (by decide)

theorem readGepObjVar_line {k : NodeID × APOffset} {id : NodeID}
    (h : final.gepObjVarMap.get k = some id) (gepObjVarMap : NodeID × APOffset → Option NodeID) :
    readGepObjVar gepObjVarMap (gepObjVarLine final.toPTAState k) s =
      if gepObjVarMap k = none then
        (s.getBaseObject k.1).bind fun obj => s.addGepObjNode obj k.2 id
      else some s := by
  have hnode := final.gep_node k id h
  have hbase := final.nodes_le k.1 (ValidState.mem_nodes hnode.2)
  have hoffset := final.offsets_le k (ValidState.mem_geps h)
  have hid := final.nodes_le id (ValidState.mem_nodes hnode.1)
  have hline : gepObjVarLine final.toPTAState k =
      number k.1 ++ ' ' :: (number k.2 ++ ' ' :: number id) := by
    simp [gepObjVarLine, h]
  have hlast := extract_number hid 0 [] (by simp)
  rw [List.append_nil] at hlast
  have hfirst : extract maxID 0 (number k.1 ++ ' ' :: (number k.2 ++ ' ' :: number id)) =
      (k.1, some (' ' :: (number k.2 ++ ' ' :: number id))) := by
    rw [extract_number hbase 0 _ (by simp), if_neg (List.cons_ne_nil _ _)]
  have hsecond : extract maxOffset 0 (' ' :: (number k.2 ++ ' ' :: number id)) =
      (k.2, some (' ' :: number id)) := by
    rw [extract_space, extract_number hoffset 0 _ (by simp), if_neg (List.cons_ne_nil _ _)]
  have hthird : extract maxID 0 (' ' :: number id) = (id, none) := by
    rw [extract_space, hlast]
    rfl
  rw [readGepObjVar, hline]
  simp only [hfirst, Option.elim_some, hsecond, hthird]

/-- The field objects `done` have been read, and nothing else has happened. -/
structure GepsRead (start final : ValidState) (done : List (NodeID × APOffset)) (s₀ s : PTAState) :
    Prop where
  geps : ∀ k, s.gepObjVarMap.get k =
    if k ∈ done then final.gepObjVarMap.get k else start.gepObjVarMap.get k
  bases : ∀ n, final.nodes.get n = some .baseObjVar → s.nodes.get n = start.nodes.get n
  nodes : ∀ k ∈ done, ∀ id, final.gepObjVarMap.get k = some id →
    s.nodes.get id = some (.gepObjVar k.1 k.2)
  kept : ∀ n node, start.nodes.get n = some node → s.nodes.get n = some node
  insensitive : s.fieldInsensitive = s₀.fieldInsensitive
  pts : s.pts = s₀.pts

variable {done : List (NodeID × APOffset)} {s₀ : PTAState} {k : NodeID × APOffset} {id : NodeID}

theorem GepsRead.old (h : GepsRead start final done s₀ s) (hstarts : Starts start final)
    (hk : final.gepObjVarMap.get k = some id) (hold : start.gepObjVarMap.get k ≠ none) :
    GepsRead start final (k :: done) s₀ s where
  geps := by
    intro k'
    rw [h.geps]
    by_cases hk' : k' = k
    · subst hk'
      obtain ⟨id', hid'⟩ := Option.ne_none_iff_exists'.mp hold
      simp [hid', hstarts.geps k' id' hid']
    · simp [hk']
  bases := h.bases
  nodes := by
    intro k' hk' id' hid'
    rcases List.mem_cons.mp hk' with rfl | hmem
    · obtain ⟨id'', hid''⟩ := Option.ne_none_iff_exists'.mp hold
      have heq := (hstarts.geps k' id'' hid'').symm.trans hid'
      rw [← Option.some.inj heq]
      exact h.kept _ _ (start.gep_node k' id'' hid'').1
    · exact h.nodes k' hmem id' hid'
  kept := h.kept
  insensitive := h.insensitive
  pts := h.pts

theorem GepsRead.new (h : GepsRead start final done s₀ s) (hstarts : Starts start final)
    (hk : final.gepObjVarMap.get k = some id) (hnew : start.gepObjVarMap.get k = none)
    (hdone : k ∉ done) :
    ∃ t, s.addGepObjNode k.1 k.2 id = some t ∧ GepsRead start final (k :: done) s₀ t := by
  have hnone : s.gepObjVarMap.get (k.1, k.2) = none := by
    rw [h.geps, if_neg hdone]
    exact hnew
  have hnode := (final.gep_node k id hk).1
  refine ⟨_, if_pos hnone, ?_⟩
  exact {
    geps := by
      intro k'
      change (s.gepObjVarMap.set (k.1, k.2) (some id)).get k' = _
      rw [get_set, h.geps]
      by_cases hk' : k' = k
      · subst hk'
        simp [hk]
      · simp [hk']
    bases := by
      intro n hn
      have hne : n ≠ id := by
        intro heq
        rw [heq, hnode] at hn
        simp at hn
      exact (get_set_of_ne _ _ hne).trans (h.bases n hn)
    nodes := by
      intro k' hk' id' hid'
      change (s.nodes.set id _).get id' = _
      by_cases heq : id' = id
      · subst heq
        rw [get_set_self]
        exact hnode.symm.trans (final.gep_node k' id' hid').1
      · rw [get_set_of_ne _ _ heq]
        rcases List.mem_cons.mp hk' with rfl | hmem
        · exact absurd (Option.some.inj (hid'.symm.trans hk)) heq
        · exact h.nodes k' hmem id' hid'
    kept := by
      intro n node hn
      change (s.nodes.set id _).get n = _
      by_cases heq : n = id
      · subst heq
        rw [get_set_self]
        exact hnode.symm.trans (hstarts.nodes n node hn)
      · rw [get_set_of_ne _ _ heq]
        exact h.kept n node hn
    insensitive := h.insensitive
    pts := h.pts }

theorem getBaseObject_base (h : GepsRead start final done s₀ s)
    (hk : final.gepObjVarMap.get k = some id) :
    (start.nodes.get k.1 = some .baseObjVar → s.getBaseObject k.1 = some k.1) ∧
      (start.nodes.get k.1 = none → s.getBaseObject k.1 = none) := by
  have hbase := h.bases k.1 (final.gep_node k id hk).2
  rw [getBaseObject, hbase]
  constructor
  · intro hsome
    rw [hsome]
  · intro hnone
    rw [hnone]

theorem readGeps_lines (hstarts : Starts start final) {keys : List (NodeID × APOffset)}
    (h : GepsRead start final done s₀ s) (hkeys : ∀ k ∈ keys, final.gepObjVarMap.get k ≠ none)
    (hnodup : keys.Nodup) (hdisjoint : ∀ k ∈ keys, k ∉ done)
    (hknown : ∀ k ∈ keys, start.gepObjVarMap.get k = none →
      start.nodes.get k.1 = some .baseObjVar) (rest : List Text) :
    ∃ t, readGepObjVarLines start.gepObjVarMap.get
        (keys.map (gepObjVarLine final.toPTAState) ++ separator :: rest) s = some (t, rest) ∧
      ∃ all : List (NodeID × APOffset), (∀ k ∈ keys, k ∈ all) ∧ done ⊆ all ∧
        GepsRead start final all s₀ t := by
  induction keys generalizing s done with
  | nil =>
      refine ⟨s, ?_, done, fun _ hk => absurd hk List.not_mem_nil, List.Subset.refl _, h⟩
      rw [List.map_nil, List.nil_append, readGepObjVarLines, if_pos rfl]
  | cons k keys ih =>
      obtain ⟨id, hid⟩ := Option.ne_none_iff_exists'.mp (hkeys k List.mem_cons_self)
      obtain ⟨hk, hnodup⟩ := List.nodup_cons.mp hnodup
      have hdone := hdisjoint k List.mem_cons_self
      have hstep : ∃ t, readGepObjVar start.gepObjVarMap.get (gepObjVarLine final.toPTAState k) s =
          some t ∧ GepsRead start final (k :: done) s₀ t := by
        rw [readGepObjVar_line hid]
        by_cases hnew : start.gepObjVarMap.get k = none
        · have hbase := (getBaseObject_base h hid).1 (hknown k List.mem_cons_self hnew)
          rw [if_pos hnew, hbase, Option.bind_some]
          exact h.new hstarts hid hnew hdone
        · rw [if_neg hnew]
          exact ⟨s, rfl, h.old hstarts hid hnew⟩
      obtain ⟨t, ht, hread⟩ := hstep
      obtain ⟨u, hu, all, hall, hsub, hread⟩ := ih hread
        (fun k' hk' => hkeys k' (List.mem_cons_of_mem k hk')) hnodup
        (fun k' hk' => List.not_mem_cons_of_ne_of_not_mem (fun heq => hk (heq ▸ hk'))
          (hdisjoint k' (List.mem_cons_of_mem k hk')))
        (fun k' hk' => hknown k' (List.mem_cons_of_mem k hk'))
      refine ⟨u, ?_, all, fun k' hk' => ?_, fun k' hk' => hsub (List.mem_cons_of_mem k hk'), hread⟩
      · rw [List.map_cons, List.cons_append, readGepObjVarLines, if_neg (gepObjVarLine_ne k), ht]
        exact hu
      · rcases List.mem_cons.mp hk' with rfl | hk'
        · exact hsub List.mem_cons_self
        · exact hall k' hk'

theorem known_of_readGeps (hstarts : Starts start final) {keys : List (NodeID × APOffset)}
    (h : GepsRead start final done s₀ s) (hkeys : ∀ k ∈ keys, final.gepObjVarMap.get k ≠ none)
    (hnodup : keys.Nodup) (hdisjoint : ∀ k ∈ keys, k ∉ done)
    (hsome : readGepObjVarLines start.gepObjVarMap.get
        (keys.map (gepObjVarLine final.toPTAState) ++ separator :: rest) s ≠ none) :
    ∀ k ∈ keys, start.gepObjVarMap.get k = none → start.nodes.get k.1 = some .baseObjVar := by
  induction keys generalizing s done with
  | nil => exact fun k hk => absurd hk List.not_mem_nil
  | cons k keys ih =>
      obtain ⟨id, hid⟩ := Option.ne_none_iff_exists'.mp (hkeys k List.mem_cons_self)
      obtain ⟨hk, hnodup⟩ := List.nodup_cons.mp hnodup
      have hdone := hdisjoint k List.mem_cons_self
      rw [List.map_cons, List.cons_append, readGepObjVarLines, if_neg (gepObjVarLine_ne k),
        readGepObjVar_line hid] at hsome
      have hrest : ∀ t, GepsRead start final (k :: done) s₀ t →
          readGepObjVarLines start.gepObjVarMap.get
            (keys.map (gepObjVarLine final.toPTAState) ++ separator :: rest) t ≠ none →
          ∀ k ∈ keys, start.gepObjVarMap.get k = none →
            start.nodes.get k.1 = some .baseObjVar := fun t ht hne =>
        ih ht (fun k' hk' => hkeys k' (List.mem_cons_of_mem k hk')) hnodup
          (fun k' hk' => List.not_mem_cons_of_ne_of_not_mem (fun heq => hk (heq ▸ hk'))
            (hdisjoint k' (List.mem_cons_of_mem k hk'))) hne
      by_cases hnew : start.gepObjVarMap.get k = none
      · rw [if_pos hnew] at hsome
        have hbase : start.nodes.get k.1 = some .baseObjVar := by
          cases hnode : start.nodes.get k.1 with
          | none =>
              rw [(getBaseObject_base h hid).2 hnode] at hsome
              exact absurd rfl hsome
          | some node =>
              have hsame := hstarts.nodes k.1 node hnode
              rw [(final.gep_node k id hid).2] at hsame
              exact hsame.symm
        rw [(getBaseObject_base h hid).1 hbase, Option.bind_some] at hsome
        obtain ⟨t, ht, hread⟩ := h.new hstarts hid hnew hdone
        rw [ht, Option.bind_some] at hsome
        exact List.forall_mem_cons.mpr ⟨fun _ => hbase, hrest t hread hsome⟩
      · rw [if_neg hnew, Option.bind_some] at hsome
        exact List.forall_mem_cons.mpr ⟨fun hnone => absurd hnone hnew,
          hrest s (h.old hstarts hid hnew) hsome⟩

end

section

structure Restored (final : ValidState) (s : PTAState) : Prop where
  pts : ∀ var ∈ final.nodes.keys, s.pts var = final.pts var
  geps : ∀ id b o, final.nodes.get id = some (.gepObjVar b o) →
    s.nodes.get id = some (.gepObjVar b o) ∧ s.gepObjVarMap.get (b, o) = some id
  insensitive : ∀ n, final.nodes.get n = some .baseObjVar →
    s.fieldInsensitive n = final.fieldInsensitive n

/-- Every object that is insensitive or has a field object is there at the start. -/
def Known (start final : ValidState) : Prop :=
  ∀ n, final.nodes.get n = some .baseObjVar →
    (final.fieldInsensitive n = true ∨ ∃ o id, final.gepObjVarMap.get (n, o) = some id) →
      start.nodes.get n = some .baseObjVar

variable {start final : ValidState}

theorem lines_solveAndwritePtsToFile :
    lines (solveAndwritePtsToFile start.toPTAState final.toPTAState) =
      (baseObjects start.toPTAState).map (objVarLine start.toPTAState) ++ separator ::
        (ptsLines final.toPTAState ++ separator ::
          (final.gepObjVarMap.keys.map (gepObjVarLine final.toPTAState) ++ separator ::
            ((baseObjects final.toPTAState).map (objVarLine final.toPTAState) ++ [[]]))) := by
  have hsep : '\n' ∉ separator := by decide
  have hbit : ∀ b : Bool, '\n' ∉ (if b = true then ['1'] else ['0']) := by decide
  have hobj : ∀ (w : PTAState) (n : NodeID), '\n' ∉ objVarLine w n := by
    intro w n
    have hnumber := notMem_number (n := n) (c := '\n') (by decide)
    have hflag := hbit (w.fieldInsensitive n)
    simp only [objVarLine, List.mem_append, List.mem_singleton, not_or]
    exact ⟨⟨hnumber, by decide⟩, hflag⟩
  have hpts : ∀ l ∈ ptsLines final.toPTAState, '\n' ∉ l := by
    intro l hl
    obtain ⟨var, -, rfl⟩ := List.mem_map.mp hl
    exact notMem_ptsLine (notMem_number (by decide))
  have hgep : ∀ k, '\n' ∉ gepObjVarLine final.toPTAState k := by
    intro k
    have hnumber := fun n => notMem_number (n := n) (c := '\n') (by decide)
    simp only [gepObjVarLine, List.mem_append, List.mem_singleton, not_or]
    exact ⟨⟨⟨⟨hnumber _, by decide⟩, hnumber _⟩, by decide⟩, hnumber _⟩
  have hfirst : ∀ l ∈ (baseObjects start.toPTAState).map (objVarLine start.toPTAState) ++
      [separator], '\n' ∉ l := by
    simp only [List.mem_append, List.mem_map, List.mem_singleton]
    rintro l (⟨n, -, rfl⟩ | rfl)
    · exact hobj _ n
    · exact hsep
  have hsecond : ∀ l ∈ ptsLines final.toPTAState ++ [separator] ++
      final.gepObjVarMap.keys.map (gepObjVarLine final.toPTAState) ++ [separator] ++
        (baseObjects final.toPTAState).map (objVarLine final.toPTAState), '\n' ∉ l := by
    simp only [List.mem_append, List.mem_map, List.mem_singleton]
    rintro l ((((hl | rfl) | ⟨k, -, rfl⟩) | rfl) | ⟨n, -, rfl⟩)
    · exact hpts l hl
    · exact hsep
    · exact hgep k
    · exact hsep
    · exact hobj _ n
  have hlast := lines_unlines hsecond []
  rw [List.append_nil] at hlast
  rw [solveAndwritePtsToFile, writeObjVarToFile, writeToFile, lines_unlines hfirst, hlast]
  simp [lines]

theorem readAndSet_end {delimiterStr line : Text} {rest : List Text} {s : PTAState}
    (h : line = [] ∨ line = delimiterStr) :
    readAndSetObjFieldSensitivity delimiterStr (line :: rest) s = some (s, rest) := by
  rw [readAndSetObjFieldSensitivity, if_pos h]

def loaded (start final : ValidState) : PTAState :=
  { mark start.toPTAState (baseObjects start.toPTAState) start.toPTAState with
    pts := fun var =>
      if var ∈ final.nodes.keys then start.pts var ∪ final.pts var else start.pts var }

theorem readFromFile_eq :
    readFromFile (solveAndwritePtsToFile start.toPTAState final.toPTAState) start.toPTAState =
      (readGepObjVarLines start.gepObjVarMap.get
        (final.gepObjVarMap.keys.map (gepObjVarLine final.toPTAState) ++ separator ::
          ((baseObjects final.toPTAState).map (objVarLine final.toPTAState) ++ [[]]))
        (loaded start final)).bind fun r =>
      (readAndSetObjFieldSensitivity [] r.2 r.1).map Prod.fst := by
  have hbases : ∀ n ∈ baseObjects start.toPTAState,
      start.nodes.get n = some .baseObjVar := fun n => ValidState.mem_baseObjects.mp
  have hfirst := readAndSet_lines (w := start.toPTAState) (s := start.toPTAState)
    (by decide : ' ' ∉ separator)
    (fun n hn => start.nodes_le n (ValidState.mem_nodes (hbases n hn))) (fun n hn _ => hbases n hn)
    (separator :: (ptsLines final.toPTAState ++ separator ::
      (final.gepObjVarMap.keys.map (gepObjVarLine final.toPTAState) ++ separator ::
        ((baseObjects final.toPTAState).map (objVarLine final.toPTAState) ++ [[]]))))
  rw [readAndSet_end (.inr rfl)] at hfirst
  have hsecond := readPtsResultFromFile_lines final.nodes_le final.pts_le
    (mark start.toPTAState (baseObjects start.toPTAState) start.toPTAState)
    (final.gepObjVarMap.keys.map (gepObjVarLine final.toPTAState) ++ separator ::
      ((baseObjects final.toPTAState).map (objVarLine final.toPTAState) ++ [[]]))
  rw [readFromFile, lines_solveAndwritePtsToFile, hfirst]
  simp only [Option.bind_eq_bind, Option.bind_some]
  rw [ptsLines, hsecond]
  simp only [Option.bind_some, readGepObjVarMapFromFile]
  refine congrArg _ (funext fun r => ?_)
  cases readAndSetObjFieldSensitivity [] r.2 r.1 <;> rfl

theorem gepsRead_loaded : GepsRead start final [] (loaded start final) (loaded start final) where
  geps := fun _ => by simp [loaded, mark]
  bases := fun _ _ => rfl
  nodes := fun _ h => absurd h List.not_mem_nil
  kept := fun _ _ h => h
  insensitive := rfl
  pts := rfl

theorem restored_of_known (hstarts : Starts start final) (hknown : Known start final) :
    ∃ s, readFromFile (solveAndwritePtsToFile start.toPTAState final.toPTAState)
      start.toPTAState = some s ∧ Restored final s := by
  have hkeys : ∀ k ∈ final.gepObjVarMap.keys, start.gepObjVarMap.get k = none →
      start.nodes.get k.1 = some .baseObjVar := by
    intro k hk _
    obtain ⟨id, hid⟩ := Option.ne_none_iff_exists'.mp (final.gep_some k hk)
    exact hknown k.1 (final.gep_node k id hid).2 (.inr ⟨k.2, id, hid⟩)
  obtain ⟨t, ht, all, hall, -, hread⟩ := readGeps_lines
    hstarts gepsRead_loaded final.gep_some final.gepObjVarMap.nodup (fun _ _ => List.not_mem_nil)
    hkeys ((baseObjects final.toPTAState).map (objVarLine final.toPTAState) ++ [[]])
  have hbases : ∀ n ∈ baseObjects final.toPTAState, final.nodes.get n = some .baseObjVar :=
    fun n => ValidState.mem_baseObjects.mp
  have hlast := readAndSet_lines (w := final.toPTAState) (s := t)
    (List.not_mem_nil : ' ' ∉ ([] : Text))
    (fun n hn => final.nodes_le n (ValidState.mem_nodes (hbases n hn))) (fun n hn htrue => by
      rw [hread.bases n (hbases n hn)]
      exact hknown n (hbases n hn) (.inl htrue)) [[]]
  rw [readAndSet_end (.inl rfl)] at hlast
  refine ⟨_, by rw [readFromFile_eq, ht, Option.bind_some, hlast, Option.map_some], ?_⟩
  refine ⟨fun var hvar => ?_, fun id b o hnode => ?_, fun n hn => ?_⟩
  · change t.pts var = final.pts var
    rw [hread.pts]
    change (if var ∈ final.nodes.keys then start.pts var ∪ final.pts var else start.pts var) = _
    rw [if_pos hvar]
    exact ext fun n => by
      rw [mem_union]
      exact ⟨fun h => h.elim (hstarts.pts var n) id, .inr⟩
  · have hid := final.node_gep id b o hnode
    have hmem := hall _ (ValidState.mem_geps hid)
    refine ⟨hread.nodes _ hmem id hid, ?_⟩
    change t.gepObjVarMap.get (b, o) = some id
    rw [hread.geps, if_pos hmem, hid]
  · change (t.fieldInsensitive n || (decide (n ∈ baseObjects final.toPTAState) &&
      final.fieldInsensitive n)) = final.fieldInsensitive n
    have hmem := ValidState.mem_baseObjects.mpr hn
    rw [hread.insensitive]
    change ((start.fieldInsensitive n || (decide (n ∈ baseObjects start.toPTAState) &&
      start.fieldInsensitive n)) || _) = _
    have hstart := hstarts.insensitive n hn
    cases hflag : start.fieldInsensitive n with
    | false => simp [hmem]
    | true => simp [hstart hflag]

theorem known_of_restored (hstarts : Starts start final) {s : PTAState}
    (h : readFromFile (solveAndwritePtsToFile start.toPTAState final.toPTAState)
      start.toPTAState = some s) : Known start final := by
  rw [readFromFile_eq] at h
  obtain ⟨⟨t, F⟩, hgeps, hlast⟩ := Option.bind_eq_some_iff.mp h
  have hkeys := known_of_readGeps hstarts gepsRead_loaded final.gep_some
    final.gepObjVarMap.nodup (fun _ _ => List.not_mem_nil) (by rw [hgeps]; simp)
  obtain ⟨t', ht', all, -, -, hread⟩ := readGeps_lines
    hstarts gepsRead_loaded final.gep_some final.gepObjVarMap.nodup (fun _ _ => List.not_mem_nil)
    hkeys ((baseObjects final.toPTAState).map (objVarLine final.toPTAState) ++ [[]])
  rw [hgeps] at ht'
  obtain ⟨rfl, rfl⟩ := Prod.mk.inj (Option.some.inj ht')
  have hbases : ∀ n ∈ baseObjects final.toPTAState, final.nodes.get n = some .baseObjVar :=
    fun n => ValidState.mem_baseObjects.mp
  have hkinds : ∀ n ∈ baseObjects final.toPTAState,
      t.nodes.get n = some .baseObjVar ∨ t.nodes.get n = none := by
    intro n hn
    rw [hread.bases n (hbases n hn)]
    cases hnode : start.nodes.get n with
    | none => exact .inr rfl
    | some node =>
        have hsame := hstarts.nodes n node hnode
        rw [hbases n hn] at hsame
        exact .inl hsame.symm
  have hset := known_of_readAndSet (w := final.toPTAState) (List.not_mem_nil : ' ' ∉ ([] : Text))
    (fun n hn => final.nodes_le n (ValidState.mem_nodes (hbases n hn))) hkinds
    (fun hnone => by rw [hnone] at hlast; contradiction)
  intro n hn hcase
  rcases hcase with htrue | ⟨o, id, hid⟩
  · rw [← hread.bases n hn]
    exact hset n (ValidState.mem_baseObjects.mpr hn) htrue
  · by_cases hnew : start.gepObjVarMap.get (n, o) = none
    · exact hkeys (n, o) (ValidState.mem_geps hid) hnew
    · obtain ⟨id', hid'⟩ := Option.ne_none_iff_exists'.mp hnew
      exact (start.gep_node (n, o) id' hid').2

end

def nodesBefore (known : Bool) : DefaultMap NodeID (Option PAGNode) :=
  let nodes := DefaultMap.empty.set 1 (some .valVar)
  if known then nodes.set 2 (some .baseObjVar) else nodes

/-- The object `2` is of the program, or it is one that the analysis creates. -/
def fresh (known : Bool) : ValidState where
  nodes := nodesBefore known
  gepObjVarMap := .empty
  fieldInsensitive _ := false
  pts _ := ∅
  node_some := by cases known <;> decide
  gep_some := by decide
  gep_node k id h := by simp [DefaultMap.empty] at h
  node_gep id b o h := by
    cases known <;> simp [nodesBefore, get_set, DefaultMap.empty] at h <;> split_ifs at h <;>
      simp at h
  nodes_le := by cases known <;> decide
  offsets_le := by decide
  pts_le var n hn := absurd hn (notMem_empty n)

def solved : ValidState where
  nodes := (nodesBefore true).set 3 (some (.gepObjVar 2 1))
  gepObjVarMap := DefaultMap.empty.set (2, 1) (some 3)
  fieldInsensitive _ := false
  pts var := if var = 1 then PointsTo.set ∅ 3 else ∅
  node_some := by decide
  gep_some := by decide
  gep_node k id h := by
    rw [get_set] at h
    split at h
    · rename_i hk
      cases h
      subst hk
      exact ⟨by decide, by decide⟩
    · contradiction
  node_gep id b o h := by
    simp only [nodesBefore, get_set, DefaultMap.empty, if_true] at h
    split_ifs at h with hid
    · cases h
      rw [hid]
      rfl
    all_goals simp at h
  nodes_le := by decide
  offsets_le := by decide
  pts_le var n hn := by
    split at hn
    · rw [mem_set] at hn
      rcases hn with hn | rfl
      · exact absurd hn (notMem_empty n)
      · decide
    · exact absurd hn (notMem_empty n)

theorem starts_solved (known : Bool) : Starts (fresh known) solved where
  nodes n node h := by
    have hsame : ∀ n ∈ (fresh known).nodes.keys,
        solved.nodes.get n = (fresh known).nodes.get n := by cases known <;> decide
    rw [hsame n (ValidState.mem_nodes h), h]
  geps k id h := by simp [fresh, DefaultMap.empty] at h
  insensitive n _ h := nomatch h
  pts var n hn := absurd hn (notMem_empty n)

end SVF.MemoryModel.PTAResultRestored
