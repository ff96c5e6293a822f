import SVF.Graphs.SVFGFile

namespace SVF.Graphs.SVFGLines

open MemoryModel.PointsToSets MemoryModel.PtsLines MSSA.MRVerText Util.TextFiles SVFGFile

theorem atoi_number {n : ℕ} (hn : n ≤ maxID) (s : Text) (hs : ∀ d ∈ s.head?, d.isDigit = false) :
    atoi (number n ++ s) = n := by
  rw [maxID] at hn
  rw [atoi, extractInt_number n s hs, Option.getD_some]
  omega

theorem atoi_number_nil {n : ℕ} (hn : n ≤ maxID) : atoi (number n) = n := by
  have h := atoi_number hn [] (by simp)
  rwa [List.append_nil] at h

theorem numberAfter_found (key pre post : Text) {n : ℕ} {c : Char} (hn : n ≤ maxID) (hkey : c ∈ key)
    (hpre : c ∉ pre) (hpost : ∀ d ∈ post.head?, d.isDigit = false) :
    numberAfter key (pre ++ key ++ (number n ++ post)) = some n := by
  rw [numberAfter, find_of_mem hkey hpre]
  have hpos : after (some pre.length) key.length = (pre ++ key).length := List.length_append.symm
  rw [hpos, between_end, Option.map_some, atoi_number hn post hpost]

theorem splitLine_parts {delimiter : Text} {c : Char} (hc : c ∈ delimiter) {parts : List Text}
    {rest : Text} (hparts : ∀ part ∈ parts, c ∉ part) (hrest : c ∉ rest) {fuel : ℕ}
    (hfuel : parts.length ≤ fuel) :
    splitLine delimiter fuel (parts.flatMap (· ++ delimiter) ++ rest) = (parts, rest) := by
  induction parts generalizing fuel with
  | nil =>
      cases fuel with
      | zero => rfl
      | succ fuel =>
          rw [List.flatMap_nil, List.nil_append, splitLine, find_eq_none hc hrest]
  | cons part parts ih =>
      obtain ⟨hpart, hparts'⟩ := List.forall_mem_cons.mp hparts
      cases fuel with
      | zero => exact absurd hfuel (Nat.not_succ_le_zero _)
      | succ fuel =>
          have hnext := ih hparts' (Nat.le_of_succ_le_succ hfuel)
          have hsplit : (part :: parts).flatMap (· ++ delimiter) ++ rest =
              part ++ delimiter ++ (parts.flatMap (· ++ delimiter) ++ rest) := by
            rw [List.flatMap_cons, List.append_assoc]
          have hdrop : (part ++ delimiter ++ (parts.flatMap (· ++ delimiter) ++ rest)).drop
              (part.length + delimiter.length) = parts.flatMap (· ++ delimiter) ++ rest := by
            rw [← List.length_append, List.drop_left]
          have htake : (part ++ delimiter ++ (parts.flatMap (· ++ delimiter) ++ rest)).take
              part.length = part := by
            rw [List.append_assoc, List.take_left]
          rw [hsplit, splitLine, find_of_mem hc hpart]
          simp only [hdrop, hnext, htake]

/-- The characters that the text of a version does not have. -/
theorem notMem_text {c : Char} (hdigit : c.isDigit = false) (hsign : c ≠ '-')
    (hc : c ∉ "MRVERID: MemRegion: pts\x7b\x7d MRVERSION: MSSADef: , ".toList) (v : MRVer) :
    c ∉ v.text := by
  simp at hc
  have hdump := fun pts => notMem_dumpStr hdigit hsign (by simp [hc]) pts
  unfold MRVer.text
  simp [notMem_number hdigit, hdump, hc]

theorem notMem_opVersText {c : Char} (hdigit : c.isDigit = false) (hsign : c ≠ '-')
    (hc : c ∉ " >= OPVers: \x7b\x7d,MRVERID: MemRegion: pts\x7b\x7d MRVERSION: MSSADef: , ".toList)
    (opvers : OPVers) : c ∉ opVersText opvers := by
  simp at hc
  have htext := fun v => notMem_text hdigit hsign (by simp [hc]) v
  unfold opVersText
  simp [htext, hc]

theorem notMem_nodeText {c : Char} (hdigit : c.isDigit = false) (hsign : c ≠ '-')
    (hc : c ∉ "SVFGNodeID: >= MVER: \x7b \x7d ICFGNodeIDMRVERID: MemRegion: pts\x7b\x7d MRVERSION: MSSADef: , ".toList)
    {type : String} (htype : c ∉ type.toList) (nodeId : NodeID) (ver : MRVer) (icfgNode : NodeID) :
    c ∉ nodeText nodeId type ver icfgNode := by
  simp at hc
  have htext := notMem_text hdigit hsign (by simp [hc]) ver
  unfold nodeText
  simp [notMem_number hdigit, htext, hc, htype]

section

variable {nodeId : NodeID} {type : String} {ver : MRVer} {icfgNode : NodeID}

/-- The parts of the line of a node, before what comes after the version. -/
def nodeParts (nodeId : NodeID) (type : String) (ver : MRVer) : List Text :=
  ["SVFGNodeID: ".toList ++ number nodeId, type.toList,
    "MVER: \x7b".toList ++ ver.text ++ "\x7d".toList]

def icfgText (icfgNode : NodeID) : Text := "ICFGNodeID: ".toList ++ number icfgNode

theorem nodeText_eq : nodeText nodeId type ver icfgNode =
    (nodeParts nodeId type ver).flatMap (· ++ " >= ".toList) ++ icfgText icfgNode := by
  unfold nodeText nodeParts icfgText
  simp

theorem notMem_icfgText {c : Char} (hdigit : c.isDigit = false) (hc : c ∉ "ICFGNodeID: ".toList) :
    c ∉ icfgText icfgNode := by
  simp at hc
  unfold icfgText
  simp [notMem_number hdigit, hc]

theorem notMem_nodeParts (htype : '>' ∉ type.toList) :
    ∀ part ∈ nodeParts nodeId type ver, '>' ∉ part := by
  have htext : '>' ∉ ver.text := notMem_text (c := '>') rfl (by decide) (by decide) ver
  have hnumber : '>' ∉ number nodeId := notMem_number rfl
  unfold nodeParts
  simp [htype, htext, hnumber]

theorem splitLine_nodeText (htype : '>' ∉ type.toList) :
    splitLine " >= ".toList (nodeText nodeId type ver icfgNode).length
      (nodeText nodeId type ver icfgNode) =
        (nodeParts nodeId type ver, icfgText icfgNode) := by
  rw [nodeText_eq]
  apply splitLine_parts (c := '>') (by decide) (notMem_nodeParts htype)
    (notMem_icfgText rfl (by decide))
  unfold nodeParts
  simp

def opVersPart (opvers : OPVers) : Text :=
  "OPVers: \x7b".toList ++
    (opvers.flatMap (fun x => "\x7b".toList ++ x.2.text ++ "\x7d,".toList) ++ "\x7d".toList)

theorem notMem_opVersPart (opvers : OPVers) : '>' ∉ opVersPart opvers := by
  have htext : ∀ v : MRVer, '>' ∉ v.text := notMem_text (c := '>') rfl (by decide) (by decide)
  unfold opVersPart
  simp [htext]

theorem splitLine_phiText (htype : '>' ∉ type.toList) (opvers : OPVers) :
    splitLine " >= ".toList (nodeText nodeId type ver icfgNode ++ opVersText opvers).length
      (nodeText nodeId type ver icfgNode ++ opVersText opvers) =
        (nodeParts nodeId type ver ++ [icfgText icfgNode], opVersPart opvers) := by
  have hsplit : nodeText nodeId type ver icfgNode ++ opVersText opvers =
      (nodeParts nodeId type ver ++ [icfgText icfgNode]).flatMap (· ++ " >= ".toList) ++
        opVersPart opvers := by
    rw [nodeText_eq]
    unfold opVersText opVersPart
    simp
  rw [hsplit]
  apply splitLine_parts (c := '>') (by decide) _ (notMem_opVersPart opvers)
  · unfold nodeParts
    simp
  · intro part hpart
    rcases List.mem_append.mp hpart with h | h
    · exact notMem_nodeParts htype part h
    · rw [List.mem_singleton.mp h]
      exact notMem_icfgText rfl (by decide)

theorem numberAfter_nodeID (hid : nodeId ≤ maxID) :
    numberAfter "SVFGNodeID: ".toList ("SVFGNodeID: ".toList ++ number nodeId) = some nodeId := by
  have h := numberAfter_found "SVFGNodeID: ".toList [] [] (c := 'S') hid (by decide) (by simp)
    (by simp)
  simpa using h

theorem numberAfter_icfgText (hid : icfgNode ≤ maxID) :
    numberAfter "ICFGNodeID: ".toList (icfgText icfgNode) = some icfgNode := by
  have h := numberAfter_found "ICFGNodeID: ".toList [] [] (c := 'C') hid (by decide) (by simp)
    (by simp)
  unfold icfgText
  simpa using h

theorem numberAfter_nodeText (htype : 'C' ∉ type.toList) (hid : icfgNode ≤ maxID) :
    numberAfter "ICFGNodeID: ".toList (nodeText nodeId type ver icfgNode) = some icfgNode := by
  have hpre : 'C' ∉ (nodeParts nodeId type ver).flatMap (· ++ " >= ".toList) := by
    have htext : 'C' ∉ ver.text := notMem_text (c := 'C') rfl (by decide) (by decide) ver
    have hnumber : 'C' ∉ number nodeId := notMem_number rfl
    unfold nodeParts
    simp [htype, htext, hnumber]
  have h := numberAfter_found "ICFGNodeID: ".toList _ [] hid (by decide) hpre (by simp)
  rw [List.append_nil, List.append_assoc] at h
  rw [nodeText_eq]
  exact h

theorem getMRVERFromString_part (hv : Fits ver) (totalVERNum : ℕ) :
    getMRVERFromString totalVERNum ("MVER: \x7b".toList ++ ver.text ++ "\x7d".toList) =
      some (ver.restored totalVERNum) :=
  getMRVERFromString_text hv (by simp) (by simp) totalVERNum

end

theorem getMRVERFromString_operand {v : MRVer} (hv : Fits v) (totalVERNum : ℕ) :
    getMRVERFromString totalVERNum v.text = some (v.restored totalVERNum) := by
  have h : getMRVERFromString totalVERNum ([] ++ v.text ++ []) = some (v.restored totalVERNum) :=
    getMRVERFromString_text hv (by simp) (by simp) totalVERNum
  simpa using h

def restoredOPVers (totalVERNum : ℕ) : ℕ → OPVers → OPVers
  | _, [] => []
  | index, op :: ops =>
      (index, op.2.restored totalVERNum) :: restoredOPVers (totalVERNum + 1) (index + 1) ops

def operandsText (ops : OPVers) : Text :=
  ops.flatMap (fun x => "\x7b".toList ++ x.2.text ++ "\x7d,".toList) ++ "\x7d".toList

/-- The first brace before a comma is the one that closes the operand. -/
theorem find_close {lead : Text} (hlead : '\x7d' ∉ lead) (v : MRVer) (rest : Text) :
    find "\x7d,".toList (lead ++ "\x7b".toList ++ v.text ++ "\x7d".toList ++ ',' :: rest) =
      some (lead ++ "\x7b".toList ++ v.text).length := by
  have hfirst : '\x7d' ∉ lead ++ "\x7b".toList ++ v.start ++ "MemRegion: pts\x7b".toList ++
      dumpObjects v.mr := by
    have hobjects : '\x7d' ∉ dumpObjects v.mr := notMem_dumpObjects rfl (by decide) (by decide) _
    have hstart : '\x7d' ∉ v.start := notMem_start rfl (by decide) v
    simp [hlead, hobjects, hstart]
  have hsecond : '\x7d' ∉ " MRVERSION: ".toList ++ number v.version ++ " MSSADef: ".toList ++
      number v.ssaDef.type.toNat ++ ", pts\x7b".toList ++ dumpObjects v.ssaDef.mr := by
    have hobjects : '\x7d' ∉ dumpObjects v.ssaDef.mr :=
      notMem_dumpObjects rfl (by decide) (by decide) _
    have hnumber : ∀ n, '\x7d' ∉ number n := fun n => notMem_number rfl
    simp [hobjects, hnumber]
  have htext : v.text = v.start ++ "MemRegion: pts\x7b".toList ++ dumpObjects v.mr ++
      '\x7d' :: (" MRVERSION: ".toList ++ number v.version ++ " MSSADef: ".toList ++
        number v.ssaDef.type.toNat ++ ", pts\x7b".toList ++ dumpObjects v.ssaDef.mr ++ ['\x7d']) := by
    unfold MRVer.text MRVer.start dumpStr
    simp
  generalize hseg : " MRVERSION: ".toList ++ number v.version ++ " MSSADef: ".toList ++
    number v.ssaDef.type.toNat ++ ", pts\x7b".toList ++ dumpObjects v.ssaDef.mr = seg at hsecond htext
  obtain ⟨seg', rfl⟩ : ∃ seg', seg = ' ' :: seg' := by
    rw [← hseg]
    exact ⟨_, rfl⟩
  have hsplit : lead ++ "\x7b".toList ++ v.text ++ "\x7d".toList ++ ',' :: rest =
      (lead ++ "\x7b".toList ++ v.start ++ "MemRegion: pts\x7b".toList ++ dumpObjects v.mr) ++
        '\x7d' :: ' ' :: (seg' ++ '\x7d' :: '\x7d' :: ',' :: rest) := by
    rw [htext]
    simp
  have hpattern : "\x7d,".toList = ['\x7d', ','] := rfl
  rw [hsplit, hpattern, find_pair_skip hfirst (by decide), ← List.cons_append,
    find_pair_skip hsecond (by decide), htext]
  have hlast : find ['\x7d', ','] ('\x7d' :: ',' :: rest) = some 0 := find_start _ rest
  rw [hlast]
  simp only [Option.map_some, List.length_append, List.length_cons, List.length_nil]
  exact congrArg some (by omega)

/-- What is left of the text of the operands, before or after the comma of the last one read. -/
theorem readOPVers_operands {ops : OPVers} (hops : ∀ op ∈ ops, Fits op.2) {fuel : ℕ}
    (hfuel : ops.length < fuel) (totalVERNum index : ℕ) {lead : Text} (hlead : lead = [] ∨ lead = [','])
    (hne : ops = [] → lead = [',']) :
    readOPVers fuel totalVERNum index (lead ++ operandsText ops) =
      some (restoredOPVers totalVERNum index ops) := by
  induction ops generalizing fuel totalVERNum index lead with
  | nil =>
      cases fuel with
      | zero => exact absurd hfuel (Nat.not_lt_zero _)
      | succ fuel =>
          rw [hne rfl, readOPVers, if_pos (by rfl)]
          rfl
  | cons op ops ih =>
      obtain ⟨hop, hrest⟩ := List.forall_mem_cons.mp hops
      cases fuel with
      | zero => exact absurd hfuel (Nat.not_lt_zero _)
      | succ fuel =>
          have hlength : ops.length < fuel := Nat.lt_of_succ_lt_succ hfuel
          have hnext := ih hrest hlength (totalVERNum + 1) (index + 1) (.inr rfl) fun _ => rfl
          have hopen : '\x7b' ∉ lead := by
            rcases hlead with rfl | rfl <;> decide
          have hclose : '\x7d' ∉ lead := by
            rcases hlead with rfl | rfl <;> decide
          have hsplit : lead ++ operandsText (op :: ops) =
              lead ++ "\x7b".toList ++ op.2.text ++ "\x7d".toList ++ ',' :: operandsText ops := by
            unfold operandsText
            simp
          have hlast := find_close hclose op.2 (operandsText ops)
          have hfirst : find "\x7b".toList (lead ++ "\x7b".toList ++ op.2.text ++ "\x7d".toList ++
              ',' :: operandsText ops) = some lead.length := by
            rw [List.append_assoc _ op.2.text, List.append_assoc _ (op.2.text ++ "\x7d".toList)]
            exact find_of_mem (c := '\x7b') (by decide) hopen
          have hnot : lead ++ "\x7b".toList ++ op.2.text ++ "\x7d".toList ++ ',' :: operandsText ops ≠
              ",\x7d".toList := by
            intro heq
            have hmem : '\x7b' ∈ lead ++ "\x7b".toList ++ op.2.text ++ "\x7d".toList ++
                ',' :: operandsText ops := by simp
            rw [heq] at hmem
            exact absurd hmem (by decide)
          have hpos : after (some lead.length) 1 = (lead ++ "\x7b".toList).length := by
            rw [List.length_append]
            rfl
          have hmiddle : between (lead ++ "\x7b".toList ++ op.2.text ++ "\x7d".toList ++
              ',' :: operandsText ops) (lead ++ "\x7b".toList).length
                (some (lead ++ "\x7b".toList ++ op.2.text).length) = some op.2.text := by
            rw [List.append_assoc _ "\x7d".toList]
            exact between_middle _ _ _
          have hdrop : (lead ++ "\x7b".toList ++ op.2.text ++ "\x7d".toList ++
              ',' :: operandsText ops).drop (after (some (lead ++ "\x7b".toList ++ op.2.text).length) 1) =
                [','] ++ operandsText ops := by
            have hend : after (some (lead ++ "\x7b".toList ++ op.2.text).length) 1 =
                (lead ++ "\x7b".toList ++ op.2.text ++ "\x7d".toList).length := by
              change (lead ++ "\x7b".toList ++ op.2.text).length + "\x7d".toList.length = _
              exact List.length_append.symm
            rw [hend, List.drop_left]
            rfl
          rw [hsplit, readOPVers, if_neg hnot]
          simp only [hlast, hfirst, hpos, hmiddle, hdrop, hnext, Option.bind_eq_bind, Option.bind_some,
            getMRVERFromString_operand hop]
          rfl

/-- The first comma before a brace is the last one. -/
theorem find_end {ops : OPVers} (hne : ops ≠ []) {lead : Text} (hlead : ',' ∉ lead) :
    find ",\x7d".toList (lead ++ operandsText ops) =
      some ((lead ++ operandsText ops).length - 2) := by
  induction ops generalizing lead with
  | nil => contradiction
  | cons op ops ih =>
      obtain ⟨front, back, hfront, hback, htext⟩ : ∃ front back, ',' ∉ front ∧ ',' ∉ back ∧
          op.2.text = front ++ ',' :: ' ' :: back := by
        have hobjects : ∀ pts, ',' ∉ dumpObjects pts := notMem_dumpObjects rfl (by decide) (by decide)
        have hnumber : ∀ n, ',' ∉ number n := fun n => notMem_number rfl
        refine ⟨"MRVERID: ".toList ++ number op.2.vid ++ " MemRegion: pts\x7b".toList ++
          dumpObjects op.2.mr ++ "\x7d MRVERSION: ".toList ++ number op.2.version ++
          " MSSADef: ".toList ++ number op.2.ssaDef.type.toNat,
          "pts\x7b".toList ++ dumpObjects op.2.ssaDef.mr ++ "\x7d".toList, ?_, ?_, ?_⟩
        · simp [hobjects, hnumber]
        · simp [hobjects]
        · unfold MRVer.text dumpStr
          simp
      have hsplit : lead ++ operandsText (op :: ops) = (lead ++ "\x7b".toList ++ front) ++
          ',' :: ' ' :: (back ++ "\x7d".toList ++ ',' :: operandsText ops) := by
        have hcons : operandsText (op :: ops) =
            "\x7b".toList ++ op.2.text ++ "\x7d".toList ++ ',' :: operandsText ops := by
          unfold operandsText
          simp
        rw [hcons, htext]
        simp
      have hfirst : ',' ∉ lead ++ "\x7b".toList ++ front := by simp [hlead, hfront]
      have hsecond : ',' ∉ ' ' :: (back ++ "\x7d".toList) := by simp [hback]
      have hpattern : ",\x7d".toList = [',', '\x7d'] := rfl
      rw [hsplit, hpattern, find_pair_skip hfirst (by decide), ← List.cons_append]
      cases ops with
      | nil =>
          have hlast : find [',', '\x7d'] (' ' :: (back ++ "\x7d".toList) ++ [',', '\x7d'] ++ []) = _ :=
            find_of_mem (c := ',') (by decide) hsecond
          rw [List.append_nil] at hlast
          have hnil : (',' :: operandsText [] : Text) = [',', '\x7d'] := rfl
          rw [hnil, hlast]
          simp only [Option.map_some, List.length_append, List.length_cons, List.length_nil]
          exact congrArg some (by omega)
      | cons op' ops =>
          have hnil : ',' ∉ ([] : Text) := List.not_mem_nil
          have hnext := ih (List.cons_ne_nil op' ops) hnil
          rw [List.nil_append, hpattern] at hnext
          obtain ⟨rest, hrest⟩ : ∃ rest, operandsText (op' :: ops) = '\x7b' :: rest := by
            unfold operandsText
            exact ⟨_, rfl⟩
          have hlong : 2 ≤ (operandsText (op' :: ops)).length := by
            unfold operandsText
            simp
            omega
          rw [hrest] at hnext hlong ⊢
          rw [find_pair_skip hsecond (by decide), hnext]
          simp only [Option.map_some, List.length_append, List.length_cons] at hlong ⊢
          exact congrArg some (by omega)

theorem opVersOf_opVersPart {ops : OPVers} (hne : ops ≠ []) (hops : ∀ op ∈ ops, Fits op.2)
    (totalVERNum : ℕ) :
    opVersOf totalVERNum (opVersPart ops) = some (restoredOPVers totalVERNum 0 ops) := by
  have hsplit : opVersPart ops = "OPVers: \x7b".toList ++ operandsText ops := rfl
  have hopen : '\x7b' ∉ "OPVers: ".toList := by decide
  have hcomma : ',' ∉ "OPVers: \x7b".toList := by decide
  have hfirst : find "\x7b".toList (opVersPart ops) = some 8 := find_of_mem (by decide) hopen
  have hend := find_end hne hcomma
  rw [← hsplit] at hend
  have hlength : (opVersPart ops).length = 9 + (operandsText ops).length := by
    rw [hsplit, List.length_append]
    rfl
  have htemp : substr (opVersPart ops) (after (find "\x7b".toList (opVersPart ops)) 1)
      (find ",\x7d".toList (opVersPart ops)) = operandsText ops := by
    have hdrop : (opVersPart ops).drop 9 = operandsText ops := rfl
    rw [hfirst, hend, hlength]
    change ((opVersPart ops).drop 9).take _ = _
    rw [hdrop, List.take_of_length_le (by omega)]
  have hmany : ops.length < (operandsText ops).length + 1 := by
    have hle : ∀ l : OPVers, l.length ≤
        (l.flatMap (fun x => "\x7b".toList ++ x.2.text ++ "\x7d,".toList)).length := by
      intro l
      induction l with
      | nil => exact Nat.zero_le _
      | cons op l ih =>
          rw [List.flatMap_cons, List.length_append, List.length_append, List.length_cons]
          have hpos : 0 < "\x7d,".toList.length := by decide
          omega
    have := hle ops
    unfold operandsText
    rw [List.length_append]
    omega
  have hread := readOPVers_operands hops hmany totalVERNum 0 (.inl rfl) fun h => absurd h hne
  rw [opVersOf, htemp]
  exact hread

section

variable {um : UnorderedMap} {prog : Program} {g : SVFG}

def restoredNode (um : UnorderedMap) (prog : Program) (totalVERNum : ℕ) : MSSANode → MSSANode
  | .FormalINSVFGNode funEntry ver => .FormalINSVFGNode funEntry (ver.restored totalVERNum)
  | .FormalOUTSVFGNode funExit ver => .FormalOUTSVFGNode funExit (ver.restored totalVERNum)
  | .ActualINSVFGNode cs ver => .ActualINSVFGNode cs (ver.restored totalVERNum)
  | .ActualOUTSVFGNode cs ver => .ActualOUTSVFGNode cs (ver.restored totalVERNum)
  | .MSSAPHISVFGNode icfgNode ver opVers =>
      .MSSAPHISVFGNode (prog.front icfgNode) (ver.restored totalVERNum)
        (um.iterate (um.iterate (restoredOPVers (totalVERNum + 1) 0 (um.iterate opVers))))

def operands : MSSANode → OPVers
  | .MSSAPHISVFGNode _ _ opVers => opVers
  | _ => []

def IsPhi : MSSANode → Prop
  | .MSSAPHISVFGNode _ _ _ => True
  | _ => False

def versions (um : UnorderedMap) : MSSANode → ℕ
  | .MSSAPHISVFGNode _ _ opVers => 1 + (um.iterate opVers).length
  | _ => 1

structure Readable (um : UnorderedMap) (prog : Program) (node : NodeID × MSSANode) : Prop where
  id : node.1 ≤ maxID
  ver : Fits node.2.getMRVer
  ops : ∀ op ∈ um.iterate (operands node.2), Fits op.2
  formalIn : ∀ funEntry ver, node.2 = .FormalINSVFGNode funEntry ver →
    funEntry ≤ maxID ∧ prog.isFunEntryICFGNode funEntry = true
  formalOut : ∀ funExit ver, node.2 = .FormalOUTSVFGNode funExit ver →
    funExit ≤ maxID ∧ prog.isFunExitICFGNode funExit = true
  actualIn : ∀ cs ver, node.2 = .ActualINSVFGNode cs ver →
    cs ≤ maxID ∧ prog.isCallICFGNode cs = true
  actualOut : ∀ cs ver, node.2 = .ActualOUTSVFGNode cs ver →
    cs ≤ maxID ∧ prog.isCallICFGNode cs = true
  phi : ∀ icfgNode ver opVers, node.2 = .MSSAPHISVFGNode icfgNode ver opVers →
    prog.front icfgNode ≤ maxID ∧ prog.hasICFGNode (prog.front icfgNode) = true
  front : ∀ icfgNode ver opVers, node.2 = .MSSAPHISVFGNode icfgNode ver opVers →
    prog.front icfgNode = icfgNode

def bumped (id totalVFGNode : ℕ) : ℕ := if totalVFGNode < id then id + 1 else totalVFGNode

def withBumped (id : ℕ) (g : SVFG) : SVFG := { g with totalVFGNode := bumped id g.totalVFGNode }

theorem withBumped_eq (id : ℕ) (g : SVFG) :
    (if g.totalVFGNode < id then { g with totalVFGNode := id + 1 } else g) = withBumped id g := by
  rw [withBumped, bumped]
  split <;> rfl

def withVersions (n : ℕ) (g : SVFG) : SVFG := { g with totalVERNum := g.totalVERNum + n }

theorem readNode_parts {line basicBlock : Text} {type : String} {ver : MRVer} {nodeId : NodeID}
    {parts : List Text} {rest : Text} (hid : nodeId ≤ maxID) (hver : Fits ver)
    (hsplit : splitLine " >= ".toList line.length line = (nodeParts nodeId type ver ++ parts, rest))
    (hblock : parts.getD 0 [] = basicBlock) :
    readNode um prog g line = (addReadNode um prog (withVersions 1 g) line type.toList basicBlock
      rest nodeId (ver.restored g.totalVERNum)).map (withBumped nodeId) := by
  have hMR : "MVER: \x7b".toList ++ ver.text ++ "\x7d".toList ≠ [] := by simp
  unfold readNode
  rw [hsplit]
  simp only [nodeParts, List.cons_append, List.nil_append, List.getD_cons_zero, List.getD_cons_succ,
    numberAfter_nodeID hid, if_neg hMR, getMRVERFromString_part hver, Option.bind_eq_bind,
    Option.bind_some, hblock, withBumped_eq]
  rw [Option.map_eq_bind]
  rfl

theorem readNode_nodeText {type : String} {ver : MRVer} {nodeId icfgNode : NodeID}
    (htype : '>' ∉ type.toList) (hid : nodeId ≤ maxID) (hver : Fits ver) :
    readNode um prog g (nodeText nodeId type ver icfgNode) =
      (addReadNode um prog (withVersions 1 g) (nodeText nodeId type ver icfgNode) type.toList []
        (icfgText icfgNode) nodeId (ver.restored g.totalVERNum)).map (withBumped nodeId) := by
  have hsplit : splitLine " >= ".toList (nodeText nodeId type ver icfgNode).length
      (nodeText nodeId type ver icfgNode) =
        (nodeParts nodeId type ver ++ [], icfgText icfgNode) := splitLine_nodeText htype
  exact readNode_parts hid hver hsplit rfl

theorem readNode_phiText {ver : MRVer} {nodeId icfgNode : NodeID} (ops : OPVers)
    (hid : nodeId ≤ maxID) (hver : Fits ver) :
    readNode um prog g (nodeText nodeId "PHISVFGNode" ver icfgNode ++ opVersText ops) =
      (addReadNode um prog (withVersions 1 g)
        (nodeText nodeId "PHISVFGNode" ver icfgNode ++ opVersText ops) "PHISVFGNode".toList
        (icfgText icfgNode) (opVersPart ops) nodeId (ver.restored g.totalVERNum)).map
          (withBumped nodeId) :=
  readNode_parts hid hver (splitLine_phiText (by decide) ops) rfl

def HasOperands (um : UnorderedMap) (node : MSSANode) : Prop :=
  IsPhi node → um.iterate (operands node) ≠ []

theorem restoredOPVers_length (ops : OPVers) (totalVERNum index : ℕ) :
    (restoredOPVers totalVERNum index ops).length = ops.length := by
  induction ops generalizing totalVERNum index with
  | nil => rfl
  | cons op ops ih => rw [restoredOPVers, List.length_cons, List.length_cons, ih]

theorem readNode_nodeLine {node : NodeID × MSSANode} (h : Readable um prog node)
    (hops : HasOperands um node.2) : readNode um prog g (nodeLine um prog node) =
      ((withVersions (versions um node.2) g).addMSSANode node.1
        (restoredNode um prog g.totalVERNum node.2)).map (withBumped node.1) := by
  obtain ⟨nodeId, node⟩ := node
  cases node with
  | FormalINSVFGNode funEntry ver =>
      obtain ⟨hle, hkind⟩ := h.formalIn funEntry ver rfl
      have htype : '>' ∉ "FormalINSVFGNode".toList := by decide
      have hread : readNode um prog g (nodeText nodeId "FormalINSVFGNode" ver funEntry) = _ :=
        readNode_nodeText htype h.id h.ver
      refine hread.trans (congrArg (Option.map (withBumped nodeId)) ?_)
      rw [addReadNode, if_pos rfl, numberAfter_nodeText (by decide) hle,
        Option.bind_some, if_pos hkind]
      rfl
  | FormalOUTSVFGNode funExit ver =>
      obtain ⟨hle, hkind⟩ := h.formalOut funExit ver rfl
      have htype : '>' ∉ "FormalOUTSVFGNode".toList := by decide
      have hread : readNode um prog g (nodeText nodeId "FormalOUTSVFGNode" ver funExit) = _ :=
        readNode_nodeText htype h.id h.ver
      refine hread.trans (congrArg (Option.map (withBumped nodeId)) ?_)
      rw [addReadNode, if_neg (by decide), if_pos rfl, numberAfter_nodeText (by decide) hle,
        Option.bind_some, if_pos hkind]
      rfl
  | ActualINSVFGNode cs ver =>
      obtain ⟨hle, hkind⟩ := h.actualIn cs ver rfl
      have htype : '>' ∉ "ActualINSVFGNode".toList := by decide
      have hread : readNode um prog g (nodeText nodeId "ActualINSVFGNode" ver cs) = _ :=
        readNode_nodeText htype h.id h.ver
      refine hread.trans (congrArg (Option.map (withBumped nodeId)) ?_)
      rw [addReadNode, if_neg (by decide), if_neg (by decide), if_pos rfl, numberAfter_nodeText (by decide) hle,
        Option.bind_some, if_pos hkind]
      rfl
  | ActualOUTSVFGNode cs ver =>
      obtain ⟨hle, hkind⟩ := h.actualOut cs ver rfl
      have htype : '>' ∉ "ActualOUTSVFGNode".toList := by decide
      have hread : readNode um prog g (nodeText nodeId "ActualOUTSVFGNode" ver cs) = _ :=
        readNode_nodeText htype h.id h.ver
      refine hread.trans (congrArg (Option.map (withBumped nodeId)) ?_)
      rw [addReadNode, if_neg (by decide), if_neg (by decide), if_neg (by decide), if_pos rfl, numberAfter_nodeText (by decide) hle,
        Option.bind_some, if_pos hkind]
      rfl
  | MSSAPHISVFGNode icfgNode ver opVers =>
      obtain ⟨hle, hkind⟩ := h.phi icfgNode ver opVers rfl
      have hread : readNode um prog g (nodeText nodeId "PHISVFGNode" ver (prog.front icfgNode) ++
          opVersText (um.iterate opVers)) = _ := readNode_phiText (um.iterate opVers) h.id h.ver
      refine hread.trans (congrArg (Option.map (withBumped nodeId)) ?_)
      have hopers := opVersOf_opVersPart (hops trivial) h.ops (g.totalVERNum + 1)
      rw [addReadNode, if_neg (by decide), if_neg (by decide), if_neg (by decide), if_neg (by decide),
        if_pos rfl]
      change (opVersOf (g.totalVERNum + 1) (opVersPart (um.iterate opVers))).bind _ = _
      change opVersOf (g.totalVERNum + 1) (opVersPart (um.iterate opVers)) = _ at hopers
      rw [hopers, Option.bind_some, numberAfter_icfgText hle, Option.bind_eq_bind, Option.bind_some,
        if_pos hkind, restoredOPVers_length]
      rw [withVersions, withVersions, versions, Nat.add_assoc]
      rfl

/-- The loop over the operands fails on a phi that has none. -/
theorem readNode_nodeLine_eq_none {node : NodeID × MSSANode} (h : Readable um prog node)
    (hops : ¬ HasOperands um node.2) : readNode um prog g (nodeLine um prog node) = none := by
  obtain ⟨nodeId, node⟩ := node
  rw [HasOperands, Classical.not_imp, not_not] at hops
  obtain ⟨hphi, hnil⟩ := hops
  cases node with
  | FormalINSVFGNode => exact hphi.elim
  | FormalOUTSVFGNode => exact hphi.elim
  | ActualINSVFGNode => exact hphi.elim
  | ActualOUTSVFGNode => exact hphi.elim
  | MSSAPHISVFGNode icfgNode ver opVers =>
      have hread : readNode um prog g (nodeText nodeId "PHISVFGNode" ver (prog.front icfgNode) ++
          opVersText (um.iterate opVers)) = _ := readNode_phiText (um.iterate opVers) h.id h.ver
      refine hread.trans ?_
      change um.iterate opVers = [] at hnil
      rw [addReadNode, if_neg (by decide), if_neg (by decide), if_neg (by decide), if_neg (by decide),
        if_pos rfl, hnil]
      rfl

theorem notMem_nodeLine {c : Char} (hdigit : c.isDigit = false) (hsign : c ≠ '-')
    (hc : c ∉ "SVFGNodeID: >= MVER: \x7b \x7d ICFGNodeIDMRVERID: MemRegion: pts\x7b\x7d MRVERSION: MSSADef: , ".toList)
    (hops : c ∉ " >= OPVers: \x7b\x7d,MRVERID: MemRegion: pts\x7b\x7d MRVERSION: MSSADef: , ".toList)
    (htype : ∀ type ∈ ["FormalINSVFGNode", "FormalOUTSVFGNode", "ActualINSVFGNode",
      "ActualOUTSVFGNode", "PHISVFGNode"], c ∉ type.toList) (node : NodeID × MSSANode) :
    c ∉ nodeLine um prog node := by
  simp only [List.forall_mem_cons] at htype
  obtain ⟨hfin, hfout, hain, haout, hphi, -⟩ := htype
  obtain ⟨nodeId, node⟩ := node
  cases node with
  | FormalINSVFGNode => exact notMem_nodeText hdigit hsign hc hfin _ _ _
  | FormalOUTSVFGNode => exact notMem_nodeText hdigit hsign hc hfout _ _ _
  | ActualINSVFGNode => exact notMem_nodeText hdigit hsign hc hain _ _ _
  | ActualOUTSVFGNode => exact notMem_nodeText hdigit hsign hc haout _ _ _
  | MSSAPHISVFGNode icfgNode ver opVers =>
      change c ∉ nodeText nodeId "PHISVFGNode" ver (prog.front icfgNode) ++
        opVersText (um.iterate opVers)
      rw [List.mem_append, not_or]
      exact ⟨notMem_nodeText hdigit hsign hc hphi _ _ _, notMem_opVersText hdigit hsign hops _⟩

theorem newline_nodeLine (node : NodeID × MSSANode) : '\n' ∉ nodeLine um prog node :=
  notMem_nodeLine rfl (by decide) (by decide) (by decide) (by decide) node

theorem find_nodeLine (node : NodeID × MSSANode) :
    find "__Edges__".toList (nodeLine um prog node) = none :=
  find_eq_none (c := '_') (by decide)
    (notMem_nodeLine rfl (by decide) (by decide) (by decide) (by decide) node)

theorem nodeText_ne_nil {nodeId icfgNode : NodeID} {type : String} {ver : MRVer} :
    nodeText nodeId type ver icfgNode ≠ [] := by
  unfold nodeText
  simp

theorem nodeLine_ne_nil (node : NodeID × MSSANode) : nodeLine um prog node ≠ [] := by
  obtain ⟨nodeId, node⟩ := node
  cases node with
  | FormalINSVFGNode => exact nodeText_ne_nil
  | FormalOUTSVFGNode => exact nodeText_ne_nil
  | ActualINSVFGNode => exact nodeText_ne_nil
  | ActualOUTSVFGNode => exact nodeText_ne_nil
  | MSSAPHISVFGNode => exact fun h => nodeText_ne_nil (List.append_eq_nil_iff.mp h).1

end

section

variable {prog : Program} {g : SVFG} {src dst : NodeID}

def endsText (src dst : NodeID) : Text :=
  "srcSVFGNodeID: ".toList ++ number src ++ " => ".toList ++ "dstSVFGNodeID: ".toList ++ number dst

theorem edgeText_eq (src dst : NodeID) (attributes : Text) :
    edgeText src dst attributes = endsText src dst ++ " >= ".toList ++ attributes := by
  unfold edgeText endsText
  simp

theorem find_edgeText (src dst : NodeID) (attributes : Text) :
    find " >= ".toList (edgeText src dst attributes) = some (endsText src dst).length := by
  have hfirst : '>' ∉ "srcSVFGNodeID: ".toList ++ number src ++ " =".toList := by
    have hnumber : '>' ∉ number src := notMem_number rfl
    simp [hnumber]
  have hsecond : '>' ∉ " dstSVFGNodeID: ".toList ++ number dst := by
    have hnumber : '>' ∉ number dst := notMem_number rfl
    simp [hnumber]
  have hsplit : edgeText src dst attributes =
      ("srcSVFGNodeID: ".toList ++ number src ++ " =".toList) ++
        '>' :: ' ' :: ("dstSVFGNodeID: ".toList ++ number dst ++ " >= ".toList ++ attributes) := by
    unfold edgeText
    simp
  have hskip : find (' ' :: '>' :: '=' :: [' ']) (edgeText src dst attributes) =
      (find (' ' :: '>' :: '=' :: [' '])
        (' ' :: ("dstSVFGNodeID: ".toList ++ number dst ++ " >= ".toList ++ attributes))).map
          (· + (("srcSVFGNodeID: ".toList ++ number src ++ " =".toList).length + 1)) := by
    rw [hsplit]
    exact find_inner_skip hfirst (by decide) (by decide)
  have hlast : find (' ' :: '>' :: '=' :: [' '])
      (' ' :: ("dstSVFGNodeID: ".toList ++ number dst ++ " >= ".toList ++ attributes)) =
        some (" dstSVFGNodeID: ".toList ++ number dst).length :=
    find_of_mem (c := '>') (by decide) hsecond
  change find (' ' :: '>' :: '=' :: [' ']) (edgeText src dst attributes) = _
  rw [hskip, hlast]
  unfold endsText
  simp only [Option.map_some, List.length_append]
  have hlength : " dstSVFGNodeID: ".toList.length + (" =".toList.length + 1) =
      " => ".toList.length + "dstSVFGNodeID: ".toList.length := by decide
  exact congrArg some (by omega)

theorem src_endsText (hsrc : src ≤ maxID) :
    (between (endsText src dst) (after (find "srcSVFGNodeID: ".toList (endsText src dst)) 15)
      (find " => ".toList (endsText src dst))).map atoi = some src := by
  have hkey : '=' ∉ [] ++ "srcSVFGNodeID: ".toList ++ number src := by
    have hnumber : '=' ∉ number src := notMem_number rfl
    simp [hnumber]
  have hstart : 's' ∉ ([] : Text) := List.not_mem_nil
  have hends : endsText src dst = [] ++ "srcSVFGNodeID: ".toList ++ number src ++ " => ".toList ++
      ("dstSVFGNodeID: ".toList ++ number dst) := by
    unfold endsText
    simp
  have hfound := between_found hends (c := 's') (by decide) hstart (by decide) hkey
  change between (endsText src dst)
    (after (find "srcSVFGNodeID: ".toList (endsText src dst)) 15) _ = _ at hfound
  rw [hfound, Option.map_some, atoi_number_nil hsrc]

theorem dst_endsText (hdst : dst ≤ maxID) :
    numberAfter "dstSVFGNodeID: ".toList (endsText src dst) = some dst := by
  have hpre : 't' ∉ "srcSVFGNodeID: ".toList ++ number src ++ " => ".toList := by
    have hnumber : 't' ∉ number src := notMem_number rfl
    simp [hnumber]
  have h := numberAfter_found "dstSVFGNodeID: ".toList _ [] hdst (by decide) hpre (by simp)
  rw [List.append_nil] at h
  exact h

theorem readEdge_edgeText (hsrc : src ≤ maxID) (hdst : dst ≤ maxID) (attributes : Text) :
    readEdge prog g (edgeText src dst attributes) =
      match find " | ".toList attributes with
      | none => addReadEdge prog g src dst attributes []
      | some next => addReadEdge prog g src dst (attributes.take next) (attributes.drop (next + 3)) := by
  have hedge : substr (edgeText src dst attributes) 0 (some (endsText src dst).length) =
      endsText src dst := by
    rw [edgeText_eq, List.append_assoc]
    simp [substr]
  have hattributes : between (edgeText src dst attributes)
      (after (some (endsText src dst).length) 4) none = some attributes := by
    have hpos : after (some (endsText src dst).length) 4 =
        (endsText src dst ++ " >= ".toList).length := by
      rw [List.length_append]
      rfl
    rw [hpos, edgeText_eq]
    exact between_end _ _
  unfold readEdge
  -- the two sides may still differ in the auxiliary definition of their match
  simp only [find_edgeText, hedge, hattributes, Option.bind_eq_bind, Option.bind_some,
    src_endsText hsrc, dst_endsText hdst] <;> rfl

theorem readEdge_use {type : String} {ver : MRVer} (hsrc : src ≤ maxID) (hdst : dst ≤ maxID)
    (htype : '|' ∉ type.toList) :
    readEdge prog g (edgeText src dst
        (type.toList ++ " | MVER: \x7b".toList ++ ver.text ++ "\x7d".toList)) =
      addReadEdge prog g src dst type.toList
        ("MVER: \x7b".toList ++ ver.text ++ "\x7d".toList) := by
  have hattributes : type.toList ++ " | MVER: \x7b".toList ++ ver.text ++ "\x7d".toList =
      type.toList ++ " | ".toList ++ ("MVER: \x7b".toList ++ ver.text ++ "\x7d".toList) := by
    simp
  rw [readEdge_edgeText hsrc hdst, hattributes, find_of_mem (c := '|') (by decide) htype]
  have hdrop : (type.toList ++ " | ".toList ++ ("MVER: \x7b".toList ++ ver.text ++ "\x7d".toList)).drop
      (type.toList.length + 3) = "MVER: \x7b".toList ++ ver.text ++ "\x7d".toList := by
    have hpos : type.toList.length + 3 = (type.toList ++ " | ".toList).length := by
      rw [List.length_append]
      rfl
    rw [hpos, List.drop_left]
  have htake : (type.toList ++ " | ".toList ++ ("MVER: \x7b".toList ++ ver.text ++ "\x7d".toList)).take
      type.toList.length = type.toList := by
    rw [List.append_assoc, List.take_left]
  simp only [hdrop, htake]

end

end SVF.Graphs.SVFGLines
