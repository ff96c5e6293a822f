import SVF.Graphs.ClassHierarchy

namespace SVF.Graphs.VTableScan

open ClassHierarchy

variable {F : Type*}

section

def vectors (chg : CHGraph F) (className : Name) : List (List F) :=
  (chg.getNode className).elim [] CHNode.virtualFunctionVectors

structure Adds (className : Name) (new : List (List F)) (chg chg' : CHGraph F) : Prop where
  node : ∀ c, (chg.getNode c).isSome → (chg'.getNode c).isSome
  vectors : ∀ c, vectors chg' c = vectors chg c ++ if c = className then new else []

variable {className : Name} {new new' : List (List F)} {chg chg' chg'' : CHGraph F}

theorem Adds.refl (className : Name) (chg : CHGraph F) : Adds className [] chg chg :=
  ⟨fun _ h => h, fun _ => by rw [ite_self, List.append_nil]⟩

theorem adds_of_getNode_eq (className : Name) (h : chg'.getNode = chg.getNode) : Adds className [] chg chg' :=
  ⟨fun c hc => by rwa [h], fun c => by rw [ite_self, List.append_nil, VTableScan.vectors, VTableScan.vectors, h]⟩

theorem Adds.trans (h : Adds className new chg chg') (h' : Adds className new' chg' chg'') :
    Adds className (new ++ new') chg chg'' := by
  refine ⟨fun c hc => h'.node c (h.node c hc), fun c => ?_⟩
  rw [h'.vectors, h.vectors, List.append_assoc]
  split
  · rfl
  · rfl

theorem Adds.trans_nil (h : Adds className [] chg chg') (h' : Adds className new chg' chg'') :
    Adds className new chg chg'' := h.trans h'

theorem getNode_modify_self (f : CHNode F → CHNode F) :
    (chg.modify className f).getNode className = (chg.getNode className).map f := Function.update_self _ _ _

theorem getNode_modify_of_ne {c : Name} (h : c ≠ className) (f : CHNode F → CHNode F) :
    (chg.modify className f).getNode c = chg.getNode c := Function.update_of_ne h _ _

theorem isSome_modify (c : Name) (f : CHNode F → CHNode F) :
    ((chg.modify className f).getNode c).isSome = (chg.getNode c).isSome := by
  by_cases hsame : c = className
  · rw [hsame, getNode_modify_self, Option.isSome_map]
  · rw [getNode_modify_of_ne hsame]

theorem adds_modify {f : CHNode F → CHNode F} (hnode : (chg.getNode className).isSome)
    (hf : ∀ node, (f node).virtualFunctionVectors = node.virtualFunctionVectors ++ new) :
    Adds className new chg (chg.modify className f) := by
  obtain ⟨node, hnode⟩ := Option.isSome_iff_exists.mp hnode
  refine ⟨fun c hc => by rwa [isSome_modify], fun c => ?_⟩
  by_cases hsame : c = className
  · rw [hsame, VTableScan.vectors, VTableScan.vectors, getNode_modify_self, hnode, if_pos rfl]
    exact hf node
  · rw [VTableScan.vectors, VTableScan.vectors, getNode_modify_of_ne hsame, if_neg hsame, List.append_nil]

theorem adds_flag {c : Name} {f : CHNode F → CHNode F} (className : Name)
    (hf : ∀ node, (f node).virtualFunctionVectors = node.virtualFunctionVectors) :
    Adds className [] chg (chg.modify c f) := by
  refine ⟨fun d hd => by rwa [isSome_modify], fun d => ?_⟩
  rw [ite_self, List.append_nil, VTableScan.vectors, VTableScan.vectors]
  by_cases hsame : d = c
  · rw [hsame, getNode_modify_self]
    cases chg.getNode c with
    | none => rfl
    | some node => exact hf node
  · rw [getNode_modify_of_ne hsame]

theorem addEdge_spec (className : Name) {source base : Name} (edgeType : CHEdgeType)
    (hsource : (chg.getNode source).isSome) (hbase : (chg.getNode base).isSome) :
    ∃ chg', chg.addEdge source base edgeType = some chg' ∧ Adds className [] chg chg' ∧
      chg'.getNode = chg.getNode := by
  obtain ⟨node, hnode⟩ := Option.isSome_iff_exists.mp hsource
  obtain ⟨node', hnode'⟩ := Option.isSome_iff_exists.mp hbase
  rw [CHGraph.addEdge, hnode, hnode', Option.bind_some, Option.map_some]
  refine ⟨_, rfl, adds_of_getNode_eq className ?_, ?_⟩
  · split
    · rfl
    · rfl
  · split
    · rfl
    · rfl

theorem length_beforeBracket : ∀ (n : ℕ) (name rest : Name), beforeBracket n name = some rest →
    rest.length < name.length := by
  intro n name
  induction n, name using beforeBracket.induct with
  | case1 n => exact fun rest h => absurd h.symm (Option.some_ne_none _)
  | case2 n name ih =>
      intro rest h
      rw [beforeBracket] at h
      exact Nat.lt_succ_of_lt (ih rest h)
  | case3 name =>
      intro rest h
      rw [beforeBracket, if_pos rfl] at h
      rw [← Option.some.inj h]
      exact Nat.lt_succ_self _
  | case4 n name hn ih =>
      intro rest h
      rw [beforeBracket, if_neg hn] at h
      exact Nat.lt_succ_of_lt (ih rest h)
  | case5 n c name hright hleft ih =>
      intro rest h
      rw [beforeBracket] at h
      · exact Nat.lt_succ_of_lt (ih rest h)
      · exact hright
      · exact hleft

theorem getBeforeBrackets_shorter (name : Name) :
    getBeforeBrackets name = name ∨ (getBeforeBrackets name).length < name.length := by
  rw [getBeforeBrackets]
  split
  · rename_i rest hreverse
    cases hbracket : beforeBracket 1 rest with
    | none => exact Or.inl rfl
    | some front =>
        have hlength := congrArg List.length hreverse
        rw [List.length_reverse, List.length_cons] at hlength
        have hshort := length_beforeBracket 1 rest front hbracket
        refine Or.inr ?_
        rw [Option.map_some, Option.getD_some, List.length_reverse]
        omega
  · exact Or.inl rfl

def inserted (chg : CHGraph F) (name : Name) : CHGraph F :=
  { chg with getNode := Function.update chg.getNode name (some ⟨none, false, false, false, []⟩) }

def createTemplate (fuel : ℕ) (templateName : Name) (chg : CHGraph F) : Option (CHGraph F) :=
  if (chg.getNode templateName).isSome then some chg
  else (createNode fuel templateName chg).map fun chg =>
    chg.modify templateName fun node => { node with template := true }

theorem createNode_eq (fuel : ℕ) (name : Name) (chg : CHGraph F) : createNode (fuel + 1) name chg =
    if (chg.getNode name).isSome then none
    else if name.getLast? = some '>' then
      (createTemplate fuel (getBeforeBrackets name) (inserted chg name)).bind fun chg =>
        (chg.addEdge name (getBeforeBrackets name) .instantce).map fun chg =>
          chg.addInstances (getBeforeBrackets name) name
    else some (inserted chg name) := rfl

theorem getNode_inserted_self (chg : CHGraph F) (name : Name) :
    (inserted chg name).getNode name = some ⟨none, false, false, false, []⟩ := Function.update_self _ _ _

theorem getNode_inserted_of_ne {c name : Name} (h : c ≠ name) (chg : CHGraph F) :
    (inserted chg name).getNode c = chg.getNode c := Function.update_of_ne h _ _

theorem adds_inserted (k : Name) {name : Name} (h : chg.getNode name = none) :
    Adds k [] chg (inserted chg name) := by
  refine ⟨fun c hc => ?_, fun c => ?_⟩
  · have hne : c ≠ name := fun hsame => by
      rw [hsame, h] at hc
      exact Bool.false_ne_true hc
    rwa [getNode_inserted_of_ne hne]
  · rw [ite_self, List.append_nil, VTableScan.vectors, VTableScan.vectors]
    by_cases hsame : c = name
    · rw [hsame, h, getNode_inserted_self]
      rfl
    · rw [getNode_inserted_of_ne hsame]

theorem createNode_spec (k : Name) : ∀ (fuel : ℕ) (name : Name) (chg : CHGraph F), name.length < fuel →
    chg.getNode name = none →
      ∃ chg', createNode fuel name chg = some chg' ∧ Adds k [] chg chg' ∧ (chg'.getNode name).isSome := by
  intro fuel
  induction fuel with
  | zero => exact fun name chg hfuel _ => absurd hfuel (Nat.not_lt_zero _)
  | succ fuel ih =>
      intro name chg hfuel hnone
      have hadds : Adds k [] chg (inserted chg name) := adds_inserted k hnone
      have hself : ((inserted chg name).getNode name).isSome := by
        rw [getNode_inserted_self]
        rfl
      rw [createNode_eq, hnone, Option.isSome_none, if_neg Bool.false_ne_true]
      split
      · obtain ⟨chg', hcreated, hadds', htemplate⟩ : ∃ chg', createTemplate fuel (getBeforeBrackets name)
            (inserted chg name) = some chg' ∧ Adds k [] (inserted chg name) chg' ∧
              (chg'.getNode (getBeforeBrackets name)).isSome := by
          rw [createTemplate]
          by_cases hthere : ((inserted chg name).getNode (getBeforeBrackets name)).isSome
          · rw [if_pos hthere]
            exact ⟨_, rfl, Adds.refl k _, hthere⟩
          · have hshort : (getBeforeBrackets name).length < name.length := by
              rcases getBeforeBrackets_shorter name with hname | hshort
              · rw [hname] at hthere
                exact absurd hself hthere
              · exact hshort
            obtain ⟨chg', hcreated, hadds', htemplate⟩ := ih (getBeforeBrackets name) (inserted chg name)
              (by omega) (Option.not_isSome_iff_eq_none.mp hthere)
            rw [if_neg hthere, hcreated]
            refine ⟨_, rfl, hadds'.trans_nil (adds_flag k fun _ => rfl), ?_⟩
            rwa [isSome_modify]
        obtain ⟨chg'', hedge, hadds'', hnodes⟩ := addEdge_spec k .instantce (hadds'.node name hself) htemplate
        rw [hcreated, Option.bind_some, hedge]
        refine ⟨_, rfl, (hadds.trans_nil hadds').trans_nil (hadds''.trans_nil (adds_of_getNode_eq k rfl)), ?_⟩
        change (chg''.getNode name).isSome
        rw [hnodes]
        exact hadds'.node name hself
      · exact ⟨_, rfl, hadds, hself⟩

end

section

variable (P : Program F)

/-- The function that an entry of the vector is for; a thunk without a direct call has none. -/
def resolve (f : F) : Option F := if isCPPThunkFunction P f then getThunkTarget P f else some f

def functionOf : Operand F → Option F
  | .null => none
  | .expr _ _ => none
  | .function f => resolve P f
  | .globalAlias _ aliasee => (aliasedFunction aliasee).bind (resolve P)
  | .global _ => none

def Accepted : Operand F → Prop
  | .null => True
  | .expr opcode _ => opcode = .intToPtr
  | .function _ => True
  | .globalAlias _ aliasee => (aliasedFunction aliasee).isSome
  | .global _ => True

def vectorsOf (segment : Segment F) : List (List F) :=
  if 0 < segment.padded.length then [segment.padded] else []

def append (segment : Segment F) (op : Operand F) : Segment F :=
  { segment with virtualFunctions := segment.virtualFunctions ++ (functionOf P op).toList }

def split : Option (Operand F) → List (Operand F) → Segment F → List (List F)
  | _, [], segment => vectorsOf segment
  | prev, .null :: rest, segment => split (some .null) rest (visitNull P prev (.null :: rest) segment)
  | _, .expr opcode operand :: rest, segment => vectorsOf segment ++ split (some (.expr opcode operand)) rest .empty
  | _, .function f :: rest, segment => split (some (.function f)) rest (append P segment (.function f))
  | _, .globalAlias name aliasee :: rest, segment =>
      split (some (.globalAlias name aliasee)) rest (append P segment (.globalAlias name aliasee))
  | _, .global name :: rest, segment => split (some (.global name)) rest (append P segment (.global name))

theorem addFuncToFuncVector_eq (v : List F) (f : F) : addFuncToFuncVector P v f = v ++ (resolve P f).toList := by
  rw [addFuncToFuncVector, resolve]
  by_cases hthunk : isCPPThunkFunction P f
  · rw [if_pos hthunk, if_pos hthunk]
    cases getThunkTarget P f with
    | none => exact (List.append_nil v).symm
    | some tf => rfl
  · rw [if_neg hthunk, if_neg hthunk]
    rfl

variable {k : Name}

theorem addBaseClass_spec (f : F) {chg : CHGraph F} (hk : (chg.getNode k).isSome) :
    ∃ chg', addBaseClass P k f chg = some chg' ∧ Adds k [] chg chg' := by
  rw [addBaseClass]
  dsimp only
  split
  · by_cases hthere : (chg.getNode (P.demangle (P.name f)).className).isSome
    · obtain ⟨chg', hedge, hadds, -⟩ := addEdge_spec k .inheritance hk hthere
      rw [if_pos hthere]
      exact ⟨chg', hedge, hadds⟩
    · obtain ⟨chg', hcreated, hadds, hbase⟩ := createNode_spec k _ _ chg (Nat.lt_succ_self _)
        (Option.not_isSome_iff_eq_none.mp hthere)
      obtain ⟨chg'', hedge, hadds', -⟩ := addEdge_spec k .inheritance (hadds.node k hk) hbase
      rw [if_neg hthere, hcreated]
      exact ⟨chg'', hedge, hadds.trans_nil hadds'⟩
  · exact ⟨chg, rfl, Adds.refl k chg⟩

theorem finish_spec {scan : Scan F} (hk : (scan.chg.getNode k).isSome) :
    Adds k (vectorsOf scan.segment) scan.chg (scan.finish k).chg := by
  rw [vectorsOf, Scan.finish]
  split
  · exact adds_modify hk fun _ => rfl
  · exact Adds.refl k scan.chg

theorem scanArray_spec : ∀ (ops : List (Operand F)) (prev : Option (Operand F)) (scan : Scan F),
    (∀ op ∈ ops, Accepted op) → (scan.chg.getNode k).isSome →
      ∃ scan', scanArray P k prev ops scan = some scan' ∧ Adds k (split P prev ops scan.segment) scan.chg scan'.chg
  | [], _, scan, _, hk => ⟨_, rfl, finish_spec hk⟩
  | .null :: ops, prev, scan, hops, hk =>
      scanArray_spec ops (some .null) { scan with segment := visitNull P prev (.null :: ops) scan.segment }
        (fun op hop => hops op (List.mem_cons_of_mem _ hop)) hk
  | .expr opcode operand :: ops, prev, scan, hops, hk => by
      have hopcode : opcode = .intToPtr := hops _ List.mem_cons_self
      have hflag : Adds k [] scan.chg (scan.setMultiInheritance k).chg := adds_flag k fun _ => rfl
      have hfinish := hflag.trans_nil (finish_spec (hflag.node k hk))
      obtain ⟨scan', hscan, hadds⟩ := scanArray_spec ops (some (.expr opcode operand))
        ((scan.setMultiInheritance k).finish k) (fun op hop => hops op (List.mem_cons_of_mem _ hop))
        (hfinish.node k hk)
      refine ⟨scan', ?_, hfinish.trans hadds⟩
      rw [scanArray, if_pos hopcode, hscan]
  | .function f :: ops, prev, scan, hops, hk => by
      obtain ⟨chg, hbase, hadds⟩ := addBaseClass_spec P f hk
      obtain ⟨scan', hscan, hadds'⟩ := scanArray_spec ops (some (.function f))
        ⟨chg, scan.pureAbstract && P.name f == pureVirtualFunName, append P scan.segment (.function f)⟩
        (fun op hop => hops op (List.mem_cons_of_mem _ hop)) (hadds.node k hk)
      refine ⟨scan', ?_, hadds.trans_nil hadds'⟩
      rw [scanArray, addFunction, hbase, addFuncToFuncVector_eq]
      exact hscan
  | .globalAlias name aliasee :: ops, prev, scan, hops, hk => by
      obtain ⟨f, hf⟩ := Option.isSome_iff_exists.mp (hops _ List.mem_cons_self : (aliasedFunction aliasee).isSome)
      obtain ⟨scan', hscan, hadds⟩ := scanArray_spec ops (some (.globalAlias name aliasee))
        ⟨scan.chg, false, append P scan.segment (.globalAlias name aliasee)⟩
        (fun op hop => hops op (List.mem_cons_of_mem _ hop)) hk
      refine ⟨scan', ?_, hadds⟩
      rw [scanArray, addAlias, hf, Option.map_some, addFuncToFuncVector_eq]
      rw [append, functionOf, hf] at hscan
      exact hscan
  | .global name :: ops, prev, scan, hops, hk => by
      obtain ⟨scan', hscan, hadds⟩ := scanArray_spec ops (some (.global name))
        scan (fun op hop => hops op (List.mem_cons_of_mem _ hop)) hk
      refine ⟨scan', hscan, ?_⟩
      rw [split, append, functionOf, Option.toList_none, List.append_nil]
      exact hadds

theorem analyzeArray_spec {ops : List (Operand F)} {chg : CHGraph F} (hops : ∀ op ∈ ops, Accepted op)
    (hk : (chg.getNode k).isSome) : ∃ chg', analyzeArray P k chg (.array ops) = some chg' ∧
      Adds k (split P none ops .empty) chg chg' := by
  obtain ⟨scan, hscan, hadds⟩ := scanArray_spec P ops none ⟨chg, true, .empty⟩ hops hk
  rw [analyzeArray, hscan, Option.map_some]
  refine ⟨_, rfl, ?_⟩
  by_cases hpure : scan.pureAbstract
  · rw [if_pos hpure, ← List.append_nil (split P none ops .empty)]
    exact hadds.trans (adds_flag k fun _ => rfl)
  · rw [if_neg hpure]
    exact hadds

theorem analyzeArrays_spec : ∀ (arrays : List (List (Operand F))) (chg : CHGraph F),
    (∀ ops ∈ arrays, ∀ op ∈ ops, Accepted op) → (chg.getNode k).isSome →
      ∃ chg', (arrays.map Constant.array).foldlM (analyzeArray P k) chg = some chg' ∧
        Adds k (arrays.flatMap fun ops => split P none ops .empty) chg chg'
  | [], chg, _, _ => ⟨chg, rfl, Adds.refl k chg⟩
  | ops :: arrays, chg, harrays, hk => by
      obtain ⟨chg', hfirst, hadds⟩ := analyzeArray_spec P (harrays ops List.mem_cons_self) hk
      obtain ⟨chg'', hrest, hadds'⟩ := analyzeArrays_spec arrays chg'
        (fun ops hops => harrays ops (List.mem_cons_of_mem _ hops)) (hadds.node k hk)
      refine ⟨chg'', ?_, hadds.trans hadds'⟩
      rw [List.map_cons, List.foldlM_cons, hfirst]
      exact hrest

end

end SVF.Graphs.VTableScan
