import SVF.CFL.Bigraphs

namespace SVF.CFL.SymbolPacking

open CFGNormalizer CFLGraphBuilder GrammarBuilder Util.TextFiles

structure Parts where
  kind : ℕ
  attr : ℕ
  variableAttribute : ℕ
  deriving DecidableEq

def pack (p : Parts) : Symbol :=
  ⟨Fin.ofNat (2 ^ 8) p.kind, Fin.ofNat (2 ^ 16) p.attr, Fin.ofNat (2 ^ 8) p.variableAttribute⟩

def unpack (s : Symbol) : Parts := ⟨s.kind, s.attr, s.variableAttribute⟩

def toNum (s : Symbol) : ℕ := s.variableAttribute * 2 ^ 24 + s.attr * 2 ^ 8 + s.kind

inductive Table
  | terminals
  | nonterminals
  | EBNFSigns
  deriving DecidableEq

def tableOf (symbolStr : Text) : Table :=
  if symbolStr.length = 1 && !(symbolStr.headD ' ').isAlpha then .EBNFSigns
  else if (symbolStr.headD ' ').isUpper then .nonterminals
  else .terminals

def nameOf (symbolStr : Text) : String :=
  match tableOf symbolStr with
  | .EBNFSigns => String.ofList symbolStr
  | .nonterminals | .terminals => String.ofList (extractKindStrFromSymbolStr symbolStr)

def attributesOf (symbolStr : Text) : Option (ℕ × ℕ) :=
  match tableOf symbolStr, extractAttributeStrFromSymbolStr symbolStr with
  | .EBNFSigns, _ | _, [] => some (0, 0)
  | _, c :: cs =>
      if cs = [] && c.isAlpha then some (0, c.toNat)
      else if (c :: cs).all Char.isDigit && Nat.ofDigitChars 10 (c :: cs) 0 < 2 ^ 31 then
        some (Nat.ofDigitChars 10 (c :: cs) 0, 0)
      else none

def insertKind (grammar : CFGrammar) (name : String) : Table → CFGrammar × ℕ
  | .terminals => insertTerminalKind grammar name
  | .nonterminals => grammar.insertNonterminalKind name
  | .EBNFSigns =>
      match grammar.EBNFSigns.lookup name with
      | none =>
          ({ grammar with
              EBNFSigns := (name, grammar.totalKind) :: grammar.EBNFSigns
              totalKind := grammar.totalKind + 1 }, grammar.totalKind)
      | some kind => (grammar, (grammar.strToKind name).getD kind)

def insertParts (grammar : CFGrammar) (symbolStr : Text) : Option (CFGrammar × Parts) :=
  (attributesOf symbolStr).map fun (attr, variableAttribute) =>
    let (grammar, kind) := insertKind grammar (nameOf symbolStr) (tableOf symbolStr)
    (grammar, ⟨kind, attr, variableAttribute⟩)

def readWords : CFGrammar → List Text → Option (CFGrammar × List (Parts × Symbol))
  | grammar, [] => some (grammar, [])
  | grammar, word :: words => do
      let (grammar, p) ← insertParts grammar word
      let (grammar, l) ← readWords grammar words
      some (grammar, (p, pack p) :: l)

def edgeSymbol (grammar : CFGrammar) (edge : String × ℕ) : Option (Parts × Symbol) :=
  (grammar.strToKind edge.1).map fun kind => (⟨kind, edge.2, 0⟩, ofNum (getAttributedKind edge.2 kind))

/-- The symbols of the words of a grammar file and of the edges of a graph, each with its parts. -/
def symbols (words : List Text) (edges : List (String × ℕ)) : Option (List (Parts × Symbol)) := do
  let (grammar, named) ← readWords newGrammar words
  let labels ← edges.mapM (edgeSymbol grammar)
  some (named ++ labels)

/-- No symbol loses a part, and different symbols have different numbers. -/
structure Kept (l : List (Parts × Symbol)) : Prop where
  unpacked : ∀ r ∈ l, unpack r.2 = r.1 ∧ ofNum (toNum r.2) = r.2
  distinct : ∀ r ∈ l, ∀ r' ∈ l, r.1 ≠ r'.1 → toNum r.2 ≠ toNum r'.2

theorem ofNum_toNum (s : Symbol) : ofNum (toNum s) = s := by
  obtain ⟨⟨kind, hkind⟩, ⟨attr, hattr⟩, ⟨va, hva⟩⟩ := s
  simp only [ofNum, toNum, Symbol.mk.injEq, Fin.ext_iff, Fin.val_ofNat]
  omega

theorem kept_iff_unpacked (l : List (Parts × Symbol)) : Kept l ↔ ∀ r ∈ l, unpack r.2 = r.1 := by
  constructor
  · exact fun h r hr => (h.unpacked r hr).1
  · refine fun h => ⟨fun r hr => ⟨h r hr, ofNum_toNum r.2⟩, fun r hr r' hr' hne heq => hne ?_⟩
    rw [← h r hr, ← h r' hr', ← ofNum_toNum r.2, heq, ofNum_toNum]

theorem unpack_pack_iff (p : Parts) :
    unpack (pack p) = p ↔ p.kind < 2 ^ 8 ∧ p.attr < 2 ^ 16 ∧ p.variableAttribute < 2 ^ 8 := by
  obtain ⟨kind, attr, va⟩ := p
  simp only [unpack, pack, Parts.mk.injEq, Fin.val_ofNat]
  omega

theorem unpack_edge_iff (kind attr : ℕ) :
    unpack (ofNum (getAttributedKind attr kind)) = ⟨kind, attr, 0⟩ ↔ kind < 2 ^ 8 ∧ attr < 2 ^ 16 := by
  constructor
  · intro h
    have hkind : _ = kind := congrArg Parts.kind h
    have hattr : _ = attr := congrArg Parts.attr h
    exact ⟨hkind ▸ Fin.isLt _, hattr ▸ Fin.isLt _⟩
  · rintro ⟨hkind, hattr⟩
    simp only [unpack, ofNum, Parts.mk.injEq, Fin.val_ofNat, Bigraphs.getAttributedKind_eq attr hkind]
    omega

section

def table (grammar : CFGrammar) : Table → List (String × ℕ)
  | .terminals => grammar.terminals
  | .nonterminals => grammar.nonterminals
  | .EBNFSigns => grammar.EBNFSigns

structure Inv (grammar : CFGrammar) (seen : List (Table × String)) : Prop where
  total : grammar.totalKind = seen.dedup.length
  named : ∀ t name, (table grammar t).lookup name ≠ none ↔ (t, name) ∈ seen
  below : ∀ t name kind, (table grammar t).lookup name = some kind → kind < grammar.totalKind

variable {grammar grammar' : CFGrammar} {seen : List (Table × String)} {t : Table} {name : String}

theorem Inv.strToKind (h : Inv grammar seen) {kind : ℕ} (hk : grammar.strToKind name = some kind) :
    kind < grammar.totalKind := by
  rw [CFGrammar.strToKind, Option.or_eq_some_iff, Option.or_eq_some_iff] at hk
  rcases hk with (hk | ⟨-, hk⟩) | ⟨-, hk⟩
  · exact h.below .terminals name kind hk
  · exact h.below .nonterminals name kind hk
  · exact h.below .EBNFSigns name kind hk

def addName (grammar : CFGrammar) (name : String) : Table → CFGrammar
  | .terminals =>
      { grammar with
          terminals := (name, grammar.totalKind) :: grammar.terminals
          totalKind := grammar.totalKind + 1 }
  | .nonterminals =>
      { grammar with
          nonterminals := (name, grammar.totalKind) :: grammar.nonterminals
          totalKind := grammar.totalKind + 1 }
  | .EBNFSigns =>
      { grammar with
          EBNFSigns := (name, grammar.totalKind) :: grammar.EBNFSigns
          totalKind := grammar.totalKind + 1 }

theorem insertKind_eq (grammar : CFGrammar) (name : String) (t : Table) : insertKind grammar name t =
    match (table grammar t).lookup name with
    | none => (addName grammar name t, grammar.totalKind)
    | some kind => (grammar, (grammar.strToKind name).getD kind) := by
  cases t <;> rfl

theorem totalKind_addName (grammar : CFGrammar) (name : String) (t : Table) :
    (addName grammar name t).totalKind = grammar.totalKind + 1 := by
  cases t <;> rfl

theorem lookup_addName (grammar : CFGrammar) (name : String) (t t' : Table) (name' : String) :
    (table (addName grammar name t) t').lookup name' =
      if (t', name') = (t, name) then some grammar.totalKind else (table grammar t').lookup name' := by
  by_cases ht : t' = t
  · subst ht
    have htable : table (addName grammar name t') t' = (name, grammar.totalKind) :: table grammar t' := by
      cases t' <;> rfl
    rw [htable, List.lookup_cons]
    by_cases hname : name' = name
    · simp [hname]
    · have hbeq : (name' == name) = false := beq_false_of_ne hname
      simp [hbeq, hname]
  · rw [if_neg fun h => ht (congrArg Prod.fst h)]
    cases t <;> cases t' <;> first | rfl | exact absurd rfl ht

/-- The kind of a name is below the counter, and is the old counter when it grows. -/
theorem Inv.insertKind (h : Inv grammar seen) (t : Table) (name : String) :
    Inv (insertKind grammar name t).1 ((t, name) :: seen) ∧
      (SymbolPacking.insertKind grammar name t).2 < (SymbolPacking.insertKind grammar name t).1.totalKind ∧
      ((SymbolPacking.insertKind grammar name t).1.totalKind = grammar.totalKind ∨
        (SymbolPacking.insertKind grammar name t).2 = grammar.totalKind ∧
          (SymbolPacking.insertKind grammar name t).1.totalKind = grammar.totalKind + 1) := by
  rw [insertKind_eq]
  cases hlookup : (table grammar t).lookup name with
  | none =>
      have hnew : (t, name) ∉ seen := fun hmem => (h.named t name).mpr hmem hlookup
      dsimp only
      rw [totalKind_addName]
      refine ⟨⟨?_, ?_, ?_⟩, Nat.lt_succ_self _, .inr ⟨rfl, rfl⟩⟩
      · rw [totalKind_addName, List.dedup_cons_of_notMem hnew, List.length_cons, h.total]
      · intro t' name'
        rw [lookup_addName, List.mem_cons]
        split
        · rename_i heq
          exact iff_of_true (Option.some_ne_none _) (.inl heq)
        · rename_i heq
          rw [h.named, or_iff_right heq]
      · intro t' name' kind hkind
        rw [lookup_addName] at hkind
        rw [totalKind_addName]
        split at hkind
        · cases hkind
          exact Nat.lt_succ_self _
        · exact (h.below t' name' kind hkind).trans (Nat.lt_succ_self _)
  | some kind =>
      have hmem : (t, name) ∈ seen := (h.named t name).mp (hlookup ▸ Option.some_ne_none kind)
      refine ⟨⟨?_, ?_, h.below⟩, ?_, .inl rfl⟩
      · rw [List.dedup_cons_of_mem hmem]
        exact h.total
      · intro t' name'
        rw [h.named, List.mem_cons]
        exact ⟨.inr, fun hor => hor.elim (fun heq => heq ▸ hmem) id⟩
      · cases hk : grammar.strToKind name with
        | none => exact h.below t name kind hlookup
        | some k => exact h.strToKind hk

end

section

variable {grammar grammar' : CFGrammar} {seen : List (Table × String)}

def key (word : Text) : Table × String := (tableOf word, nameOf word)

theorem alpha_lt {c : Char} (h : c.isAlpha = true) : c.toNat < 2 ^ 8 := by
  have hcases : c.isUpper = true ∨ c.isLower = true := Bool.or_eq_true _ _ |>.mp h
  simp only [show c.isUpper = decide (65 ≤ c.val ∧ c.val ≤ 90) from rfl,
    show c.isLower = (decide (97 ≤ c.val) && decide (c.val ≤ 122)) from rfl, Bool.and_eq_true, decide_eq_true_eq,
    UInt32.le_iff_toNat_le] at hcases
  change (65 ≤ c.toNat ∧ c.toNat ≤ 90) ∨ (97 ≤ c.toNat ∧ c.toNat ≤ 122) at hcases
  omega

theorem variableAttribute_lt {word : Text} {p : ℕ × ℕ} (h : attributesOf word = some p) : p.2 < 2 ^ 8 := by
  rw [attributesOf] at h
  split at h
  · cases h
    exact Nat.two_pow_pos 8
  · cases h
    exact Nat.two_pow_pos 8
  · rename_i c cs _ _
    split at h
    · rename_i halpha
      cases h
      exact alpha_lt (Bool.and_eq_true_iff.mp halpha).2
    · split at h
      · cases h
        exact Nat.two_pow_pos 8
      · contradiction

theorem readWords_cons {word : Text} {words : List Text} {l : List (Parts × Symbol)}
    (h : readWords grammar (word :: words) = some (grammar', l)) : ∃ p rest, attributesOf word = some p ∧
      readWords (insertKind grammar (nameOf word) (tableOf word)).1 words = some (grammar', rest) ∧
      l = (⟨(insertKind grammar (nameOf word) (tableOf word)).2, p.1, p.2⟩,
        pack ⟨(insertKind grammar (nameOf word) (tableOf word)).2, p.1, p.2⟩) :: rest := by
  obtain ⟨first, hfirst, h⟩ := Option.bind_eq_some_iff.mp h
  obtain ⟨p, hp, rfl⟩ := Option.map_eq_some_iff.mp hfirst
  obtain ⟨⟨grammar₂, rest⟩, hrest, heq⟩ := Option.bind_eq_some_iff.mp h
  obtain ⟨rfl, rfl⟩ := Prod.mk.inj (Option.some.inj heq)
  exact ⟨p, rest, hp, hrest, rfl⟩

theorem readWords_spec (words : List Text) {l : List (Parts × Symbol)} (h : Inv grammar seen)
    (hread : readWords grammar words = some (grammar', l)) :
    ∃ seen', Inv grammar' seen' ∧ (∀ k, k ∈ seen' ↔ k ∈ seen ∨ k ∈ words.map key) ∧
      grammar.totalKind ≤ grammar'.totalKind ∧
      (grammar.totalKind ≤ 2 ^ 8 → ((∀ r ∈ l, unpack r.2 = r.1) ↔ grammar'.totalKind ≤ 2 ^ 8 ∧
        ∀ word ∈ words, ∀ p, attributesOf word = some p → p.1 < 2 ^ 16)) := by
  induction words generalizing grammar seen l with
  | nil =>
      cases hread
      exact ⟨seen, h, by simp, le_rfl, fun hle => by simpa using hle⟩
  | cons word words ih =>
      obtain ⟨p, rest, hattrs, hrest, rfl⟩ := readWords_cons hread
      obtain ⟨hinv, hlt, hgrow⟩ := h.insertKind (tableOf word) (nameOf word)
      generalize insertKind grammar (nameOf word) (tableOf word) = inserted at hinv hlt hgrow hrest ⊢
      obtain ⟨seen', hinv', hseen, hmono, hiff⟩ := ih hinv hrest
      have hle : grammar.totalKind ≤ inserted.1.totalKind := by omega
      refine ⟨seen', hinv', fun k => ?_, hle.trans hmono, fun hsmall => ?_⟩
      · rw [hseen, List.mem_cons, List.map_cons, List.mem_cons, or_assoc, or_left_comm]
        rfl
      · rw [List.forall_mem_cons, List.forall_mem_cons, unpack_pack_iff]
        by_cases hnext : inserted.1.totalKind ≤ 2 ^ 8
        · rw [hiff hnext, and_iff_right (hlt.trans_le hnext), and_iff_left (variableAttribute_lt hattrs)]
          simp only [hattrs, Option.some.injEq, forall_eq']
          exact and_left_comm
        · have hkind : 2 ^ 8 ≤ inserted.2 := by omega
          exact iff_of_false (fun h => absurd h.1.1 (not_lt.mpr hkind)) fun h => hnext (hmono.trans h.1)

theorem labels_unpacked_iff (h : Inv grammar seen) (hsmall : grammar.totalKind ≤ 2 ^ 8) {edges : List (String × ℕ)}
    {labels : List (Parts × Symbol)} (hlabels : edges.mapM (edgeSymbol grammar) = some labels) :
    (∀ r ∈ labels, unpack r.2 = r.1) ↔ ∀ edge ∈ edges, edge.2 < 2 ^ 16 := by
  induction edges generalizing labels with
  | nil =>
      cases hlabels
      simp
  | cons edge edges ih =>
      rw [List.mapM_cons] at hlabels
      obtain ⟨r, hr, hlabels⟩ := Option.bind_eq_some_iff.mp hlabels
      obtain ⟨rest, hrest, heq⟩ := Option.bind_eq_some_iff.mp hlabels
      cases heq
      obtain ⟨kind, hkind, rfl⟩ := Option.map_eq_some_iff.mp hr
      rw [List.forall_mem_cons, List.forall_mem_cons, ih hrest, unpack_edge_iff,
        and_iff_right ((h.strToKind hkind).trans_le hsmall)]

/-- Symbols lose nothing when the names fit 8 bits and the attributes 16. -/
theorem kept_iff (words : List Text) (edges : List (String × ℕ)) (l : List (Parts × Symbol))
    (h : symbols words edges = some l) : Kept l ↔ (words.map key).dedup.length ≤ 2 ^ 8 ∧
      (∀ word ∈ words, ∀ p, attributesOf word = some p → p.1 < 2 ^ 16) ∧ ∀ edge ∈ edges, edge.2 < 2 ^ 16 := by
  obtain ⟨⟨grammar, named⟩, hread, hrest⟩ := Option.bind_eq_some_iff.mp h
  obtain ⟨labels, hlabels, heq⟩ := Option.bind_eq_some_iff.mp hrest
  cases heq
  have hstart : Inv newGrammar [] := by
    refine ⟨rfl, fun t name => ?_, fun t name kind hk => ?_⟩
    · cases t <;> simp [table, newGrammar]
    · cases t <;> contradiction
  obtain ⟨seen, hinv, hseen, -, hiff⟩ := readWords_spec words hstart hread
  have htotal : grammar.totalKind = (words.map key).dedup.length := by
    rw [hinv.total]
    apply List.Perm.length_eq
    rw [List.perm_ext_iff_of_nodup (List.nodup_dedup _) (List.nodup_dedup _)]
    intro k
    rw [List.mem_dedup, List.mem_dedup, hseen, or_iff_right List.not_mem_nil]
  rw [kept_iff_unpacked, List.forall_mem_append, hiff (Nat.zero_le _), ← htotal]
  constructor
  · rintro ⟨⟨hle, hwords⟩, hlab⟩
    exact ⟨hle, hwords, (labels_unpacked_iff hinv hle hlabels).mp hlab⟩
  · rintro ⟨hle, hwords, hlab⟩
    exact ⟨⟨hle, hwords⟩, (labels_unpacked_iff hinv hle hlabels).mpr hlab⟩

theorem kept_small : Kept [(⟨0, 1, 0⟩, ⟨0, 1, 0⟩), (⟨0, 2, 0⟩, ⟨0, 2, 0⟩)] :=
  (kept_iff ["a_1".toList] [("a", 2)] _ (by decide)).mpr (by decide)

/-- The attributes 0 and 2 ^ 16 become one. -/
theorem symbols_conflated : ∃ words l, symbols words [] = some l ∧ ¬ Kept l := by
  refine ⟨["a_0".toList, "a_65536".toList], [(⟨0, 0, 0⟩, ⟨0, 0, 0⟩), (⟨0, 65536, 0⟩, ⟨0, 0, 0⟩)], by decide, fun h => ?_⟩
  exact h.distinct _ List.mem_cons_self _ (List.mem_cons_of_mem _ List.mem_cons_self) (by simp) rfl

end

end SVF.CFL.SymbolPacking
