import SVF.CFL.Grammar
import SVF.CFL.GrammarBuilder

namespace SVF.CFL.EBNF

open CFGNormalizer GrammarBuilder Util.DefaultMaps Util.TextFiles

def isSign (grammar : CFGrammar) (sign : String) (symbol : Symbol) : Bool :=
  kindToStr grammar symbol.kind = sign

def splitBars (grammar : CFGrammar) : Production → List Production
  | [] => [[]]
  | symbol :: rest =>
      if isSign grammar "|" symbol then [] :: splitBars grammar rest
      else (symbol :: (splitBars grammar rest).headD []) :: (splitBars grammar rest).tail

def barReplace (grammar : CFGrammar) : CFGrammar :=
  { grammar with
    rawProductions := grammar.rawProductions.mapWithKey fun head prods =>
      prods.foldl (fun productions ebnfProduction =>
        (splitBars grammar ebnfProduction.tail).foldl
          (fun productions part => productions.insert (head :: part)) productions) [] }

/-- The nearest opening bracket at `i` or before it, and `0` where there is none. -/
def ebnfBracketMatch (grammar : CFGrammar) (prod : Production) : ℕ → ℕ
  | 0 => 0
  | i + 1 =>
      if (prod[i + 1]?).any (isSign grammar "(") then i + 1 else ebnfBracketMatch grammar prod i

abbrev Group := List String

/-- The grammar, the names that stand for groups, and the productions of the head. -/
structure SignState where
  grammar : CFGrammar
  newProductions : List (Group × String)
  productions : Productions

/-- The loop over one production from position `i` on, which ends at the latest after
`fuel` steps. -/
def replaceSigns (sign : String) : ℕ → ℕ → SignState → Production → Option SignState
  | 0, _, s, _ => some s
  | fuel + 1, i, s, ebnfProduction =>
      match ebnfProduction[i]? with
      | none => some s
      | some symbol =>
          if isSign s.grammar sign symbol then
            if i = 1 then none
            else
              let signGroupStart :=
                if (ebnfProduction[i - 1]?).any (isSign s.grammar ")") then
                  ebnfBracketMatch s.grammar ebnfProduction i
                else i - 1
              let group := ((ebnfProduction.take (i + 1)).drop signGroupStart).map
                fun symbol => kindToStr s.grammar symbol.kind
              let before := ebnfProduction.take signGroupStart
              let after := ebnfProduction.drop (i + 1)
              let productions := s.productions.erase ebnfProduction
              match s.newProductions.lookup group with
              | some name => do
                  let tempSym ← strToSymbol s.grammar name.toList
                  let prod := before ++ tempSym :: after
                  replaceSigns sign fuel (signGroupStart + 1)
                    { s with productions := productions.insert prod } prod
              | none =>
                  if signGroupStart = 1 && i = ebnfProduction.length - 1 then
                    let head := ((ebnfProduction.head?).map
                      fun symbol => kindToStr s.grammar symbol.kind).getD ""
                    replaceSigns sign fuel (signGroupStart + 1)
                      { s with
                        newProductions := (group, head) :: s.newProductions
                        productions := productions } (before ++ after)
                  else
                    let (grammar, n) := s.grammar.num_generator
                    let name := "X" ++ n.repr
                    let (grammar, tempSym) := grammar.insertNonTerminalSymbol name 0
                    let prod := before ++ tempSym :: after
                    replaceSigns sign fuel (signGroupStart + 1)
                      ⟨grammar, (group, name) :: s.newProductions, productions.insert prod⟩ prod
          else replaceSigns sign fuel (i + 1) s ebnfProduction

def replaceHead (sign : String) (s : CFGrammar × List (Group × String)) (head : Symbol) :
    Option (CFGrammar × List (Group × String)) := do
  let prods := s.1.rawProductions.get head
  let s ← prods.foldlM (fun s prod => replaceSigns sign prod.length 1 s prod) ⟨s.1, s.2, prods⟩
  some ({ s.grammar with rawProductions := s.grammar.rawProductions.set head s.productions },
    s.newProductions)

def insertGroup (sign : String) (grammar : CFGrammar) (rep : Group × String) :
    Option CFGrammar := do
  let new_nonterminal ← strToSymbol grammar rep.2.toList
  let epsilon ← strToSymbol grammar "epsilon".toList
  let normalProd ← rep.1.mapM fun word => strToSymbol grammar word.toList
  let withoutSign := normalProd.filter fun word =>
    !isSign grammar sign word && !isSign grammar "(" word && !isSign grammar ")" word
  let group := if sign = "*" then withoutSign ++ [new_nonterminal] else withoutSign
  let grammar := grammar.insertProduction new_nonterminal [new_nonterminal, epsilon]
  some (grammar.insertProduction new_nonterminal (new_nonterminal :: group))

/-- `none` where an assertion fails. -/
def ebnfSignReplace (sign : String) (grammar : CFGrammar) : Option CFGrammar := do
  let (grammar, newProductions) ←
    grammar.rawProductions.keys.foldlM (replaceHead sign) (grammar, [])
  newProductions.foldlM (insertGroup sign) grammar

def fillSymbol (variableAttribute : Fin (2 ^ 8)) (attr : Fin (2 ^ 16)) (symbol : Symbol) :
    Symbol :=
  if symbol.variableAttribute = variableAttribute then ⟨symbol.kind, attr, 0⟩ else symbol

def getFilledProductions (nodeSet : List (Fin (2 ^ 16))) (prod : Production) : Productions :=
  ((prod.map (·.variableAttribute)).filter (· ≠ 0)).dedup.foldl
    (fun prods variableAttribute => prods.flatMap fun prod =>
      nodeSet.map fun attr => prod.map (fillSymbol variableAttribute attr)) [prod]

def toCFLProduction (grammar : CFGrammar) : Production → Option (Grammar.Production Symbol)
  | [X, Y] =>
      if strToSymbol grammar "epsilon".toList ∈ [some X, some Y] then some (.epsilon X)
      else some (.single X Y)
  | [X, Y, Z] => some (.binary X Y Z)
  | _ => none

def fillAttribute (grammar : CFGrammar) (nodeSet : List (Fin (2 ^ 16))) :
    List (Grammar.Production Symbol) :=
  grammar.rawProductions.keys.flatMap fun head =>
    (grammar.rawProductions.get head).flatMap fun prod =>
      (getFilledProductions nodeSet (head :: prod)).filterMap (toCFLProduction grammar)

def binarize (grammar : CFGrammar) : Option CFGrammar := do
  let grammar ← ebnfSignReplace "*" (barReplace grammar)
  let grammar ← ebnfSignReplace "?" grammar
  ebnf_bin grammar

def normalize (nodeSet : List (Fin (2 ^ 16))) (grammar : CFGrammar) :
    Option (List (Grammar.Production Symbol)) :=
  (binarize grammar).map fun grammar => fillAttribute grammar nodeSet

end SVF.CFL.EBNF
