import Mathlib.Algebra.GroupWithZero.Nat
import Mathlib.Data.List.Dedup
import SVF.Util.DefaultMaps

namespace SVF.CFL.CFGNormalizer

open Util.DefaultMaps

instance neZero_two_pow_eight : NeZero (2 ^ 8 : ℕ) := ⟨by decide⟩

instance neZero_two_pow_sixteen : NeZero (2 ^ 16 : ℕ) := ⟨by decide⟩

/-- The bit fields of a symbol hold the low bits of what is assigned to them. -/
structure Symbol where
  kind : Fin (2 ^ 8)
  attr : Fin (2 ^ 16)
  variableAttribute : Fin (2 ^ 8)
  deriving DecidableEq

instance : LawfulBEq (List Symbol) := List.instLawfulBEq

abbrev Production := List Symbol

abbrev Productions := List Production

/-- The lists stand for the iteration orders of the unordered containers. -/
abbrev SymbolMap := DefaultMap Symbol Productions

structure CFGrammar where
  terminals : List (String × ℕ)
  nonterminals : List (String × ℕ)
  EBNFSigns : List (String × ℕ)
  totalKind : ℕ
  rawProductions : SymbolMap
  newTerminalSubscript : ℕ

def notFound : Symbol := ⟨Fin.ofNat (2 ^ 8) (2 ^ 8 - 1), Fin.ofNat (2 ^ 16) (2 ^ 16 - 1),
  Fin.ofNat (2 ^ 8) (2 ^ 8 - 1)⟩

namespace CFGrammar

variable (grammar : CFGrammar)

def strToKind (str : String) : Option ℕ :=
  ((grammar.terminals.lookup str).or (grammar.nonterminals.lookup str)).or
    (grammar.EBNFSigns.lookup str)

def insertNonterminalKind (kindStr : String) : CFGrammar × ℕ :=
  match grammar.nonterminals.lookup kindStr with
  | none =>
      ({ grammar with
          nonterminals := (kindStr, grammar.totalKind) :: grammar.nonterminals
          totalKind := grammar.totalKind + 1 }, grammar.totalKind)
  | some kind => (grammar, (grammar.strToKind kindStr).getD kind)

/-- The name is `kindStr`, or `kindStr_a` with the variable attribute `a`. -/
def insertNonTerminalSymbol (kindStr : String) (variableAttribute : Fin (2 ^ 8)) :
    CFGrammar × Symbol :=
  let (grammar, kind) := grammar.insertNonterminalKind kindStr
  (grammar, ⟨Fin.ofNat (2 ^ 8) kind, 0, variableAttribute⟩)

def num_generator : CFGrammar × ℕ :=
  ({ grammar with newTerminalSubscript := grammar.newTerminalSubscript + 1 },
    grammar.newTerminalSubscript)

def insertProduction (head : Symbol) (prod : Production) : CFGrammar :=
  { grammar with rawProductions := grammar.rawProductions.modify head (·.insert prod) }

def eraseProduction (head : Symbol) (prod : Production) : CFGrammar :=
  { grammar with rawProductions := grammar.rawProductions.modify head (·.erase prod) }

end CFGrammar

def check_head (grammar : SymbolMap) (rule : Production) : Symbol :=
  (grammar.keys.find? (fun head => rule ∈ grammar.get head)).getD notFound

/-- A new nonterminal for `long_run`: it shares the variable attribute of
`long_run` when there is exactly one. -/
def insertTempSym (grammar : CFGrammar) (long_run : Production) : CFGrammar × Symbol :=
  let (grammar, n) := grammar.num_generator
  let variableAttributeSet :=
    ((long_run.map (·.variableAttribute)).filter (fun a => decide (a ≠ 0))).dedup
  match variableAttributeSet with
  | [a] => grammar.insertNonTerminalSymbol ("X" ++ n.repr) a
  | _ => grammar.insertNonTerminalSymbol ("X" ++ n.repr) 0

def checkHeads (grammar : CFGrammar) (new_grammar : SymbolMap) (long_run : Production) : Symbol :=
  if check_head new_grammar long_run = notFound then check_head grammar.rawProductions long_run
  else check_head new_grammar long_run

/-- The inner loop of `ebnf_bin`. `none`: `erase` is called with `end()`. -/
def splitLongRun (grammar : CFGrammar) (new_grammar : SymbolMap) (X : Symbol) :
    Production → Option (CFGrammar × SymbolMap)
  | [] => some (grammar, new_grammar)
  | first :: long_run =>
      if long_run.length < 2 then some (grammar, new_grammar)
      else if checkHeads grammar new_grammar long_run = notFound then
        let (grammar, tempSym) := insertTempSym grammar long_run
        if first :: long_run ∈ new_grammar.get X then
          let new_grammar := new_grammar.modify X
            (fun prods => (prods.erase (first :: long_run)).insert [first, tempSym])
          splitLongRun grammar (new_grammar.modify tempSym (·.insert long_run)) tempSym long_run
        else none
      else splitLongRun grammar new_grammar (checkHeads grammar new_grammar long_run) long_run

def binRule (head : Symbol) : CFGrammar × SymbolMap → Production → Option (CFGrammar × SymbolMap)
  | state, [] => some state
  | (grammar, new_grammar), first :: long_run =>
      if long_run.length < 2 then some (grammar, new_grammar)
      else
        let grammar := grammar.eraseProduction head (first :: long_run)
        let X := checkHeads grammar new_grammar long_run
        let (grammar, X) := if X = notFound then insertTempSym grammar long_run else (grammar, X)
        splitLongRun (grammar.insertProduction head [first, X]) (new_grammar.set X [long_run]) X
          long_run

def removeFirstSymbol (grammar : CFGrammar) : CFGrammar :=
  grammar.rawProductions.keys.foldl (fun grammar head =>
    (grammar.rawProductions.get head).foldl (fun grammar rule =>
      (grammar.eraseProduction head rule).insertProduction head rule.tail) grammar) grammar

def ebnf_bin (grammar : CFGrammar) : Option CFGrammar := do
  let grammar := removeFirstSymbol grammar
  let (grammar, new_grammar) ← grammar.rawProductions.keys.foldlM (fun state head =>
    (state.1.rawProductions.get head).foldlM (binRule head) state) (grammar, .empty)
  return new_grammar.keys.foldl (fun grammar new_head =>
    (new_grammar.get new_head).foldl (·.insertProduction new_head ·) grammar) grammar

end SVF.CFL.CFGNormalizer
