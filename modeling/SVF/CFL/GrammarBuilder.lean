import SVF.CFL.CFGNormalizer
import SVF.Util.TextFiles

namespace SVF.CFL.GrammarBuilder

open CFGNormalizer Util.DefaultMaps Util.TextFiles

def isBlank (c : Char) : Bool := c = ' '

def trim (blank : Char → Bool) (s : Text) : Text :=
  ((s.dropWhile blank).reverse.dropWhile blank).reverse

def stripSpace : Text → Text := trim isBlank

def splitOn (sep : Char) : Text → List Text
  | [] => [[]]
  | c :: s =>
      if c = sep then [] :: splitOn sep s
      else (c :: (splitOn sep s).headD []) :: (splitOn sep s).tail

def extractKindStrFromSymbolStr (symbolStr : Text) : Text :=
  if '_' ∈ symbolStr then (symbolStr.reverse.dropWhile (· ≠ '_')).tail.reverse else symbolStr

def extractAttributeStrFromSymbolStr (symbolStr : Text) : Text :=
  if '_' ∈ symbolStr then (symbolStr.reverse.takeWhile (· ≠ '_')).reverse else []

/-- A symbol of the kind with the attributes; `none` where an assertion or `stoi` fails. -/
def withAttribute (kind : ℕ) (attributeStr : Text) : Option Symbol :=
  match attributeStr with
  | [] => some ⟨Fin.ofNat (2 ^ 8) kind, 0, 0⟩
  | c :: cs =>
      if cs = [] && c.isAlpha then some ⟨Fin.ofNat (2 ^ 8) kind, 0, Fin.ofNat (2 ^ 8) c.toNat⟩
      else if (c :: cs).all Char.isDigit && Nat.ofDigitChars 10 (c :: cs) 0 < 2 ^ 31 then
        some ⟨Fin.ofNat (2 ^ 8) kind, Fin.ofNat (2 ^ 16) (Nat.ofDigitChars 10 (c :: cs) 0), 0⟩
      else none

section

variable (grammar : CFGrammar)

def kindToStr (kind : Fin (2 ^ 8)) : String :=
  let named := fun p : String × ℕ => p.2 = kind.val
  (((grammar.terminals.find? named).or (grammar.nonterminals.find? named)).or
    (grammar.EBNFSigns.find? named)).elim "" Prod.fst

def strToSymbol (str : Text) : Option Symbol := do
  let kind ← grammar.strToKind (String.ofList (extractKindStrFromSymbolStr str))
  withAttribute kind (extractAttributeStrFromSymbolStr str)

def insertTerminalKind (kindStr : String) : CFGrammar × ℕ :=
  match grammar.terminals.lookup kindStr with
  | none =>
      ({ grammar with
          terminals := (kindStr, grammar.totalKind) :: grammar.terminals
          totalKind := grammar.totalKind + 1 }, grammar.totalKind)
  | some kind => (grammar, (grammar.strToKind kindStr).getD kind)

def insertEBNFSigns (symbolStr : String) : CFGrammar × Symbol :=
  match grammar.EBNFSigns.lookup symbolStr with
  | none =>
      ({ grammar with
          EBNFSigns := (symbolStr, grammar.totalKind) :: grammar.EBNFSigns
          totalKind := grammar.totalKind + 1 }, ⟨Fin.ofNat (2 ^ 8) grammar.totalKind, 0, 0⟩)
  | some kind => (grammar, ⟨Fin.ofNat (2 ^ 8) ((grammar.strToKind symbolStr).getD kind), 0, 0⟩)

def insertSymbol (symbolStr : Text) : Option (CFGrammar × Symbol) :=
  let kindStr := String.ofList (extractKindStrFromSymbolStr symbolStr)
  let attributeStr := extractAttributeStrFromSymbolStr symbolStr
  if symbolStr.length = 1 && !(symbolStr.headD ' ').isAlpha then
    some (insertEBNFSigns grammar (String.ofList symbolStr))
  else if (symbolStr.headD ' ').isUpper then
    let (grammar, kind) := grammar.insertNonterminalKind kindStr
    (withAttribute kind attributeStr).map fun symbol => (grammar, symbol)
  else
    let (grammar, kind) := insertTerminalKind grammar kindStr
    (withAttribute kind attributeStr).map fun symbol => (grammar, symbol)

def insertSymbols : CFGrammar → List Text → Option (CFGrammar × Production)
  | grammar, [] => some (grammar, [])
  | grammar, word :: words => do
      let (grammar, symbol) ← insertSymbol grammar word
      let (grammar, prod) ← insertSymbols grammar words
      some (grammar, symbol :: prod)

end

def newGrammar : CFGrammar := ⟨[], [], [], 0, .empty, 0⟩

/-- The grammar with the symbols of the header, its start kind, and the text of the productions. -/
def parseProductionsString (file : List Text) : Option (CFGrammar × Symbol × Text) := do
  let startString := stripSpace (file.getD 1 [])
  let symbolString := trim isSpace (file.getD 3 [])
  let text := file.flatMap (trim isSpace)
  let header := "Productions:".toList
  let text := (find header text).elim text fun pos => text.drop (pos + header.length)
  let (grammar, _) ← insertSymbols newGrammar ((splitOn ' ' symbolString).map stripSpace)
  let (grammar, startKind) ← insertSymbol grammar startString
  let (grammar, _) := insertTerminalKind grammar "epsilon"
  some (grammar, startKind, text)

def splitProductions (text : Text) : List Text := (splitOn ';' text).dropLast

/-- One production of the file; the names of the variables are those of the source. -/
def buildProduction (grammar : CFGrammar) (wordProd : Text) : Option CFGrammar :=
  match find "->".toList wordProd with
  | none => some grammar
  | some pos => do
      let RHS := stripSpace (wordProd.take pos)
      let LHS := stripSpace (wordProd.drop (pos + 2))
      let (grammar, RHSSymbol) ← insertSymbol grammar RHS
      let words := if LHS = [] then [] else (splitOn ' ' LHS).map stripSpace
      let (grammar, prod) ← insertSymbols grammar words
      some (grammar.insertProduction RHSSymbol (RHSSymbol :: prod))

/-- The grammar of the file and its start kind; `none` where an assertion fails. -/
def build (file : List Text) : Option (CFGrammar × Symbol) := do
  let (grammar, startKind, text) ← parseProductionsString file
  let grammar ← (splitProductions text).foldlM buildProduction grammar
  some (grammar, startKind)

end SVF.CFL.GrammarBuilder
