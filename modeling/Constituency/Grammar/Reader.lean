import Constituency.Grammar.Builder
import Constituency.Score.Binary32
import Constituency.Text.Blank
import Constituency.Text.Numeral

/-!
# Reading grammars

A grammar is written as rules `A -> B C [p]`, one to a line or separated by semicolons, with
comments behind `//`. The parent of the first rule is the start symbol, and a symbol that is no
rule's parent is a word. The probability is linear, or a logarithm in the form `[log=x]`, and is
one if it is left out. A rule with more than two children is split into binary rules over factored
symbols.
-/

namespace Constituency

/-- A rule as it is written. -/
structure WrittenRule (α : Type) where
  /-- The line it stands on, counted from one. -/
  line : Nat
  parent : String
  children : List String
  logProb : α

namespace WrittenRule

open Text

/-- The characters of symbols: all but white space, square brackets and semicolons. -/
def isNameChar (c : Char) : Bool :=
  !(isBlank c || c == '[' || c == ']' || c == ';')

/-- The mark between a parent and its children. -/
def arrow : List Char := ['-', '>']

/-- The word that announces a logarithm. -/
def logMark : List Char := ['l', 'o', 'g']

/-- The start of a logarithm, `log =`, with what follows it. -/
def afterLog? (text : List Char) : Option (List Char) :=
  if logMark.isPrefixOf text then
    match skipBlanks (text.drop logMark.length) with
    | '=' :: rest => some (skipBlanks rest)
    | _ => none
  else none

/-- A probability in brackets, read as a logarithm, and what follows it. The number must be
positive and at most one. -/
def probability (line : Nat) (text : List Char) : Except GrammarError (Float32 × List Char) :=
  let unmatched := .error (.malformed line (.unmatched .probability (String.ofList text)))
  match text with
  | '[' :: rest =>
    let inner := skipBlanks rest
    let (isLog, body) :=
      match afterLog? inner with
      | some body => (true, body)
      | none => (false, inner)
    let isRaw := fun c => !(c == ']' || isBlank c)
    let raw := body.takeWhile isRaw
    match skipBlanks (body.dropWhile isRaw) with
    | ']' :: after =>
      let bad := .error (.badProbability line (String.ofList raw))
      match number? raw with
      | none => bad
      | some value =>
        let logProb := if isLog then value else value.log
        if logProb.isNaN || 0 < logProb || (!isLog && value ≤ 0) then bad
        else .ok (logProb, after)
    | _ => unmatched
  | _ => unmatched

/-- The probability at the end of a rule, if there is one. Nothing may follow it. -/
def finalProbability (line : Nat) (text : List Char) : Except GrammarError Float32 :=
  match text with
  | [] => .ok 0
  | '[' :: _ => do
    let (logProb, after) ← probability line text
    let rest := skipBlanks after
    if rest.isEmpty then .ok logProb
    else .error (.malformed line (.trailing (String.ofList rest)))
  | _ => .error (.malformed line (.unmatched .child (String.ofList text)))

/-- Reads a rule, whose text begins with a character that is not blank. -/
def read (line : Nat) (text : List Char) : Except GrammarError (WrittenRule Float32) := do
  let malformed := fun part rest => .malformed line (.unmatched part (String.ofList rest))
  let parent := text.takeWhile isNameChar
  if parent.isEmpty then throw (malformed .parent text)
  let afterParent := skipBlanks (text.dropWhile isNameChar)
  unless arrow.isPrefixOf afterParent do throw (malformed .arrow afterParent)
  let body := afterParent.drop arrow.length
  let isBracket := fun c => c == '[' || c == ']'
  let children := (words (body.takeWhile (!isBracket ·))).map String.ofList
  let logProb ← finalProbability line (body.dropWhile (!isBracket ·))
  if children.isEmpty then throw (.emptyRule (String.ofList parent))
  return { line, parent := String.ofList parent, children, logProb }

/-- The rules on a line: what stands before a comment, cut at semicolons. -/
def statements (line : List Char) : List (List Char) :=
  ((pieces (· == ';') (cutAt ['/', '/'] line).1).map skipBlanks).filter (!·.isEmpty)

/-- Reads all rules of a text, up to the first one that is wrong. -/
def readAll (text : String) : Except GrammarError (List (WrittenRule Float32)) :=
  let numbered := (lines text.toList).zipIdx 1
  (numbered.flatMap fun (line, number) => (statements line).map (number, ·)).mapM
    fun (number, statement) => read number statement

/-- The name of the symbol that stands for the last children of a rule. -/
def factoredName (parent : String) (children : List String) : String :=
  String.singleton factoredMark ++ parent ++ "|" ++ "|".intercalate children

variable {α : Type} [Score α]

/-- Adds a rule with at least two children, read from the left: the first child stays, and a
factored symbol, named for the owner of the rule, stands for the others. The first of the binary
rules carries the probability. -/
def binarize (b : GrammarBuilder α) (owner parent : String) (logProb : α) :
    List String → GrammarBuilder α
  | [] | [_] => b
  | [left, right] => b.binary parent left right logProb
  | left :: rest =>
    let factored := factoredName owner rest
    binarize (b.binary parent left factored logProb) owner factored 0 rest

/-- Adds a rule to a grammar. A single child may be a word; of several, none may. -/
def addTo (isWord : String → Bool) (b : GrammarBuilder α) (r : WrittenRule α) :
    Except GrammarError (GrammarBuilder α) :=
  match r.children with
  | [child] =>
    .ok (if isWord child then b.lexical r.parent child r.logProb
      else b.unary r.parent child r.logProb)
  | children =>
    match children.find? isWord with
    | some word => .error (.malformed r.line (.wordAmongChildren word children.length))
    | none => .ok (binarize b r.parent r.parent r.logProb children)

end WrittenRule

/-- The grammar of a list of written rules. -/
def Grammar.ofRules {α : Type} [Score α] :
    List (WrittenRule α) → Except GrammarError (Grammar α)
  | [] => .error .empty
  | first :: rest => do
    let rules := first :: rest
    let isWord := fun name => rules.all (·.parent != name)
    let builder ← rules.foldlM (WrittenRule.addTo isWord) (GrammarBuilder.new first.parent)
    builder.build

/-- The grammar that a text describes. -/
def Grammar.read (text : String) : Except GrammarError (Grammar Float32) :=
  WrittenRule.readAll text >>= Grammar.ofRules

end Constituency
