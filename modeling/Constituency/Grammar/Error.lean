import Constituency.ChildCode
import Constituency.Text.Quoted

/-!
# Grammars that are refused

Each way in which a grammar or its text can be wrong, and the message that reports it.
-/

namespace Constituency

/-- The parts of a written rule that must have a certain form. -/
inductive RulePart where
  | parent
  | arrow
  | child
  | probability

namespace RulePart

/-- Where the part stands, as messages say it. -/
def label : RulePart → String
  | parent => "rule symbol: name"
  | arrow => "rule arrow"
  | child => "rule child: name"
  | probability => "probability"

/-- The pattern of the part, as messages show it. -/
def pattern : RulePart → String
  | parent | child => "[^\\s\\[\\];]+"
  | arrow => "->"
  | probability => "^\\[\\s*(log\\s*=\\s*)?([^\\]\\s]*)\\s*\\]"

end RulePart

/-- What is wrong with the form of a rule. -/
inductive RuleFault where
  /-- The text does not begin as the part requires. -/
  | unmatched (part : RulePart) (text : String)
  /-- Text follows the probability. -/
  | trailing (text : String)
  /-- A rule with several children has a word among them. -/
  | wordAmongChildren (word : String) (count : Nat)

/-- The fault in words. -/
def RuleFault.message : RuleFault → String
  | unmatched part text =>
    part.label ++ ": couldn't match " ++ part.pattern ++ " at " ++ Text.quoted text
  | trailing text => "trailing input after probability: " ++ Text.quoted text
  | wordAmongChildren word count =>
    "word " ++ Text.quoted word ++ " in a rule with " ++ toString count ++ " children"

/-- Why there is no grammar. -/
inductive GrammarError where
  /-- There are no rules. -/
  | empty
  /-- A rule does not have the form of one. -/
  | malformed (line : Nat) (fault : RuleFault)
  /-- A probability is no number, or not one in `(0, 1]`. -/
  | badProbability (line : Nat) (value : String)
  /-- The start symbol has no rule. -/
  | unknownStart (name : String)
  /-- A rule has no children. -/
  | emptyRule (parent : String)
  /-- There are more non-terminals than `ChildCode.capacity`. -/
  | tooManySymbols (count : Nat)

/-- The error in words. -/
def GrammarError.message : GrammarError → String
  | empty => "empty ruleset"
  | malformed line fault => "couldn't parse rule at line " ++ toString line ++ ": " ++ fault.message
  | badProbability line value =>
    "invalid probability " ++ Text.quoted value ++ " at line " ++ toString line
  | unknownStart name => "start symbol " ++ Text.quoted name ++ " is not a non-terminal"
  | emptyRule parent => Text.quoted parent ++ " has no right-hand side"
  | tooManySymbols count =>
    toString count ++ " non-terminals exceed the packing function's capacity of " ++
      toString ChildCode.capacity

end Constituency
