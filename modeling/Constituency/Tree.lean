import Constituency.Symbol.Category

/-!
# Trees

Constituent trees with their positions in the sentence, their bracketed text, and the removal of
the nodes that a reader should not see: artefacts of binarization and constituents that a decoder
left without a name.
-/

namespace Constituency

/-- A constituent tree. A leaf is a word at its position; a branch has a label and covers the words
from `start` up to `stop`. -/
inductive Tree where
  | leaf (word : String) (position : Nat)
  | branch (label : String) (start stop : Nat) (children : List Tree)

namespace Tree

/-- The label of a constituent without a name. -/
def nullLabel : String := "<null>"

/-- The position of the first word. -/
def start : Tree → Nat
  | leaf _ position => position
  | branch _ start _ _ => start

/-- The position behind the last word. -/
def stop : Tree → Nat
  | leaf _ position => position + 1
  | branch _ _ stop _ => stop

/-- The branch that joins some trees: it covers the words from the start of the first one to the stop of
the last one. -/
def join (label : String) (children : List Tree) : Tree :=
  let first := (children.head?.map start).getD 0
  branch label first ((children.getLast?.map stop).getD first) children

/-- The label of a branch. -/
def label? : Tree → Option String
  | leaf _ _ => none
  | branch label _ _ _ => some label

mutual

/-- The words from left to right. -/
def leaves : Tree → List String
  | leaf word _ => [word]
  | branch _ _ _ children => leavesOfAll children

/-- The words of several trees. -/
def leavesOfAll : List Tree → List String
  | [] => []
  | tree :: rest => tree.leaves ++ leavesOfAll rest

end

mutual

/-- The number of branches. -/
def numConstituents : Tree → Nat
  | leaf _ _ => 0
  | branch _ _ _ children => 1 + numConstituentsOfAll children

/-- The number of branches of several trees. -/
def numConstituentsOfAll : List Tree → Nat
  | [] => 0
  | tree :: rest => tree.numConstituents + numConstituentsOfAll rest

end

mutual

/-- The nodes from the top down and from left to right, with their positions. -/
def nodes : Tree → List (Nat × Nat × String)
  | leaf word position => [(position, position + 1, word)]
  | branch label start stop children => (start, stop, label) :: nodesOfAll children

/-- The nodes of several trees. -/
def nodesOfAll : List Tree → List (Nat × Nat × String)
  | [] => []
  | tree :: rest => tree.nodes ++ nodesOfAll rest

end

mutual

/-- The bracketed text, such as `(S (NP (DT the)(NN dog))(VP (VB barks)))`. -/
def text : Tree → String
  | leaf word _ => word
  | branch label _ _ children => "(" ++ label ++ " " ++ textOfAll children ++ ")"

/-- The texts of several trees without anything between them. -/
def textOfAll : List Tree → String
  | [] => ""
  | tree :: rest => tree.text ++ textOfAll rest

end

/-- The label hides its constituent: it was made up by binarization or stands for no name. -/
def isHidden (label : String) : Bool :=
  label == nullLabel || isFactoredName label

mutual

/-- The trees that stand in for a tree below the root: its constituent gives way to its children if
its label is hidden. -/
def splice : Tree → List Tree
  | leaf word position => [leaf word position]
  | branch label start stop children =>
    let children := spliceAll children
    if isHidden label then children else [branch label start stop children]

/-- The trees that stand in for several trees. -/
def spliceAll : List Tree → List Tree
  | [] => []
  | tree :: rest => tree.splice ++ spliceAll rest

end

/-- The tree without hidden constituents. The root always stays. -/
def unfactor : Tree → Tree
  | leaf word position => leaf word position
  | branch label start stop children => branch label start stop (spliceAll children)

/-! ## Lists of trees -/

theorem spliceAll_eq (trees : List Tree) : spliceAll trees = trees.flatMap splice := by
  induction trees with
  | nil => rfl
  | cons tree rest ih => rw [spliceAll, ih, List.flatMap_cons]

end Tree

end Constituency
