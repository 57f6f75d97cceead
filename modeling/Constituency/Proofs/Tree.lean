import Constituency.Tree

/-!
# The words of a tree

Where the words of a tree stand. A tree covers a span of a sentence if its leaves are the words of the
span, each at its own position, and the tree itself reaches from the first one to behind the last one
(`Covers`). Trees that meet are joined into a tree over both spans, and the removal of hidden
constituents neither loses a word nor moves one.
-/

namespace Constituency

namespace Tree

variable {words : List String} {word label : String} {i m j : Nat} {t u : Tree}

mutual

/-- The words from left to right, with their positions. -/
def tokens : Tree → List (String × Nat)
  | leaf word position => [(word, position)]
  | branch _ _ _ children => tokensOfAll children

/-- The words of several trees, with their positions. -/
def tokensOfAll : List Tree → List (String × Nat)
  | [] => []
  | tree :: rest => tree.tokens ++ tokensOfAll rest

end

theorem tokensOfAll_append (trees more : List Tree) :
    tokensOfAll (trees ++ more) = tokensOfAll trees ++ tokensOfAll more := by
  induction trees with
  | nil => rfl
  | cons tree rest ih => rw [List.cons_append, tokensOfAll, ih, tokensOfAll, List.append_assoc]

theorem tokensOfAll_singleton (t : Tree) : tokensOfAll [t] = t.tokens := List.append_nil _

mutual

/-- Without their positions the words are the leaves. -/
theorem map_fst_tokens : ∀ t : Tree, t.tokens.map Prod.fst = t.leaves
  | leaf _ _ => rfl
  | branch _ _ _ children => map_fst_tokensOfAll children

theorem map_fst_tokensOfAll : ∀ trees : List Tree,
    (tokensOfAll trees).map Prod.fst = leavesOfAll trees
  | [] => rfl
  | tree :: rest => by
    rw [tokensOfAll, List.map_append, map_fst_tokens tree, map_fst_tokensOfAll rest, leavesOfAll]

end

/-! ## Hidden constituents -/

mutual

/-- What stands in for a tree has its words. -/
theorem tokens_splice : ∀ t : Tree, tokensOfAll t.splice = t.tokens
  | leaf _ _ => rfl
  | branch label start stop children => by
    rw [splice]
    split
    · exact tokens_spliceAll children
    · rw [tokensOfAll_singleton, tokens]
      exact tokens_spliceAll children

theorem tokens_spliceAll : ∀ trees : List Tree, tokensOfAll (spliceAll trees) = tokensOfAll trees
  | [] => rfl
  | tree :: rest => by
    rw [spliceAll, tokensOfAll_append, tokens_splice tree, tokens_spliceAll rest, tokensOfAll]

end

theorem tokens_unfactor (t : Tree) : t.unfactor.tokens = t.tokens := by
  cases t with
  | leaf => rfl
  | branch label start stop children => exact tokens_spliceAll children

theorem start_unfactor (t : Tree) : t.unfactor.start = t.start := by cases t <;> rfl

theorem stop_unfactor (t : Tree) : t.unfactor.stop = t.stop := by cases t <;> rfl

@[simp] theorem label?_unfactor (t : Tree) : t.unfactor.label? = t.label? := by cases t <;> rfl

@[simp] theorem label?_join (label : String) (children : List Tree) :
    (join label children).label? = some label := rfl

/-! ## Segments -/

/-- The words of a span, with their positions. -/
def segment (words : List String) (i j : Nat) : List (String × Nat) :=
  (words.zipIdx.drop i).take (j - i)

theorem segment_append (him : i ≤ m) (hmj : m ≤ j) :
    segment words i m ++ segment words m j = segment words i j := by
  have hdrop : words.zipIdx.drop m = (words.zipIdx.drop i).drop (m - i) := by
    rw [List.drop_drop, Nat.add_sub_cancel' him]
  have hlength : j - i = (m - i) + (j - m) := by omega
  rw [segment, segment, segment, hlength, List.take_add, hdrop]

theorem segment_succ (hword : words[i]? = some word) : segment words i (i + 1) = [(word, i)] := by
  have hindex : words.zipIdx[i]? = some (word, i) := by
    rw [List.getElem?_zipIdx, hword, Option.map_some, Nat.zero_add]
  obtain ⟨hlt, heq⟩ := List.getElem?_eq_some_iff.1 hindex
  rw [segment, List.drop_eq_getElem_cons hlt, Nat.add_sub_cancel_left, List.take_succ_cons,
    List.take_zero, heq]

theorem segment_all (words : List String) : segment words 0 words.length = words.zipIdx := by
  rw [segment, List.drop_zero, Nat.sub_zero, List.take_of_length_le (by simp)]

/-! ## Covered spans -/

/-- The leaves are the words of a span at their positions, and the tree spans them. -/
structure Covers (words : List String) (i j : Nat) (t : Tree) : Prop where
  tokens_eq : t.tokens = segment words i j
  start_eq : t.start = i
  stop_eq : t.stop = j

namespace Covers

theorem leaf (hword : words[i]? = some word) : Covers words i (i + 1) (.leaf word i) where
  tokens_eq := (segment_succ hword).symm
  start_eq := rfl
  stop_eq := rfl

theorem join_one (h : Covers words i j t) (label : String) :
    Covers words i j (.join label [t]) where
  tokens_eq := (tokensOfAll_singleton t).trans h.tokens_eq
  start_eq := h.start_eq
  stop_eq := h.stop_eq

theorem join_two (him : i ≤ m) (hmj : m ≤ j) (ht : Covers words i m t) (hu : Covers words m j u)
    (label : String) : Covers words i j (.join label [t, u]) where
  tokens_eq := by
    rw [← segment_append him hmj, ← ht.tokens_eq, ← hu.tokens_eq, join, tokens, tokensOfAll,
      tokensOfAll_singleton]
  start_eq := ht.start_eq
  stop_eq := hu.stop_eq

theorem leaves_eq (h : Covers words 0 words.length t) : t.leaves = words := by
  rw [← map_fst_tokens, h.tokens_eq, segment_all, List.zipIdx_map_fst]

theorem unfactor (h : Covers words i j t) : Covers words i j t.unfactor where
  tokens_eq := (tokens_unfactor t).trans h.tokens_eq
  start_eq := (start_unfactor t).trans h.start_eq
  stop_eq := (stop_unfactor t).trans h.stop_eq

end Covers

end Tree

end Constituency
