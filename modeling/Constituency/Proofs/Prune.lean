import Constituency.Proofs.Tree

/-!
# Pruned trees

A tree with some of its constituents left out, whose children then stand in for them (`prune`). The
removal of hidden constituents is a case of it. To prune twice keeps the constituents that are kept both
times, and to keep all of them changes nothing.
-/

namespace Constituency

namespace Tree

variable {label : String} {start stop : Nat} {t : Tree} {trees : List Tree}
  {keep keep' : Nat × Nat × String → Bool}

mutual

/-- The constituents from the top down and from left to right: their spans and labels. -/
def constituents : Tree → List (Nat × Nat × String)
  | leaf _ _ => []
  | branch label start stop children => (start, stop, label) :: constituentsOfAll children

/-- The constituents of several trees. -/
def constituentsOfAll : List Tree → List (Nat × Nat × String)
  | [] => []
  | tree :: rest => tree.constituents ++ constituentsOfAll rest

end

mutual

/-- The trees that stand in for a tree below the root if only some constituents are kept. -/
def prune (keep : Nat × Nat × String → Bool) : Tree → List Tree
  | leaf word position => [leaf word position]
  | branch label start stop children =>
    let children := pruneAll keep children
    if keep (start, stop, label) then [branch label start stop children] else children

/-- The trees that stand in for several trees. -/
def pruneAll (keep : Nat × Nat × String → Bool) : List Tree → List Tree
  | [] => []
  | tree :: rest => tree.prune keep ++ pruneAll keep rest

end

/-- The tree without the constituents that are not kept. The root always stays. -/
def restrict (keep : Nat × Nat × String → Bool) : Tree → Tree
  | leaf word position => leaf word position
  | branch label start stop children => branch label start stop (pruneAll keep children)

theorem constituentsOfAll_append (trees more : List Tree) :
    constituentsOfAll (trees ++ more) = constituentsOfAll trees ++ constituentsOfAll more := by
  induction trees with
  | nil => rfl
  | cons tree rest ih => rw [List.cons_append, constituentsOfAll, ih, constituentsOfAll,
      List.append_assoc]

theorem pruneAll_append (keep : Nat × Nat × String → Bool) (trees more : List Tree) :
    pruneAll keep (trees ++ more) = pruneAll keep trees ++ pruneAll keep more := by
  induction trees with
  | nil => rfl
  | cons tree rest ih => rw [List.cons_append, pruneAll, ih, pruneAll, List.append_assoc]

@[simp] theorem pruneAll_singleton (keep : Nat × Nat × String → Bool) (t : Tree) :
    pruneAll keep [t] = t.prune keep := by
  rw [pruneAll, pruneAll, List.append_nil]

mutual

/-- To remove the hidden constituents is to prune a tree. -/
theorem splice_eq : ∀ t : Tree, t.splice = t.prune fun c => !isHidden c.2.2
  | leaf _ _ => rfl
  | branch label start stop children => by
    rw [splice, prune, spliceAll_eq_pruneAll children]
    cases isHidden label <;> rfl

theorem spliceAll_eq_pruneAll : ∀ trees : List Tree,
    spliceAll trees = pruneAll (fun c => !isHidden c.2.2) trees
  | [] => rfl
  | tree :: rest => by rw [spliceAll, pruneAll, splice_eq tree, spliceAll_eq_pruneAll rest]

end

mutual

/-- What is kept of what is kept. -/
theorem pruneAll_prune (keep keep' : Nat × Nat × String → Bool) :
    ∀ t : Tree, pruneAll keep' (t.prune keep) = t.prune fun c => keep c && keep' c
  | leaf _ _ => rfl
  | branch label start stop children => by
    rw [prune, prune]
    cases hkeep : keep (start, stop, label)
    · exact pruneAll_pruneAll keep keep' children
    · cases hkeep' : keep' (start, stop, label) <;>
        simp [prune, hkeep', pruneAll_pruneAll keep keep' children]

theorem pruneAll_pruneAll (keep keep' : Nat × Nat × String → Bool) :
    ∀ trees : List Tree,
      pruneAll keep' (pruneAll keep trees) = pruneAll (fun c => keep c && keep' c) trees
  | [] => rfl
  | tree :: rest => by
    rw [pruneAll, pruneAll_append, pruneAll_prune keep keep' tree,
      pruneAll_pruneAll keep keep' rest, pruneAll]

end

mutual

/-- The constituents left are those kept. -/
theorem constituentsOfAll_prune (keep : Nat × Nat × String → Bool) :
    ∀ t : Tree, constituentsOfAll (t.prune keep) = t.constituents.filter keep
  | leaf _ _ => rfl
  | branch label start stop children => by
    rw [prune, constituents, List.filter_cons, ← constituentsOfAll_pruneAll keep children]
    split
    · simp [constituentsOfAll, constituents]
    · rfl

theorem constituentsOfAll_pruneAll (keep : Nat × Nat × String → Bool) :
    ∀ trees : List Tree,
      constituentsOfAll (pruneAll keep trees) = (constituentsOfAll trees).filter keep
  | [] => rfl
  | tree :: rest => by
    rw [pruneAll, constituentsOfAll_append, constituentsOfAll_prune keep tree,
      constituentsOfAll_pruneAll keep rest, constituentsOfAll, List.filter_append]

end

mutual

/-- A tree all of whose constituents are kept stays what it is. -/
theorem prune_eq_self (keep : Nat × Nat × String → Bool) :
    ∀ t : Tree, (∀ c ∈ t.constituents, keep c = true) → t.prune keep = [t]
  | leaf _ _, _ => rfl
  | branch label start stop children, h => by
    have hchildren := pruneAll_eq_self keep children fun c hc => h c (List.mem_cons_of_mem _ hc)
    rw [prune, hchildren, if_pos (h _ List.mem_cons_self)]

theorem pruneAll_eq_self (keep : Nat × Nat × String → Bool) :
    ∀ trees : List Tree, (∀ c ∈ constituentsOfAll trees, keep c = true) →
      pruneAll keep trees = trees
  | [], _ => rfl
  | tree :: rest, h => by
    rw [constituentsOfAll] at h
    rw [pruneAll, prune_eq_self keep tree fun c hc => h c (List.mem_append_left _ hc),
      pruneAll_eq_self keep rest fun c hc => h c (List.mem_append_right _ hc)]
    rfl

end

theorem restrict_eq_self (h : ∀ c ∈ t.constituents, keep c = true) : t.restrict keep = t := by
  cases t with
  | leaf => rfl
  | branch label start stop children =>
    rw [restrict, pruneAll_eq_self keep children fun c hc => h c (List.mem_cons_of_mem _ hc)]

mutual

/-- What is left of a tree depends on what becomes of its constituents. -/
theorem prune_congr {keep keep' : Nat × Nat × String → Bool} :
    ∀ t : Tree, (∀ c ∈ t.constituents, keep c = keep' c) → t.prune keep = t.prune keep'
  | leaf _ _, _ => rfl
  | branch label start stop children, h => by
    rw [prune, prune, h _ List.mem_cons_self,
      pruneAll_congr children fun c hc => h c (List.mem_cons_of_mem _ hc)]

theorem pruneAll_congr {keep keep' : Nat × Nat × String → Bool} :
    ∀ trees : List Tree, (∀ c ∈ constituentsOfAll trees, keep c = keep' c) →
      pruneAll keep trees = pruneAll keep' trees
  | [], _ => rfl
  | tree :: rest, h => by
    rw [constituentsOfAll] at h
    rw [pruneAll, pruneAll, prune_congr tree fun c hc => h c (List.mem_append_left _ hc),
      pruneAll_congr rest fun c hc => h c (List.mem_append_right _ hc)]

end

/-- Without hidden constituents: the root and what is not hidden below it. -/
theorem constituents_unfactor (t : Tree) :
    t.unfactor.constituents = t.constituents.head?.toList ++
      t.constituents.tail.filter fun c => !isHidden c.2.2 := by
  cases t with
  | leaf => rfl
  | branch label start stop children =>
    rw [unfactor, constituents, spliceAll_eq_pruneAll, constituentsOfAll_pruneAll]
    rfl

/-! ## Several constituents over one span -/

/-- Branches over the same span on top of each other, with some trees at the bottom. -/
def stack (start stop : Nat) (labels : List String) (trees : List Tree) : List Tree :=
  labels.foldr (fun label below => [branch label start stop below]) trees

theorem pruneAll_stack (keep : Nat × Nat × String → Bool) (labels : List String)
    (trees : List Tree) :
    pruneAll keep (stack start stop labels trees) =
      stack start stop (labels.filter fun label => keep (start, stop, label))
        (pruneAll keep trees) := by
  induction labels with
  | nil => rfl
  | cons label rest ih =>
    rw [stack, List.foldr_cons, pruneAll_singleton, prune, List.filter_cons]
    split
    · exact congrArg (fun below => [branch label start stop below]) ih
    · exact ih

theorem constituentsOfAll_stack (labels : List String) (trees : List Tree) :
    constituentsOfAll (stack start stop labels trees) =
      labels.map (fun label => (start, stop, label)) ++ constituentsOfAll trees := by
  induction labels with
  | nil => rfl
  | cons label rest ih =>
    rw [stack, List.foldr_cons, constituentsOfAll, constituentsOfAll, List.append_nil, constituents,
      List.map_cons, List.cons_append]
    exact congrArg (List.cons _) ih

end Tree

end Constituency
