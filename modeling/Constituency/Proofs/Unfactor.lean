import Constituency.Proofs.Tree

/-!
# Trees without hidden constituents

What is left of a tree when its hidden constituents give way to their children. The nodes of a tree are
listed from the top down and from left to right, each with its path from the root (`places`), so that one
node stands above another if its path is a prefix of the other one's. The nodes that stay are all the nodes
of the new tree. They come in the same order with the same contents, and they stand above each other as
before (`alike_spliceAll`).
-/

namespace Constituency

namespace Tree

/-! ## Places -/

/-- What a node holds: a word with its position, or a label with the span that it names. -/
inductive Node where
  | word (text : String) (position : Nat)
  | constituent (label : String) (start stop : Nat)

/-- The node is a constituent with a hidden label. -/
def Node.isHidden : Node → Bool
  | word _ _ => false
  | constituent label _ _ => Tree.isHidden label

/-- The root. -/
def node : Tree → Node
  | leaf word position => .word word position
  | branch label start stop _ => .constituent label start stop

/-- A node with its path: which child to take at each step down from the root. -/
structure Place where
  path : List Nat
  node : Node

namespace Place

/-- The same node as seen from above the `k`-th child. -/
def below (k : Nat) (p : Place) : Place := ⟨k :: p.path, p.node⟩

/-- The node is the root or has no hidden label. -/
def stays (p : Place) : Bool := p.path.isEmpty || !p.node.isHidden

@[simp] theorem path_below (k : Nat) (p : Place) : (p.below k).path = k :: p.path := rfl

@[simp] theorem node_below (k : Nat) (p : Place) : (p.below k).node = p.node := rfl

end Place

mutual

/-- The nodes with their paths, from the top down and from left to right. -/
def places : Tree → List Place
  | leaf word position => [⟨[], .word word position⟩]
  | branch label start stop children =>
    ⟨[], .constituent label start stop⟩ :: placesOfAll 0 children

/-- The nodes of several trees that are children from the `k`-th one on. -/
def placesOfAll : Nat → List Tree → List Place
  | _, [] => []
  | k, tree :: rest => tree.places.map (Place.below k) ++ placesOfAll (k + 1) rest

end

/-- The subtree at the end of a path. -/
def subtree? : List Nat → Tree → Option Tree
  | [], t => some t
  | _ :: _, leaf _ _ => none
  | k :: path, branch _ _ _ children => children[k]?.bind (subtree? path)

theorem placesOfAll_append (k : Nat) (trees more : List Tree) :
    placesOfAll k (trees ++ more) = placesOfAll k trees ++ placesOfAll (k + trees.length) more := by
  induction trees generalizing k with
  | nil => rfl
  | cons tree rest ih =>
    have hk : k + (tree :: rest).length = k + 1 + rest.length := by
      rw [List.length_cons]
      omega
    rw [List.cons_append, placesOfAll, placesOfAll, ih, List.append_assoc, hk]

mutual

/-- The places are the paths that lead to a subtree, with the root of that subtree. -/
theorem mem_places_iff {p : Place} : ∀ t : Tree,
    p ∈ t.places ↔ (t.subtree? p.path).map node = some p.node
  | leaf word position => by
    obtain ⟨path, n⟩ := p
    cases path <;> simp [places, subtree?, node, eq_comm]
  | branch label start stop children => by
    have hchildren := mem_placesOfAll_iff (p := p) 0 children
    obtain ⟨path, n⟩ := p
    rw [places, List.mem_cons, hchildren]
    cases path with
    | nil => simp [subtree?, node, eq_comm]
    | cons k path =>
      constructor
      · rintro (hroot | ⟨i, path', hp, hi⟩)
        · cases hroot
        · obtain ⟨rfl, rfl⟩ := List.cons.inj hp
          rwa [Nat.zero_add, subtree?]
      · exact fun h => .inr ⟨k, path, by rw [Nat.zero_add], h⟩

theorem mem_placesOfAll_iff {p : Place} : ∀ (k : Nat) (trees : List Tree),
    p ∈ placesOfAll k trees ↔ ∃ i path, p.path = (k + i) :: path ∧
      (trees[i]?.bind (subtree? path)).map node = some p.node
  | _, [] => by simp [placesOfAll]
  | k, tree :: rest => by
    have htree : ∀ q : Place, q ∈ tree.places ↔ (tree.subtree? q.path).map node = some q.node :=
      fun q => mem_places_iff tree
    have hrest := mem_placesOfAll_iff (p := p) (k + 1) rest
    obtain ⟨path, n⟩ := p
    rw [placesOfAll, List.mem_append, hrest, List.mem_map]
    constructor
    · rintro (⟨q, hq, hp⟩ | ⟨i, path', hp, hi⟩)
      · obtain ⟨rfl, rfl⟩ := Place.mk.inj hp
        exact ⟨0, q.path, rfl, (htree q).1 hq⟩
      · exact ⟨i + 1, path', by rw [hp, Nat.add_assoc, Nat.add_comm 1 i], hi⟩
    · rintro ⟨i, path', hp, hi⟩
      cases i with
      | zero => exact .inl ⟨⟨path', n⟩, (htree ⟨path', n⟩).2 hi, by rw [Place.below]; simp_all⟩
      | succ i => exact .inr ⟨i, path', by rw [hp, Nat.add_assoc, Nat.add_comm 1 i], hi⟩

end

theorem exists_path_of_mem {k : Nat} {trees : List Tree} {p : Place} (h : p ∈ placesOfAll k trees) :
    ∃ i < trees.length, ∃ path, p.path = (k + i) :: path := by
  obtain ⟨i, path, hp, hi⟩ := (mem_placesOfAll_iff k trees).1 h
  refine ⟨i, Nat.lt_of_not_le fun hle => ?_, path, hp⟩
  rw [List.getElem?_eq_none hle] at hi
  cases hi

theorem path_ne_nil_of_mem {k : Nat} {trees : List Tree} {p : Place} (h : p ∈ placesOfAll k trees) :
    p.path ≠ [] := by
  obtain ⟨i, -, path, hp⟩ := exists_path_of_mem h
  rw [hp]
  exact List.cons_ne_nil _ _

/-! ## Listings that agree -/

/-- Two listings hold the same nodes in the same order, and one of two nodes stands above the other, or is
the other, in both listings or in neither. -/
def Alike (before after : List Place) : Prop :=
  ∃ pairs : List (Place × Place), pairs.map Prod.fst = before ∧ pairs.map Prod.snd = after ∧
    (∀ x ∈ pairs, x.1.node = x.2.node) ∧
    ∀ x ∈ pairs, ∀ y ∈ pairs, x.1.path <+: y.1.path ↔ x.2.path <+: y.2.path

/-- No place of one listing stands above a place of the other one. -/
def Apart (first second : List Place) : Prop :=
  ∀ p ∈ first, ∀ q ∈ second, ¬ p.path <+: q.path ∧ ¬ q.path <+: p.path

/-- Trees stand beside each other. -/
theorem apart_placesOfAll {k : Nat} {trees more : List Tree} :
    Apart (placesOfAll k trees) (placesOfAll (k + trees.length) more) := by
  intro p hp q hq
  obtain ⟨i, hi, path, hpath⟩ := exists_path_of_mem hp
  obtain ⟨i', -, path', hpath'⟩ := exists_path_of_mem hq
  rw [hpath, hpath', List.cons_prefix_cons, List.cons_prefix_cons]
  omega

namespace Alike

variable {before after more further : List Place}

theorem nil : Alike [] [] := ⟨[], rfl, rfl, by simp, by simp⟩

theorem symm (h : Alike before after) : Alike after before := by
  obtain ⟨pairs, rfl, rfl, hnode, hpath⟩ := h
  refine ⟨pairs.map Prod.swap, by simp, by simp, ?_, ?_⟩
  · exact List.forall_mem_map.2 fun x hx => (hnode x hx).symm
  · exact List.forall_mem_map.2 fun x hx => List.forall_mem_map.2 fun y hy => (hpath x hx y hy).symm

theorem map_node_eq (h : Alike before after) :
    before.map Place.node = after.map Place.node := by
  obtain ⟨pairs, rfl, rfl, hnode, -⟩ := h
  simpa using hnode

/-- It does not matter from how far above a listing is seen. -/
theorem below_left (h : Alike before after) (k : Nat) :
    Alike (before.map (Place.below k)) after := by
  obtain ⟨pairs, rfl, rfl, hnode, hpath⟩ := h
  refine ⟨pairs.map (Prod.map (Place.below k) id), by simp, by simp, ?_, ?_⟩
  · exact List.forall_mem_map.2 hnode
  · simpa only [List.forall_mem_map, Prod.map_fst, Prod.map_snd, id_eq, Place.path_below,
      List.prefix_cons_inj] using hpath

theorem below_right (h : Alike before after) (k : Nat) :
    Alike before (after.map (Place.below k)) :=
  (h.symm.below_left k).symm

theorem append (h : Alike before after) (h' : Alike more further) (hbefore : Apart before more)
    (hafter : Apart after further) : Alike (before ++ more) (after ++ further) := by
  obtain ⟨pairs, rfl, rfl, hnode, hpath⟩ := h
  obtain ⟨pairs', rfl, rfl, hnode', hpath'⟩ := h'
  rw [Apart, List.forall_mem_map] at hbefore hafter
  refine ⟨pairs ++ pairs', by simp, by simp, List.forall_mem_append.2 ⟨hnode, hnode'⟩, ?_⟩
  have hcross : ∀ x ∈ pairs, ∀ y ∈ pairs', (x.1.path <+: y.1.path ↔ x.2.path <+: y.2.path) ∧
      (y.1.path <+: x.1.path ↔ y.2.path <+: x.2.path) := by
    intro x hx y hy
    have hfst := hbefore x hx _ (List.mem_map_of_mem hy)
    have hsnd := hafter x hx _ (List.mem_map_of_mem hy)
    exact ⟨iff_of_false hfst.1 hsnd.1, iff_of_false hfst.2 hsnd.2⟩
  exact List.forall_mem_append.2
    ⟨fun x hx => List.forall_mem_append.2 ⟨hpath x hx, fun y hy => (hcross x hx y hy).1⟩,
      fun x hx => List.forall_mem_append.2 ⟨fun y hy => (hcross y hy x hx).2, hpath' x hx⟩⟩

/-- A root stands above everything else. -/
theorem cons (h : Alike before after) (hbefore : ∀ p ∈ before, p.path ≠ [])
    (hafter : ∀ p ∈ after, p.path ≠ []) (n : Node) :
    Alike (⟨[], n⟩ :: before) (⟨[], n⟩ :: after) := by
  obtain ⟨pairs, rfl, rfl, hnode, hpath⟩ := h
  rw [List.forall_mem_map] at hbefore hafter
  refine ⟨(⟨[], n⟩, ⟨[], n⟩) :: pairs, by simp, by simp, List.forall_mem_cons.2 ⟨rfl, hnode⟩, ?_⟩
  have hroot : ∀ x ∈ pairs, x.1.path <+: [] ↔ x.2.path <+: [] := by
    intro x hx
    rw [List.prefix_nil, List.prefix_nil]
    exact iff_of_false (hbefore x hx) (hafter x hx)
  exact List.forall_mem_cons.2
    ⟨fun y _ => iff_of_true List.nil_prefix List.nil_prefix,
      fun x hx => List.forall_mem_cons.2 ⟨hroot x hx, hpath x hx⟩⟩

end Alike

/-! ## What stays -/

mutual

/-- What stands in for a tree has the nodes of the tree that are not hidden. -/
theorem alike_splice (k : Nat) : ∀ t : Tree,
    Alike (t.places.filter fun p => !p.node.isHidden) (placesOfAll k t.splice)
  | leaf word position =>
    (Alike.nil.cons (by simp) (by simp) (.word word position)).below_right k
  | branch label start stop children => by
    rw [places, splice]
    by_cases hhidden : isHidden label
    · rw [if_pos hhidden, List.filter_cons_of_neg (by simp [Node.isHidden, hhidden])]
      exact alike_spliceAll 0 k children
    · rw [if_neg hhidden, List.filter_cons_of_pos (by simp [Node.isHidden, hhidden])]
      have hnode := (alike_spliceAll 0 0 children).cons
        (fun p hp => path_ne_nil_of_mem (List.mem_filter.1 hp).1) (fun p hp => path_ne_nil_of_mem hp)
        (.constituent label start stop)
      rw [placesOfAll, placesOfAll, List.append_nil, places]
      exact hnode.below_right k

/-- What stands in for several trees has the nodes of the trees that are not hidden. -/
theorem alike_spliceAll (k l : Nat) : ∀ trees : List Tree,
    Alike ((placesOfAll k trees).filter fun p => !p.node.isHidden) (placesOfAll l (spliceAll trees))
  | [] => Alike.nil
  | tree :: rest => by
    have hfirst : Alike ((tree.places.map (Place.below k)).filter fun p => !p.node.isHidden)
        (placesOfAll l tree.splice) := by
      rw [List.filter_map]
      exact (alike_splice l tree).below_left k
    have hapart : Apart (placesOfAll k [tree]) (placesOfAll (k + 1) rest) := apart_placesOfAll
    rw [placesOfAll, placesOfAll, List.append_nil] at hapart
    rw [placesOfAll, spliceAll, placesOfAll_append, List.filter_append]
    exact hfirst.append (alike_spliceAll (k + 1) _ rest)
      (fun p hp q hq => hapart p (List.mem_filter.1 hp).1 q (List.mem_filter.1 hq).1) apart_placesOfAll

end

theorem alike_unfactor (t : Tree) : Alike (t.places.filter Place.stays) t.unfactor.places := by
  cases t with
  | leaf word position => exact Alike.nil.cons (by simp) (by simp) _
  | branch label start stop children =>
    have hstays : ∀ p ∈ placesOfAll 0 children, p.stays = !p.node.isHidden := by
      intro p hp
      rw [Place.stays, List.isEmpty_eq_false_iff.2 (path_ne_nil_of_mem hp), Bool.false_or]
    rw [unfactor, places, places, List.filter_cons_of_pos rfl, List.filter_congr hstays]
    exact (alike_spliceAll 0 0 children).cons
      (fun p hp => path_ne_nil_of_mem (List.mem_filter.1 hp).1) (fun p hp => path_ne_nil_of_mem hp) _

/-- What stands in for a tree has no hidden constituents. -/
theorem isHidden_of_mem_spliceAll {k : Nat} {trees : List Tree} {p : Place}
    (h : p ∈ placesOfAll k (spliceAll trees)) : p.node.isHidden = false := by
  have hnodes := (alike_spliceAll 0 k trees).map_node_eq
  have hmem : p.node ∈ (placesOfAll k (spliceAll trees)).map Place.node := List.mem_map_of_mem h
  rw [← hnodes] at hmem
  obtain ⟨q, hq, hnode⟩ := List.mem_map.1 hmem
  rw [← hnode]
  simpa using (List.mem_filter.1 hq).2

mutual

theorem spliceAll_splice : ∀ t : Tree, spliceAll t.splice = t.splice
  | leaf _ _ => rfl
  | branch label start stop children => by
    rw [splice]
    split
    · exact spliceAll_spliceAll children
    · next hlabel =>
      rw [spliceAll, spliceAll, splice, spliceAll_spliceAll children, if_neg hlabel]
      rfl

/-- Nothing is left to remove after the first time. -/
theorem spliceAll_spliceAll : ∀ trees : List Tree, spliceAll (spliceAll trees) = spliceAll trees
  | [] => rfl
  | tree :: rest => by
    rw [spliceAll, spliceAll_eq, List.flatMap_append, ← spliceAll_eq, ← spliceAll_eq,
      spliceAll_splice tree, spliceAll_spliceAll rest]

end

theorem unfactor_unfactor (t : Tree) : t.unfactor.unfactor = t.unfactor := by
  cases t with
  | leaf => rfl
  | branch label start stop children => rw [unfactor, unfactor, spliceAll_spliceAll]

/-- The removal of hidden constituents keeps the words with their positions and the root. No other node of
the new tree has a label that binarization made up or that stands for no name, and the new tree has
all nodes of the old one that stay, in the same order and above each other as before. Doing it twice
changes nothing more. -/
theorem unfactor_keeps (t : Tree) :
    t.unfactor.tokens = t.tokens ∧ t.unfactor.node = t.node ∧
      (∀ p ∈ t.unfactor.places, p.path ≠ [] → ∀ label start stop,
        p.node = .constituent label start stop → isFactoredName label = false ∧ label ≠ nullLabel) ∧
      Alike (t.places.filter Place.stays) t.unfactor.places ∧
      t.unfactor.unfactor = t.unfactor := by
  refine ⟨tokens_unfactor t, ?_, ?_, alike_unfactor t, unfactor_unfactor t⟩
  · cases t <;> rfl
  · intro p hp hroot label start stop hlabel
    have hvisible : p.node.isHidden = false := by
      cases t with
      | leaf word position => exact absurd (congrArg Place.path (List.mem_singleton.1 hp)) hroot
      | branch label' start' stop' children =>
        rcases List.mem_cons.1 hp with rfl | hp
        · exact absurd rfl hroot
        · exact isHidden_of_mem_spliceAll hp
    rw [hlabel, Node.isHidden, isHidden, Bool.or_eq_false_iff] at hvisible
    exact ⟨hvisible.2, by simpa using hvisible.1⟩

end Tree

end Constituency
