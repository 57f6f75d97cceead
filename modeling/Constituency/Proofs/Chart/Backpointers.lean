import Constituency.Chart.Derivation
import Mathlib.Data.List.Basic
import Mathlib.Logic.Relation

/-!
# Following backpointers

A table of backpointers can be followed from each of its entries if its children are entries again
and its unary backpointers lead downwards in some rank. A relation between the symbols of a cell that
never runs in circles gives such a rank, which stays below the number of symbols.
-/

namespace Constituency

/-! ## Ranks -/

/-- The number of symbols below a bound that come before a symbol. -/
def rankBelow (bound : Nat) (before : NonTerminal → NonTerminal → Bool) (nt : NonTerminal) : Nat :=
  (List.range bound).countP (before · nt)

section Rank

variable {bound : Nat} {before : NonTerminal → NonTerminal → Bool} {a b : NonTerminal}

theorem rankBelow_lt_rankBelow
    (htrans : ∀ x y z, before x y = true → before y z = true → before x z = true)
    (hirrefl : ∀ x, before x x = false) (ha : a < bound) (hab : before a b = true) :
    rankBelow bound before a < rankBelow bound before b := by
  have hmem : a ∈ List.range bound := List.mem_range.2 ha
  have hsub : ∀ x, before x a = true → before x b = true := fun x hx => htrans x a b hx hab
  rw [rankBelow, rankBelow, List.countP_eq_length_filter, List.countP_eq_length_filter]
  have hle : ((List.range bound).filter (before · a)).Sublist
      ((List.range bound).filter (before · b)) :=
    List.monotone_filter_right _ fun x hx => hsub x hx
  refine Nat.lt_of_le_of_ne hle.length_le fun heq => ?_
  have hin : a ∈ (List.range bound).filter (before · a) :=
    hle.eq_of_length heq ▸ List.mem_filter.2 ⟨hmem, hab⟩
  rw [List.mem_filter, hirrefl] at hin
  exact Bool.noConfusion hin.2

theorem rankBelow_le : rankBelow bound before a ≤ bound := by
  have := List.countP_le_length (p := (before · a)) (l := List.range bound)
  rwa [List.length_range] at this

section Depth

variable {link : NonTerminal → NonTerminal → Prop}

open Classical in
/-- The number of symbols below a bound that links lead to from a symbol. -/
noncomputable def depthBelow (bound : Nat) (link : NonTerminal → NonTerminal → Prop)
    (nt : NonTerminal) : Nat :=
  rankBelow bound (fun x y => decide (Relation.TransGen link y x)) nt

theorem depthBelow_le : depthBelow bound link a ≤ bound := rankBelow_le

open Classical in
theorem depthBelow_lt_of_link (hacyclic : ∀ x, ¬ Relation.TransGen link x x) (hlink : link a b)
    (hb : b < bound) : depthBelow bound link b < depthBelow bound link a := by
  refine rankBelow_lt_rankBelow (fun x y z hxy hyz => ?_) (fun x => ?_) hb ?_
  · rw [decide_eq_true_iff] at hxy hyz ⊢
    exact hyz.trans hxy
  · rw [decide_eq_false_iff_not]
    exact hacyclic x
  · rw [decide_eq_true_iff]
    exact .single hlink

end Depth

end Rank

/-! ## Tables -/

namespace Backpointers

variable {b : Backpointers} {start stop : Nat} {nt : NonTerminal}

theorem follow_lexical {word : Terminal} (h : b.find? start stop nt = some (.lexical word))
    (hw : start < b.words.length) (unaries : Nat) :
    b.follow start stop nt unaries =
      some (.join (b.name nt) [.leaf (b.words.getD start "") start]) := by
  rw [follow, h]
  simp [List.getElem?_eq_getElem hw]

theorem follow_unary {child : NonTerminal} (h : b.find? start stop nt = some (.unary child))
    (unaries : Nat) :
    b.follow start stop nt (unaries + 1) =
      (b.follow start stop child unaries).map fun tree => .join (b.name nt) [tree] := by
  rw [follow, h]

/-- A backpointer of a symbol to itself leads nowhere. -/
theorem follow_eq_none_of_loop (h : b.find? start stop nt = some (.unary nt)) (unaries : Nat) :
    b.follow start stop nt unaries = none := by
  induction unaries with
  | zero => rw [follow, h]
  | succ unaries ih => rw [follow_unary h, ih, Option.map_none]

theorem follow_binary {left right : NonTerminal} {midpoint : Nat}
    (h : b.find? start stop nt = some (.binary left right midpoint)) (hl : start < midpoint)
    (hr : midpoint < stop) {leftTree rightTree : Tree}
    (hleft : b.follow start midpoint left b.maxUnaries = some leftTree)
    (hright : b.follow midpoint stop right b.maxUnaries = some rightTree) (unaries : Nat) :
    b.follow start stop nt unaries = some (.join (b.name nt) [leftTree, rightTree]) := by
  rw [follow, h]
  simp only
  rw [dif_pos ⟨hl, hr⟩, hleft, hright]

/-- Children are entries of the table, and unary ones have a lower rank. -/
structure Ranked (b : Backpointers) (rank : Nat → Nat → NonTerminal → Nat) : Prop where
  rank_le : ∀ i j A, rank i j A ≤ b.maxUnaries
  lexical : ∀ i j A word, b.find? i j A = some (.lexical word) → j = i + 1 ∧ i < b.words.length
  unary : ∀ i j A child, b.find? i j A = some (.unary child) →
    (b.find? i j child).isSome = true ∧ rank i j child < rank i j A
  binary : ∀ i j A left right midpoint, b.find? i j A = some (.binary left right midpoint) →
    i < midpoint ∧ midpoint < j ∧ (b.find? i midpoint left).isSome = true ∧
      (b.find? midpoint j right).isSome = true

namespace Ranked

variable {rank : Nat → Nat → NonTerminal → Nat}

/-- Entries are built up from those of shorter spans, and from those of lower rank. -/
theorem induction (h : b.Ranked rank) {motive : Nat → Nat → NonTerminal → Prop}
    (lexical : ∀ i A word, b.find? i (i + 1) A = some (.lexical word) → motive i (i + 1) A)
    (unary : ∀ i j A child, b.find? i j A = some (.unary child) → motive i j child →
      motive i j A)
    (binary : ∀ i j A left right midpoint, b.find? i j A = some (.binary left right midpoint) →
      motive i midpoint left → motive midpoint j right → motive i j A)
    (i j : Nat) (A : NonTerminal) (hA : (b.find? i j A).isSome = true) : motive i j A := by
  suffices ∀ width r i j A, j - i = width → rank i j A = r → (b.find? i j A).isSome = true →
      motive i j A from this _ _ i j A rfl rfl hA
  intro width
  induction width using Nat.strongRecOn with
  | _ width ihWidth =>
    intro r
    induction r using Nat.strongRecOn with
    | _ r ihRank =>
      intro i j A hwidth hrank hsome
      obtain ⟨bp, hbp⟩ := Option.isSome_iff_exists.1 hsome
      cases bp with
      | lexical word =>
        obtain ⟨rfl, -⟩ := h.lexical _ _ _ _ hbp
        exact lexical i A word hbp
      | unary child =>
        obtain ⟨hchild, hlt⟩ := h.unary _ _ _ _ hbp
        exact unary i j A child hbp (ihRank _ (hrank ▸ hlt) i j child hwidth rfl hchild)
      | binary left right midpoint =>
        obtain ⟨hl, hr, hleft, hright⟩ := h.binary _ _ _ _ _ _ hbp
        exact binary i j A left right midpoint hbp
          (ihWidth _ (by omega) _ i midpoint left rfl rfl hleft)
          (ihWidth _ (by omega) _ midpoint j right rfl rfl hright)

/-- Every entry of the table has a tree. -/
theorem isSome_follow (h : b.Ranked rank) (i j : Nat) (A : NonTerminal)
    (hA : (b.find? i j A).isSome = true) (unaries : Nat) (hrank : rank i j A ≤ unaries) :
    (b.follow i j A unaries).isSome = true := by
  revert unaries hrank
  refine h.induction
    (motive := fun i j A => ∀ unaries, rank i j A ≤ unaries → (b.follow i j A unaries).isSome = true)
    ?_ ?_ ?_ i j A hA
  · intro i A word hbp unaries _
    rw [follow_lexical hbp (h.lexical _ _ _ _ hbp).2]
    rfl
  · intro i j A child hbp ih unaries hrank
    have hlt := (h.unary _ _ _ _ hbp).2
    obtain ⟨unaries, rfl⟩ : ∃ n, unaries = n + 1 := ⟨unaries - 1, by omega⟩
    rw [follow_unary hbp, Option.isSome_map]
    exact ih unaries (by omega)
  · intro i j A left right midpoint hbp ihl ihr unaries _
    obtain ⟨hl, hr, -, -⟩ := h.binary _ _ _ _ _ _ hbp
    obtain ⟨leftTree, hleft⟩ := Option.isSome_iff_exists.1 (ihl _ (h.rank_le _ _ _))
    obtain ⟨rightTree, hright⟩ := Option.isSome_iff_exists.1 (ihr _ (h.rank_le _ _ _))
    rw [follow_binary hbp hl hr hleft hright]
    rfl

end Ranked

end Backpointers

end Constituency
