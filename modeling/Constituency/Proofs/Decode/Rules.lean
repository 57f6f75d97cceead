import Constituency.Proofs.Chart.Possible
import Constituency.Proofs.Decode.RuleTable

/-!
# What a decoder by rules derives

The rules that a decoder weighs are those of the grammar, over coarse categories, whose parents are
possible outside and whose children are in the chart (`mem_rules_lexical`, `mem_rules_binary`,
`mem_rules_unary`). In the finished table no word and no binary rule over derivations is missing, and a
unary rule only if its child is the parent of another one (`Filled`); what the table derives can be read
off as a tree (`isSome_follow_table`).
-/

namespace Constituency

namespace RuleTask

open RuleTable (Grows)

variable {α : Type} [Score α] {t : RuleTask α} {table : RuleTable α} {i j m : Nat}
  {r : CoarseRule}

/-! ## Rules and their instances -/

/-- The rules of some instances. -/
def rules (instances : List (CoarseRule × α)) : List CoarseRule :=
  instances.map (·.1)

omit [Score α] in
theorem mem_rules {instances : List (CoarseRule × α)} :
    r ∈ rules instances ↔ ∃ x ∈ instances, x.1 = r := List.mem_map

theorem mem_rules_addScore {rule : CoarseRule} {x : α} {sums : List (CoarseRule × α)} :
    r ∈ rules (t.addScore rule x sums) ↔ r = rule ∨ r ∈ rules sums := by
  induction sums with
  | nil => simp [addScore, rules]
  | cons y rest ih =>
    obtain ⟨other, sum⟩ := y
    rw [addScore]
    split
    · next heq => simp [rules, heq]
    · simp only [rules, List.map_cons, List.mem_cons] at ih ⊢
      rw [ih, or_left_comm]

/-- To sum instances up loses no rule. -/
theorem mem_rules_summed {instances : List (CoarseRule × α)} :
    r ∈ rules (t.summed instances) ↔ r ∈ rules instances := by
  have hsums : ∀ sums, r ∈ rules (instances.foldl (fun sums x => t.addScore x.1 x.2 sums) sums) ↔
      r ∈ rules instances ∨ r ∈ rules sums := by
    induction instances with
    | nil => simp [rules]
    | cons x rest ih =>
      intro sums
      rw [List.foldl_cons, ih, mem_rules_addScore]
      simp only [rules, List.map_cons, List.mem_cons]
      rw [← or_assoc, or_comm (a := r ∈ rest.map (·.1)), or_assoc]
  exact (hsums []).trans (or_iff_left List.not_mem_nil)

section Instances

variable [MonotoneScore α] {x : α}

theorem mem_unaryInstances :
    (r, x) ∈ t.unaryInstances i j ↔ ∃ p ∈ t.grammar.productions, ∃ B, p.children = .unary B ∧
      (∃ e ∈ t.chart.row i j, e.nonterminal = B ∧
        x = t.chart.outside i j p.parent + p.logProb + e.inside) ∧
      Score.impossible < t.chart.outside i j p.parent ∧
      t.grammar.symbols.base p.parent ≠ t.grammar.symbols.base B ∧
      r = ⟨t.grammar.symbols.base p.parent, .unary (t.grammar.symbols.base B)⟩ := by
  simp only [unaryInstances, List.mem_flatMap, List.mem_filterMap]
  constructor
  · rintro ⟨e, he, p, hp, hx⟩
    obtain ⟨hp, hpc⟩ := Grammar.mem_byUnaryChild.1 hp
    split at hx
    · cases hx
    · next hcond =>
      obtain ⟨rfl, rfl⟩ := Prod.mk.inj (Option.some.inj hx)
      rw [Bool.or_eq_true, not_or, Bool.not_eq_true, Score.beq_impossible_eq_false_iff,
        beq_iff_eq] at hcond
      exact ⟨p, hp, e.nonterminal, hpc, ⟨e, he, rfl, rfl⟩, hcond.1, hcond.2, rfl⟩
  · rintro ⟨p, hp, _, hpc, ⟨e, he, rfl, rfl⟩, hout, hne, rfl⟩
    refine ⟨e, he, p, Grammar.mem_byUnaryChild.2 ⟨hp, hpc⟩, if_neg ?_⟩
    rw [Bool.or_eq_true, not_or, Bool.not_eq_true, Score.beq_impossible_eq_false_iff, beq_iff_eq]
    exact ⟨hout, hne⟩

theorem mem_rules_unary :
    r ∈ rules (t.unaryInstances i j) ↔ ∃ p ∈ t.grammar.productions, ∃ B,
      p.children = .unary B ∧ B ∈ t.chart.symbols i j ∧
      Score.impossible < t.chart.outside i j p.parent ∧
      t.grammar.symbols.base p.parent ≠ t.grammar.symbols.base B ∧
      r = ⟨t.grammar.symbols.base p.parent, .unary (t.grammar.symbols.base B)⟩ := by
  rw [mem_rules]
  constructor
  · rintro ⟨x, hx, rfl⟩
    obtain ⟨p, hp, _, hpc, ⟨e, he, rfl, -⟩, hrest⟩ := mem_unaryInstances.1 hx
    exact ⟨p, hp, _, hpc, List.mem_map.2 ⟨e, he, rfl⟩, hrest⟩
  · rintro ⟨p, hp, B, hpc, hB, hrest⟩
    obtain ⟨e, he, rfl⟩ := List.mem_map.1 hB
    exact ⟨(r, _), mem_unaryInstances.2 ⟨p, hp, _, hpc, ⟨e, he, rfl, rfl⟩, hrest⟩, rfl⟩

variable (hc : t.chart.Sound t.grammar)
include hc

theorem mem_lexicalInstances :
    (r, x) ∈ t.lexicalInstances i ↔ ∃ word A, t.sentence.terminal? i = some word ∧
      A ∈ t.chart.symbols i (i + 1) ∧ t.grammar.classes.isPos A = true ∧
      Score.impossible < x ∧
      x = t.chart.outside i (i + 1) A + t.grammar.logProb A (.lexical word) ∧
      r = ⟨t.grammar.symbols.base A, .lexical word⟩ := by
  unfold lexicalInstances
  split
  · next hnone => simp [hnone]
  · next word hword =>
    simp only [List.mem_filterMap, PackedChart.symbols, List.mem_map, hword, Option.some.injEq]
    constructor
    · rintro ⟨e, he, hx⟩
      split at hx
      · next hcond =>
        obtain ⟨rfl, rfl⟩ := Prod.mk.inj (Option.some.inj hx)
        rw [Bool.and_eq_true, Bool.not_eq_true', Score.beq_impossible_eq_false_iff] at hcond
        refine ⟨word, e.nonterminal, rfl, ⟨e, he, rfl⟩, hcond.1, hcond.2, ?_, rfl⟩
        rw [PackedChart.outside_of_mem hc he]
      · cases hx
    · rintro ⟨_, _, rfl, ⟨e, he, rfl⟩, hpos, hscore, rfl, rfl⟩
      rw [PackedChart.outside_of_mem hc he] at hscore ⊢
      refine ⟨e, he, if_pos ?_⟩
      rw [hpos, Score.beq_impossible_eq_false_iff.2 hscore]
      rfl

theorem mem_rules_lexical :
    r ∈ rules (t.lexicalInstances i) ↔ ∃ word A, t.sentence.terminal? i = some word ∧
      A ∈ t.chart.symbols i (i + 1) ∧ t.grammar.classes.isPos A = true ∧
      Score.impossible < t.chart.outside i (i + 1) A + t.grammar.logProb A (.lexical word) ∧
      r = ⟨t.grammar.symbols.base A, .lexical word⟩ := by
  rw [mem_rules]
  constructor
  · rintro ⟨x, hx, rfl⟩
    obtain ⟨word, A, hword, hA, hpos, hscore, heq, hr⟩ := (mem_lexicalInstances hc).1 hx
    exact ⟨word, A, hword, hA, hpos, heq ▸ hscore, hr⟩
  · rintro ⟨word, A, hword, hA, hpos, hscore, hr⟩
    exact ⟨(r, _), (mem_lexicalInstances hc).2 ⟨word, A, hword, hA, hpos, hscore, rfl, hr⟩, rfl⟩

theorem mem_binaryInstances :
    (r, x) ∈ t.binaryInstances i j m ↔ ∃ p ∈ t.grammar.productions, ∃ B C,
      p.children = .binary B C ∧ B ∈ t.chart.symbols i m ∧
      Score.impossible < t.chart.outside i j p.parent ∧
      Score.impossible < t.chart.inside m j C ∧
      x = t.chart.outside i j p.parent + p.logProb + t.chart.inside i m B +
        t.chart.inside m j C ∧
      r = ⟨t.grammar.symbols.base p.parent,
        .binary (t.grammar.symbols.base B) (t.grammar.symbols.base C)⟩ := by
  simp only [binaryInstances, List.mem_map, List.mem_flatMap, List.mem_filterMap,
    PackedChart.scored_eq hc]
  constructor
  · rintro ⟨⟨_, _⟩, ⟨B, hB, hBx⟩, p, hp, hx⟩
    obtain ⟨rfl, rfl⟩ := Prod.mk.inj hBx
    obtain ⟨hp, C, hpc⟩ := Grammar.mem_byLeftChild.1 hp
    simp only [hpc] at hx
    split at hx
    · cases hx
    · next hcond =>
      obtain ⟨rfl, rfl⟩ := Prod.mk.inj (Option.some.inj hx)
      rw [Bool.or_eq_true, not_or, Bool.not_eq_true, Bool.not_eq_true,
        Score.beq_impossible_eq_false_iff, Score.beq_impossible_eq_false_iff] at hcond
      exact ⟨p, hp, B, C, hpc, (List.mem_filter.1 hB).1, hcond.1, hcond.2, rfl, rfl⟩
  · rintro ⟨p, hp, B, C, hpc, hB, hout, hin, rfl, rfl⟩
    have hleft : t.chart.classes.isLeft B = true := by
      rw [hc.classes_eq]
      exact Grammar.isLeft_of_mem hp hpc
    have hcond : ¬ (t.chart.outside i j p.parent == Score.impossible ||
        t.chart.inside m j C == Score.impossible) = true := by
      rw [Bool.or_eq_true, not_or, Bool.not_eq_true, Bool.not_eq_true,
        Score.beq_impossible_eq_false_iff, Score.beq_impossible_eq_false_iff]
      exact ⟨hout, hin⟩
    refine ⟨(B, t.chart.inside i m B), ⟨B, List.mem_filter.2 ⟨hB, hleft⟩, rfl⟩, p,
      Grammar.mem_byLeftChild.2 ⟨hp, C, hpc⟩, ?_⟩
    simp only [hpc]
    exact if_neg hcond

theorem mem_rules_binary :
    r ∈ rules (t.binaryInstances i j m) ↔ ∃ p ∈ t.grammar.productions, ∃ B C,
      p.children = .binary B C ∧ B ∈ t.chart.symbols i m ∧
      Score.impossible < t.chart.outside i j p.parent ∧
      Score.impossible < t.chart.inside m j C ∧
      r = ⟨t.grammar.symbols.base p.parent,
        .binary (t.grammar.symbols.base B) (t.grammar.symbols.base C)⟩ := by
  rw [mem_rules]
  constructor
  · rintro ⟨x, hx, rfl⟩
    obtain ⟨p, hp, B, C, hpc, hB, hout, hin, -, hr⟩ := (mem_binaryInstances hc).1 hx
    exact ⟨p, hp, B, C, hpc, hB, hout, hin, hr⟩
  · rintro ⟨p, hp, B, C, hpc, hB, hout, hin, hr⟩
    exact ⟨(r, _), (mem_binaryInstances hc).2 ⟨p, hp, B, C, hpc, hB, hout, hin, rfl, hr⟩, rfl⟩

end Instances

/-! ## Offers -/

/-- Offers a rule for a word. -/
def lexicalStep (t : RuleTask α) (start : Nat) (table : RuleTable α) (x : CoarseRule × α) :
    RuleTable α :=
  match x.1.children with
  | .lexical word =>
    RuleTable.offer table start (start + 1) x.1.parent (x.2 - t.sentenceScore) (.lexical word)
  | _ => table

/-- Offers a binary rule at a midpoint. -/
def binaryStep (t : RuleTask α) (start stop midpoint : Nat) (table : RuleTable α)
    (x : CoarseRule × α) : RuleTable α :=
  match x.1.children with
  | .binary left right =>
    match RuleTable.find? table start midpoint left,
        RuleTable.find? table midpoint stop right with
    | some leftCell, some rightCell =>
      RuleTable.offer table start stop x.1.parent
        (x.2 - t.sentenceScore + t.weight leftCell + t.weight rightCell)
        (.binary left right midpoint)
    | _, _ => table
  | _ => table

/-- Offers a unary rule. -/
def unaryStep (t : RuleTask α) (start stop : Nat) (table : RuleTable α) (x : CoarseRule × α) :
    RuleTable α :=
  match x.1.children with
  | .unary child =>
    match RuleTable.find? table start stop child with
    | none => table
    | some cell =>
      if cell.backpointer.isUnary then table
      else
        RuleTable.offer table start stop x.1.parent (x.2 - t.sentenceScore + t.weight cell)
          (.unary child)
  | _ => table

theorem offerLexical_eq : t.offerLexical i table =
    (t.summed (t.lexicalInstances i)).foldl (t.lexicalStep i) table := rfl

theorem offerBinary_eq : t.offerBinary i j table m =
    (t.summed (t.binaryInstances i j m)).foldl (t.binaryStep i j m) table := rfl

theorem offerUnary_eq : t.offerUnary i j table =
    ((t.summed (t.unaryInstances i j)).mergeSort unaryBefore).foldl (t.unaryStep i j) table := rfl

/-- If the unary rules come up in the order of the offers, they are offered as they come. -/
theorem offerUnary_of_pairwise
    (h : (t.summed (t.unaryInstances i j)).Pairwise fun a b => unaryBefore a b = true) :
    t.offerUnary i j table =
      (t.summed (t.unaryInstances i j)).foldl (t.unaryStep i j) table := by
  rw [offerUnary_eq, List.mergeSort_of_pairwise h]

section Steps

variable {n : Nat} {x : CoarseRule × α} {X Y Z : NonTerminal} {word : Terminal}

theorem grows_lexicalStep (hi : i + 1 ≤ table.size) :
    Grows n i (i + 1) (fun _ => True) False table (t.lexicalStep i table x) := by
  unfold lexicalStep
  split
  · next word _ =>
    have hoff : table.Offerable i (i + 1) x.1.parent (.lexical word) := ⟨rfl, nofun⟩
    exact (Grows.offer (Nat.lt_succ_self i) hi hoff).mono (fun _ _ => trivial) nofun
  · exact .refl ..

theorem has_lexicalStep (h : table.Sound n) (hi : i + 1 ≤ table.size) (hX : X < n)
    (hx : x.1 = ⟨X, .lexical word⟩) : (t.lexicalStep i table x).Has i (i + 1) X := by
  unfold lexicalStep
  rw [hx]
  exact RuleTable.has_offer h (Nat.lt_succ_self i) hi hX

theorem grows_binaryStep (hm : i < m ∧ m < j) (hj : j ≤ table.size) :
    Grows n i j (fun _ => True) False table (t.binaryStep i j m table x) := by
  unfold binaryStep
  split
  · next left right _ =>
    split
    · next hleft hright =>
      have hoff : table.Offerable i j x.1.parent (.binary left right m) :=
        ⟨⟨hm, Option.isSome_iff_exists.2 ⟨_, hleft⟩, Option.isSome_iff_exists.2 ⟨_, hright⟩⟩, nofun⟩
      exact (Grows.offer (by omega) hj hoff).mono (fun _ _ => trivial) nofun
    · exact .refl ..
  · exact .refl ..

theorem has_binaryStep (h : table.Sound n) (hm : i < m ∧ m < j) (hj : j ≤ table.size) (hX : X < n)
    (hx : x.1 = ⟨X, .binary Y Z⟩) (hY : table.Has i m Y) (hZ : table.Has m j Z) :
    (t.binaryStep i j m table x).Has i j X := by
  obtain ⟨left, hleft⟩ := Option.isSome_iff_exists.1 hY
  obtain ⟨right, hright⟩ := Option.isSome_iff_exists.1 hZ
  unfold binaryStep
  rw [hx]
  simp only [hleft, hright]
  exact RuleTable.has_offer h (by omega) hj hX

theorem grows_unaryStep (hij : i < j) (hj : j ≤ table.size)
    (hne : ∀ Y, x.1.children = .unary Y → Y ≠ x.1.parent) :
    Grows n i j (· = x.1.parent) True table (t.unaryStep i j table x) := by
  unfold unaryStep
  split
  · next child hchild =>
    split
    · exact .refl ..
    · next cell hcell =>
      split
      · exact .refl ..
      · next hunary =>
        have hlinks : ∀ Z, ¬ table.Link i j child Z := by
          rintro Z ⟨held, hheld, hZ⟩
          obtain rfl := Option.some.inj (hcell.symm.trans hheld)
          rw [hZ] at hunary
          exact hunary rfl
        have hoff : table.Offerable i j x.1.parent (.unary child) := by
          refine ⟨Option.isSome_iff_exists.2 ⟨cell, hcell⟩, fun Y hY => ?_⟩
          obtain rfl := Backpointer.unary.inj hY
          exact ⟨hne _ hchild, hlinks⟩
        exact (Grows.offer hij hj hoff).mono (fun _ => id) fun _ => trivial
  · exact .refl ..

theorem has_unaryStep (h : table.Sound n) (hij : i < j) (hj : j ≤ table.size) (hX : X < n)
    (hx : x.1 = ⟨X, .unary Y⟩) (hY : table.Has i j Y) (hlinks : ∀ Z, ¬ table.Link i j Y Z) :
    (t.unaryStep i j table x).Has i j X := by
  obtain ⟨cell, hcell⟩ := Option.isSome_iff_exists.1 hY
  have hunary : ¬ cell.backpointer.isUnary = true := by
    intro hunary
    cases hb : cell.backpointer with
    | unary Z => exact hlinks Z ⟨cell, hcell, hb⟩
    | lexical | binary =>
      rw [hb] at hunary
      cases hunary
  unfold unaryStep
  rw [hx]
  simp only [hcell]
  rw [if_neg hunary]
  exact RuleTable.has_offer h hij hj hX

/-! ## Cells -/

theorem grows_offerLexical (hi : i + 1 ≤ table.size) :
    Grows n i (i + 1) (fun _ => True) False table (t.offerLexical i table) := by
  rw [offerLexical_eq]
  exact .foldl fun x _ table' hsize => grows_lexicalStep (hsize ▸ hi)

theorem has_offerLexical (h : table.Sound n) (hi : i + 1 ≤ table.size) (hX : X < n)
    (hr : ⟨X, .lexical word⟩ ∈ rules (t.lexicalInstances i)) :
    (t.offerLexical i table).Has i (i + 1) X := by
  obtain ⟨x, hmem, hx⟩ := mem_rules.1 (mem_rules_summed.2 hr)
  rw [offerLexical_eq]
  refine Grows.has_foldl (n := n) (fun x _ table' hsize => grows_lexicalStep (hsize ▸ hi)) hmem
    fun table' hgrown => ?_
  exact has_lexicalStep (hgrown.sound h) (hgrown.size_eq ▸ hi) hX hx

theorem grows_offerBinary (hm : i < m ∧ m < j) (hj : j ≤ table.size) :
    Grows n i j (fun _ => True) False table (t.offerBinary i j table m) := by
  rw [offerBinary_eq]
  exact .foldl fun x _ table' hsize => grows_binaryStep hm (hsize ▸ hj)

theorem has_offerBinary (h : table.Sound n) (hm : i < m ∧ m < j) (hj : j ≤ table.size)
    (hX : X < n) (hr : ⟨X, .binary Y Z⟩ ∈ rules (t.binaryInstances i j m))
    (hY : table.Has i m Y) (hZ : table.Has m j Z) : (t.offerBinary i j table m).Has i j X := by
  obtain ⟨x, hmem, hx⟩ := mem_rules.1 (mem_rules_summed.2 hr)
  rw [offerBinary_eq]
  refine Grows.has_foldl (n := n) (fun x _ table' hsize => grows_binaryStep hm (hsize ▸ hj)) hmem
    fun table' hgrown => ?_
  exact has_binaryStep (hgrown.sound h) hm (hgrown.size_eq ▸ hj) hX hx (hgrown.kept _ _ _ hY)
    (hgrown.kept _ _ _ hZ)

/-- The coarse category is the parent of a unary rule over a span. -/
def Topped (t : RuleTask α) (i j : Nat) (X : NonTerminal) : Prop :=
  ∃ Y, ⟨X, .unary Y⟩ ∈ rules (t.unaryInstances i j)

variable [MonotoneScore α]

theorem grows_of_mem_unary (hij : i < j) (hj : j ≤ table.size)
    (hx : x ∈ (t.summed (t.unaryInstances i j)).mergeSort unaryBefore) :
    Grows n i j (t.Topped i j) True table (t.unaryStep i j table x) := by
  have hr : x.1 ∈ rules (t.unaryInstances i j) :=
    mem_rules_summed.1 (mem_rules.2 ⟨x, List.mem_mergeSort.1 hx, rfl⟩)
  obtain ⟨p, -, B, -, -, -, hne, hrule⟩ := mem_rules_unary.1 hr
  rw [hrule] at hr
  refine (grows_unaryStep hij hj fun Y hY => ?_).mono (fun X hX => ?_) id
  · rw [hrule] at hY ⊢
    obtain rfl := Children.unary.inj hY
    exact hne.symm
  · rw [hX, hrule]
    exact ⟨_, hr⟩

theorem grows_offerUnary (hij : i < j) (hj : j ≤ table.size) :
    Grows n i j (t.Topped i j) True table (t.offerUnary i j table) := by
  rw [offerUnary_eq]
  exact .foldl fun x hx table' hsize => grows_of_mem_unary hij (hsize ▸ hj) hx

theorem has_offerUnary (h : table.Sound n) (hij : i < j) (hj : j ≤ table.size) (hX : X < n)
    (hr : ⟨X, .unary Y⟩ ∈ rules (t.unaryInstances i j)) (hY : table.Has i j Y)
    (hlinks : ∀ Z, ¬ table.Link i j Y Z) (htop : ¬ t.Topped i j Y) :
    (t.offerUnary i j table).Has i j X := by
  obtain ⟨x, hmem, hx⟩ := mem_rules.1 (mem_rules_summed.2 hr)
  rw [offerUnary_eq]
  refine Grows.has_foldl (n := n) (fun x hx table' hsize => grows_of_mem_unary hij (hsize ▸ hj) hx)
    (List.mem_mergeSort.2 hmem) fun table' hgrown => ?_
  refine has_unaryStep (hgrown.sound h) hij (hgrown.size_eq ▸ hj) hX hx (hgrown.kept _ _ _ hY) ?_
  -- what is not topped still has the derivation of its own that it had before the unary rules
  rintro Z ⟨cell, hcell, hZ⟩
  rw [hgrown.elsewhere i j Y fun hhere => htop hhere.2] at hcell
  exact hlinks Z ⟨cell, hcell, hZ⟩

/-- The derivations over a span without those by unary rules. -/
def withoutUnaries (t : RuleTask α) (i j : Nat) (table : RuleTable α) : RuleTable α :=
  if j == i + 1 then t.offerLexical i table else (midpoints i j).foldl (t.offerBinary i j) table

omit [MonotoneScore α] in
theorem fillCell_eq :
    t.fillCell table (i, j) = t.offerUnary i j (t.withoutUnaries i j table) := rfl

omit [MonotoneScore α] in
theorem grows_withoutUnaries (hj : j ≤ table.size) :
    Grows n i j (fun _ => True) False table (t.withoutUnaries i j table) := by
  unfold withoutUnaries
  split
  · next hone =>
    obtain rfl := beq_iff_eq.1 hone
    exact grows_offerLexical hj
  · exact .foldl fun m hm table' hsize => grows_offerBinary (mem_midpoints.1 hm) (hsize ▸ hj)

theorem grows_fillCell (hij : i < j) (hj : j ≤ table.size) :
    Grows n i j (fun _ => True) True table (t.fillCell table (i, j)) := by
  have hgrown : Grows n i j (fun _ => True) False table (t.withoutUnaries i j table) :=
    grows_withoutUnaries hj
  rw [fillCell_eq]
  exact (hgrown.mono (fun _ => id) False.elim).trans
    ((grows_offerUnary hij (hgrown.size_eq ▸ hj)).mono (fun _ _ => trivial) id)

theorem has_fillCell_lexical (h : table.Sound n) (hi : i + 1 ≤ table.size) (hX : X < n)
    (hr : ⟨X, .lexical word⟩ ∈ rules (t.lexicalInstances i)) :
    (t.fillCell table (i, i + 1)).Has i (i + 1) X := by
  have hgrown : Grows n i (i + 1) (fun _ => True) False table (t.withoutUnaries i (i + 1) table) :=
    grows_withoutUnaries hi
  rw [fillCell_eq]
  refine (grows_offerUnary (n := n) (Nat.lt_succ_self i) (hgrown.size_eq ▸ hi)).kept _ _ _ ?_
  rw [withoutUnaries, if_pos (beq_self_eq_true _)]
  exact has_offerLexical h hi hX hr

theorem has_fillCell_binary (h : table.Sound n) (hm : i < m ∧ m < j) (hj : j ≤ table.size)
    (hX : X < n) (hr : ⟨X, .binary Y Z⟩ ∈ rules (t.binaryInstances i j m))
    (hY : table.Has i m Y) (hZ : table.Has m j Z) : (t.fillCell table (i, j)).Has i j X := by
  have hgrown : Grows n i j (fun _ => True) False table (t.withoutUnaries i j table) :=
    grows_withoutUnaries hj
  have hone : ¬ (j == i + 1) = true := by
    rw [beq_iff_eq]
    omega
  rw [fillCell_eq]
  refine (grows_offerUnary (n := n) (by omega) (hgrown.size_eq ▸ hj)).kept _ _ _ ?_
  rw [withoutUnaries, if_neg hone]
  refine Grows.has_foldl (n := n)
    (fun m hm table' hsize => grows_offerBinary (mem_midpoints.1 hm) (hsize ▸ hj))
    (mem_midpoints.2 hm) fun table' hgrown' => ?_
  exact has_offerBinary (hgrown'.sound h) hm (hgrown'.size_eq ▸ hj) hX hr (hgrown'.kept _ _ _ hY)
    (hgrown'.kept _ _ _ hZ)

/-- In a cell that was blank, a unary rule is only missing if its child is, or is topped. -/
theorem has_fillCell_unary (h : table.Sound n) (hij : i < j) (hj : j ≤ table.size) (hX : X < n)
    (hblank : ∀ Y, ¬ table.Has i j Y) (hr : ⟨X, .unary Y⟩ ∈ rules (t.unaryInstances i j))
    (htop : ¬ t.Topped i j Y) (hY : (t.fillCell table (i, j)).Has i j Y) :
    (t.fillCell table (i, j)).Has i j X := by
  have hgrown : Grows n i j (fun _ => True) False table (t.withoutUnaries i j table) :=
    grows_withoutUnaries hj
  have hj' : j ≤ (t.withoutUnaries i j table).size := hgrown.size_eq ▸ hj
  have hunaries : Grows n i j (t.Topped i j) True (t.withoutUnaries i j table)
      (t.fillCell table (i, j)) := grows_offerUnary hij hj'
  have hlinks : ∀ Z, ¬ (t.withoutUnaries i j table).Link i j Y Z := fun Z hlink => by
    obtain ⟨cell, hcell, -⟩ := (hgrown.linked i j Y Z hlink).resolve_right id
    exact hblank Y (Option.isSome_iff_exists.2 ⟨cell, hcell⟩)
  rw [RuleTable.Has, hunaries.elsewhere i j Y fun hhere => htop hhere.2] at hY
  exact has_offerUnary (hgrown.sound h) hij hj' hX hr hY hlinks htop

end Steps

/-! ## Tables -/

section Tables

variable [MonotoneScore α]

/-- The cells of some spans have been filled with all that the rules derive, but for unary rules over a
child that is topped. -/
structure Filled (t : RuleTask α) (visited : List (Nat × Nat)) (table : RuleTable α) : Prop where
  sound : table.Sound t.grammar.symbols.numBases
  size_eq : table.size = t.chart.size
  blank : ∀ i j X, (i, j) ∉ visited → ¬ table.Has i j X
  lexical : ∀ i X word, (i, i + 1) ∈ visited → X < t.grammar.symbols.numBases →
    ⟨X, .lexical word⟩ ∈ rules (t.lexicalInstances i) → table.Has i (i + 1) X
  binary : ∀ i m j X Y Z, (i, j) ∈ visited → i < m ∧ m < j → X < t.grammar.symbols.numBases →
    ⟨X, .binary Y Z⟩ ∈ rules (t.binaryInstances i j m) → table.Has i m Y → table.Has m j Z →
      table.Has i j X
  unary : ∀ i j X Y, (i, j) ∈ visited → X < t.grammar.symbols.numBases →
    ⟨X, .unary Y⟩ ∈ rules (t.unaryInstances i j) → ¬ t.Topped i j Y → table.Has i j Y →
      table.Has i j X

theorem Filled.fillCell {visited : List (Nat × Nat)} (h : t.Filled visited table) (hij : i < j)
    (hj : j ≤ t.chart.size) (hnew : (i, j) ∉ visited)
    (hlonger : ∀ k l, (k, l) ∈ visited → l - k ≤ j - i) :
    t.Filled (visited ++ [(i, j)]) (t.fillCell table (i, j)) := by
  have hj' : j ≤ table.size := h.size_eq ▸ hj
  have hgrown : Grows t.grammar.symbols.numBases i j (fun _ => True) True table
      (t.fillCell table (i, j)) := grows_fillCell hij hj'
  have helse : ∀ k l X, ¬ (k = i ∧ l = j) → (t.fillCell table (i, j)).Has k l X → table.Has k l X := by
    intro k l X hne hX
    rwa [RuleTable.Has, hgrown.elsewhere k l X fun hhere => hne hhere.1] at hX
  have hmem : ∀ {k l}, (k, l) ∈ visited ++ [(i, j)] ↔ (k, l) ∈ visited ∨ (k = i ∧ l = j) := by
    intro k l
    rw [List.mem_append, List.mem_singleton, Prod.mk.injEq]
  refine
    { sound := hgrown.sound h.sound
      size_eq := hgrown.size_eq.trans h.size_eq
      blank := fun k l X hkl hX => ?_
      lexical := fun k X word hkl hX hr => ?_
      binary := fun k m l X Y Z hkl hm hX hr hY hZ => ?_
      unary := fun k l X Y hkl hX hr htop hY => ?_ }
  · rw [hmem, not_or] at hkl
    exact h.blank k l X hkl.1 (helse k l X hkl.2 hX)
  · rcases hmem.1 hkl with hkl | ⟨rfl, rfl⟩
    · exact hgrown.kept _ _ _ (h.lexical k X word hkl hX hr)
    · exact has_fillCell_lexical h.sound hj' hX hr
  · have hshort : l - k ≤ j - i := by
      rcases hmem.1 hkl with hkl | ⟨rfl, rfl⟩
      · exact hlonger k l hkl
      · exact Nat.le_refl _
    have hY' := helse k m Y (by omega) hY
    have hZ' := helse m l Z (by omega) hZ
    rcases hmem.1 hkl with hkl | ⟨rfl, rfl⟩
    · exact hgrown.kept _ _ _ (h.binary k m l X Y Z hkl hm hX hr hY' hZ')
    · exact has_fillCell_binary h.sound hm hj' hX hr hY' hZ'
  · rcases hmem.1 hkl with hold | ⟨rfl, rfl⟩
    · have hne : ¬ (k = i ∧ l = j) := by
        rintro ⟨rfl, rfl⟩
        exact hnew hold
      exact hgrown.kept _ _ _ (h.unary k l X Y hold hX hr htop (helse k l Y hne hY))
    · exact has_fillCell_unary h.sound hij hj' hX (h.blank k l · hnew) hr htop hY

omit [MonotoneScore α] in
/-- The table without derivations. -/
theorem filled_make (t : RuleTask α) : t.Filled []
    (StrideTable.make t.chart.size t.grammar.symbols.numBases) := by
  have hfind : ∀ i j X, RuleTable.find? (StrideTable.make (β := RuleCell α) t.chart.size
      t.grammar.symbols.numBases) i j X = none := fun i j X => StrideTable.find?_make _ _ i j X
  refine
    { sound := ⟨rfl, fun i j X cell hcell => ?_, fun i j X hX => ?_⟩
      size_eq := rfl
      blank := fun i j X _ hX => ?_
      lexical := fun _ _ _ hmem => absurd hmem List.not_mem_nil
      binary := fun _ _ _ _ _ _ hmem => absurd hmem List.not_mem_nil
      unary := fun _ _ _ _ hmem => absurd hmem List.not_mem_nil }
  · rw [hfind] at hcell
    cases hcell
  · obtain ⟨Y, ⟨cell, hcell, -⟩, -⟩ := Relation.TransGen.head'_iff.1 hX
    rw [hfind] at hcell
    cases hcell
  · rw [RuleTable.Has, hfind] at hX
    cases hX

/-- The cells of all spans are filled. -/
theorem filled_table (t : RuleTask α) : t.Filled (spansUp t.chart.size) t.table :=
  spansUp_induction (P := t.Filled) t.filled_make
    fun _ _ _ _ hij hj hnew _ hlonger hv => hv.fillCell hij hj hnew hlonger

/-- Trees can be read off the table. -/
theorem isSome_follow_table (hsize : t.chart.size = t.sentence.size) {X : NonTerminal}
    (hX : t.table.Has i j X) :
    ((t.backpointers t.table).follow i j X (t.backpointers t.table).maxUnaries).isSome = true := by
  have hsound := t.filled_table.sound
  have hfind : ∀ {k l Y b}, (t.backpointers t.table).find? k l Y = some b →
      ∃ cell, RuleTable.find? t.table k l Y = some cell ∧ cell.backpointer = b :=
    Option.map_eq_some_iff.1
  have hbuilt : ∀ {k l Y b}, (t.backpointers t.table).find? k l Y = some b → t.table.Built k l b := by
    intro k l Y b hb
    obtain ⟨cell, hcell, rfl⟩ := hfind hb
    exact hsound.built k l Y cell hcell
  have hhas : ∀ {k l Y}, t.table.Has k l Y → ((t.backpointers t.table).find? k l Y).isSome = true :=
    fun hY => Option.isSome_map.trans hY
  have hranked : (t.backpointers t.table).Ranked
      (fun k l => depthBelow t.grammar.symbols.numBases (t.table.Link k l)) := by
    refine ⟨fun k l Y => Nat.le_succ_of_le depthBelow_le, fun k l Y word hword => ?_,
      fun k l Y child hchild => ?_, fun k l Y left right midpoint hbinary => ?_⟩
    · obtain ⟨cell, hcell, -⟩ := hfind hword
      have hbounds := hsound.bounds (Option.isSome_iff_exists.2 ⟨cell, hcell⟩)
      rw [t.filled_table.size_eq, hsize] at hbounds
      exact ⟨hbuilt hword, Nat.lt_of_lt_of_le hbounds.1 hbounds.2.1⟩
    · have hbelow : t.table.Has k l child := hbuilt hchild
      exact ⟨hhas hbelow, depthBelow_lt_of_link (hsound.acyclic k l) (hfind hchild)
        (hsound.bounds hbelow).2.2⟩
    · obtain ⟨hm, hleft, hright⟩ := hbuilt hbinary
      exact ⟨hm.1, hm.2, hhas hleft, hhas hright⟩
  exact hranked.isSome_follow i j X (hhas hX) _ (hranked.rank_le i j X)

theorem mem_symbols_of_possible (hc : t.chart.Sound t.grammar) {A : NonTerminal}
    (hout : Score.impossible < t.chart.outside i j A) :
    A ∈ t.chart.symbols i j ∧ (i, j) ∈ spansUp t.chart.size := by
  have hmem : A ∈ t.chart.symbols i j := Classical.byContradiction fun hdead => by
    rw [PackedChart.outside_of_not_mem hc hdead] at hout
    exact Score.not_impossible_lt_impossible hout
  exact ⟨hmem, mem_spansUp.2 (hc.bounds_of_live ((PackedChart.mem_symbols hc).1 hmem))⟩

end Tables

/-! ## What is derived -/

section Derived

variable [LosslessScore α] {p : Production α} {B C : NonTerminal} {word : Terminal}
  (hc : t.chart.Sound t.grammar) (hp : p ∈ t.grammar.productions)
include hc hp

/-- No word is lost. -/
theorem has_table_word (hpc : p.children = .lexical word) (hrule : Score.impossible < p.logProb)
    (hword : t.sentence.terminal? i = some word)
    (hout : Score.impossible < t.chart.outside i (i + 1) p.parent) :
    t.table.Has i (i + 1) (t.grammar.symbols.base p.parent) := by
  obtain ⟨hmem, hspan⟩ := mem_symbols_of_possible hc hout
  have hlog : t.grammar.logProb p.parent (.lexical word) = p.logProb :=
    hpc ▸ Grammar.logProb_of_mem hp
  refine t.filled_table.lexical i _ word hspan (SymbolTable.base_lt (Grammar.parent_lt hp))
    ((mem_rules_lexical hc).2 ⟨word, p.parent, hword, hmem, Grammar.isPos_of_mem hp hpc, ?_, rfl⟩)
  rw [hlog]
  exact LosslessScore.impossible_lt_add hout hrule

/-- No binary rule over derivations is lost. -/
theorem has_table_binary (hpc : p.children = .binary B C) (hm : i < m ∧ m < j)
    (hout : Score.impossible < t.chart.outside i j p.parent) (hB : B ∈ t.chart.symbols i m)
    (hC : Score.impossible < t.chart.inside m j C)
    (hleft : t.table.Has i m (t.grammar.symbols.base B))
    (hright : t.table.Has m j (t.grammar.symbols.base C)) :
    t.table.Has i j (t.grammar.symbols.base p.parent) :=
  t.filled_table.binary i m j _ _ _ (mem_symbols_of_possible hc hout).2 hm
    (SymbolTable.base_lt (Grammar.parent_lt hp))
    ((mem_rules_binary hc).2 ⟨p, hp, B, C, hpc, hB, hout, hC, rfl⟩) hleft hright

/-- No unary rule is lost that leads to the category of its child, or whose child is not topped. -/
theorem has_table_unary (hpc : p.children = .unary B)
    (hout : Score.impossible < t.chart.outside i j p.parent) (hB : B ∈ t.chart.symbols i j)
    (htop : t.grammar.symbols.base p.parent ≠ t.grammar.symbols.base B →
      ¬ t.Topped i j (t.grammar.symbols.base B))
    (hbelow : t.table.Has i j (t.grammar.symbols.base B)) :
    t.table.Has i j (t.grammar.symbols.base p.parent) := by
  by_cases hbase : t.grammar.symbols.base p.parent = t.grammar.symbols.base B
  · rwa [hbase]
  · exact t.filled_table.unary i j _ _ (mem_symbols_of_possible hc hout).2
      (SymbolTable.base_lt (Grammar.parent_lt hp))
      (mem_rules_unary.2 ⟨p, hp, B, hpc, hB, hout, hbase, rfl⟩) (htop hbase) hbelow

end Derived

end RuleTask

end Constituency
