import Constituency.Proofs.Decode.Rules

/-!
# Where the table of a decoder by rules comes from

Whatever the table of a decoder by rules holds has been offered for an instance of a coarse rule at that
place (`offered_of_find?`), and an instance of a coarse rule is one of a production of the grammar
(`Offered.exists_production`). It makes no difference that derivations are replaced by better ones after
their parents have been derived: what they are replaced by has been offered as well.
-/

namespace Constituency

/-- A right-hand side with other symbols. -/
def Children.map (f : NonTerminal → NonTerminal) : Children → Children
  | .binary left right => .binary (f left) (f right)
  | .unary child => .unary (f child)
  | .lexical word => .lexical word

namespace RuleTable

variable {α : Type} {t : RuleTable α} {i j : Nat} {X : NonTerminal} {b : Backpointer}
  {P : Nat → Nat → NonTerminal → Backpointer → Prop}

/-- All derivations of a table have a property of their places. -/
def All (P : Nat → Nat → NonTerminal → Backpointer → Prop) (t : RuleTable α) : Prop :=
  ∀ i j X cell, RuleTable.find? t i j X = some cell → P i j X cell.backpointer

theorem all_make (size n : Nat) :
    All P (StrideTable.make size n : RuleTable α) := by
  intro i j X cell hcell
  rw [find?, StrideTable.find?_make] at hcell
  cases hcell

theorem All.offer [Score α] (h : t.All P) (x : α) (hb : P i j X b) :
    (RuleTable.offer t i j X x b).All P := by
  rcases offer_cases t i j X x b with ⟨-, heq⟩ | heq
  · rwa [heq]
  · rw [heq]
    intro k l Y cell hcell
    rcases StrideTable.find?_of_set hcell with hold | ⟨⟨⟨rfl, rfl⟩, rfl⟩, rfl⟩
    · exact h k l Y cell hold
    · exact hb

end RuleTable

namespace RuleTask

variable {α : Type} [Score α] {t : RuleTask α} {table : RuleTable α} {i j m : Nat}
  {X : NonTerminal} {b : Backpointer} {x : CoarseRule × α}

/-- A derivation begins with an instance of a coarse rule. -/
inductive Offered (t : RuleTask α) : Nat → Nat → NonTerminal → Backpointer → Prop
  | word {i : Nat} {X : NonTerminal} {word : Terminal}
      (mem : ⟨X, .lexical word⟩ ∈ rules (t.lexicalInstances i)) :
      Offered t i (i + 1) X (.lexical word)
  | binary {i m j : Nat} {X Y Z : NonTerminal}
      (mem : ⟨X, .binary Y Z⟩ ∈ rules (t.binaryInstances i j m)) :
      Offered t i j X (.binary Y Z m)
  | unary {i j : Nat} {X Y : NonTerminal} (mem : ⟨X, .unary Y⟩ ∈ rules (t.unaryInstances i j)) :
      Offered t i j X (.unary Y)

theorem offered_lexicalStep (h : table.All t.Offered)
    (hx : x.1 ∈ rules (t.lexicalInstances i)) : (t.lexicalStep i table x).All t.Offered := by
  unfold lexicalStep
  split
  · next word hword =>
    refine h.offer _ (.word ?_)
    rw [← hword]
    exact hx
  · exact h

theorem offered_binaryStep (h : table.All t.Offered)
    (hx : x.1 ∈ rules (t.binaryInstances i j m)) : (t.binaryStep i j m table x).All t.Offered := by
  unfold binaryStep
  split
  · next Y Z hchildren =>
    split
    · refine h.offer _ (.binary ?_)
      rw [← hchildren]
      exact hx
    · exact h
  · exact h

theorem offered_unaryStep (h : table.All t.Offered)
    (hx : x.1 ∈ rules (t.unaryInstances i j)) : (t.unaryStep i j table x).All t.Offered := by
  unfold unaryStep
  split
  · next Y hchildren =>
    split
    · exact h
    · split
      · exact h
      · refine h.offer _ (.unary ?_)
        rw [← hchildren]
        exact hx
  · exact h

theorem offered_fillCell (h : table.All t.Offered) : (t.fillCell table (i, j)).All t.Offered := by
  have hfold : ∀ {β : Type} {step : RuleTable α → β → RuleTable α} (items : List β)
      {table : RuleTable α}, table.All t.Offered →
      (∀ table, ∀ x ∈ items, table.All t.Offered → (step table x).All t.Offered) →
      (items.foldl step table).All t.Offered := by
    intro β step items table hinit hstep
    refine foldl_prefix_induction (P := fun _ (table : RuleTable α) => table.All t.Offered) items
      (fun visited x rest table hsplit hv => hstep table x ?_ hv) hinit
    rw [hsplit]
    simp
  have hrule : ∀ {instances : List (CoarseRule × α)}, ∀ x ∈ t.summed instances,
      x.1 ∈ rules instances := fun x hx => mem_rules_summed.1 (mem_rules.2 ⟨x, hx, rfl⟩)
  unfold fillCell
  refine hfold _ ?_ fun table x hx hv => offered_unaryStep hv (hrule x (List.mem_mergeSort.1 hx))
  split
  · next hone =>
    obtain rfl := beq_iff_eq.1 hone
    exact hfold _ h fun table x hx hv => offered_lexicalStep hv (hrule x hx)
  · exact hfold _ h fun table m _ hv => hfold _ hv fun table x hx hv =>
      offered_binaryStep hv (hrule x hx)

/-- What the table holds of a category over a span has been offered there. -/
theorem offered_of_find? {cell : RuleCell α} (h : RuleTable.find? t.table i j X = some cell) :
    t.Offered i j X cell.backpointer := by
  have htable : t.table.All t.Offered :=
    foldl_prefix_induction (P := fun _ (table : RuleTable α) => table.All t.Offered)
      (spansUp t.chart.size) (fun _ _ _ _ _ hv => offered_fillCell hv) (RuleTable.all_make _ _)
  exact htable i j X cell h

/-- What is offered is the image of a production under the coarse categories, and the word of its span if
it is a word. -/
theorem Offered.exists_production [MonotoneScore α] (hc : t.chart.Sound t.grammar)
    (h : t.Offered i j X b) :
    (∃ p ∈ t.grammar.productions, t.grammar.symbols.base p.parent = X ∧
      p.children.map t.grammar.symbols.base = b.children) ∧
      ∀ w, b = .lexical w → j = i + 1 ∧ t.sentence.terminal? i = some w := by
  cases h with
  | word mem =>
    obtain ⟨word, A, hword, -, -, hpos, hrule⟩ := (mem_rules_lexical hc).1 mem
    obtain ⟨rfl, hchildren⟩ := CoarseRule.mk.inj hrule
    obtain rfl := Children.lexical.inj hchildren
    refine ⟨?_, fun w hw => ⟨rfl, Backpointer.lexical.inj hw ▸ hword⟩⟩
    -- a part of speech that no rule takes to the word would make the score impossible
    obtain ⟨p, hp, rfl, hpc⟩ := Grammar.exists_of_logProb_ne fun heq =>
      Score.not_impossible_lt_impossible (heq ▸ (Score.impossible_lt_of_add hpos).2)
    exact ⟨p, hp, rfl, by rw [hpc]; rfl⟩
  | binary mem =>
    obtain ⟨p, hp, B, C, hpc, -, -, -, hrule⟩ := (mem_rules_binary hc).1 mem
    obtain ⟨rfl, hchildren⟩ := CoarseRule.mk.inj hrule
    exact ⟨⟨p, hp, rfl, by rw [hpc]; exact hchildren.symm⟩, fun w hw => by cases hw⟩
  | unary mem =>
    obtain ⟨p, hp, B, hpc, -, -, -, hrule⟩ := mem_rules_unary.1 mem
    obtain ⟨rfl, hchildren⟩ := CoarseRule.mk.inj hrule
    exact ⟨⟨p, hp, rfl, by rw [hpc]; exact hchildren.symm⟩, fun w hw => by cases hw⟩

end RuleTask

end Constituency
