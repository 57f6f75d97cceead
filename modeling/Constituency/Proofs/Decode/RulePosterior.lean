import Constituency.Proofs.Decode.Offered
import Constituency.Proofs.Score.Unrounded

/-!
# The posterior of a coarse rule

What a coarse rule weighs at a place of the sentence, said without the lists of a decoder: all productions
that stand for the rule, each of them with what surrounds its parent and what is below its children
(`RuleTask.mass`). The decoder meets these productions entry by entry, passes over those that have no
possible surroundings, and adds up what it meets in the order of its charts. Where scores stand for the
members of a semiring and tell these apart, all that makes no difference (`mass_of_mem_summed`,
`mem_summed_of_possible`).
-/

namespace Constituency

/-- A coarse rule at a place: the span of its parent, and what the parent is derived by. -/
structure RuleInstance where
  start : Nat
  stop : Nat
  parent : NonTerminal
  backpointer : Backpointer

/-- The coarse rule without its place. -/
def RuleInstance.rule (r : RuleInstance) : CoarseRule := ⟨r.parent, r.backpointer.children⟩

/-- The rule fits its place: a word makes up its span, and a unary rule leads to another category. -/
def RuleInstance.Proper (r : RuleInstance) : Prop :=
  match r.backpointer with
  | .lexical _ => r.stop = r.start + 1
  | .unary child => child ≠ r.parent
  | .binary _ _ _ => True

namespace RuleTask

variable {α : Type} [Score α] {t : RuleTask α} {i j m : Nat} {r : RuleInstance}

/-! ## Masses -/

/-- The score of all that is below the children of a production. A word is certain where it stands. -/
def below (t : RuleTask α) (r : RuleInstance) : Children → α
  | .lexical word => if t.sentence.terminal? r.start = some word then 0 else Score.impossible
  | .unary child => t.chart.inside r.start r.stop child
  | .binary left right =>
    t.chart.inside r.start (r.backpointer.midpoint r.stop) left +
      t.chart.inside (r.backpointer.midpoint r.stop) r.stop right

/-- The production is a rule over splits of the symbols of the coarse rule. -/
def StandsFor (t : RuleTask α) (r : RuleInstance) (p : Production α) : Prop :=
  t.grammar.symbols.base p.parent = r.parent ∧
    p.children.map t.grammar.symbols.base = r.backpointer.children

instance (t : RuleTask α) (r : RuleInstance) (p : Production α) : Decidable (t.StandsFor r p) :=
  inferInstanceAs (Decidable (_ ∧ _))

/-- The score of all derivations of the sentence with a production in place of a coarse rule. -/
def through (t : RuleTask α) (r : RuleInstance) (p : Production α) : α :=
  if t.StandsFor r p then
    t.chart.outside r.start r.stop p.parent + p.logProb + t.below r p.children
  else Score.impossible

/-- The score of all derivations of the sentence with a coarse rule at its place. -/
def mass (t : RuleTask α) (r : RuleInstance) : α :=
  PackedChart.total t.sums (t.grammar.productions.map (t.through r))

/-- The log probability that a derivation of the sentence has a coarse rule at its place. -/
def posterior (t : RuleTask α) (r : RuleInstance) : α :=
  t.mass r - t.sentenceScore

/-- What the decoder meets at the place of a coarse rule. -/
def instancesOf (t : RuleTask α) (r : RuleInstance) : List (CoarseRule × α) :=
  match r.backpointer with
  | .lexical _ => t.lexicalInstances r.start
  | .unary _ => t.unaryInstances r.start r.stop
  | .binary _ _ midpoint => t.binaryInstances r.start r.stop midpoint

/-! ## Sums of instances -/

section Sums

variable {R : Type} [CommSemiring R] {weight : α → R} {rule : CoarseRule} {x : α}
  {instances sums : List (CoarseRule × α)}

/-- The weight of a coarse rule among others. -/
def held (weight : α → R) (rule : CoarseRule) (instances : List (CoarseRule × α)) : R :=
  (instances.map fun x => if x.1 = rule then weight x.2 else 0).sum

omit [Score α] in
theorem held_cons (y : CoarseRule × α) :
    held weight rule (y :: instances) =
      (if y.1 = rule then weight y.2 else 0) + held weight rule instances := by
  rw [held, List.map_cons, List.sum_cons, held]

omit [Score α] in
theorem held_eq_zero (h : rule ∉ rules instances) : held weight rule instances = 0 := by
  refine List.sum_eq_zero fun y hy => ?_
  obtain ⟨z, hz, rfl⟩ := List.mem_map.1 hy
  exact if_neg fun heq => h (mem_rules.2 ⟨z, hz, heq⟩)

omit [Score α] in
theorem held_of_mem (hnodup : (rules sums).Nodup) (hx : (rule, x) ∈ sums) :
    held weight rule sums = weight x := by
  induction sums with
  | nil => cases hx
  | cons y rest ih =>
    obtain ⟨hy, hrest⟩ := List.nodup_cons.1 hnodup
    rw [held_cons]
    rcases List.mem_cons.1 hx with rfl | hx
    · rw [if_pos rfl, held_eq_zero hy, add_zero]
    · have hne : y.1 ≠ rule := by
        rintro rfl
        exact hy (mem_rules.2 ⟨_, hx, rfl⟩)
      rw [if_neg hne, zero_add, ih hrest hx]

theorem held_addScore (h : t.sums.Exact R weight) (other : CoarseRule) (x : α) :
    held weight rule (t.addScore other x sums) =
      held weight rule sums + if other = rule then weight x else 0 := by
  induction sums with
  | nil =>
    rw [addScore, held_cons, h.combine, h.impossible, zero_add]
    exact add_comm _ _
  | cons y rest ih =>
    obtain ⟨present, sum⟩ := y
    rw [addScore]
    split
    · next heq =>
      subst heq
      rw [held_cons, held_cons, h.combine]
      split
      · exact add_right_comm _ _ _
      · rw [add_zero]
    · rw [held_cons, held_cons, ih, add_assoc]

theorem nodup_addScore (hnodup : (rules sums).Nodup) :
    (rules (t.addScore rule x sums)).Nodup := by
  induction sums with
  | nil => exact List.pairwise_singleton _ _
  | cons y rest ih =>
    obtain ⟨present, sum⟩ := y
    obtain ⟨hy, hrest⟩ := List.nodup_cons.1 hnodup
    rw [addScore]
    split
    · exact hnodup
    · next hne =>
      refine List.nodup_cons.2 ⟨fun hmem => ?_, ih hrest⟩
      rcases mem_rules_addScore.1 hmem with heq | hmem
      · exact hne heq
      · exact hy hmem

/-- Each rule has one sum, in which nothing is lost. -/
theorem weight_of_mem_summed (h : t.sums.Exact R weight) (hx : (rule, x) ∈ t.summed instances) :
    weight x = held weight rule instances := by
  have hsums : (rules (t.summed instances)).Nodup ∧
      held weight rule (t.summed instances) = held weight rule instances := by
    refine foldl_prefix_induction
      (P := fun visited sums => (rules sums).Nodup ∧ held weight rule sums = held weight rule visited)
      instances (fun visited y rest sums _ hv => ⟨nodup_addScore hv.1, ?_⟩) ⟨List.nodup_nil, rfl⟩
    rw [held_addScore h, hv.2, held, held, List.map_append, List.sum_append, List.map_singleton,
      List.sum_singleton]
  rw [← hsums.2, held_of_mem hsums.1 hx]

/-! ## What the decoder meets -/

omit [Score α] in
theorem hasTotal_productions (g : Grammar α) (f : Production α → R) :
    HasTotal {p | p ∈ g.productions} f (g.productions.map f).sum := by
  refine HasTotal.fibers some g.nodup_productions (fun p hp => ⟨p, hp, rfl⟩) fun p hp => ?_
  refine (HasTotal.singleton p f).congr fun q => ⟨?_, fun hq => Option.some.inj hq.2⟩
  rintro rfl
  exact ⟨hp, rfl⟩

/-- What is met of some productions is met of all if the others weigh nothing. -/
theorem held_eq_mass (h : t.sums.Exact R weight) {D : Set (Production α)}
    (hD : ∀ p ∈ D, p ∈ t.grammar.productions)
    (hrest : ∀ p ∈ t.grammar.productions, p ∉ D → weight (t.through r p) = 0)
    (htotal : HasTotal D (fun p => weight (t.through r p)) (held weight r.rule instances)) :
    held weight r.rule instances = weight (t.mass r) := by
  have hall := hasTotal_productions t.grammar fun p => weight (t.through r p)
  obtain ⟨F, hF, -⟩ := hall
  have hfinite : {p | p ∈ t.grammar.productions}.Finite :=
    F.finite_toSet.subset fun p hp => (hF p).2 hp
  rw [(htotal.extend hD hfinite hrest).unique
    (hasTotal_productions t.grammar fun p => weight (t.through r p)), mass,
    PackedChart.weight_total h, List.map_map]
  rfl

omit [Score α] in
theorem hasTotal_only {D : Set (Production α)} {p : Production α} (hp : p ∈ D)
    (honly : ∀ q ∈ D, q = p) {f : Production α → R} {y : R} (hy : f p = y) : HasTotal D f y := by
  subst hy
  refine (HasTotal.singleton p f).congr fun q => ⟨?_, honly q⟩
  rintro rfl
  exact hp

theorem weight_through (h : t.sums.Exact R weight) (p : Production α) :
    weight (t.through r p) = if t.StandsFor r p then
      weight (t.chart.outside r.start r.stop p.parent) * weight p.logProb *
        weight (t.below r p.children) else 0 := by
  rw [through]
  split
  · rw [h.add, h.add]
  · exact h.impossible

section Kinds

variable (h : t.sums.Exact R weight) (hc : t.chart.Sound t.grammar)
  {X Y Z : NonTerminal} {word : Terminal}
include h hc

theorem weight_outside_of_not_mem {A : NonTerminal} (hA : A ∉ t.chart.symbols i j) :
    weight (t.chart.outside i j A) = 0 := by
  rw [PackedChart.outside_of_not_mem hc hA, h.impossible]

theorem weight_inside_of_not_mem {A : NonTerminal} (hA : A ∉ t.chart.symbols i j) :
    weight (t.chart.inside i j A) = 0 := by
  rw [PackedChart.inside_of_not_mem hc hA, h.impossible]

theorem held_binary :
    held weight ⟨X, .binary Y Z⟩ (t.binaryInstances i j m) =
      weight (t.mass ⟨i, j, X, .binary Y Z m⟩) := by
  refine held_eq_mass (r := ⟨i, j, X, .binary Y Z m⟩) h (D := {p | p ∈ t.grammar.productions ∧
    ∃ B ∈ t.chart.symbols i m, ∃ C, p.children = .binary B C}) (fun p hp => hp.1)
    (fun p hp hnot => ?_) ?_
  · rw [weight_through h]
    split
    · next hstands =>
      cases hpc : p.children with
      | unary | lexical =>
        rw [StandsFor, hpc] at hstands
        cases hstands.2
      | binary B C =>
        have hB : B ∉ t.chart.symbols i m := fun hB => hnot ⟨hp, B, hB, C, hpc⟩
        rw [below, h.add]
        dsimp only [Backpointer.midpoint]
        rw [weight_inside_of_not_mem h hc hB, zero_mul, mul_zero]
    · rfl
  rw [held, binaryInstances, PackedChart.scored_eq hc]
  dsimp only
  rw [List.flatMap_map]
  refine HasTotal.flatMap (fun p => PackedChart.leftChild? p.children)
    ((PackedChart.nodup_symbols hc i m).filter _) (fun p hp => ?_) fun B hB => ?_
  · obtain ⟨hp, B, hB, C, hpc⟩ := hp
    refine ⟨B, List.mem_filter.2 ⟨hB, ?_⟩, congrArg PackedChart.leftChild? hpc⟩
    rw [hc.classes_eq]
    exact Grammar.isLeft_of_mem hp hpc
  refine HasTotal.filterMap some (t.grammar.nodup_byLeftChild B) (fun p hp => ?_) fun p hp => ?_
  · obtain ⟨⟨hp, B', hB', C, hpc⟩, hleft⟩ := hp
    rw [hpc] at hleft
    obtain rfl := Option.some.inj hleft
    exact ⟨p, Grammar.mem_byLeftChild.2 ⟨hp, C, hpc⟩, rfl⟩
  obtain ⟨hp, C, hpc⟩ := Grammar.mem_byLeftChild.1 hp
  refine hasTotal_only (p := p) ?_ (fun q hq => Option.some.inj hq.2) ?_
  · exact ⟨⟨⟨hp, B, (List.mem_filter.1 hB).1, C, hpc⟩, congrArg PackedChart.leftChild? hpc⟩, rfl⟩
  rw [weight_through h, hpc, below, h.add]
  simp only [StandsFor, hpc, Children.map, Backpointer.children, Backpointer.midpoint]
  by_cases himp : (t.chart.outside i j p.parent == Score.impossible ||
      t.chart.inside m j C == Score.impossible) = true
  · have hzero : weight (t.chart.outside i j p.parent) = 0 ∨ weight (t.chart.inside m j C) = 0 := by
      rw [Bool.or_eq_true] at himp
      exact himp.imp (h.beq_impossible _) (h.beq_impossible _)
    rw [if_pos himp, Option.elim_none]
    rcases hzero with hzero | hzero <;> simp [hzero]
  · rw [if_neg himp, Option.elim_some]
    simp only [RuleInstance.rule, Backpointer.children, CoarseRule.mk.injEq,
      Children.binary.injEq, h.add, mul_assoc]

omit h in
theorem unaryInstances_eq : t.unaryInstances i j = (t.chart.symbols i j).flatMap fun B =>
    (t.grammar.byUnaryChild B).filterMap fun p =>
      if t.chart.outside i j p.parent == Score.impossible ||
        t.grammar.symbols.base p.parent == t.grammar.symbols.base B then none
      else some (⟨t.grammar.symbols.base p.parent, .unary (t.grammar.symbols.base B)⟩,
        t.chart.outside i j p.parent + p.logProb + t.chart.inside i j B) := by
  rw [unaryInstances, PackedChart.symbols, List.flatMap_map, List.flatMap_def, List.flatMap_def]
  congr 1
  refine List.map_congr_left fun e he => ?_
  rw [PackedChart.inside_of_mem hc he]

theorem held_unary (hne : Y ≠ X) :
    held weight ⟨X, .unary Y⟩ (t.unaryInstances i j) = weight (t.mass ⟨i, j, X, .unary Y⟩) := by
  refine held_eq_mass (r := ⟨i, j, X, .unary Y⟩) h (D := {p | p ∈ t.grammar.productions ∧
    ∃ B ∈ t.chart.symbols i j, p.children = .unary B}) (fun p hp => hp.1) (fun p hp hnot => ?_) ?_
  · rw [weight_through h]
    split
    · next hstands =>
      cases hpc : p.children with
      | binary | lexical =>
        rw [StandsFor, hpc] at hstands
        cases hstands.2
      | unary B =>
        have hB : B ∉ t.chart.symbols i j := fun hB => hnot ⟨hp, B, hB, hpc⟩
        rw [below]
        dsimp only
        rw [weight_inside_of_not_mem h hc hB, mul_zero]
    · rfl
  rw [held, unaryInstances_eq hc]
  refine HasTotal.flatMap (fun p => PackedChart.onlyChild? p.children)
    (PackedChart.nodup_symbols hc i j) (fun p hp => ?_) fun B hB => ?_
  · obtain ⟨hp, B, hB, hpc⟩ := hp
    exact ⟨B, hB, congrArg PackedChart.onlyChild? hpc⟩
  refine HasTotal.filterMap some (t.grammar.nodup_byUnaryChild B) (fun p hp => ?_) fun p hp => ?_
  · obtain ⟨⟨hp, B', hB', hpc⟩, hchild⟩ := hp
    rw [hpc] at hchild
    obtain rfl := Option.some.inj hchild
    exact ⟨p, Grammar.mem_byUnaryChild.2 ⟨hp, hpc⟩, rfl⟩
  obtain ⟨hp, hpc⟩ := Grammar.mem_byUnaryChild.1 hp
  refine hasTotal_only (p := p) ?_ (fun q hq => Option.some.inj hq.2) ?_
  · exact ⟨⟨⟨hp, B, hB, hpc⟩, congrArg PackedChart.onlyChild? hpc⟩, rfl⟩
  rw [weight_through h, hpc, below]
  simp only [StandsFor, hpc, Children.map, Backpointer.children]
  by_cases himp : (t.chart.outside i j p.parent == Score.impossible ||
      t.grammar.symbols.base p.parent == t.grammar.symbols.base B) = true
  · rw [if_pos himp, Option.elim_none]
    rw [Bool.or_eq_true] at himp
    rcases himp with himp | heq
    · simp [h.beq_impossible _ himp]
    · rw [if_neg]
      rintro ⟨rfl, hY⟩
      exact hne (Children.unary.inj hY ▸ (beq_iff_eq.1 heq).symm)
  · rw [if_neg himp, Option.elim_some]
    simp only [RuleInstance.rule, Backpointer.children, CoarseRule.mk.injEq, h.add]

/-- What the decoder makes of a symbol over a single word. -/
def wordOffer (t : RuleTask α) (i : Nat) (w : Terminal) (A : NonTerminal) : Option (CoarseRule × α) :=
  let total := t.chart.outside i (i + 1) A + t.grammar.logProb A (.lexical w)
  if t.grammar.classes.isPos A && !(total == Score.impossible) then
    some (⟨t.grammar.symbols.base A, .lexical w⟩, total)
  else none

omit h in
theorem lexicalInstances_eq {w : Terminal} (hword : t.sentence.terminal? i = some w) :
    t.lexicalInstances i = (t.chart.symbols i (i + 1)).filterMap (t.wordOffer i w) := by
  rw [lexicalInstances, hword]
  dsimp only
  rw [PackedChart.symbols, List.filterMap_map]
  refine List.filterMap_congr fun e he => ?_
  rw [Function.comp_apply, wordOffer, PackedChart.outside_of_mem hc he]

omit hc in
theorem elim_wordOffer_of_mem {w : Terminal} {p : Production α}
    (hword : t.sentence.terminal? i = some w) (hp : p ∈ t.grammar.productions)
    (hpc : p.children = .lexical w) :
    (t.wordOffer i w p.parent).elim 0
        (fun x => if x.1 = ⟨X, .lexical w⟩ then weight x.2 else 0) =
      weight (t.through ⟨i, i + 1, X, .lexical w⟩ p) := by
  have hlog : t.grammar.logProb p.parent (.lexical w) = p.logProb :=
    hpc ▸ Grammar.logProb_of_mem hp
  rw [weight_through h, hpc, below, if_pos hword, h.zero, mul_one, wordOffer, hlog]
  simp only [StandsFor, hpc, Children.map, Backpointer.children, and_true]
  rw [Grammar.isPos_of_mem hp hpc, Bool.true_and, ← h.add]
  cases himp : t.chart.outside i (i + 1) p.parent + p.logProb == Score.impossible with
  | true => rw [h.beq_impossible _ himp, ite_self, Bool.not_true, if_neg Bool.false_ne_true,
      Option.elim_none]
  | false =>
    rw [Bool.not_false, if_pos rfl, Option.elim_some]
    simp only [CoarseRule.mk.injEq, and_true]

omit hc in
/-- Nothing is made of a symbol that has no production for the word, or of another word. -/
theorem elim_wordOffer_of_not {w : Terminal} {A : NonTerminal}
    (hnot : ¬ (w = word ∧ ∃ p ∈ t.grammar.productions, p.parent = A ∧ p.children = .lexical word)) :
    (t.wordOffer i w A).elim 0
      (fun x => if x.1 = ⟨X, .lexical word⟩ then weight x.2 else 0) = 0 := by
  rw [wordOffer]
  split
  · rw [Option.elim_some]
    split
    · next heq =>
      obtain rfl := Children.lexical.inj (CoarseRule.mk.inj heq).2
      rw [Grammar.logProb_of_not_mem fun p hp hpA hpc => hnot ⟨rfl, p, hp, hpA, hpc⟩, h.add,
        h.impossible, mul_zero]
    · rfl
  · rfl

theorem held_lexical :
    held weight ⟨X, .lexical word⟩ (t.lexicalInstances i) =
      weight (t.mass ⟨i, i + 1, X, .lexical word⟩) := by
  refine held_eq_mass (r := ⟨i, i + 1, X, .lexical word⟩) h (D := {p | p ∈ t.grammar.productions ∧
    p.parent ∈ t.chart.symbols i (i + 1) ∧ p.children = .lexical word ∧
      t.sentence.terminal? i = some word}) (fun p hp => hp.1) (fun p hp hnot => ?_) ?_
  · rw [weight_through h]
    split
    · next hstands =>
      cases hpc : p.children with
      | unary | binary =>
        rw [StandsFor, hpc] at hstands
        cases hstands.2
      | lexical w =>
        obtain rfl : w = word := by
          rw [StandsFor, hpc] at hstands
          exact Children.lexical.inj hstands.2
        rw [below]
        split
        · next hword =>
          have hA : p.parent ∉ t.chart.symbols i (i + 1) := fun hA => hnot ⟨hp, hA, hpc, hword⟩
          rw [weight_outside_of_not_mem h hc hA, zero_mul, zero_mul]
        · rw [h.impossible, mul_zero]
    · rfl
  rw [held]
  cases hword : t.sentence.terminal? i with
  | none =>
    rw [lexicalInstances, hword]
    refine (HasTotal.empty _).congr fun p => ⟨fun hp => hp.elim, fun hp => ?_⟩
    cases hp.2.2.2
  | some w =>
    rw [lexicalInstances_eq hc hword]
    refine HasTotal.filterMap (fun p => some p.parent) (PackedChart.nodup_symbols hc i (i + 1))
      (fun p hp => ⟨p.parent, hp.2.1, rfl⟩) fun A hA => ?_
    by_cases hrule : w = word ∧ ∃ p ∈ t.grammar.productions, p.parent = A ∧
        p.children = .lexical word
    · obtain ⟨rfl, p, hp, rfl, hpc⟩ := hrule
      refine hasTotal_only (p := p) ?_ (fun q hq => ?_) (elim_wordOffer_of_mem h hword hp hpc).symm
      · exact ⟨⟨hp, hA, hpc, rfl⟩, rfl⟩
      · exact Grammar.eq_of_sameRule hq.1.1 hp (Option.some.inj hq.2)
          (hq.1.2.2.1.trans hpc.symm)
    · refine (elim_wordOffer_of_not h hrule).symm ▸ (HasTotal.empty _).congr fun q => ⟨fun hq => hq.elim, fun hq => ?_⟩
      exact hrule ⟨Option.some.inj hq.1.2.2.2, q, hq.1.1, Option.some.inj hq.2, hq.1.2.2.1⟩

/-- All that the decoder meets at the place of a rule weighs what the rule does. -/
theorem held_instancesOf (hr : r.Proper) :
    held weight r.rule (t.instancesOf r) = weight (t.mass r) := by
  obtain ⟨i, j, X, b⟩ := r
  cases b with
  | lexical word =>
    obtain rfl : j = i + 1 := hr
    exact held_lexical h hc
  | unary child => exact held_unary h hc hr
  | binary left right midpoint => exact held_binary h hc

end Kinds

end Sums

/-! ## Exact sums -/

section Exact

variable {R : Type} [CommSemiring R] {weight : α → R} (h : t.sums.Exact R weight)
  (hinj : Function.Injective weight) (hc : t.chart.Sound t.grammar) (hr : r.Proper)
include h hinj hc hr

/-- The decoder's sum for a rule is the mass of the rule. -/
theorem mass_of_mem_summed {x : α} (hx : (r.rule, x) ∈ t.summed (t.instancesOf r)) :
    x = t.mass r := by
  apply hinj
  rw [weight_of_mem_summed h hx, held_instancesOf h hc hr]

/-- The decoder has a sum for every possible rule. -/
theorem mem_summed_of_possible [MonotoneScore α] (hpos : Score.impossible < t.mass r) :
    (r.rule, t.mass r) ∈ t.summed (t.instancesOf r) := by
  have hmet : r.rule ∈ rules (t.instancesOf r) := by
    refine Classical.byContradiction fun hnot => ?_
    have hzero : weight (t.mass r) = weight Score.impossible := by
      rw [← held_instancesOf h hc hr, held_eq_zero hnot, h.impossible]
    rw [hinj hzero] at hpos
    exact Score.not_impossible_lt_impossible hpos
  obtain ⟨⟨rule, x⟩, hx, rfl⟩ := mem_rules.1 (mem_rules_summed.2 hmet)
  rwa [← mass_of_mem_summed h hinj hc hr hx]

end Exact

end RuleTask

end Constituency
