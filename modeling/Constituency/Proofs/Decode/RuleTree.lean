import Constituency.Proofs.Decode.Rules
import Constituency.Proofs.Decode.Viterbi
import Constituency.Proofs.Search.Supported

/-!
# The trees of a decoder by rules

A decoder by rules goes once through the unary rules of a cell and never puts one on top of another, so
that it may leave out what the searched chart derives by a chain of them. It leaves out nothing else:
there is a tree whenever the chart has a derivation of the sentence whose unary rules do not stand
on categories that are parents of unary rules themselves (`Parser.maxRule_tree`).
-/

namespace Constituency

namespace Grammar

variable {α : Type}

/-- A unary rule between live symbols leads to the coarse category from another one. -/
def Lifted (g : Grammar α) (live : Nat → Nat → NonTerminal → Prop) (i j : Nat)
    (X : NonTerminal) : Prop :=
  ∃ p ∈ g.productions, ∃ B, p.children = .unary B ∧ live i j p.parent ∧ live i j B ∧
    g.symbols.base p.parent = X ∧ g.symbols.base B ≠ X

/-- If the rule is a unary rule between live symbols of different coarse categories, the category that it
stands on is not lifted itself. -/
def Unstacked (g : Grammar α) (live : Nat → Nat → NonTerminal → Prop) (i j : Nat)
    (p : Production α) : Prop :=
  ∀ B, p.children = .unary B → live i j p.parent → live i j B →
    g.symbols.base p.parent ≠ g.symbols.base B → ¬ g.Lifted live i j (g.symbols.base B)

end Grammar

/-- A weighed chart has the entries of the chart. -/
theorem PackedChart.reweighed_weighed {α : Type} [Score α] {g : Grammar α} {c : PackedChart α}
    (acc : Accumulator α) (s : Sentence) (hc : c.Sound g) :
    Reweighed c (Parser.weighed acc g s c) :=
  reweighed_surround_resum acc acc hc s.terminals

namespace RuleTask

variable {α : Type} [Score α] [LosslessScore α] {o : Options α} {g : Grammar α} {s : Sentence}
  {c : PackedChart α} {i j : Nat} {A X Y : NonTerminal} {d : Derivation α}

omit [LosslessScore α] in
theorem mem_symbols_weighed (hc : c.Sound g) :
    A ∈ (Parser.weighed o.sums g s c).symbols i j ↔ c.Live i j A := by
  rw [(PackedChart.reweighed_weighed o.sums s hc).symbols_eq]
  exact PackedChart.mem_symbols hc

/-- What is topped in a weighed chart is lifted in the chart. -/
theorem lifted_of_topped (hc : c.Sound g)
    (h : (o.ruleTask g (Parser.weighed o.sums g s c) s).Topped i j X) : g.Lifted c.Live i j X := by
  obtain ⟨Y, hrule⟩ := h
  obtain ⟨p, hp, B, hpc, hB, hout, hne, heq⟩ := mem_rules_unary.1 hrule
  have hbase : X = g.symbols.base p.parent := congrArg CoarseRule.parent heq
  have hw : (Parser.weighed o.sums g s c).Sound g := (PackedChart.reweighed_weighed _ _ hc).sound hc
  have hparent : p.parent ∈ (Parser.weighed o.sums g s c).symbols i j :=
    (mem_symbols_of_possible hw hout).1
  exact ⟨p, hp, B, hpc, (mem_symbols_weighed hc).1 hparent, (mem_symbols_weighed hc).1 hB,
    hbase.symm, hbase ▸ hne.symm⟩

/-- What possible rules reach has a derivation in the table if it has a direct one whose unary rules are
not stacked. -/
theorem has_table (hc : c.Sound g) (hd : DerivesIn g s c.Live i j A d)
    (hdirect : d.Direct (g.Unstacked c.Live) i) {n : Nat}
    (hreached : PackedChart.Reached g (c.resum o.sums g s.terminals) n (i, j, A))
    (hn : n + d.unaryHeight ≤ ((c.resum o.sums g s.terminals).symbols i j).length) :
    (o.ruleTask g (Parser.weighed o.sums g s c) s).table.Has i j (g.symbols.base A) := by
  have hsummed := PackedChart.reweighed_resum o.sums hc s.terminals
  have hr := hsummed.sound hc
  have hsame := PackedChart.sameInside_surround o.sums hr
  have hw : (Parser.weighed o.sums g s c).Sound g := (PackedChart.reweighed_weighed _ _ hc).sound hc
  have hlive : ∀ {i j B}, c.Live i j B → B ∈ (c.resum o.sums g s.terminals).symbols i j := by
    intro i j B hB
    rw [hsummed.symbols_eq]
    exact (PackedChart.mem_symbols hc).2 hB
  have hinside : ∀ {i j B e}, DerivesIn g s c.Live i j B e → e.Direct (g.Unstacked c.Live) i →
      Score.impossible < (c.resum o.sums g s.terminals).inside i j B :=
    fun he hdirect => PackedChart.possible_resum hc he hdirect
  have houtside : ∀ {n i j B}, PackedChart.Reached g (c.resum o.sums g s.terminals) n (i, j, B) →
      n ≤ ((c.resum o.sums g s.terminals).symbols i j).length →
      Score.impossible < (Parser.weighed o.sums g s c).outside i j B :=
    fun hB hn => PackedChart.possible_surround hr hB hn
  induction hd generalizing n with
  | word mem children terminal alive =>
    exact has_table_word hw mem children hdirect.possible terminal (houtside hreached hn)
  | unary mem children below alive ih =>
    obtain ⟨hrule, hunstacked, hbelow⟩ := hdirect.of_unary
    rw [← below.stop_eq] at hunstacked
    refine has_table_unary hw mem children (houtside hreached (by omega))
      ((mem_symbols_weighed hc).2 below.alive)
      (fun hne htop => hunstacked _ children alive below.alive hne (lifted_of_topped hc htop)) ?_
    refine ih hbelow (.unary hreached mem children hrule (hlive below.alive)) ?_
    rw [Derivation.unaryHeight] at hn
    omega
  | binary mem children leftBelow rightBelow alive ihl ihr =>
    obtain ⟨hrule, hleft, hright⟩ := hdirect.of_binary
    rw [← leftBelow.stop_eq] at hright
    have hB := hinside leftBelow hleft
    have hC := hinside rightBelow hright
    have hm := And.intro leftBelow.start_lt rightBelow.start_lt
    refine has_table_binary hw mem children hm (houtside hreached hn)
      ((mem_symbols_weighed hc).2 leftBelow.alive) ?_ ?_ ?_
    · have hsister := hsame.inside_eq
      rw [Options.ruleTask, Parser.weighed, hsister]
      exact hC
    · refine ihl hleft (.binary hreached hn (.left mem children hrule hm hB hC)) ?_
      rw [Nat.zero_add]
      exact Nat.le_of_lt (leftBelow.unaryHeight_lt_of_straight hleft.straight fun B => hlive)
    · refine ihr hright (.binary hreached hn (.right mem children hrule hm hB hC)) ?_
      rw [Nat.zero_add]
      exact Nat.le_of_lt (rightBelow.unaryHeight_lt_of_straight hright.straight fun B => hlive)

/-- The start symbol over the sentence has a tree if it has a derivation whose unary rules are not
stacked. -/
theorem isSome_tree? (hc : c.Sound g) (hsize : c.size = s.size)
    (hd : DerivesIn g s c.Live 0 c.size g.start d) (hpos : Score.impossible < d.score)
    (hunaries : d.UnariesSatisfy (g.Unstacked c.Live) 0) :
    ((o.ruleTask g (Parser.weighed o.sums g s c) s).tree?).isSome = true := by
  obtain ⟨e, he, hdirect⟩ := hd.exists_direct hpos hunaries
  have hsummed := PackedChart.reweighed_resum o.sums hc s.terminals
  have hr := hsummed.sound hc
  have hsame := PackedChart.sameInside_surround o.sums hr
  have hweighed : (Parser.weighed o.sums g s c).size = c.size := (PackedChart.reweighed_weighed _ _ hc).size_eq
  have hinside : Score.impossible < (c.resum o.sums g s.terminals).inside 0 c.size g.start :=
    PackedChart.possible_resum hc he hdirect
  have hroot : PackedChart.Reached g (c.resum o.sums g s.terminals) 0 (0, c.size, g.start) := by
    rw [← hsummed.size_eq] at hinside ⊢
    exact .root hinside
  have hheight : 0 + e.unaryHeight ≤ ((c.resum o.sums g s.terminals).symbols 0 c.size).length := by
    rw [Nat.zero_add, hsummed.symbols_eq]
    exact Nat.le_of_lt (he.unaryHeight_lt_of_straight hdirect.straight fun B hB =>
      (PackedChart.mem_symbols hc).2 hB)
  have hhas := has_table hc he hdirect hroot hheight
  have hscore : Score.impossible <
      (o.ruleTask g (Parser.weighed o.sums g s c) s).sentenceScore := by
    rw [sentenceScore, Options.ruleTask, hweighed, Parser.weighed, hsame.inside_eq]
    exact hinside
  have hcond : ¬ ((o.ruleTask g (Parser.weighed o.sums g s c) s).chart.size == 0 ||
      (o.ruleTask g (Parser.weighed o.sums g s c) s).sentenceScore == Score.impossible) = true := by
    rw [Bool.or_eq_true, not_or, Bool.not_eq_true, Bool.not_eq_true,
      Score.beq_impossible_eq_false_iff, beq_eq_false_iff_ne]
    exact ⟨fun hzero => Nat.ne_of_gt hd.start_lt (hweighed.symm.trans hzero), hscore⟩
  rw [tree?, if_neg hcond]
  have hread := isSome_follow_table (t := o.ruleTask g (Parser.weighed o.sums g s c) s)
    (hweighed.trans hsize) hhas
  rw [← hweighed] at hread
  exact hread

omit [LosslessScore α] in
/-- There is no tree if the table has no derivation of the sentence. -/
theorem tree?_eq_none {t : RuleTask α}
    (h : RuleTable.find? t.table 0 t.chart.size t.grammar.symbols.baseStart = none) :
    t.tree? = none := by
  have hfind : (t.backpointers t.table).find? 0 t.chart.size t.grammar.symbols.baseStart = none :=
    congrArg (Option.map RuleCell.backpointer) h
  rw [tree?, Backpointers.tree?, Backpointers.follow, hfind]
  split <;> rfl

end RuleTask

namespace Parser

variable {α : Type} [Score α] {p : Parser α}

theorem decode_maxRule (h : p.options.decoder = .maxRule) (s : Sentence) (found : Searched α) :
    (p.decode s found).1 =
      if (Chart.packed (found.chart.toPacked p.grammar)).hasParse p.grammar.start then
        ((p.options.ruleTask p.grammar
          (weighed p.options.sums p.grammar s (found.chart.toPacked p.grammar)) s).tree?).map
            Tree.unfactor
      else none := by
  unfold decode
  simp only [h, Decoder.needsOutside, if_true, posteriorTree?]
  split <;> rfl

theorem decode_maxRule_eq_none (h : p.options.decoder = .maxRule) {s : Sentence} {found : Searched α}
    (htree : (p.options.ruleTask p.grammar
      (weighed p.options.sums p.grammar s (found.chart.toPacked p.grammar)) s).tree? = none) :
    (p.decode s found).1 = none := by
  rw [decode_maxRule h, htree, Option.map_none, ite_self]

/-- The chart that the search leaves for some words. -/
def searched (p : Parser α) (words : List String) : Chart α :=
  (p.search (.ofWords p.grammar words)).chart

theorem live_toPacked {g : Grammar α} {c : Chart α} (hc : c.Sound g) :
    (c.toPacked g).Live = c.Live := by
  funext i j A
  rw [PackedChart.Live, (Chart.toPacked_spec hc).2.2, Chart.Live]

theorem hasParse_toPacked {g : Grammar α} {c : Chart α} (hc : c.Sound g) (A : NonTerminal) :
    (Chart.packed (c.toPacked g)).hasParse A = c.hasParse A := by
  obtain ⟨hsound, hsize, hget⟩ := Chart.toPacked_spec hc
  have hpacked : (Chart.packed (c.toPacked g)).Sound g := hsound
  have hsize' : (Chart.packed (c.toPacked g)).size = c.size := hsize
  have hget' : ∀ i j B, (Chart.packed (c.toPacked g)).get? i j B = c.get? i j B := hget
  rw [Chart.hasParse, Chart.hasParse, hsize', hpacked.inside_eq, hc.inside_eq, hget']

/-- A decoder by rules has a tree only if the chart derives the sentence, and it has one if the chart does
so without stacked unary rules. -/
theorem isSome_decode_maxRule [LosslessScore α] (hdecoder : p.options.decoder = .maxRule)
    {s : Sentence} {found : Searched α} (hc : found.chart.Sound p.grammar)
    (hsize : found.chart.size = s.size) :
    ((p.decode s found).1.isSome = true → found.chart.hasParse p.grammar.start = true) ∧
    (found.chart.hasParse p.grammar.start = true →
      (∃ d, DerivesIn p.grammar s found.chart.Live 0 s.size p.grammar.start d ∧
        Score.impossible < d.score ∧
        d.UnariesSatisfy (p.grammar.Unstacked found.chart.Live) 0) →
      (p.decode s found).1.isSome = true) := by
  obtain ⟨hpacked, hsize', -⟩ := Chart.toPacked_spec hc
  rw [decode_maxRule hdecoder, hasParse_toPacked hc]
  constructor
  · intro hsome
    split at hsome
    · assumption
    · cases hsome
  · rintro hparse ⟨d, hd, hpos, hunaries⟩
    rw [if_pos hparse, Option.isSome_map]
    rw [← live_toPacked hc] at hd hunaries
    rw [← hsize, ← hsize'] at hd
    exact RuleTask.isSome_tree? hpacked (hsize'.trans hsize) hd hpos hunaries

/-- A parser of pairs that decodes by rules. -/
def pairRules : Parser (WithBot ℤ) :=
  ⟨Chain.pairs, { Chain.options with decoder := .maxRule }, .inside⟩

/-- A parser of a chain of unary rules, by a beam search that follows it and a decoder that does not. -/
def chainRules : Parser (WithBot ℤ) where
  grammar := Chain.whole
  options := { Chain.options with strategy := .beam, decoder := .maxRule }
  merit := .inside

/-- The task of its decoder. -/
def chainTask : RuleTask (WithBot ℤ) :=
  chainRules.options.ruleTask chainRules.grammar
    (weighed chainRules.options.sums chainRules.grammar Chain.sentence
      ((chainRules.search Chain.sentence).chart.toPacked chainRules.grammar)) Chain.sentence

/-- The rule `S → A` is offered before `A → B`, when `A` has no derivation. -/
theorem tree?_chainTask : chainTask.tree? = none := by
  have hsize : chainTask.chart.size = 1 := by decide +kernel
  have hspans : spansUp 1 = [(0, 1)] := rfl
  have hbases : chainTask.grammar.symbols.numBases = 3 := rfl
  have hsorted : (chainTask.summed (chainTask.unaryInstances 0 1)).Pairwise fun a b =>
      RuleTask.unaryBefore a b = true := by decide +kernel
  have htable : RuleTable.find? chainTask.table 0 1 0 = none := by
    rw [RuleTask.table, hsize, hspans, hbases, List.foldl_cons, List.foldl_nil,
      RuleTask.fillCell_eq, RuleTask.offerUnary_of_pairwise hsorted]
    exact Option.isNone_iff_eq_none.1 (by decide +kernel)
  exact RuleTask.tree?_eq_none (hsize.symm ▸ htable)

end Parser

end Constituency
