import Mathlib
import Constituency.Proofs.Score.Chance
import Constituency.Proofs.Search.Acyclic
import Constituency.Proofs.Search.Sums

/-!
# The result of an exhaustive search

A parse by an exhaustive search reports a score and reads a tree off the chart. In the unary pass the
scores of parents are computed before the backpointers of their children may change, so that the two need
not agree: the tree may be better than its score (`parse_score_le`), and under sums there may be a
score without a tree unless the unary rules of the grammar form no circle (`isSome_tree_iff`).
-/

namespace Constituency

/-! ## Parses that follow backpointers -/

namespace Parser

variable {α : Type} [Score α] {p : Parser α}

theorem parse_eq (p : Parser α) (words : List String) :
    p.parse words =
      { tree := (p.decode (.ofWords p.grammar words) (p.search (.ofWords p.grammar words))).1
        inside :=
          if 0 < words.length then
            (p.decode (.ofWords p.grammar words) (p.search (.ofWords p.grammar words))).2.inside 0
              words.length p.grammar.start
          else Score.impossible
        stats := (p.search (.ofWords p.grammar words)).stats
        chart := (p.decode (.ofWords p.grammar words)
          (p.search (.ofWords p.grammar words))).2 } := by
  cases hdecoded : p.decode (.ofWords p.grammar words) (p.search (.ofWords p.grammar words)) with
  | mk tree chart =>
    simp only [parse, hdecoded]
    rfl

theorem decode_viterbi (h : p.options.decoder = .viterbi) (s : Sentence) (found : Searched α) :
    p.decode s found =
      ((found.chart.viterbiTree? p.grammar.symbols s.words p.grammar.start).map Tree.unfactor,
        found.chart) := by
  simp only [decode, h, Decoder.needsOutside, Decoder.needsMerits, Bool.false_eq_true, if_false]

/-- A Viterbi parse hands back the searched chart and the tree that is read off it. -/
theorem parse_viterbi (h : p.options.decoder = .viterbi) (words : List String) :
    (p.parse words).chart = (p.search (.ofWords p.grammar words)).chart ∧
      (p.parse words).tree =
        ((p.parse words).chart.viterbiTree? p.grammar.symbols words p.grammar.start).map
          Tree.unfactor ∧
      (p.parse words).inside =
        if 0 < words.length then (p.parse words).chart.inside 0 words.length p.grammar.start
        else Score.impossible := by
  rw [parse_eq, decode_viterbi h]
  exact ⟨rfl, rfl, rfl⟩

/-- The score that a Viterbi parse reports is possible if and only if its chart has a parse. -/
theorem possible_inside_iff [MonotoneScore α] (h : p.options.decoder = .viterbi)
    (words : List String) (hsize : (p.parse words).chart.size = words.length) :
    Score.impossible < (p.parse words).inside ↔
      (p.parse words).chart.hasParse p.grammar.start = true := by
  rw [(parse_viterbi h words).2.2, Chart.hasParse, hsize, Bool.and_eq_true, decide_eq_true_iff,
    decide_eq_true_iff]
  split
  · next hpos => simp [hpos]
  · next hzero => simp [hzero, Score.lt_irrefl]

end Parser

/-! ## The best derivations -/

namespace Exhaustive

variable {α : Type} [Score α] [MonotoneScore α] {p : Parser α}

/-- A sentence that an exhaustive search for the best derivations parses has a tree, the tree is that of
a derivation, and the score of the derivation is at least the one that is reported. It is the same
if no unary rule stands directly on top of another one in the derivation. -/
theorem parse_score_le (hnonpos : ∀ r ∈ p.grammar.productions, r.logProb ≤ 0)
    (hstrategy : p.options.strategy = .exhaustive) (hsemiring : p.options.semiring = .viterbi)
    (hdecoder : p.options.decoder = .viterbi) (hsegments : p.options.segments = 1)
    (words : List String) (hfits : (p.parse words).chart.Fits)
    (hparse : Score.impossible < (p.parse words).inside) :
    ∃ d, Derives p.grammar (.ofWords p.grammar words) 0 words.length p.grammar.start d ∧
      (p.parse words).chart.viterbiTree? p.grammar.symbols words p.grammar.start =
        some (d.tree p.grammar.symbols.name words 0) ∧
      (p.parse words).tree = some (d.tree p.grammar.symbols.name words 0).unfactor ∧
      (p.parse words).inside ≤ d.score ∧
      (d.SingleUnaries → d.score ≤ (p.parse words).inside) := by
  obtain ⟨hchart, htree, hinside⟩ := Parser.parse_viterbi hdecoder words
  have hacc : p.options.accumulator = .best := by
    rw [Options.accumulator, hsemiring]
  have hfill : (p.parse words).chart =
      chartOf p.grammar .best p.options.storage (.ofWords p.grammar words) := by
    rw [hchart, Parser.search_exhaustive hstrategy, hacc, hsegments, chartOf]
  have hgrown : (p.parse words).chart.Grown p.grammar (.ofWords p.grammar words) := by
    rw [hchart]
    exact (Parser.search_grown p hnonpos (fun _ => hsemiring) _).1
  have hwords := (Parser.possible_inside_iff hdecoder words hgrown.size_eq).1 hparse
  obtain ⟨d, hd, hread, hle⟩ := (hgrown.linked hfits).viterbiTree?_eq hgrown.acyclic hwords
  have hreported : (p.parse words).inside =
      (p.parse words).chart.inside 0 words.length p.grammar.start := by
    rw [hinside, if_pos]
    exact hd.start_lt
  refine ⟨d, hd, hread, ?_, hreported ▸ hle, fun hsingle => ?_⟩
  · rw [htree]
    exact congrArg (Option.map Tree.unfactor) hread
  · have hmax := ((fill_counts_each_once (.ofWords p.grammar words) p.options.storage 0 words.length
      p.grammar.start).1 p.grammar (hfill ▸ hfits)).1
    rw [hreported, hfill]
    exact hmax.score_le d ⟨hd, hsingle⟩

/-- A standard parser for `S → A`, `A → B`, `A → b` and `B → b`, whose third rule is the only loss. -/
def twistParser : Parser (WithBot ℤ) where
  grammar :=
    .ofProductions Chain.symbols Chain.code Chain.fits
      [⟨0, .unary 1, 0⟩, ⟨1, .unary 2, 0⟩, ⟨1, .lexical 0, (-1 : ℤ)⟩, ⟨2, .lexical 0, 0⟩]
      (by
        have hsize : Chain.symbols.numNonterminals = 3 ∧ Chain.symbols.lexicon.size = 1 := by decide
        rw [hsize.1, hsize.2]
        simp [Production.InRange, Children.InRange])
      (by simp [Production.sameRule])
  options := Chain.options
  merit := .inside

/-- The derivation with two unary rules. -/
def twisted : Derivation (WithBot ℤ) :=
  .unary ⟨0, .unary 1, 0⟩ (.unary ⟨1, .unary 2, 0⟩ (.word ⟨2, .lexical 0, 0⟩))

theorem parse_twist :
    (twistParser.parse ["b"]).inside = (-1 : ℤ) ∧
      ∀ root, (twistParser.parse ["b"]).chart.viterbiTree? Chain.symbols ["b"] root =
        (twistParser.search Chain.sentence).chart.viterbiTree? Chain.symbols ["b"] root := by
  obtain ⟨hchart, -, hinside⟩ := Parser.parse_viterbi (p := twistParser) rfl ["b"]
  rw [hinside, hchart, Chain.ofWords_eq _ rfl]
  exact ⟨by decide +kernel, fun _ => rfl⟩

theorem twist_parse_score_le :
    Score.impossible < (twistParser.parse ["b"]).inside ∧
      ∃ d, Derives twistParser.grammar (.ofWords twistParser.grammar ["b"]) 0 1 0 d ∧
        (twistParser.parse ["b"]).tree =
          some (d.tree twistParser.grammar.symbols.name ["b"] 0).unfactor ∧
        (twistParser.parse ["b"]).inside ≤ d.score := by
  have hpos : Score.impossible < (twistParser.parse ["b"]).inside := by
    rw [parse_twist.1]
    decide
  obtain ⟨d, hd, -, htree, hle, -⟩ := parse_score_le (p := twistParser) (by decide +kernel) rfl rfl
    rfl rfl ["b"] trivial hpos
  exact ⟨hpos, d, hd, htree, hle⟩

/-- The score that is reported and the tree that is read off part ways: the tree has two unary rules on
top of each other and costs nothing. -/
theorem twist_parse_disagrees :
    (twistParser.parse ["b"]).chart.viterbiTree? Chain.symbols ["b"] 0 =
        some (twisted.tree Chain.symbols.name ["b"] 0) ∧
      Derives twistParser.grammar Chain.sentence 0 1 0 twisted ∧
      twisted.score = 0 ∧ (twistParser.parse ["b"]).inside = (-1 : ℤ) := by
  refine ⟨?_, ?_, by decide, parse_twist.1⟩
  · rw [parse_twist.2, Chart.viterbiTree?, if_pos (by decide +kernel), Backpointers.tree?]
    have hsize : (twistParser.search Chain.sentence).chart.size = 1 := by decide +kernel
    have hmax : ((twistParser.search Chain.sentence).chart.backpointers Chain.symbols
        ["b"]).maxUnaries = 2 + 1 + 1 := by decide +kernel
    obtain ⟨htop, hmiddle, hword⟩ :
        ((twistParser.search Chain.sentence).chart.get? 0 1 0).map (·.backpointer) =
            some (.unary 1) ∧
          ((twistParser.search Chain.sentence).chart.get? 0 1 1).map (·.backpointer) =
            some (.unary 2) ∧
          ((twistParser.search Chain.sentence).chart.get? 0 1 2).map (·.backpointer) =
            some (.lexical 0) := by decide +kernel
    rw [hsize, hmax, Backpointers.follow_unary htop, Backpointers.follow_unary hmiddle,
      Backpointers.follow_lexical hword Nat.one_pos]
    rfl
  · refine DerivesIn.unary_iff.2 ⟨?_, rfl, trivial, 1, rfl, DerivesIn.unary_iff.2 ⟨?_, rfl, trivial, 2,
      rfl, DerivesIn.word_iff.2 ⟨?_, rfl, rfl, trivial, 0, rfl, rfl⟩⟩⟩ <;>
    simp [twistParser, Grammar.ofProductions]

/-! ## Sums -/

omit [MonotoneScore α] in
/-- However scores combine, a sentence that has a tree has a possible score; and if unary rules form no
circle, a sentence that has a possible score has a tree. -/
theorem isSome_tree_iff [LosslessScore α] (hstrategy : p.options.strategy = .exhaustive)
    (hdecoder : p.options.decoder = .viterbi) (words : List String)
    (hfits : (p.parse words).chart.Fits) :
    ((p.parse words).tree.isSome = true → Score.impossible < (p.parse words).inside) ∧
      (p.grammar.UnaryAcyclic →
        ((p.parse words).tree.isSome = true ↔ Score.impossible < (p.parse words).inside)) := by
  obtain ⟨hchart, htree, -⟩ := Parser.parse_viterbi hdecoder words
  have hlinked : (p.parse words).chart.Linked p.grammar (.ofWords p.grammar words)
      (fun _ _ => True) := by
    rw [hchart, Parser.search_exhaustive hstrategy] at hfits ⊢
    exact fill_linked (Accumulator.keepsPossible p.options.accumulator) p.options.segments
      (Parser.sound_emptyChart ..) (Parser.size_emptyChart ..)
      (fun _ _ _ => Parser.get?_emptyChart ..) hfits
  rw [Parser.possible_inside_iff hdecoder words hlinked.size_eq, htree, Option.isSome_map]
  refine ⟨fun hsome => ?_, fun hg => hlinked.isSome_viterbiTree? (hlinked.acyclic hg) _⟩
  rw [Chart.viterbiTree?] at hsome
  split at hsome
  · assumption
  · cases hsome

/-- The parser of the twisted rules with sums. -/
def twistSum : Parser (WithBot ℤ) :=
  { twistParser with options := { Chain.options with semiring := .sum } }

theorem twist_isSome_tree :
    (twistSum.parse ["b"]).tree.isSome = true ∧
      Score.impossible < (twistSum.parse ["b"]).inside := by
  have hacyclic : twistSum.grammar.UnaryAcyclic := by
    refine Grammar.unaryAcyclic_of_parent_lt fun r hr child hrc => ?_
    simp only [twistSum, twistParser, Grammar.ofProductions, List.mem_cons, List.not_mem_nil,
      or_false] at hr
    rcases hr with rfl | rfl | rfl | rfl
    · cases hrc
      exact Nat.zero_lt_one
    · cases hrc
      exact Nat.one_lt_two
    · cases hrc
    · cases hrc
  have hpos : Score.impossible < (twistSum.parse ["b"]).inside := by
    obtain ⟨hchart, -, hinside⟩ := Parser.parse_viterbi (p := twistSum) rfl ["b"]
    rw [hinside, hchart, Chain.ofWords_eq _ rfl]
    decide +kernel
  exact ⟨((isSome_tree_iff (p := twistSum) rfl rfl ["b"] trivial).2 hacyclic).2 hpos, hpos⟩

/-- The symbols of a grammar with one non-terminal and one word. -/
def circleSymbols : SymbolTable where
  nonterminals := Vocabulary.empty.push "S" (Vocabulary.find?_empty "S")
  lexicon := Vocabulary.empty.push "a" (Vocabulary.find?_empty "a")
  bases := Vocabulary.empty.push "S" (Vocabulary.find?_empty "S")
  baseIndex := #[0]
  start := 0
  start_lt := by decide
  baseIndex_size := by decide
  baseIndex_lt := by decide

/-- A parser for `S → S S`, `S → a` and `S → S`, whose probabilities add up to one, that sums exactly. -/
def circleParser : Parser Chance where
  grammar :=
    .ofProductions circleSymbols ⟨1, by decide⟩ (by decide)
      [⟨0, .binary 0 0, ⟨1 / 10⟩⟩, ⟨0, .lexical 0, ⟨3 / 10⟩⟩, ⟨0, .unary 0, ⟨6 / 10⟩⟩]
      (by
        have hsize : circleSymbols.numNonterminals = 1 ∧ circleSymbols.lexicon.size = 1 := by decide
        rw [hsize.1, hsize.2]
        simp [Production.InRange, Children.InRange])
      (by simp [Production.sameRule])
  options := { Options.plain ⟨1000⟩ 0 ⟨1000000⟩ with semiring := .sum }
  merit := .inside

/-- Three words, each known to the grammar. -/
def circleSentence : Sentence := ⟨["a", "a", "a"], [some 0, some 0, some 0], rfl⟩

theorem ofWords_circle :
    Sentence.ofWords circleParser.grammar ["a", "a", "a"] = circleSentence := by
  have hword : circleParser.grammar.terminal? "a" = some 0 :=
    Vocabulary.find?_eq_some_iff.2 (by decide)
  simp [Sentence.ofWords, circleSentence, hword]

/-- A sum over both ways to divide three words, less the cost of the rule from `S` to itself, is more
than either way by itself. The backpointer of the symbol then leads back to the symbol, and a
possible sentence has no tree. -/
theorem circle_parse_has_no_tree :
    Score.impossible < (circleParser.parse ["a", "a", "a"]).inside ∧
      (circleParser.parse ["a", "a", "a"]).tree = none := by
  obtain ⟨hchart, htree, hinside⟩ :=
    Parser.parse_viterbi (p := circleParser) rfl ["a", "a", "a"]
  rw [htree, hinside, hchart, ofWords_circle]
  refine ⟨by decide +kernel, ?_⟩
  have hloop : ((circleParser.search circleSentence).chart.backpointers circleSymbols
      ["a", "a", "a"]).find? 0 3 0 = some (.unary 0) := by decide +kernel
  have hsize : (circleParser.search circleSentence).chart.size = 3 := by decide +kernel
  have hnone : (circleParser.search circleSentence).chart.viterbiTree? circleSymbols
      ["a", "a", "a"] 0 = none := by
    rw [Chart.viterbiTree?, if_pos (by decide +kernel), Backpointers.tree?, hsize]
    exact Backpointers.follow_eq_none_of_loop hloop _
  exact congrArg (Option.map Tree.unfactor) hnone

end Exhaustive

end Constituency
