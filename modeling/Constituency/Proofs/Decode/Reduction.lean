import Constituency.Proofs.Decode.ConstituentTree
import Constituency.Proofs.Decode.Goodman
import Constituency.Proofs.Search.Rounds

/-!
# The two trees of a sentence with one derivation

If an exhaustively searched chart has one derivation of the sentence, following the backpointers reads off its
tree, and a decoder by constituents without a bias against long spans finds all its named constituents
(`Parser.goodman_tree`). It may find more: over a span that no named constituent has all labels gain
nothing, and the one it chooses is shown if something is gained below it. A symbol that takes no part in
the derivation then has a constituent where binarization leaves the span of an artefact
(`Parser.spare_trees`).
-/

namespace Constituency

/-- No named constituent of the derivation has the span, nor overlaps it without one containing the other. -/
def Derivation.Aside {α : Type} (g : Grammar α) (d : Derivation α) (i j : Nat) : Prop :=
  ∀ v ∈ d.nodes 0, g.symbols.isFactored v.2.2 = false → (v.1, v.2.1) ≠ (i, j) ∧
    ((i ≤ v.1 ∧ v.2.1 ≤ j) ∨ (v.1 ≤ i ∧ j ≤ v.2.1) ∨ v.2.1 ≤ i ∨ j ≤ v.1)

/-- Each span of several words or one that a derivation covers is that of a constituent, or overlaps one. -/
theorem Derivation.exists_overlap {α : Type} {d : Derivation α} {i j k : Nat} (hij : i < j)
    (hi : k ≤ i) (hj : j ≤ k + d.width) :
    ∃ v ∈ d.nodes k, (v.1, v.2.1) = (i, j) ∨ (v.1 < i ∧ i < v.2.1 ∧ v.2.1 < j) ∨
      (i < v.1 ∧ v.1 < j ∧ j < v.2.1) := by
  induction d generalizing k with
  | word p =>
    simp only [width] at hj
    exact ⟨(k, k + 1, p.parent), by simp [nodes], .inl (by simp only [Prod.mk.injEq]; omega)⟩
  | unary p c ih =>
    obtain ⟨v, hv, hspan⟩ := ih hi hj
    exact ⟨v, List.mem_cons_of_mem _ hv, hspan⟩
  | binary p l r ihl ihr =>
    have hwidth := l.width_pos
    have hwidth' := r.width_pos
    simp only [width] at hj
    simp only [nodes, List.mem_cons, List.mem_append]
    rcases Nat.lt_or_ge (k + l.width) j with hright | hleft
    · rcases Nat.lt_or_ge i (k + l.width) with hacross | hafter
      · by_cases hwhole : i = k
        · by_cases hall : j = k + (l.width + r.width)
          · exact ⟨_, .inl rfl, .inl (by simp only [Prod.mk.injEq]; omega)⟩
          · exact ⟨_, .inr (.inr (r.mem_nodes_self _)), .inr (.inr (by simp only; omega))⟩
        · exact ⟨_, .inr (.inl (l.mem_nodes_self _)), .inr (.inl (by simp only; omega))⟩
      · obtain ⟨v, hv, hspan⟩ := ihr hafter (by omega)
        exact ⟨v, .inr (.inr hv), hspan⟩
    · obtain ⟨v, hv, hspan⟩ := ihl hi hleft
      exact ⟨v, .inr (.inl hv), hspan⟩

/-- Beside a derivation whose constituents are all named there is no room. -/
theorem Derivation.not_aside {α : Type} {g : Grammar α} {d : Derivation α} {i j : Nat}
    (hnamed : ∀ v ∈ d.nodes 0, g.symbols.isFactored v.2.2 = false) (hij : i < j)
    (hj : j ≤ d.width) : ¬ d.Aside g i j := by
  intro haside
  obtain ⟨v, hv, hspan⟩ := exists_overlap hij (Nat.zero_le i) (by rwa [Nat.zero_add])
  obtain ⟨hne, hclear⟩ := haside v hv (hnamed v hv)
  rcases hspan with heq | hcross | hcross
  · exact hne heq
  · omega
  · omega

theorem ConstituentTask.Idle.aside {α : Type} {t : ConstituentTask α} {d : Derivation α}
    {i j : Nat} {A : NonTerminal} (h : t.Idle d i j A) : d.Aside t.grammar i j := by
  intro v hv hnamed
  have hmark := mem_marks_of_counts ⟨hv, hnamed⟩
  refine ⟨fun heq => h.unmarked ?_, h.clear _ hmark⟩
  rw [← heq]
  exact hmark

/-- Where each symbol has one rule, it has one derivation. -/
theorem DerivesIn.eq_of_parents {α : Type} {g : Grammar α} {s : Sentence}
    {live : Nat → Nat → NonTerminal → Prop} {i j k l : Nat} {A : NonTerminal}
    {d e : Derivation α}
    (hg : (g.productions.map (·.parent)).Nodup) (hd : DerivesIn g s live i j A d)
    (he : DerivesIn g s live k l A e) : d = e := by
  have hrule := List.inj_on_of_nodup_map hg
  induction hd generalizing k l e with
  | @word i p word mem children =>
    generalize hA : p.parent = A at he
    cases he with
    | word mem' => rw [hrule mem mem' hA]
    | unary mem' children' | binary mem' children' =>
      obtain rfl := hrule mem mem' hA
      cases children.symm.trans children'
  | @unary i j p B d mem children below alive ih =>
    generalize hA : p.parent = A at he
    cases he with
    | unary mem' children' below' =>
      obtain rfl := hrule mem mem' hA
      cases children.symm.trans children'
      rw [ih below']
    | word mem' children' | binary mem' children' =>
      obtain rfl := hrule mem mem' hA
      cases children.symm.trans children'
  | @binary i m j p B C d e mem children left right alive ihl ihr =>
    generalize hA : p.parent = A at he
    cases he with
    | binary mem' children' left' right' =>
      obtain rfl := hrule mem mem' hA
      cases children.symm.trans children'
      rw [ihl left', ihr right']
    | word mem' children' | unary mem' children' =>
      obtain rfl := hrule mem mem' hA
      cases children.symm.trans children'

/-! ## Charts with one derivation -/

section Sole

variable {α : Type} [Score α] [LosslessScore α] {g : Grammar α} {s : Sentence} {c : Chart α}
  {d : Derivation α}

/-- A chart with one possible derivation of the sentence, which has no unary rules on top of each other. -/
structure Chart.Sole (g : Grammar α) (s : Sentence) (c : Chart α) (d : Derivation α) : Prop where
  sound : c.Sound g
  size_eq : c.size = s.size
  records : ∀ i j A e, c.get? i j A = some e → Records g s c.Live e.backpointer i j A
  supported : Supported g s c.Live
  only : Only (PackedChart.below g s c.Live 0 s.size g.start) Derivation.score d
  single : d.SingleUnaries

namespace Chart.Sole

variable (h : c.Sole g s d)

include h

theorem traced : d.Traced (fun i j A => (c.get? i j A).map (·.backpointer)) 0 := by
  refine traced_of_only h.only h.supported fun i j A hA => ?_
  obtain ⟨e, he⟩ := Option.isSome_iff_exists.1 hA
  exact ⟨e.backpointer, by rw [he, Option.map_some], h.records i j A e he⟩

/-- The backpointers of the chart lead along the derivation. -/
theorem viterbiTree?_eq (hparse : c.hasParse g.start = true) :
    c.viterbiTree? g.symbols s.words g.start = some (d.tree g.symbols.name s.words 0) := by
  have hlength : c.size ≤ s.words.length := Nat.le_of_eq h.size_eq
  have hderives := h.only.mem
  rw [← h.size_eq] at hderives
  rw [Chart.viterbiTree?, if_pos hparse, Backpointers.tree?]
  exact h.traced.follow (b := c.backpointers g.symbols s.words) hderives h.single hlength
    (Nat.le_add_left 1 _) (Nat.le_trans h.single.unaryHeight_le (Nat.le_add_left 1 _))

omit [LosslessScore α] in
/-- Laid out in rows the chart has the same derivation. -/
theorem only_toPacked : Only (PackedChart.below g s (c.toPacked g).Live 0 (c.toPacked g).size
    g.start) Derivation.score d := by
  rw [Parser.live_toPacked h.sound, (Chart.toPacked_spec h.sound).2.1, h.size_eq]
  exact h.only

end Chart.Sole

/-- The chart has a derivation of the sentence, and no other possible one. -/
structure Chart.HasOnly (g : Grammar α) (s : Sentence) (c : Chart α) (d : Derivation α) : Prop where
  derives : DerivesIn g s c.Live 0 s.size g.start d
  unique : ∀ e, DerivesIn g s c.Live 0 s.size g.start e → Score.impossible < e.score → e = d

omit [LosslessScore α] in
/-- The only derivation is possible, since its symbol has a possible one. -/
theorem Chart.HasOnly.sole (h : c.HasOnly g s d) (hc : c.Sustained g s)
    (hrecords : ∀ i j A e, c.get? i j A = some e → Records g s c.Live e.backpointer i j A)
    (hsupported : Supported g s c.Live) (hsingle : d.SingleUnaries) : c.Sole g s d where
  sound := hc.sound
  size_eq := hc.size_eq
  records := hrecords
  supported := hsupported
  only := by
    obtain ⟨e, he, hpos⟩ := hsupported _ _ _ h.derives.alive
    exact ⟨h.derives, h.unique e he hpos ▸ hpos, h.unique⟩
  single := hsingle

omit [LosslessScore α] in
/-- A chart of possible entries has the start symbol if it has a derivation of the sentence. -/
theorem Chart.HasOnly.hasParse (h : c.HasOnly g s d) (hc : c.Sustained g s) :
    c.hasParse g.start = true := by
  obtain ⟨e, he⟩ := Option.isSome_iff_exists.1 h.derives.alive
  rw [Chart.hasParse, hc.size_eq, hc.sound.inside_eq, he, Bool.and_eq_true, decide_eq_true_iff,
    decide_eq_true_iff]
  exact ⟨h.derives.start_lt, hc.possible _ _ _ e he⟩

end Sole

section Constituents

variable {α : Type} [Score α] [ExactScore α] {g : Grammar α} {s : Sentence} {c : Chart α}
  {d : Derivation α}

namespace Chart.Sole

variable (h : c.Sole g s d)

include h

/-- Once the chart is weighed, its constituents share the whole score of the sentence. -/
theorem constituentTask {o : Options α} (hlambda : o.lambda = 0) :
    (o.constituentTask g (Parser.weighed o.sums g s (c.toPacked g)) s.words false).Sole s d := by
  obtain ⟨hpacked, hsize, -⟩ := Chart.toPacked_spec h.sound
  have hw := Chart.repacked_weighed h.sound o.sums s
  have honly := h.only_toPacked
  have hposterior := PackedChart.inside_add_outside_of_only o.sums hpacked honly
  have hresummed := (PackedChart.reweighed_resum o.sums hpacked s.terminals).sound hpacked
  exact
    { coarse_eq := rfl
      lambda_eq := hlambda
      sound := hw.sound
      length_eq := h.size_eq.symm.trans hw.size_eq.symm
      records := hw.records h.records
      derives := by
        show DerivesIn g s (Parser.weighed o.sums g s (c.toPacked g)).Live 0
          (Parser.weighed o.sums g s (c.toPacked g)).size g.start d
        rw [hw.live_eq, hw.size_eq, h.size_eq]
        exact h.only.mem
      possible := h.only.possible
      single := h.single
      straight := h.only.straight
      traced := by
        have hsame := hw.backpointer_eq
        show d.Traced (fun i j A => ((Parser.weighed o.sums g s (c.toPacked g)).get? i j A).map
          (·.backpointer)) 0
        simp only [hsame]
        exact h.traced
      sentenceScore_eq := by
        show (Parser.weighed o.sums g s (c.toPacked g)).inside 0
          (Parser.weighed o.sums g s (c.toPacked g)).size g.start = d.score
        rw [hw.size_eq, ← hsize, Parser.weighed,
          (PackedChart.sameInside_surround o.sums hresummed).inside_eq]
        exact (PackedChart.tracks_inside o.sums hpacked s _ _ _).only d honly
      node := fun v => (hposterior v).1
      other := fun v => (hposterior v).2 }

/-- The tree by constituents has all constituents of the derivation, and others only for entries over
spans aside of it. -/
theorem restrict_constituentTree? {o : Options α} (hlambda : o.lambda = 0) {tree : Tree}
    (htree : c.constituentTree? o g s false = some tree) :
    tree.unfactor.restrict (fun x =>
        decide (x ∈ (d.tree g.symbols.name s.words 0).unfactor.constituents)) =
      (d.tree g.symbols.name s.words 0).unfactor ∧
    ∀ x ∈ tree.unfactor.constituents,
      x ∈ (d.tree g.symbols.name s.words 0).unfactor.constituents ∨
        Tree.isHidden x.2.2 = false ∧ ∃ A, c.Live x.1 x.2.1 A ∧ g.symbols.name A = x.2.2 ∧
          d.Aside g x.1 x.2.1 := by
  have hsole := h.constituentTask hlambda
  have hlive := (Chart.repacked_weighed h.sound o.sums s).live_eq
  rw [constituentTree?, ConstituentTask.tree?] at htree
  split at htree
  · cases htree
  · obtain ⟨hrestrict, hall⟩ := hsole.restrict_unfactor htree
    refine ⟨hrestrict, fun x hx => (hall x hx).imp_right ?_⟩
    rintro ⟨hhidden, A, hidle, hname⟩
    refine ⟨hhidden, A, ?_, hname, hidle.aside⟩
    rw [← hlive]
    exact hidle.live

omit [ExactScore α] in
/-- A derivation whose constituents are all named has no entries aside of it. -/
theorem not_aside_of_live {i j : Nat} {A : NonTerminal}
    (hnamed : ∀ v ∈ d.nodes 0, g.symbols.isFactored v.2.2 = false) (hA : c.Live i j A) :
    ¬ d.Aside g i j := by
  obtain ⟨e, he⟩ := Option.isSome_iff_exists.1 hA
  obtain ⟨hij, hj⟩ := h.sound.bounds he
  have hwidth := h.only.mem.stop_eq
  have hsize := h.size_eq
  exact Derivation.not_aside hnamed hij (by omega)

end Chart.Sole

end Constituents

/-! ## Searches -/

namespace Parser

section Decoders

variable {α : Type} [Score α] {p : Parser α} {s : Sentence} {d : Derivation α}

/-- The parser with another decoder. -/
def decodingBy (p : Parser α) (decoder : Decoder) : Parser α :=
  { p with options := { p.options with decoder } }

/-- Only a beam search looks at the decoder, to see whether it is one by sums of merits. -/
theorem search_decodingBy (p : Parser α) (decoder : Decoder) (s : Sentence)
    (hmerits : p.options.strategy = .beam →
      (decoder == .meritSum) = (p.options.decoder == .meritSum)) :
    (p.decodingBy decoder).search s = p.search s := by
  cases h : p.options.strategy with
  | exhaustive => rw [search_eq_exhaustive h, search_eq_exhaustive (p := p.decodingBy decoder) h]; rfl
  | agenda => rw [search_agenda h, search_agenda (p := p.decodingBy decoder) h]; rfl
  | beam =>
    rw [search_eq_beam h, search_eq_beam (p := p.decodingBy decoder) h, ← hmerits h]
    rfl

theorem tree_viterbi (hstrategy : p.options.strategy = .exhaustive) (words : List String) :
    ((p.decodingBy .viterbi).parse words).tree =
      ((p.searched words).viterbiTree? p.grammar.symbols words p.grammar.start).map
        Tree.unfactor := by
  have hsearch := p.search_decodingBy .viterbi (.ofWords p.grammar words) fun hbeam => by
    rw [hstrategy] at hbeam
    cases hbeam
  rw [parse_eq, decode_viterbi rfl, searched, ← hsearch]
  rfl

theorem tree_goodman (hstrategy : p.options.strategy = .exhaustive) (words : List String)
    (hc : (p.searched words).Sound p.grammar)
    (hparse : (p.searched words).hasParse p.grammar.start = true) :
    ((p.decodingBy .goodman).parse words).tree =
      ((p.searched words).constituentTree? p.options p.grammar (.ofWords p.grammar words)
        false).map Tree.unfactor := by
  have hsearch := p.search_decodingBy .goodman (.ofWords p.grammar words) fun hbeam => by
    rw [hstrategy] at hbeam
    cases hbeam
  rw [searched, ← hsearch] at hc hparse ⊢
  rw [parse_eq]
  exact (p.decodingBy .goodman).decode_constituents (.ofWords p.grammar words) _ hc (.inl rfl) hparse

end Decoders

section Trees

variable {α : Type} [Score α] [ExactScore α] {p : Parser α} {s : Sentence} {d : Derivation α}

/-- The only derivation has no unary rules on top of each other: there is one that has not. -/
theorem search_sole (hstrategy : p.options.strategy = .exhaustive)
    (hfits : (p.search s).chart.Fits)
    (hd : Only (PackedChart.below p.grammar s (p.search s).chart.Live 0 s.size p.grammar.start)
      Derivation.score d) : (p.search s).chart.Sole p.grammar s d := by
  have hsustained := p.search_sustained (fun _ => Accumulator.keepsPossible _) s
  have honly : (p.search s).chart.HasOnly p.grammar s d := ⟨hd.mem, hd.unique⟩
  obtain ⟨e, he, hpos, hsingle, -⟩ := search_layered hstrategy hfits hd.mem.alive
  obtain rfl := hd.unique e he hpos
  exact honly.sole hsustained (hsustained.records hfits)
    (hsustained.supported inferInstance hfits) hsingle

/-- Both decoders have a tree. -/
theorem exists_trees (hnonpos : ∀ r ∈ p.grammar.productions, r.logProb ≤ 0)
    (hstrategy : p.options.strategy = .exhaustive) (words : List String)
    (hfits : (p.searched words).Fits)
    (hd : Only (PackedChart.below p.grammar (.ofWords p.grammar words) (p.searched words).Live 0
      words.length p.grammar.start) Derivation.score d) :
    ((p.decodingBy .viterbi).parse words).tree =
        some (d.tree p.grammar.symbols.name words 0).unfactor ∧
      ∃ tree, ((p.decodingBy .goodman).parse words).tree = some tree.unfactor ∧
        (p.searched words).constituentTree? p.options p.grammar (.ofWords p.grammar words) false =
          some tree := by
  let s := Sentence.ofWords p.grammar words
  have hsole : (p.searched words).Sole p.grammar s d := search_sole hstrategy hfits hd
  have honly : (p.searched words).HasOnly p.grammar s d := ⟨hd.mem, hd.unique⟩
  have hparse := honly.hasParse (p.search_sustained (fun _ => Accumulator.keepsPossible _) s)
  have hacyclic : (p.searched words).AcyclicWords :=
    p.search_acyclicWords hnonpos (fun _ => Accumulator.keepsPossible _) s
  obtain ⟨tree, htree⟩ := Option.isSome_iff_exists.1 <| Chart.isSome_constituentTree? hsole.sound
    hsole.size_eq hsole.records hsole.supported hacyclic hparse p.options false
  refine ⟨?_, tree, ?_, htree⟩
  · rw [tree_viterbi hstrategy]
    exact congrArg (Option.map Tree.unfactor) (hsole.viterbiTree?_eq hparse)
  · rw [tree_goodman hstrategy words hsole.sound hparse, htree, Option.map_some]

end Trees

/-! ## A spare symbol -/

/-- The symbols of a chain and an artefact of binarization. -/
def spareNames : Vocabulary :=
  Chain.nonterminals.push "@S|A|A" (Vocabulary.find?_eq_none
    (by simp [Chain.nonterminals, Vocabulary.empty, Vocabulary.push]))

/-- A parser for `S → A A A`, in binary form, `B → A A` and `A → b`. -/
def spareParser : Parser (WithBot ℤ) where
  grammar :=
    .ofProductions
      { nonterminals := spareNames
        lexicon := Chain.lexicon
        bases := spareNames
        baseIndex := #[0, 1, 2, 3]
        start := 0
        start_lt := by decide
        baseIndex_size := by decide
        baseIndex_lt := by decide } Chain.code (by decide)
      [⟨0, .binary 1 3, 0⟩, ⟨3, .binary 1 1, 0⟩, ⟨2, .binary 1 1, 0⟩, ⟨1, .lexical 0, 0⟩]
      (by
        have hsize : spareNames.size = 4 ∧ Chain.lexicon.size = 1 := by decide
        simp [Production.InRange, Children.InRange, SymbolTable.numNonterminals, hsize])
      (by simp [Production.sameRule])
  options := Chain.options
  merit := .inside

/-- Three words. -/
def spareSentence : Sentence := ⟨["b", "b", "b"], [some 0, some 0, some 0], by decide⟩

theorem ofWords_spare : Sentence.ofWords spareParser.grammar ["b", "b", "b"] = spareSentence := by
  have hword : spareParser.grammar.terminal? "b" = some 0 := Vocabulary.find?_eq_some_iff.2 (by decide)
  simp [Sentence.ofWords, spareSentence, hword]

/-- A word of the derivation. -/
def spareWord : Derivation (WithBot ℤ) := .word ⟨1, .lexical 0, 0⟩

/-- The derivation of three words, in which `B` has no part. -/
def spareDerivation : Derivation (WithBot ℤ) :=
  .binary ⟨0, .binary 1 3, 0⟩ spareWord (.binary ⟨3, .binary 1 1, 0⟩ spareWord spareWord)

/-- The searched chart has this derivation of three words and no other one. -/
theorem only_spareDerivation :
    Only (PackedChart.below spareParser.grammar spareSentence
      (spareParser.search spareSentence).chart.Live 0 3 0) Derivation.score spareDerivation := by
  have hrules : (spareParser.grammar.productions.map (·.parent)).Nodup := by decide +kernel
  have hlive : (spareParser.search spareSentence).chart.Live 0 3 0 := by
    show ((spareParser.search spareSentence).chart.get? 0 3 0).isSome = true
    decide +kernel
  have hsupported := (spareParser.search_upheld (fun _ => Accumulator.keepsPossible _)
    spareSentence).supported inferInstance trivial
  obtain ⟨d, hd, -⟩ := hsupported 0 3 0 hlive
  have hword : ∀ i < 3, Derives spareParser.grammar spareSentence i (i + 1) 1 spareWord := by
    intro i hi
    have hmem : ⟨1, .lexical 0, 0⟩ ∈ spareParser.grammar.productions := by
      simp [spareParser, Grammar.ofProductions]
    have hterminal : spareSentence.terminal? i = some 0 := by interval_cases i <;> rfl
    exact .word hmem rfl hterminal trivial
  have hrest : Derives spareParser.grammar spareSentence 1 3 3
      (.binary ⟨3, .binary 1 1, 0⟩ spareWord spareWord) :=
    .binary (p := ⟨3, .binary 1 1, 0⟩) (by simp [spareParser, Grammar.ofProductions]) rfl
      (hword 1 (by omega)) (hword 2 (by omega)) trivial
  have hwhole : Derives spareParser.grammar spareSentence 0 3 0 spareDerivation :=
    .binary (p := ⟨0, .binary 1 3, 0⟩) (by simp [spareParser, Grammar.ofProductions]) rfl
      (hword 0 (by omega)) hrest trivial
  obtain rfl : d = spareDerivation :=
    (hd.mono fun _ _ _ _ => trivial).eq_of_parents hrules hwhole
  exact ⟨hd, by decide +kernel, fun d' hd' _ => hd'.eq_of_parents hrules hd⟩

/-- What the decoder by constituents works on. -/
def spareTask : ConstituentTask (WithBot ℤ) :=
  spareParser.options.constituentTask spareParser.grammar
    (weighed spareParser.options.sums spareParser.grammar spareSentence
      ((spareParser.search spareSentence).chart.toPacked spareParser.grammar))
    spareSentence.words false

theorem sole_spareTask : spareTask.Sole spareSentence spareDerivation :=
  (search_sole (p := spareParser) (s := spareSentence) rfl trivial
    only_spareDerivation).constituentTask rfl

theorem branch_spareTask {i j m : Nat} {tree : Tree} (label : String)
    (hchoice : (spareTask.choices.get i j).map (fun c => (spareTask.labelOf i j c, c.midpoint,
      c.unaryChild)) = some (label, m, none)) (hmid : i < m ∧ m < j)
    (htree : spareTask.treeOf spareTask.choices i j = some tree) :
    ∃ left right, spareTask.treeOf spareTask.choices i m = some left ∧
      spareTask.treeOf spareTask.choices m j = some right ∧
      tree = .branch label i j [left, right] := by
  obtain ⟨cell, hcell, heq⟩ := Option.map_eq_some_iff.1 hchoice
  rw [Prod.mk.injEq, Prod.mk.injEq] at heq
  obtain ⟨hlabel, rfl, hchild⟩ := heq
  obtain ⟨left, right, hleft, hright, hstack⟩ := sole_spareTask.exists_halves hcell hmid htree
  rw [hlabel, hchild] at hstack
  exact ⟨left, right, hleft, hright, List.singleton_inj.1 hstack⟩

theorem word_spareTask {i : Nat} (hpart : Derivation.Part 0 spareDerivation i spareWord)
    (hchoice : (spareTask.choices.get i (i + 1)).map (·.label) = some 1) :
    spareTask.treeOf spareTask.choices i (i + 1) =
      some (spareWord.tree spareTask.called spareTask.words i) := by
  obtain ⟨cell, hcell, hlabel⟩ := Option.map_eq_some_iff.1 hchoice
  rw [ConstituentTask.treeOf_word hcell, hlabel]
  exact sole_spareTask.wordTree_of_part hpart rfl

/-- The tree by constituents has one that takes no part in the derivation. -/
theorem text_spareTask {tree : Tree} (htree : spareTask.tree? = some tree) :
    tree.unfactor.text = "(S (A b)(B (A b)(A b)))" := by
  have hsize : spareTask.chart.size = 3 := by decide +kernel
  rw [ConstituentTask.tree?, if_neg (by decide +kernel), hsize] at htree
  have hfirst := word_spareTask (.left .whole) (by decide +kernel)
  have hsecond := word_spareTask (.left (.right .whole)) (by decide +kernel)
  have hthird := word_spareTask (.right (.right .whole)) (by decide +kernel)
  obtain ⟨left, right, hleft, hright, rfl⟩ :=
    branch_spareTask (m := 1) "S" (by decide +kernel) (by decide) htree
  obtain ⟨left', right', hleft', hright', rfl⟩ :=
    branch_spareTask (m := 2) "B" (by decide +kernel) (by decide) hright
  obtain rfl := Option.some.inj (hfirst.symm.trans hleft)
  obtain rfl := Option.some.inj (hsecond.symm.trans hleft')
  obtain rfl := Option.some.inj (hthird.symm.trans hright')
  decide +kernel

theorem only_searched_spare :
    Only (PackedChart.below spareParser.grammar (.ofWords spareParser.grammar ["b", "b", "b"])
      (spareParser.searched ["b", "b", "b"]).Live 0 3 spareParser.grammar.start) Derivation.score
      spareDerivation := by
  rw [searched, ofWords_spare]
  exact only_spareDerivation

end Parser

end Constituency
