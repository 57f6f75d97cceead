import Constituency.Proofs.Chart.Survival
import Constituency.Proofs.Decode.Bracketing
import Constituency.Proofs.Decode.Yield
import Constituency.Proofs.Grammar.Cascade
import Constituency.Proofs.Search.Agenda.FirstParse
import Constituency.Proofs.Search.WordChains

/-!
# The trees of a decoder by constituents

A decoder by constituents chooses a label for each cell and then a bracketing, whatever the labels. It
does not come to a dead end: a span that has entries has a midpoint both of whose halves have entries,
because one of its entries has a derivation from entries (`Parsed.exists_choice`), and over a word the
chain of unary rules below the label comes to the word (`Parsed.isSome_unaryChain`). Every sentence that
the searched chart derives therefore has a tree, whatever the search left out and whatever the gains of
the labels (`Parser.constituents_tree`).
-/

namespace Constituency

/-- A derivation over several words divides them somewhere. -/
theorem DerivesIn.exists_midpoint {α : Type} {g : Grammar α} {s : Sentence}
    {live : Nat → Nat → NonTerminal → Prop} {i j : Nat} {A : NonTerminal} {d : Derivation α}
    (h : DerivesIn g s live i j A d) (hlong : j ≠ i + 1) :
    ∃ m B C, (i < m ∧ m < j) ∧ live i m B ∧ live m j C := by
  induction h with
  | word => exact absurd rfl hlong
  | unary _ _ _ _ ih => exact ih hlong
  | @binary i m j _ B C _ _ _ _ leftBelow rightBelow _ =>
    exact ⟨m, B, C, ⟨leftBelow.start_lt, rightBelow.start_lt⟩, leftBelow.alive, rightBelow.alive⟩

namespace ConstituentTask

variable {α : Type} [Score α] {t : ConstituentTask α} {s : Sentence} {i j unaries : Nat}
  {A : NonTerminal} {cell : ConstituentCell α}

/-- A task whose chart derives the sentence: its entries record rules, have derivations, and do not run
their unary rules in circles over single words. -/
structure Parsed (s : Sentence) (t : ConstituentTask α) : Prop where
  sound : t.chart.Sound t.grammar
  length_eq : t.words.length = t.chart.size
  records : ∀ i j A e, t.chart.get? i j A = some e →
    Records t.grammar s t.chart.Live e.backpointer i j A
  supported : Supported t.grammar s t.chart.Live
  acyclicWords : (Chart.packed t.chart).AcyclicWords
  possible : Score.impossible < t.sentenceScore

namespace Parsed

variable (h : t.Parsed s)

include h

/-! ## Words -/

/-- The chain of unary rules below an entry over a word comes to the word. -/
theorem isSome_unaryChain (hA : t.chart.Live i (i + 1) A)
    (hdepth : depthBelow t.grammar.numNonterminals
      ((Chart.packed t.chart).UnaryLink i (i + 1)) A ≤ unaries) :
    (t.unaryChain i unaries A).isSome = true := by
  obtain ⟨⟨nt, inside, b⟩, hentry⟩ := Option.isSome_iff_exists.1 hA
  obtain ⟨-, hi⟩ := h.sound.bounds_of_live hA
  have hrecords := h.records _ _ _ _ hentry
  induction unaries using Nat.strongRecOn generalizing A nt inside b with
  | _ unaries ih =>
    cases b with
    | lexical word =>
      have hword : i < t.words.length := h.length_eq ▸ hi
      unfold unaryChain
      simp [hentry, List.getElem?_eq_getElem hword]
    | unary B =>
      obtain ⟨p, hp, hpc, hB⟩ : ∃ p ∈ t.grammar.productions, p.children = .unary B ∧
          t.chart.Live i (i + 1) B := by
        cases hrecords with
        | unary mem children _ below => exact ⟨_, mem, children, below⟩
      have hlt := depthBelow_lt_of_link (h.acyclicWords i) ⟨_, hentry, rfl⟩
        (Grammar.unary_lt hp hpc)
      obtain ⟨⟨nt', inside', b'⟩, hentry'⟩ := Option.isSome_iff_exists.1 hB
      obtain ⟨rest, rfl⟩ : ∃ n, unaries = n + 1 := ⟨unaries - 1, by omega⟩
      have hbelow := ih rest (Nat.lt_succ_self rest) hB (by omega) _ _ _ hentry'
        (h.records _ _ _ _ hentry')
      unfold unaryChain
      simpa [hentry] using hbelow
    | binary left right m =>
      cases hrecords with
      | binary _ _ _ hm => omega

/-- The label chosen for a word has a tree. -/
theorem isSome_wordTree (hcell : t.choices.get i (i + 1) = some cell) :
    (t.wordTree i cell.label).isSome = true := by
  obtain ⟨A, hA, hlabel⟩ :=
    exists_symbol_of_mem_candidates (mem_candidates_of_get_choices hcell)
  have hchain : ∀ B ∈ t.chart.symbols i (i + 1),
      (t.unaryChain i (t.grammar.numNonterminals + 1) B).isSome = true := fun B hB =>
    h.isSome_unaryChain ((PackedChart.mem_symbols h.sound).1 hB)
      (Nat.le_succ_of_le depthBelow_le)
  rw [wordTree]
  split
  · next hcoarse =>
    rw [labelFor, if_pos hcoarse] at hlabel
    obtain ⟨B, hB⟩ := Option.isSome_iff_exists.1 (isSome_topSplit? hA hlabel)
    rw [hB, Option.bind_some]
    exact hchain B (of_topSplit? hB).1
  · next hcoarse =>
    rw [labelFor, if_neg hcoarse] at hlabel
    rw [Option.bind_some]
    exact hchain _ (hlabel ▸ hA)

variable [LosslessScore α]

/-! ## Choices -/

theorem live_start : t.chart.Live 0 t.chart.size t.grammar.start :=
  PackedChart.live_of_possible h.sound h.possible

/-- A cell with entries has candidates. -/
theorem exists_bestCandidate (hA : t.chart.Live i j A) :
    ∃ best, bestCandidate? (t.candidates i j) = some best := by
  have hcandidate : ∃ c, c ∈ t.candidates i j := by
    by_cases hwhole : j - i = t.chart.size
    · obtain ⟨hij, hj⟩ := h.sound.bounds_of_live hA
      obtain ⟨rfl, rfl⟩ : i = 0 ∧ j = t.chart.size := by omega
      obtain ⟨c, hc, -⟩ := exists_candidate h.sound
        ((PackedChart.mem_symbols h.sound).2 h.live_start) fun _ => t.rootLabel_eq.symm
      exact ⟨c, hc⟩
    · obtain ⟨c, hc, -⟩ := exists_candidate h.sound
        ((PackedChart.mem_symbols h.sound).2 hA) (absurd · hwhole)
      exact ⟨c, hc⟩
  obtain ⟨c, hc⟩ := hcandidate
  exact Option.isSome_iff_exists.1 (isSome_bestCandidate?_of_mem hc)

/-- A cell with entries has a choice. -/
theorem exists_choice (hA : t.chart.Live i j A) : ∃ cell, t.choices.get i j = some cell := by
  induction hlen : j - i using Nat.strongRecOn generalizing i j A with
  | _ len ih =>
    subst hlen
    obtain ⟨hij, hj⟩ := h.sound.bounds_of_live hA
    obtain ⟨best, hbest⟩ := h.exists_bestCandidate hA
    rw [get_choices hij hj, choose, hbest, Option.bind_some]
    split
    · exact ⟨_, rfl⟩
    · next hlong =>
      obtain ⟨d, hd, -⟩ := h.supported i j A hA
      obtain ⟨m, B, C, ⟨him, hmj⟩, hB, hC⟩ :=
        hd.exists_midpoint fun hone => hlong (beq_iff_eq.2 hone)
      obtain ⟨left, hleft⟩ := ih _ (by omega) hB rfl
      obtain ⟨right, hright⟩ := ih _ (by omega) hC rfl
      obtain ⟨split, hsplit⟩ :=
        Option.isSome_iff_exists.1 (isSome_bestSplit? him hmj hleft hright)
      rw [hsplit]
      exact ⟨_, rfl⟩

/-- There is a tree, whatever the gains of the labels. -/
theorem isSome_tree? : t.tree?.isSome = true := by
  obtain ⟨hpos, -⟩ := h.sound.bounds_of_live h.live_start
  have hcond : ¬ (t.chart.size == 0 || t.sentenceScore == Score.impossible) = true := by
    rw [Bool.or_eq_true, not_or, Bool.not_eq_true, Bool.not_eq_true,
      Score.beq_impossible_eq_false_iff, beq_eq_false_iff_ne]
    exact ⟨Nat.ne_of_gt hpos, h.possible⟩
  obtain ⟨cell, hcell⟩ := h.exists_choice h.live_start
  rw [tree?, if_neg hcond]
  exact isSome_treeOf hcell fun k cell => h.isSome_wordTree

end Parsed

end ConstituentTask

/-! ## Weighed charts -/

section Weighed

variable {α : Type} [Score α] [LosslessScore α] {g : Grammar α} {s : Sentence} {o : Options α}
  {i j : Nat} {A : NonTerminal}

/-- A weighed chart gives what has a possible derivation a possible score. -/
theorem PackedChart.possible_weighed {c : PackedChart α} (acc : Accumulator α) (hc : c.Sound g)
    (h : Grounded g s c.Live i j A) :
    Score.impossible < (Parser.weighed acc g s c).inside i j A := by
  have hsummed := (reweighed_resum acc hc s.terminals).sound hc
  rw [Parser.weighed, (sameInside_surround acc hsummed).inside_eq]
  exact possible_resum_of_grounded acc hc h

/-- The rows hold the entries of the chart, with weights of their own. -/
structure Chart.Repacked (c : Chart α) (g : Grammar α) (w : PackedChart α) : Prop where
  sound : w.Sound g
  size_eq : w.size = c.size
  backpointer_eq : ∀ i j A,
    (w.get? i j A).map (·.backpointer) = (c.get? i j A).map (·.backpointer)

omit [LosslessScore α] in
theorem Chart.repacked_weighed {c : Chart α} (hc : c.Sound g) (acc : Accumulator α)
    (s : Sentence) : c.Repacked g (Parser.weighed acc g s (c.toPacked g)) := by
  obtain ⟨hpacked, hsize, hget⟩ := Chart.toPacked_spec hc
  have hsame := PackedChart.reweighed_weighed acc s hpacked
  refine ⟨hsame.sound hpacked, hsame.size_eq.trans hsize, fun i j A => ?_⟩
  rw [← hget]
  cases hw : (Parser.weighed acc g s (c.toPacked g)).get? i j A with
  | none =>
    have hsome := hsame.isSome_get? hpacked (i := i) (j := j) (A := A)
    rw [hw, Option.isSome_none] at hsome
    rw [Option.isNone_iff_eq_none.1 (Option.isSome_eq_false_iff.1 hsome.symm)]
  | some e =>
    obtain ⟨e', he', hb⟩ := hsame.exists_get? hpacked hw
    rw [he', Option.map_some, Option.map_some, hb]

namespace Chart.Repacked

variable {c : Chart α} {w : PackedChart α} (h : c.Repacked g w)

include h

omit [LosslessScore α] in
theorem live_eq : w.Live = c.Live := by
  funext i j A
  have hmap := congrArg Option.isSome (h.backpointer_eq i j A)
  rw [Option.isSome_map, Option.isSome_map] at hmap
  rw [PackedChart.Live, Chart.Live, hmap]

omit [LosslessScore α] in
theorem records (hrecords : ∀ i j A e, c.get? i j A = some e →
      Records g s c.Live e.backpointer i j A) (i j : Nat) (A : NonTerminal) (e : Entry α)
    (he : w.get? i j A = some e) : Records g s w.Live e.backpointer i j A := by
  have hmap := h.backpointer_eq i j A
  rw [he, Option.map_some] at hmap
  obtain ⟨e', he', hb⟩ := Option.map_eq_some_iff.1 hmap.symm
  rw [h.live_eq, ← hb]
  exact hrecords i j A e' he'

end Chart.Repacked

/-- A sentence with an impossible score has no tree. -/
theorem ConstituentTask.tree?_eq_none_of_score {α : Type} [Score α] {t : ConstituentTask α}
    (h : (t.sentenceScore == Score.impossible) = true) : t.tree? = none := by
  rw [tree?, h, Bool.or_true, if_pos rfl]

/-- The tree that a decoder by constituents reads off a chart once it is weighed. -/
def Chart.constituentTree? (c : Chart α) (o : Options α) (g : Grammar α) (s : Sentence)
    (coarse : Bool) : Option Tree :=
  (o.constituentTask g (Parser.weighed o.sums g s (c.toPacked g)) s.words coarse).tree?

/-- A chart that derives a sentence has a tree if its entries record rules and have derivations, and
unary backpointers over words do not run in circles. -/
theorem Chart.isSome_constituentTree? {c : Chart α} (hc : c.Sound g) (hsize : c.size = s.size)
    (hrecords : ∀ i j A e, c.get? i j A = some e → Records g s c.Live e.backpointer i j A)
    (hsupported : Supported g s c.Live) (hacyclic : c.AcyclicWords)
    (hparse : c.hasParse g.start = true) (o : Options α) (coarse : Bool) :
    (c.constituentTree? o g s coarse).isSome = true := by
  obtain ⟨hpacked, hsize', -⟩ := Chart.toPacked_spec hc
  have hw := Chart.repacked_weighed hc o.sums s
  rw [constituentTree?]
  refine ConstituentTask.Parsed.isSome_tree? (s := s)
    { sound := hw.sound
      length_eq := hsize.symm.trans hw.size_eq.symm
      records := hw.records hrecords
      supported := hw.live_eq ▸ hsupported
      acyclicWords := hacyclic.anti fun i A B ⟨e, he, hb⟩ => ?_
      possible := ?_ }
  · have hmap := hw.backpointer_eq i (i + 1) A
    rw [show (Parser.weighed o.sums g s (c.toPacked g)).get? i (i + 1) A = some e from he,
      Option.map_some] at hmap
    obtain ⟨e', he', hb'⟩ := Option.map_eq_some_iff.1 hmap.symm
    exact ⟨e', he', hb'.trans hb⟩
  · have hparse' : (Chart.packed (c.toPacked g)).hasParse g.start = true := by
      rwa [Parser.hasParse_toPacked hc]
    rw [Chart.hasParse, Bool.and_eq_true, decide_eq_true_iff, decide_eq_true_iff] at hparse'
    have hstart := PackedChart.live_of_possible hpacked hparse'.2
    have hgrounded : Supported g s (c.toPacked g).Live := by
      rwa [Parser.live_toPacked hc]
    have hpos := PackedChart.possible_weighed o.sums hpacked (hgrounded _ _ _ hstart)
    show Score.impossible < (Parser.weighed o.sums g s (c.toPacked g)).inside 0
      (Parser.weighed o.sums g s (c.toPacked g)).size g.start
    rwa [hw.size_eq, ← hsize']

end Weighed

/-! ## Any search -/

namespace Parser

variable {α : Type} [Score α]

/-- Both decoders by constituents read their tree off the searched chart, one of them with labels that are
coarse. -/
theorem decode_constituents (p : Parser α) (s : Sentence) (found : Searched α)
    (hc : found.chart.Sound p.grammar)
    (hdecoder : p.options.decoder = .goodman ∨ p.options.decoder = .splitSum)
    (hparse : found.chart.hasParse p.grammar.start = true) :
    (p.decode s found).1 = (found.chart.constituentTree? p.options p.grammar s
      (p.options.decoder == .splitSum)).map Tree.unfactor := by
  rw [← hasParse_toPacked hc] at hparse
  rcases hdecoder with h | h
  · simp only [decode, h, Decoder.needsOutside, if_true, hparse, posteriorTree?]
    rfl
  · simp only [decode, h, Decoder.needsOutside, if_true, hparse, posteriorTree?]
    rfl

theorem decode_constituents_eq_none (p : Parser α) {s : Sentence} {found : Searched α}
    (hdecoder : p.options.decoder = .goodman ∨ p.options.decoder = .splitSum)
    (htree : ∀ coarse, found.chart.constituentTree? p.options p.grammar s coarse = none) :
    (p.decode s found).1 = none := by
  rcases hdecoder with h | h
  · simp only [decode, h, Decoder.needsOutside, if_true, posteriorTree?]
    split
    · exact congrArg (Option.map Tree.unfactor) (htree false)
    · rfl
  · simp only [decode, h, Decoder.needsOutside, if_true, posteriorTree?]
    split
    · exact congrArg (Option.map Tree.unfactor) (htree true)
    · rfl

/-- Whatever fills the chart, by rules that are no gain, a decoder by constituents has a tree if the chart
has the start symbol over the sentence: an exhaustive search that sums or not, a beam search of any
width, or an agenda search that takes its edges in any order and stops at any moment, with labels that
are split or coarse, and whatever the bias against long spans. Outside of an agenda search the
arena must have had numbers left for all entries. -/
theorem constituents_tree [LosslessScore α] {g : Grammar α}
    (hnonpos : ∀ r ∈ g.productions, r.logProb ≤ 0) (words : List String) :
    (∀ p : Parser α, p.grammar = g →
      p.options.strategy = .agenda ∨ (p.searched words).Fits →
      (p.searched words).hasParse g.start = true →
      (∀ o coarse, ((p.searched words).constituentTree? o g (.ofWords g words) coarse).isSome =
        true) ∧
      (p.options.decoder = .goodman ∨ p.options.decoder = .splitSum →
        (p.parse words).tree.isSome = true)) ∧
    ∀ (t : Agenda.Task α) (st : Agenda.State α), t.grammar = g →
      Agenda.Run t (Agenda.initial t (Agenda.seed g (.ofWords g words)).1
        (Agenda.seed g (.ofWords g words)).2) st →
      (Chart.slots st.chart).hasParse g.start = true →
      ∀ o coarse, ((Chart.slots st.chart).constituentTree? o g (.ofWords g words) coarse).isSome =
        true := by
  refine ⟨fun p hg hfits hparse => ?_, fun t st hg hrun hparse o coarse => ?_⟩
  · subst hg
    have hacyclic : (p.searched words).AcyclicWords :=
      p.search_acyclicWords hnonpos (fun _ => Accumulator.keepsPossible _) _
    have hsums : p.options.strategy = .exhaustive → p.options.accumulator.KeepsPossible :=
      fun _ => Accumulator.keepsPossible _
    have hupheld := p.search_upheld hsums (.ofWords p.grammar words)
    have htree : ∀ o coarse, ((p.searched words).constituentTree? o p.grammar
        (.ofWords p.grammar words) coarse).isSome = true := fun o coarse =>
      Chart.isSome_constituentTree? hupheld.sound hupheld.size_eq
        (p.search_records hsums _ hfits) (p.search_supported hsums _ hfits) hacyclic hparse o coarse
    refine ⟨htree, fun hdecoder => ?_⟩
    have hdecode := p.decode_constituents (.ofWords p.grammar words)
      (p.search (.ofWords p.grammar words)) hupheld.sound hdecoder hparse
    rw [parse_eq, hdecode, Option.isSome_map]
    exact htree p.options _
  · have hheld := (Agenda.run_supplied hg (Agenda.initial_supplied hg _) hrun).toHeld
    have hacyclic := (Agenda.grown_of_run hnonpos hg hrun).1.acyclic.acyclicWords
    exact Chart.isSome_constituentTree? hheld.upheld.sound hheld.size_eq hheld.records
      (hheld.supported inferInstance) hacyclic hparse o coarse

/-- A parser of rivals with a beam of two derivations and a bias against long spans. -/
def rivalConstituents : Parser (WithBot ℤ) where
  grammar := rivals.grammar
  options :=
    { Chain.options with strategy := .beam, beamWidth := 2, lambda := (3 : ℤ), decoder := .goodman }
  merit := .inside

/-- A beam search, and an agenda search that has taken five edges. -/
theorem rival_constituents_tree :
    (∀ o coarse, ((rivalConstituents.searched ["b", "b"]).constituentTree? o rivals.grammar
      (.ofWords rivals.grammar ["b", "b"]) coarse).isSome = true) ∧
    (rivalConstituents.parse ["b", "b"]).tree.isSome = true ∧
    ∀ o coarse, ((Chart.slots (rivals.afterRounds 5).chart).constituentTree? o rivals.grammar
      (.ofWords rivals.grammar ["b", "b"]) coarse).isSome = true := by
  have hnonpos : ∀ r ∈ rivals.grammar.productions, r.logProb ≤ 0 := by decide +kernel
  have hword : rivals.grammar.terminal? "b" = some 0 := Vocabulary.find?_eq_some_iff.2 (by decide)
  have hwords : Sentence.ofWords rivals.grammar ["b", "b"] = Chain.pair := by
    simp [Sentence.ofWords, Chain.pair, hword]
  obtain ⟨hsearch, hrun⟩ := constituents_tree hnonpos ["b", "b"]
  have hparse : (rivalConstituents.searched ["b", "b"]).hasParse rivals.grammar.start = true := by
    have hwords' : Sentence.ofWords rivalConstituents.grammar ["b", "b"] = Chain.pair := hwords
    rw [searched, hwords']
    decide +kernel
  obtain ⟨htree, hdecode⟩ := hsearch rivalConstituents rfl (.inr trivial) hparse
  refine ⟨htree, hdecode (.inl rfl), ?_⟩
  let t := Agenda.searchTask rivals.grammar rivals.merit rivals.options.popLimit
    rivals.options.agendaBatch Chain.pair
  have hfive : Agenda.BestRun t (Agenda.initial t (Agenda.seed rivals.grammar Chain.pair).1
      (Agenda.seed rivals.grammar Chain.pair).2) (rivals.afterRounds 5) :=
    Agenda.bestRun_run rfl 5 (Agenda.descending_initial t _ _)
  have hparse' : (Chart.slots (rivals.afterRounds 5).chart).hasParse rivals.grammar.start = true := by
    decide +kernel
  rw [hwords] at hrun ⊢
  exact hrun t (rivals.afterRounds 5) rfl hfive.run hparse'

/-- The search sums three derivations of the first word in another order than they are summed in afterwards, and
comes to the least finite score where the sum over the chart comes to none. -/
theorem cascade_constituents_lost :
    (∀ r ∈ Cascade.grammar.productions, r.logProb ≤ 0) ∧
      ∀ decoder, decoder = .goodman ∨ decoder = .splitSum →
        ((Cascade.parser decoder).searched ["b", "b", "b"]).hasParse Cascade.grammar.start = true ∧
          ((Cascade.parser decoder).parse ["b", "b", "b"]).tree = none := by
  refine ⟨Cascade.nonpos, fun decoder hdecoder => ?_⟩
  have hwords : Sentence.ofWords (Cascade.parser decoder).grammar ["b", "b", "b"] = Cascade.sentence :=
    Cascade.ofWords_eq
  rw [searched, parse_eq, hwords]
  have hscores : ((Cascade.parser decoder).search Cascade.sentence).chart.hasParse
        Cascade.grammar.start = true ∧
      (((Cascade.parser decoder).options.constituentTask Cascade.grammar
        (weighed (Cascade.parser decoder).options.sums Cascade.grammar Cascade.sentence
          (((Cascade.parser decoder).search Cascade.sentence).chart.toPacked Cascade.grammar))
        Cascade.sentence.words false).sentenceScore == Score.impossible) = true := by
    rcases hdecoder with rfl | rfl <;> decide +kernel
  exact ⟨hscores.1, decode_constituents_eq_none _ hdecoder fun coarse =>
    ConstituentTask.tree?_eq_none_of_score hscores.2⟩

end Parser

end Constituency
