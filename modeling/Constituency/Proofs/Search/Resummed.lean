import Mathlib
import Constituency.Proofs.Chart.Maxima
import Constituency.Proofs.Grammar.Cascade
import Constituency.Proofs.Search.Agreement
import Constituency.Proofs.Search.Summed

/-!
# The inside pass over the charts of the searches

An agenda search that takes every edge leaves maxima, and these are what the inside pass by the best
alternative finds as well (`resum_chart_of_unhurried`).

An exhaustive search that sums, and a search for the best derivations whose chart is summed up afterwards,
look at the same derivations if the child of a unary rule has no unary rules itself. They leave the same
entries, and if nothing is rounded the same sums (`summed_eq_resummed`).
-/

namespace Constituency

namespace Exhaustive

/-- What sums up the possible derivations from entries of a chart sums up all derivations. -/
theorem hasTotal_single {g : Grammar EReal} {s : Sentence}
    {live : Nat → Nat → NonTerminal → Prop} (hchains : g.NoUnaryChains)
    (hlive : ∀ i j A d, d ∈ single g s i j A → Score.impossible < d.score → live i j A)
    {i j : Nat} {A : NonTerminal} {x : ENNReal}
    (h : HasTotal (PackedChart.below g s live i j A) (PackedChart.probability EReal.exp) x) :
    HasTotal (single g s i j A) (fun d => EReal.exp d.score) x := by
  refine h.extend (fun d hd => ?_) (finite_single g s i j A) fun d hd hnot => ?_
  · exact ⟨DerivesIn.mono (fun _ _ _ _ => trivial) hd, hchains.singleUnaries hd⟩
  · refine Accumulator.exact_exactSum.not_possible _ fun hpos => hnot ?_
    exact hd.1.of_possible (fun i j A d hd => hlive i j A d ⟨hd, hchains.singleUnaries hd⟩) hpos

end Exhaustive

namespace Parser

section Maxima

variable {α : Type} [Score α] [MonotoneScore α] {p : Parser α}

/-- After an agenda search that takes every edge the inside pass by the best alternative keeps the entries of
the chart and changes no score, by whatever figure of merit and in batches of whatever size the search went,
and even if unary rules run in circles. -/
theorem resum_chart_of_unhurried (h : p.Unhurried)
    (hnonpos : ∀ r ∈ p.grammar.productions, r.logProb ≤ 0) (s : Sentence)
    (hfits : (p.search s).chart.Fits) :
    let packed := (p.search s).chart.toPacked p.grammar
    let resummed := packed.resum .best p.grammar s.terminals
    PackedChart.Reweighed packed resummed ∧ ∀ i j A,
      resummed.inside i j A ≤ packed.inside i j A ∧ packed.inside i j A ≤ resummed.inside i j A := by
  intro packed resummed
  have hgrown := (search_grown p hnonpos (fun hother => by rw [h.strategy_eq] at hother; cases hother) s).1
  obtain ⟨hpacked, -, hget⟩ := Chart.toPacked_spec hgrown.sound
  refine PackedChart.resum_best hnonpos hpacked fun i j A => ?_
  have hmax := h.isMaximum hnonpos s hfits i j A
  rwa [hgrown.sound.inside_eq, ← hget, ← PackedChart.inside_eq] at hmax

theorem resum_chart_pairAgenda :
    (pairAgenda.search Chain.pair).chart.Fits ∧
      let packed := (pairAgenda.search Chain.pair).chart.toPacked Chain.pairs
      let resummed := packed.resum .best Chain.pairs Chain.pair.terminals
      PackedChart.Reweighed packed resummed ∧ ∀ i j A,
        resummed.inside i j A ≤ packed.inside i j A ∧ packed.inside i j A ≤ resummed.inside i j A := by
  have hnonpos : ∀ r ∈ Chain.pairs.productions, r.logProb ≤ 0 := by decide +kernel
  have hbits : pairAgenda.options.overParse.toBits = 0x7F800000 := by decide +kernel
  have hunhurried : pairAgenda.Unhurried := ⟨rfl, by rw [hbits]; rfl⟩
  exact ⟨fits_search_pairAgenda,
    resum_chart_of_unhurried hunhurried hnonpos Chain.pair fits_search_pairAgenda⟩

end Maxima

/-! ## Sums -/

section Sums

variable {α : Type} [Score α]

omit [Score α] in
/-- The parser with an exhaustive search in a semiring. -/
def exhaustive (p : Parser α) (semiring : Semiring) : Parser α :=
  { p with options := { p.options with strategy := .exhaustive, semiring } }

/-- The chart of an exhaustive search for the best derivations, with its inside scores summed up
afterwards. -/
def resummed (p : Parser α) (acc : Accumulator α) (s : Sentence) : PackedChart α :=
  (((p.exhaustive .viterbi).search s).chart.toPacked p.grammar).resum acc p.grammar s.terminals

/-- Whatever the scores are made of, an entry signals that a derivation is possible. -/
theorem filled_exhaustive [LosslessScore α] (p : Parser α) (semiring : Semiring) (s : Sentence)
    (hfits : ((p.exhaustive semiring).search s).chart.Fits) :
    Exhaustive.Filled p.grammar s Signals (spansUp s.size)
      ((p.exhaustive semiring).search s).chart :=
  filled_of_exhaustive rfl (combination_possible _) s hfits

/-- Which symbols have entries does not depend on how scores combine. -/
theorem isSome_get?_exhaustive [LosslessScore α] (p : Parser α) (semiring : Semiring) (s : Sentence)
    (hfits : ((p.exhaustive semiring).search s).chart.Fits) (i j : Nat) (A : NonTerminal) :
    (((p.exhaustive semiring).search s).chart.get? i j A).isSome = true ↔
      ∃ d ∈ Exhaustive.single p.grammar s i j A, Score.impossible < d.score :=
  ((p.filled_exhaustive semiring s hfits).counts (combination_possible .best) i j A).2

end Sums

/-- To sum while searching is to search and then to sum. In any arithmetic in which nothing possible adds up
to something impossible, whatever the accumulators, the storages and the numbers of segments, both charts
have the same entries. If nothing is rounded or left out, and the child of a unary rule has no unary rules
itself, they have the same inside scores. -/
theorem summed_eq_resummed (s : Sentence) :
    (∀ {α : Type} [Score α] [LosslessScore α] {p q : Parser α} (acc : Accumulator α),
      p.grammar = q.grammar → ((p.exhaustive .sum).search s).chart.Fits →
        ((q.exhaustive .viterbi).search s).chart.Fits →
          ((p.exhaustive .sum).search s).chart.size = (q.resummed acc s).size ∧
            ∀ i j A, (((p.exhaustive .sum).search s).chart.get? i j A).isSome =
              ((q.resummed acc s).get? i j A).isSome) ∧
    ∀ {p q : Parser EReal}, p.grammar = q.grammar → q.grammar.NoUnaryChains →
      p.options.sums = .exactSum → ((p.exhaustive .sum).search s).chart.Fits →
        ((q.exhaustive .viterbi).search s).chart.Fits →
          ∀ i j A, ((p.exhaustive .sum).search s).chart.inside i j A =
            (q.resummed .exactSum s).inside i j A := by
  constructor
  · intro α _ _ p q acc hg hfits hfits'
    have hfilled := q.filled_exhaustive .viterbi s hfits'
    obtain ⟨hpacked, hsize, hget⟩ := Chart.toPacked_spec hfilled.sound
    have hsame := PackedChart.reweighed_resum acc hpacked s.terminals
    refine ⟨?_, fun i j A => ?_⟩
    · rw [(p.filled_exhaustive .sum s hfits).size_eq, ← hfilled.size_eq, ← hsize]
      exact hsame.size_eq.symm
    · rw [resummed, hsame.isSome_get? hpacked, hget, Bool.eq_iff_iff,
        isSome_get?_exhaustive p .sum s hfits, isSome_get?_exhaustive q .viterbi s hfits', hg]
  · intro p q hg hchains hexact hfits hfits' i j A
    obtain ⟨hpacked, -, hget⟩ := Chart.toPacked_spec (q.filled_exhaustive .viterbi s hfits').sound
    have hcombination : Combination (p.exhaustive .sum).options.accumulator SumsUp := by
      rw [show (p.exhaustive .sum).options.accumulator = .exactSum from hexact]
      exact combination_sum
    have hsummed : SumsUp (Exhaustive.single p.grammar s i j A) _ :=
      ((filled_of_exhaustive rfl hcombination s hfits).counts hcombination i j A).1
    have hbelow := (PackedChart.hasTotal_inside Accumulator.exact_exactSum hchains.unaryAcyclic
      hpacked s).2 i j A
    have hresummed := Exhaustive.hasTotal_single hchains (fun i j A d hd hpos => ?_) hbelow
    · rw [hg] at hsummed
      exact EReal.exp_strictMono.injective (hsummed.unique hresummed)
    · have hsome := (isSome_get?_exhaustive q .viterbi s hfits' i j A).2 ⟨d, hd, hpos⟩
      rwa [← hget] at hsome

/-! ## Two ways to a pair -/

/-- `S → A`, `S → B B`, `A → B B` and `B → b`: two words are a sentence in two ways. -/
noncomputable def forks : Grammar EReal :=
  .ofProductions Chain.symbols Chain.code Chain.fits
    [⟨0, .unary 1, 0⟩, ⟨0, .binary 2 2, 0⟩, ⟨1, .binary 2 2, 0⟩, ⟨2, .lexical 0, 0⟩]
    (by
      have hsize : Chain.symbols.numNonterminals = 3 ∧ Chain.symbols.lexicon.size = 1 := by decide
      rw [hsize.1, hsize.2]
      simp [Production.InRange, Children.InRange])
    (by simp [Production.sameRule])

theorem forks_noUnaryChains : forks.NoUnaryChains := by
  rintro A B C ⟨p, hp, -, hpc⟩ ⟨q, hq, hqB, hqc⟩
  simp only [forks, Grammar.ofProductions, List.mem_cons, List.not_mem_nil, or_false] at hp hq
  rcases hp with rfl | rfl | rfl | rfl <;> cases hpc
  rcases hq with rfl | rfl | rfl | rfl <;> cases hqc
  cases hqB

/-- A parser that adds up probabilities exactly. -/
noncomputable def forkParser (segments : Nat) : Parser EReal :=
  ⟨forks, { Options.plain ⊤ 0 ⊤ with segments }, .inside⟩

theorem pairs_summed_eq_resummed :
    (∀ i j A, ((((pairParser id).exhaustive .sum).search Chain.pair).chart.get? i j A).isSome =
      (((pairParser id).resummed .best Chain.pair).get? i j A).isSome) ∧
    ((((pairParser id).exhaustive .sum).search Chain.pair).chart.get? 0 2 0).isSome = true ∧
    ∀ i j A, (((forkParser 2).exhaustive .sum).search Chain.pair).chart.inside i j A =
      ((forkParser 1).resummed .exactSum Chain.pair).inside i j A := by
  have hfits : ∀ semiring, (((pairParser id).exhaustive semiring).search Chain.pair).chart.Fits :=
    fun _ => trivial
  have hforks : ∀ segments semiring,
      (((forkParser segments).exhaustive semiring).search Chain.pair).chart.Fits :=
    fun _ _ => trivial
  obtain ⟨hentries, hscores⟩ := summed_eq_resummed Chain.pair
  exact ⟨(hentries .best rfl (hfits .sum) (hfits .viterbi)).2, by decide +kernel,
    hscores rfl forks_noUnaryChains rfl (hforks 2 .sum) (hforks 1 .viterbi)⟩

theorem cascade_noUnaryChains : Cascade.grammar.NoUnaryChains := by
  rintro A B C ⟨p, hp, -, hpc⟩ ⟨q, hq, hqB, hqc⟩
  simp only [Cascade.grammar, Grammar.ofProductions, List.mem_cons, List.not_mem_nil, or_false]
    at hp hq
  rcases hp with rfl | rfl | rfl | rfl | rfl | rfl | rfl | rfl | rfl | rfl <;> cases hpc
  all_goals
    rcases hq with rfl | rfl | rfl | rfl | rfl | rfl | rfl | rfl | rfl | rfl <;> cases hqc
    all_goals cases hqB

/-- Where sums overflow the entries need not be the same. The best derivation of the first word is below the
sum of all three, and what the other words add to it is the least finite score in one chart and none at all in
the other. -/
theorem cascade_summed_ne_resummed :
    Cascade.grammar.NoUnaryChains ∧
      ((((Cascade.parser .viterbi).exhaustive .sum).search Cascade.sentence).chart.get? 0 3
        Cascade.grammar.start).isSome = true ∧
      (((Cascade.parser .viterbi).resummed (Cascade.parser .viterbi).options.sums
        Cascade.sentence).get? 0 3 Cascade.grammar.start).isSome = false :=
  ⟨cascade_noUnaryChains, by decide +kernel, by decide +kernel⟩

end Parser

end Constituency
