import Constituency.Proofs.Search.Agenda.Termination
import Constituency.Proofs.Search.BestFirst

/-!
# The searches agree

A chart whose entries have derivations and whose scores are all maxima is determined by the grammar and
the sentence, up to the choice between derivations with equal scores (`agrees_of_isMaximum`). The agenda
search, the beam search and the exhaustive search each leave such a chart, each under conditions of its
own; where the conditions hold, the charts are the same.
-/

namespace Constituency

variable {α : Type} [Score α] [MonotoneScore α] {g : Grammar α} {s : Sentence}
  {c c' : Chart α}

namespace Chart

/-- Two charts hold the same symbols in every cell, with scores that compare equal. -/
structure Agrees (c c' : Chart α) : Prop where
  size_eq : c.size = c'.size
  isSome_eq : ∀ i j A, (c.get? i j A).isSome = (c'.get? i j A).isSome
  inside_le : ∀ i j A, c.inside i j A ≤ c'.inside i j A
  le_inside : ∀ i j A, c'.inside i j A ≤ c.inside i j A

/-- What is held of a symbol over a span is possible. -/
theorem Grown.isSome_get?_iff (h : c.Grown g s) {i j : Nat} {A : NonTerminal} :
    (c.get? i j A).isSome = true ↔ Score.impossible < c.inside i j A := by
  constructor
  · intro hsome
    obtain ⟨e, he⟩ := Option.isSome_iff_exists.1 hsome
    rw [h.sound.inside_of_get? he]
    exact (h.derived i j A e he).1
  · intro hpos
    obtain ⟨e, he⟩ := h.sound.exists_get?_of_possible hpos
    rw [he, Option.isSome_some]

/-- Of two maxima of the same derivations neither is larger. -/
theorem Grown.inside_le_of_isMaximum (h : c.Grown g s) {i j : Nat} {A : NonTerminal} {x : α}
    (hmax : IsMaximum (Derives g s i j A) x) : c.inside i j A ≤ x := by
  rcases Score.lt_or_ge Score.impossible (c.inside i j A) with hpos | hle
  · obtain ⟨d, hd, hscore⟩ := h.exists_score_eq hpos
    exact hscore ▸ hmax.score_le d hd
  · exact Score.le_trans hle (Score.impossible_le x)

theorem agrees_of_isMaximum (h : c.Grown g s) (h' : c'.Grown g s)
    (hmax : ∀ i j A, IsMaximum (Derives g s i j A) (c.inside i j A))
    (hmax' : ∀ i j A, IsMaximum (Derives g s i j A) (c'.inside i j A)) : c.Agrees c' := by
  have hle := fun i j A => h.inside_le_of_isMaximum (hmax' i j A)
  have hge := fun i j A => h'.inside_le_of_isMaximum (hmax i j A)
  refine ⟨h.size_eq.trans h'.size_eq.symm, fun i j A => ?_, hle, hge⟩
  rw [Bool.eq_iff_iff, h.isSome_get?_iff, h'.isSome_get?_iff]
  exact ⟨fun hpos => Score.lt_of_lt_of_le hpos (hle i j A),
    fun hpos => Score.lt_of_lt_of_le hpos (hge i j A)⟩

end Chart

namespace Parser

variable {p : Parser α}

/-- A beam search by score, wide enough for every symbol and from which nothing is dropped for being too
far below the best. -/
structure Unpruned (p : Parser α) : Prop where
  strategy_eq : p.options.strategy = .beam
  merit_eq : p.merit = .inside
  width_le : p.grammar.numNonterminals ≤ p.options.beamWidth
  not_lt_sub : ∀ a b : α, ¬ a < b - p.options.beamDelta

/-- An agenda search that takes every edge. -/
structure Unhurried (p : Parser α) : Prop where
  strategy_eq : p.options.strategy = .agenda
  infinite : Decimal.Value.ofPattern p.options.overParse.toBits = .infinite false

omit [Score α] [MonotoneScore α] in
theorem Unhurried.popLimit_eq_none (h : p.Unhurried) (pops : Nat) :
    p.options.popLimit pops = none := by
  rw [Options.popLimit, h.infinite]

theorem Unpruned.isMaximum (h : p.Unpruned)
    (hnonpos : ∀ r ∈ p.grammar.productions, r.logProb ≤ 0) (s : Sentence)
    (hfits : (p.search s).chart.Fits) (i j : Nat) (A : NonTerminal) :
    IsMaximum (Derives p.grammar s i j A) ((p.search s).chart.inside i j A) := by
  rw [search_beam h.strategy_eq, h.merit_eq] at hfits ⊢
  exact (Beam.search_settled hnonpos h.not_lt_sub h.width_le p.options.segments
    (p.options.decoder == .meritSum) (grown_emptyChart p.grammar s p.options.storage)
    (get?_emptyChart p.grammar p.options.storage s.size) hfits).isMaximum i j A

theorem Unhurried.isMaximum (h : p.Unhurried)
    (hnonpos : ∀ r ∈ p.grammar.productions, r.logProb ≤ 0) (s : Sentence)
    (hfits : (p.search s).chart.Fits) (i j : Nat) (A : NonTerminal) :
    IsMaximum (Derives p.grammar s i j A) ((p.search s).chart.inside i j A) := by
  rw [chart_search_agenda h.strategy_eq] at hfits ⊢
  exact Agenda.search_isMaximum hnonpos p.merit h.popLimit_eq_none p.options.agendaBatch hfits i j A

/-- The exhaustive search has maxima only if it need not apply two unary rules on top of each other. -/
theorem isMaximum_of_noUnaryChains (hstrategy : p.options.strategy = .exhaustive)
    (hsemiring : p.options.semiring = .viterbi) (hchains : p.grammar.NoUnaryChains)
    (hnonpos : ∀ r ∈ p.grammar.productions, r.logProb ≤ 0) (s : Sentence)
    (hfits : (p.search s).chart.Fits) (i j : Nat) (A : NonTerminal) :
    IsMaximum (Derives p.grammar s i j A) ((p.search s).chart.inside i j A) := by
  have hacc : p.options.accumulator = .best := by
    rw [Options.accumulator, hsemiring]
  rw [search_exhaustive hstrategy, hacc] at hfits ⊢
  exact (Exhaustive.fill_settled hnonpos hchains p.options.segments
    (grown_emptyChart p.grammar s p.options.storage)
    (get?_emptyChart p.grammar p.options.storage s.size) hfits).isMaximum i j A

/-- A beam search that drops nothing and an agenda search that takes every edge, by any figure of merit
and in batches of any size, leave the same entries with the same scores. So does the exhaustive search
if the child of a unary rule has no unary rules itself. The arenas must have had numbers left for all
entries. -/
theorem searches_agree (hnonpos : ∀ r ∈ g.productions, r.logProb ≤ 0) (s : Sentence)
    {beam agenda : Parser α} (hbeam : beam.grammar = g) (hagenda : agenda.grammar = g)
    (hunpruned : beam.Unpruned) (hunhurried : agenda.Unhurried)
    (hfits : (beam.search s).chart.Fits) (hfits' : (agenda.search s).chart.Fits) :
    (beam.search s).chart.Agrees (agenda.search s).chart ∧
      (g.NoUnaryChains → ∀ p : Parser α, p.grammar = g → p.options.strategy = .exhaustive →
        p.options.semiring = .viterbi → (p.search s).chart.Fits →
        (p.search s).chart.Agrees (agenda.search s).chart) := by
  subst hagenda
  have hgrown := (search_grown agenda hnonpos
    (fun h => by rw [hunhurried.strategy_eq] at h; cases h) s).1
  have hmax := hunhurried.isMaximum hnonpos s hfits'
  refine ⟨?_, fun hchains p hp hstrategy hsemiring hfits'' => ?_⟩
  · have hgrown' := (search_grown beam (hbeam ▸ hnonpos)
      (fun h => by rw [hunpruned.strategy_eq] at h; cases h) s).1
    have hmax' := hunpruned.isMaximum (hbeam ▸ hnonpos) s hfits
    rw [hbeam] at hgrown' hmax'
    exact Chart.agrees_of_isMaximum hgrown' hgrown hmax' hmax
  · have hgrown' := (search_grown p (hp ▸ hnonpos) (fun _ => hsemiring) s).1
    have hmax' := isMaximum_of_noUnaryChains hstrategy hsemiring (hp ▸ hchains) (hp ▸ hnonpos) s
      hfits''
    rw [hp] at hgrown' hmax'
    exact Chart.agrees_of_isMaximum hgrown' hgrown hmax' hmax

/-! ## Pairs -/

open Chain (pairs pair)

/-- A parser of pairs, with some of the standard options changed. -/
def pairParser (change : Options (WithBot ℤ) → Options (WithBot ℤ)) : Parser (WithBot ℤ) :=
  ⟨pairs, change Chain.options, .inside⟩

/-- A beam from which nothing is dropped. -/
def pairBeam : Parser (WithBot ℤ) :=
  pairParser fun o => { o with strategy := .beam, beamDelta := ⊥ }

/-- An agenda search without an end but that of its queue: the bits are those of infinity. -/
def pairAgenda : Parser (WithBot ℤ) :=
  pairParser fun o => { o with strategy := .agenda, overParse := .ofBits 0x7F800000 }

theorem pairs_noUnaryChains : pairs.NoUnaryChains := by
  rintro A B C ⟨p, hp, -, hpc⟩ ⟨q, hq, hqB, hqc⟩
  simp only [pairs, Grammar.ofProductions, List.mem_cons, List.not_mem_nil, or_false] at hp hq
  rcases hp with rfl | rfl | rfl | rfl <;> cases hpc
  rcases hq with rfl | rfl | rfl | rfl <;> cases hqc
  cases hqB

/-- The agenda is empty long before the last round. -/
theorem fits_search_pairAgenda : (pairAgenda.search pair).chart.Fits := by
  have hchart := (search_of_ended (p := pairAgenda) (s := pair) rfl rfl 10 rfl (by decide +kernel)
    (by decide +kernel)).1
  rw [hchart]
  decide +kernel

theorem pair_searches_agree :
    (pairBeam.search pair).chart.Agrees (pairAgenda.search pair).chart ∧
      ((pairParser id).search pair).chart.Agrees (pairAgenda.search pair).chart ∧
      ((pairParser id).search pair).chart.inside 0 2 0 = (-1 : ℤ) := by
  have hnonpos : ∀ r ∈ pairs.productions, r.logProb ≤ 0 := by decide +kernel
  have hunpruned : pairBeam.Unpruned :=
    ⟨rfl, rfl, by decide, fun a b => by cases b <;> exact not_lt_bot⟩
  have hbits : pairAgenda.options.overParse.toBits = 0x7F800000 := by decide +kernel
  have hunhurried : pairAgenda.Unhurried := ⟨rfl, by rw [hbits]; rfl⟩
  have hbeam : pairBeam.grammar = pairs := rfl
  have hagenda : pairAgenda.grammar = pairs := rfl
  obtain ⟨hbeam, hexhaustive⟩ := searches_agree hnonpos pair hbeam hagenda hunpruned hunhurried
    trivial @fits_search_pairAgenda
  exact ⟨hbeam, hexhaustive pairs_noUnaryChains (pairParser id) rfl rfl rfl trivial,
    by decide +kernel⟩

end Parser

end Constituency
