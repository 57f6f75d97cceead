import Constituency.Parser

/-!
# The chart of a search

Which chart a parser gets from each strategy. An agenda search is given an astronomical number of rounds;
these equations are proved for any number, so that nothing ever unfolds it.
-/

namespace Constituency

variable {α : Type} [Score α]

namespace Agenda

/-- The task of a search whose chart holds the words of the sentence. -/
def taskFor (g : Grammar α) (merit : Merit α) (popLimit : Nat → Option Nat) (batch : Nat)
    (s : Sentence) (chart : SlotChart α) : Task α where
  grammar := g
  merit := merit.forSentence (.slots chart)
  size := s.size
  popLimit
  batch := max batch 1

/-- The task of the search of a sentence. -/
def searchTask (g : Grammar α) (merit : Merit α) (popLimit : Nat → Option Nat) (batch : Nat)
    (s : Sentence) : Task α :=
  taskFor g merit popLimit batch s (seed g s).1

theorem search_of_run {g : Grammar α} {merit : Merit α} {popLimit : Nat → Option Nat}
    {batch : Nat} {s : Sentence} {final : State α}
    (hfinal : final = run (searchTask g merit popLimit batch s)
      (maxRounds (searchTask g merit popLimit batch s))
      (initial (searchTask g merit popLimit batch s) (seed g s).1 (seed g s).2)) :
    (search g merit popLimit batch s).1 = final.chart ∧
      (search g merit popLimit batch s).2.pops = final.pops ∧
      (search g merit popLimit batch s).2.pushes = final.pushes := by
  obtain ⟨rounds, hrounds⟩ : ∃ rounds, rounds = @maxRounds α := ⟨_, rfl⟩
  rw [← hrounds] at hfinal
  subst hfinal
  unfold search searchTask
  rw [← hrounds]
  exact ⟨rfl, rfl, rfl⟩

theorem chart_search (g : Grammar α) (merit : Merit α) (popLimit : Nat → Option Nat)
    (batch : Nat) (s : Sentence) :
    (search g merit popLimit batch s).1 =
      (run (searchTask g merit popLimit batch s) (maxRounds (searchTask g merit popLimit batch s))
        (initial (searchTask g merit popLimit batch s) (seed g s).1 (seed g s).2)).chart :=
  (search_of_run rfl).1

end Agenda

namespace Beam

/-- A cell whose candidates have been queued. -/
def opened (t : Task α) (segments : Nat) (st : State α) (i j : Nat) : CellState α where
  queue := (Queue.ofList (candidates t segments st.chart i j).1).edges
  cell := Scratch.empty i j t.grammar.numNonterminals
  table := st.table
  bestMerit := Score.impossible
  stats := { st.stats with
    considered := st.stats.considered + (candidates t segments st.chart i j).2 }

theorem chart_fillCell (t : Task α) (segments : Nat) (st : State α) (i j : Nat) :
    (fillCell t segments st (i, j)).chart =
      st.chart.commit (commitBest t st.chart t.width (opened t segments st i j)).cell := rfl

end Beam

namespace Parser

variable {p : Parser α} {s : Sentence}

theorem search_eq_exhaustive (h : p.options.strategy = .exhaustive) :
    p.search s =
      let filled := Exhaustive.fill p.grammar p.options.accumulator p.options.segments s
        (emptyChart p.grammar p.options.storage s.size)
      ⟨filled.1, none, filled.2⟩ := by
  unfold search
  simp only [h]

theorem search_exhaustive (h : p.options.strategy = .exhaustive) :
    (p.search s).chart = (Exhaustive.fill p.grammar p.options.accumulator p.options.segments s
      (emptyChart p.grammar p.options.storage s.size)).1 := by
  rw [search_eq_exhaustive h]

theorem search_agenda (h : p.options.strategy = .agenda) :
    p.search s =
      ⟨.slots (Agenda.search p.grammar p.merit p.options.popLimit p.options.agendaBatch s).1, none,
        (Agenda.search p.grammar p.merit p.options.popLimit p.options.agendaBatch s).2⟩ := by
  obtain ⟨search, hsearch⟩ : ∃ search, search = @Agenda.search α _ := ⟨_, rfl⟩
  unfold Parser.search
  rw [← hsearch]
  simp only [h]

theorem chart_search_agenda (h : p.options.strategy = .agenda) :
    (p.search s).chart = .slots
      (Agenda.search p.grammar p.merit p.options.popLimit p.options.agendaBatch s).1 :=
  congrArg Searched.chart (search_agenda h)

theorem search_eq_beam (h : p.options.strategy = .beam) :
    p.search s =
      let final := Beam.search p.grammar p.merit p.options.beamWidth p.options.beamDelta
        p.options.segments (p.options.decoder == .meritSum) s
        (emptyChart p.grammar p.options.storage s.size)
      ⟨final.chart, some final.table, final.stats⟩ := by
  unfold search
  simp only [h]

theorem search_beam (h : p.options.strategy = .beam) :
    (p.search s).chart = (Beam.search p.grammar p.merit p.options.beamWidth p.options.beamDelta
      p.options.segments (p.options.decoder == .meritSum) s
      (emptyChart p.grammar p.options.storage s.size)).chart := by
  rw [search_eq_beam h]

end Parser

end Constituency
