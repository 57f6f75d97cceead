import Constituency.Proofs.Chart.Survival
import Constituency.Proofs.Decode.Viterbi
import Constituency.Proofs.Search.Supported

/-!
# Searched charts survive the posterior passes

Whatever has been pruned, overwritten or left in the queue of a search, both passes over its chart in rows
keep the entries and leave all of them possible, however the scores are combined: the sentence has a parse
after the passes exactly when it had one before.
-/

namespace Constituency

namespace Parser

variable {α : Type} [Score α] [LosslessScore α]

/-- Whatever fills the chart of a sentence, an exhaustive search, a beam search of any width, or an agenda
search that takes its edges in any order and stops at any moment, the chart survives both passes over the
words of the sentence. Outside of an agenda search the arena must have had numbers left for all entries. -/
theorem search_survives (g : Grammar α) (s : Sentence) (inner outer : Accumulator α) :
    (∀ p : Parser α, p.grammar = g →
      p.options.strategy = .agenda ∨ (p.search s).chart.Fits →
      (p.search s).chart.Survives g ((p.search s).chart.posteriors inner outer g s)) ∧
    ∀ (t : Agenda.Task α) (st : Agenda.State α), t.grammar = g →
      Agenda.Run t (Agenda.initial t (Agenda.seed g s).1 (Agenda.seed g s).2) st →
      (Chart.slots st.chart).Survives g ((Chart.slots st.chart).posteriors inner outer g s) := by
  refine ⟨fun p hg hfits => ?_, fun t st hg hrun => ?_⟩
  · subst hg
    have hsustained := p.search_sustained (fun _ => Accumulator.keepsPossible _) s
    refine hsustained.survives ?_ inner outer
    rcases hfits with hagenda | hfits
    · rw [chart_search_agenda hagenda]
      exact (Agenda.search_held p.grammar s p.merit _ _).supported inferInstance
    · exact hsustained.supported inferInstance hfits
  · have hheld := (Agenda.run_supplied hg (Agenda.initial_supplied hg s) hrun).toHeld
    exact hheld.sustained.survives (hheld.supported inferInstance) inner outer

/-- A chart whose root leads back to itself, and the chart with which an agenda search of the same
sentence begins. -/
theorem circle_search_survives :
    ((Exhaustive.circleParser.search Exhaustive.circleSentence).chart.entries 0 3).map
        (·.backpointer) = [.unary 0] ∧
      (Exhaustive.circleParser.search Exhaustive.circleSentence).chart.Survives
        Exhaustive.circleParser.grammar
        ((Exhaustive.circleParser.search Exhaustive.circleSentence).chart.posteriors
          (.sum ⟨1000000⟩ false) .best Exhaustive.circleParser.grammar Exhaustive.circleSentence) ∧
      (Chart.slots (Agenda.seed Exhaustive.circleParser.grammar Exhaustive.circleSentence).1).Survives
        Exhaustive.circleParser.grammar
        ((Chart.slots (Agenda.seed Exhaustive.circleParser.grammar
          Exhaustive.circleSentence).1).posteriors .best .best
            Exhaustive.circleParser.grammar Exhaustive.circleSentence) := by
  have hfits : (Exhaustive.circleParser.search Exhaustive.circleSentence).chart.Fits := trivial
  let task := Agenda.searchTask Exhaustive.circleParser.grammar .inside (fun _ => none) 100
    Exhaustive.circleSentence
  have hstart := (Agenda.initial_spec task
    (Agenda.seed Exhaustive.circleParser.grammar Exhaustive.circleSentence).1
    (Agenda.seed Exhaustive.circleParser.grammar Exhaustive.circleSentence).2).1
  have hseed := (search_survives Exhaustive.circleParser.grammar Exhaustive.circleSentence
    .best .best).2 task _ rfl .refl
  rw [hstart] at hseed
  exact ⟨by decide +kernel, (search_survives Exhaustive.circleParser.grammar
    Exhaustive.circleSentence (.sum ⟨1000000⟩ false) .best).1 _ rfl (.inr hfits), hseed⟩

end Parser

end Constituency
