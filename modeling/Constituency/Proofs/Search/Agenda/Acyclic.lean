import Constituency.Proofs.Search.Clock
import Constituency.Proofs.Search.Strategy

/-!
# Agenda search at any moment

An agenda search may be cut short: its budget may be spent before the queue is empty, and the arena may
refuse an entry. What it has entered by then is still the score of a derivation, and the stamps still
order the unary backpointers. What is lost is only that nothing better waits in the queue, so that the
invariant is stated once more without it (`Timed`).
-/

namespace Constituency

namespace Agenda

variable {α : Type} [Score α] {t : Task α} {g : Grammar α} {s : Sentence} {c : SlotChart α}
  {edges edges' : List (Edge α)} {stamp : Stamps} {now : Nat} {e : Edge α} {st st' : State α}

namespace Timed

theorem subset (h : Timed g s c edges stamp now) (hsub : ∀ e ∈ edges', e ∈ edges) :
    Timed g s c edges' stamp now :=
  { h with queued := fun e he => h.queued e (hsub e he) }

theorem bounds (h : Timed g s c edges stamp now) (he : e ∈ edges) :
    e.start < e.stop ∧ e.stop ≤ c.size ∧ e.nonterminal < g.numNonterminals :=
  h.size_eq ▸ (h.queued e he).warranted.bounds

variable [MonotoneScore α]

theorem grown (hnonpos : ∀ p ∈ g.productions, p.logProb ≤ 0) (h : Timed g s c edges stamp now) :
    (Chart.slots c).Grown g s where
  sound := h.sound
  size_eq := h.size_eq
  derived _ _ _ _ he := ⟨Score.admissible_iff.1 (h.sound.admissible he), h.derived he⟩
  acyclic := h.acyclic hnonpos
  linked _ := h.linked

/-- However the chart takes an edge, the clock goes on. -/
theorem install (hnonpos : ∀ p ∈ g.productions, p.logProb ≤ 0) (hg : t.grammar = g)
    (h : Timed g s c (e :: edges) stamp now) :
    ∃ stamp now, Timed g s (c.install e.start e.stop e.toEntry).2
      ((if (c.install e.start e.stop e.toEntry).1 = true then
        frontier t (c.install e.start e.stop e.toEntry).2 e.start e.stop e.nonterminal e.inside
        else []) ++ edges) stamp now := by
  obtain ⟨hij, hj, hnt⟩ := h.bounds List.mem_cons_self
  have hsize := SlotChart.size_install c e.start e.stop e.toEntry
  have hdone : (c.install e.start e.stop e.toEntry).1 = true → Score.impossible < e.inside ∧
      c.inside e.start e.stop e.nonterminal ≤ e.inside := SlotChart.le_of_install h.sound
  obtain ⟨hsound, hcases⟩ := SlotChart.install_changes h.sound hij hj hnt
  generalize (c.install e.start e.stop e.toEntry).2 = c' at hsound hcases hsize ⊢
  generalize (c.install e.start e.stop e.toEntry).1 = entered at hdone hcases ⊢
  rcases hcases with ⟨rfl, hget⟩ | ⟨rfl, -, hget⟩
  · have hinside : c'.inside = c.inside := by
      funext k l A
      rw [hsound.inside_eq, hget, h.sound.inside_eq]
    refine ⟨stamp, now, hsound, hsize.trans h.size_eq, h.stamp_lt, fun i j A e' he' => ?_,
      fun e' he' => ?_⟩
    · rw [hget] at he'
      exact hinside ▸ h.held i j A e' he'
    · exact hinside ▸ h.queued e' (List.mem_cons_of_mem _ (by simpa using he'))
  · obtain ⟨hpos, hle⟩ := hdone rfl
    rw [if_pos rfl]
    exact ⟨_, now + 1, h.enter hnonpos hg hsound hsize hpos hle hget⟩

/-- An edge is processed while others wait in the queue or in a batch. -/
theorem process (st : State α) (hnonpos : ∀ p ∈ g.productions, p.logProb ≤ 0) (hg : t.grammar = g)
    {batch : List (Edge α)}
    (h : Timed g s st.chart (e :: (batch ++ st.queue.edges)) stamp now) :
    ∃ stamp now, Timed g s (process t st e).chart
      (batch ++ (process t st e).queue.edges) stamp now := by
  obtain ⟨stamp, now, hnext⟩ := h.install hnonpos hg
  rw [chart_process, queue_process]
  refine ⟨stamp, now, hnext.subset fun e' he' => ?_⟩
  split at he'
  · next hdone =>
    rw [if_pos hdone]
    simp only [List.mem_append, mem_insertAll] at he' ⊢
    tauto
  · simp only [List.mem_append] at he' ⊢
    tauto

theorem processBatch (st : State α) (hnonpos : ∀ p ∈ g.productions, p.logProb ≤ 0) (hg : t.grammar = g)
    {batch : List (Edge α)} (h : Timed g s st.chart (batch ++ st.queue.edges) stamp now) :
    ∃ stamp now, Timed g s (processBatch t st batch).chart
      (processBatch t st batch).queue.edges stamp now := by
  induction batch generalizing st stamp now with
  | nil => exact ⟨stamp, now, h⟩
  | cons e rest ih =>
    rw [Agenda.processBatch, List.foldl_cons]
    split
    · exact ih st (h.subset fun e' he' => List.mem_cons_of_mem e he')
    · obtain ⟨stamp, now, hnext⟩ := Timed.process st hnonpos hg h
      exact ih _ hnext

/-- The rounds of a search, with whatever limit. -/
theorem rounds (hnonpos : ∀ p ∈ g.productions, p.logProb ≤ 0) (hg : t.grammar = g) (rounds : Nat)
    (h : Timed g s st.chart st.queue.edges stamp now) :
    ∃ stamp now, Timed g s (Agenda.run t rounds st).chart
      (Agenda.run t rounds st).queue.edges stamp now := by
  induction rounds generalizing st stamp now with
  | zero => exact ⟨stamp, now, h⟩
  | succ rounds ih =>
    unfold Agenda.run
    split
    · exact ⟨stamp, now, h⟩
    · have hmid : Timed g s st.chart
          ((st.queue.take t.batch).1 ++ (st.queue.take t.batch).2.edges) stamp now :=
        h.subset fun e he => by simpa [Queue.take] using he
      obtain ⟨stamp, now, hnext⟩ := Timed.processBatch
        { st with queue := (st.queue.take t.batch).2 } hnonpos hg hmid
      exact ih hnext

/-- Any order in which the edges are taken off the queue. -/
theorem run (hnonpos : ∀ p ∈ g.productions, p.logProb ≤ 0) (hg : t.grammar = g)
    (h : Timed g s st.chart st.queue.edges stamp now) (hrun : Run t st st') :
    ∃ stamp now, Timed g s st'.chart st'.queue.edges stamp now := by
  induction hrun with
  | refl => exact ⟨stamp, now, h⟩
  | @tail mid final _ hstep ih =>
    obtain ⟨stamp, now, hmid⟩ := ih
    obtain ⟨e, rest, hperm, rfl⟩ := hstep
    have hwaiting : Timed g s mid.chart (e :: ([] ++ rest)) stamp now :=
      hmid.subset fun e' he' => hperm.mem_iff.2 he'
    exact Timed.process { mid with queue := ⟨rest⟩ } hnonpos hg hwaiting

end Timed

variable [MonotoneScore α]

/-- The chart of a search at any moment, whichever edges it has taken off the queue. -/
theorem grown_of_run (hnonpos : ∀ p ∈ g.productions, p.logProb ≤ 0) (hg : t.grammar = g)
    (hrun : Run t (initial t (seed g s).1 (seed g s).2) st) :
    (Chart.slots st.chart).Grown g s ∧ (Chart.slots st.chart).Linked g s (· ≤ ·) := by
  obtain ⟨stamp, now, h⟩ := (initial_timed hg s).run hnonpos hg hrun
  exact ⟨h.grown hnonpos, h.linked⟩

/-- The chart of a search with whatever figure of merit, batches and limit. -/
theorem search_grown (hnonpos : ∀ p ∈ g.productions, p.logProb ≤ 0) (merit : Merit α)
    (popLimit : Nat → Option Nat) (batch : Nat) :
    (Chart.slots (search g merit popLimit batch s).1).Grown g s ∧
      (Chart.slots (search g merit popLimit batch s).1).Linked g s (· ≤ ·) := by
  rw [chart_search]
  have hg : (searchTask g merit popLimit batch s).grammar = g := rfl
  obtain ⟨stamp, now, h⟩ := (initial_timed hg s).rounds hnonpos hg _
  exact ⟨h.grown hnonpos, h.linked⟩

end Agenda

end Constituency
