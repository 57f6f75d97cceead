import Constituency.Chart.Derivation
import Constituency.Proofs.Chart.Links
import Constituency.Proofs.Grammar.Chain
import Constituency.Proofs.Search.Agenda.Seed

/-!
# The result of an agenda search

When the queue is empty, every score of the chart is the maximum over all derivations, and the tree
that the backpointers lead to has that score.
-/

namespace Constituency

namespace Agenda

variable {α : Type} [Score α] [MonotoneScore α] {t : Task α} {g : Grammar α} {s : Sentence}
  {c : SlotChart α} {edges : List (Edge α)} {stamp : Stamps} {now : Nat}

/-! ## Maxima -/

omit [MonotoneScore α] in
/-- Once no edge is left, no rule can improve the chart. -/
theorem Inv.closed (h : Inv g s c [] stamp now) {b : Backpointer} {i j : Nat} {A : NonTerminal}
    {x : α} (happ : Application g s c.inside b i j A x) : x ≤ c.inside i j A := by
  rcases h.reached b i j A x happ with hx | ⟨e, he, -⟩
  · exact hx
  · cases he

theorem Inv.isMaximum (h : Inv g s c [] stamp now) :
    ∀ i j A, IsMaximum (Derives g s i j A) (c.inside i j A) :=
  Chart.isMaximum_of_closed (c := .slots c) h.sound
    (fun _ _ _ _ he => ⟨Score.admissible_iff.1 (h.sound.admissible he), h.timed.derived he⟩)
    fun _ _ _ _ _ happ => h.closed happ

/-! ## Trees -/

/-- A symbol comes before another one if its score is better, or if it came to the same score
earlier. -/
def before (inside : NonTerminal → α) (stamp : NonTerminal → Nat) (a b : NonTerminal) : Bool :=
  decide (inside b < inside a) ||
    (decide (inside b ≤ inside a) && decide (inside a ≤ inside b) && decide (stamp a < stamp b))

section Before

variable {inside : NonTerminal → α} {place : NonTerminal → Nat} {x y z : NonTerminal}

omit [MonotoneScore α] in
theorem before_iff : before inside place x y = true ↔
    inside y < inside x ∨ (inside y ≤ inside x ∧ inside x ≤ inside y) ∧ place x < place y := by
  simp [before]

theorem before_trans (hxy : before inside place x y = true) (hyz : before inside place y z = true) :
    before inside place x z = true := by
  rw [before_iff] at hxy hyz ⊢
  rcases hxy with hxy | ⟨hxy, hplace⟩
  · rcases hyz with hyz | ⟨hyz, -⟩
    · exact .inl (Score.lt_of_lt_of_le hyz (Score.le_of_lt hxy))
    · exact .inl (Score.lt_of_le_of_lt hyz.1 hxy)
  · rcases hyz with hyz | ⟨hyz, hplace'⟩
    · exact .inl (Score.lt_of_lt_of_le hyz hxy.1)
    · exact .inr ⟨⟨Score.le_trans hyz.1 hxy.1, Score.le_trans hxy.2 hyz.2⟩,
        Nat.lt_trans hplace hplace'⟩

theorem before_irrefl (x : NonTerminal) : before inside place x x = false := by
  rw [Bool.eq_false_iff, Ne, before_iff]
  rintro (h | ⟨-, h⟩)
  · exact Score.lt_irrefl _ h
  · exact Nat.lt_irrefl _ h

end Before

/-- An entry that goes up from a child comes after it. -/
theorem Justified.before {inside : Nat → Nat → NonTerminal → α} {i j : Nat} {e : Entry α}
    {B : NonTerminal} (hnonpos : ∀ p ∈ g.productions, p.logProb ≤ 0)
    (h : Justified g s inside stamp i j e) (hinside : inside i j e.nonterminal = e.inside)
    (hb : e.backpointer = .unary B) :
    before (inside i j) (stamp i j) B e.nonterminal = true := by
  obtain ⟨x, happ, hx⟩ := h.below
  have hle : e.inside ≤ inside i j B := Score.le_trans hx (le_of_unary hnonpos (hb ▸ happ))
  rw [before_iff, hinside]
  rcases Score.lt_or_ge e.inside (inside i j B) with hlt | hge
  · exact .inl hlt
  · have hself := Score.le_refl e.inside
    refine .inr ⟨⟨hle, hge⟩, h.earlier B hb ?_ ?_ hge⟩
    · rwa [hinside]
    · rwa [hinside]

omit [MonotoneScore α] in
/-- An entry comes after its children, so that the arena has had numbers for them. -/
theorem Timed.linked (h : Timed g s c edges stamp now) : (Chart.slots c).Linked g s (· ≤ ·) where
  sound := h.sound
  size_eq := h.size_eq
  made i j A e he := by
    have hbelow := (h.held i j A e he).below
    rwa [h.sound.nonterminal_eq he] at hbelow

/-- The unary backpointers of the chart lead downwards. -/
theorem Timed.acyclic (hnonpos : ∀ p ∈ g.productions, p.logProb ≤ 0)
    (h : Timed g s c edges stamp now) : (Chart.slots c).Acyclic := by
  refine fun i j => Chart.not_transGen_self (before (c.inside i j) (stamp i j))
    (fun _ _ _ => before_trans) before_irrefl fun A B ⟨e, he, hb⟩ => ?_
  have he : c.get? i j A = some e := he
  have hbefore := (h.held _ _ _ _ he).before hnonpos (by
    rw [h.sound.nonterminal_eq he]
    exact h.sound.inside_of_get? he) hb
  rwa [h.sound.nonterminal_eq he] at hbefore

/-- What a finished search has found. -/
theorem Inv.result (hnonpos : ∀ p ∈ g.productions, p.logProb ≤ 0)
    (h : Inv g s c [] stamp now) (root : NonTerminal) :
    (c.inside 0 s.size root = Score.impossible ∧
      (Chart.slots c).viterbiTree? g.symbols s.words root = none) ∨
    ∃ d, Derives g s 0 s.size root d ∧
      (Chart.slots c).viterbiTree? g.symbols s.words root =
        some (d.tree g.symbols.name s.words 0) ∧
      d.score ≤ c.inside 0 s.size root ∧ c.inside 0 s.size root ≤ d.score := by
  have hsize : (Chart.slots c).size = s.size := h.size_eq
  by_cases hparse : (Chart.slots c).hasParse root = true
  · obtain ⟨d, hd, htree, hge⟩ :=
      h.timed.linked.viterbiTree?_eq (h.timed.acyclic hnonpos) hparse
    exact .inr ⟨d, hd, htree, (h.isMaximum 0 s.size root).score_le d hd, hge⟩
  · refine .inl ⟨?_, by rw [Chart.viterbiTree?, if_neg hparse]⟩
    rw [(h.isMaximum 0 s.size root).eq_impossible_iff]
    rintro ⟨d, hd, hpos⟩
    rw [Chart.hasParse, hsize, Bool.and_eq_true, decide_eq_true_iff, decide_eq_true_iff] at hparse
    exact hparse ⟨hd.start_lt,
      Score.lt_of_lt_of_le hpos ((h.isMaximum 0 s.size root).score_le d hd)⟩

/-! ## Batches -/

section Loop

variable {st st' : State α} {batch : List (Edge α)}

/-- The first search has the chart of the second one, and in its queue also the edges of a batch that
the second one has taken off. -/
structure Ahead (batch : List (Edge α)) (st st' : State α) : Prop where
  chart_eq : st.chart = st'.chart
  perm : st.queue.edges.Perm (batch ++ st'.queue.edges)

/-- No number of edges is set after which the search ends. -/
def Unlimited (st : State α) : Prop :=
  st.done = false ∧ st.target = none

omit [MonotoneScore α] in
theorem unlimited_process (hlimit : t.popLimit = fun _ => none) (h : Unlimited st) (e : Edge α) :
    Unlimited (process t st e) := by
  have hcount : Unlimited (countPop st) := by
    simp [Unlimited, countPop, h.1, h.2]
  have hnote : ∀ st : State α, Unlimited st → Unlimited (noteParse t st e) := by
    intro st h
    unfold noteParse
    split
    · simp [Unlimited, hlimit, h.1]
    · exact h
  simp only [process]
  split
  · exact hcount
  · exact hnote _ hcount

omit [MonotoneScore α] in
/-- The edges of a batch are taken off one after the other. -/
theorem run_of_processBatch (hlimit : t.popLimit = fun _ => none) {st st' : State α}
    (h : Unlimited st') (hahead : Ahead batch st st') :
    ∃ st'', Run t st st'' ∧ Ahead [] st'' (processBatch t st' batch) ∧
      Unlimited (processBatch t st' batch) := by
  induction batch generalizing st st' with
  | nil => exact ⟨st, .refl, hahead, h⟩
  | cons e rest ih =>
    have hfold : processBatch t st' (e :: rest) = processBatch t (process t st' e) rest := by
      simp [processBatch, h.1]
    have hstep : Step t st (process t { st with queue := ⟨rest ++ st'.queue.edges⟩ } e) :=
      ⟨e, rest ++ st'.queue.edges, hahead.perm, rfl⟩
    have hnext : Ahead rest (process t { st with queue := ⟨rest ++ st'.queue.edges⟩ } e)
        (process t st' e) := by
      refine ⟨by rw [chart_process, chart_process, hahead.chart_eq], ?_⟩
      rw [queue_process, queue_process]
      simp only [hahead.chart_eq]
      split
      · refine (insertAll_perm _ _).trans (List.Perm.trans ?_
          ((insertAll_perm st'.queue _).symm.append_left rest))
        rw [← List.append_assoc, ← List.append_assoc]
        exact List.perm_append_comm.append_right _
      · exact .refl _
    obtain ⟨st'', hrun, hahead', hunl⟩ := ih (unlimited_process hlimit h e) hnext
    rw [hfold]
    exact ⟨st'', .head hstep hrun, hahead', hunl⟩

omit [MonotoneScore α] in
/-- The loop of the search, whatever the size of its batches, takes the edges off one by one in
some order. -/
theorem run_of_rounds (hlimit : t.popLimit = fun _ => none) (rounds : Nat)
    (h : Unlimited st') (hahead : Ahead [] st st') :
    ∃ st'', Run t st st'' ∧ Ahead [] st'' (run t rounds st') := by
  induction rounds generalizing st st' with
  | zero => exact ⟨st, .refl, hahead⟩
  | succ rounds ih =>
    unfold run
    split
    · exact ⟨st, .refl, hahead⟩
    · have htake : Ahead (st'.queue.take t.batch).1 st
          { st' with queue := (st'.queue.take t.batch).2 } :=
        ⟨hahead.chart_eq, by simpa [Queue.take] using hahead.perm⟩
      have hunl' : Unlimited { st' with queue := (st'.queue.take t.batch).2 } := h
      obtain ⟨mid, hrun, hahead', hunl⟩ := run_of_processBatch hlimit hunl' htake
      obtain ⟨final, hrun', hfinal⟩ := ih hunl hahead'
      exact ⟨final, hrun.trans hrun', hfinal⟩

omit [MonotoneScore α] in
theorem unlimited_initial (t : Task α) (c : SlotChart α) (seeds : List (Nat × NonTerminal)) :
    Unlimited (initial t c seeds) := by
  unfold initial
  refine foldl_prefix_induction (P := fun _ (st : State α) => Unlimited st) seeds
    (fun _ x _ st _ h => ?_) ⟨rfl, rfl⟩
  exact h

end Loop

/-! ## Every order -/

/-- The invariant holds at every moment of a search. -/
theorem inv_of_run (hnonpos : ∀ p ∈ g.productions, p.logProb ≤ 0) (hg : t.grammar = g)
    (ht : t.size = s.size) {st : State α} (hrun : Run t (initial t (seed g s).1 (seed g s).2) st)
    (hfits : st.chart.edgesAllocated ≤ UInt32.size) :
    ∃ stamp now, Inv g s st.chart st.queue.edges stamp now := by
  have hseed : (seed g s).1.arena.next ≤ UInt32.size := by
    have hchart := (initial_spec t (seed g s).1 (seed g s).2).1
    rw [← hchart]
    exact Nat.le_trans (next_le_next_of_run hrun) hfits
  exact run_inv hnonpos hg ht (initial_inv hg ht hseed) hrun hfits

/-- Whatever edge is taken off the queue next, a search that has emptied its queue has the best score
of each symbol over each span, and reads off the tree of a derivation of the sentence that has the
score of the root. The arena refuses entries when its numbers run out; the search must have
stayed below that. -/
theorem run_finds_best (hnonpos : ∀ p ∈ g.productions, p.logProb ≤ 0) (hg : t.grammar = g)
    (ht : t.size = s.size) {final : State α}
    (hrun : Run t (initial t (seed g s).1 (seed g s).2) final) (hempty : final.queue.edges = [])
    (hfits : final.chart.edgesAllocated ≤ UInt32.size) :
    (∀ i j A, IsMaximum (Derives g s i j A) (final.chart.inside i j A)) ∧
    ∀ root,
      (final.chart.inside 0 s.size root = Score.impossible ∧
        (Chart.slots final.chart).viterbiTree? g.symbols s.words root = none) ∨
      ∃ d, Derives g s 0 s.size root d ∧
        (Chart.slots final.chart).viterbiTree? g.symbols s.words root =
          some (d.tree g.symbols.name s.words 0) ∧
        d.score ≤ final.chart.inside 0 s.size root ∧
        final.chart.inside 0 s.size root ≤ d.score := by
  obtain ⟨stamp, now, hinv⟩ := inv_of_run hnonpos hg ht hrun hfits
  rw [hempty] at hinv
  exact ⟨hinv.isMaximum, hinv.result hnonpos⟩

/-- A search of the word under a chain of unary rules, one edge at a time. -/
def chainTask : Task (WithBot ℤ) where
  grammar := Chain.whole
  merit := ⟨fun _ _ _ x => x, fun _ _ _ x => x⟩
  size := 1
  popLimit _ := none
  batch := 1

theorem chain_search_finds_best :
    ∃ final, Run chainTask (initial chainTask (seed Chain.whole Chain.sentence).1
        (seed Chain.whole Chain.sentence).2) final ∧ final.queue.edges = [] ∧
      IsMaximum (Derives Chain.whole Chain.sentence 0 1 0) (final.chart.inside 0 1 0) ∧
      final.chart.inside 0 1 0 = (-2 : ℤ) := by
  obtain ⟨final, hrun, hchart, hperm⟩ := run_of_rounds (t := chainTask) rfl 3
    (unlimited_initial chainTask (seed Chain.whole Chain.sentence).1
      (seed Chain.whole Chain.sentence).2) ⟨rfl, .refl _⟩
  have hempty : final.queue.edges = [] := by
    rw [← List.length_eq_zero_iff, hperm.length_eq]
    decide +kernel
  refine ⟨final, hrun, hempty, ?_, ?_⟩
  · have hnonpos : ∀ p ∈ Chain.whole.productions, p.logProb ≤ 0 := by decide +kernel
    have hfits : final.chart.edgesAllocated ≤ UInt32.size := by
      rw [hchart]
      decide +kernel
    exact (run_finds_best hnonpos rfl rfl hrun hempty hfits).1 0 1 0
  · rw [hchart]
    decide +kernel

/-- The search as it is run, with any figure of merit and in batches of any size. -/
theorem rounds_find_best (hnonpos : ∀ p ∈ g.productions, p.logProb ≤ 0) (hg : t.grammar = g)
    (ht : t.size = s.size) (hlimit : t.popLimit = fun _ => none) (rounds : Nat)
    {final : State α} (hfinal : run t rounds (initial t (seed g s).1 (seed g s).2) = final)
    (hempty : final.queue.edges = []) (hfits : final.chart.edgesAllocated ≤ UInt32.size)
    (i j : Nat) (A : NonTerminal) :
    IsMaximum (Derives g s i j A) (final.chart.inside i j A) := by
  obtain ⟨last, hrun, hahead⟩ := run_of_rounds hlimit rounds
    (unlimited_initial t (seed g s).1 (seed g s).2) ⟨rfl, .refl _⟩
  rw [hfinal] at hahead
  have hlast : last.queue.edges = [] := by
    have hperm := hahead.perm
    rw [hempty] at hperm
    exact hperm.eq_nil
  rw [← hahead.chart_eq] at hfits ⊢
  obtain ⟨stamp, now, hinv⟩ := inv_of_run hnonpos hg ht hrun hfits
  rw [hlast] at hinv
  exact hinv.isMaximum i j A

end Agenda

end Constituency
