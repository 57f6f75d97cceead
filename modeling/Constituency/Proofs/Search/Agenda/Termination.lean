import Constituency.Proofs.Search.Agenda.Acyclic
import Constituency.Proofs.Search.Supported

/-!
# Agenda search comes to an end

The loop of the search is given a number of rounds, and a search without a limit empties its queue
within them. Every round takes an edge off the queue, edges are queued by the entry they build on, each
entry queues at most as many of them as there are productions and positions, and the arena has a
number for each entry (`Counted`).
-/

namespace Constituency

namespace Agenda

variable {α : Type} [Score α] {t : Task α} {g : Grammar α} {s : Sentence} {c : SlotChart α}
  {st : State α} {e : Edge α} {batch : List (Edge α)}

/-! ## How many edges build on an entry -/

/-- No entry queues more edges than this. -/
def Task.fan (t : Task α) : Nat :=
  t.grammar.productions.length * (t.size + 1)

omit [Score α] in
theorem length_flatMap_le {β γ : Type} {f : β → List γ} {bound : Nat} {l : List β}
    (h : ∀ x ∈ l, (f x).length ≤ bound) : (l.flatMap f).length ≤ l.length * bound := by
  induction l with
  | nil => simp
  | cons x rest ih =>
    have hhead := h x List.mem_cons_self
    have hrest := ih fun y hy => h y (List.mem_cons_of_mem _ hy)
    rw [List.flatMap_cons, List.length_append, List.length_cons, Nat.succ_mul]
    omega

theorem length_unaryParents_le (t : Task α) (i j : Nat) (A : NonTerminal) (x : α) :
    (unaryParents t i j A x).length ≤ t.grammar.productions.length := by
  rw [unaryParents, List.length_map, Grammar.byUnaryChild_eq]
  exact List.length_filter_le _ _

theorem length_parentsToRight_le (t : Task α) (c : SlotChart α) (i j : Nat) (A : NonTerminal)
    (x : α) :
    (parentsToRight t c i j A x).length ≤ t.grammar.productions.length * (t.size - j) := by
  have hstops : (parentsToRight t c i j A x).length ≤
      (t.grammar.byLeftChild A).length * (t.size - j) := by
    refine length_flatMap_le fun p _ => ?_
    split
    · exact (List.length_filterMap_le _ _).trans (List.length_range').le
    · exact Nat.zero_le _
  refine hstops.trans (Nat.mul_le_mul_right _ ?_)
  rw [Grammar.byLeftChild_eq]
  exact List.length_filter_le _ _

theorem length_parentsToLeft_le (t : Task α) (c : SlotChart α) (i j : Nat) (A : NonTerminal)
    (x : α) : (parentsToLeft t c i j A x).length ≤ t.grammar.productions.length * i := by
  have hstarts : (parentsToLeft t c i j A x).length ≤ (t.grammar.byRightChild A).length * i := by
    refine length_flatMap_le fun p _ => ?_
    split
    · exact (List.length_filterMap_le _ _).trans List.length_range.le
    · exact Nat.zero_le _
  refine hstarts.trans (Nat.mul_le_mul_right _ ?_)
  rw [Grammar.byRightChild_eq]
  exact List.length_filter_le _ _

theorem length_frontier_le (c : SlotChart α) {i j : Nat} (hij : i < j) (hj : j ≤ t.size)
    (A : NonTerminal) (x : α) : (frontier t c i j A x).length ≤ t.fan := by
  have hunary := length_unaryParents_le t i j A x
  have hright := length_parentsToRight_le t c i j A x
  have hleft := length_parentsToLeft_le t c i j A x
  have hall := List.length_filter_le (improves c)
    (unaryParents t i j A x ++ parentsToRight t c i j A x ++ parentsToLeft t c i j A x)
  rw [List.length_append, List.length_append] at hall
  calc (frontier t c i j A x).length
      ≤ t.grammar.productions.length + t.grammar.productions.length * (t.size - j) +
          t.grammar.productions.length * i := by
        rw [frontier]
        omega
    _ = t.grammar.productions.length * (1 + (t.size - j) + i) := by ring
    _ ≤ t.fan := Nat.mul_le_mul_left _ (by omega)

/-! ## Counting -/

/-- Every edge that has been queued waits or has been taken, and each of the entries that have been
numbered has queued at most so many. -/
structure Counted (t : Task α) (batch : List (Edge α)) (st : State α) : Prop where
  taken : st.pops + (batch.length + st.queue.edges.length) = st.pushes
  queued : st.pushes ≤ t.fan * st.chart.arena.next

theorem pops_process (t : Task α) (st : State α) (e : Edge α) :
    (process t st e).pops = st.pops + 1 := by
  have hnote : ∀ st : State α, (noteParse t st e).pops = st.pops := by
    intro st
    unfold noteParse
    split <;> rfl
  simp only [process, countPop]
  split
  · rfl
  · simp only [expand, hnote]

theorem pushes_process (t : Task α) (st : State α) (e : Edge α) :
    (process t st e).pushes =
      if (st.chart.install e.start e.stop e.toEntry).1 = true then
        st.pushes + (frontier t (st.chart.install e.start e.stop e.toEntry).2 e.start e.stop
          e.nonterminal e.inside).length
      else st.pushes := by
  have hnote : ∀ st : State α, (noteParse t st e).chart = st.chart ∧
      (noteParse t st e).pushes = st.pushes := by
    intro st
    unfold noteParse
    split <;> exact ⟨rfl, rfl⟩
  simp only [process, countPop]
  split
  · next h => rw [h]; rfl
  · next h => simp only [expand, hnote, h, if_true]

theorem length_insertAll (q : Queue α) (edges : List (Edge α)) :
    (q.insertAll edges).edges.length = edges.length + q.edges.length := by
  rw [(insertAll_perm q edges).length_eq, List.length_append]

/-- What is installed takes a number of the arena. -/
theorem next_lt_next_install {i j : Nat} {e : Entry α} (h : (c.install i j e).1 = true) :
    c.arena.next < (c.install i j e).2.arena.next := by
  by_cases hcond : Score.admissible e.inside = true ∧
      SlotChart.beats e.inside (c.slot? i j e.nonterminal) = true
  · rw [SlotChart.next_install_of_beats i j hcond.1 hcond.2]
    exact Nat.lt_succ_self _
  · rw [SlotChart.install_of_not (by simpa using hcond)] at h
    cases h

/-- A search that is done takes no more edges. -/
theorem processBatch_of_done (h : st.done = true) (batch : List (Edge α)) :
    processBatch t st batch = st := by
  induction batch with
  | nil => rfl
  | cons e rest ih => simpa [processBatch, h] using ih

theorem run_of_done (h : st.done = true) (rounds : Nat) : run t rounds st = st := by
  cases rounds with
  | zero => rfl
  | succ rounds => rw [run, h, Bool.true_or, if_pos rfl]

/-! ## Rounds -/

section Rounds

variable {P : List (Edge α) → State α → Prop}

/-- A batch is taken to its last edge, unless the search is done before. What each edge taken preserves,
of the rest of the batch and the search, is so preserved. -/
theorem processBatch_induction
    (hprocess : ∀ e rest st, P (e :: rest) st → P rest (process t st e)) (h : P batch st)
    (hdone : (processBatch t st batch).done = false) :
    P [] (processBatch t st batch) ∧
      (processBatch t st batch).pops = st.pops + batch.length := by
  induction batch generalizing st with
  | nil => exact ⟨h, rfl⟩
  | cons e rest ih =>
    have hgoes : st.done = false := by
      refine Bool.eq_false_iff.2 fun hend => ?_
      rw [processBatch_of_done hend, hend] at hdone
      cases hdone
    have hfold : processBatch t st (e :: rest) = processBatch t (process t st e) rest := by
      simp [processBatch, hgoes]
    rw [hfold] at hdone ⊢
    obtain ⟨hend, hpops⟩ := ih (hprocess e rest st h) hdone
    refine ⟨hend, ?_⟩
    rw [hpops, pops_process, List.length_cons]
    omega

/-- Each round takes an edge as long as there are any and the search is not done. -/
theorem run_induction (hprocess : ∀ e rest st, P (e :: rest) st → P rest (process t st e))
    (htake : ∀ st, P [] st →
      P (st.queue.take t.batch).1 { st with queue := (st.queue.take t.batch).2 })
    (hbatch : 0 < t.batch) (rounds : Nat) (h : P [] st)
    (hdone : (run t rounds st).done = false) :
    P [] (run t rounds st) ∧
      ((run t rounds st).queue.edges = [] ∨ st.pops + rounds ≤ (run t rounds st).pops) := by
  induction rounds generalizing st with
  | zero => exact ⟨h, .inr (Nat.le_refl _)⟩
  | succ rounds ih =>
    unfold run at hdone ⊢
    split at hdone
    · next hstop =>
      rw [if_pos hstop]
      rw [hdone, Bool.false_or, List.isEmpty_iff] at hstop
      exact ⟨h, .inl hstop⟩
    · next hgo =>
      rw [if_neg hgo]
      simp only [Bool.or_eq_true, not_or, Bool.not_eq_true, List.isEmpty_eq_false_iff] at hgo
      have hsome := List.length_pos_iff.2 hgo.2
      have hfirst : 0 < (st.queue.take t.batch).1.length := by
        rw [Queue.take, List.length_take]
        omega
      change (run t rounds (processBatch t { st with queue := (st.queue.take t.batch).2 }
        (st.queue.take t.batch).1)).done = false at hdone
      have hgoes : (processBatch t { st with queue := (st.queue.take t.batch).2 }
          (st.queue.take t.batch).1).done = false := by
        refine Bool.eq_false_iff.2 fun hend => ?_
        rw [run_of_done hend, hend] at hdone
        cases hdone
      obtain ⟨hend, hpops⟩ := processBatch_induction hprocess (htake st h) hgoes
      obtain ⟨hfinal, hprogress⟩ := ih hend hdone
      refine ⟨hfinal, hprogress.imp_right fun hle => Nat.le_trans ?_ hle⟩
      rw [hpops]
      dsimp only
      omega

end Rounds

omit [Score α] in
theorem length_take_add (q : Queue α) (n : Nat) :
    (q.take n).1.length + (q.take n).2.edges.length = q.edges.length := by
  rw [← List.length_append]
  exact congrArg List.length (List.take_append_drop n q.edges)

theorem Counted.process (h : Counted t (e :: batch) st) (hij : e.start < e.stop)
    (hj : e.stop ≤ t.size) : Counted t batch (process t st e) := by
  have hbound := length_frontier_le (st.chart.install e.start e.stop e.toEntry).2 hij hj
    e.nonterminal e.inside
  have htaken := h.taken
  have hqueued := h.queued
  have hmono := SlotChart.next_le_next_install st.chart e.start e.stop e.toEntry
  have hnext := next_lt_next_install (c := st.chart) (i := e.start) (j := e.stop) (e := e.toEntry)
  rw [List.length_cons] at htaken
  refine ⟨?_, ?_⟩
  · rw [pops_process, pushes_process, queue_process]
    split
    · rw [length_insertAll]
      omega
    · omega
  · rw [pushes_process, chart_process]
    split
    · next hdone =>
      calc st.pushes + _ ≤ t.fan * st.chart.arena.next + t.fan := Nat.add_le_add hqueued hbound
        _ = t.fan * (st.chart.arena.next + 1) := (Nat.mul_succ _ _).symm
        _ ≤ _ := Nat.mul_le_mul_left _ (hnext hdone)
    · exact hqueued.trans (Nat.mul_le_mul_left _ hmono)

section Monotone

variable [MonotoneScore α]

/-- The count is kept in every round. -/
theorem run_counted (hg : t.grammar = g) (ht : t.size = s.size) (hbatch : 0 < t.batch)
    (rounds : Nat) (hst : Supplied g s st) (h : Counted t [] st)
    (hdone : (run t rounds st).done = false) :
    Counted t [] (run t rounds st) ∧
      ((run t rounds st).queue.edges = [] ∨ st.pops + rounds ≤ (run t rounds st).pops) := by
  let P : List (Edge α) → State α → Prop := fun batch st =>
    Supplied g s st ∧ (∀ e ∈ batch, Supplies g s st.chart e) ∧ Counted t batch st
  have hprocess : ∀ e rest st, P (e :: rest) st → P rest (process t st e) := by
    rintro e rest st ⟨hst, hedges, h⟩
    have he := hedges e List.mem_cons_self
    obtain ⟨hij, hj, -⟩ := he.bounds hst.toHeld
    obtain ⟨hnext, hlater⟩ := process_supplied hg hst he
    exact ⟨hnext, fun e' he' => hlater e' (hedges e' (List.mem_cons_of_mem e he')),
      h.process hij (ht ▸ hj)⟩
  have htake : ∀ st, P [] st →
      P (st.queue.take t.batch).1 { st with queue := (st.queue.take t.batch).2 } := by
    rintro st ⟨hst, -, h⟩
    refine ⟨⟨hst.toHeld, fun e he => hst.queued e (List.mem_of_mem_drop he)⟩,
      fun e he => hst.queued e (List.mem_of_mem_take he), ?_, h.queued⟩
    have hlength := length_take_add st.queue t.batch
    have htaken := h.taken
    rw [List.length_nil, Nat.zero_add] at htaken
    dsimp only
    omega
  obtain ⟨⟨-, -, hcounted⟩, hprogress⟩ := run_induction hprocess htake hbatch rounds
    ⟨hst, fun e he => absurd he List.not_mem_nil, h⟩ hdone
  exact ⟨hcounted, hprogress⟩

/-! ## The start -/

omit [MonotoneScore α] in
theorem length_seeds_le (g : Grammar α) (s : Sentence) :
    (seed g s).2.length ≤ (seed g s).1.arena.next := by
  refine foldl_prefix_induction (P := fun _ (state : SlotChart α × List (Nat × NonTerminal)) =>
    state.2.length ≤ state.1.arena.next) (lexicalEntries g s)
    (fun visited x rest state hsplit hv => ?_) (Nat.zero_le _)
  have hmono := SlotChart.next_le_next_install state.1 x.1 (x.1 + 1) x.2
  rw [chart_seedStep, seeds_seedStep]
  split
  · next hdone =>
    have hnext := next_lt_next_install hdone
    rw [List.length_append, List.length_singleton]
    omega
  · exact hv.trans hmono

omit [MonotoneScore α] in
/-- At the start no edge has been taken, and each place of a word has queued its edges. -/
theorem initial_pushes (t : Task α) (c : SlotChart α) {seeds : List (Nat × NonTerminal)}
    (hseeds : ∀ x ∈ seeds, x.1 + 1 ≤ t.size) :
    (initial t c seeds).pops = 0 ∧
      (initial t c seeds).queue.edges.length = (initial t c seeds).pushes ∧
      (initial t c seeds).pushes ≤ t.fan * seeds.length := by
  refine foldl_prefix_induction (P := fun visited (st : State α) =>
    st.pops = 0 ∧ st.queue.edges.length = st.pushes ∧ st.pushes ≤ t.fan * visited.length) seeds
    (fun visited x rest st hsplit hv => ?_) ⟨rfl, rfl, Nat.le_refl _⟩
  obtain ⟨hpops, hlength, hpushes⟩ := hv
  have hbound := length_frontier_le st.chart (Nat.lt_succ_self x.1)
    (hseeds x (by rw [hsplit]; simp)) x.2 (st.chart.inside x.1 (x.1 + 1) x.2)
  refine ⟨hpops, ?_, ?_⟩
  · simp only [expand, length_insertAll, hlength]
    omega
  · rw [List.length_append, List.length_singleton, Nat.mul_succ]
    exact Nat.add_le_add hpushes hbound

theorem initial_counted (hg : t.grammar = g) (ht : t.size = s.size) :
    Counted t [] (initial t (seed g s).1 (seed g s).2) := by
  subst hg
  have hsown := seed_sown t.grammar s
  have hplaced : ∀ x ∈ (seed t.grammar s).2, x.1 + 1 ≤ t.size := fun x hx => by
    obtain ⟨-, hj, -⟩ := hsown.sound.bounds_of_possible (hsown.filled _ _ hx)
    rwa [hsown.size_eq, ← ht] at hj
  obtain ⟨hpops, hlength, hpushes⟩ := initial_pushes t (seed t.grammar s).1 hplaced
  refine ⟨?_, ?_⟩
  · rw [hpops, hlength, List.length_nil, Nat.zero_add, Nat.zero_add]
  · rw [(initial_spec t _ _).1]
    exact hpushes.trans (Nat.mul_le_mul_left _ (length_seeds_le _ _))

/-! ## The rounds suffice -/

omit [MonotoneScore α] in
/-- A search that has ended stays as it is. -/
theorem run_eq_of_le {few many : Nat} (hle : few ≤ many)
    (hend : ((run t few st).done || (run t few st).queue.edges.isEmpty) = true) :
    run t many st = run t few st := by
  induction few generalizing many st with
  | zero =>
    rw [run] at hend ⊢
    cases many with
    | zero => rfl
    | succ many => rw [run, if_pos hend]
  | succ few ih =>
    obtain ⟨many, rfl⟩ : ∃ n, many = n + 1 := ⟨many - 1, by omega⟩
    rw [run] at hend ⊢
    rw [run]
    split
    · rfl
    · next hgo =>
      rw [if_neg hgo] at hend
      exact ih (Nat.le_of_succ_le_succ hle) hend

omit [Score α] [MonotoneScore α] in
theorem maxRounds_eq (t : Task α) :
    maxRounds t =
      2 * (numCells t.size * t.grammar.numNonterminals * UInt32.size) * t.fan + 1 := by
  rw [maxRounds, Task.fan]

/-- A search is done or empties its queue, unless its arena runs out of numbers. -/
theorem run_maxRounds_ends (hg : t.grammar = g) (ht : t.size = s.size) (hbatch : 0 < t.batch)
    {rounds : Nat}
    (hrounds : maxRounds t ≤ rounds) {final : State α}
    (hfinal : run t rounds (initial t (seed g s).1 (seed g s).2) = final)
    (hfits : final.chart.arena.next ≤ UInt32.size) :
    final.done = true ∨ final.queue.edges = [] := by
  cases hdone : final.done with
  | true => exact .inl rfl
  | false =>
  rw [← hfinal] at hdone
  obtain ⟨hcounted, hprogress⟩ := run_counted hg ht hbatch rounds (initial_supplied hg s)
    (initial_counted hg ht) hdone
  have hsupplied := rounds_supplied hg rounds (initial_supplied hg s)
  rw [hfinal] at hcounted hprogress hsupplied
  refine .inr (Classical.byContradiction fun hwaits => ?_)
  obtain ⟨e, he⟩ := List.exists_mem_of_ne_nil _ hwaits
  obtain ⟨hij, hj, hnt⟩ := (hsupplied.queued e he).bounds hsupplied.toHeld
  rw [← ht] at hj
  have hentries : 1 ≤ numCells t.size * t.grammar.numNonterminals := by
    refine Nat.mul_pos ?_ (Nat.zero_lt_of_lt (hg ▸ hnt))
    have hsize : 1 ≤ t.size := by omega
    have hmul := Nat.mul_le_mul hsize (show 2 ≤ t.size + 1 by omega)
    rw [numCells]
    omega
  have hmany : final.pushes < maxRounds t := by
    calc final.pushes ≤ t.fan * final.chart.arena.next := hcounted.queued
      _ ≤ t.fan * UInt32.size := Nat.mul_le_mul_left _ hfits
      _ = 1 * UInt32.size * t.fan := by rw [Nat.one_mul, Nat.mul_comm]
      _ ≤ numCells t.size * t.grammar.numNonterminals * UInt32.size * t.fan :=
        Nat.mul_le_mul_right _ (Nat.mul_le_mul_right _ hentries)
      _ ≤ 2 * (numCells t.size * t.grammar.numNonterminals * UInt32.size) * t.fan :=
        Nat.mul_le_mul_right _ (Nat.le_mul_of_pos_left _ Nat.two_pos)
      _ < maxRounds t := by
        rw [maxRounds_eq]
        exact Nat.lt_succ_self _
  have htaken := hcounted.taken
  have hlate := hprogress.resolve_left hwaits
  omega

omit [MonotoneScore α] in
/-- A search without a limit is never done. -/
theorem unlimited_run (hlimit : t.popLimit = fun _ => none) (h : Unlimited st) (rounds : Nat) :
    Unlimited (run t rounds st) := by
  induction rounds generalizing st with
  | zero => exact h
  | succ rounds ih =>
    unfold run
    split
    · exact h
    · have htake : Ahead (st.queue.take t.batch).1 st
          { st with queue := (st.queue.take t.batch).2 } :=
        ⟨rfl, by simp [Queue.take]⟩
      have hunl : Unlimited { st with queue := (st.queue.take t.batch).2 } := h
      obtain ⟨-, -, -, hunl'⟩ := run_of_processBatch hlimit hunl htake
      exact ih hunl'

/-- The search of a sentence without a limit finds the best score of each symbol over each span,
whatever the figure of merit and the size of the batches. -/
theorem search_isMaximum (hnonpos : ∀ p ∈ g.productions, p.logProb ≤ 0) (merit : Merit α)
    {popLimit : Nat → Option Nat} (hlimit : ∀ pops, popLimit pops = none) (batch : Nat)
    (hfits : (search g merit popLimit batch s).1.arena.next ≤ UInt32.size) (i j : Nat)
    (A : NonTerminal) :
    IsMaximum (Derives g s i j A) ((search g merit popLimit batch s).1.inside i j A) := by
  have hrun : ∀ (t : Task α) (rounds : Nat), t.grammar = g → t.size = s.size →
      t.popLimit = (fun _ => none) → 0 < t.batch → maxRounds t ≤ rounds →
      (run t rounds (initial t (seed g s).1 (seed g s).2)).chart.arena.next ≤ UInt32.size →
      IsMaximum (Derives g s i j A)
        ((run t rounds (initial t (seed g s).1 (seed g s).2)).chart.inside i j A) := by
    intro t rounds hg ht hlimit hbatch hrounds hfits
    have hunl := unlimited_run hlimit (unlimited_initial t (seed g s).1 (seed g s).2) rounds
    have hempty := (run_maxRounds_ends hg ht hbatch hrounds rfl hfits).resolve_left
      (by rw [hunl.1]; exact Bool.false_ne_true)
    exact rounds_find_best hnonpos hg ht hlimit rounds rfl hempty hfits i j A
  rw [chart_search] at hfits ⊢
  exact hrun (searchTask g merit popLimit batch s) _ rfl rfl (funext hlimit)
    (Nat.lt_of_lt_of_le Nat.one_pos (Nat.le_max_right batch 1)) (Nat.le_refl _) hfits

end Monotone

end Agenda

/-- An agenda search that has ended before its last round stays as it is. -/
theorem Parser.search_of_ended {α : Type} [Score α] {p : Parser α} {s : Sentence}
    (hstrategy : p.options.strategy = .agenda) {t : Agenda.Task α}
    (ht : t = Agenda.searchTask p.grammar p.merit p.options.popLimit p.options.agendaBatch s)
    (rounds : Nat) {final : Agenda.State α}
    (hfinal : final = Agenda.run t rounds
      (Agenda.initial t (Agenda.seed p.grammar s).1 (Agenda.seed p.grammar s).2))
    (hrounds : rounds ≤ Agenda.maxRounds t)
    (hend : (final.done || final.queue.edges.isEmpty) = true) :
    (p.search s).chart = .slots final.chart ∧ (p.search s).stats.pops = final.pops := by
  have hlast := hfinal
  rw [hfinal] at hend
  rw [← Agenda.run_eq_of_le hrounds hend, ht] at hlast
  obtain ⟨hchart, hpops, -⟩ := Agenda.search_of_run hlast
  rw [search_agenda hstrategy]
  exact ⟨congrArg Chart.slots hchart, hpops⟩

end Constituency
