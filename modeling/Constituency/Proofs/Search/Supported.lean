import Mathlib
import Constituency.Proofs.Chart.Supported
import Constituency.Proofs.Search.Agenda.Seed
import Constituency.Proofs.Search.Exhaustive
import Constituency.Proofs.Search.Strategy

/-!
# Every search derives what it finds

Whatever the strategy, each entry of a searched chart records a rule over entries of the chart, and has
a derivation from them. A search may leave out entries and overwrite them, but it enters nothing that a
rule does not make from what it has entered before.
-/

namespace Constituency

variable {α : Type} [Score α] {g : Grammar α} {s : Sentence}
  {live : Nat → Nat → NonTerminal → Prop} {i j : Nat} {A : NonTerminal}

/-! ## Exhaustive search -/

namespace Exhaustive

variable [MonotoneScore α] {acc : Accumulator α} {c : Chart α} {cell : Scratch α} {e : Entry α}

theorem lexicalCell_recorded (hacc : acc.KeepsPossible) (g : Grammar α) (s : Sentence) (i : Nat) :
    (lexicalCell g acc s i).1.Recorded g s live i (i + 1) := by
  refine (Scratch.Recorded.empty g s live i (i + 1)).foldl_add hacc
    (fun _ => parent_lt_of_mem_lexicalEntries) fun e he hpos => ?_
  obtain ⟨p, word, hp, hc, hterm, rfl⟩ := mem_lexicalEntries.1 he
  exact .word hp hc hpos hterm

theorem filled_recorded (hacc : acc.KeepsPossible) (hc : c.Sound g) (s : Sentence) (i j : Nat)
    (inSegment : NonTerminal → Bool) :
    (filled g acc i j (binaryEntries g c i j inSegment)).Recorded g s c.Live i j := by
  refine (Scratch.Recorded.empty g s c.Live i j).foldl_add hacc
    (fun _ => parent_lt_of_mem_binaryEntries) fun e he hpos => ?_
  obtain ⟨m, p, B, C, l, r, him, hmj, -, hp, hpc, hl, hr, rfl⟩ := (mem_binaryEntries hc).1 he
  have hrule := (Score.impossible_lt_of_add (Score.impossible_lt_of_add hpos).1).1
  exact .binary hp hpc hrule ⟨him, hmj⟩ (Option.isSome_iff_exists.2 ⟨l, hl⟩)
    (Option.isSome_iff_exists.2 ⟨r, hr⟩)

/-- However many segments cross the cells, what they find records rules over the chart. -/
theorem crossCell_recorded (hacc : acc.KeepsPossible) (hc : c.Sound g) (s : Sentence)
    (count i j : Nat) : (crossCell g acc count c i j).1.Recorded g s c.Live i j := by
  unfold crossCell
  split
  · exact filled_recorded hacc hc s i j _
  · dsimp only
    refine (Scratch.Recorded.empty g s c.Live i j).foldl_merge hacc fun d hd => ?_
    obtain ⟨part, hpart, rfl⟩ := List.mem_map.1 hd
    obtain ⟨inSegment, -, rfl⟩ := List.mem_map.1 hpart
    exact filled_recorded hacc hc s i j inSegment

theorem unaryPass_upheld (hacc : acc.KeepsPossible) (h : cell.Upheld g s live i j) :
    (unaryPass g acc cell).1.Upheld g s live i j := by
  refine h.foldl_add hacc (fun _ => parent_lt_of_mem_unaryEntries) fun e he hpos => ?_
  obtain ⟨child, hchild, p, hp, hc, rfl⟩ := mem_unaryEntries.1 he
  obtain ⟨held, hheld, -⟩ := Scratch.get?_eq_some_iff.1 (Scratch.mem_entries.1 hchild)
  exact .unary hp hc (Score.impossible_lt_of_add hpos).1
    (.inr ⟨⟨h.start_eq.symm, h.stop_eq.symm⟩, Option.isSome_iff_exists.2 ⟨held, hheld⟩⟩)

/-- What is put into a cell before its unary rules are gone over. -/
theorem crossed_recorded (hacc : acc.KeepsPossible) (hc : c.Sound g) (s : Sentence) (count i j : Nat) :
    ((if j == i + 1 then lexicalCell g acc s i else crossCell g acc count c i j).1).Recorded
      g s c.Live i j := by
  split
  · next hone =>
    rw [beq_iff_eq] at hone
    exact hone ▸ lexicalCell_recorded hacc g s i
  · exact crossCell_recorded hacc hc s count i j

theorem fillCell_sustained (hacc : acc.KeepsPossible) (count : Nat) (stats : Stats) (hij : i < j)
    (hj : j ≤ s.size) (h : c.Sustained g s) :
    (fillCell g acc count s (c, stats) (i, j)).1.Sustained g s :=
  h.commit (unaryPass_upheld hacc (crossed_recorded hacc h.sound s count i j).upheld) hij hj

theorem fill_sustained (hacc : acc.KeepsPossible) (count : Nat) (h : c.Sustained g s) :
    (fill g acc count s c).1.Sustained g s := by
  refine spansUp_induction (P := fun _ (state : Chart α × Stats) => state.1.Sustained g s) h
    fun _ i j state hij hj _ _ _ hv => ?_
  exact fillCell_sustained hacc count state.2 hij hj hv

end Exhaustive

/-! ## Beam search -/

namespace Beam

variable {t : Task α} {c : Chart α} {cell : Scratch α} {st : CellState α} {e : Edge α}
  {queue rest : List (Edge α)} {best best' : α}

/-- A cell under way: what waits in its queue records rules over the chart and the cell. -/
structure CellInv (g : Grammar α) (s : Sentence) (c : Chart α) (i j : Nat) (st : CellState α) :
    Prop where
  upheld : st.cell.Upheld g s c.Live i j
  queued : ∀ e ∈ st.queue, (e.start = i ∧ e.stop = j) ∧ (Score.impossible < e.inside →
    Records g s (st.cell.among c.Live) e.backpointer i j e.nonterminal)

theorem mem_unaryEdges {start stop : Nat} {child : NonTerminal} {inside : α} :
    e ∈ unaryEdges t start stop child inside ↔ ∃ p ∈ t.grammar.productions,
      p.children = .unary child ∧
        t.edge start stop ⟨p.parent, p.logProb + inside, .unary child⟩ = e := by
  simp only [unaryEdges, List.mem_map, Grammar.mem_byUnaryChild, and_assoc]

/-- What an edge has to improve upon. -/
def present (c : Chart α) (cell : Scratch α) (e : Edge α) : α :=
  Score.best (cell.inside e.nonterminal) (c.inside e.start e.stop e.nonterminal)

/-- The next improvement, and what has been dropped before it. -/
theorem nextImprovement_eq_some
    (h : nextImprovement t c cell best queue = some (e, rest, best')) :
    ∃ dropped, queue = dropped ++ e :: rest ∧ (∀ d ∈ dropped, d.inside ≤ present c cell d) ∧
      ¬ e.inside ≤ present c cell e := by
  induction queue generalizing best with
  | nil => cases h
  | cons x xs ih =>
    unfold nextImprovement at h
    split at h
    · cases h
    · dsimp only at h
      split at h
      · next hle =>
        obtain ⟨dropped, rfl, hdropped, himp⟩ := ih h
        refine ⟨x :: dropped, rfl, fun d hd => ?_, himp⟩
        rcases List.mem_cons.1 hd with rfl | hd
        · exact hle
        · exact hdropped d hd
      · next himp =>
        simp only [Option.some.injEq, Prod.mk.injEq] at h
        obtain ⟨rfl, rfl, -⟩ := h
        exact ⟨[], rfl, fun d hd => (by cases hd), himp⟩

variable [MonotoneScore α]

theorem records_of_mem_unaryEdges {child : NonTerminal} {inside : α} (hg : t.grammar = g)
    (hchild : live i j child) (he : e ∈ unaryEdges t i j child inside) :
    (e.start = i ∧ e.stop = j) ∧
      (Score.impossible < e.inside → Records g s live e.backpointer i j e.nonterminal) := by
  subst hg
  obtain ⟨p, hp, hc, rfl⟩ := mem_unaryEdges.1 he
  exact ⟨⟨rfl, rfl⟩, fun hpos => .unary hp hc (Score.impossible_lt_of_add hpos).1 hchild⟩

theorem commitEdge_inv (hg : t.grammar = g) (h : CellInv g s c i j st) (he : e ∈ st.queue)
    (hrest : ∀ e' ∈ rest, e' ∈ st.queue) (hpos : Score.impossible < e.inside) (best : α) :
    CellInv g s c i j (commitEdge t st e rest best) := by
  obtain ⟨⟨hstart, hstop⟩, hrecords⟩ := h.queued e he
  have hnt := (hrecords hpos).nt_lt
  have hgrown : ∀ k l B, st.cell.among c.Live k l B → (st.cell.add .best e.toEntry).among c.Live k l B :=
    Scratch.among_add h.upheld.toShaped hnt
  have hadd : (st.cell.add .best e.toEntry).Upheld g s c.Live i j :=
    h.upheld.add Accumulator.keepsPossible_best hnt hrecords
  refine ⟨hadd, fun e' he' => ?_⟩
  rcases Agenda.mem_insertAll.1 he' with he' | he'
  · rw [hstart, hstop] at he'
    refine records_of_mem_unaryEdges hg (.inr ⟨⟨?_, ?_⟩, ?_⟩) he'
    · exact hadd.start_eq.symm
    · exact hadd.stop_eq.symm
    · exact (Scratch.isSome_find?_add (h.upheld.size_eq ▸ hnt)).2
        (.inl ⟨rfl, Score.admissible_iff.2 hpos⟩)
  · obtain ⟨hspan, hrecords'⟩ := h.queued e' (hrest e' he')
    exact ⟨hspan, fun hpos' => (hrecords' hpos').mono hgrown⟩

theorem commitBest_inv (hg : t.grammar = g) (width : Nat) (h : CellInv g s c i j st) :
    CellInv g s c i j (commitBest t c width st) := by
  induction width generalizing st with
  | zero => exact h
  | succ width ih =>
    unfold commitBest
    split
    · exact h
    · next e rest best hnext =>
      obtain ⟨dropped, hqueue, -, himp⟩ := nextImprovement_eq_some hnext
      have hpos := Score.lt_of_le_of_lt (Score.impossible_le _) (Score.not_le.1 himp)
      refine ih (commitEdge_inv hg h (by simp [hqueue]) (fun e' he' => ?_) hpos best)
      simp [hqueue, he']

/-- The candidates of a cell record rules over the chart. -/
theorem records_of_mem_candidates (hg : t.grammar = g) (h : c.Sound g) (s : Sentence)
    (segments : Nat) (he : e ∈ (candidates t segments c i j).1) :
    (e.start = i ∧ e.stop = j) ∧
      (Score.impossible < e.inside → Records g s c.Live e.backpointer i j e.nonterminal) := by
  unfold candidates at he
  split at he
  · obtain ⟨child, hchild, he⟩ := List.mem_flatMap.1 he
    refine records_of_mem_unaryEdges hg ?_ he
    rw [Chart.Live, (Chart.mem_entries h).1 hchild]
    rfl
  · subst hg
    obtain ⟨e', he', rfl⟩ := List.mem_map.1 he
    refine ⟨⟨rfl, rfl⟩, fun _ => ?_⟩
    have hcell := Exhaustive.crossCell_recorded Accumulator.keepsPossible_best h s
      segments i j
    obtain ⟨held, hheld, heq⟩ := Scratch.get?_eq_some_iff.1 (Scratch.mem_entries.1 he')
    have hrecords := hcell.recorded _ held hheld
    rw [heq]
    exact hrecords

theorem opened_inv (hg : t.grammar = g) (segments : Nat) {st : State α} (h : st.chart.Sound g)
    (s : Sentence) (i j : Nat) : CellInv g s st.chart i j (opened t segments st i j) := by
  subst hg
  refine ⟨(Scratch.Recorded.empty _ s st.chart.Live i j).upheld, fun e he => ?_⟩
  have hmem : e ∈ (candidates t segments st.chart i j).1 := by
    rcases Agenda.mem_insertAll.1 he with he | he
    · exact he
    · cases he
  obtain ⟨hspan, hrecords⟩ := records_of_mem_candidates rfl h s segments hmem
  exact ⟨hspan, fun hpos => (hrecords hpos).mono fun _ _ _ hA => .inl hA⟩

theorem fillCell_sustained (hg : t.grammar = g) (segments : Nat) {st : State α} (hij : i < j)
    (hj : j ≤ s.size) (h : st.chart.Sustained g s) :
    (fillCell t segments st (i, j)).chart.Sustained g s :=
  h.commit (commitBest_inv hg t.width (opened_inv hg segments h.sound s i j)).upheld hij hj

theorem commitWords_sustained (h : c.Sustained g s) : (commitWords g s c).1.Sustained g s := by
  unfold commitWords
  refine foldl_prefix_induction (P := fun _ (state : Chart α × Stats) => state.1.Sustained g s)
    (List.range s.size) (fun visited i rest state hsplit hv => ?_) h
  have hi : i ∈ List.range s.size := by
    rw [hsplit]
    simp
  have hcell : (Exhaustive.lexicalCell g .best s i).1.Recorded g s state.1.Live i (i + 1) :=
    Exhaustive.lexicalCell_recorded Accumulator.keepsPossible_best g s i
  exact hv.commit hcell.upheld (Nat.lt_succ_self i) (List.mem_range.1 hi)

theorem search_sustained (merit : Merit α) (width : Nat) (delta : α) (segments : Nat)
    (summing : Bool) (h : c.Sustained g s) :
    (search g merit width delta segments summing s c).chart.Sustained g s := by
  unfold search
  dsimp only
  refine spansUp_induction (P := fun _ (st : State α) => st.chart.Sustained g s)
    (commitWords_sustained h) fun _ i j st hij hj _ _ _ hv => ?_
  exact fillCell_sustained (g := g) rfl segments hij hj hv

end Beam

/-! ## Agenda search -/

namespace Agenda

variable [MonotoneScore α] {t : Task α} {c : SlotChart α} {st st' : State α} {e : Edge α}

/-- A sound chart of slots for a sentence whose entries record rules over its entries, and have
derivations from them. Entries that a full arena refuses are not missed. -/
structure Held (g : Grammar α) (s : Sentence) (c : SlotChart α) : Prop where
  sound : c.Sound g
  size_eq : c.size = s.size
  records : ∀ i j A e, c.get? i j A = some e →
    Records g s (Chart.slots c).Live e.backpointer i j A
  supported : LosslessScore α → Supported g s (Chart.slots c).Live

omit [MonotoneScore α] in
theorem Held.bounds (h : Held g s c) (i j : Nat) (A : NonTerminal)
    (hA : (Chart.slots c).Live i j A) : i < j ∧ j ≤ s.size := by
  obtain ⟨e, he⟩ := Option.isSome_iff_exists.1 hA
  obtain ⟨hij, hj, -⟩ := h.sound.bounds he
  exact ⟨hij, h.size_eq ▸ hj⟩

omit [MonotoneScore α] in
theorem Held.upheld (h : Held g s c) : (Chart.slots c).Upheld g s :=
  ⟨⟨h.sound, h.size_eq, fun _ => h.records⟩, fun hlossless _ => h.supported hlossless⟩

theorem Held.sustained (h : Held g s c) : (Chart.slots c).Sustained g s where
  toUpheld := h.upheld
  possible i j A e he := by
    rw [← h.sound.inside_of_get? he]
    exact h.sound.possible_iff.2 ⟨e, he⟩

/-- An entry that records a rule may be offered, and no entry is lost by that. -/
theorem Held.install {e : Entry α} (h : Held g s c)
    (he : Score.impossible < e.inside →
      Records g s (Chart.slots c).Live e.backpointer i j e.nonterminal) :
    Held g s (c.install i j e).2 ∧
      (∀ k l B, (Chart.slots c).Live k l B → (Chart.slots (c.install i j e).2).Live k l B) ∧
      ((c.install i j e).1 = true → (c.install i j e).2.get? i j e.nonterminal = some e) := by
  by_cases hpos : Score.impossible < e.inside
  · have hrecords := he hpos
    obtain ⟨hij, hj⟩ := hrecords.bounds h.bounds
    obtain ⟨hsound, hcases⟩ :=
      SlotChart.install_changes h.sound hij (h.size_eq ▸ hj) hrecords.nt_lt
    have hsize := (SlotChart.size_install c i j e).trans h.size_eq
    rcases hcases with ⟨hfailed, hget⟩ | ⟨-, -, hget⟩
    · have hlive : ∀ k l B, (Chart.slots (c.install i j e).2).Live k l B ↔
          (Chart.slots c).Live k l B := by
        intro k l B
        show ((c.install i j e).2.get? k l B).isSome = true ↔ _
        rw [hget]
        rfl
      refine ⟨⟨hsound, hsize, fun k l B e' he' => ?_, fun hl => (h.supported hl).congr hlive⟩,
        fun k l B => (hlive k l B).2, fun hdone => by rw [hfailed] at hdone; cases hdone⟩
      rw [hget] at he'
      exact (h.records k l B e' he').mono fun k l B => (hlive k l B).2
    · have hlive : ∀ k l B, (Chart.slots (c.install i j e).2).Live k l B ↔
          (k = i ∧ l = j ∧ B = e.nonterminal) ∨ (Chart.slots c).Live k l B := by
        intro k l B
        show ((c.install i j e).2.get? k l B).isSome = true ↔ _
        rw [hget]
        split
        · next heq => simp [heq]
        · next hne => simp [hne, Chart.Live, Chart.get?]
      have hkept : ∀ k l B, (Chart.slots c).Live k l B →
          (Chart.slots (c.install i j e).2).Live k l B := fun k l B hB => (hlive k l B).2 (.inr hB)
      refine ⟨⟨hsound, hsize, fun k l B e' he' => ?_, fun hl => ?_⟩, hkept, fun _ => ?_⟩
      · rw [hget] at he'
        split at he'
        · next heq =>
          obtain ⟨rfl, rfl, rfl⟩ := heq
          obtain rfl := Option.some.inj he'
          exact hrecords.mono hkept
        · exact (h.records k l B e' he').mono hkept
      · refine (h.supported hl).extend hkept fun k l B hB => ?_
        rcases (hlive k l B).1 hB with ⟨rfl, rfl, rfl⟩ | hB
        · exact .inr ⟨_, hrecords⟩
        · exact .inl hB
      · rw [hget, if_pos ⟨rfl, rfl, rfl⟩]
  · have hrefused : c.install i j e = (false, c) := by
      rw [← Score.admissible_iff, Bool.not_eq_true] at hpos
      exact SlotChart.install_of_not (by simp [hpos])
    rw [hrefused]
    exact ⟨h, fun k l B hB => hB, fun hdone => by cases hdone⟩

/-- What is queued over an entry records a rule. -/
theorem records_of_mem_frontier (hg : t.grammar = g) (h : Held g s c)
    (hA : (Chart.slots c).Live i j A) (he : e ∈ frontier t c i j A (c.inside i j A)) :
    Records g s (Chart.slots c).Live e.backpointer e.start e.stop e.nonterminal := by
  subst hg
  have hpos := h.sound.possible_iff.2 (Option.isSome_iff_exists.1 hA)
  obtain ⟨happ, himp⟩ := application_of_mem_frontier (s := s) hpos he
  refine happ.records (Score.lt_of_le_of_lt (Score.impossible_le _) himp)
    (fun k l B hB => Option.isSome_iff_exists.2 (h.sound.possible_iff.1 hB)) fun k l B hB => ?_
  exact (h.bounds k l B (Option.isSome_iff_exists.2 (h.sound.possible_iff.1 hB))).1

/-- An edge that records a rule over a chart. -/
def Supplies (g : Grammar α) (s : Sentence) (c : SlotChart α) (e : Edge α) : Prop :=
  Records g s (Chart.slots c).Live e.backpointer e.start e.stop e.nonterminal

/-- A search under way: what waits in its queue records rules. -/
structure Supplied (g : Grammar α) (s : Sentence) (st : State α) : Prop extends
    Held g s st.chart where
  queued : ∀ e ∈ st.queue.edges, Supplies g s st.chart e

omit [MonotoneScore α] in
theorem Supplies.bounds (he : Supplies g s c e) (h : Held g s c) :
    e.start < e.stop ∧ e.stop ≤ s.size ∧ e.nonterminal < g.numNonterminals := by
  obtain ⟨hij, hj⟩ := Records.bounds he h.bounds
  exact ⟨hij, hj, Records.nt_lt he⟩

theorem process_supplied (hg : t.grammar = g) (h : Supplied g s st)
    (he : Supplies g s st.chart e) :
    Supplied g s (process t st e) ∧ ∀ e', Supplies g s st.chart e' →
      Supplies g s (process t st e).chart e' := by
  obtain ⟨hheld, hkept, hfound⟩ := h.toHeld.install fun _ => he
  rw [← chart_process t] at hheld hkept
  have hlater : ∀ e', Supplies g s st.chart e' → Supplies g s (process t st e).chart e' :=
    fun e' he' => Records.mono hkept he'
  refine ⟨⟨hheld, fun e' he' => ?_⟩, hlater⟩
  rw [queue_process] at he'
  split at he'
  · next hdone =>
    rcases mem_insertAll.1 he' with he' | he'
    · have hget := hfound hdone
      rw [← chart_process t] at hget he'
      rw [← hheld.sound.inside_of_get? hget] at he'
      refine records_of_mem_frontier hg hheld (i := e.start) (j := e.stop) ?_ he'
      exact Option.isSome_iff_exists.2 ⟨_, hget⟩
    · exact hlater e' (h.queued e' he')
  · exact hlater e' (h.queued e' he')

theorem processBatch_supplied (hg : t.grammar = g) {batch : List (Edge α)}
    (h : Supplied g s st) (hbatch : ∀ e ∈ batch, Supplies g s st.chart e) :
    Supplied g s (processBatch t st batch) := by
  induction batch generalizing st with
  | nil => exact h
  | cons e rest ih =>
    rw [processBatch, List.foldl_cons]
    split
    · exact ih h fun e' he' => hbatch e' (List.mem_cons_of_mem _ he')
    · obtain ⟨hnext, hlater⟩ := process_supplied hg h (hbatch e List.mem_cons_self)
      exact ih hnext fun e' he' => hlater e' (hbatch e' (List.mem_cons_of_mem _ he'))

theorem rounds_supplied (hg : t.grammar = g) (rounds : Nat) (h : Supplied g s st) :
    Supplied g s (run t rounds st) := by
  induction rounds generalizing st with
  | zero => exact h
  | succ rounds ih =>
    unfold run
    split
    · exact h
    · refine ih (processBatch_supplied hg ⟨h.toHeld, fun e he => ?_⟩ fun e he => ?_)
      · exact h.queued e (List.mem_of_mem_drop he)
      · exact h.queued e (List.mem_of_mem_take he)

/-- The same however the edges are taken off the queue. -/
theorem run_supplied (hg : t.grammar = g) (h : Supplied g s st) (hrun : Run t st st') :
    Supplied g s st' := by
  induction hrun with
  | refl => exact h
  | @tail st _ _ hstep ih =>
    obtain ⟨e, rest, hperm, rfl⟩ := hstep
    have hqueued : ∀ e' ∈ e :: rest, Supplies g s st.chart e' :=
      fun e' he' => ih.queued e' (hperm.mem_iff.2 he')
    have htaken : Supplied g s { st with queue := ⟨rest⟩ } :=
      ⟨ih.toHeld, fun e' he' => hqueued e' (List.mem_cons_of_mem _ he')⟩
    exact (process_supplied hg htaken (hqueued e List.mem_cons_self)).1

theorem seed_held (g : Grammar α) (s : Sentence) :
    Held g s (seed g s).1 ∧
      ∀ i A, (i, A) ∈ (seed g s).2 → (Chart.slots (seed g s).1).Live i (i + 1) A := by
  have hnone := SlotChart.get?_empty s.size g
  refine foldl_prefix_induction (P := fun _ (state : SlotChart α × List (Nat × NonTerminal)) =>
    Held g s state.1 ∧ ∀ i A, (i, A) ∈ state.2 → (Chart.slots state.1).Live i (i + 1) A)
    (lexicalEntries g s) (fun visited x rest state hsplit hv => ?_) ?_
  · obtain ⟨i, e⟩ := x
    obtain ⟨hheld, hseeds⟩ := hv
    have hmem : (i, e) ∈ lexicalEntries g s := by
      rw [hsplit]
      simp
    obtain ⟨hnext, hkept, hfound⟩ := hheld.install (i := i) (j := i + 1) (e := e) fun hpos => by
      obtain ⟨p, word, hp, hc, hterm, rfl⟩ := mem_lexicalEntries.1 hmem
      exact .word hp hc hpos hterm
    rw [chart_seedStep, seeds_seedStep]
    refine ⟨hnext, fun k B hB => ?_⟩
    split at hB
    · next hdone =>
      rcases List.mem_append.1 hB with hB | hB
      · exact hkept k (k + 1) B (hseeds k B hB)
      · obtain ⟨rfl, rfl⟩ := Prod.mk.inj (List.mem_singleton.1 hB)
        exact Option.isSome_iff_exists.2 ⟨e, hfound hdone⟩
    · exact hkept k (k + 1) B (hseeds k B hB)
  · refine ⟨⟨SlotChart.sound_empty s.size g, rfl, fun i j A e he => ?_, fun _ i j A hA => ?_⟩,
      fun i A hi => by cases hi⟩
    · rw [hnone] at he
      cases he
    · rw [Chart.Live, Chart.get?, hnone] at hA
      cases hA

theorem initial_supplied (hg : t.grammar = g) (s : Sentence) :
    Supplied g s (initial t (seed g s).1 (seed g s).2) := by
  obtain ⟨hheld, hseeds⟩ := seed_held g s
  obtain ⟨hchart, hqueue⟩ := initial_spec t (seed g s).1 (seed g s).2
  refine ⟨by rwa [hchart], fun e he => ?_⟩
  obtain ⟨i, A, hmem, he⟩ := (hqueue e).1 he
  rw [hchart]
  exact records_of_mem_frontier hg hheld (hseeds i A hmem) he

/-- Whatever the figure of merit, however the search is limited. -/
theorem search_held (g : Grammar α) (s : Sentence) (merit : Merit α)
    (popLimit : Nat → Option Nat) (batch : Nat) :
    Held g s (search g merit popLimit batch s).1 := by
  have hg : (searchTask g merit popLimit batch s).grammar = g := rfl
  rw [chart_search]
  exact (rounds_supplied hg _ (initial_supplied hg s)).toHeld

end Agenda

/-! ## Any search -/

namespace Parser

theorem sustained_emptyChart (g : Grammar α) (s : Sentence) (storage : Storage) :
    (emptyChart g storage s.size).Sustained g s := by
  refine ⟨⟨⟨sound_emptyChart g storage s.size, size_emptyChart g storage s.size,
    fun _ i j A e he => ?_⟩, fun _ _ i j A hA => ?_⟩, fun i j A e he => ?_⟩
  · rw [get?_emptyChart] at he
    cases he
  · rw [Chart.Live, get?_emptyChart] at hA
    cases hA
  · rw [get?_emptyChart] at he
    cases he

/-- In the chart of any search each entry has a possible score, records a rule over entries of the chart
and has a derivation from them; the latter two, unless the numbers of its arena have run out. -/
theorem search_sustained [MonotoneScore α] (p : Parser α)
    (hsums : p.options.strategy = .exhaustive → p.options.accumulator.KeepsPossible)
    (s : Sentence) : (p.search s).chart.Sustained p.grammar s := by
  have hempty := sustained_emptyChart p.grammar s p.options.storage
  cases h : p.options.strategy with
  | exhaustive =>
    rw [search_exhaustive h]
    exact Exhaustive.fill_sustained (hsums h) p.options.segments hempty
  | agenda =>
    rw [chart_search_agenda h]
    exact (Agenda.search_held p.grammar s p.merit p.options.popLimit
      p.options.agendaBatch).sustained
  | beam =>
    rw [search_beam h]
    exact Beam.search_sustained p.merit _ _ _ _ hempty

theorem search_upheld [MonotoneScore α] (p : Parser α)
    (hsums : p.options.strategy = .exhaustive → p.options.accumulator.KeepsPossible)
    (s : Sentence) : (p.search s).chart.Upheld p.grammar s :=
  (p.search_sustained hsums s).toUpheld

/-- The chart of an agenda search has no arena. -/
theorem search_records [MonotoneScore α] (p : Parser α)
    (hsums : p.options.strategy = .exhaustive → p.options.accumulator.KeepsPossible)
    (s : Sentence) (hfits : p.options.strategy = .agenda ∨ (p.search s).chart.Fits) (i j : Nat)
    (A : NonTerminal) (e : Entry α) (he : (p.search s).chart.get? i j A = some e) :
    Records p.grammar s (p.search s).chart.Live e.backpointer i j A := by
  rcases hfits with hagenda | hfits
  · rw [chart_search_agenda hagenda] at he ⊢
    exact (Agenda.search_held p.grammar s p.merit p.options.popLimit p.options.agendaBatch).records
      i j A e he
  · exact (p.search_upheld hsums s).records hfits i j A e he

theorem search_supported [LosslessScore α] (p : Parser α)
    (hsums : p.options.strategy = .exhaustive → p.options.accumulator.KeepsPossible)
    (s : Sentence) (hfits : p.options.strategy = .agenda ∨ (p.search s).chart.Fits) :
    Supported p.grammar s (p.search s).chart.Live := by
  rcases hfits with hagenda | hfits
  · rw [chart_search_agenda hagenda]
    exact (Agenda.search_held p.grammar s p.merit p.options.popLimit
      p.options.agendaBatch).supported inferInstance
  · exact (p.search_upheld hsums s).supported inferInstance hfits

end Parser

end Constituency
