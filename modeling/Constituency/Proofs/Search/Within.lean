import Constituency.Proofs.Search.Supported

/-!
# What rules can make

A search enters what some rule makes, of a word or of entries before it. So what holds of all that the rules
make of words, and of places that it holds of itself, holds of each entry of a searched chart and of each
derivation in its merit table (`RuleClosed`, `Parser.search_within`). Nothing is asked of scores, and so this
holds of rounded numbers, of values that are no number, and of charts whose arena has run out of numbers.
-/

namespace Constituency

variable {α : Type} [Score α] {g : Grammar α} {s : Sentence}
  {reach : Nat → Nat → NonTerminal → Prop} {allowed : Nat → Nat → NonTerminal → Backpointer → Prop}
  {i j : Nat}

/-- Whatever a rule makes of a word or of places in reach is allowed, and a place is in reach if anything is
allowed there. -/
structure RuleClosed (g : Grammar α) (s : Sentence) (reach : Nat → Nat → NonTerminal → Prop)
    (allowed : Nat → Nat → NonTerminal → Backpointer → Prop) : Prop where
  word {i : Nat} {p : Production α} {w : Terminal} : p ∈ g.productions → p.children = .lexical w →
    s.terminal? i = some w → Score.admissible p.logProb = true →
      allowed i (i + 1) p.parent (.lexical w)
  unary {i j : Nat} {p : Production α} {B : NonTerminal} : p ∈ g.productions →
    p.children = .unary B → reach i j B → allowed i j p.parent (.unary B)
  binary {i m j : Nat} {p : Production α} {B C : NonTerminal} : p ∈ g.productions →
    p.children = .binary B C → reach i m B → reach m j C → allowed i j p.parent (.binary B C m)
  reached {i j : Nat} {A : NonTerminal} {b : Backpointer} : allowed i j A b → reach i j A
  /-- If an impossible score lies above itself, then empty places pass for neighbours. -/
  empty {i j : Nat} {A : NonTerminal} : (Score.impossible : α) < Score.impossible → reach i j A

/-- Where all is allowed, nothing is kept but the shape of charts, cells and edges. -/
theorem ruleClosed_all (g : Grammar α) (s : Sentence) :
    RuleClosed g s (fun _ _ _ => True) fun _ _ _ _ => True where
  word _ _ _ _ := trivial
  unary _ _ _ := trivial
  binary _ _ _ _ := trivial
  reached _ := trivial
  empty _ := trivial

/-! ## Cells and charts -/

namespace Scratch

variable {acc : Accumulator α} {cell : Scratch α} {entries : List (Entry α)}

/-- A cell for a span with allowed entries only. -/
structure Within (g : Grammar α) (allowed : Nat → Nat → NonTerminal → Backpointer → Prop)
    (i j : Nat) (cell : Scratch α) : Prop extends cell.Shaped g i j where
  within : cell.All (allowed i j)

namespace Within

omit [Score α] in
theorem empty (g : Grammar α) (allowed : Nat → Nat → NonTerminal → Backpointer → Prop)
    (i j : Nat) : (Scratch.empty i j g.numNonterminals : Scratch α).Within g allowed i j where
  toShaped := shaped_empty g i j
  within := all_empty i j _

theorem add {e : Entry α} (h : cell.Within g allowed i j) (hnt : e.nonterminal < g.numNonterminals)
    (he : allowed i j e.nonterminal e.backpointer) : (cell.add acc e).Within g allowed i j where
  toShaped := h.toShaped.add
  within := h.within.add (h.size_eq ▸ hnt) fun _ => he

theorem foldl_add (h : cell.Within g allowed i j)
    (hnt : ∀ e ∈ entries, e.nonterminal < g.numNonterminals)
    (he : ∀ e ∈ entries, Score.admissible e.inside = true →
      allowed i j e.nonterminal e.backpointer) :
    (entries.foldl (Scratch.add acc) cell).Within g allowed i j where
  toShaped := h.toShaped.foldl_add
  within := h.within.foldl_add (fun e hmem => h.size_eq ▸ hnt e hmem) he

theorem foldl_merge {cells : List (Scratch α)} (h : cell.Within g allowed i j)
    (hcells : ∀ c ∈ cells, c.Within g allowed i j) :
    (cells.foldl (Scratch.merge acc) cell).Within g allowed i j := by
  have hcells' := fun c hc => And.intro (hcells c hc).toShaped (hcells c hc).within
  exact ⟨(h.toShaped.foldl_merge_all h.within hcells').1,
    (h.toShaped.foldl_merge_all h.within hcells').2⟩

omit [Score α] in
theorem of_mem_entries (h : cell.Within g allowed i j) {e : Entry α} (he : e ∈ cell.entries) :
    allowed i j e.nonterminal e.backpointer := by
  obtain ⟨held, hheld, heq⟩ := get?_eq_some_iff.1 (mem_entries.1 he)
  rw [heq]
  exact h.within _ held hheld

end Within

end Scratch

/-- A sound chart for a sentence with allowed entries only. -/
structure Chart.Within (g : Grammar α) (s : Sentence)
    (allowed : Nat → Nat → NonTerminal → Backpointer → Prop) (c : Chart α) : Prop where
  sound : c.Sound g
  size_eq : c.size = s.size
  within : ∀ i j A e, c.get? i j A = some e → allowed i j A e.backpointer

namespace Chart.Within

variable {c : Chart α}

theorem of_mem_entries (h : c.Within g s allowed) {e : Entry α} (he : e ∈ c.entries i j) :
    allowed i j e.nonterminal e.backpointer :=
  h.within i j _ e ((Chart.mem_entries h.sound).1 he)

theorem commit {cell : Scratch α} (h : c.Within g s allowed) (hcell : cell.Within g allowed i j)
    (hij : i < j) (hj : j ≤ s.size) : (c.commit cell).Within g s allowed := by
  have hj' : j ≤ c.size := h.size_eq ▸ hj
  obtain ⟨hsound, hsize⟩ := Chart.sound_commit h.sound hcell.toShaped hij hj'
  refine ⟨hsound, hsize.trans h.size_eq, fun k l A e he => ?_⟩
  rcases Chart.get?_commit_cases h.sound hcell.toShaped hij hj' he with hold | ⟨⟨rfl, rfl⟩, hnew⟩
  · exact h.within k l A e hold
  · obtain ⟨held, hheld, rfl⟩ := Scratch.get?_eq_some_iff.1 hnew
    exact hcell.within A held hheld

end Chart.Within

/-! ## Exhaustive search -/

namespace Exhaustive

variable {acc : Accumulator α} {c : Chart α} {cell : Scratch α} {inSegment : NonTerminal → Bool}

theorem lexicalCell_within (hclosed : RuleClosed g s reach allowed) (acc : Accumulator α)
    (i : Nat) : (lexicalCell g acc s i).1.Within g allowed i (i + 1) := by
  refine (Scratch.Within.empty g allowed i (i + 1)).foldl_add
    (fun _ => parent_lt_of_mem_lexicalEntries) fun e he hadm => ?_
  obtain ⟨p, word, hp, hpc, hword, rfl⟩ := mem_lexicalEntries.1 he
  exact hclosed.word hp hpc hword hadm

theorem filled_within (hclosed : RuleClosed g s reach allowed) (hc : c.Within g s allowed) :
    (filled g acc i j (binaryEntries g c i j inSegment)).Within g allowed i j := by
  refine (Scratch.Within.empty g allowed i j).foldl_add
    (fun _ => parent_lt_of_mem_binaryEntries) fun e he _ => ?_
  obtain ⟨m, p, B, C, l, r, -, -, -, hp, hpc, hl, hr, rfl⟩ := (mem_binaryEntries hc.sound).1 he
  exact hclosed.binary hp hpc (hclosed.reached (hc.within _ _ _ _ hl))
    (hclosed.reached (hc.within _ _ _ _ hr))

theorem crossCell_within (hclosed : RuleClosed g s reach allowed) (hc : c.Within g s allowed)
    (acc : Accumulator α) (count i j : Nat) :
    (crossCell g acc count c i j).1.Within g allowed i j := by
  unfold crossCell
  split
  · exact filled_within hclosed hc
  · refine (Scratch.Within.empty g allowed i j).foldl_merge fun d hd => ?_
    obtain ⟨part, hpart, rfl⟩ := List.mem_map.1 hd
    obtain ⟨inSegment, -, rfl⟩ := List.mem_map.1 hpart
    exact filled_within hclosed hc

theorem unaryPass_within (hclosed : RuleClosed g s reach allowed)
    (h : cell.Within g allowed i j) : (unaryPass g acc cell).1.Within g allowed i j := by
  refine h.foldl_add (fun _ => parent_lt_of_mem_unaryEntries) fun e he _ => ?_
  obtain ⟨child, hchild, p, hp, hpc, rfl⟩ := mem_unaryEntries.1 he
  exact hclosed.unary hp hpc (hclosed.reached (h.of_mem_entries hchild))

theorem fill_within (hclosed : RuleClosed g s reach allowed) (acc : Accumulator α)
    (count : Nat) (h : c.Within g s allowed) : (fill g acc count s c).1.Within g s allowed := by
  refine spansUp_induction (P := fun _ (state : Chart α × Stats) => state.1.Within g s allowed) h
    fun _ i j state hij hj _ _ _ hv => ?_
  have hcell : ((if j == i + 1 then lexicalCell g acc s i
      else crossCell g acc count state.1 i j).1).Within g allowed i j := by
    split
    · next hone =>
      rw [beq_iff_eq] at hone
      exact hone ▸ lexicalCell_within hclosed acc i
    · exact crossCell_within hclosed hv acc count i j
  exact hv.commit (unaryPass_within hclosed hcell) hij hj

end Exhaustive

/-! ## Merit tables -/

namespace MeritTable

variable {t : MeritTable α}

/-- A merit table for a sentence with allowed derivations only. -/
structure Within (s : Sentence) (allowed : Nat → Nat → NonTerminal → Backpointer → Prop)
    (t : MeritTable α) : Prop where
  size_eq : t.cells.size = s.size
  within : ∀ i j A b, t.backpointer? i j A = some b → allowed i j A b

omit [Score α] in
@[simp] theorem find?_empty (size numNonterminals : Nat) (summing : Bool) (A : NonTerminal) :
    (empty size numNonterminals summing : MeritTable α).find? i j A = none := by
  rw [find?, empty, StrideTable.find?_make]

omit [Score α] in
theorem within_empty (s : Sentence) (numNonterminals : Nat) (summing : Bool) :
    (empty s.size numNonterminals summing : MeritTable α).Within s allowed := by
  refine ⟨rfl, fun i j A b hb => ?_⟩
  rw [backpointer?, find?_empty] at hb
  cases hb

/-- What an update leaves in the table was there before or has been offered. -/
theorem backpointer?_update {A B : NonTerminal} {merit : α} {b b' : Backpointer} {k l : Nat}
    (h : (t.update i j A merit b).2.backpointer? k l B = some b') :
    t.backpointer? k l B = some b' ∨ ((k = i ∧ l = j) ∧ B = A) ∧ b' = b := by
  unfold update at h
  split at h
  · exact .inl h
  · split at h
    · obtain ⟨e, he, rfl⟩ := Option.map_eq_some_iff.1 h
      rcases StrideTable.find?_of_set he with hold | ⟨hplace, rfl⟩
      · exact .inl (Option.map_eq_some_iff.2 ⟨e, hold, rfl⟩)
      · exact .inr ⟨hplace, rfl⟩
    · exact .inl h

theorem Within.update (h : t.Within s allowed) {A : NonTerminal} {b : Backpointer} (merit : α)
    (hb : allowed i j A b) : (t.update i j A merit b).2.Within s allowed := by
  refine ⟨?_, fun k l B b' hb' => ?_⟩
  · rw [← h.size_eq]
    unfold MeritTable.update
    split
    · rfl
    · split
      · exact StrideTable.size_set ..
      · rfl
  · rcases backpointer?_update hb' with hold | ⟨⟨⟨rfl, rfl⟩, rfl⟩, rfl⟩
    · exact h.within k l B b' hold
    · exact hb

end MeritTable

/-! ## Beam search -/

namespace Beam

variable {t : Task α} {c : Chart α} {st : CellState α} {e : Edge α} {rest : List (Edge α)}

/-- An allowed edge over a span. -/
structure EdgeWithin (g : Grammar α) (allowed : Nat → Nat → NonTerminal → Backpointer → Prop)
    (i j : Nat) (e : Edge α) : Prop where
  start_eq : e.start = i
  stop_eq : e.stop = j
  nt_lt : e.nonterminal < g.numNonterminals
  within : allowed i j e.nonterminal e.backpointer

/-- A cell under way, with the merit table. -/
structure CellWithin (g : Grammar α) (s : Sentence)
    (allowed : Nat → Nat → NonTerminal → Backpointer → Prop) (i j : Nat) (st : CellState α) :
    Prop where
  cell : st.cell.Within g allowed i j
  queue : ∀ e ∈ st.queue, EdgeWithin g allowed i j e
  table : st.table.Within s allowed

theorem within_of_mem_unaryEdges (hclosed : RuleClosed g s reach allowed) (hg : t.grammar = g)
    {child : NonTerminal} {inside : α} (hchild : reach i j child)
    (he : e ∈ unaryEdges t i j child inside) : EdgeWithin g allowed i j e := by
  subst hg
  obtain ⟨p, hp, hpc, rfl⟩ := mem_unaryEdges.1 he
  exact ⟨rfl, rfl, Grammar.parent_lt hp, hclosed.unary hp hpc hchild⟩

theorem commitEdge_within (hclosed : RuleClosed g s reach allowed) (hg : t.grammar = g)
    (h : CellWithin g s allowed i j st) (he : EdgeWithin g allowed i j e)
    (hrest : ∀ e' ∈ rest, e' ∈ st.queue) (best : α) :
    CellWithin g s allowed i j (commitEdge t st e rest best) := by
  obtain ⟨rfl, rfl, hnt, hwithin⟩ := he
  refine ⟨h.cell.add hnt hwithin, fun e' he' => ?_, h.table.update _ hwithin⟩
  rcases Agenda.mem_insertAll.1 he' with he' | he'
  · exact within_of_mem_unaryEdges hclosed hg (hclosed.reached hwithin) he'
  · exact h.queue e' (hrest e' he')

theorem commitBest_within (hclosed : RuleClosed g s reach allowed) (hg : t.grammar = g)
    (width : Nat) (h : CellWithin g s allowed i j st) :
    CellWithin g s allowed i j (commitBest t c width st) := by
  induction width generalizing st with
  | zero => exact h
  | succ width ih =>
    unfold commitBest
    split
    · exact h
    · next e rest best hnext =>
      obtain ⟨dropped, hqueue, -, -⟩ := nextImprovement_eq_some hnext
      refine ih (commitEdge_within hclosed hg h (h.queue e (by simp [hqueue])) (fun e' he' => ?_)
        best)
      simp [hqueue, he']

theorem within_of_mem_candidates (hclosed : RuleClosed g s reach allowed) (hg : t.grammar = g)
    (h : c.Within g s allowed) (segments : Nat) (he : e ∈ (candidates t segments c i j).1) :
    EdgeWithin g allowed i j e := by
  unfold candidates at he
  split at he
  · obtain ⟨child, hchild, he⟩ := List.mem_flatMap.1 he
    exact within_of_mem_unaryEdges hclosed hg (hclosed.reached (h.of_mem_entries hchild)) he
  · subst hg
    obtain ⟨e', he', rfl⟩ := List.mem_map.1 he
    have hcell := Exhaustive.crossCell_within hclosed h .best segments i j
    exact ⟨rfl, rfl, hcell.nonterminal_lt he', hcell.of_mem_entries he'⟩

/-- A search under way. -/
structure StateWithin (g : Grammar α) (s : Sentence)
    (allowed : Nat → Nat → NonTerminal → Backpointer → Prop) (st : State α) : Prop where
  chart : st.chart.Within g s allowed
  table : st.table.Within s allowed

theorem opened_within (hclosed : RuleClosed g s reach allowed) (hg : t.grammar = g)
    (segments i j : Nat) {st : State α} (h : StateWithin g s allowed st) :
    CellWithin g s allowed i j (opened t segments st i j) := by
  subst hg
  refine ⟨.empty _ allowed i j, fun e he => ?_, h.table⟩
  rcases Agenda.mem_insertAll.1 he with he | he
  · exact within_of_mem_candidates hclosed rfl h.chart segments he
  · cases he

theorem fillCell_within (hclosed : RuleClosed g s reach allowed) (hg : t.grammar = g)
    (segments : Nat) {st : State α} (hij : i < j) (hj : j ≤ s.size)
    (h : StateWithin g s allowed st) : StateWithin g s allowed (fillCell t segments st (i, j)) := by
  have hfinal := commitBest_within (c := st.chart) hclosed hg t.width
    (opened_within hclosed hg segments i j h)
  exact ⟨h.chart.commit hfinal.cell hij hj, hfinal.table⟩

theorem commitWords_within (hclosed : RuleClosed g s reach allowed) (h : c.Within g s allowed) :
    (commitWords g s c).1.Within g s allowed := by
  unfold commitWords
  refine foldl_prefix_induction (P := fun _ (state : Chart α × Stats) =>
    state.1.Within g s allowed) (List.range s.size) (fun visited i rest state hsplit hv => ?_) h
  have hi : i ∈ List.range s.size := by
    rw [hsplit]
    simp
  exact hv.commit (Exhaustive.lexicalCell_within hclosed .best i) (Nat.lt_succ_self i)
    (List.mem_range.1 hi)

theorem wordTable_within (merit : SentenceMerit α) (summing : Bool) (h : c.Within g s allowed) :
    (wordTable g merit summing c).Within s allowed := by
  unfold wordTable
  refine foldl_prefix_induction (P := fun _ (table : MeritTable α) => table.Within s allowed)
    _ (fun visited x rest table hsplit hv => ?_) ?_
  · have hx : x ∈ visited ++ x :: rest := by simp
    rw [← hsplit] at hx
    obtain ⟨i, -, hx⟩ := List.mem_flatMap.1 hx
    obtain ⟨e, he, rfl⟩ := List.mem_map.1 hx
    exact hv.update _ (h.of_mem_entries he)
  · rw [h.size_eq]
    exact MeritTable.within_empty ..

theorem search_within (hclosed : RuleClosed g s reach allowed) (merit : Merit α)
    (width : Nat) (delta : α) (segments : Nat) (summing : Bool) (h : c.Within g s allowed) :
    StateWithin g s allowed (search g merit width delta segments summing s c) := by
  have hwords := commitWords_within hclosed h
  unfold search
  dsimp only
  refine spansUp_induction (P := fun _ (st : State α) => StateWithin g s allowed st)
    ⟨hwords, wordTable_within _ _ hwords⟩ fun _ i j st hij hj _ _ _ hv => ?_
  exact fillCell_within (g := g) hclosed rfl segments hij hj hv

end Beam

/-! ## Agenda search -/

namespace Agenda

variable {t : Task α} {c : SlotChart α} {st : State α} {e : Edge α}

/-- An allowed edge within the sentence. -/
structure EdgeWithin (g : Grammar α) (s : Sentence)
    (allowed : Nat → Nat → NonTerminal → Backpointer → Prop) (e : Edge α) : Prop where
  start_lt : e.start < e.stop
  stop_le : e.stop ≤ s.size
  nt_lt : e.nonterminal < g.numNonterminals
  within : allowed e.start e.stop e.nonterminal e.backpointer

/-- What passes for a neighbour has an entry, or need not have one. -/
theorem reach_of_possible (hclosed : RuleClosed g s reach allowed)
    (h : (Chart.slots c).Within g s allowed) {A : NonTerminal}
    (hpos : Score.impossible < c.inside i j A) : reach i j A := by
  rw [SlotChart.Sound.inside_eq h.sound] at hpos
  cases hentry : c.get? i j A with
  | none =>
    rw [hentry] at hpos
    exact hclosed.empty hpos
  | some e => exact hclosed.reached (h.within i j A e hentry)

/-- What is queued over an entry is made by unary and binary rules of it and its neighbours. -/
theorem within_of_mem_frontier (hclosed : RuleClosed g s reach allowed) (hg : t.grammar = g)
    (ht : t.size = s.size) (h : (Chart.slots c).Within g s allowed) {A : NonTerminal} {inside : α}
    (hij : i < j) (hj : j ≤ s.size) (hA : reach i j A) (he : e ∈ frontier t c i j A inside) :
    EdgeWithin g s allowed e := by
  subst hg
  rw [frontier, List.mem_filter, List.mem_append, List.mem_append] at he
  rcases he.1 with (he | he) | he
  · obtain ⟨p, hp, rfl⟩ := List.mem_map.1 he
    obtain ⟨hp, hpc⟩ := Grammar.mem_byUnaryChild.1 hp
    exact ⟨hij, hj, Grammar.parent_lt hp, hclosed.unary hp hpc hA⟩
  · obtain ⟨p, hp, he⟩ := List.mem_flatMap.1 he
    obtain ⟨hp, right, hpc⟩ := Grammar.mem_byLeftChild.1 hp
    simp only [hpc] at he
    obtain ⟨m, hm, he⟩ := List.mem_filterMap.1 he
    rw [List.mem_range'_1] at hm
    split at he
    · next hpos =>
      obtain rfl := Option.some.inj he
      refine ⟨?_, ?_, Grammar.parent_lt hp,
        hclosed.binary hp hpc hA (reach_of_possible hclosed h hpos)⟩
      · show i < m
        omega
      · show m ≤ s.size
        omega
    · cases he
  · obtain ⟨p, hp, he⟩ := List.mem_flatMap.1 he
    obtain ⟨hp, left, hpc⟩ := Grammar.mem_byRightChild.1 hp
    simp only [hpc] at he
    obtain ⟨m, hm, he⟩ := List.mem_filterMap.1 he
    rw [List.mem_range] at hm
    split at he
    · next hpos =>
      obtain rfl := Option.some.inj he
      exact ⟨Nat.lt_trans hm hij, hj, Grammar.parent_lt hp,
        hclosed.binary hp hpc (reach_of_possible hclosed h hpos) hA⟩
    · cases he

/-- An entry that is installed has a score that a derivation can have. -/
theorem install_within {e : Entry α} (h : (Chart.slots c).Within g s allowed) (hij : i < j)
    (hj : j ≤ s.size) (hnt : e.nonterminal < g.numNonterminals)
    (he : Score.admissible e.inside = true → allowed i j e.nonterminal e.backpointer) :
    (Chart.slots (c.install i j e).2).Within g s allowed ∧
      ((c.install i j e).1 = true → allowed i j e.nonterminal e.backpointer) := by
  have hj' : j ≤ c.size := hj.trans_eq h.size_eq.symm
  obtain ⟨hsound, hcases⟩ := SlotChart.install_changes h.sound hij hj' hnt
  have hsize := (SlotChart.size_install c i j e).trans h.size_eq
  rcases hcases with ⟨hfailed, hget⟩ | ⟨-, hadm, hget⟩
  · refine ⟨⟨hsound, hsize, fun k l A e' he' => ?_⟩, fun hdone => ?_⟩
    · exact h.within k l A e' ((hget k l A).symm.trans he')
    · rw [hfailed] at hdone
      cases hdone
  · refine ⟨⟨hsound, hsize, fun k l A e' he' => ?_⟩, fun _ => he hadm⟩
    change (c.install i j e).2.get? k l A = some e' at he'
    rw [hget] at he'
    split at he'
    · next hplace =>
      obtain ⟨rfl, rfl, rfl⟩ := hplace
      obtain rfl := Option.some.inj he'
      exact he hadm
    · exact h.within k l A e' he'

/-- A search under way. -/
structure StateWithin (g : Grammar α) (s : Sentence)
    (allowed : Nat → Nat → NonTerminal → Backpointer → Prop) (st : State α) : Prop where
  chart : (Chart.slots st.chart).Within g s allowed
  queue : ∀ e ∈ st.queue.edges, EdgeWithin g s allowed e

theorem process_within (hclosed : RuleClosed g s reach allowed) (hg : t.grammar = g)
    (ht : t.size = s.size) (h : StateWithin g s allowed st) (he : EdgeWithin g s allowed e) :
    StateWithin g s allowed (process t st e) := by
  have hchart := (install_within h.chart he.start_lt he.stop_le he.nt_lt fun _ => he.within).1
  refine ⟨by rwa [chart_process], fun e' he' => ?_⟩
  rw [queue_process] at he'
  split at he'
  · rcases mem_insertAll.1 he' with he' | he'
    · exact within_of_mem_frontier hclosed hg ht hchart he.start_lt he.stop_le
        (hclosed.reached he.within) he'
    · exact h.queue e' he'
  · exact h.queue e' he'

theorem processBatch_within (hclosed : RuleClosed g s reach allowed) (hg : t.grammar = g)
    (ht : t.size = s.size) {batch : List (Edge α)} (h : StateWithin g s allowed st)
    (hbatch : ∀ e ∈ batch, EdgeWithin g s allowed e) :
    StateWithin g s allowed (processBatch t st batch) := by
  induction batch generalizing st with
  | nil => exact h
  | cons e rest ih =>
    have hrest : ∀ e' ∈ rest, EdgeWithin g s allowed e' :=
      fun e' he' => hbatch e' (List.mem_cons_of_mem _ he')
    rw [processBatch, List.foldl_cons]
    split
    · exact ih h hrest
    · exact ih (process_within hclosed hg ht h (hbatch e List.mem_cons_self)) hrest

theorem run_within (hclosed : RuleClosed g s reach allowed) (hg : t.grammar = g)
    (ht : t.size = s.size) (rounds : Nat) (h : StateWithin g s allowed st) :
    StateWithin g s allowed (run t rounds st) := by
  induction rounds generalizing st with
  | zero => exact h
  | succ rounds ih =>
    unfold run
    split
    · exact h
    · refine ih (processBatch_within hclosed hg ht ⟨h.chart, fun e he => ?_⟩ fun e he => ?_)
      · exact h.queue e (List.mem_of_mem_drop he)
      · exact h.queue e (List.mem_of_mem_take he)

theorem seed_within (hclosed : RuleClosed g s reach allowed) :
    (Chart.slots (seed g s).1).Within g s allowed ∧
      ∀ i A, (i, A) ∈ (seed g s).2 → i < s.size ∧ reach i (i + 1) A := by
  refine foldl_prefix_induction (P := fun _ (state : SlotChart α × List (Nat × NonTerminal)) =>
    (Chart.slots state.1).Within g s allowed ∧
      ∀ i A, (i, A) ∈ state.2 → i < s.size ∧ reach i (i + 1) A)
    (lexicalEntries g s) (fun visited x rest state hsplit hv => ?_) ?_
  · obtain ⟨i, e⟩ := x
    obtain ⟨hwithin, hseeds⟩ := hv
    have hmem : (i, e) ∈ lexicalEntries g s := by
      rw [hsplit]
      simp
    obtain ⟨p, word, hp, hpc, hword, rfl⟩ := mem_lexicalEntries.1 hmem
    have hi := Sentence.lt_size_of_terminal? hword
    obtain ⟨hchart, hnew⟩ := install_within hwithin (Nat.lt_succ_self i) hi
      (e := ⟨p.parent, p.logProb, .lexical word⟩) (Grammar.parent_lt hp)
      (hclosed.word hp hpc hword)
    rw [chart_seedStep, seeds_seedStep]
    refine ⟨hchart, fun k B hB => ?_⟩
    split at hB
    · next hdone =>
      rcases List.mem_append.1 hB with hB | hB
      · exact hseeds k B hB
      · obtain ⟨rfl, rfl⟩ := Prod.mk.inj (List.mem_singleton.1 hB)
        exact ⟨hi, hclosed.reached (hnew hdone)⟩
    · exact hseeds k B hB
  · refine ⟨⟨SlotChart.sound_empty s.size g, rfl, fun i j A e he => ?_⟩, fun i A hi => by cases hi⟩
    rw [Chart.get?, SlotChart.get?_empty] at he
    cases he

theorem search_within (hclosed : RuleClosed g s reach allowed) (merit : Merit α)
    (popLimit : Nat → Option Nat) (batch : Nat) :
    (Chart.slots (search g merit popLimit batch s).1).Within g s allowed := by
  have hg : (searchTask g merit popLimit batch s).grammar = g := rfl
  have ht : (searchTask g merit popLimit batch s).size = s.size := rfl
  obtain ⟨hchart, hqueue⟩ := initial_spec (searchTask g merit popLimit batch s) (seed g s).1
    (seed g s).2
  obtain ⟨hwithin, hseeds⟩ := seed_within hclosed
  rw [chart_search]
  refine (run_within hclosed hg ht _ ⟨by rwa [hchart], fun e he => ?_⟩).chart
  obtain ⟨i, A, hmem, he⟩ := (hqueue e).1 he
  obtain ⟨hi, hA⟩ := hseeds i A hmem
  exact within_of_mem_frontier hclosed hg ht hwithin (Nat.lt_succ_self i) hi hA he

end Agenda

/-! ## Any search -/

namespace Parser

theorem within_emptyChart (g : Grammar α) (storage : Storage) (s : Sentence) :
    (emptyChart g storage s.size).Within g s allowed := by
  refine ⟨sound_emptyChart g storage s.size, size_emptyChart g storage s.size,
    fun i j A e he => ?_⟩
  rw [get?_emptyChart] at he
  cases he

/-- No search leaves what is closed under the rules. -/
theorem search_within (p : Parser α) (s : Sentence) (hclosed : RuleClosed p.grammar s reach allowed) :
    (p.search s).chart.Within p.grammar s allowed ∧
      ∀ table, (p.search s).meritTable = some table → table.Within s allowed := by
  have hempty : (emptyChart p.grammar p.options.storage s.size).Within p.grammar s allowed :=
    within_emptyChart ..
  cases h : p.options.strategy with
  | exhaustive =>
    rw [search_eq_exhaustive h]
    exact ⟨Exhaustive.fill_within hclosed _ _ hempty, fun table htable => by cases htable⟩
  | agenda =>
    rw [search_agenda h]
    exact ⟨Agenda.search_within hclosed .., fun table htable => by cases htable⟩
  | beam =>
    have hbeam := Beam.search_within hclosed p.merit p.options.beamWidth p.options.beamDelta
      p.options.segments (p.options.decoder == .meritSum) hempty
    rw [search_eq_beam h]
    exact ⟨hbeam.chart, fun table htable => Option.some.inj htable ▸ hbeam.table⟩

end Parser

end Constituency
