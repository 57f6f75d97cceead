import Constituency.Proofs.Search.Agenda.Acyclic
import Constituency.Proofs.Search.Gather
import Constituency.Proofs.Search.Supported

/-!
# No search runs its unaries in circles

Whichever search has filled a chart, no chain of unary backpointers within a cell comes back to a symbol,
provided that no rule is a gain. The exhaustive search must keep the best derivation for this: under
sums, what a unary rule adds up is not what its backpointer leads to. A tree can then be read off
the chart exactly if the sentence has a parse.
-/

namespace Constituency

variable {α : Type} [Score α] [MonotoneScore α] {g : Grammar α} {s : Sentence} {i j now : Nat}
  {A : NonTerminal} {stamp : Agenda.Stamps}

/-! ## Exhaustive search -/

namespace Exhaustive

variable {c : Chart α} {cell : Scratch α} {entries : List (Entry α)}

/-- A cell that gathers warranted entries without unary rules starts a clock. -/
theorem clocked_of_gathers (h : cell.Gathers g i j entries) (ht : cell.Tight) (hc : c.Sound g)
    (hblank : ∀ A, c.get? i j A = none)
    (hentries : ∀ e ∈ entries, e.backpointer.isUnary = false ∧ Warranted g s c.inside i j e) :
    cell.Clocked g s c i j (fun _ _ _ => 0) 1 := by
  have habove : c.Above cell := Chart.above_of_blank hc h.toProper hblank
  refine ⟨h.toProper, ht, habove, fun _ _ _ => Nat.one_pos, fun A held hA => ?_⟩
  obtain ⟨hnot, hwarranted⟩ := hentries _ (h.mem_of_find? ht hA)
  have hover := hwarranted.mono habove.le_overlay
  refine ⟨hover.derived, hover.below, fun child hchild => ?_⟩
  rw [hchild] at hnot
  cases hnot

/-- Warranted entries may be added to a clocked cell one after the other. -/
theorem foldl_add_clocked (hnonpos : ∀ p ∈ g.productions, p.logProb ≤ 0) (hc : c.Sound g)
    (hblank : ∀ A, c.get? i j A = none) (h : cell.Clocked g s c i j stamp now)
    (hentries : ∀ e ∈ entries, Warranted g s (c.overlay cell) i j e) :
    ∃ stamp now, (entries.foldl (Scratch.add .best) cell).Clocked g s c i j stamp now := by
  induction entries generalizing cell stamp now with
  | nil => exact ⟨stamp, now, h⟩
  | cons e rest ih =>
    have he := hentries e List.mem_cons_self
    have hrest := fun e' he' => hentries e' (List.mem_cons_of_mem _ he')
    rcases Score.lt_or_ge (c.overlay cell i j e.nonterminal) e.inside with hlt | hle
    · have hnext := h.improve hnonpos he hlt
      refine ih hnext fun e' he' => (hrest e' he').mono fun k l B => ?_
      rw [Scratch.overlay_add h.toProper h.tight he.bounds.2.2 hlt]
      split
      · next heq => rw [heq.1, heq.2.1, heq.2.2]; exact Score.le_of_lt hlt
      · exact Score.le_refl _
    · have hsame : c.overlay cell i j e.nonterminal = cell.inside e.nonterminal := by
        cases hfound : cell.find? e.nonterminal with
        | some held => rw [h.toProper.overlay_of_find? hfound, Scratch.inside_of_find? hfound]
        | none =>
          rw [Chart.overlay_of_find?_eq_none hfound, Scratch.inside_of_find?_eq_none hfound,
            hc.inside_eq, hblank]
          rfl
      have hstays : cell.add .best e = cell :=
        Scratch.add_of_le h.tight (h.size_eq ▸ he.bounds.2.2) (hsame ▸ hle)
      rw [List.foldl_cons, hstays]
      exact ih h hrest

theorem warranted_of_mem_unaryEntries {e : Entry α} (h : cell.Clocked g s c i j stamp now)
    (he : e ∈ unaryEntries g cell.entries) : Warranted g s (c.overlay cell) i j e := by
  obtain ⟨child, hchild, p, hp, hpc, rfl⟩ := mem_unaryEntries.1 he
  obtain ⟨held, hheld, heq⟩ := Scratch.get?_eq_some_iff.1 (Scratch.mem_entries.1 hchild)
  have hhere : c.overlay cell i j child.nonterminal = child.inside := by
    rw [h.toProper.overlay_of_find? hheld, heq]
  have hpos : Score.impossible < c.overlay cell i j child.nonterminal := by
    rw [h.toProper.overlay_of_find? hheld]
    exact h.possible _ held hheld
  have happ : Application g s (c.overlay cell) (.unary child.nonterminal) i j p.parent
      (p.logProb + c.overlay cell i j child.nonterminal) := .unary hp hpc hpos
  rw [hhere] at happ
  refine .of_application happ fun k l B hmem => ?_
  simp only [Backpointer.places, List.mem_singleton, Prod.mk.injEq] at hmem
  obtain ⟨rfl, rfl, rfl⟩ := hmem
  obtain ⟨d, hd, hscore⟩ := (h.held _ held hheld).derived
  exact ⟨d, hd, hscore.trans (h.toProper.overlay_of_find? hheld).symm⟩

/-- The cell of a span before its unary rules. -/
theorem clocked_base (hc : c.Grown g s) (count : Nat) (hblank : ∀ A, c.get? i j A = none) :
    (baseCell g .best count s c i j).Clocked g s c i j (fun _ _ _ => 0) 1 :=
  clocked_of_gathers (baseCell_gathers Accumulator.keepsPossible_best g c count s i j)
    (baseCell_tight g c count s i j) hc.sound hblank fun _ he =>
      ⟨isUnary_of_mem_baseEntries hc.sound he, warranted_of_mem_baseEntries hc he⟩

theorem fillCell_grown (hnonpos : ∀ p ∈ g.productions, p.logProb ≤ 0) (hc : c.Grown g s)
    (count : Nat) (stats : Stats) (hij : i < j) (hj : j ≤ s.size)
    (hblank : ∀ A, c.get? i j A = none) :
    (fillCell g .best count s (c, stats) (i, j)).1.Grown g s ∧
      ∀ k l A, ¬ (k = i ∧ l = j) → c.get? k l A = none →
        (fillCell g .best count s (c, stats) (i, j)).1.get? k l A = none := by
  have hbase := clocked_base (s := s) hc count hblank
  obtain ⟨stamp, now, hcell⟩ := foldl_add_clocked hnonpos hc.sound hblank hbase
    fun e he => warranted_of_mem_unaryEntries hbase he
  refine ⟨hc.commit hnonpos hcell hij hj fun A e he => ?_, fun k l A hne hnone => ?_⟩
  · rw [hblank] at he
    cases he
  · rw [Option.eq_none_iff_forall_ne_some]
    intro e he
    rcases Chart.get?_commit_cases hc.sound hcell.toShaped hij (hc.size_eq ▸ hj) he with
      hold | ⟨hspan, -⟩
    · rw [hnone] at hold
      cases hold
    · exact hne hspan

theorem fill_grown (hnonpos : ∀ p ∈ g.productions, p.logProb ≤ 0) (count : Nat)
    (hc : c.Grown g s) (hblank : ∀ k l A, c.get? k l A = none) :
    (fill g .best count s c).1.Grown g s := by
  refine (spansUp_induction (P := fun visited (state : Chart α × Stats) =>
    state.1.Grown g s ∧ ∀ k l A, (k, l) ∉ visited → state.1.get? k l A = none)
    ⟨hc, fun k l A _ => hblank k l A⟩ fun visited i j state hij hj hnew _ _ hv => ?_).1
  obtain ⟨hgrown, hblank⟩ := hv
  obtain ⟨hnext, hkept⟩ := fillCell_grown hnonpos hgrown count state.2 hij hj
    fun A => hblank i j A hnew
  refine ⟨hnext, fun k l A hkl => ?_⟩
  rw [List.mem_append, List.mem_singleton, Prod.mk.injEq, not_or] at hkl
  exact hkept k l A hkl.2 (hblank k l A hkl.1)

end Exhaustive

/-! ## Beam search -/

namespace Beam

variable {t : Task α} {c : Chart α} {cell : Scratch α} {st : CellState α} {e : Edge α}
  {queue rest : List (Edge α)} {best best' : α}

theorem overlay_le_present (hcell : cell.Proper g i j) (hstart : e.start = i)
    (hstop : e.stop = j) : c.overlay cell i j e.nonterminal ≤ present c cell e := by
  rw [present, hstart, hstop]
  cases hfound : cell.find? e.nonterminal with
  | some held =>
    rw [hcell.overlay_of_find? hfound, Scratch.inside_of_find? hfound]
    exact Score.le_best_left _ _
  | none =>
    rw [Chart.overlay_of_find?_eq_none hfound]
    exact Score.le_best_right _ _

/-- A cell under way whose queue holds warranted edges. -/
structure Timed (g : Grammar α) (s : Sentence) (c : Chart α) (i j : Nat) (st : CellState α) :
    Prop where
  clocked : ∃ stamp now, st.cell.Clocked g s c i j stamp now
  queued : ∀ e ∈ st.queue, (e.start = i ∧ e.stop = j) ∧
    Warranted g s (c.overlay st.cell) i j e.toEntry

theorem Timed.queued_mono (h : Timed g s c i j st) {cell : Scratch α}
    (hgrown : ∀ k l B, c.overlay st.cell k l B ≤ c.overlay cell k l B) (he : e ∈ st.queue) :
    (e.start = i ∧ e.stop = j) ∧ Warranted g s (c.overlay cell) i j e.toEntry :=
  ⟨(h.queued e he).1, (h.queued e he).2.mono hgrown⟩

/-- The unary parents of an entry with a derivation are warranted. -/
theorem warranted_of_mem_unaryEdges (hg : t.grammar = g)
    {inside : Nat → Nat → NonTerminal → α} {child : NonTerminal}
    (hpos : Score.impossible < inside i j child)
    (hderived : ∃ d, Derives g s i j child d ∧ d.score = inside i j child)
    (he : e ∈ unaryEdges t i j child (inside i j child)) :
    (e.start = i ∧ e.stop = j) ∧ Warranted g s inside i j e.toEntry := by
  subst hg
  obtain ⟨p, hp, hpc, rfl⟩ := mem_unaryEdges.1 he
  have happ : Application t.grammar s inside (.unary child) i j p.parent
      (p.logProb + inside i j child) := .unary hp hpc hpos
  have hedge : Warranted t.grammar s inside i j
      ⟨p.parent, p.logProb + inside i j child, .unary child⟩ := by
    refine .of_application happ fun k l B hmem => ?_
    simp only [Backpointer.places, List.mem_singleton, Prod.mk.injEq] at hmem
    obtain ⟨rfl, rfl, rfl⟩ := hmem
    exact hderived
  exact ⟨⟨rfl, rfl⟩, hedge⟩

/-- To commit an improvement keeps what is known of the cell. -/
theorem commitEdge_timed (hnonpos : ∀ p ∈ g.productions, p.logProb ≤ 0) (hg : t.grammar = g)
    (h : Timed g s c i j st) (he : e ∈ st.queue) (hrest : ∀ e' ∈ rest, e' ∈ st.queue)
    (himp : ¬ e.inside ≤ present c st.cell e) (best : α) :
    Timed g s c i j (commitEdge t st e rest best) ∧
      (∀ k l B, c.overlay (st.cell.add .best e.toEntry) k l B =
        if k = i ∧ l = j ∧ B = e.nonterminal then e.inside else c.overlay st.cell k l B) ∧
      c.overlay st.cell i j e.nonterminal < e.inside := by
  obtain ⟨stamp, now, hclocked⟩ := h.clocked
  obtain ⟨⟨hstart, hstop⟩, hwarranted⟩ := h.queued e he
  have hlt : c.overlay st.cell i j e.nonterminal < e.inside :=
    Score.lt_of_le_of_lt (overlay_le_present hclocked.toProper hstart hstop) (Score.not_le.1 himp)
  have hover := Scratch.overlay_add hclocked.toProper hclocked.tight hwarranted.bounds.2.2 hlt
  refine ⟨⟨⟨_, _, hclocked.improve hnonpos hwarranted hlt⟩, fun e' he' => ?_⟩, hover, hlt⟩
  have hgrown : ∀ k l B, c.overlay st.cell k l B ≤
      c.overlay (st.cell.add .best e.toEntry) k l B := by
    intro k l B
    rw [hover]
    split
    · next heq => rw [heq.1, heq.2.1, heq.2.2]; exact Score.le_of_lt hlt
    · exact Score.le_refl _
  rcases Agenda.mem_insertAll.1 he' with he' | he'
  · have hhere : c.overlay (st.cell.add .best e.toEntry) i j e.nonterminal = e.inside := by
      rw [hover, if_pos ⟨rfl, rfl, rfl⟩]
    have hpos : Score.impossible < e.inside := Score.lt_of_le_of_lt (Score.impossible_le _) hlt
    rw [hstart, hstop, ← hhere] at he'
    exact warranted_of_mem_unaryEdges hg (hhere ▸ hpos) (hhere ▸ hwarranted.derived) he'
  · exact h.queued_mono hgrown (hrest e' he')

theorem commitBest_timed (hnonpos : ∀ p ∈ g.productions, p.logProb ≤ 0) (hg : t.grammar = g)
    (width : Nat) (h : Timed g s c i j st) : Timed g s c i j (commitBest t c width st) := by
  induction width generalizing st with
  | zero => exact h
  | succ width ih =>
    unfold commitBest
    split
    · exact h
    · next e rest best hnext =>
      obtain ⟨dropped, hqueue, -, himp⟩ := nextImprovement_eq_some hnext
      refine ih (commitEdge_timed hnonpos hg h ?_ (fun e' he' => ?_) himp best).1
      · rw [hqueue]
        simp
      · rw [hqueue]
        simp [he']

omit [MonotoneScore α] in
theorem clocked_empty (g : Grammar α) (s : Sentence) (c : Chart α) (i j : Nat) :
    (Scratch.empty i j g.numNonterminals : Scratch α).Clocked g s c i j (fun _ _ _ => 0) 1 where
  toProper := Scratch.proper_empty g i j
  tight := Scratch.tight_empty _ _ _
  above A h hA := by simp at hA
  stamp_lt _ _ _ := Nat.one_pos
  held A h hA := by simp at hA

omit [MonotoneScore α] in
theorem overlay_empty (c : Chart α) (i j n : Nat) :
    c.overlay (Scratch.empty i j n) = c.inside := by
  funext k l A
  exact Chart.overlay_of_find?_eq_none (Scratch.find?_empty i j n A) k l

/-- The candidates of a cell are warranted by the chart. -/
theorem warranted_of_mem_candidates (hg : t.grammar = g) (hc : c.Grown g s) (segments : Nat)
    (he : e ∈ (candidates t segments c i j).1) :
    (e.start = i ∧ e.stop = j) ∧ Warranted g s c.inside i j e.toEntry := by
  unfold candidates at he
  split at he
  · obtain ⟨child, hchild, he⟩ := List.mem_flatMap.1 he
    have hget := (Chart.mem_entries hc.sound).1 hchild
    obtain ⟨hpos, hderived⟩ := hc.derived _ _ _ _ hget
    rw [← hc.sound.inside_of_get? hget] at hpos hderived he
    exact warranted_of_mem_unaryEdges hg hpos hderived he
  · next hlong =>
    subst hg
    obtain ⟨e', he', rfl⟩ := List.mem_map.1 he
    refine ⟨⟨rfl, rfl⟩, ?_⟩
    have hgathers := Exhaustive.crossCell_gathers Accumulator.keepsPossible_best
      t.grammar c segments i j
    obtain ⟨held, hheld, heq⟩ := Scratch.get?_eq_some_iff.1 (Scratch.mem_entries.1 he')
    have hmem := hgathers.mem_of_find? (Exhaustive.crossCell_tight t.grammar c segments i j) hheld
    rw [← heq] at hmem
    refine Exhaustive.warranted_of_mem_baseEntries hc ?_
    rwa [Exhaustive.baseEntries, if_neg hlong]

omit [MonotoneScore α] in
/-- What is known of a cell before anything has been committed. -/
theorem timed_start (hg : t.grammar = g) (hc : c.Grown g s) {edges : List (Edge α)}
    (hedges : ∀ e ∈ edges, (e.start = i ∧ e.stop = j) ∧ Warranted g s c.inside i j e.toEntry)
    (hqueue : st.queue = (Queue.ofList edges).edges)
    (hcell : st.cell = Scratch.empty i j t.grammar.numNonterminals) : Timed g s c i j st := by
  subst hg
  refine ⟨⟨_, _, hcell ▸ clocked_empty t.grammar s c i j⟩, fun e he => ?_⟩
  rw [hqueue] at he
  rw [hcell, overlay_empty]
  rcases Agenda.mem_insertAll.1 he with he | he
  · exact hedges e he
  · cases he

theorem fillCell_grown (hnonpos : ∀ p ∈ g.productions, p.logProb ≤ 0) (hg : t.grammar = g)
    (segments : Nat) {st : State α} (hc : st.chart.Grown g s) (hij : i < j) (hj : j ≤ s.size)
    (hfresh : ∀ A e, st.chart.get? i j A = some e → e.backpointer.isUnary = false) :
    (fillCell t segments st (i, j)).chart.Grown g s ∧
      ∀ k l A e, ¬ (k = i ∧ l = j) → (fillCell t segments st (i, j)).chart.get? k l A = some e →
        st.chart.get? k l A = some e := by
  have hstart : Timed g s st.chart i j (opened t segments st i j) := timed_start
    hg hc (fun e he => warranted_of_mem_candidates hg hc segments he) rfl rfl
  obtain ⟨stamp, now, hcell⟩ := (commitBest_timed hnonpos hg t.width hstart).clocked
  refine ⟨hc.commit hnonpos hcell hij hj hfresh, fun k l A e hne he => ?_⟩
  exact (Chart.get?_commit_cases hc.sound hcell.toShaped hij (hc.size_eq ▸ hj) he).resolve_right
    fun hnew => hne hnew.1

/-- A chart with the entries of some words, and nothing else. -/
structure Worded (g : Grammar α) (s : Sentence) (visited : List Nat) (c : Chart α) : Prop where
  grown : c.Grown g s
  fresh : ∀ k l A e, c.get? k l A = some e → l = k + 1 ∧ e.backpointer.isUnary = false
  blank : ∀ k l A, k ∉ visited → c.get? k l A = none
  words : c.Fits → ∀ k ∈ visited, ∀ e ∈ Exhaustive.lexicalEntries g (s.terminal? k),
    e.inside ≤ c.inside k (k + 1) e.nonterminal

theorem Worded.commit (hnonpos : ∀ p ∈ g.productions, p.logProb ≤ 0) {visited : List Nat}
    (h : Worded g s visited c) (hi : i < s.size) (hnew : i ∉ visited) :
    Worded g s (visited ++ [i]) (c.commit (Exhaustive.lexicalCell g .best s i).1) := by
  have hgathers := Exhaustive.lexicalCell_gathers Accumulator.keepsPossible_best g s i
  have htight := Exhaustive.lexicalCell_tight g s i
  have hcell := Exhaustive.clocked_of_gathers hgathers htight h.grown.sound
    (fun A => h.blank i (i + 1) A hnew) fun e he =>
      ⟨by obtain ⟨p, word, -, -, -, rfl⟩ := Exhaustive.mem_lexicalEntries.1 he; rfl,
        Exhaustive.warranted_of_mem_lexicalEntries he⟩
  have hsize : i + 1 ≤ c.size := h.grown.size_eq ▸ hi
  have hcases := fun {k l A e} => Chart.get?_commit_cases (k := k) (l := l) (A := A) (e := e)
    h.grown.sound hcell.toShaped (Nat.lt_succ_self i) hsize
  refine
    { grown := h.grown.commit hnonpos hcell (Nat.lt_succ_self i) hi fun A e he =>
        (h.fresh _ _ _ _ he).2
      fresh := fun k l A e he => ?_
      blank := fun k l A hk => ?_
      words := fun hfits k hk e he => ?_ }
  · rcases hcases he with hold | ⟨⟨rfl, rfl⟩, hnew⟩
    · exact h.fresh k l A e hold
    · obtain ⟨held, hheld, rfl⟩ := Scratch.get?_eq_some_iff.1 hnew
      obtain ⟨p, word, -, -, -, heq⟩ :=
        Exhaustive.mem_lexicalEntries.1 (hgathers.mem_of_find? htight hheld)
      rw [heq]
      exact ⟨rfl, rfl⟩
  · rw [List.mem_append, List.mem_singleton, not_or] at hk
    rw [Option.eq_none_iff_forall_ne_some]
    intro e he
    rcases hcases he with hold | ⟨hspan, -⟩
    · rw [h.blank k l A hk.1] at hold
      cases hold
    · exact hk.2 hspan.1
  · rw [Chart.inside_commit h.grown.sound hcell.toProper hcell.above (Nat.lt_succ_self i) hsize
      hfits]
    rcases List.mem_append.1 hk with hk | hk
    · exact Score.le_trans (h.words (Chart.fits_of_fits_commit hfits) k hk e he)
        (hcell.above.le_overlay _ _ _)
    · obtain rfl := List.mem_singleton.1 hk
      refine Score.le_trans ?_ (hcell.inside_le_overlay _)
      exact htight.best_eq _ ▸ hgathers.le_best e he

/-- The words are committed to an empty chart first. -/
theorem commitWords_worded (hnonpos : ∀ p ∈ g.productions, p.logProb ≤ 0) (hc : c.Grown g s)
    (hblank : ∀ k l A, c.get? k l A = none) :
    Worded g s (List.range s.size) (commitWords g s c).1 := by
  unfold commitWords
  refine foldl_prefix_induction (P := fun visited (state : Chart α × Stats) =>
    Worded g s visited state.1) _ (fun visited i rest state hsplit hv => ?_) ?_
  · refine hv.commit hnonpos (List.mem_range.1 (by rw [hsplit]; simp)) fun hmem => ?_
    have hnodup := hsplit ▸ (List.nodup_range (n := s.size))
    exact (List.nodup_append.1 hnodup).2.2 i hmem i List.mem_cons_self rfl
  · exact
      { grown := hc
        fresh := fun k l A e he => by rw [hblank] at he; cases he
        blank := fun k l A _ => hblank k l A
        words := fun _ k hk => by cases hk }

theorem search_grown (hnonpos : ∀ p ∈ g.productions, p.logProb ≤ 0) (merit : Merit α)
    (width : Nat) (delta : α) (segments : Nat) (summing : Bool) (hc : c.Grown g s)
    (hblank : ∀ k l A, c.get? k l A = none) :
    (search g merit width delta segments summing s c).chart.Grown g s := by
  have hwords := commitWords_worded hnonpos hc hblank
  unfold search
  refine (spansUp_induction (P := fun visited (st : State α) => st.chart.Grown g s ∧
    ∀ k l A e, (k, l) ∉ visited → st.chart.get? k l A = some e → e.backpointer.isUnary = false)
    ⟨hwords.grown, fun k l A e _ he => (hwords.fresh k l A e he).2⟩
    fun visited i j st hij hj hnew _ _ hv => ?_).1
  obtain ⟨hgrown, hfresh⟩ := hv
  obtain ⟨hnext, hkept⟩ := fillCell_grown (t :=
    { grammar := g, merit := merit.forSentence (commitWords g s c).1, width, delta })
    hnonpos rfl segments hgrown hij hj fun A e he => hfresh i j A e hnew he
  refine ⟨hnext, fun k l A e hkl he => ?_⟩
  rw [List.mem_append, List.mem_singleton, Prod.mk.injEq, not_or] at hkl
  exact hfresh k l A e hkl.1 (hkept k l A e hkl.2 he)

end Beam

/-! ## Any search -/

namespace Parser

omit [MonotoneScore α] in
theorem grown_emptyChart (g : Grammar α) (s : Sentence) (storage : Storage) :
    (emptyChart g storage s.size).Grown g s := by
  have hnone : ∀ i j A e, (emptyChart g storage s.size).get? i j A ≠ some e := by
    intro i j A e he
    rw [get?_emptyChart] at he
    cases he
  refine
    { sound := sound_emptyChart g storage s.size
      size_eq := size_emptyChart g storage s.size
      derived := fun i j A e he => absurd he (hnone i j A e)
      acyclic := fun i j => Chart.not_transGen_self (fun _ _ => false)
        (fun _ _ _ h => by cases h) (fun _ => rfl) fun A B ⟨e, he, _⟩ => absurd he (hnone i j A e)
      linked := fun _ => ⟨sound_emptyChart g storage s.size, size_emptyChart g storage s.size,
        fun i j A e he => absurd he (hnone i j A e)⟩ }

theorem search_grown (p : Parser α) (hnonpos : ∀ r ∈ p.grammar.productions, r.logProb ≤ 0)
    (hbest : p.options.strategy = .exhaustive → p.options.semiring = .viterbi) (s : Sentence) :
    (p.search s).chart.Grown p.grammar s ∧
      (p.options.strategy = .agenda ∨ (p.search s).chart.Fits →
        (p.search s).chart.Linked p.grammar s (· ≤ ·)) := by
  have hempty := grown_emptyChart p.grammar s p.options.storage
  have hblank := get?_emptyChart p.grammar p.options.storage s.size
  cases h : p.options.strategy with
  | exhaustive =>
    have hacc : p.options.accumulator = .best := by
      rw [Options.accumulator, hbest h]
    rw [search_exhaustive h, hacc]
    have hgrown := Exhaustive.fill_grown hnonpos p.options.segments hempty hblank
    exact ⟨hgrown, fun hfits => hgrown.linked (hfits.resolve_left (by simp))⟩
  | agenda =>
    rw [chart_search_agenda h]
    exact (Agenda.search_grown hnonpos p.merit _ _).imp_right fun hlinked _ => hlinked
  | beam =>
    rw [search_beam h]
    have hgrown := Beam.search_grown hnonpos p.merit p.options.beamWidth p.options.beamDelta
      p.options.segments (p.options.decoder == .meritSum) hempty hblank
    exact ⟨hgrown, fun hfits => hgrown.linked (hfits.resolve_left (by simp))⟩

/-- A beam search with the grammar of a chain of unary rules. -/
def chainBeam : Parser (WithBot ℤ) :=
  ⟨Chain.whole, { Chain.options with strategy := .beam }, .inside⟩

end Parser

end Constituency
