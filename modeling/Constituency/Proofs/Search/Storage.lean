import Constituency.Proofs.Chart.Storage
import Constituency.Proofs.Decode.Viterbi
import Constituency.Proofs.Search.Within

/-!
# The storage cannot be told

The exhaustive search and the beam search see no more of a chart than what it finds and lists, and what
they commit to it is better than what stands there. So a search in slots and a search in rows go through
the same states side by side (`Exhaustive.fill_same`, `Beam.search_same`), and a parse is the same in
either storage (`Parser.storage_unobservable`), as long as the arena of the slots does not run out of
numbers.
-/

namespace Constituency

variable {α : Type} [Score α] {g : Grammar α} {s : Sentence} {c c' : Chart α} {i j : Nat}

open Chart (Same)

/-! ## Side by side -/

/-- Two charts of a sentence under way, in which the same cells have been filled and the same has been
counted. -/
structure Beside (g : Grammar α) (s : Sentence) (visited : List (Nat × Nat))
    (state state' : Chart α × Stats) : Prop where
  chart : Same g state.1 state'.1
  size_eq : state.1.size = s.size
  blank : ∀ k l A, (k, l) ∉ visited → state.1.get? k l A = none
  stats_eq : state.2 = state'.2

/-- The same cell is committed to both. -/
theorem Beside.commit [MonotoneScore α] {visited : List (Nat × Nat)} {state state' : Chart α × Stats}
    {cell : Scratch α} (h : Beside g s visited state state') (hcell : cell.Proper g i j)
    (hij : i < j) (hj : j ≤ s.size) (hnew : (i, j) ∉ visited)
    (hfits : (state.1.commit cell).Fits) (stats : Stats) :
    Beside g s (visited ++ [(i, j)]) (state.1.commit cell, stats) (state'.1.commit cell, stats) := by
  have hj' : j ≤ state.1.size := h.size_eq ▸ hj
  have habove := Chart.above_of_blank h.chart.sound hcell fun A => h.blank i j A hnew
  refine ⟨h.chart.commit hcell habove hij hj' hfits,
    (Chart.sound_commit h.chart.sound hcell.toShaped hij hj').2.trans h.size_eq,
    fun k l A hkl => ?_, rfl⟩
  rw [List.mem_append, List.mem_singleton, Prod.mk.injEq, not_or] at hkl
  rw [Chart.get?_commit h.chart.sound hcell habove hij hj' hfits, if_neg hkl.2]
  exact h.blank k l A hkl.1

/-! ## Exhaustive search -/

namespace Exhaustive

variable {acc : Accumulator α}

theorem crossCell_congr (h : Same g c c') (g' : Grammar α) (acc : Accumulator α)
    (count i j : Nat) : crossCell g' acc count c i j = crossCell g' acc count c' i j := by
  have hentries : binaryEntries g' c = binaryEntries g' c' := by
    funext i j inSegment
    simp only [binaryEntries, h.leftChildren_eq, h.rightChildren_eq]
  rw [crossCell, crossCell, hentries]

variable [MonotoneScore α]

theorem fillCell_beside (hacc : acc.KeepsPossible) (count : Nat) {visited : List (Nat × Nat)}
    {state state' : Chart α × Stats} (h : Beside g s visited state state') (hij : i < j)
    (hj : j ≤ s.size) (hnew : (i, j) ∉ visited)
    (hfits : (fillCell g acc count s state (i, j)).1.Fits) :
    Beside g s (visited ++ [(i, j)]) (fillCell g acc count s state (i, j))
      (fillCell g acc count s state' (i, j)) := by
  have hcross := crossCell_congr h.chart g acc count i j
  have hbase : baseCell g acc count s state.1 i j = baseCell g acc count s state'.1 i j := by
    rw [baseCell, baseCell, hcross]
  have hstats : (fillCell g acc count s state (i, j)).2 = (fillCell g acc count s state' (i, j)).2 := by
    simp only [fillCell, hcross, h.stats_eq]
  have hproper : (unaryPass g acc (baseCell g acc count s state.1 i j)).1.Proper g i j :=
    ((baseCell_gathers hacc _ _ count s i j).foldl_add hacc
      fun _ => parent_lt_of_mem_unaryEntries).toProper
  rw [← Prod.mk.eta (p := fillCell g acc count s state' (i, j)), ← hstats,
    ← Prod.mk.eta (p := fillCell g acc count s state (i, j))]
  rw [chart_fillCell] at hfits ⊢
  rw [chart_fillCell, ← hbase]
  exact h.commit hproper hij hj hnew hfits _

/-- Side by side the searches leave charts that find the same, and count the same. -/
theorem fill_same (hacc : acc.KeepsPossible) (count : Nat) (h : Same g c c')
    (hsize : c.size = s.size) (hblank : ∀ k l A, c.get? k l A = none)
    (hfits : (fill g acc count s c).1.Fits) :
    Same g (fill g acc count s c).1 (fill g acc count s c').1 ∧
      (fill g acc count s c).2 = (fill g acc count s c').2 := by
  have hbeside : Beside g s (spansUp s.size) (fill g acc count s c) (fill g acc count s c') := by
    refine spansUp_induction (P := fun visited state =>
      state.1.Fits →
        Beside g s visited state (visited.foldl (fillCell g acc count s) (c', Stats.zero)))
      (fun _ => ⟨h, hsize, fun k l A _ => hblank k l A, rfl⟩)
      (fun visited i j state hij hj hnew _ _ hv hfits => ?_) hfits
    rw [List.foldl_append, List.foldl_cons, List.foldl_nil]
    exact fillCell_beside hacc count (hv (Chart.fits_of_fits_commit hfits)) hij hj hnew hfits
  exact ⟨hbeside.chart, hbeside.stats_eq⟩

end Exhaustive

/-! ## Beam search -/

/-- What a figure of merit makes of a sentence depends on the parts of speech in the chart alone. -/
theorem Merit.forSentence_congr (h : Same g c c') (merit : Merit α) :
    merit.forSentence c = merit.forSentence c' := by
  cases merit with
  | inside | normalized => rfl
  | boundary model =>
    have hemission : model.emission c = model.emission c' := by
      funext i
      rw [BoundaryModel.emission, BoundaryModel.emission, h.posEntries_eq]
    rw [forSentence, forSentence, BoundaryModel.forSentence, BoundaryModel.forSentence, hemission,
      h.size_eq]

namespace Beam

variable {t : Task α} {st st' : CellState α} {e : Edge α} {rest queue : List (Edge α)}

theorem candidates_congr (h : Same g c c') (t : Task α) (segments i j : Nat) :
    candidates t segments c i j = candidates t segments c' i j := by
  rw [candidates, candidates, h.entries_eq, Exhaustive.crossCell_congr h]

theorem nextImprovement_congr (h : c.inside = c'.inside) (cell : Scratch α) (best : α)
    (queue : List (Edge α)) :
    nextImprovement t c cell best queue = nextImprovement t c' cell best queue := by
  induction queue generalizing best with
  | nil => rfl
  | cons e rest ih => simp only [nextImprovement, h, ih]

theorem commitBest_congr (h : c.inside = c'.inside) (width : Nat) (st : CellState α) :
    commitBest t c width st = commitBest t c' width st := by
  induction width generalizing st with
  | zero => rfl
  | succ width ih =>
    rw [commitBest, commitBest, nextImprovement_congr h]
    split
    · rfl
    · exact ih _

theorem wordTable_congr (h : Same g c c') (merit : SentenceMerit α) (summing : Bool) :
    wordTable g merit summing c = wordTable g merit summing c' := by
  rw [wordTable, wordTable, h.size_eq, h.entries_eq]

variable [MonotoneScore α]

/-- A cell whose entries are all better than those of the chart in their places. -/
structure CellAbove (g : Grammar α) (s : Sentence) (c : Chart α) (i j : Nat) (st : CellState α) :
    Prop extends CellWithin g s (fun _ _ _ _ => True) i j st where
  possible : st.cell.Possible
  tight : st.cell.Tight
  above : c.Above st.cell

theorem commitEdge_above (hg : t.grammar = g) (h : CellAbove g s c i j st)
    (he : EdgeWithin g (fun _ _ _ _ => True) i j e) (hrest : ∀ e' ∈ rest, e' ∈ st.queue)
    (hbetter : ¬ e.inside ≤ present c st.cell e) (best : α) :
    CellAbove g s c i j (commitEdge t st e rest best) := by
  have hnt : e.nonterminal < st.cell.held.size := h.cell.size_eq ▸ he.nt_lt
  rw [Score.not_le] at hbetter
  have hcell := Score.lt_of_le_of_lt (Score.le_best_left _ _) hbetter
  have hchart := Score.lt_of_le_of_lt (Score.le_best_right _ _) hbetter
  refine ⟨commitEdge_within (ruleClosed_all g s) hg h.toCellWithin he hrest best,
    Scratch.possible_add Accumulator.keepsPossible_best h.possible hnt, h.tight.add hnt,
    fun A held hA => ?_⟩
  have hspan : (commitEdge t st e rest best).cell = st.cell.add .best e.toEntry := rfl
  rw [hspan] at hA ⊢
  rw [Scratch.find?_add_of_lt h.tight hnt hcell] at hA
  rw [Scratch.start_add, Scratch.stop_add]
  split at hA
  · next heq =>
    obtain rfl := Option.some.inj hA
    rw [heq, h.cell.start_eq, h.cell.stop_eq, ← he.start_eq, ← he.stop_eq]
    exact hchart
  · exact h.above A held hA

theorem commitBest_above (hg : t.grammar = g) (width : Nat) (h : CellAbove g s c i j st) :
    CellAbove g s c i j (commitBest t c width st) := by
  induction width generalizing st with
  | zero => exact h
  | succ width ih =>
    unfold commitBest
    split
    · exact h
    · next e rest best hnext =>
      obtain ⟨dropped, hqueue, -, hbetter⟩ := nextImprovement_eq_some hnext
      refine ih (commitEdge_above hg h (h.queue e (by simp [hqueue])) (fun e' he' => ?_) hbetter best)
      simp [hqueue, he']

/-- Two searches of a sentence that have filled the same cells. -/
structure StateBeside (g : Grammar α) (s : Sentence) (st st' : State α) : Prop where
  chart : Same g st.chart st'.chart
  shaped : StateWithin g s (fun _ _ _ _ => True) st
  table_eq : st.table = st'.table
  stats_eq : st.stats = st'.stats

omit [MonotoneScore α] in
theorem opened_above (hg : t.grammar = g) (segments i j : Nat) {st : State α}
    (h : StateWithin g s (fun _ _ _ _ => True) st) :
    CellAbove g s st.chart i j (opened t segments st i j) := by
  refine ⟨opened_within (ruleClosed_all g s) hg segments i j h, fun A held hA => ?_,
    Scratch.tight_empty i j _, fun A held hA => ?_⟩
  · simp [opened] at hA
  · simp [opened] at hA

theorem fillCell_beside (hg : t.grammar = g) (segments : Nat) {st st' : State α}
    (h : StateBeside g s st st') (hij : i < j) (hj : j ≤ s.size)
    (hfits : (fillCell t segments st (i, j)).chart.Fits) :
    StateBeside g s (fillCell t segments st (i, j)) (fillCell t segments st' (i, j)) := by
  have hopened : opened t segments st i j = opened t segments st' i j := by
    rw [opened, opened, candidates_congr h.chart, h.table_eq, h.stats_eq]
  have hfilled : commitBest t st.chart t.width (opened t segments st i j) =
      commitBest t st'.chart t.width (opened t segments st' i j) := by
    rw [hopened, commitBest_congr h.chart.inside_eq]
  have habove := commitBest_above hg t.width (opened_above hg segments i j h.shaped)
  have hj' : j ≤ st.chart.size := h.shaped.chart.size_eq ▸ hj
  refine ⟨?_, fillCell_within (ruleClosed_all g s) hg segments hij hj h.shaped,
    congrArg CellState.table hfilled, congrArg CellState.stats hfilled⟩
  rw [chart_fillCell] at hfits ⊢
  rw [chart_fillCell, ← hfilled]
  exact h.chart.commit ⟨habove.cell.toShaped, habove.possible⟩ habove.above hij hj' hfits

/-- Enters a word into a chart. -/
def commitWord (g : Grammar α) (s : Sentence) (state : Chart α × Stats) (start : Nat) :
    Chart α × Stats :=
  (state.1.commit (Exhaustive.lexicalCell g .best s start).1,
    { state.2 with
      considered := state.2.considered + (Exhaustive.lexicalCell g .best s start).2
      added := state.2.added + (Exhaustive.lexicalCell g .best s start).1.size })

omit [MonotoneScore α] in
theorem commitWords_eq (g : Grammar α) (s : Sentence) (c : Chart α) :
    commitWords g s c = (List.range s.size).foldl (commitWord g s) (c, Stats.zero) := rfl

theorem commitWords_beside (h : Beside g s [] (c, Stats.zero) (c', Stats.zero))
    (hfits : (commitWords g s c).1.Fits) :
    Beside g s ((List.range s.size).map fun i => (i, i + 1)) (commitWords g s c)
      (commitWords g s c') := by
  rw [commitWords_eq] at hfits ⊢
  rw [commitWords_eq]
  refine foldl_prefix_induction (P := fun visited state =>
    state.1.Fits → Beside g s (visited.map fun i => (i, i + 1)) state
      (visited.foldl (commitWord g s) (c', Stats.zero)))
    (List.range s.size) (fun visited i rest state hsplit hv hfits => ?_) (fun _ => h) hfits
  rw [List.foldl_append, List.foldl_cons, List.foldl_nil]
  have hbefore := hv (Chart.fits_of_fits_commit hfits)
  have hi : i ∈ List.range s.size := by
    rw [hsplit]
    simp
  have hnew : (i, i + 1) ∉ visited.map fun i => (i, i + 1) := by
    have hnodup := List.nodup_range (n := s.size)
    rw [hsplit, List.nodup_append] at hnodup
    simp only [List.mem_map, Prod.mk.injEq, not_exists, not_and]
    rintro k hk rfl
    exact absurd rfl (hnodup.2.2 k hk k List.mem_cons_self)
  rw [List.map_append, commitWord, commitWord, ← hbefore.stats_eq]
  exact hbefore.commit
    (Exhaustive.lexicalCell_gathers Accumulator.keepsPossible_best g s i).toProper
    (Nat.lt_succ_self i) (List.mem_range.1 hi) hnew hfits _

omit [MonotoneScore α] in
theorem fits_of_fits_fillCells (segments : Nat) (spans : List (Nat × Nat)) {st : State α}
    (h : (spans.foldl (fillCell t segments) st).chart.Fits) : st.chart.Fits := by
  induction spans generalizing st with
  | nil => exact h
  | cons span rest ih => exact Chart.fits_of_fits_commit (ih h)

theorem fillCells_beside (hg : t.grammar = g) (segments : Nat) {st st' : State α}
    (h : StateBeside g s st st')
    (hfits : ((spansUp s.size).foldl (fillCell t segments) st).chart.Fits) :
    StateBeside g s ((spansUp s.size).foldl (fillCell t segments) st)
      ((spansUp s.size).foldl (fillCell t segments) st') := by
  refine spansUp_induction (P := fun visited state =>
    state.chart.Fits → StateBeside g s state (visited.foldl (fillCell t segments) st'))
    (fun _ => h) (fun visited i j state hij hj _ _ _ hv hfits => ?_) hfits
  rw [List.foldl_append, List.foldl_cons, List.foldl_nil]
  exact fillCell_beside hg segments (hv (Chart.fits_of_fits_commit hfits)) hij hj hfits

/-- Side by side the searches leave charts that find the same, and the same merit table and counts. -/
theorem search_beside (merit : Merit α) (width : Nat) (delta : α) (segments : Nat) (summing : Bool)
    (h : Same g c c') (hshaped : c.Within g s fun _ _ _ _ => True)
    (hblank : ∀ k l A, c.get? k l A = none)
    (hfits : (search g merit width delta segments summing s c).chart.Fits) :
    StateBeside g s (search g merit width delta segments summing s c)
      (search g merit width delta segments summing s c') := by
  unfold search at hfits ⊢
  dsimp only at hfits ⊢
  have hwords := commitWords_beside ⟨h, hshaped.size_eq, fun k l A _ => hblank k l A, rfl⟩
    (fits_of_fits_fillCells segments _ hfits)
  rw [← Merit.forSentence_congr hwords.chart, ← wordTable_congr hwords.chart, ← hwords.stats_eq]
  have hshapedWords := commitWords_within (ruleClosed_all g s) hshaped
  exact fillCells_beside (g := g) rfl segments
    ⟨hwords.chart, ⟨hshapedWords, wordTable_within _ summing hshapedWords⟩, rfl, rfl⟩ hfits

end Beam

/-! ## Any parse -/

namespace Parser

variable {p : Parser α}

/-- The parser with another storage. -/
def inStorage (p : Parser α) (storage : Storage) : Parser α :=
  { p with options := { p.options with storage } }

theorem same_emptyChart (g : Grammar α) (size : Nat) :
    Same g (emptyChart g .slots size) (emptyChart g .packed size) where
  sound := sound_emptyChart g .slots size
  sound' := sound_emptyChart g .packed size
  inRows := trivial
  plain := trivial
  plain' := PackedChart.plain_empty size g
  size_eq := (size_emptyChart g .slots size).trans (size_emptyChart g .packed size).symm
  get?_eq := by
    funext i j A
    rw [get?_emptyChart, get?_emptyChart]

/-- What is decoded from charts that find the same is the same. -/
theorem decode_congr {found found' : Searched α} (h : Same p.grammar found.chart found'.chart)
    (htable : found.meritTable = found'.meritTable) (s : Sentence) :
    (p.decode s found).1 = (p.decode s found').1 ∧
      (p.decode s found).2.inside = (p.decode s found').2.inside ∧
      (p.decode s found).2.entries = (p.decode s found').2.entries ∧
      (p.decode s found).2.get? = (p.decode s found').2.get? := by
  have hviterbi := h.viterbiTree?_eq p.grammar.symbols s.words p.grammar.start
  have hmerit : p.meritTree? s found = p.meritTree? s found' := by
    rw [meritTree?, meritTree?, hviterbi, htable]
  unfold decode
  dsimp only
  rw [h.toPacked_eq, hmerit, hviterbi]
  split
  · exact ⟨rfl, rfl, rfl, rfl⟩
  · exact ⟨rfl, h.inside_eq, h.entries_eq, h.get?_eq⟩

variable [MonotoneScore α]

/-- A search leaves the same in either storage. -/
theorem search_congr (hstrategy : p.options.strategy ≠ .agenda)
    (hsums : p.options.strategy = .exhaustive → p.options.accumulator.KeepsPossible) (s : Sentence)
    (hfits : ((p.inStorage .slots).search s).chart.Fits) :
    Same p.grammar ((p.inStorage .slots).search s).chart ((p.inStorage .packed).search s).chart ∧
      ((p.inStorage .slots).search s).meritTable = ((p.inStorage .packed).search s).meritTable ∧
      ((p.inStorage .slots).search s).stats = ((p.inStorage .packed).search s).stats := by
  have hempty := same_emptyChart p.grammar s.size
  have hblank := get?_emptyChart p.grammar .slots s.size
  cases h : p.options.strategy with
  | agenda => exact absurd h hstrategy
  | exhaustive =>
    rw [search_eq_exhaustive (p := p.inStorage .slots) h] at hfits ⊢
    rw [search_eq_exhaustive (p := p.inStorage .packed) h] 
    obtain ⟨hchart, hstats⟩ := Exhaustive.fill_same (hsums h) p.options.segments hempty
      (size_emptyChart ..) hblank hfits
    exact ⟨hchart, rfl, hstats⟩
  | beam =>
    rw [search_eq_beam (p := p.inStorage .slots) h] at hfits ⊢
    rw [search_eq_beam (p := p.inStorage .packed) h] 
    have hbeside := Beam.search_beside p.merit p.options.beamWidth p.options.beamDelta
      p.options.segments (p.options.decoder == .meritSum) hempty
      (within_emptyChart p.grammar .slots s) hblank hfits
    exact ⟨hbeside.chart, congrArg some hbeside.table_eq, hbeside.stats_eq⟩

/-- A parser of pairs by a beam search. -/
def storedPairs : Parser (WithBot ℤ) :=
  ⟨Chain.pairs, { Chain.options with strategy := .beam }, .inside⟩

end Parser

end Constituency
