import Constituency.Proofs.Search.Gather
import Constituency.Proofs.Search.Strategy

/-!
# Derivations counted in segments

In however many segments the halves of a span are crossed, each derivation is counted once: the cell of a
segment combines the derivations whose left child lies in it, and merging puts disjoint sets together. So a
parser whose search is exhaustive finds what a search in one segment counts (`filled_of_exhaustive`).
-/

namespace Constituency

namespace Exhaustive

variable {α : Type} [Score α] [MonotoneScore α] {g : Grammar α} {acc : Accumulator α}
  {s : Sentence} {Combines : Set (Derivation α) → α → Prop} {c : Chart α} {i j count : Nat}
  {A : NonTerminal}

/-- The derivations of a set that some entries for a symbol stand for. -/
def represented (i : Nat) (A : NonTerminal) (F : Set (Derivation α)) (entries : List (Entry α)) :
    Set (Derivation α) :=
  {d | d ∈ F ∧ ∃ e ∈ entries, e.nonterminal = A ∧ d.backpointer i = e.backpointer}

omit [Score α] [MonotoneScore α] in
theorem represented_append (i : Nat) (A : NonTerminal) (F : Set (Derivation α))
    (entries more : List (Entry α)) :
    represented i A F (entries ++ more) =
      represented i A F entries ∪ represented i A F more := by
  ext d
  simp only [represented, List.mem_append, Set.mem_union, Set.mem_ofPred_eq, or_and_right, exists_or,
    and_or_left]

section Cell

variable (h : Combination acc Combines)
include h

/-- A cell filled from entries alone combines what they stand for. -/
theorem combines_filled_represented {entries : List (Entry α)}
    (hnt : ∀ e ∈ entries, e.nonterminal < g.numNonterminals) (hdistinct : Distinct entries)
    {F : Set (Derivation α)} (hfinite : F.Finite)
    (hentries : ∀ e ∈ entries, e.nonterminal = A →
      Combines {d | d ∈ F ∧ d.backpointer i = e.backpointer} e.inside) :
    Combines (represented i A F entries) ((filled g acc i j entries).inside A) := by
  refine combines_filled h hnt hdistinct (hfinite.subset fun d hd => hd.1) (fun e he hA => ?_)
    fun d hd _ => hd.2
  have hset : {d | d ∈ represented i A F entries ∧ d.backpointer i = e.backpointer} =
      {d | d ∈ F ∧ d.backpointer i = e.backpointer} := by
    ext d
    exact ⟨fun hd => ⟨hd.1.1, hd.2⟩, fun hd => ⟨⟨hd.1, e, he, hA, hd.2⟩, hd.2⟩⟩
  exact hset ▸ hentries e he hA

/-- Cells filled from parts of a list of entries and then merged combine what all entries stand for. -/
theorem combines_foldl_merge {parts : List (List (Entry α))}
    (hnt : ∀ part ∈ parts, ∀ e ∈ part, e.nonterminal < g.numNonterminals)
    (hdistinct : Distinct parts.flatten) {F : Set (Derivation α)} (hfinite : F.Finite)
    (hentries : ∀ e ∈ parts.flatten, e.nonterminal = A →
      Combines {d | d ∈ F ∧ d.backpointer i = e.backpointer} e.inside)
    {cell : Scratch α} (hcell : cell.Proper g i j) {E : Set (Derivation α)}
    (hE : Combines E (cell.inside A)) (hdisjoint : Disjoint E (represented i A F parts.flatten)) :
    Combines (E ∪ represented i A F parts.flatten)
      (((parts.map (filled g acc i j)).foldl (Scratch.merge acc) cell).inside A) := by
  induction parts generalizing cell E with
  | nil =>
    have hnone : represented i A F ([] : List (Entry α)) = ∅ := by
      ext d
      simp [represented]
    rwa [List.flatten_nil, hnone, Set.union_empty]
  | cons part rest ih =>
    rw [List.flatten_cons] at hdistinct hentries hdisjoint
    rw [represented_append, Set.disjoint_union_right] at hdisjoint
    obtain ⟨hpart, hrest, hacross⟩ := List.pairwise_append.1 hdistinct
    have hfilled := filled_gathers (i := i) (j := j) h.keepsPossible (hnt part List.mem_cons_self)
    have hcombines := combines_filled_represented h (j := j) (hnt part List.mem_cons_self) hpart
      hfinite fun e he => hentries e (List.mem_append_left _ he)
    have hmerged : Combines (E ∪ represented i A F part)
        ((Scratch.merge acc cell (filled g acc i j part)).inside A) := by
      rw [Scratch.inside_merge hcell.possible hfilled.possible
        (hcell.size_eq.trans hfilled.size_eq.symm)]
      exact h.union hE hcombines hdisjoint.1
    -- no derivation is represented in two parts, since the entries have backpointers of their own
    have hparts : Disjoint (represented i A F part) (represented i A F rest.flatten) := by
      rw [Set.disjoint_left]
      rintro d ⟨-, e, he, hA, hb⟩ ⟨-, e', he', hA', hb'⟩
      exact hacross e he e' he' (hA.trans hA'.symm) (hb.symm.trans hb')
    rw [List.flatten_cons, represented_append, ← Set.union_assoc]
    exact ih (fun p hp => hnt p (List.mem_cons_of_mem _ hp)) hrest
      (fun e he => hentries e (List.mem_append_right _ he))
      (hcell.merge hfilled.toProper h.keepsPossible) hmerged
      (Set.disjoint_union_left.2 ⟨hdisjoint.2, hparts⟩)

/-- The binary rules over a span whose parts are complete, in any number of segments. -/
theorem combines_crossCell_segments (hc : c.Sound g)
    (hparts : ∀ k l A, i ≤ k → k < l → l ≤ j → l - k < j - i →
      Combines (single g s k l A) (c.inside k l A))
    (hij : i + 1 < j) (A : NonTerminal) :
    Combines (base g s i j A) ((crossCell g acc count c i j).1.inside A) := by
  have hone := combines_crossCell h hc hparts hij A
  rw [crossCell, if_pos (Nat.le_refl 1)] at hone
  rw [crossCell]
  split
  · exact hone
  · next hcount =>
    have hpos : 0 < count := by omega
    have hperm : (crossOrder g c count i j).Perm (binaryEntries g c i j fun _ => true) :=
      crossOrder_perm hpos
    have hflat := flatten_segments g c i j hpos
    have hmem : ∀ e, e ∈ ((segments g count).map (binaryEntries g c i j)).flatten ↔
        e ∈ binaryEntries g c i j fun _ => true := fun e => by rw [hflat, hperm.mem_iff]
    have hfinite : (base g s i j A).Finite := (finite_single g s i j A).subset fun _ hd => hd.1
    have hempty : Combines ∅ ((Scratch.empty i j g.numNonterminals : Scratch α).inside A) := by
      rw [Scratch.inside, Scratch.find?_empty]
      exact h.empty
    have hdistinct : Distinct ((segments g count).map (binaryEntries g c i j)).flatten := by
      rw [hflat]
      refine (distinct_binaryEntries hc i j _).perm hperm.symm fun {a b} hab hnt => ?_
      exact (hab hnt.symm).symm
    refine h.extend (combines_foldl_merge h (fun part hpart e he => ?_) hdistinct hfinite
      (fun e he hA => combines_of_mem_binaryEntries h hc hparts ((hmem e).1 he) hA)
      (Scratch.proper_empty g i j) hempty (Set.empty_disjoint _)) (fun d hd => ?_) hfinite
      fun d hd hnot hpos => hnot ?_
    · obtain ⟨inSegment, -, rfl⟩ := List.mem_map.1 hpart
      exact parent_lt_of_mem_binaryEntries he
    · exact hd.elim False.elim And.left
    · obtain ⟨e, he, hA, hb⟩ := exists_binaryEntry_of_mem_base h hc hparts hij hd hpos
      exact .inr ⟨hd, e, (hmem e).2 he, hA, hb⟩

/-- The scratch cell of a span before unary rules. -/
theorem combines_baseCell (hc : c.Sound g) (hij : i < j)
    (hparts : ∀ k l A, i ≤ k → k < l → l ≤ j → l - k < j - i →
      Combines (single g s k l A) (c.inside k l A)) (A : NonTerminal) :
    Combines (base g s i j A) ((baseCell g acc count s c i j).inside A) := by
  unfold baseCell
  split
  · next hone =>
    rw [beq_iff_eq] at hone
    subst hone
    exact combines_lexicalCell h g s i A
  · next hone =>
    rw [beq_iff_eq] at hone
    exact combines_crossCell_segments h hc hparts (by omega) A

end Cell

/-! ## All cells -/

theorem fill_filled_segments (h : Combination acc Combines) (count : Nat) (hc : c.Sound g)
    (hsize : c.size = s.size) (hblank : ∀ k l A, c.get? k l A = none)
    (hfits : (fill g acc count s c).1.Fits) :
    Filled g s Combines (spansUp s.size) (fill g acc count s c).1 := by
  refine spansUp_induction
    (P := fun visited (state : Chart α × Stats) => state.1.Fits →
      Filled g s Combines visited state.1)
    (fun _ => .of_blank hc hsize hblank)
    (fun visited i j state hij hj hnew hshorter _ hv hfits => ?_) hfits
  rw [chart_fillCell] at hfits ⊢
  have hv := hv (Chart.fits_of_fits_commit hfits)
  have hbase := baseCell_gathers h.keepsPossible g state.1 count s i j
  have hcell : (unaryPass g acc (baseCell g acc count s state.1 i j)).1.Proper g i j :=
    (hbase.foldl_add h.keepsPossible fun _ => parent_lt_of_mem_unaryEntries).toProper
  have hcombines := combines_unaryPass h (s := s) hbase.possible hbase.size_eq <|
    combines_baseCell h hv.sound hij fun k l A _ hkl hl hlt =>
      hv.combines k l A (hshorter k l hkl (by omega) hlt)
  exact hv.commit hij hj hnew hcell.possible hcell.size_eq ⟨hcell.start_eq, hcell.stop_eq⟩
    hcombines hfits

end Exhaustive

/-- An exhaustive search combines for each symbol over each span the derivations without unary rules on top
of each other. -/
theorem Parser.filled_of_exhaustive {α : Type} [Score α] [MonotoneScore α] {p : Parser α}
    {Combines : Set (Derivation α) → α → Prop} (hstrategy : p.options.strategy = .exhaustive)
    (h : Combination p.options.accumulator Combines) (s : Sentence)
    (hfits : (p.search s).chart.Fits) :
    Exhaustive.Filled p.grammar s Combines (spansUp s.size) (p.search s).chart := by
  rw [search_exhaustive hstrategy] at hfits ⊢
  exact Exhaustive.fill_filled_segments h p.options.segments (sound_emptyChart ..)
    (size_emptyChart ..) (get?_emptyChart _ _ _) hfits

end Constituency
