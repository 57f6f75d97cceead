import Constituency.Decode.Constituents
import Constituency.Proofs.Chart.Posterior

/-!
# The choices of a decoder by constituents

The cells are filled from the shortest spans to the longest ones, and the choice for a cell depends on no
choice but those for its halves, so that every choice is made as if the table were finished already
(`get_choices`). A choice is one of the candidates of its cell, and these are the labels of its entries.
-/

namespace Constituency

namespace ConstituentTask

variable {α : Type} [Score α] {t : ConstituentTask α} {i j : Nat} {choices choices' : Choices α}
  {cell : ConstituentCell α} {best : Candidate α} {candidates : List (Candidate α)}
  {A : NonTerminal}

/-! ## Candidates -/

/-- The label of the entries of a non-terminal: the non-terminal itself, or its coarse category. -/
def labelFor (t : ConstituentTask α) (A : NonTerminal) : NonTerminal :=
  if t.coarse then t.grammar.symbols.base A else A

omit [Score α] in
theorem rootLabel_eq (t : ConstituentTask α) : t.rootLabel = t.labelFor t.grammar.start := rfl

/-- An entry is a candidate of its cell, unless it spans the sentence and has another label than the
root. -/
theorem exists_candidate (ht : t.chart.Sound t.grammar) (hA : A ∈ t.chart.symbols i j)
    (hroot : j - i = t.chart.size → t.labelFor A = t.rootLabel) :
    ∃ c ∈ t.candidates i j, c.label = t.labelFor A := by
  have hall : ∃ c ∈ (if t.coarse then t.baseCandidates i j else t.splitCandidates i j),
      c.label = t.labelFor A := by
    obtain ⟨x, hx, rfl⟩ := List.mem_map.1 hA
    rw [labelFor]
    split
    · have hsplit : x ∈ (t.chart.row i j).filter
          (t.grammar.symbols.base ·.nonterminal == t.grammar.symbols.base x.nonterminal) :=
        List.mem_filter.2 ⟨hx, beq_self_eq_true _⟩
      have hlt : x.nonterminal < t.grammar.symbols.numNonterminals :=
        (ht.rows i j).nonterminal_lt x hx
      obtain ⟨first, rest, hsplits⟩ := List.exists_cons_of_ne_nil (List.ne_nil_of_mem hsplit)
      have htop : ∃ top, mostProbable ((t.chart.row i j).filter
          (t.grammar.symbols.base ·.nonterminal == t.grammar.symbols.base x.nonterminal)) =
            some top := by
        rw [hsplits]
        exact ⟨_, rfl⟩
      obtain ⟨top, htop⟩ := htop
      have hbase := List.mem_range.2 (SymbolTable.base_lt hlt)
      exact ⟨_, List.mem_filterMap.2 ⟨_, hbase, Option.map_eq_some_iff.2 ⟨top, htop, rfl⟩⟩, rfl⟩
    · exact ⟨_, List.mem_map_of_mem hx, rfl⟩
  obtain ⟨c, hc, hlabel⟩ := hall
  refine ⟨c, ?_, hlabel⟩
  rw [candidates]
  split
  · next hwhole =>
    rw [← hroot (beq_iff_eq.1 hwhole), ← hlabel]
    exact List.mem_filter.2 ⟨hc, beq_self_eq_true _⟩
  · exact hc

/-- A candidate has the label of an entry of its cell. -/
theorem exists_symbol_of_mem_candidates (h : best ∈ t.candidates i j) :
    ∃ A ∈ t.chart.symbols i j, t.labelFor A = best.label := by
  have hall : best ∈ (if t.coarse then t.baseCandidates i j else t.splitCandidates i j) := by
    rw [candidates] at h
    split at h
    · exact (List.mem_filter.1 h).1
    · exact h
  simp only [labelFor]
  split at hall
  · next hcoarse =>
    obtain ⟨base, -, hbest⟩ := List.mem_filterMap.1 hall
    obtain ⟨x, hx, rfl⟩ := Option.map_eq_some_iff.1 hbest
    cases hsplits : (t.chart.row i j).filter
        (t.grammar.symbols.base ·.nonterminal == base) with
    | nil =>
      rw [hsplits] at hx
      cases hx
    | cons first rest =>
      have hfirst : first ∈ (t.chart.row i j).filter
          (t.grammar.symbols.base ·.nonterminal == base) := hsplits ▸ List.mem_cons_self
      obtain ⟨hrow, hbase⟩ := List.mem_filter.1 hfirst
      exact ⟨first.nonterminal, List.mem_map_of_mem hrow, by
        rw [if_pos hcoarse]; exact beq_iff_eq.1 hbase⟩
  · next hcoarse =>
    obtain ⟨x, hx, rfl⟩ := List.mem_map.1 hall
    exact ⟨x.nonterminal, List.mem_map_of_mem hx, if_neg hcoarse⟩

theorem isSome_bestCandidate?_of_mem (h : best ∈ candidates) :
    (bestCandidate? candidates).isSome = true := by
  cases candidates with
  | nil => cases h
  | cons first rest => rfl

theorem better_eq (a b : Candidate α) : better a b = a ∨ better a b = b := by
  unfold better
  dsimp only
  split
  · exact .inr rfl
  · exact .inl rfl

theorem mem_of_bestCandidate? (h : bestCandidate? candidates = some best) : best ∈ candidates := by
  cases candidates with
  | nil => cases h
  | cons first rest =>
    obtain rfl := Option.some.inj h
    refine foldl_prefix_induction (P := fun _ best => best ∈ first :: rest) rest
      (fun visited x after best hsplit hbest => ?_) List.mem_cons_self
    rcases better_eq best x with heq | heq
    · rwa [heq]
    · rw [heq, hsplit]
      simp

/-- The candidate chosen for a cell is one of those of the cell. -/
theorem mem_candidates_of_choose (h : t.choose choices i j = some cell) :
    cell.toCandidate ∈ t.candidates i j := by
  obtain ⟨best, hbest, hcell⟩ := Option.bind_eq_some_iff.1 h
  have hmem := mem_of_bestCandidate? hbest
  split at hcell
  · obtain rfl := Option.some.inj hcell
    exact hmem
  · obtain ⟨⟨halves, midpoint⟩, -, rfl⟩ := Option.map_eq_some_iff.1 hcell
    exact hmem

theorem label_eq_rootLabel {candidate : Candidate α}
    (h : candidate ∈ t.candidates 0 t.chart.size) : candidate.label = t.rootLabel := by
  rw [candidates, Nat.sub_zero, if_pos (beq_self_eq_true _)] at h
  exact beq_iff_eq.1 (List.mem_filter.1 h).2

/-! ## The table of choices -/

/-- The best midpoint depends on the choices for the halves. -/
theorem bestSplit?_congr
    (h : ∀ m, i < m → m < j →
      choices.get i m = choices'.get i m ∧ choices.get m j = choices'.get m j) :
    bestSplit? choices i j = bestSplit? choices' i j := by
  unfold bestSplit?
  dsimp only
  congr 1
  refine List.filterMap_congr fun m hm => ?_
  rw [mem_midpoints] at hm
  rw [(h m hm.1 hm.2).1, (h m hm.1 hm.2).2]

theorem choose_congr
    (h : ∀ m, i < m → m < j →
      choices.get i m = choices'.get i m ∧ choices.get m j = choices'.get m j) :
    t.choose choices i j = t.choose choices' i j := by
  unfold choose
  rw [bestSplit?_congr h]

/-- The choices for some spans are made and no others. -/
structure Chosen (t : ConstituentTask α) (visited : List (Nat × Nat)) (choices : Choices α) :
    Prop where
  size_eq : choices.size = t.chart.size
  blank_eq : choices.blank = none
  chosen : ∀ k l, (k, l) ∈ visited → choices.get k l = t.choose choices k l

theorem chosen_choices (t : ConstituentTask α) : t.Chosen (spansUp t.chart.size) t.choices := by
  refine spansUp_induction (P := t.Chosen) ⟨rfl, rfl, nofun⟩
    fun visited i j choices hij hj hnew _ hshorter hv => ?_
  have hj' : j ≤ choices.size := hv.size_eq ▸ hj
  have hget := SpanTable.get_set hij hj' (t.choose choices i j)
  -- no half of a span visited so far is the span whose turn it is
  have hcongr : ∀ k l, l - k ≤ j - i →
      t.choose choices k l = t.choose (choices.set i j (t.choose choices i j)) k l := by
    intro k l hkl
    refine choose_congr fun m hkm hml => ?_
    rw [hget, hget, if_neg (by omega), if_neg (by omega)]
    exact ⟨rfl, rfl⟩
  refine ⟨(SpanTable.size_set ..).trans hv.size_eq, (SpanTable.blank_modify ..).trans hv.blank_eq,
    fun k l hmem => ?_⟩
  rcases List.mem_append.1 hmem with hkl | hkl
  · rw [hget, if_neg (by rintro ⟨rfl, rfl⟩; exact hnew hkl), hv.chosen k l hkl]
    exact hcongr k l (hshorter k l hkl)
  · obtain ⟨rfl, rfl⟩ := Prod.mk.inj (List.mem_singleton.1 hkl)
    rw [hget, if_pos ⟨rfl, rfl⟩]
    exact hcongr k l (Nat.le_refl _)

/-- Every choice is made over the finished table. -/
theorem get_choices (hij : i < j) (hj : j ≤ t.chart.size) :
    t.choices.get i j = t.choose t.choices i j :=
  (chosen_choices t).chosen i j (mem_spansUp.2 ⟨hij, hj⟩)

theorem bounds_of_get_choices (h : t.choices.get i j = some cell) :
    i < j ∧ j ≤ t.chart.size := by
  refine Classical.byContradiction fun hcov => ?_
  rw [← (chosen_choices t).size_eq] at hcov
  rw [SpanTable.get_of_not_covers hcov, (chosen_choices t).blank_eq] at h
  cases h

theorem mem_candidates_of_get_choices (h : t.choices.get i j = some cell) :
    cell.toCandidate ∈ t.candidates i j := by
  obtain ⟨hij, hj⟩ := bounds_of_get_choices h
  rw [get_choices hij hj] at h
  exact mem_candidates_of_choose h

end ConstituentTask

end Constituency
