import Constituency.Proofs.Chart.Possible
import Constituency.Proofs.Chart.Storage
import Constituency.Proofs.Chart.Supported

/-!
# What the posterior passes leave as it was

The inside pass forgets the scores of a chart and adds them up anew from its entries, and the outside pass
adds what surrounds them. Which entries there are, how they were derived and how their children are packed
stays. No entry comes out impossible if each has a derivation from entries of the chart
(`Chart.Sustained.survives`): such a derivation may be cut short until no symbol comes twice on a chain of
unary rules, and then the levels of the inside pass reach it.
-/

namespace Constituency

namespace PackedChart

variable {α : Type} [Score α] {g : Grammar α} {s : Sentence} {c c' : PackedChart α} {i j : Nat}
  {A : NonTerminal}

theorem Reweighed.packedChildren_eq (h : Reweighed c c') (hcode : c'.code = c.code) (i j : Nat) :
    c'.packedChildren i j = c.packedChildren i j := by
  have hrow := congrArg (List.map fun x : NonTerminal × Backpointer => x.2.encode c.code j)
    (h.kept_eq i j)
  rw [List.map_map, List.map_map] at hrow
  rwa [packedChildren, packedChildren, hcode]

/-- The inside pass keeps the code. -/
theorem code_resum (acc : Accumulator α) (g : Grammar α) (terminals : List (Option Terminal))
    (c : PackedChart α) : (c.resum acc g terminals).code = c.code := by
  refine foldl_prefix_induction (P := fun _ (c' : PackedChart α) => c'.code = c.code)
    (spansUp c.size) (fun _ _ _ _ _ hv => ?_) rfl
  exact hv

theorem code_passDown (acc : Accumulator α) (g : Grammar α) (c : PackedChart α)
    (span : Nat × Nat) : (passDown acc g c span).code = c.code := by
  refine foldl_prefix_induction (P := fun _ (c' : PackedChart α) => c'.code = c.code) _
    (fun _ x _ c' _ hv => ?_) rfl
  unfold contribute
  split
  · exact hv
  · exact hv

/-- The outside pass keeps the code. -/
theorem code_surround (acc : Accumulator α) (g : Grammar α) (c : PackedChart α) :
    (c.surround acc g).code = c.code :=
  foldl_prefix_induction (P := fun _ (c' : PackedChart α) => c'.code = c.code) (spansDown c.size)
    (fun _ span _ c' _ hv => (code_passDown acc g c' span).trans hv) rfl

/-- The inside pass gives what has a possible derivation a possible score. -/
theorem possible_resum_of_grounded [LosslessScore α] (acc : Accumulator α) (hc : c.Sound g)
    (h : Grounded g s c.Live i j A) :
    Score.impossible < (c.resum acc g s.terminals).inside i j A := by
  obtain ⟨d, hd, hpos⟩ := h
  have hunaries : d.UnariesSatisfy (fun _ _ _ => True) i :=
    hd.unariesSatisfy fun _ _ _ _ => trivial
  obtain ⟨e, he, hdirect⟩ := hd.exists_direct hpos hunaries
  exact possible_resum hc he hdirect

end PackedChart

namespace Chart

variable {α : Type} [Score α] {g : Grammar α} {s : Sentence} {c : Chart α}

theorem entries_toPacked (h : c.Sound g) (i j : Nat) :
    (c.toPacked g).entries i j = c.entries i j := by
  obtain ⟨hpacked, -, hget⟩ := toPacked_spec h
  refine eq_of_ascending (·.nonterminal) (entries_pairwise (c := packed (c.toPacked g)) hpacked i j)
    (entries_pairwise h i j) fun e => ?_
  rw [mem_entries h, ← hget]
  exact mem_entries (c := packed (c.toPacked g)) hpacked

/-- The chart in rows after both posterior passes over the words of a sentence. -/
def posteriors (inner outer : Accumulator α) (g : Grammar α) (s : Sentence) (c : Chart α) :
    PackedChart α :=
  ((c.toPacked g).resum inner g s.terminals).surround outer g

/-- Rows with the entries of a chart, each of which has a possible score. -/
structure Survives (g : Grammar α) (c : Chart α) (w : PackedChart α) : Prop where
  /-- Every cell has the same symbols with the same backpointers. -/
  entries_eq : ∀ i j, (w.entries i j).map (fun e => (e.nonterminal, e.backpointer)) =
    (c.entries i j).map fun e => (e.nonterminal, e.backpointer)
  /-- Their children and midpoints are packed as they were. -/
  packedChildren_eq : ∀ i j, w.packedChildren i j = (c.toPacked g).packedChildren i j
  numEntries_eq : w.numEntries = (c.toPacked g).numEntries
  possible : ∀ i j, ∀ e ∈ w.entries i j,
    Score.impossible < e.inside ∧ Score.isNaN e.inside = false
  hasParse_eq : (packed w).hasParse g.start = c.hasParse g.start
  possible_iff : Score.impossible < w.inside 0 w.size g.start ↔ c.hasParse g.start = true

/-- A chart has a parse if the start symbol has a possible score over the whole of it. -/
theorem Sound.hasParse_iff [MonotoneScore α] (h : c.Sound g) {A : NonTerminal} :
    c.hasParse A = true ↔ Score.impossible < c.inside 0 c.size A := by
  rw [hasParse, Bool.and_eq_true, decide_eq_true_iff, decide_eq_true_iff]
  refine ⟨And.right, fun hpos => ⟨?_, hpos⟩⟩
  obtain ⟨e, he⟩ := h.exists_get?_of_possible hpos
  exact (h.bounds he).1

/-- In a possible chart the symbols with a possible score are those with an entry. -/
theorem Possible.lt_inside_iff [MonotoneScore α] (hpos : c.Possible) (h : c.Sound g) {i j : Nat}
    {A : NonTerminal} : Score.impossible < c.inside i j A ↔ c.Live i j A := by
  constructor
  · intro hA
    exact Option.isSome_iff_exists.2 (h.exists_get?_of_possible hA)
  · intro hA
    obtain ⟨e, he⟩ := Option.isSome_iff_exists.1 hA
    rw [h.inside_of_get? he]
    exact hpos i j A e he

/-- A chart survives the posterior passes if its entries are possible and have derivations. -/
theorem Sustained.survives [LosslessScore α] (h : c.Sustained g s)
    (hsupported : Supported g s c.Live) (inner outer : Accumulator α) :
    c.Survives g (c.posteriors inner outer g s) := by
  obtain ⟨hpacked, hsize, hget⟩ := toPacked_spec h.sound
  have hsame := PackedChart.reweighed_surround_resum inner outer hpacked s.terminals
  have hsummed := (PackedChart.reweighed_resum inner hpacked s.terminals).sound hpacked
  have hsound : (packed (c.posteriors inner outer g s)).Sound g := hsame.sound hpacked
  have hlive : (c.toPacked g).Live = c.Live := by
    funext i j A
    rw [PackedChart.Live, hget]
    rfl
  have hkept : (packed (c.posteriors inner outer g s)).Live = c.Live := by
    funext i j A
    rw [← hlive]
    exact congrArg (· = true) (hsame.isSome_get? hpacked)
  have halive : ∀ i j A, c.Live i j A →
      Score.impossible < (c.posteriors inner outer g s).inside i j A := by
    intro i j A hA
    rw [posteriors, (PackedChart.sameInside_surround outer hsummed).inside_eq]
    exact PackedChart.possible_resum_of_grounded inner hpacked (hlive ▸ hsupported i j A hA)
  have hpossible : (packed (c.posteriors inner outer g s)).Possible := by
    intro i j A e he
    rw [← hsound.inside_of_get? he]
    exact halive i j A (hkept ▸ Option.isSome_iff_exists.2 ⟨e, he⟩)
  have hroot : Score.impossible < (packed (c.posteriors inner outer g s)).inside 0
      (packed (c.posteriors inner outer g s)).size g.start ↔ c.hasParse g.start = true := by
    rw [hpossible.lt_inside_iff hsound, hkept, h.sound.hasParse_iff,
      h.possible.lt_inside_iff h.sound, show (packed (c.posteriors inner outer g s)).size = c.size
        from hsame.size_eq.trans hsize]
  refine
    { entries_eq := fun i j => ?_
      packedChildren_eq := hsame.packedChildren_eq
        ((PackedChart.code_surround ..).trans (PackedChart.code_resum ..))
      numEntries_eq := hsame.numEntries_eq
      possible := fun i j e he => ?_
      hasParse_eq := Bool.eq_iff_iff.2 (hsound.hasParse_iff.trans hroot)
      possible_iff := hroot }
  · rw [← entries_toPacked h.sound]
    have hrow := hsame.kept_eq i j
    rw [PackedChart.entries, PackedChart.entries, List.map_map, List.map_map]
    exact hrow
  · exact ⟨hpossible i j e.nonterminal e ((mem_entries hsound).1 he),
      MonotoneScore.isNaN_eq_false e.inside⟩

end Chart

end Constituency
