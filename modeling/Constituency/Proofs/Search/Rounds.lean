import Constituency.Proofs.Search.Sums
import Constituency.Proofs.Search.Supported

/-!
# One round of unary rules in each cell

An exhaustive search goes over the unary rules of a cell once, from what binary rules and words have put
there. So every entry has a possible derivation from entries of the chart in which no unary rule stands
directly on top of another one, however scores combine and whatever the number of segments
(`search_layered`).
-/

namespace Constituency

variable {α : Type} [Score α] {g : Grammar α} {s : Sentence}
  {live live' : Nat → Nat → NonTerminal → Prop} {i j : Nat} {A : NonTerminal} {b : Backpointer}

/-- The symbol has a possible derivation by way of live places that ends in at most a number of unary
rules, and in which no unary rule stands on top of another one. -/
def Layered (g : Grammar α) (s : Sentence) (live : Nat → Nat → NonTerminal → Prop) (height : Nat)
    (i j : Nat) (A : NonTerminal) : Prop :=
  ∃ d, DerivesIn g s live i j A d ∧ Score.impossible < d.score ∧ d.SingleUnaries ∧
    d.unaryHeight ≤ height

theorem Layered.mono {height height' : Nat} (hle : ∀ i j A, live i j A → live' i j A)
    (hheight : height ≤ height') (h : Layered g s live height i j A) :
    Layered g s live' height' i j A := by
  obtain ⟨d, hd, hpos, hsingle, hd'⟩ := h
  exact ⟨d, hd.mono hle, hpos, hsingle, Nat.le_trans hd' hheight⟩

variable [LosslessScore α]

/-- What is recorded over places that are not of the cell itself needs no unary rule. -/
theorem Records.layered (h : Records g s live b i j A)
    (hlive : ∀ i j A, live i j A → Layered g s live 1 i j A) (hblank : ∀ B, ¬ live i j B)
    (hle : ∀ i j A, live i j A → live' i j A) (hA : live' i j A) :
    Layered g s live' 0 i j A := by
  cases h with
  | word mem children possible terminal =>
    exact ⟨_, .word mem children terminal hA, possible, trivial, Nat.le_refl 0⟩
  | unary mem children possible below => exact absurd below (hblank _)
  | binary mem children possible _ left right =>
    obtain ⟨d, hd, hleft, hsingle, -⟩ := (hlive _ _ _ left).mono hle (Nat.le_refl 1)
    obtain ⟨e, he, hright, hsingle', -⟩ := (hlive _ _ _ right).mono hle (Nat.le_refl 1)
    exact ⟨_, .binary mem children hd he hA, LosslessScore.impossible_lt_add
      (LosslessScore.impossible_lt_add possible hleft) hright, ⟨hsingle, hsingle'⟩, Nat.le_refl 0⟩

namespace Exhaustive

variable {acc : Accumulator α} {c : Chart α} {cell : Scratch α}

theorem baseCell_recorded (acc : Accumulator α) (hc : c.Sound g) (s : Sentence) (count i j : Nat) :
    (baseCell g acc count s c i j).Recorded g s c.Live i j := by
  unfold baseCell
  split
  · next hone =>
    rw [beq_iff_eq] at hone
    exact hone ▸ lexicalCell_recorded acc.keepsPossible g s i
  · exact crossCell_recorded acc.keepsPossible hc s count i j

/-- After the round of unary rules over a cell each of its entries has a derivation with one unary rule
on top at most, if before it they had derivations without. -/
theorem unaryPass_layered (hcell : cell.Shaped g i j)
    (hbase : ∀ A, (cell.find? A).isSome = true →
      Layered g s ((unaryPass g acc cell).1.among live) 0 i j A)
    (hA : ((unaryPass g acc cell).1.find? A).isSome = true) :
    Layered g s ((unaryPass g acc cell).1.among live) 1 i j A := by
  have hnt : ∀ e ∈ unaryEntries g cell.entries, e.nonterminal < cell.held.size := fun _ he =>
    hcell.size_eq ▸ parent_lt_of_mem_unaryEntries he
  have hfinal : (unaryPass g acc cell).1.Shaped g i j := hcell.foldl_add
  have hall : (unaryPass g acc cell).1.All fun A _ =>
      ((unaryPass g acc cell).1.find? A).isSome = true →
        Layered g s ((unaryPass g acc cell).1.among live) 1 i j A := by
    refine Scratch.All.foldl_add (fun A held hA _ => ?_) hnt fun e he hadm hfound => ?_
    · exact (hbase A (Option.isSome_iff_exists.2 ⟨held, hA⟩)).mono (fun _ _ _ h => h) (Nat.zero_le 1)
    · obtain ⟨child, hchild, p, hp, hpc, rfl⟩ := mem_unaryEntries.1 he
      obtain ⟨held, hheld, -⟩ := Scratch.get?_eq_some_iff.1 (Scratch.mem_entries.1 hchild)
      obtain ⟨d, hd, hpos, hsingle, hheight⟩ :=
        hbase child.nonterminal (Option.isSome_iff_exists.2 ⟨held, hheld⟩)
      have hrule := (Score.impossible_lt_of_add (Score.admissible_iff.1 hadm)).1
      have halive : (unaryPass g acc cell).1.among live i j p.parent :=
        .inr ⟨⟨hfinal.start_eq.symm, hfinal.stop_eq.symm⟩, hfound⟩
      refine ⟨.unary p d, .unary hp hpc hd halive, LosslessScore.impossible_lt_add hrule hpos,
        ⟨?_, hsingle⟩, Nat.succ_le_succ hheight⟩
      rw [Derivation.isUnary_eq_false_iff]
      exact Nat.le_zero.1 hheight
  obtain ⟨held, hheld⟩ := Option.isSome_iff_exists.1 hA
  exact hall A held hheld hA

/-- A chart with some of its cells filled, each after one round of unary rules. -/
structure Rounded (g : Grammar α) (s : Sentence) (visited : List (Nat × Nat)) (c : Chart α) :
    Prop extends Backed g s visited c where
  layered : ∀ i j A, c.Live i j A → Layered g s c.Live 1 i j A

theorem fillCell_rounded (acc : Accumulator α) (count : Nat) {stats : Stats}
    {visited : List (Nat × Nat)} (hij : i < j) (hj : j ≤ s.size) (hnew : (i, j) ∉ visited)
    (hfits : (fillCell g acc count s (c, stats) (i, j)).1.Fits) (h : Rounded g s visited c) :
    Rounded g s (visited ++ [(i, j)]) (fillCell g acc count s (c, stats) (i, j)).1 := by
  refine ⟨fillCell_backed acc.keepsPossible count hij hj hnew hfits h.toBacked, ?_⟩
  rw [chart_fillCell] at hfits ⊢
  have hbase := baseCell_recorded acc h.sound s count i j
  have hproper : (unaryPass g acc (baseCell g acc count s c i j)).1.Proper g i j :=
    (unaryPass_upheld acc.keepsPossible hbase.upheld).toProper
  have hlive := Chart.live_commit h.sound hproper hij (h.size_eq ▸ hj) hfits
  have hblank : ∀ B, ¬ c.Live i j B := by
    intro B hB
    rw [Chart.Live, h.blank i j B hnew] at hB
    cases hB
  have hold : ∀ k l B, c.Live k l B →
      (unaryPass g acc (baseCell g acc count s c i j)).1.among c.Live k l B := fun k l B hB => .inl hB
  intro k l B hB
  rw [show (c.commit (unaryPass g acc (baseCell g acc count s c i j)).1).Live = _ from
    funext fun k => funext fun l => funext fun B => propext (hlive k l B)] at hB ⊢
  rcases hB with hB | ⟨hspan, hfound⟩
  · exact (h.layered k l B hB).mono hold (Nat.le_refl 1)
  · rw [hproper.start_eq, hproper.stop_eq] at hspan
    obtain ⟨rfl, rfl⟩ := hspan
    refine unaryPass_layered hbase.toShaped (fun A hA => ?_) hfound
    obtain ⟨b, hb⟩ := hbase.records hA
    refine hb.layered h.layered hblank hold (.inr ⟨⟨?_, ?_⟩, ?_⟩)
    · exact hproper.start_eq.symm
    · exact hproper.stop_eq.symm
    · exact isSome_find?_foldl_add
        (fun e he => hbase.size_eq ▸ parent_lt_of_mem_unaryEntries he) hA

/-- However scores combine, every entry of a filled chart has a possible derivation from its entries in
which no unary rule stands on top of another one. -/
theorem fill_layered (acc : Accumulator α) (count : Nat) (hc : c.Sound g)
    (hsize : c.size = s.size) (hblank : ∀ k l A, c.get? k l A = none)
    (hfits : (fill g acc count s c).1.Fits) (hA : (fill g acc count s c).1.Live i j A) :
    Layered g s (fill g acc count s c).1.Live 1 i j A := by
  refine (spansUp_induction
    (P := fun visited (state : Chart α × Stats) => state.1.Fits → Rounded g s visited state.1)
    (fun _ => ?_) (fun visited i j state hij hj hnew _ _ hv hfits => ?_) hfits).layered i j A hA
  · exact
      { sound := hc
        size_eq := hsize
        made := fun k l A e he => by rw [hblank] at he; cases he
        possible := fun k l A e he => by rw [hblank] at he; cases he
        blank := fun k l A _ => hblank k l A
        layered := fun k l A hA => by rw [Chart.Live, hblank] at hA; cases hA }
  · exact fillCell_rounded acc count hij hj hnew hfits (hv (Chart.fits_of_fits_commit hfits))

end Exhaustive

/-- Every entry of an exhaustively searched chart has a possible derivation from its entries in which no
unary rule stands on top of another one. -/
theorem Parser.search_layered {p : Parser α} (hstrategy : p.options.strategy = .exhaustive)
    (hfits : (p.search s).chart.Fits) (hA : (p.search s).chart.Live i j A) :
    Layered p.grammar s (p.search s).chart.Live 1 i j A := by
  rw [Parser.search_exhaustive hstrategy] at hfits hA ⊢
  exact Exhaustive.fill_layered p.options.accumulator p.options.segments
    (Parser.sound_emptyChart ..) (Parser.size_emptyChart ..)
    (fun _ _ _ => Parser.get?_emptyChart ..) hfits hA

end Constituency
