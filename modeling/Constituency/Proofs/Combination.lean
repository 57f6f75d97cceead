import Mathlib
import Constituency.Proofs.Chart.Scratch
import Constituency.Proofs.Derivation
import Constituency.Proofs.Score.Extended
import Constituency.Proofs.Total

/-!
# Combinations of derivations

What it means for a score to stand for a set of derivations, in so far as a search depends on it: sets
are put together by rules, and disjoint sets are gathered. The best score of a set is such a
combination (`combination_best`), and so is the sum of its probabilities (`combination_sum`), so that
an argument about a search is made once for both. Whether anything in a set is possible does not depend on
how scores are combined (`combination_possible`).
-/

namespace Constituency

variable {α : Type} [Score α]

/-- Scores that stand for sets of derivations in line with an accumulator. -/
structure Combination (acc : Accumulator α) (Combines : Set (Derivation α) → α → Prop) : Prop where
  empty : Combines ∅ Score.impossible
  word : ∀ p, Combines {.word p} p.logProb
  unary : ∀ p {D : Set (Derivation α)} {x : α}, Combines D x →
    Combines (Derivation.unary p '' D) (p.logProb + x)
  binary : ∀ p {D E : Set (Derivation α)} {x y : α}, Combines D x → Combines E y →
    Combines (Set.image2 (Derivation.binary p) D E) (p.logProb + x + y)
  union : ∀ {D E : Set (Derivation α)} {x y : α}, Combines D x → Combines E y → Disjoint D E →
    Combines (D ∪ E) (acc.gather x y)
  /-- Impossible derivations count for nothing. -/
  extend : ∀ {D E : Set (Derivation α)} {x : α}, Combines D x → D ⊆ E → E.Finite →
    (∀ d ∈ E, d ∉ D → ¬ Score.impossible < d.score) → Combines E x
  possible_iff : ∀ {D : Set (Derivation α)} {x : α}, Combines D x →
    (Score.impossible < x ↔ ∃ d ∈ D, Score.impossible < d.score)
  keepsPossible : acc.KeepsPossible

/-- The sets that some entries stand for, gathered in turn. -/
theorem Combination.foldl {acc : Accumulator α} {Combines : Set (Derivation α) → α → Prop}
    (h : Combination acc Combines) {entries : List (Entry α)} {S : Entry α → Set (Derivation α)}
    (hentries : ∀ e ∈ entries, Combines (S e) e.inside)
    (hdisjoint : entries.Pairwise fun a b => Disjoint (S a) (S b)) {D : Set (Derivation α)} {x : α}
    (hD : Combines D x) (hDdisjoint : ∀ e ∈ entries, Disjoint D (S e)) :
    Combines (D ∪ {d | ∃ e ∈ entries, d ∈ S e}) ((entries.map (·.inside)).foldl acc.gather x) := by
  induction entries generalizing D x with
  | nil =>
    have hempty : D ∪ {d | ∃ e ∈ ([] : List (Entry α)), d ∈ S e} = D := by ext d; simp
    rw [hempty]
    exact hD
  | cons e rest ih =>
    rw [List.pairwise_cons] at hdisjoint
    have hstep := ih (fun e' he' => hentries e' (List.mem_cons_of_mem _ he')) hdisjoint.2
      (h.union hD (hentries e List.mem_cons_self) (hDdisjoint e List.mem_cons_self))
      (fun e' he' => Set.disjoint_union_left.2
        ⟨hDdisjoint e' (List.mem_cons_of_mem _ he'), hdisjoint.1 e' he'⟩)
    have hunion : D ∪ {d | ∃ e' ∈ e :: rest, d ∈ S e'} =
        (D ∪ S e) ∪ {d | ∃ e' ∈ rest, d ∈ S e'} := by
      ext d
      simp [or_assoc]
    rw [hunion]
    exact hstep

/-! ## Possible derivations -/

/-- The score is possible just when a derivation of a set is. -/
def Signals (D : Set (Derivation α)) (x : α) : Prop :=
  Score.impossible < x ↔ ∃ d ∈ D, Score.impossible < d.score

theorem Signals.gather {acc : Accumulator α} (hacc : acc.KeepsPossible)
    {D E : Set (Derivation α)} {x y : α} (hD : Signals D x) (hE : Signals E y) :
    Signals (D ∪ E) (acc.gather x y) := by
  have hunion : (∃ d ∈ D ∪ E, Score.impossible < d.score) ↔
      Score.impossible < x ∨ Score.impossible < y := by
    refine Iff.trans ?_ (or_congr hD hE).symm
    rw [← exists_or]
    exact exists_congr fun d => or_and_right
  rw [Signals, hunion]
  unfold Accumulator.gather
  split
  · next hy =>
    split
    · next hx => exact ⟨fun _ => .inl hx, fun _ => hacc x y hx hy⟩
    · exact ⟨fun _ => .inr hy, fun _ => hy⟩
  · next hy => exact ⟨.inl, fun h => h.resolve_right hy⟩

theorem combination_possible [LosslessScore α] (acc : Accumulator α) :
    Combination acc Signals where
  empty := by simp [Signals, Score.lt_irrefl]
  word p := by simp [Signals, Derivation.score]
  unary p D x hD := by
    constructor
    · intro hpos
      obtain ⟨hrule, hx⟩ := Score.impossible_lt_of_add hpos
      obtain ⟨d, hd, hd'⟩ := hD.1 hx
      exact ⟨.unary p d, ⟨d, hd, rfl⟩, LosslessScore.impossible_lt_add hrule hd'⟩
    · rintro ⟨_, ⟨d, hd, rfl⟩, hpos⟩
      obtain ⟨hrule, hd'⟩ := Score.impossible_lt_of_add hpos
      exact LosslessScore.impossible_lt_add hrule (hD.2 ⟨d, hd, hd'⟩)
  binary p D E x y hD hE := by
    constructor
    · intro hpos
      obtain ⟨hleft, hy⟩ := Score.impossible_lt_of_add hpos
      obtain ⟨hrule, hx⟩ := Score.impossible_lt_of_add hleft
      obtain ⟨d, hd, hd'⟩ := hD.1 hx
      obtain ⟨e, he, he'⟩ := hE.1 hy
      exact ⟨.binary p d e, ⟨d, hd, e, he, rfl⟩,
        LosslessScore.impossible_lt_add (LosslessScore.impossible_lt_add hrule hd') he'⟩
    · rintro ⟨_, ⟨d, hd, e, he, rfl⟩, hpos⟩
      obtain ⟨hleft, he'⟩ := Score.impossible_lt_of_add hpos
      obtain ⟨hrule, hd'⟩ := Score.impossible_lt_of_add hleft
      exact LosslessScore.impossible_lt_add
        (LosslessScore.impossible_lt_add hrule (hD.2 ⟨d, hd, hd'⟩)) (hE.2 ⟨e, he, he'⟩)
  union hD hE _ := hD.gather acc.keepsPossible hE
  extend hD hsub _ himp := by
    refine hD.trans (exists_congr fun d => and_congr_left fun hpos => ⟨fun hd => hsub hd, fun hd => ?_⟩)
    exact Classical.byContradiction fun hmem => himp d hd hmem hpos
  possible_iff hD := hD
  keepsPossible := acc.keepsPossible

/-! ## The best derivation -/

/-- The score is the best of a set of derivations, or impossible if all of them are. -/
def Maximizes (D : Set (Derivation α)) (x : α) : Prop :=
  (∀ d ∈ D, d.score ≤ x) ∧ (Score.impossible < x → ∃ d ∈ D, d.score = x)

theorem Maximizes.gather [MonotoneScore α] {D E : Set (Derivation α)} {x y : α}
    (hD : Maximizes D x) (hE : Maximizes E y) :
    Maximizes (D ∪ E) ((Accumulator.best : Accumulator α).gather x y) := by
  unfold Accumulator.gather
  split
  · next hy =>
    split
    · next hx =>
      refine ⟨fun d hd => ?_, fun _ => ?_⟩
      · rcases hd with hd | hd
        · exact Score.le_trans (hD.1 d hd) (Score.le_best_left x y)
        · exact Score.le_trans (hE.1 d hd) (Score.le_best_right x y)
      · rcases Score.best_eq_left_or_right x y with heq | heq
        · obtain ⟨d, hd, hscore⟩ := hD.2 hx
          exact ⟨d, .inl hd, hscore.trans heq.symm⟩
        · obtain ⟨d, hd, hscore⟩ := hE.2 hy
          exact ⟨d, .inr hd, hscore.trans heq.symm⟩
    · next hx =>
      refine ⟨fun d hd => ?_, fun hpos => ?_⟩
      · rcases hd with hd | hd
        · exact Score.le_trans (hD.1 d hd)
            (Score.le_trans (Score.not_lt.1 hx) (Score.impossible_le y))
        · exact hE.1 d hd
      · obtain ⟨d, hd, hscore⟩ := hE.2 hpos
        exact ⟨d, .inr hd, hscore⟩
  · next hy =>
    refine ⟨fun d hd => ?_, fun hpos => ?_⟩
    · rcases hd with hd | hd
      · exact hD.1 d hd
      · exact Score.le_trans (hE.1 d hd)
          (Score.le_trans (Score.not_lt.1 hy) (Score.impossible_le x))
    · obtain ⟨d, hd, hscore⟩ := hD.2 hpos
      exact ⟨d, .inl hd, hscore⟩

/-- A score that stands for a set, and is possible just when a member is, is its maximum. -/
theorem Maximizes.isMaximum [MonotoneScore α] {D : Set (Derivation α)} {x : α}
    (h : Maximizes D x) (hx : x = Score.impossible ∨ Score.impossible < x) :
    IsMaximum (· ∈ D) x := by
  refine ⟨h.1, hx.imp_right h.2, fun heq => ?_, fun hnone => hx.resolve_right fun hpos => ?_⟩
  · rintro ⟨d, hd, hpos⟩
    exact Score.not_le.2 hpos (heq ▸ h.1 d hd)
  · obtain ⟨d, hd, rfl⟩ := h.2 hpos
    exact hnone ⟨d, hd, hpos⟩

theorem combination_best [MonotoneScore α] :
    Combination (.best : Accumulator α) Maximizes where
  empty := ⟨fun d hd => hd.elim, fun hpos => absurd hpos Score.not_impossible_lt_impossible⟩
  word p := ⟨fun d hd => hd ▸ Score.le_refl _, fun _ => ⟨.word p, rfl, rfl⟩⟩
  unary p D x hD := by
    refine ⟨?_, fun hpos => ?_⟩
    · rintro _ ⟨d, hd, rfl⟩
      exact Score.add_le_add_left (hD.1 d hd) _
    · obtain ⟨d, hd, rfl⟩ := hD.2 (Score.impossible_lt_of_add hpos).2
      exact ⟨.unary p d, ⟨d, hd, rfl⟩, rfl⟩
  binary p D E x y hD hE := by
    refine ⟨?_, fun hpos => ?_⟩
    · rintro _ ⟨d, hd, e, he, rfl⟩
      exact MonotoneScore.add_le_add (Score.add_le_add_left (hD.1 d hd) _) (hE.1 e he)
    · have hsum := Score.impossible_lt_of_add hpos
      obtain ⟨d, hd, rfl⟩ := hD.2 (Score.impossible_lt_of_add hsum.1).2
      obtain ⟨e, he, rfl⟩ := hE.2 hsum.2
      exact ⟨.binary p d e, ⟨d, hd, e, he, rfl⟩, rfl⟩
  union hD hE _ := hD.gather hE
  extend {D E x} hD hsub _ himp := by
    refine ⟨fun d hd => ?_, fun hpos => ?_⟩
    · by_cases hmem : d ∈ D
      · exact hD.1 d hmem
      · exact Score.le_trans (Score.not_lt.1 (himp d hd hmem)) (Score.impossible_le _)
    · obtain ⟨d, hd, hscore⟩ := hD.2 hpos
      exact ⟨d, hsub hd, hscore⟩
  possible_iff hD := by
    constructor
    · intro hpos
      obtain ⟨d, hd, rfl⟩ := hD.2 hpos
      exact ⟨d, hd, hpos⟩
    · rintro ⟨d, hd, hpos⟩
      exact Score.lt_of_lt_of_le hpos (hD.1 d hd)
  keepsPossible := Accumulator.keepsPossible_best

/-! ## The sum of all derivations -/

/-- The score is the logarithm of the sum of the probabilities of a set of derivations. -/
def SumsUp (D : Set (Derivation EReal)) (x : EReal) : Prop :=
  HasTotal D (fun d => EReal.exp d.score) (EReal.exp x)

theorem combination_sum : Combination .exactSum SumsUp where
  empty := by
    rw [SumsUp, impossible_eq_bot, EReal.exp_bot]
    exact .empty _
  word p := .singleton (Derivation.word p) _
  unary p D x hD := by
    rw [SumsUp, EReal.exp_add]
    refine HasTotal.image (fun _ _ h => (Derivation.unary.inj h).2) ?_
    simp only [Derivation.score, EReal.exp_add]
    exact hD.mul _
  binary p D E x y hD hE := by
    rw [SumsUp, EReal.exp_add, EReal.exp_add]
    refine HasTotal.image2 (fun _ _ _ _ _ _ _ _ h => (Derivation.binary.inj h).2) hE fun e _ => ?_
    simp only [Derivation.score, EReal.exp_add, mul_right_comm _ _ (EReal.exp e.score)]
    exact hD.mul _
  union {D E x y} hD hE hdisjoint := by
    have hsum : EReal.exp (Accumulator.exactSum.gather x y) = EReal.exp x + EReal.exp y := by
      unfold Accumulator.gather
      split
      · split
        · exact Accumulator.exact_exactSum.combine x y
        · next hx => rw [Accumulator.exact_exactSum.not_possible x hx, zero_add]
      · next hy => rw [Accumulator.exact_exactSum.not_possible y hy, add_zero]
    rw [SumsUp, hsum]
    exact hD.union hE hdisjoint
  extend hD hsub hfinite himp :=
    hD.extend hsub hfinite fun d hd hnot =>
      Accumulator.exact_exactSum.not_possible _ (himp d hd hnot)
  possible_iff {D x} hD := by
    rw [impossible_eq_bot, ← EReal.zero_lt_exp_iff, pos_iff_ne_zero, Ne, hD.eq_zero_iff]
    push Not
    exact exists_congr fun d => and_congr_right fun _ => by
      rw [← pos_iff_ne_zero, EReal.zero_lt_exp_iff]
  keepsPossible := Accumulator.keepsPossible_exactSum

end Constituency
