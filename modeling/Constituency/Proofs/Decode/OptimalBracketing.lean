import Constituency.Proofs.Decode.Reduction
import Constituency.Proofs.Decode.Yield
import Constituency.Proofs.Score.Unrounded
import Mathlib.Order.Bounds.Basic

/-!
# The choices are optimal

What the choices of a decoder by constituents are worth without rounding. A bracketing (`Bracketing`) cuts
a span in two until single words are left, and is worth the best gains of all its spans together
(`ConstituentTask.worth`). A cell keeps one midpoint, and nothing is lost by it: no bracketing of
candidates is worth more than the choice for its span (`exists_choice`), and the one that the choices
describe is worth as much (`exists_bracketing`).
-/

namespace Constituency

/-! ## Bracketings -/

/-- A way to cut a span in two, and the halves in turn, until single words are left. -/
inductive Bracketing : Nat → Nat → Type where
  | word (i : Nat) : Bracketing i (i + 1)
  | join {i m j : Nat} (left : Bracketing i m) (right : Bracketing m j) : Bracketing i j

namespace Bracketing

variable {i m j : Nat}

theorem lt (b : Bracketing i j) : i < j := by
  induction b with
  | word i => exact Nat.lt_succ_self i
  | join left right ihl ihr => exact Nat.lt_trans ihl ihr

/-- All spans of a bracketing, from the top down and from left to right. -/
def spans {i j : Nat} : Bracketing i j → List (Nat × Nat)
  | word i => [(i, i + 1)]
  | join left right => (i, j) :: (left.spans ++ right.spans)

end Bracketing

namespace Tree

mutual

/-- The spans of the words and of the branches of a tree, other than branches with one child. -/
def brackets : Tree → List (Nat × Nat)
  | leaf _ position => [(position, position + 1)]
  | branch _ start stop children =>
    if children.length = 1 then bracketsOfAll children
    else (start, stop) :: bracketsOfAll children

/-- The same of several trees. -/
def bracketsOfAll : List Tree → List (Nat × Nat)
  | [] => []
  | tree :: rest => tree.brackets ++ bracketsOfAll rest

end

variable {t u : Tree} {label : String} {words : List String} {i m j : Nat}

@[simp] theorem brackets_join_one : (join label [t]).brackets = t.brackets :=
  List.append_nil _

theorem brackets_join_two (ht : t.start = i) (hu : u.stop = j) :
    (join label [t, u]).brackets = (i, j) :: (t.brackets ++ u.brackets) := by
  subst ht hu
  simp [join, brackets, bracketsOfAll]

end Tree

namespace ConstituentTask

variable {α : Type} [Score α] {t : ConstituentTask α} {i m j : Nat} {tree : Tree}
  {cell : ConstituentCell α} {best : Candidate α} {candidates : List (Candidate α)}

/-! ## What a bracketing is worth -/

/-- The highest gain of the candidates of a span. -/
def topGain (t : ConstituentTask α) (span : Nat × Nat) : α :=
  PackedChart.total .best ((t.candidates span.1 span.2).map (·.gain))

/-- Every span of a bracketing has a candidate. -/
def Populated (t : ConstituentTask α) (b : Bracketing i j) : Prop :=
  ∀ span ∈ b.spans, t.candidates span.1 span.2 ≠ []

/-- The best gains of all spans of a bracketing together. -/
def worth (t : ConstituentTask α) (b : Bracketing i j) : α :=
  (b.spans.map t.topGain).sum

theorem populated_word : t.Populated (.word i) ↔ t.candidates i (i + 1) ≠ [] := by
  simp [Populated, Bracketing.spans]

theorem populated_join {left : Bracketing i m} {right : Bracketing m j} :
    t.Populated (left.join right) ↔
      t.candidates i j ≠ [] ∧ t.Populated left ∧ t.Populated right := by
  simp only [Populated, Bracketing.spans, List.forall_mem_cons, List.forall_mem_append]

theorem isSome_bestCandidate? : (bestCandidate? candidates).isSome = true ↔ candidates ≠ [] := by
  cases candidates <;> simp [bestCandidate?]

/-! ## The trees of a bracketing -/

omit [Score α] in
theorem brackets_unaryChain {unaries : Nat} {A : NonTerminal}
    (h : t.unaryChain i unaries A = some tree) : tree.brackets = [(i, i + 1)] := by
  fun_induction t.unaryChain i unaries A generalizing tree with
  | case1 =>
    obtain ⟨word, -, rfl⟩ := Option.map_eq_some_iff.1 h
    exact Tree.brackets_join_one
  | case2 =>
    rename_i ih
    obtain ⟨below, hbelow, rfl⟩ := Option.map_eq_some_iff.1 h
    rw [Tree.brackets_join_one, ih hbelow]
  | case3 => cases h

theorem brackets_wordTree {label : NonTerminal} (h : t.wordTree i label = some tree) :
    tree.brackets = [(i, i + 1)] := by
  obtain ⟨A, -, htree⟩ := Option.bind_eq_some_iff.1 h
  exact brackets_unaryChain htree

/-- The tree of a span of several words joins the trees of its halves. -/
theorem brackets_treeOf {choices : Choices α} (hcell : choices.get i j = some cell)
    (hmid : i < cell.midpoint ∧ cell.midpoint < j) (h : t.treeOf choices i j = some tree) :
    ∃ left right, t.treeOf choices i cell.midpoint = some left ∧
      t.treeOf choices cell.midpoint j = some right ∧
      tree.brackets = (i, j) :: (left.brackets ++ right.brackets) := by
  have hwide : ¬ (j - i == 1) = true := by
    rw [beq_iff_eq]
    omega
  rw [treeOf, hcell] at h
  simp only [if_neg hwide, dif_pos hmid] at h
  split at h
  · next left right hleft hright =>
    have hstart := (covers_treeOf hleft).1.start_eq
    have hstop := (covers_treeOf hright).1.stop_eq
    refine ⟨left, right, hleft, hright, ?_⟩
    split at h <;> obtain rfl := Option.some.inj h
    · rw [Tree.brackets_join_one, Tree.brackets_join_two hstart hstop]
    · exact Tree.brackets_join_two hstart hstop
  · cases h

/-- A span has a tree if its words have one each. -/
theorem isSome_treeOf_iff [MonotoneScore α] (hcell : t.choices.get i j = some cell) :
    (t.treeOf t.choices i j).isSome = true ↔
      ∀ k, i ≤ k → k < j → (t.treeOf t.choices k (k + 1)).isSome = true := by
  induction hlen : j - i using Nat.strongRecOn generalizing i j cell with
  | _ len ih =>
    subst hlen
    rcases (of_get_choices hcell).2 with ⟨rfl, -⟩ | ⟨hlong, halves, hsplit, -⟩
    · constructor
      · intro h k hik hki
        obtain rfl : k = i := by omega
        exact h
      · exact fun h => h i (Nat.le_refl i) (Nat.lt_succ_self i)
    obtain ⟨hmid, leftCell, rightCell, hleft, hright, -⟩ :=
      mem_splits.1 ((bestSplit?_spec t.choices i j).2 _ hsplit).1
    have hl := ih _ (by omega) hleft rfl
    have hr := ih _ (by omega) hright rfl
    have hhalves : (t.treeOf t.choices i j).isSome = true ↔
        (t.treeOf t.choices i cell.midpoint).isSome = true ∧
          (t.treeOf t.choices cell.midpoint j).isSome = true := by
      constructor
      · intro h
        obtain ⟨tree, htree⟩ := Option.isSome_iff_exists.1 h
        obtain ⟨left, right, hlt, hrt, -⟩ := brackets_treeOf hcell hmid htree
        exact ⟨hlt ▸ rfl, hrt ▸ rfl⟩
      · rintro ⟨hlt, hrt⟩
        obtain ⟨left, hlt⟩ := Option.isSome_iff_exists.1 hlt
        obtain ⟨right, hrt⟩ := Option.isSome_iff_exists.1 hrt
        have hwide : ¬ (j - i == 1) = true := by
          rw [beq_iff_eq]
          omega
        rw [treeOf, hcell]
        simp only [if_neg hwide, dif_pos hmid, hlt, hrt]
        split <;> rfl
    rw [hhalves, hl, hr]
    constructor
    · rintro ⟨hl, hr⟩ k hik hkj
      rcases Nat.lt_or_ge k cell.midpoint with hk | hk
      · exact hl k hik hk
      · exact hr k hk hkj
    · intro h
      exact ⟨fun k hik hk => h k hik (by omega), fun k hk hkj => h k (by omega) hkj⟩

/-! ## The optimum -/

variable [UnroundedScore α]

theorem gain_better (a b : Candidate α) :
    a.gain ≤ (better a b).gain ∧ b.gain ≤ (better a b).gain := by
  unfold better
  dsimp only
  split
  · next hnew =>
    rw [Bool.or_eq_true, decide_eq_true_iff, Bool.and_eq_true, UnroundedScore.beq_iff] at hnew
    rcases hnew with hlt | ⟨heq, -⟩
    · exact ⟨Score.le_of_lt hlt, Score.le_refl _⟩
    · exact ⟨heq ▸ Score.le_refl _, Score.le_refl _⟩
  · next hold =>
    rw [Bool.or_eq_true, not_or, decide_eq_true_iff] at hold
    exact ⟨Score.le_refl _, Score.not_lt.1 hold.1⟩

theorem gain_le_of_bestCandidate? (h : bestCandidate? candidates = some best) :
    ∀ c ∈ candidates, c.gain ≤ best.gain := by
  cases candidates with
  | nil => cases h
  | cons first rest =>
    obtain rfl := Option.some.inj h
    refine foldl_prefix_induction
      (P := fun visited (best : Candidate α) => ∀ c ∈ first :: visited, c.gain ≤ best.gain) rest
      (fun visited x after best _ hbest c hc => ?_) (by simp [Score.le_refl])
    obtain ⟨hold, hnew⟩ := gain_better best x
    rw [← List.cons_append, List.mem_append, List.mem_singleton] at hc
    rcases hc with hc | rfl
    · exact Score.le_trans (hbest c hc) hold
    · exact hnew

/-- The best candidate gains what is best to gain. -/
theorem gain_eq_topGain (h : bestCandidate? (t.candidates i j) = some best) :
    best.gain = t.topGain (i, j) := by
  refine (PackedChart.total_best_eq (List.mem_map_of_mem (mem_of_bestCandidate? h)) ?_).symm
  intro x hx
  obtain ⟨c, hc, rfl⟩ := List.mem_map.1 hx
  exact gain_le_of_bestCandidate? h c hc

theorem worth_word (t : ConstituentTask α) (i : Nat) :
    t.worth (.word i) = t.topGain (i, i + 1) :=
  UnroundedScore.add_zero _

theorem worth_join (t : ConstituentTask α) (left : Bracketing i m) (right : Bracketing m j) :
    t.worth (left.join right) = t.topGain (i, j) + (t.worth left + t.worth right) := by
  rw [worth, Bracketing.spans, List.map_cons, List.sum_cons, List.map_append, List.sum_append]
  rfl

/-- A span with a bracketing of candidates has a choice, and one that is worth no less. -/
theorem exists_choice (b : Bracketing i j) (hj : j ≤ t.chart.size) (hb : t.Populated b) :
    ∃ cell, t.choices.get i j = some cell ∧ t.worth b ≤ cell.score := by
  induction b with
  | word i =>
    obtain ⟨best, hbest⟩ :=
      Option.isSome_iff_exists.1 (isSome_bestCandidate?.2 (populated_word.1 hb))
    rw [get_choices (Nat.lt_succ_self i) hj, choose, hbest, Option.bind_some,
      if_pos (beq_self_eq_true _)]
    exact ⟨_, rfl, worth_word t i ▸ gain_eq_topGain hbest ▸ Score.le_refl _⟩
  | @join i m j left right ihl ihr =>
    have him := left.lt
    have hmj := right.lt
    obtain ⟨hhere, hbl, hbr⟩ := populated_join.1 hb
    obtain ⟨leftCell, hleft, hleftLe⟩ := ihl (by omega) hbl
    obtain ⟨rightCell, hright, hrightLe⟩ := ihr hj hbr
    obtain ⟨best, hbest⟩ := Option.isSome_iff_exists.1 (isSome_bestCandidate?.2 hhere)
    obtain ⟨⟨halves, midpoint⟩, hsplit⟩ :=
      Option.isSome_iff_exists.1 (isSome_bestSplit? him hmj hleft hright)
    have hmem : (leftCell.score + rightCell.score, m) ∈ splits t.choices i j :=
      mem_splits.2 ⟨⟨him, hmj⟩, leftCell, rightCell, hleft, hright, rfl⟩
    have hhalves : leftCell.score + rightCell.score ≤ halves :=
      ((bestSplit?_spec t.choices i j).2 _ hsplit).2 _ hmem
    rw [get_choices (by omega) hj, choose, hbest, Option.bind_some, if_neg (by simp; omega),
      hsplit, Option.map_some]
    refine ⟨_, rfl, ?_⟩
    rw [worth_join, ← gain_eq_topGain hbest]
    refine Score.add_le_add_left (Score.le_trans ?_ hhalves) _
    exact MonotoneScore.add_le_add hleftLe hrightLe

/-- A choice is worth what the bracketing along the midpoints is worth, and that is the bracketing of
the tree of its span. -/
theorem exists_bracketing (h : t.choices.get i j = some cell) :
    ∃ b : Bracketing i j, t.Populated b ∧ t.worth b = cell.score ∧
      ∀ tree, t.treeOf t.choices i j = some tree → tree.brackets = b.spans := by
  induction hlen : j - i using Nat.strongRecOn generalizing i j cell with
  | _ len ih =>
    subst hlen
    obtain ⟨hbest, hscore⟩ := of_get_choices h
    have hhere : t.candidates i j ≠ [] := isSome_bestCandidate?.1 (hbest ▸ rfl)
    have hgain : cell.gain = t.topGain (i, j) := gain_eq_topGain hbest
    rcases hscore with ⟨rfl, hscore⟩ | ⟨-, halves, hsplit, hscore⟩
    · refine ⟨.word i, populated_word.2 hhere, ?_, fun tree htree => ?_⟩
      · rw [worth_word, hscore, hgain]
      · rw [treeOf_word h] at htree
        exact brackets_wordTree htree
    · obtain ⟨hmid, leftCell, rightCell, hleft, hright, rfl⟩ :=
        mem_splits.1 ((bestSplit?_spec t.choices i j).2 _ hsplit).1
      obtain ⟨left, hbl, hwl, htl⟩ := ih _ (by omega) hleft rfl
      obtain ⟨right, hbr, hwr, htr⟩ := ih _ (by omega) hright rfl
      refine ⟨left.join right, populated_join.2 ⟨hhere, hbl, hbr⟩, ?_, fun tree htree => ?_⟩
      · rw [worth_join, hwl, hwr, hscore, hgain]
      · obtain ⟨leftTree, rightTree, hleftTree, hrightTree, hbrackets⟩ :=
          brackets_treeOf h hmid htree
        rw [hbrackets, htl _ hleftTree, htr _ hrightTree, Bracketing.spans]

/-- A span has a choice if some bracketing of it has candidates everywhere. The choice is then worth the
most that such a bracketing is worth, and so is the bracketing of its tree. The tree is missing only if
that of a word is. -/
theorem choices_optimal (t : ConstituentTask α) (hj : j ≤ t.chart.size) :
    (t.choices.get i j = none ↔ ∀ b : Bracketing i j, ¬ t.Populated b) ∧
      ∀ cell, t.choices.get i j = some cell →
        IsGreatest {x | ∃ b : Bracketing i j, t.Populated b ∧ t.worth b = x} cell.score ∧
        (∃ b : Bracketing i j, t.Populated b ∧ t.worth b = cell.score ∧
          ∀ tree, t.treeOf t.choices i j = some tree → tree.brackets = b.spans) ∧
        ((t.treeOf t.choices i j).isSome = true ↔
          ∀ k, i ≤ k → k < j → (t.treeOf t.choices k (k + 1)).isSome = true) := by
  have hattained : ∀ cell, t.choices.get i j = some cell → ∃ b : Bracketing i j, t.Populated b ∧
      t.worth b = cell.score ∧
        ∀ tree, t.treeOf t.choices i j = some tree → tree.brackets = b.spans :=
    fun _ hcell => exists_bracketing hcell
  constructor
  · constructor
    · intro hnone b hb
      obtain ⟨cell, hcell, -⟩ := exists_choice b hj hb
      rw [hnone] at hcell
      cases hcell
    · intro hempty
      refine Option.eq_none_iff_forall_ne_some.2 fun cell hcell => ?_
      obtain ⟨b, hb, -⟩ := hattained cell hcell
      exact hempty b hb
  · intro cell hcell
    obtain ⟨b, hb, hworth, htree⟩ := hattained cell hcell
    refine ⟨⟨⟨b, hb, hworth⟩, ?_⟩, ⟨b, hb, hworth, htree⟩, isSome_treeOf_iff hcell⟩
    rintro x ⟨b, hb, rfl⟩
    obtain ⟨cell', hcell', hle⟩ := exists_choice b hj hb
    rw [hcell] at hcell'
    exact Option.some.inj hcell' ▸ hle

theorem choices_optimal_spare : 3 ≤ Parser.spareTask.chart.size ∧
    ∃ cell, Parser.spareTask.choices.get 0 3 = some cell ∧
      @IsGreatest (WithBot ℤ) Score.toLE {x | ∃ b : Bracketing 0 3, Parser.spareTask.Populated b ∧
        Parser.spareTask.worth b = x} cell.score := by
  have hsize : 3 ≤ Parser.spareTask.chart.size := by decide +kernel
  have hsome : (Parser.spareTask.choices.get 0 3).isSome = true := by decide +kernel
  obtain ⟨cell, hcell⟩ := Option.isSome_iff_exists.1 hsome
  exact ⟨hsize, cell, hcell, ((choices_optimal Parser.spareTask hsize).2 cell hcell).1⟩

end ConstituentTask

end Constituency
