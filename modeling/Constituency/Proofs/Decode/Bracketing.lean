import Constituency.Proofs.Decode.Constituents
import Constituency.Proofs.Score.Exact

/-!
# The best bracketing

What the choices of a decoder by constituents add up to if the spans fall into two kinds: a marked span
gains as much as one right constituent, any other one nothing. Then no bracketing of a span is worth
more than the number of marked spans within it. A bracketing that attains the number at the midpoint of a
span attains it in both halves, and has no marked span across the midpoint (`Full.halves`); and it
is attained wherever the marked spans leave some midpoint free (`Full.join`).
-/

namespace Constituency

/-! ## Marked spans -/

section Marks

variable {marks : Finset (Nat × Nat)} {i j m : Nat} {v : Nat × Nat}

/-- The marked spans within a span. -/
def within (marks : Finset (Nat × Nat)) (i j : Nat) : Finset (Nat × Nat) :=
  marks.filter fun v => i ≤ v.1 ∧ v.2 ≤ j

/-- The marked spans within a span and shorter than it. -/
def inner (marks : Finset (Nat × Nat)) (i j : Nat) : Finset (Nat × Nat) :=
  (within marks i j).erase (i, j)

theorem mem_within : v ∈ within marks i j ↔ v ∈ marks ∧ i ≤ v.1 ∧ v.2 ≤ j := Finset.mem_filter

theorem mem_inner : v ∈ inner marks i j ↔ v ≠ (i, j) ∧ v ∈ marks ∧ i ≤ v.1 ∧ v.2 ≤ j := by
  rw [inner, Finset.mem_erase, mem_within]

theorem card_within (marks : Finset (Nat × Nat)) (i j : Nat) :
    (within marks i j).card = (if (i, j) ∈ marks then 1 else 0) + (inner marks i j).card := by
  by_cases hmem : (i, j) ∈ marks
  · have hin : (i, j) ∈ within marks i j := mem_within.2 ⟨hmem, Nat.le_refl _, Nat.le_refl _⟩
    rw [if_pos hmem, inner, Nat.add_comm, Finset.card_erase_add_one hin]
  · have hout : (i, j) ∉ within marks i j := fun h => hmem (mem_within.1 h).1
    rw [if_neg hmem, inner, Finset.erase_eq_of_notMem hout, Nat.zero_add]

variable (hmarks : ∀ v ∈ marks, v.1 < v.2)

include hmarks in
theorem card_halves (him : i < m) (hmj : m < j) :
    (within marks i m).card + (within marks m j).card =
      ((inner marks i j).filter fun v => v.2 ≤ m ∨ m ≤ v.1).card := by
  have hdisjoint : Disjoint (within marks i m) (within marks m j) := by
    apply Finset.disjoint_left.2
    intro v hv hv'
    have := hmarks v (mem_within.1 hv).1
    have := (mem_within.1 hv).2
    have := (mem_within.1 hv').2
    omega
  rw [← Finset.card_union_of_disjoint hdisjoint]
  congr 1
  ext ⟨k, l⟩
  simp only [Finset.mem_union, Finset.mem_filter, mem_within, mem_inner, ne_eq, Prod.mk.injEq]
  constructor
  · rintro (⟨hv, hl, hr⟩ | ⟨hv, hl, hr⟩)
    · exact ⟨⟨by omega, hv, hl, by omega⟩, .inl hr⟩
    · exact ⟨⟨by omega, hv, by omega, hr⟩, .inr hl⟩
  · rintro ⟨⟨-, hv, hl, hr⟩, hside | hside⟩
    · exact .inl ⟨hv, hl, hside⟩
    · exact .inr ⟨hv, hside, hr⟩

include hmarks in
theorem card_halves_le (him : i < m) (hmj : m < j) :
    (within marks i m).card + (within marks m j).card ≤ (inner marks i j).card := by
  rw [card_halves hmarks him hmj]
  exact Finset.card_filter_le _ _

include hmarks in
/-- The halves of a span have all the marked spans within it if none lies across the midpoint. -/
theorem card_halves_eq_iff (him : i < m) (hmj : m < j) :
    (within marks i m).card + (within marks m j).card = (inner marks i j).card ↔
      ∀ v ∈ inner marks i j, v.2 ≤ m ∨ m ≤ v.1 := by
  rw [card_halves hmarks him hmj, Finset.card_filter_eq_iff]

end Marks

namespace ConstituentTask

variable {α : Type} [Score α] {t : ConstituentTask α} {i j m : Nat} {choices : Choices α}
  {cell left right : ConstituentCell α} {best : Candidate α} {candidates : List (Candidate α)}

/-- What a choice is made of. -/
theorem of_get_choices (h : t.choices.get i j = some cell) :
    bestCandidate? (t.candidates i j) = some cell.toCandidate ∧
      ((j = i + 1 ∧ cell.score = cell.gain) ∨
        (j ≠ i + 1 ∧ ∃ halves, bestSplit? t.choices i j = some (halves, cell.midpoint) ∧
          cell.score = cell.gain + halves)) := by
  obtain ⟨hij, hj⟩ := bounds_of_get_choices h
  rw [get_choices hij hj] at h
  obtain ⟨best, hbest, hcell⟩ := Option.bind_eq_some_iff.1 h
  split at hcell
  · next hone =>
    obtain rfl := Option.some.inj hcell
    exact ⟨hbest, .inl ⟨beq_iff_eq.1 hone, rfl⟩⟩
  · next hone =>
    obtain ⟨⟨halves, midpoint⟩, hsplit, rfl⟩ := Option.map_eq_some_iff.1 hcell
    exact ⟨hbest, .inr ⟨fun heq => hone (beq_iff_eq.2 heq), halves, hsplit, rfl⟩⟩

/-- The splits of a span, with what their halves are worth. -/
def splits (choices : Choices α) (start stop : Nat) : List (α × Nat) :=
  (midpoints start stop).filterMap fun midpoint =>
    match choices.get start midpoint, choices.get midpoint stop with
    | some left, some right => some (left.score + right.score, midpoint)
    | _, _ => none

/-! ## The best split -/

/-- The splits of a span whose halves both have a choice. -/
theorem mem_splits {halves : α} :
    (halves, m) ∈ splits choices i j ↔ (i < m ∧ m < j) ∧ ∃ left right,
      choices.get i m = some left ∧ choices.get m j = some right ∧
        halves = left.score + right.score := by
  rw [splits, List.mem_filterMap]
  constructor
  · rintro ⟨k, hk, hsplit⟩
    split at hsplit
    · next left right hleft hright =>
      obtain ⟨rfl, rfl⟩ := Prod.mk.inj (Option.some.inj hsplit)
      exact ⟨mem_midpoints.1 hk, left, right, hleft, hright, rfl⟩
    · cases hsplit
  · rintro ⟨hm, left, right, hleft, hright, rfl⟩
    exact ⟨m, mem_midpoints.2 hm, by rw [hleft, hright]⟩

/-- The best split is one of the splits, and no other one is worth more. There is one if the span has a
split at all. -/
theorem bestSplit?_spec [MonotoneScore α] (choices : Choices α) (i j : Nat) :
    (bestSplit? choices i j = none → splits choices i j = []) ∧
      ∀ best, bestSplit? choices i j = some best →
        best ∈ splits choices i j ∧ ∀ x ∈ splits choices i j, x.1 ≤ best.1 := by
  refine foldl_prefix_induction
    (P := fun visited (best? : Option (α × Nat)) => (best? = none → visited = []) ∧
      ∀ best, best? = some best → best ∈ visited ∧ ∀ x ∈ visited, x.1 ≤ best.1)
    (splits choices i j) (fun visited x rest best? _ hv => ?_) ⟨fun _ => rfl, nofun⟩
  cases best? with
  | none =>
    obtain rfl := hv.1 rfl
    refine ⟨nofun, fun best hbest => ?_⟩
    obtain rfl := Option.some.inj hbest
    simp [Score.le_refl]
  | some best =>
    obtain ⟨hmem, hle⟩ := hv.2 best rfl
    dsimp only
    split
    · next hx =>
      refine ⟨nofun, fun best' hbest' => ?_⟩
      obtain rfl := Option.some.inj hbest'
      refine ⟨List.mem_append_left _ hmem, fun y hy => ?_⟩
      rcases List.mem_append.1 hy with hy | hy
      · exact hle y hy
      · obtain rfl := List.mem_singleton.1 hy
        exact hx
    · next hx =>
      refine ⟨nofun, fun best' hbest' => ?_⟩
      obtain rfl := Option.some.inj hbest'
      refine ⟨by simp, fun y hy => ?_⟩
      rcases List.mem_append.1 hy with hy | hy
      · exact Score.le_trans (hle y hy) (Score.le_of_lt (Score.not_le.1 hx))
      · obtain rfl := List.mem_singleton.1 hy
        exact Score.le_refl _

/-- A span has a best split if one of its midpoints leaves a choice on both sides. -/
theorem isSome_bestSplit? [MonotoneScore α] (him : i < m) (hmj : m < j)
    (hleft : choices.get i m = some left) (hright : choices.get m j = some right) :
    (bestSplit? choices i j).isSome = true := by
  have hmem : (left.score + right.score, m) ∈ splits choices i j :=
    mem_splits.2 ⟨⟨him, hmj⟩, left, right, hleft, hright, rfl⟩
  cases hsplit : bestSplit? choices i j with
  | none =>
    rw [(bestSplit?_spec choices i j).1 hsplit] at hmem
    cases hmem
  | some best => rfl

theorem treeOf_word (hcell : t.choices.get i (i + 1) = some cell) :
    t.treeOf t.choices i (i + 1) = t.wordTree i cell.label := by
  rw [treeOf, hcell]
  simp

/-- A span that has a choice has a tree if the labels chosen for its words have one. -/
theorem isSome_treeOf [MonotoneScore α] (hcell : t.choices.get i j = some cell)
    (hwords : ∀ k cell, t.choices.get k (k + 1) = some cell →
      (t.wordTree k cell.label).isSome = true) : (t.treeOf t.choices i j).isSome = true := by
  induction hlen : j - i using Nat.strongRecOn generalizing i j cell with
  | _ len ih =>
    subst hlen
    rcases (of_get_choices hcell).2 with ⟨rfl, -⟩ | ⟨hlong, halves, hsplit, -⟩
    · rw [treeOf_word hcell]
      exact hwords i cell hcell
    obtain ⟨hmid, left, right, hleft, hright, -⟩ :=
      mem_splits.1 ((bestSplit?_spec t.choices i j).2 _ hsplit).1
    obtain ⟨leftTree, hleftTree⟩ := Option.isSome_iff_exists.1 (ih _ (by omega) hleft rfl)
    obtain ⟨rightTree, hrightTree⟩ := Option.isSome_iff_exists.1 (ih _ (by omega) hright rfl)
    have hwide : ¬ (j - i == 1) = true := by
      rw [beq_iff_eq]
      omega
    rw [treeOf, hcell]
    simp only [if_neg hwide, dif_pos hmid, hleftTree, hrightTree]
    split <;> rfl

/-! ## The best candidate -/

/-- No candidate gains more than the best one, and it is the parent of a unary rule if one that gains as
much is. -/
structure Preferred (best : Candidate α) (candidates : List (Candidate α)) : Prop where
  gain_le : ∀ c ∈ candidates, c.gain ≤ best.gain
  isSome_unaryChild : ∀ c ∈ candidates, best.gain ≤ c.gain → c.unaryChild.isSome = true →
    best.unaryChild.isSome = true

variable [ExactScore α]

theorem Preferred.better {c : Candidate α} (h : Preferred best candidates) :
    Preferred (better best c) (candidates ++ [c]) := by
  have hmem : ∀ x ∈ candidates ++ [c], x ∈ candidates ∨ x = c := by
    intro x hx
    exact (List.mem_append.1 hx).imp_right List.mem_singleton.1
  unfold ConstituentTask.better
  dsimp only
  split
  · next hnew =>
    rw [Bool.or_eq_true, decide_eq_true_iff, Bool.and_eq_true, Bool.and_eq_true,
      ExactScore.beq_iff] at hnew
    have hle : best.gain ≤ c.gain := by
      rcases hnew with hlt | ⟨heq, -⟩
      · exact Score.le_of_lt hlt
      · exact heq.2
    constructor
    · intro x hx
      rcases hmem x hx with hx | rfl
      · exact Score.le_trans (h.gain_le x hx) hle
      · exact Score.le_refl _
    · intro x hx hgain hsome
      rcases hmem x hx with hx | rfl
      · rcases hnew with hlt | ⟨-, hchild, -⟩
        · exact absurd (Score.le_trans hgain (h.gain_le x hx)) (Score.not_le.2 hlt)
        · exact hchild
      · exact hsome
  · next hold =>
    rw [Bool.or_eq_true, decide_eq_true_iff, Bool.and_eq_true, Bool.and_eq_true,
      ExactScore.beq_iff, not_or] at hold
    have hle : c.gain ≤ best.gain := Score.not_lt.1 hold.1
    constructor
    · intro x hx
      rcases hmem x hx with hx | rfl
      · exact h.gain_le x hx
      · exact hle
    · intro x hx hgain hsome
      rcases hmem x hx with hx | rfl
      · exact h.isSome_unaryChild x hx hgain hsome
      · by_contra hnone
        apply hold.2
        exact ⟨⟨hle, hgain⟩, hsome, by simpa using hnone⟩

theorem preferred_of_bestCandidate? (h : bestCandidate? candidates = some best) :
    Preferred best candidates := by
  cases candidates with
  | nil => cases h
  | cons first rest =>
    obtain rfl := Option.some.inj h
    refine foldl_prefix_induction (P := fun visited best => Preferred best (first :: visited)) rest
      (fun visited x after best _ hbest => hbest.better) ?_
    constructor
    · intro c hc
      obtain rfl := List.mem_singleton.1 hc
      exact Score.le_refl _
    · intro c hc _ hsome
      obtain rfl := List.mem_singleton.1 hc
      exact hsome

/-! ## Full spans -/

/-- The best candidates gain as much as some right constituents: over less than the whole sentence as
much as one if the span is marked, and nothing otherwise. -/
structure Rewarded (t : ConstituentTask α) (marks : Finset (Nat × Nat)) (unit : α) : Prop where
  unit_pos : 0 < unit
  proper : ∀ v ∈ marks, v.1 < v.2
  gain : ∀ i j best, bestCandidate? (t.candidates i j) = some best →
    ∃ n, best.gain = Score.times unit n ∧
      (j - i ≠ t.chart.size → n = if (i, j) ∈ marks then 1 else 0)

/-- The choice for a span is worth its own gain and all the marked spans within the span. -/
def Full (t : ConstituentTask α) (marks : Finset (Nat × Nat)) (unit : α) (i j : Nat) : Prop :=
  ∃ cell, t.choices.get i j = some cell ∧
    cell.score = cell.gain + Score.times unit (inner marks i j).card

variable {marks : Finset (Nat × Nat)} {unit : α}

namespace Rewarded

variable (h : t.Rewarded marks unit)

include h

omit [ExactScore α] in
theorem card_inner_word (i : Nat) : (inner marks i (i + 1)).card = 0 := by
  rw [Finset.card_eq_zero]
  apply Finset.eq_empty_of_forall_notMem
  intro v hv
  obtain ⟨hne, hmem, hl, hr⟩ := mem_inner.1 hv
  have := h.proper v hmem
  exact hne (Prod.ext (by simp only; omega) (by simp only; omega))

/-- No choice is worth more than the marked spans within its span. -/
theorem exists_times (hcell : t.choices.get i j = some cell) (hroot : j - i ≠ t.chart.size) :
    ∃ n ≤ (within marks i j).card, cell.score = Score.times unit n := by
  induction hlen : j - i using Nat.strongRecOn generalizing i j cell with
  | _ len ih =>
    subst hlen
    obtain ⟨hij, hj⟩ := bounds_of_get_choices hcell
    obtain ⟨hbest, hscore⟩ := of_get_choices hcell
    obtain ⟨n, hgain, hn⟩ := h.gain i j _ hbest
    rw [card_within, ← hn hroot]
    rcases hscore with ⟨-, hscore⟩ | ⟨-, halves, hsplit, hscore⟩
    · exact ⟨n, Nat.le_add_right _ _, hscore.trans hgain⟩
    · obtain ⟨⟨him, hmj⟩, left, right, hleft, hright, rfl⟩ :=
        mem_splits.1 ((bestSplit?_spec t.choices i j).2 _ hsplit).1
      obtain ⟨a, ha, hl⟩ := ih _ (by omega) hleft (by omega) rfl
      obtain ⟨b, hb, hr⟩ := ih _ (by omega) hright (by omega) rfl
      have hinner := card_halves_le h.proper him hmj
      refine ⟨n + (a + b), by omega, ?_⟩
      rw [hscore, hgain, hl, hr, Score.times_add, Score.times_add]

/-- Over less than the whole sentence a full span is worth all the marked spans within it. -/
theorem full_iff (hroot : j - i ≠ t.chart.size) :
    t.Full marks unit i j ↔ ∃ cell, t.choices.get i j = some cell ∧
      cell.score = Score.times unit (within marks i j).card := by
  have hgain : ∀ cell, t.choices.get i j = some cell →
      cell.gain + Score.times unit (inner marks i j).card =
        Score.times unit (within marks i j).card := by
    intro cell hcell
    obtain ⟨n, hgain, hn⟩ := h.gain i j _ (of_get_choices hcell).1
    rw [hgain, hn hroot, Score.times_add, card_within]
  constructor
  · rintro ⟨cell, hcell, hscore⟩
    exact ⟨cell, hcell, hscore.trans (hgain cell hcell)⟩
  · rintro ⟨cell, hcell, hscore⟩
    exact ⟨cell, hcell, hscore.trans (hgain cell hcell).symm⟩

theorem full_word (hcell : t.choices.get i (i + 1) = some cell) : t.Full marks unit i (i + 1) := by
  rcases (of_get_choices hcell).2 with ⟨-, hscore⟩ | ⟨hne, -⟩
  · refine ⟨cell, hcell, ?_⟩
    rw [h.card_inner_word, hscore]
    exact (Score.add_zero _).symm
  · exact absurd rfl hne

/-- A full span is divided into two full ones, and no marked span within it lies across the midpoint. -/
theorem halves (hcell : t.choices.get i j = some cell)
    (hscore : cell.score = cell.gain + Score.times unit (inner marks i j).card)
    (hlong : j ≠ i + 1) :
    (i < cell.midpoint ∧ cell.midpoint < j) ∧ t.Full marks unit i cell.midpoint ∧
      t.Full marks unit cell.midpoint j ∧
      ∀ v ∈ inner marks i j, v.2 ≤ cell.midpoint ∨ cell.midpoint ≤ v.1 := by
  obtain ⟨hij, hj⟩ := bounds_of_get_choices hcell
  obtain ⟨hbest, hmade⟩ := of_get_choices hcell
  obtain ⟨n, hgain, -⟩ := h.gain i j _ hbest
  obtain ⟨-, halves, hsplit, hsum⟩ := hmade.resolve_left fun hone => hlong hone.1
  obtain ⟨⟨him, hmj⟩, left, right, hleft, hright, rfl⟩ :=
    mem_splits.1 ((bestSplit?_spec t.choices i j).2 _ hsplit).1
  obtain ⟨a, ha, hl⟩ := h.exists_times hleft (by omega)
  obtain ⟨b, hb, hr⟩ := h.exists_times hright (by omega)
  have hcount : n + (a + b) = n + (inner marks i j).card := by
    apply Score.times_injective h.unit_pos
    rw [← Score.times_add, ← Score.times_add, ← Score.times_add, ← hl, ← hr, ← hgain, ← hsum,
      hscore]
  have hle := card_halves_le h.proper him hmj
  have ha' : a = (within marks i cell.midpoint).card := by omega
  have hb' : b = (within marks cell.midpoint j).card := by omega
  refine ⟨⟨him, hmj⟩, ?_, ?_, (card_halves_eq_iff h.proper him hmj).1 (by omega)⟩
  · exact (h.full_iff (by omega)).2 ⟨left, hleft, ha' ▸ hl⟩
  · exact (h.full_iff (by omega)).2 ⟨right, hright, hb' ▸ hr⟩

/-- A span that has candidates is full if it can be divided into two full ones without a marked span
across the midpoint. -/
theorem join (hbest : (bestCandidate? (t.candidates i j)).isSome = true) (hj : j ≤ t.chart.size)
    (him : i < m) (hmj : m < j) (hleft : t.Full marks unit i m) (hright : t.Full marks unit m j)
    (hfree : ∀ v ∈ inner marks i j, v.2 ≤ m ∨ m ≤ v.1) : t.Full marks unit i j := by
  obtain ⟨best, hbest⟩ := Option.isSome_iff_exists.1 hbest
  obtain ⟨left, hl, hleft⟩ := (h.full_iff (by omega)).1 hleft
  obtain ⟨right, hr, hright⟩ := (h.full_iff (by omega)).1 hright
  have hmem : (left.score + right.score, m) ∈ splits t.choices i j :=
    mem_splits.2 ⟨⟨him, hmj⟩, left, right, hl, hr, rfl⟩
  obtain ⟨hnone, hsome⟩ := bestSplit?_spec t.choices i j
  cases hsplit : bestSplit? t.choices i j with
  | none =>
    rw [hnone hsplit] at hmem
    cases hmem
  | some split =>
    obtain ⟨halves, k⟩ := split
    obtain ⟨hin, hle⟩ := hsome _ hsplit
    have hge := hle _ hmem
    obtain ⟨⟨hik, hkj⟩, left', right', hl', hr', rfl⟩ := mem_splits.1 hin
    obtain ⟨a, ha, hleft'⟩ := h.exists_times hl' (by omega)
    obtain ⟨b, hb, hright'⟩ := h.exists_times hr' (by omega)
    have hcount : a + b = (inner marks i j).card := by
      apply Nat.le_antisymm
      · have := card_halves_le h.proper hik hkj
        omega
      · dsimp only at hge
        rw [hleft, hright, hleft', hright', Score.times_add, Score.times_add] at hge
        have := Score.le_of_times_le_times h.unit_pos hge
        have := (card_halves_eq_iff h.proper him hmj).2 hfree
        omega
    have hchoice : t.choices.get i j = some
        { best with score := best.gain + (left'.score + right'.score), midpoint := k } := by
      rw [get_choices (by omega) hj, choose, hbest, Option.bind_some, if_neg (by simp; omega),
        hsplit, Option.map_some]
    refine ⟨_, hchoice, ?_⟩
    rw [← hcount, ← Score.times_add, ← hleft', ← hright']

end Rewarded

end ConstituentTask

end Constituency
