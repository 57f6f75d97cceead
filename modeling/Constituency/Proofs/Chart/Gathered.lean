import Constituency.Proofs.Chart.Best
import Constituency.Proofs.Chart.Refinement
import Constituency.Proofs.Score.Bottom

/-!
# Cells that gather in parts

However the scores of several derivations combine, a scratch cell remembers the first of the best derivations
of a symbol. One more derivation and one more cell are put to what it remembers by the same operation
(`better`), which is associative on scores that derivations can have. Hence the derivations of a cell may be
gathered in parts that are merged in order, in any grouping (`parts_gather_together`); if scores are not summed,
this gives the very same cell, since the score of a symbol is that of its best derivation.
-/

namespace Constituency

namespace Scratch

variable {α : Type} [Score α] {acc : Accumulator α} {i j n : Nat} {A : NonTerminal} {e : Entry α}
  {us vs ws : List (Entry α)} {x y z : α × Backpointer} {xs ys : List (α × Backpointer)}

/-! ## The first of the best derivations -/

/-- The better of two derivations, and the first one in a tie. -/
def better : Option (α × Backpointer) → Option (α × Backpointer) → Option (α × Backpointer)
  | x, none => x
  | none, some y => some y
  | some x, some y => if x.1 < y.1 then some y else some x

/-- The first of the best derivations. -/
def firstBest (xs : List (α × Backpointer)) : Option (α × Backpointer) :=
  xs.foldl (fun x y => better x (some y)) none

theorem better_none (x : Option (α × Backpointer)) : better x none = x := by
  cases x <;> rfl

theorem none_better (x : Option (α × Backpointer)) : better none x = x := by
  cases x <;> rfl

theorem better_some (x y : α × Backpointer) :
    better (some x) (some y) = some (if x.1 < y.1 then y else x) := by
  rw [better]
  split <;> rfl

theorem firstBest_concat (xs : List (α × Backpointer)) (y : α × Backpointer) :
    firstBest (xs ++ [y]) = better (firstBest xs) (some y) := by
  rw [firstBest, List.foldl_append]
  rfl

section Orders

variable (hb : Chart.Orders (PackedChart.higher : α → α → Bool))
include hb

/-- What is not below a score that is not below another is not below that one either. -/
theorem not_lt_of_not_lt {a b c : α} (ha : Score.admissible a = true) (hb' : Score.admissible b = true)
    (hc : Score.admissible c = true) (hab : ¬ a < b) (hbc : ¬ b < c) : ¬ a < c := by
  intro hac
  have hbetter := hb.better_of_not ha hb' hc (decide_eq_false hab) (decide_eq_true hac)
  exact hbc (of_decide_eq_true hbetter)

theorem lt_of_not_lt_of_lt {a b c : α} (ha : Score.admissible a = true) (hb' : Score.admissible b = true)
    (hc : Score.admissible c = true) (hab : ¬ b < a) (hbc : b < c) : a < c :=
  of_decide_eq_true (hb.better_of_not hb' ha hc (decide_eq_false hab) (decide_eq_true hbc))

theorem not_lt_of_lt {a b : α} (ha : Score.admissible a = true) (hb' : Score.admissible b = true)
    (hab : a < b) : ¬ b < a :=
  of_decide_eq_false (hb.asymm hb' ha (decide_eq_true hab))

/-- Of three derivations the same one is the first best, whichever two of them are compared first. -/
theorem better_assoc (hx : Score.admissible x.1 = true) (hy : Score.admissible y.1 = true)
    (hz : Score.admissible z.1 = true) :
    better (better (some x) (some y)) (some z) = better (some x) (better (some y) (some z)) := by
  simp only [better_some, Option.some.injEq]
  by_cases hxy : x.1 < y.1
  · by_cases hyz : y.1 < z.1
    · have hxz := lt_of_not_lt_of_lt hb hx hy hz (not_lt_of_lt hb hx hy hxy) hyz
      simp only [if_pos hxy, if_pos hyz, if_pos hxz]
    · simp only [if_pos hxy, if_neg hyz]
  · by_cases hyz : y.1 < z.1
    · simp only [if_neg hxy, if_pos hyz]
    · simp only [if_neg hxy, if_neg hyz, if_neg (not_lt_of_not_lt hb hx hy hz hxy hyz)]

omit hb in
theorem firstBest_eq_none (h : firstBest xs = none) : xs = [] := by
  rcases List.eq_nil_or_concat xs with rfl | ⟨xs, y, rfl⟩
  · rfl
  · rw [List.concat_eq_append, firstBest_concat] at h
    cases hx : firstBest xs with
    | none => rw [hx, none_better] at h; cases h
    | some x => rw [hx, better_some] at h; cases h

/-- Nothing is better than the first of the best, and what comes before it is worse. -/
theorem firstBest_spec (hadm : ∀ x ∈ xs, Score.admissible x.1 = true) (hx : firstBest xs = some x) :
    ∃ before after, xs = before ++ x :: after ∧ (∀ p ∈ before, p.1 < x.1) ∧
      ∀ q ∈ xs, ¬ x.1 < q.1 := by
  have hirrefl : ∀ y ∈ xs, ¬ y.1 < y.1 := fun y hy h =>
    not_lt_of_lt hb (hadm y hy) (hadm y hy) h h
  induction xs using List.reverseRecOn generalizing x with
  | nil => cases hx
  | append_singleton xs y ih =>
    rw [List.forall_mem_append, List.forall_mem_singleton] at hadm hirrefl
    obtain ⟨hadm, hy⟩ := hadm
    rw [firstBest_concat] at hx
    cases hfirst : firstBest xs with
    | none =>
      obtain rfl := firstBest_eq_none hfirst
      rw [hfirst, none_better] at hx
      obtain rfl := Option.some.inj hx
      exact ⟨[], [], rfl, nofun, by simpa using hirrefl.2⟩
    | some z =>
      obtain ⟨before, after, hsplit, hbefore, hbest⟩ := ih hadm hfirst hirrefl.1
      have hz : z ∈ xs := hsplit ▸ List.mem_append_right before List.mem_cons_self
      rw [hfirst, better_some, Option.some.injEq] at hx
      split at hx
      · next hlt =>
        subst hx
        have hworse : ∀ p ∈ xs, p.1 < y.1 := fun p hp =>
          lt_of_not_lt_of_lt hb (hadm p hp) (hadm z hz) hy (hbest p hp) hlt
        refine ⟨xs, [], rfl, hworse, ?_⟩
        rw [List.forall_mem_append, List.forall_mem_singleton]
        exact ⟨fun q hq => not_lt_of_lt hb (hadm q hq) hy (hworse q hq), hirrefl.2⟩
      · next hnot =>
        subst hx
        refine ⟨before, after ++ [y], by rw [hsplit]; simp, hbefore, ?_⟩
        rw [List.forall_mem_append, List.forall_mem_singleton]
        exact ⟨hbest, hnot⟩

theorem firstBest_mem (hadm : ∀ x ∈ xs, Score.admissible x.1 = true) (hx : firstBest xs = some x) :
    x ∈ xs := by
  obtain ⟨before, after, rfl, -, -⟩ := firstBest_spec hb hadm hx
  exact List.mem_append_right before List.mem_cons_self

/-- The first best of two parts is the better one of the first best in each. -/
theorem firstBest_append (hxs : ∀ x ∈ xs, Score.admissible x.1 = true)
    (hys : ∀ y ∈ ys, Score.admissible y.1 = true) :
    firstBest (xs ++ ys) = better (firstBest xs) (firstBest ys) := by
  induction ys using List.reverseRecOn with
  | nil => rw [List.append_nil]; exact (better_none _).symm
  | append_singleton ys z ih =>
    rw [List.forall_mem_append, List.forall_mem_singleton] at hys
    rw [← List.append_assoc, firstBest_concat, firstBest_concat, ih hys.1]
    cases hx : firstBest xs with
    | none => rw [none_better, none_better]
    | some x =>
      cases hy : firstBest ys with
      | none => rw [better_none, none_better]
      | some y =>
        exact better_assoc hb (hxs x (firstBest_mem hb hxs hx)) (hys.1 y (firstBest_mem hb hys.1 hy))
          hys.2

end Orders

/-! ## What a cell remembers -/

/-- The best derivation in what is kept of a symbol. -/
def lead (h : Option (Held α)) : Option (α × Backpointer) :=
  h.map fun h => (h.best, h.backpointer)

/-- The best derivation of a symbol, its score and its backpointer. -/
def bestDerivation (c : Scratch α) (A : NonTerminal) : Option (α × Backpointer) :=
  lead (c.find? A)

/-- The derivations of a symbol among some entries, those with scores that they can have. -/
def derivations (us : List (Entry α)) (A : NonTerminal) : List (α × Backpointer) :=
  (us.filter fun e => e.nonterminal == A && Score.admissible e.inside).map
    fun e => (e.inside, e.backpointer)

/-- The cell that some entries are added to, one after the other. -/
def gathered (acc : Accumulator α) (i j n : Nat) (us : List (Entry α)) : Scratch α :=
  us.foldl (add acc) (empty i j n)

theorem lead_improve (acc : Accumulator α) (score : α) (b : Backpointer) (h : Option (Held α)) :
    lead (some (improve acc score b h).2) = better (lead h) (some (score, b)) := by
  cases h with
  | none => rfl
  | some h =>
    show _ = if h.best < score then some (score, b) else some (h.best, h.backpointer)
    rw [improve]
    split <;> rfl

theorem lead_mergeHeld (acc : Accumulator α) (g h : Option (Held α)) :
    lead (mergeHeld acc g h) = better (lead g) (lead h) := by
  match g, h with
  | g, none => rw [mergeHeld]; exact (better_none _).symm
  | none, some h => rfl
  | some g, some h =>
    show _ = if g.best < h.best then some (h.best, h.backpointer) else some (g.best, g.backpointer)
    rw [mergeHeld]
    split <;> rfl

theorem admissible_of_mem_derivations (hx : x ∈ derivations us A) :
    Score.admissible x.1 = true := by
  obtain ⟨e, he, rfl⟩ := List.mem_map.1 hx
  exact (Bool.and_eq_true_iff.1 (List.mem_filter.1 he).2).2

theorem derivations_append (us vs : List (Entry α)) (A : NonTerminal) :
    derivations (us ++ vs) A = derivations us A ++ derivations vs A := by
  rw [derivations, List.filter_append, List.map_append]
  rfl

theorem size_gathered (acc : Accumulator α) (i j n : Nat) (us : List (Entry α)) :
    (gathered acc i j n us).held.size = n :=
  (foldl_add_size _ _).trans Array.size_replicate

omit [Score α] in
theorem find?_eq_none_of_size_le {c : Scratch α} (hA : c.held.size ≤ A) : c.find? A = none := by
  cases h : c.find? A with
  | none => rfl
  | some h' => exact absurd (lt_size_of_find? h) (Nat.not_lt.2 hA)

/-- An entry for a symbol without a place changes nothing. -/
theorem add_of_size_le {c : Scratch α} (h : c.held.size ≤ e.nonterminal) : c.add acc e = c := by
  rw [add, update]
  split
  · show { c with held := c.held.setIfInBounds _ _ } = c
    rw [Array.setIfInBounds_eq_of_size_le h]
  · rfl

theorem find?_add_of_lt_size {c : Scratch α} (hA : A < c.held.size) : (c.add acc e).find? A =
    if A = e.nonterminal ∧ Score.admissible e.inside = true then
      some (improve acc e.inside e.backpointer (c.find? A)).2
    else c.find? A := by
  rcases Nat.lt_or_ge e.nonterminal c.held.size with hnt | hge
  · exact find?_add hnt A
  · have hne : A ≠ e.nonterminal := fun h => Nat.not_lt.2 hge (h ▸ hA)
    rw [add_of_size_le hge, if_neg fun h => hne h.1]

theorem gathered_concat (us : List (Entry α)) (e : Entry α) :
    gathered acc i j n (us ++ [e]) = (gathered acc i j n us).add acc e := by
  rw [gathered, List.foldl_append]
  rfl

/-- A cell remembers the first of the best derivations that have been added to it. -/
theorem bestDerivation_gathered (acc : Accumulator α) (hA : A < n) :
    bestDerivation (gathered acc i j n us) A = firstBest (derivations us A) := by
  induction us using List.reverseRecOn with
  | nil => rw [bestDerivation, gathered, List.foldl_nil, find?_empty]; rfl
  | append_singleton us e ih =>
    rw [gathered_concat, bestDerivation, find?_add_of_lt_size (hA.trans_eq (size_gathered ..).symm),
      derivations_append]
    by_cases he : A = e.nonterminal ∧ Score.admissible e.inside = true
    · have hone : derivations [e] A = [(e.inside, e.backpointer)] := by
        simp [derivations, he.1, he.2]
      rw [if_pos he, lead_improve, hone, firstBest_concat, ← ih, bestDerivation]
    · have hnone : derivations [e] A = [] := by
        refine List.map_eq_nil_iff.2 (List.filter_eq_nil_iff.2 fun e' he' => ?_)
        rw [List.mem_singleton.1 he', Bool.and_eq_true, beq_iff_eq]
        exact fun h => he ⟨h.1.symm, h.2⟩
      rw [if_neg he, hnone, List.append_nil, ← ih, bestDerivation]

theorem bestDerivation_of_size_le (acc : Accumulator α) (us : List (Entry α)) (hA : n ≤ A) :
    bestDerivation (gathered acc i j n us) A = none := by
  rw [bestDerivation, find?_eq_none_of_size_le ((size_gathered ..).trans_le hA)]
  rfl

/-! ## Merging -/

theorem bestDerivation_merge {c d : Scratch α} (hsize : c.held.size = d.held.size) (A : NonTerminal) :
    bestDerivation (merge acc c d) A = better (bestDerivation c A) (bestDerivation d A) := by
  rw [bestDerivation, find?_merge hsize, lead_mergeHeld, bestDerivation, bestDerivation]

section Orders

variable (hb : Chart.Orders (PackedChart.higher : α → α → Bool))
include hb

/-- Two cells that are merged remember what the cell of all their derivations does. -/
theorem bestDerivation_merge_gathered (acc : Accumulator α) (us vs : List (Entry α)) (A : NonTerminal) :
    bestDerivation (merge acc (gathered acc i j n us) (gathered acc i j n vs)) A =
      bestDerivation (gathered acc i j n (us ++ vs)) A := by
  rw [bestDerivation_merge ((size_gathered ..).trans (size_gathered ..).symm)]
  rcases Nat.lt_or_ge A n with hA | hA
  · rw [bestDerivation_gathered acc hA, bestDerivation_gathered acc hA,
      bestDerivation_gathered acc hA, derivations_append,
      firstBest_append hb (fun x => admissible_of_mem_derivations) fun x => admissible_of_mem_derivations]
  · rw [bestDerivation_of_size_le acc us hA, bestDerivation_of_size_le acc vs hA,
      bestDerivation_of_size_le acc (us ++ vs) hA]
    rfl

end Orders

/-! ## Scores that are not summed -/

/-- The score of each symbol is that of its best derivation, and a number. -/
def Single (c : Scratch α) : Prop :=
  ∀ A h, c.find? A = some h → h.inside = h.best ∧ Score.isNaN h.best = false

theorem combine_best {a b : α} (ha : Score.isNaN a = false) :
    Accumulator.best.combine a b = if a < b then b else a := by
  rw [Accumulator.combine, Score.best, ha, if_neg Bool.false_ne_true]

theorem Single.add {c : Scratch α} (hc : c.Single) : (c.add .best e).Single := by
  intro A h hA
  have hlt := lt_size_of_find? hA
  rw [size_add] at hlt
  rw [find?_add_of_lt_size hlt] at hA
  split at hA
  · next hboth =>
    have hnumber : Score.isNaN e.inside = false := Chart.isNaN_of_admissible hboth.2
    rw [Option.some.injEq] at hA
    subst hA
    cases hfound : c.find? A with
    | none => exact ⟨rfl, hnumber⟩
    | some h =>
      obtain ⟨hinside, hold⟩ := hc A h hfound
      rw [improve, hinside, combine_best hold]
      by_cases hlt : h.best < e.inside
      · simp only [if_pos hlt]
        exact ⟨trivial, hnumber⟩
      · simp only [if_neg hlt]
        exact ⟨trivial, hold⟩
  · exact hc A h hA

theorem single_gathered (us : List (Entry α)) : (gathered .best i j n us).Single := by
  induction us using List.reverseRecOn with
  | nil =>
    intro A h hA
    rw [gathered, List.foldl_nil, find?_empty] at hA
    cases hA
  | append_singleton us e ih =>
    rw [gathered_concat]
    exact ih.add

theorem Single.merge {c d : Scratch α} (hc : c.Single) (hd : d.Single)
    (hsize : c.held.size = d.held.size) : (merge .best c d).Single := by
  intro A h hA
  rw [find?_merge hsize] at hA
  cases hfound : c.find? A with
  | none =>
    cases hfound' : d.find? A with
    | none => rw [hfound, hfound'] at hA; cases hA
    | some b =>
      rw [hfound, hfound'] at hA
      exact Option.some.inj hA ▸ hd A b hfound'
  | some a =>
    cases hfound' : d.find? A with
    | none =>
      rw [hfound, hfound'] at hA
      exact Option.some.inj hA ▸ hc A a hfound
    | some b =>
      obtain ⟨hinside, hnumber⟩ := hc A a hfound
      obtain ⟨hinside', hnumber'⟩ := hd A b hfound'
      rw [hfound, hfound', mergeHeld, hinside, hinside', combine_best hnumber] at hA
      by_cases hlt : a.best < b.best
      · simp only [if_pos hlt, Option.some.injEq] at hA
        exact hA ▸ ⟨rfl, hnumber'⟩
      · simp only [if_neg hlt, Option.some.injEq] at hA
        exact hA ▸ ⟨rfl, hnumber⟩

/-- Such a cell is known by the best derivations. -/
theorem Single.eq_of_bestDerivation_eq {c d : Scratch α} (hc : c.Single) (hd : d.Single)
    (hstart : c.start = d.start) (hstop : c.stop = d.stop) (hsize : c.held.size = d.held.size)
    (hbest : ∀ A, bestDerivation c A = bestDerivation d A) : c = d := by
  refine eq_of_find?_eq hstart hstop hsize fun A => ?_
  have hlead := hbest A
  rw [bestDerivation, bestDerivation, lead, lead] at hlead
  cases hfound : c.find? A with
  | none =>
    rw [hfound, Option.map_none] at hlead
    exact (Option.map_eq_none_iff.1 hlead.symm).symm
  | some h =>
    rw [hfound, Option.map_some] at hlead
    obtain ⟨h', hfound', hpair⟩ := Option.map_eq_some_iff.1 hlead.symm
    obtain ⟨inside, best, b⟩ := h
    obtain ⟨inside', best', b'⟩ := h'
    obtain ⟨rfl, rfl⟩ := Prod.mk.inj hpair
    obtain rfl : inside = best' := (hc A _ hfound).1
    obtain rfl : inside' = inside := (hd A _ hfound').1
    exact hfound'.symm

theorem start_gathered (acc : Accumulator α) (i j n : Nat) (us : List (Entry α)) :
    (gathered acc i j n us).start = i ∧ (gathered acc i j n us).stop = j :=
  foldl_add_start acc (empty i j n) us

theorem empty_merge_gathered (acc : Accumulator α) (us : List (Entry α)) :
    merge acc (empty i j n) (gathered acc i j n us) = gathered acc i j n us := by
  have hsize : (empty i j n : Scratch α).held.size = (gathered acc i j n us).held.size :=
    Array.size_replicate.trans (size_gathered acc i j n us).symm
  obtain ⟨hstart, hstop⟩ := start_gathered acc i j n us
  refine eq_of_find?_eq hstart.symm hstop.symm ?_ fun A => ?_
  · rw [size_merge, hsize, Nat.min_self]
  · rw [find?_merge hsize, find?_empty]
    cases (gathered acc i j n us).find? A <;> rfl

/-- In a cell of scores that are not summed, parts that are merged give the whole. -/
theorem merge_gathered (hb : Chart.Orders (PackedChart.higher : α → α → Bool))
    (us vs : List (Entry α)) :
    merge .best (gathered .best i j n us) (gathered .best i j n vs) =
      gathered .best i j n (us ++ vs) := by
  have hsize : (gathered .best i j n us).held.size = (gathered .best i j n vs).held.size :=
    (size_gathered ..).trans (size_gathered ..).symm
  refine ((single_gathered us).merge (single_gathered vs) hsize).eq_of_bestDerivation_eq
    (single_gathered _) ?_ ?_ ?_ (bestDerivation_merge_gathered hb .best us vs)
  · exact (start_gathered .best i j n us).1.trans (start_gathered .best i j n _).1.symm
  · exact (start_gathered .best i j n us).2.trans (start_gathered .best i j n _).2.symm
  · rw [size_merge, ← hsize, Nat.min_self, size_gathered, size_gathered]

/-- Scores with a total comparison are ordered by it. -/
theorem orders_higher_of_monotone [MonotoneScore α] :
    Chart.Orders (PackedChart.higher : α → α → Bool) where
  asymm {x y} _ _ h :=
    decide_eq_false (Score.not_lt.2 (Score.le_of_lt (of_decide_eq_true h : y < x)))
  better_of_not {x y z} _ _ _ h h' :=
    decide_eq_true (Score.lt_of_le_of_lt (Score.not_lt.1 (of_decide_eq_false h : ¬ x < y))
      (of_decide_eq_true h' : x < z))

/-! ## What comes first -/

theorem mem_derivations (he : e ∈ us) (hadm : Score.admissible e.inside = true) :
    (e.inside, e.backpointer) ∈ derivations us e.nonterminal :=
  List.mem_map_of_mem (List.mem_filter.2 ⟨he, by rw [hadm, beq_self_eq_true]; rfl⟩)

/-- Where a derivation stands among others of the symbol, an entry stands among the entries. -/
theorem of_derivations_eq {before after : List (α × Backpointer)}
    (h : derivations us A = before ++ x :: after) :
    ∃ vs e ws, us = vs ++ e :: ws ∧ e.nonterminal = A ∧ (e.inside, e.backpointer) = x ∧
      derivations vs A = before := by
  obtain ⟨front, rest, hfilter, hfront, hrest⟩ := List.map_eq_append_iff.1 h
  obtain ⟨vs, ws, rfl, hvs, hws⟩ := List.filter_eq_append_iff.1 hfilter
  obtain ⟨e, later, rfl, rfl, -⟩ := List.map_eq_cons_iff.1 hrest
  obtain ⟨skipped, ws, rfl, hskipped, he, -⟩ := List.filter_eq_cons_iff.1 hws
  refine ⟨vs ++ skipped, e, ws, by rw [List.append_assoc],
    beq_iff_eq.1 (Bool.and_eq_true_iff.1 he).1, rfl, ?_⟩
  rw [derivations, List.filter_append, hvs, List.filter_eq_nil_iff.2 hskipped, List.append_nil]
  exact hfront

/-- The derivation is the first one of the symbol with the best score. -/
def IsFirstBest (us : List (Entry α)) (A : NonTerminal) (score : α) (b : Backpointer) : Prop :=
  ∃ before e after, us = before ++ e :: after ∧ e.nonterminal = A ∧ e.inside = score ∧
    e.backpointer = b ∧ (∀ p ∈ before, p.nonterminal = A → (p.inside == score) = false) ∧
    ∀ u ∈ us, u.nonterminal = A → ¬ score < u.inside

/-! ## Single precision -/

section SinglePrecision

variable {acc : Accumulator Float32} {us : List (Entry Float32)} {i j n : Nat} {A : NonTerminal}
  {s : Float32} {b : Backpointer}

open Binary32

/-- What a cell remembers of a symbol is the first of its best derivations, and possible. -/
theorem isFirstBest_of_bestDerivation
    (h : bestDerivation (gathered acc i j n us) A = some (s, b)) :
    negInfinity < s ∧ IsFirstBest us A s b := by
  have hA : A < n := by
    by_contra hge
    rw [bestDerivation_of_size_le acc us (Nat.not_lt.1 hge)] at h
    cases h
  rw [bestDerivation_gathered acc hA] at h
  obtain ⟨before, after, hsplit, hworse, hbest⟩ := firstBest_spec PackedChart.orders_higher
    (fun x => admissible_of_mem_derivations) h
  obtain ⟨vs, e, ws, rfl, rfl, hpair, hvs⟩ := of_derivations_eq hsplit
  obtain ⟨rfl, rfl⟩ := Prod.mk.inj hpair
  have hadm : Score.admissible e.inside = true :=
    admissible_of_mem_derivations (hsplit ▸ List.mem_append_right before List.mem_cons_self)
  refine ⟨admissible_iff.1 hadm, vs, e, ws, rfl, rfl, rfl, rfl, fun p hp hnt => ?_,
    fun u hu hnt hlt => ?_⟩
  · rw [← Bool.not_eq_true]
    intro hbeq
    obtain ⟨hnumber, hnumber'⟩ := isNaN_eq_false_of_beq hbeq
    have hsigned := (beq_iff_signed_eq hnumber hnumber').1 hbeq
    have hpossible : negInfinity < p.inside := by
      rw [lt_iff_signed_lt isNaN_negInfinity hnumber, hsigned,
        ← lt_iff_signed_lt isNaN_negInfinity hnumber']
      exact admissible_iff.1 hadm
    have hmem := mem_derivations hp (admissible_iff.2 hpossible)
    rw [hnt, hvs] at hmem
    have hlt : p.inside < e.inside := hworse (p.inside, p.backpointer) hmem
    rw [lt_iff_signed_lt hnumber hnumber'] at hlt
    exact hlt.ne hsigned
  · have hpossible : negInfinity < u.inside := @RisingScore.impossible_lt_of_lt Float32 _ _ _ _ hlt
    have hmem := mem_derivations hu (admissible_iff.2 hpossible)
    rw [hnt] at hmem
    exact hbest (u.inside, u.backpointer) hmem hlt

/-- Whatever way the derivations of a cell are divided into parts that are gathered by themselves and merged
in order, the cell remembers the same best derivation of each symbol, the first one with the best score, and it
has an entry for the symbol just if that score is possible. If scores are not summed, it is the same cell. -/
theorem parts_gather_together (i j n : Nat) :
    (∀ us vs : List (Entry Float32),
      merge .best (gathered .best i j n us) (gathered .best i j n vs) =
        gathered .best i j n (us ++ vs)) ∧
    (∀ us vs ws : List (Entry Float32),
      merge .best (merge .best (gathered .best i j n us) (gathered .best i j n vs))
          (gathered .best i j n ws) =
        merge .best (gathered .best i j n us)
          (merge .best (gathered .best i j n vs) (gathered .best i j n ws))) ∧
    ∀ (acc : Accumulator Float32) (us : List (Entry Float32)),
      merge acc (gathered acc i j n us) (empty i j n) = gathered acc i j n us ∧
      merge acc (empty i j n) (gathered acc i j n us) = gathered acc i j n us ∧
      (∀ vs A, bestDerivation (merge acc (gathered acc i j n us) (gathered acc i j n vs)) A =
        bestDerivation (gathered acc i j n (us ++ vs)) A) ∧
      ∀ A, (((gathered acc i j n us).get? A).isSome = true ↔
          negInfinity < (gathered acc i j n us).best A) ∧
        ∀ e, (gathered acc i j n us).get? A = some e →
          IsFirstBest us A ((gathered acc i j n us).best A) e.backpointer := by
  have hmerge := fun us vs : List (Entry Float32) =>
    merge_gathered (i := i) (j := j) (n := n) PackedChart.orders_higher us vs
  refine ⟨hmerge, fun us vs ws => ?_, fun acc us =>
    ⟨merge_empty acc (size_gathered ..), empty_merge_gathered acc us,
      bestDerivation_merge_gathered PackedChart.orders_higher acc us, fun A => ?_⟩⟩
  · rw [hmerge, hmerge, hmerge, hmerge, List.append_assoc]
  · cases hfound : (gathered acc i j n us).find? A with
    | none =>
      rw [get?, best, hfound, bestOf]
      refine ⟨iff_of_false Bool.noConfusion not_lt_negInfinity, fun e he => ?_⟩
      exact absurd he.symm (Option.some_ne_none e)
    | some h =>
      have hbest : bestDerivation (gathered acc i j n us) A = some (h.best, h.backpointer) := by
        rw [bestDerivation, hfound]
        rfl
      obtain ⟨hpossible, hfirst⟩ := isFirstBest_of_bestDerivation hbest
      rw [get?, best, hfound, bestOf]
      refine ⟨iff_of_true rfl hpossible, fun e he => ?_⟩
      rw [Option.map_some, Option.some.injEq] at he
      exact he ▸ hfirst

end SinglePrecision

end Scratch

end Constituency
