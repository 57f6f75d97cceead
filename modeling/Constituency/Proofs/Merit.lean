import Mathlib
import Constituency.Proofs.Grammar.Chain
import Constituency.Proofs.Score.Unrounded
import Constituency.Search.Beam

/-!
# The best surroundings of a constituent

The figure of merit of a boundary model looks at sequences of readings: one reading for each word to the
left of a constituent, or to the right of it. `leftScore` and `rightScore` add up what such a sequence
costs: the transitions between its parts of speech, the scores of its entries, the way into the
constituent or out of it, and the boundary of the sentence at the far end. Main statement: without
rounding, a constituent is ranked by its own score between the greatest scores of a sequence on its left
and of one on its right (`score_eq_best_surroundings`). Both lattices of columns are read off one by one:
a column is the best of all sequences that lead to it (`bestOf_foldl_forward_le_iff`,
`bestOf_foldr_backward_le_iff`).
-/

namespace Constituency

namespace BoundaryModel

variable {α : Type} [Score α]

/-! ## Sequences of readings -/

/-- The sequences with one reading for each word of a span. -/
def readings (m : BoundaryModel α) (chart : Chart α) (start stop : Nat) : List (Column α) :=
  ((List.range' start (stop - start)).map (m.emission chart)).sections

/-- The score of the readings behind a place: the transition to each of them, and its entry. -/
def pathScore (m : BoundaryModel α) : Nat → Column α → α
  | _, [] => 0
  | previous, (pos, inside) :: rest =>
    lookup m.transitions pos previous + inside + m.pathScore pos rest

/-- The place that a sequence behind another place leads to. -/
def lastPlace : Nat → Column α → Nat
  | previous, [] => previous
  | _, (pos, _) :: rest => lastPlace pos rest

/-- The score of a sequence from one of its readings on to the boundary, where the first place has a
score of its own. -/
def scoreOnward (m : BoundaryModel α) (first : Nat → α) : Column α → α
  | [] => first m.boundary
  | (pos, inside) :: rest => first pos + inside + m.pathScore pos (rest ++ m.outer)

/-- The score of the readings from the boundary up to a non-terminal. -/
def leftScore (m : BoundaryModel α) (nt : NonTerminal) (path : Column α) : α :=
  m.pathScore m.boundary path + lookup m.left nt (lastPlace m.boundary path)

/-- The score of the readings from a non-terminal on to the boundary. -/
def rightScore (m : BoundaryModel α) (nt : NonTerminal) (path : Column α) : α :=
  m.scoreOnward (lookup m.right nt) path

/-- There is a sequence of readings exactly if each word has a reading. -/
theorem readings_eq_nil_iff {m : BoundaryModel α} {chart : Chart α} {i j : Nat} :
    m.readings chart i j = [] ↔ ∃ k, i ≤ k ∧ k < j ∧ m.emission chart k = [] := by
  have hsections : ∀ columns : List (Column α), columns.sections = [] ↔ [] ∈ columns := by
    intro columns
    induction columns with
    | nil => simp
    | cons column rest ih =>
      simp only [List.sections, List.flatMap_eq_nil_iff, List.map_eq_nil_iff, List.mem_cons]
      rw [← ih, List.eq_nil_iff_forall_not_mem (l := rest.sections)]
      grind
  rw [readings, hsections, List.mem_map]
  simp only [List.mem_range'_1]
  grind

/-! ## The best of some scores -/

section Best

variable [MonotoneScore α] {a b : α} {xs : List α}

theorem le_bestOf (ha : a ∈ xs) : a ≤ bestOf xs :=
  PackedChart.le_total_best ha (Score.le_refl a)

theorem bestOf_le_iff : bestOf xs ≤ b ↔ ∀ x ∈ xs, x ≤ b :=
  ⟨fun h _ hx => Score.le_trans (le_bestOf hx) h, PackedChart.total_best_le⟩

end Best

variable [UnroundedScore α] {a b : α} {xs : List α}

/-- Scores below the same bounds are equal. -/
theorem eq_of_forall_le_iff (h : ∀ c, a ≤ c ↔ b ≤ c) : a = b :=
  UnroundedScore.le_antisymm ((h b).2 (Score.le_refl b)) ((h a).1 (Score.le_refl a))

theorem bestOf_mem (h : xs ≠ []) : bestOf xs ∈ xs := by
  obtain ⟨hmem, hle⟩ := Score.isGreatest_foldl_best Score.impossible xs
  rcases List.mem_cons.1 hmem with himp | hmem
  · obtain ⟨x, hx⟩ := List.exists_mem_of_ne_nil xs h
    have hxi : x = Score.impossible :=
      UnroundedScore.le_antisymm (himp ▸ hle (List.mem_cons_of_mem _ hx)) (Score.impossible_le x)
    rw [bestOf, himp, ← hxi]
    exact hx
  · exact hmem

/-- A score may be added before the best is taken or after it. -/
theorem bestOf_add (xs : List α) (a : α) : bestOf xs + a = bestOf (xs.map (· + a)) := by
  apply UnroundedScore.le_antisymm
  · by_cases hne : xs = []
    · rw [hne]
      exact MonotoneScore.impossible_add_le a
    · exact le_bestOf (List.mem_map.2 ⟨bestOf xs, bestOf_mem hne, rfl⟩)
  · refine bestOf_le_iff.2 fun y hy => ?_
    obtain ⟨x, hx, rfl⟩ := List.mem_map.1 hy
    exact Score.add_le_add_right (le_bestOf hx) a

theorem bestOf_add_le_iff : bestOf xs + a ≤ b ↔ ∀ x ∈ xs, x + a ≤ b := by
  rw [bestOf_add, bestOf_le_iff, List.forall_mem_map]

/-! ## The columns -/

omit [UnroundedScore α] in
theorem forwardColumns_eq (m : BoundaryModel α) (emissions : List (Column α)) :
    m.forwardColumns emissions = emissions.inits.map (·.foldl m.forward m.outer) := by
  induction emissions using List.reverseRecOn with
  | nil => rfl
  | append_singleton emissions emission ih =>
    have hlast : emissions.inits.getLast? = some emissions := by
      rw [List.getLast?_eq_getElem?, List.length_inits, Nat.add_sub_cancel,
        List.getElem?_eq_getElem (by rw [List.length_inits]; exact Nat.lt_succ_self _),
        List.getElem_inits, List.take_length]
    rw [forwardColumns, List.foldl_append, List.foldl_cons, List.foldl_nil, ← forwardColumns, ih,
      List.getLast?_map, hlast]
    simp [List.inits_append]

omit [UnroundedScore α] in
theorem backwardColumns_eq (m : BoundaryModel α) (emissions : List (Column α)) :
    m.backwardColumns emissions = emissions.tails.map (·.foldr m.backward m.outer) := by
  induction emissions with
  | nil => rfl
  | cons emission rest ih =>
    rw [backwardColumns, List.foldr_cons, ← backwardColumns, ih, List.tails_cons, List.map_cons,
      List.foldr_cons]
    cases rest <;> simp

omit [UnroundedScore α] in
theorem getD_forwardColumns (m : BoundaryModel α) {emissions : List (Column α)} {k : Nat}
    (hk : k ≤ emissions.length) :
    (m.forwardColumns emissions).toArray.getD k [] =
      (emissions.take k).foldl m.forward m.outer := by
  have hlt : k < emissions.inits.length := by rw [List.length_inits]; omega
  rw [forwardColumns_eq, Array.getD_eq_getD_getElem?, List.getElem?_toArray, List.getElem?_map,
    List.getElem?_eq_getElem hlt, List.getElem_inits]
  rfl

omit [UnroundedScore α] in
theorem getD_backwardColumns (m : BoundaryModel α) {emissions : List (Column α)} {k : Nat}
    (hk : k ≤ emissions.length) :
    (m.backwardColumns emissions).toArray.getD k [] =
      (emissions.drop k).foldr m.backward m.outer := by
  have hlt : k < emissions.tails.length := by rw [List.length_tails]; omega
  rw [backwardColumns_eq, Array.getD_eq_getD_getElem?, List.getElem?_toArray, List.getElem?_map,
    List.getElem?_eq_getElem hlt, List.getElem_tails]
  rfl

/-- A forward column holds the best sequences that lead on from another column. -/
theorem bestOf_foldl_forward_le_iff (m : BoundaryModel α) (emissions : List (Column α))
    (column : Column α) (last : Nat → α) :
    bestOf ((emissions.foldl m.forward column).map fun (pos, path) => path + last pos) ≤ b ↔
      ∀ r ∈ column, ∀ path ∈ emissions.sections,
        r.2 + (m.pathScore r.1 path + last (lastPlace r.1 path)) ≤ b := by
  induction emissions generalizing column with
  | nil =>
    rw [List.foldl_nil, bestOf_le_iff]
    simp only [List.forall_mem_map, List.sections, List.mem_singleton, forall_eq, pathScore,
      lastPlace, UnroundedScore.zero_add]
  | cons emission rest ih =>
    have hstep : ∀ (r q : Nat × α) (path : Column α),
        r.2 + (m.pathScore r.1 (q :: path) + last (lastPlace r.1 (q :: path))) =
          r.2 + lookup m.transitions q.1 r.1 +
            (q.2 + (m.pathScore q.1 path + last (lastPlace q.1 path))) := by
      intro r q path
      simp only [pathScore, lastPlace, UnroundedScore.add_assoc]
    rw [List.foldl_cons, ih]
    simp only [forward, List.forall_mem_map, List.sections, List.mem_flatMap,
      UnroundedScore.add_assoc, bestOf_add_le_iff]
    constructor
    · rintro h r hr _ ⟨path, hpath, hmem⟩
      obtain ⟨q, hq, rfl⟩ := List.mem_map.1 hmem
      rw [hstep, UnroundedScore.add_assoc]
      exact h q hq path hpath r hr
    · intro h q hq path hpath r hr
      have hle := h r hr (q :: path) ⟨path, hpath, List.mem_map.2 ⟨q, hq, rfl⟩⟩
      rwa [hstep, UnroundedScore.add_assoc] at hle

/-- A backward column holds the best sequences that lead on to the boundary. -/
theorem bestOf_foldr_backward_le_iff (m : BoundaryModel α) (emissions : List (Column α))
    (first : Nat → α) :
    bestOf ((emissions.foldr m.backward m.outer).map fun (pos, path) => path + first pos) ≤ b ↔
      ∀ path ∈ emissions.sections, m.scoreOnward first path ≤ b := by
  induction emissions generalizing first with
  | nil =>
    rw [List.foldr_nil, bestOf_le_iff]
    simp [outer, scoreOnward, UnroundedScore.zero_add]
  | cons emission rest ih =>
    -- what is known of a reading already goes into the score of the first place behind it
    have hstep : ∀ (q : Nat × α) (path : Column α), m.scoreOnward first (q :: path) =
        m.scoreOnward (fun next => lookup m.transitions next q.1 + (q.2 + first q.1)) path := by
      intro q path
      cases path with
      | nil =>
        simp only [scoreOnward, outer, List.nil_append, pathScore, UnroundedScore.add_zero]
        ac_rfl
      | cons r path =>
        simp only [scoreOnward, List.cons_append, pathScore]
        ac_rfl
    rw [List.foldr_cons, bestOf_le_iff]
    simp only [backward, List.map_map, List.forall_mem_map, Function.comp_apply, List.sections,
      List.mem_flatMap, UnroundedScore.add_assoc, bestOf_add_le_iff]
    constructor
    · rintro h _ ⟨path, hpath, hmem⟩
      obtain ⟨q, hq, rfl⟩ := List.mem_map.1 hmem
      rw [hstep]
      refine (ih _).1 (bestOf_le_iff.2 ?_) path hpath
      simpa only [List.forall_mem_map] using h q hq
    · intro h q hq
      have hle := bestOf_le_iff.1 ((ih fun next => lookup m.transitions next q.1 +
        (q.2 + first q.1)).2 fun path hpath => hstep q path ▸
          h (q :: path) ⟨path, hpath, List.mem_map.2 ⟨q, hq, rfl⟩⟩)
      simpa only [List.forall_mem_map] using hle

/-! ## The two contexts -/

variable {chart : Chart α} {i j : Nat}

/-- The best of some sequences is the greatest of their scores, and impossible without any. -/
theorem isGreatest_bestOf (paths : List (Column α)) (score : Column α → α) :
    (paths ≠ [] → IsGreatest {x | ∃ path ∈ paths, x = score path} (bestOf (paths.map score))) ∧
      (paths = [] → bestOf (paths.map score) = Score.impossible) := by
  constructor
  · intro hne
    have hmem : bestOf (paths.map score) ∈ paths.map score :=
      bestOf_mem (mt List.map_eq_nil_iff.1 hne)
    obtain ⟨path, hpath, heq⟩ := List.mem_map.1 hmem
    refine ⟨⟨path, hpath, heq.symm⟩, ?_⟩
    rintro _ ⟨path', hpath', rfl⟩
    exact le_bestOf (List.mem_map_of_mem hpath')
  · rintro rfl
    rfl

theorem leftContext_eq (m : BoundaryModel α) (hi : i ≤ chart.size) (A : NonTerminal) :
    m.leftContext ((m.forwardColumns ((List.range chart.size).map (m.emission chart))).toArray.getD
      i []) A = bestOf ((m.readings chart 0 i).map (m.leftScore A)) := by
  have hwords : ((List.range chart.size).map (m.emission chart)).take i =
      (List.range' 0 (i - 0)).map (m.emission chart) := by
    rw [← List.map_take, List.take_range, Nat.min_eq_left hi, List.range_eq_range', Nat.sub_zero]
  rw [getD_forwardColumns m (by simpa using hi), hwords]
  refine eq_of_forall_le_iff fun b => ?_
  rw [leftContext, bestOf_foldl_forward_le_iff, bestOf_le_iff, List.forall_mem_map]
  simp only [outer, List.mem_singleton, forall_eq, UnroundedScore.zero_add]
  rfl

theorem rightContext_eq (m : BoundaryModel α) (hj : j ≤ chart.size) (A : NonTerminal) :
    m.rightContext ((m.backwardColumns ((List.range chart.size).map (m.emission chart))).toArray.getD
      j []) A = bestOf ((m.readings chart j chart.size).map (m.rightScore A)) := by
  have hwords : ((List.range chart.size).map (m.emission chart)).drop j =
      (List.range' j (chart.size - j)).map (m.emission chart) := by
    rw [← List.map_drop, List.range_eq_range', List.drop_range', Nat.zero_add, Nat.mul_one]
  rw [getD_backwardColumns m (by simpa using hj), hwords]
  refine eq_of_forall_le_iff fun b => ?_
  rw [rightContext, bestOf_foldr_backward_le_iff, bestOf_le_iff, List.forall_mem_map]
  rfl

/-- A constituent is ranked by the greatest score of a sequence of readings up to it, its own score and
the greatest score of a sequence from it on. Either side is impossible if one of its words has no
reading. -/
theorem score_eq_best_surroundings (m : BoundaryModel α) (hi : i ≤ chart.size)
    (hj : j ≤ chart.size) (A : NonTerminal) (x : α) :
    ∃ left right, (m.forSentence chart).score i j A x = left + x + right ∧
      ((∀ k < i, m.emission chart k ≠ []) →
        IsGreatest {y | ∃ path ∈ m.readings chart 0 i, y = m.leftScore A path} left) ∧
      ((∃ k < i, m.emission chart k = []) → left = Score.impossible) ∧
      ((∀ k, j ≤ k → k < chart.size → m.emission chart k ≠ []) →
        IsGreatest {y | ∃ path ∈ m.readings chart j chart.size, y = m.rightScore A path} right) ∧
      ((∃ k, j ≤ k ∧ k < chart.size ∧ m.emission chart k = []) → right = Score.impossible) := by
  obtain ⟨hleft, hnoLeft⟩ := isGreatest_bestOf (m.readings chart 0 i) (m.leftScore A)
  obtain ⟨hright, hnoRight⟩ := isGreatest_bestOf (m.readings chart j chart.size) (m.rightScore A)
  refine ⟨_, _, congrArg₂ (· + x + ·) (m.leftContext_eq hi A) (m.rightContext_eq hj A), ?_, ?_, ?_,
    ?_⟩
  · intro hwords
    refine hleft fun hnil => ?_
    obtain ⟨k, -, hk, hempty⟩ := readings_eq_nil_iff.1 hnil
    exact hwords k hk hempty
  · rintro ⟨k, hk, hempty⟩
    exact hnoLeft (readings_eq_nil_iff.2 ⟨k, Nat.zero_le k, hk, hempty⟩)
  · intro hwords
    refine hright fun hnil => ?_
    obtain ⟨k, hjk, hk, hempty⟩ := readings_eq_nil_iff.1 hnil
    exact hwords k hjk hk hempty
  · exact fun hword => hnoRight (readings_eq_nil_iff.2 hword)

/-- Three words that each have two parts of speech. -/
def triple : Chart (WithBot ℤ) :=
  (Beam.commitWords Chain.pairs ⟨["b", "b", "b"], .replicate 3 (some 0), List.length_replicate⟩
    (.packed (.empty 3 Chain.pairs))).1

/-- A model that knows the two apart from each other and from the boundary. -/
def triples : BoundaryModel (WithBot ℤ) where
  posSymbols := Chain.pairs.posSymbols
  left := #[#[(-3 : ℤ), (-1 : ℤ), ⊥]]
  right := #[#[(-1 : ℤ), (-4 : ℤ), (-2 : ℤ)]]
  transitions := #[#[(-1 : ℤ), (-2 : ℤ), (-5 : ℤ)], #[⊥, (-7 : ℤ), (-6 : ℤ)], #[(-1 : ℤ), 0, ⊥]]

/-- The word in the middle stands behind the second reading of the first word and before the first
reading of the last one. -/
theorem triple_score_eq : 1 ≤ triple.size ∧ 2 ≤ triple.size ∧
    ∃ left right, (triples.forSentence triple).score 1 2 0 (-2 : ℤ) = left + (-2 : ℤ) + right ∧
      IsGreatest {y | ∃ path ∈ triples.readings triple 0 1, y = triples.leftScore 0 path} left ∧
      IsGreatest {y | ∃ path ∈ triples.readings triple 2 3, y = triples.rightScore 0 path} right ∧
      (triples.readings triple 0 1).map (triples.leftScore 0) = [(-9 : ℤ), (-7 : ℤ)] ∧
      (triples.readings triple 2 3).map (triples.rightScore 0) = [(-3 : ℤ), (-4 : ℤ)] := by
  have hsize : triple.size = 3 := by decide +kernel
  have hwords : ∀ k < 3, triples.emission triple k ≠ [] := by decide +kernel
  have h1 : 1 ≤ triple.size := by omega
  have h2 : 2 ≤ triple.size := by omega
  obtain ⟨left, right, hscore, hleft, -, hright, -⟩ :=
    score_eq_best_surroundings triples h1 h2 0 (-2 : ℤ)
  rw [hsize] at hright
  refine ⟨h1, h2, left, right, hscore, hleft fun k hk => hwords k (by omega),
    hright fun k _ hk => hwords k hk, ?_, ?_⟩
  · decide +kernel
  · decide +kernel

end BoundaryModel

end Constituency
