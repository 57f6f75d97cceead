import Constituency.Proofs.Chart.Gathered
import Constituency.Proofs.Grammar.Chain
import Constituency.Proofs.Search.Gather

/-!
# Crossing in segments

Each segment of left children fills a cell of its own, and these are merged in the order of the segments, in
whatever grouping (`Merges`). If scores are not summed, what comes out is the cell that all candidates fill
after they have been sorted by segment (`Merges.eq_filled`). So it holds the same symbols as the cell of
a single segment, with the same scores from as many candidates, but among several best candidates for a
symbol it keeps one of the lowest segment, where a single segment keeps one of the first midpoint
(`crossing_agrees`).
-/

namespace Constituency

namespace Exhaustive

variable {α : Type} [Score α] {g : Grammar α} {acc : Accumulator α} {c : Chart α} {i j count : Nat}
  {A : NonTerminal} {x : Entry α} {entries more : List (Entry α)} {lists : List (List (Entry α))}

/-! ## The first best entry -/

section Monotone

variable [MonotoneScore α]

/-- A cell keeps of a symbol the first of its best entries. -/
theorem find?_of_filled (hnt : ∀ e ∈ entries, e.nonterminal < g.numNonterminals)
    (hA : (filled g .best i j entries).get? A = some x) :
    entries.find? (fun e => e.nonterminal == A && decide (x.inside ≤ e.inside)) = some x := by
  induction entries using List.reverseRecOn with
  | nil =>
    rw [Scratch.get?, filled, List.foldl_nil, Scratch.find?_empty] at hA
    cases hA
  | append_singleton before e ih =>
    have hbefore : ∀ e' ∈ before, e'.nonterminal < g.numNonterminals := fun e' he' =>
      hnt e' (List.mem_append_left _ he')
    have hg := filled_gathers (i := i) (j := j) Accumulator.keepsPossible_best hbefore
    have ht := filled_tight (i := i) (j := j) hbefore
    have hlt : e.nonterminal < (filled g .best i j before).held.size :=
      hg.size_eq.symm ▸ hnt e (by simp)
    have hnext : filled g .best i j (before ++ [e]) = (filled g .best i j before).add .best e :=
      List.foldl_append
    rw [hnext] at hA
    rw [List.find?_append]
    rcases Score.lt_or_ge ((filled g .best i j before).inside e.nonterminal) e.inside with hbest | hle
    · obtain ⟨h, hfind, rfl⟩ := Scratch.get?_eq_some_iff.1 hA
      rw [Scratch.find?_add_of_lt ht hlt hbest] at hfind
      split at hfind
      · next heq =>
        subst heq
        obtain rfl := Option.some.inj hfind
        have hnone : before.find? (fun e' => e'.nonterminal == e.nonterminal &&
            decide (e.inside ≤ e'.inside)) = none := by
          refine List.find?_eq_none.2 fun e' he' hboth => ?_
          rw [Bool.and_eq_true, beq_iff_eq, decide_eq_true_iff] at hboth
          have hbelow := hg.le_best e' he'
          rw [hboth.1, ht.best_eq] at hbelow
          exact Score.not_lt.2 (Score.le_trans hboth.2 hbelow) hbest
        rw [hnone, Option.none_or]
        simp [Score.le_refl]
      · rw [ih hbefore (Scratch.get?_eq_some_iff.2 ⟨h, hfind, rfl⟩), Option.some_or]
    · rw [Scratch.add_of_le ht hlt hle] at hA
      rw [ih hbefore hA, Option.some_or]

/-- In whatever order some entries are added, the same symbols get one, with scores that compare equal. -/
theorem filled_perm (hnt : ∀ e ∈ entries, e.nonterminal < g.numNonterminals)
    (hperm : more.Perm entries) (A : NonTerminal) :
    ((filled g .best i j more).get? A).isSome = ((filled g .best i j entries).get? A).isSome ∧
      ∀ x y, (filled g .best i j entries).get? A = some x → (filled g .best i j more).get? A = some y →
        x.inside ≤ y.inside ∧ y.inside ≤ x.inside := by
  have hnt' : ∀ e ∈ more, e.nonterminal < g.numNonterminals := fun e he =>
    hnt e (hperm.mem_iff.1 he)
  have hg := filled_gathers (i := i) (j := j) Accumulator.keepsPossible_best hnt
  have hg' := filled_gathers (i := i) (j := j) Accumulator.keepsPossible_best hnt'
  have hle := hg.inside_le (filled_tight hnt) hg' (filled_tight hnt')
    (fun e he => hperm.mem_iff.2 he) A
  have hge := hg'.inside_le (filled_tight hnt') hg (filled_tight hnt)
    (fun e he => hperm.mem_iff.1 he) A
  constructor
  · rw [Bool.eq_iff_iff, Scratch.get?, Scratch.get?, Option.isSome_map, Option.isSome_map,
      Scratch.isSome_find?_iff hg.possible, Scratch.isSome_find?_iff hg'.possible]
    exact ⟨fun h => Score.lt_of_lt_of_le h hge, fun h => Score.lt_of_lt_of_le h hle⟩
  · intro x y hx hy
    rw [Scratch.inside_of_get? hx, Scratch.inside_of_get? hy] at hle hge
    exact ⟨hle, hge⟩

end Monotone

/-! ## Merging -/

/-- The cell that some entries fill, and their number. -/
def scored (g : Grammar α) (acc : Accumulator α) (i j : Nat) (entries : List (Entry α)) :
    Scratch α × Nat :=
  (filled g acc i j entries, entries.length)

/-- What cells with their numbers of derivations may come to when they are merged in order: neighbours
are grouped in any way, and a cell without derivations may stand anywhere. -/
inductive Merges (acc : Accumulator α) (blank : Scratch α) :
    List (Scratch α × Nat) → Scratch α × Nat → Prop where
  | blank : Merges acc blank [] (blank, 0)
  | one (part : Scratch α × Nat) : Merges acc blank [part] part
  | join {parts more : List (Scratch α × Nat)} {x y : Scratch α × Nat} :
      Merges acc blank parts x → Merges acc blank more y →
        Merges acc blank (parts ++ more) (x.1.merge acc y.1, x.2 + y.2)

/-- What crossing the halves of a span in some segments may come to. Segments behind the last
non-terminal are among the cells without derivations. -/
def Crosses (g : Grammar α) (acc : Accumulator α) (count : Nat) (c : Chart α) (i j : Nat) :
    Scratch α × Nat → Prop :=
  Merges acc (Scratch.empty i j g.numNonterminals)
    (((segments g count).map (binaryEntries g c i j)).map (scored g acc i j))

/-- Cells merged one after the other. -/
theorem Merges.foldl {blank : Scratch α} {done : List (Scratch α × Nat)} {part : Scratch α × Nat}
    (h : Merges acc blank done part) (g : Grammar α) (i j : Nat) (lists : List (List (Entry α))) :
    Merges acc blank (done ++ lists.map (scored g acc i j))
      ((lists.map (filled g acc i j)).foldl (Scratch.merge acc) part.1,
        part.2 + lists.flatten.length) := by
  induction lists generalizing done part with
  | nil => simpa using h
  | cons entries rest ih =>
    have hnext := ih (h.join (.one (scored g acc i j entries)))
    rw [List.append_assoc] at hnext
    rw [List.flatten_cons, List.length_append, ← Nat.add_assoc]
    exact hnext

section Monotone

variable [MonotoneScore α]

/-- The halves of two lists fill one cell like the whole of them. -/
theorem merge_filled (entries more : List (Entry α)) :
    Scratch.merge .best (filled g .best i j entries) (filled g .best i j more) =
      filled g .best i j (entries ++ more) :=
  Scratch.merge_gathered Scratch.orders_higher_of_monotone entries more

/-- In whatever grouping the cells of some lists are merged, the result is that of the lists one after
the other. -/
theorem Merges.eq_filled {result : Scratch α × Nat}
    (h : Merges .best (Scratch.empty i j g.numNonterminals)
      (lists.map (scored g .best i j)) result) :
    result = scored g .best i j lists.flatten := by
  generalize hparts : lists.map (scored g .best i j) = parts at h
  induction h generalizing lists with
  | blank =>
    rw [List.map_eq_nil_iff.1 hparts]
    rfl
  | one part =>
    obtain ⟨entries, rfl, rfl⟩ := List.map_eq_singleton_iff.1 hparts
    rw [List.flatten_singleton]
  | join _ _ ih ih' =>
    obtain ⟨first, second, rfl, hfirst, hsecond⟩ := List.map_eq_append_iff.1 hparts
    rw [ih hfirst, ih' hsecond, List.flatten_append]
    exact Prod.ext (merge_filled first.flatten second.flatten) List.length_append.symm

theorem Crosses.eq_scored (hcount : 0 < count) {result : Scratch α × Nat}
    (h : Crosses g .best count c i j result) :
    result = scored g .best i j (crossOrder g c count i j) := by
  rw [← flatten_segments g c i j hcount]
  exact Merges.eq_filled h

end Monotone

/-- A cell by itself is not merged. -/
theorem Merges.of_length_le_one (g : Grammar α) (acc : Accumulator α) (i j : Nat)
    (hlength : lists.length ≤ 1) :
    Merges acc (Scratch.empty i j g.numNonterminals) (lists.map (scored g acc i j))
      (scored g acc i j lists.flatten) := by
  match lists, hlength with
  | [], _ => exact .blank
  | [entries], _ =>
    rw [List.flatten_singleton]
    exact .one _

/-- The cell of a number of segments is merged from theirs, one after the other. -/
theorem crosses_crossCell (g : Grammar α) (acc : Accumulator α) (c : Chart α) (i j : Nat)
    (hcount : 0 < count) : Crosses g acc count c i j (crossCell g acc count c i j) := by
  rw [crossCell]
  split
  · next hle =>
    obtain rfl : count = 1 := Nat.le_antisymm hle hcount
    have hfew : ((segments g 1).map (binaryEntries g c i j)).length ≤ 1 := by
      simp only [segments, List.length_map, List.length_range]
      exact Nat.min_le_left _ _
    have hone := Merges.of_length_le_one g acc i j hfew
    rwa [flatten_segments g c i j Nat.one_pos, crossOrder_one] at hone
  · have hblank : Merges acc (Scratch.empty i j g.numNonterminals) [] _ := .blank
    have hfold := hblank.foldl g i j ((segments g count).map (binaryEntries g c i j))
    rwa [List.nil_append, Nat.zero_add] at hfold

/-! ## Comparison with a single segment -/

/-- However the cells of some segments are merged, the result has entries for the same symbols as the cell
of a single segment, with scores that compare equal, and counts as many derivations. The entry of a symbol
is the same if and only if no best candidate for the symbol has its left child in a lower segment than
that entry. -/
theorem crossing_agrees [MonotoneScore α] (g : Grammar α) (c : Chart α) (i j : Nat)
    (hcount : 0 < count) :
    Crosses g .best count c i j (crossCell g .best count c i j) ∧
      ∀ result, Crosses g .best count c i j result →
        result.2 = (crossCell g .best 1 c i j).2 ∧
          ∀ A, (result.1.get? A).isSome = ((crossCell g .best 1 c i j).1.get? A).isSome ∧
            ∀ x y, (crossCell g .best 1 c i j).1.get? A = some x → result.1.get? A = some y →
              (x.inside ≤ y.inside ∧ y.inside ≤ x.inside) ∧
                (y = x ↔ ∀ e ∈ binaryEntries g c i j fun _ => true, e.nonterminal = A →
                  x.inside ≤ e.inside → segmentOf g count x ≤ segmentOf g count e) := by
  refine ⟨crosses_crossCell g .best c i j hcount, fun result hcrosses => ?_⟩
  have hnt : ∀ e ∈ binaryEntries g c i j fun _ => true, e.nonterminal < g.numNonterminals :=
    fun e he => parent_lt_of_mem_binaryEntries he
  have hperm := crossOrder_perm (g := g) (c := c) (i := i) (j := j) hcount
  have hnt' : ∀ e ∈ crossOrder g c count i j, e.nonterminal < g.numNonterminals :=
    fun e he => hnt e (hperm.mem_iff.1 he)
  obtain rfl := hcrosses.eq_scored hcount
  refine ⟨hperm.length_eq, fun A => ⟨(filled_perm hnt hperm A).1, fun x y hx hy => ?_⟩⟩
  obtain ⟨hle, hge⟩ := (filled_perm hnt hperm A).2 x y hx hy
  refine ⟨⟨hle, hge⟩, ?_⟩
  -- the scores compare equal, so that the same entries are no worse than either
  have hsame : ∀ e : Entry α, decide (y.inside ≤ e.inside) = decide (x.inside ≤ e.inside) :=
    fun e => decide_eq_decide.2 ⟨Score.le_trans hle, Score.le_trans hge⟩
  have hfirst := find?_of_filled hnt hx
  have hfirst' := find?_of_filled hnt' hy
  simp only [hsame] at hfirst'
  rw [eq_iff_of_find?_sortedBy hfirst hfirst']
  simp only [Bool.and_eq_true, beq_iff_eq, decide_eq_true_iff, and_imp]

/-- `S → B B`, `S → B S`, `S → S B` and `B → b`: three words branch to either side. -/
def bushes : Grammar (WithBot ℤ) :=
  .ofProductions Chain.symbols Chain.code Chain.fits
    [⟨0, .binary 2 2, 0⟩, ⟨0, .binary 2 0, 0⟩, ⟨0, .binary 0 2, 0⟩, ⟨2, .lexical 0, 0⟩]
    (by
      have hsize : Chain.symbols.numNonterminals = 3 ∧ Chain.symbols.lexicon.size = 1 := by decide
      rw [hsize.1, hsize.2]
      simp [Production.InRange, Children.InRange])
    (by simp [Production.sameRule])

/-- The chart of three words. -/
def bushChart : Chart (WithBot ℤ) :=
  chartOf bushes .best .packed ⟨List.replicate 3 "b", List.replicate 3 (some 0), rfl⟩

/-- Two words branch in one way only, on which one and two segments agree. -/
theorem bushes_agree :
    (crossCell bushes .best 2 bushChart 0 2).2 = (crossCell bushes .best 1 bushChart 0 2).2 ∧
      (crossCell bushes .best 2 bushChart 0 2).1.get? 0 =
        (crossCell bushes .best 1 bushChart 0 2).1.get? 0 := by
  obtain ⟨hcrosses, hall⟩ := crossing_agrees bushes bushChart 0 2 (by decide : 0 < 2)
  obtain ⟨hconsidered, hentries⟩ := hall _ hcrosses
  refine ⟨hconsidered, ?_⟩
  have hsome : ((crossCell bushes .best 1 bushChart 0 2).1.get? 0).isSome = true := by
    decide +kernel
  obtain ⟨x, hx⟩ := Option.isSome_iff_exists.1 hsome
  obtain ⟨y, hy⟩ := Option.isSome_iff_exists.1 ((hentries 0).1.trans hsome)
  have hkept : ∀ x ∈ (crossCell bushes .best 1 bushChart 0 2).1.get? 0, segmentOf bushes 2 x = 1 := by
    decide +kernel
  have hoffered : ∀ e ∈ binaryEntries bushes bushChart 0 2 fun _ => true,
      segmentOf bushes 2 e = 1 := by decide +kernel
  rw [hx, hy, ((hentries 0).2 x y hx hy).2.2 fun e he _ _ =>
    Nat.le_of_eq ((hkept x hx).trans (hoffered e he).symm)]

/-- Over three words the first of two best candidates in one segment has `B` on its left, and in two
segments `S`. -/
theorem bushes_part :
    (((crossCell bushes .best 1 bushChart 0 3).1.get? 0).map fun e => (e.inside, e.backpointer)) =
        some (((0 : ℤ) : WithBot ℤ), .binary 2 0 1) ∧
      (((crossCell bushes .best 2 bushChart 0 3).1.get? 0).map fun e => (e.inside, e.backpointer)) =
        some (((0 : ℤ) : WithBot ℤ), .binary 0 2 2) := by
  decide +kernel

end Exhaustive

end Constituency
