import Constituency.Proofs.Context
import Constituency.Proofs.Search.Gather

/-!
# Exhaustive search with sums

An exhaustive search that sums compares the score of one derivation, the best so far, with what a unary
rule makes of the scores of all derivations of its child. A rule that is a loss may win that
comparison, over its own symbol even, so that unary backpointers can run in circles. They still follow
rules from entry to entry (`fill_linked`), whatever the scores are made of: if no chain of unary rules
leads from a symbol back to itself, neither does a chain of backpointers.
-/

namespace Constituency

variable {α : Type} [Score α] {g : Grammar α} {acc : Accumulator α} {s : Sentence} {c : Chart α}
  {i j : Nat} {A B : NonTerminal}

namespace Chart

theorem Linked.unaryStep {R : α → α → Prop} (h : c.Linked g s R) (hlink : c.UnaryLink i j A B) :
    g.UnaryStep A B := by
  obtain ⟨e, he, hb⟩ := hlink
  obtain ⟨x, happ, -⟩ := h.made i j A e he
  rw [hb] at happ
  cases happ with
  | unary mem children => exact ⟨_, mem, rfl, children⟩

/-- Without circles of unary rules there are no circles of unary backpointers. -/
theorem Linked.acyclic {R : α → α → Prop} (h : c.Linked g s R) (hg : g.UnaryAcyclic) :
    c.Acyclic :=
  fun _ _ A hcycle => hg A (hcycle.lift id fun _ _ => h.unaryStep)

end Chart

namespace Exhaustive

variable [MonotoneScore α]

omit [MonotoneScore α] in
theorem isSome_find?_foldl_add {cell : Scratch α} {entries : List (Entry α)}
    (hnt : ∀ e ∈ entries, e.nonterminal < cell.held.size) (hA : (cell.find? A).isSome = true) :
    ((entries.foldl (Scratch.add acc) cell).find? A).isSome = true := by
  induction entries generalizing cell with
  | nil => exact hA
  | cons e rest ih =>
    refine ih (fun e' he' => ?_)
      ((Scratch.isSome_find?_add (hnt e List.mem_cons_self)).2 (.inr hA))
    rw [Scratch.size_add]
    exact hnt e' (List.mem_cons_of_mem _ he')

/-- The unary pass makes entries from what the cell holds in the end. -/
theorem made_of_unaryPass {cell : Scratch α} {entries : List (Entry α)}
    (hacc : acc.KeepsPossible) (h : cell.Gathers g i j entries)
    {inside : Nat → Nat → NonTerminal → α}
    (hinside : ∀ A held, (unaryPass g acc cell).1.find? A = some held →
      inside i j A = held.inside)
    (hmade : ∀ e ∈ entries, ∃ x, Application g s inside e.backpointer i j e.nonterminal x)
    {held : Held α} (hA : (unaryPass g acc cell).1.find? A = some held) :
    ∃ x, Application g s inside held.backpointer i j A x := by
  have hnt : ∀ e ∈ unaryEntries g cell.entries, e.nonterminal < g.numNonterminals :=
    fun _ => parent_lt_of_mem_unaryEntries
  have hfinal : (unaryPass g acc cell).1.Gathers g i j (entries ++ unaryEntries g cell.entries) :=
    h.foldl_add hacc hnt
  obtain ⟨e, he, rfl, hb, -⟩ := hfinal.source A held hA
  rw [← hb]
  rcases List.mem_append.1 he with he | he
  · exact hmade e he
  · obtain ⟨child, hchild, p, hp, hpc, rfl⟩ := mem_unaryEntries.1 he
    obtain ⟨old, hold, -⟩ := Scratch.get?_eq_some_iff.1 (Scratch.mem_entries.1 hchild)
    obtain ⟨below, hbelow⟩ := Option.isSome_iff_exists.1
      (isSome_find?_foldl_add (fun e he => h.size_eq ▸ hnt e he)
        (Option.isSome_iff_exists.2 ⟨old, hold⟩))
    refine ⟨_, .unary hp hpc ?_⟩
    rw [hinside _ below hbelow]
    exact hfinal.possible _ below hbelow

/-- A chart with some of its cells filled, in whatever way scores combine. -/
structure Backed (g : Grammar α) (s : Sentence) (visited : List (Nat × Nat)) (c : Chart α) :
    Prop extends c.Linked g s (fun _ _ => True) where
  possible : c.Possible
  blank : ∀ k l A, (k, l) ∉ visited → c.get? k l A = none

theorem fillCell_backed (hacc : acc.KeepsPossible) (count : Nat) {stats : Stats}
    {visited : List (Nat × Nat)} (hij : i < j) (hj : j ≤ s.size) (hnew : (i, j) ∉ visited)
    (hfits : (fillCell g acc count s (c, stats) (i, j)).1.Fits) (h : Backed g s visited c) :
    Backed g s (visited ++ [(i, j)]) (fillCell g acc count s (c, stats) (i, j)).1 := by
  rw [chart_fillCell] at hfits ⊢
  have hcell := baseCell_gathers hacc g c count s i j
  have hproper : (unaryPass g acc (baseCell g acc count s c i j)).1.Proper g i j :=
    (hcell.foldl_add hacc fun _ => parent_lt_of_mem_unaryEntries).toProper
  have habove : c.Above (unaryPass g acc (baseCell g acc count s c i j)).1 :=
    Chart.above_of_blank h.sound hproper fun A => h.blank i j A hnew
  have hj' : j ≤ c.size := h.size_eq ▸ hj
  have hget := Chart.get?_commit h.sound hproper habove hij hj' hfits
  refine ⟨h.commit hproper habove hij hj hfits (fun _ _ _ _ _ => trivial) fun A held hA => ?_,
    fun k l A e he => ?_, fun k l A hkl => ?_⟩
  · have hover := made_of_unaryPass (s := s) hacc hcell
      (fun A held hA => hproper.overlay_of_find? (c := c) hA) (fun e he => ?_) hA
    · exact hover.imp fun _ happ => ⟨happ, trivial⟩
    · have happ := application_of_mem_baseEntries h.sound h.possible he
      exact (happ.mono habove.le_overlay).imp fun _ => And.left
  · rw [hget] at he
    split at he
    · rcases Option.or_eq_some_iff.1 he with hnew | ⟨-, he⟩
      · obtain ⟨held, hheld, rfl⟩ := Scratch.get?_eq_some_iff.1 hnew
        exact hproper.possible A held hheld
      · exact h.possible k l A e he
    · exact h.possible k l A e he
  · rw [List.mem_append, List.mem_singleton, Prod.mk.injEq, not_or] at hkl
    rw [hget, if_neg hkl.2]
    exact h.blank k l A hkl.1

theorem fill_backed (hacc : acc.KeepsPossible) (count : Nat) (hc : c.Sound g)
    (hsize : c.size = s.size) (hblank : ∀ k l A, c.get? k l A = none)
    (hfits : (fill g acc count s c).1.Fits) :
    Backed g s (spansUp s.size) (fill g acc count s c).1 := by
  refine spansUp_induction
    (P := fun visited (state : Chart α × Stats) => state.1.Fits → Backed g s visited state.1)
    (fun _ => ?_) (fun visited i j state hij hj hnew _ _ hv hfits => ?_) hfits
  · exact
      { sound := hc
        size_eq := hsize
        made := fun k l A e he => by rw [hblank] at he; cases he
        possible := fun k l A e he => by rw [hblank] at he; cases he
        blank := fun k l A _ => hblank k l A }
  · exact fillCell_backed hacc count hij hj hnew hfits (hv (Chart.fits_of_fits_commit hfits))

/-- Whatever way scores combine, the entries of the chart are made by rules from its entries. -/
theorem fill_linked (hacc : acc.KeepsPossible) (count : Nat) (hc : c.Sound g)
    (hsize : c.size = s.size) (hblank : ∀ k l A, c.get? k l A = none)
    (hfits : (fill g acc count s c).1.Fits) :
    (fill g acc count s c).1.Linked g s (fun _ _ => True) :=
  (fill_backed hacc count hc hsize hblank hfits).toLinked

end Exhaustive

end Constituency
