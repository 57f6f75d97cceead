import Constituency.Proofs.Context
import Constituency.Proofs.Search.Acyclic

/-!
# Cells that no rule can improve

A search that works its way up from shorter to longer spans finds all maxima if no rule can improve a
cell that it leaves behind: what it does afterwards to longer spans does not matter to the rules over
shorter ones (`Settled.commit`). The exhaustive search settles its cells if no unary rule stands on top
of another one in the grammar, since it applies unary rules once.
-/

namespace Constituency

/-- The child of a unary rule has no unary rules itself. -/
def Grammar.NoUnaryChains {α : Type} (g : Grammar α) : Prop :=
  ∀ A B C, g.UnaryStep A B → ¬ g.UnaryStep B C

/-- The first step of a circle follows on its last one. -/
theorem Grammar.NoUnaryChains.unaryAcyclic {α : Type} {g : Grammar α} (h : g.NoUnaryChains) :
    g.UnaryAcyclic := by
  intro A hcycle
  obtain ⟨B, hfirst, -⟩ := Relation.TransGen.head'_iff.1 hcycle
  obtain ⟨C, -, hlast⟩ := Relation.TransGen.tail'_iff.1 hcycle
  exact h C A B hlast hfirst

theorem Grammar.NoUnaryChains.singleUnaries {α : Type} {g : Grammar α} (h : g.NoUnaryChains)
    {s : Sentence} {live : Nat → Nat → NonTerminal → Prop} {i j : Nat} {A : NonTerminal}
    {d : Derivation α} (hd : DerivesIn g s live i j A d) : d.SingleUnaries := by
  induction hd with
  | word => trivial
  | unary mem children below _ ih =>
    refine ⟨?_, ih⟩
    cases below with
    | word | binary => rfl
    | unary mem' children' => exact absurd ⟨_, mem', rfl, children'⟩ (h _ _ _ ⟨_, mem, rfl, children⟩)
  | binary _ _ _ _ _ ihl ihr => exact ⟨ihl, ihr⟩

variable {α : Type} [Score α] [MonotoneScore α] {g : Grammar α} {s : Sentence} {c : Chart α}
  {cell : Scratch α} {i j now : Nat} {stamp : Agenda.Stamps} {visited : List (Nat × Nat)}

namespace Chart

theorem Sound.bounds_of_possible (h : c.Sound g) {A : NonTerminal}
    (hpos : Score.impossible < c.inside i j A) :
    i < j ∧ j ≤ c.size ∧ A < g.numNonterminals := by
  obtain ⟨e, he⟩ := h.exists_get?_of_possible hpos
  exact h.bounds he

/-- A chart that has grown, with some cells that no rule can improve. -/
structure Settled (g : Grammar α) (s : Sentence) (visited : List (Nat × Nat)) (c : Chart α) :
    Prop extends c.Grown g s where
  closed : ∀ i j, (i, j) ∈ visited → ∀ b A x, Application g s c.inside b i j A x →
    x ≤ c.inside i j A

/-- When all cells are settled, all scores are maxima. -/
theorem Settled.isMaximum (h : c.Settled g s (spansUp s.size)) (i j : Nat) (A : NonTerminal) :
    IsMaximum (Derives g s i j A) (c.inside i j A) := by
  refine isMaximum_of_closed h.sound h.derived (fun b i j A x happ => ?_) i j A
  refine h.closed i j (mem_spansUp.2 ?_) b A x happ
  rw [← h.size_eq]
  cases happ with
  | word _ _ terminal =>
    exact ⟨Nat.lt_succ_self i, h.size_eq ▸ Sentence.lt_size_of_terminal? terminal⟩
  | unary _ _ possible =>
    have hchild := h.sound.bounds_of_possible possible
    exact ⟨hchild.1, hchild.2.1⟩
  | binary _ _ leftPossible rightPossible =>
    have hleft := h.sound.bounds_of_possible leftPossible
    have hright := h.sound.bounds_of_possible rightPossible
    omega

/-- Rules over another span of the same length or a shorter one do not look at a cell. -/
theorem places_ne (h : c.Sound g) {b : Backpointer} {k l : Nat} {A : NonTerminal} {x : α}
    (happ : Application g s c.inside b k l A x) (hne : ¬ (k = i ∧ l = j)) (hle : l - k ≤ j - i)
    {k' l' : Nat} {B : NonTerminal} (hmem : (k', l', B) ∈ b.places k l) :
    ¬ (k' = i ∧ l' = j) := by
  cases happ with
  | word => cases hmem
  | unary =>
    simp only [Backpointer.places, List.mem_singleton, Prod.mk.injEq] at hmem
    omega
  | binary _ _ leftPossible rightPossible =>
    have hleft := h.bounds_of_possible leftPossible
    have hright := h.bounds_of_possible rightPossible
    simp only [Backpointer.places, List.mem_cons, Prod.mk.injEq, List.not_mem_nil,
      or_false] at hmem
    omega

/-- A binary rule over the span of a cell looks below the cell. -/
theorem binary_of_overlay (h : c.Sound g) (hcell : cell.Proper g i j) (hij : i < j)
    {left right : NonTerminal} {m : Nat} {A : NonTerminal} {x : α}
    (happ : Application g s (c.overlay cell) (.binary left right m) i j A x) :
    Application g s c.inside (.binary left right m) i j A x := by
  have hne : ∀ {k l}, ¬ (k = i ∧ l = j) → ∀ B, c.overlay cell k l B = c.inside k l B := by
    intro k l hkl B
    refine overlay_of_ne ?_
    rwa [hcell.start_eq, hcell.stop_eq]
  have hleft : Score.impossible < c.overlay cell i m left :=
    happ.possible_of_mem_places List.mem_cons_self
  have hright : Score.impossible < c.overlay cell m j right :=
    happ.possible_of_mem_places (List.mem_cons_of_mem _ List.mem_cons_self)
  have hmj : m ≠ j := by
    rintro rfl
    rw [hne (fun hspan => hij.ne' hspan.1)] at hright
    exact Nat.lt_irrefl _ (h.bounds_of_possible hright).1
  have him : m ≠ i := by
    rintro rfl
    rw [hne (fun hspan => hij.ne hspan.2)] at hleft
    exact Nat.lt_irrefl _ (h.bounds_of_possible hleft).1
  refine happ.congr fun k l B hmem => ?_
  simp only [Backpointer.places, List.mem_cons, Prod.mk.injEq, List.not_mem_nil, or_false] at hmem
  rcases hmem with ⟨rfl, rfl, rfl⟩ | ⟨rfl, rfl, rfl⟩
  · exact hne (fun hspan => hmj hspan.2) _
  · exact hne (fun hspan => him hspan.1) _

/-- A cell that no rule can improve is committed. -/
theorem Settled.commit (hnonpos : ∀ p ∈ g.productions, p.logProb ≤ 0)
    (h : c.Settled g s visited) (hcell : cell.Clocked g s c i j stamp now) (hij : i < j)
    (hj : j ≤ s.size) (hnew : (i, j) ∉ visited) (hshort : ∀ k l, (k, l) ∈ visited → l - k ≤ j - i)
    (hfresh : ∀ A e, c.get? i j A = some e → e.backpointer.isUnary = false)
    (hfits : (c.commit cell).Fits)
    (hclosed : ∀ b A x, Application g s (c.overlay cell) b i j A x → x ≤ c.overlay cell i j A) :
    (c.commit cell).Settled g s (visited ++ [(i, j)]) := by
  have hgrown := h.toGrown.commit hnonpos hcell hij hj hfresh
  have hj' : j ≤ c.size := h.size_eq ▸ hj
  have hinside := inside_commit h.sound hcell.toProper hcell.above hij hj' hfits
  refine ⟨hgrown, fun k l hkl b A x happ => ?_⟩
  rw [List.mem_append, List.mem_singleton, Prod.mk.injEq] at hkl
  by_cases hspan : k = i ∧ l = j
  · obtain ⟨rfl, rfl⟩ := hspan
    rw [hinside] at happ ⊢
    exact hclosed b A x happ
  · have hold := hkl.resolve_right hspan
    have hne : ∀ {k' l'}, ¬ (k' = i ∧ l' = j) → ¬ (k' = cell.start ∧ l' = cell.stop) := by
      rw [hcell.start_eq, hcell.stop_eq]
      exact id
    have happ' : Application g s c.inside b k l A x := happ.congr fun k' l' B hmem => by
      rw [hinside, overlay_of_ne (hne (places_ne hgrown.sound happ hspan (hshort k l hold) hmem))]
    rw [hinside, overlay_of_ne (hne hspan)]
    exact h.closed k l hold b A x happ'

end Chart

/-! ## Exhaustive search -/

namespace Exhaustive

/-- The unary pass leaves nothing to improve if there are no chains of unary rules. -/
theorem closed_of_unaryPass (hg : g.NoUnaryChains) (hc : c.Sound g) (hij : i < j)
    (hblank : ∀ A, c.get? i j A = none) (h : cell.Gathers g i j (baseEntries g s c i j))
    (ht : cell.Tight) {b : Backpointer} {A : NonTerminal} {x : α}
    (happ : Application g s (c.overlay (unaryPass g .best cell).1) b i j A x) :
    x ≤ c.overlay (unaryPass g .best cell).1 i j A := by
  have hnt : ∀ e ∈ unaryEntries g cell.entries, e.nonterminal < g.numNonterminals :=
    fun _ => parent_lt_of_mem_unaryEntries
  have hfinal : (unaryPass g .best cell).1.Gathers g i j
      (baseEntries g s c i j ++ unaryEntries g cell.entries) :=
    h.foldl_add Accumulator.keepsPossible_best hnt
  have htight : (unaryPass g .best cell).1.Tight :=
    ht.foldl_add fun e he => h.size_eq ▸ hnt e he
  generalize (unaryPass g .best cell).1 = final at happ hfinal htight ⊢
  have hle : ∀ e ∈ baseEntries g s c i j ++ unaryEntries g cell.entries,
      e.inside ≤ c.overlay final i j e.nonterminal := fun e he =>
    Score.le_trans (htight.best_eq _ ▸ hfinal.le_best e he) (hfinal.inside_le_overlay _)
  cases b with
  | lexical word =>
    have happ' : Application g s c.inside (.lexical word) i j A x :=
      happ.congr fun _ _ _ hmem => by cases hmem
    obtain ⟨e, he, rfl, rfl⟩ := exists_baseEntry hc rfl happ'
    exact hle e (List.mem_append_left _ he)
  | binary left right m =>
    obtain ⟨e, he, rfl, rfl⟩ :=
      exists_baseEntry hc rfl (Chart.binary_of_overlay hc hfinal.toProper hij happ)
    exact hle e (List.mem_append_left _ he)
  | unary child =>
    cases happ with
    | @unary _ _ p _ mem children possible =>
      obtain ⟨held, hheld, hover⟩ : ∃ held, final.find? child = some held ∧
          c.overlay final i j child = held.inside := by
        cases hfind : final.find? child with
        | some held => exact ⟨held, rfl, hfinal.overlay_of_find? hfind⟩
        | none =>
          rw [Chart.overlay_of_find?_eq_none hfind, hc.inside_eq, hblank] at possible
          exact absurd possible Score.not_impossible_lt_impossible
      obtain ⟨e, he, rfl, -, hscore⟩ := hfinal.source child held hheld
      rcases List.mem_append.1 he with he | he
      · -- the child is no parent of a unary rule, so that it has been there before the pass
        have hearlier : held.inside ≤ cell.inside e.nonterminal := by
          rw [← htight _ held hheld, ← hscore, ← ht.best_eq]
          exact h.le_best e he
        obtain ⟨old, hold⟩ : ∃ old, cell.find? e.nonterminal = some old := by
          cases hfind : cell.find? e.nonterminal with
          | some old => exact ⟨old, rfl⟩
          | none =>
            rw [Scratch.inside_of_find?_eq_none hfind] at hearlier
            exact absurd (hfinal.possible _ held hheld) (Score.not_lt.2 hearlier)
        rw [Scratch.inside_of_find? hold] at hearlier
        have hchild : (⟨e.nonterminal, old.inside, old.backpointer⟩ : Entry α) ∈ cell.entries :=
          Scratch.mem_entries.2 (Scratch.get?_eq_some_iff.2 ⟨old, hold, rfl⟩)
        rw [hover]
        exact Score.le_trans (Score.add_le_add_left hearlier _) (hle _ (List.mem_append_right _
          (mem_unaryEntries.2 ⟨_, hchild, p, mem, children, rfl⟩)))
      · obtain ⟨_, -, q, hq, hqc, rfl⟩ := mem_unaryEntries.1 he
        exact absurd ⟨q, hq, rfl, hqc⟩ (hg _ _ _ ⟨p, mem, rfl, children⟩)

theorem fillCell_settled (hnonpos : ∀ p ∈ g.productions, p.logProb ≤ 0) (hg : g.NoUnaryChains)
    (hc : c.Settled g s visited) (count : Nat) (stats : Stats) (hij : i < j) (hj : j ≤ s.size)
    (hnew : (i, j) ∉ visited) (hshort : ∀ k l, (k, l) ∈ visited → l - k ≤ j - i)
    (hblank : ∀ A, c.get? i j A = none)
    (hfits : (fillCell g .best count s (c, stats) (i, j)).1.Fits) :
    (fillCell g .best count s (c, stats) (i, j)).1.Settled g s (visited ++ [(i, j)]) := by
  have hbase := clocked_base (s := s) hc.toGrown count hblank
  obtain ⟨stamp, now, hcell⟩ := foldl_add_clocked hnonpos hc.sound hblank hbase
    fun e he => warranted_of_mem_unaryEntries hbase he
  refine hc.commit hnonpos hcell hij hj hnew hshort (fun A e he => ?_) hfits fun b A x happ => ?_
  · rw [hblank] at he
    cases he
  · exact closed_of_unaryPass hg hc.sound hij hblank
      (baseCell_gathers Accumulator.keepsPossible_best g c count s i j)
      (baseCell_tight g c count s i j) happ

/-- Without chains of unary rules an exhaustive search finds all maxima. -/
theorem fill_settled (hnonpos : ∀ p ∈ g.productions, p.logProb ≤ 0) (hg : g.NoUnaryChains)
    (count : Nat) (hc : c.Grown g s) (hblank : ∀ k l A, c.get? k l A = none)
    (hfits : (fill g .best count s c).1.Fits) :
    (fill g .best count s c).1.Settled g s (spansUp s.size) := by
  refine (spansUp_induction (P := fun visited (state : Chart α × Stats) => state.1.Fits →
    state.1.Settled g s visited ∧ ∀ k l A, (k, l) ∉ visited → state.1.get? k l A = none)
    (fun _ => ⟨⟨hc, fun k l hkl => by cases hkl⟩, fun k l A _ => hblank k l A⟩)
    (fun visited i j state hij hj hnew _ hshort hv hfits => ?_) hfits).1
  obtain ⟨hsettled, hblank⟩ := hv (Chart.fits_of_fits_commit hfits)
  refine ⟨fillCell_settled hnonpos hg hsettled count state.2 hij hj hnew hshort
    (fun A => hblank i j A hnew) hfits, fun k l A hkl => ?_⟩
  rw [List.mem_append, List.mem_singleton, Prod.mk.injEq, not_or] at hkl
  exact (fillCell_grown hnonpos hsettled.toGrown count state.2 hij hj
    fun A => hblank i j A hnew).2 k l A hkl.2 (hblank k l A hkl.1)

end Exhaustive

end Constituency
