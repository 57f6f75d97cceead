import Constituency.Proofs.Chart.Commit
import Constituency.Proofs.Search.Agenda.Best

/-!
# Clocks

In a search that only replaces an entry by a better one, unary backpointers never run in circles. Scores
alone do not show it, since unary rules may cost nothing; but if each symbol of a cell is stamped with the time
at which it came to its present score, then a unary backpointer leads to a better score, or to an
equal one that was there earlier. The argument is made for a scratch cell that grows on top of a chart
(`Scratch.Clocked`), and a chart to which such cells are committed one after the other stays free of
circles (`Chart.Grown`).
-/

namespace Constituency

variable {α : Type} [Score α] {g : Grammar α} {s : Sentence} {c : Chart α} {cell : Scratch α}
  {i j now : Nat} {A B : NonTerminal} {e : Entry α} {inside inside' : Nat → Nat → NonTerminal → α}
  {stamp : Agenda.Stamps}

/-! ## Warranted entries -/

/-- The score of an entry is that of a derivation, and its rule makes at least as much of the present
scores of its children. -/
structure Warranted (g : Grammar α) (s : Sentence) (inside : Nat → Nat → NonTerminal → α)
    (i j : Nat) (e : Entry α) : Prop where
  derived : ∃ d, Derives g s i j e.nonterminal d ∧ d.score = e.inside
  below : ∃ x, Application g s inside e.backpointer i j e.nonterminal x ∧ e.inside ≤ x

theorem Warranted.mono [MonotoneScore α] (h : Warranted g s inside i j e)
    (hle : ∀ k l B, inside k l B ≤ inside' k l B) : Warranted g s inside' i j e := by
  obtain ⟨x, happ, hx⟩ := h.below
  obtain ⟨y, happ', hy⟩ := happ.mono hle
  exact ⟨h.derived, y, happ', Score.le_trans hx hy⟩

theorem Warranted.bounds (h : Warranted g s inside i j e) :
    i < j ∧ j ≤ s.size ∧ e.nonterminal < g.numNonterminals := by
  obtain ⟨d, hd, -⟩ := h.derived
  exact ⟨hd.start_lt, hd.stop_le, hd.nt_lt⟩

/-- A rule applied to scores that derivations have. -/
theorem Warranted.of_application [MonotoneScore α]
    (happ : Application g s inside e.backpointer i j e.nonterminal e.inside)
    (hderived : ∀ k l B, (k, l, B) ∈ e.backpointer.places i j →
      ∃ d, Derives g s k l B d ∧ d.score = inside k l B) : Warranted g s inside i j e :=
  ⟨happ.derives hderived, _, happ, Score.le_refl _⟩

namespace Agenda

theorem Justified.warranted (h : Justified g s inside stamp i j e) :
    Warranted g s inside i j e :=
  ⟨h.derived, h.below⟩

end Agenda

/-! ## A cell on top of a chart -/

namespace Scratch

/-- A cell on top of a chart with a clock: its entries are better than those of the chart, and justified
by what is seen of both. -/
structure Clocked (g : Grammar α) (s : Sentence) (c : Chart α) (i j : Nat) (cell : Scratch α)
    (stamp : Agenda.Stamps) (now : Nat) : Prop extends cell.Proper g i j where
  tight : cell.Tight
  above : c.Above cell
  stamp_lt : ∀ k l A, stamp k l A < now
  held : ∀ A h, cell.find? A = some h →
    Agenda.Justified g s (c.overlay cell) stamp i j ⟨A, h.inside, h.backpointer⟩

theorem Proper.overlay_of_find? (hcell : cell.Proper g i j) {h : Held α}
    (hA : cell.find? A = some h) : c.overlay cell i j A = h.inside := by
  rw [← hcell.start_eq, ← hcell.stop_eq]
  exact Chart.overlay_of_find? hA

variable [MonotoneScore α]

theorem Proper.inside_le_overlay (hcell : cell.Proper g i j) (A : NonTerminal) :
    cell.inside A ≤ c.overlay cell i j A := by
  cases hA : cell.find? A with
  | none =>
    rw [inside_of_find?_eq_none hA]
    exact Score.impossible_le _
  | some h =>
    rw [hcell.overlay_of_find? hA, inside_of_find? hA]
    exact Score.le_refl _

/-- What is seen after a better entry has been added. -/
theorem overlay_add (hcell : cell.Proper g i j) (ht : cell.Tight)
    (hnt : e.nonterminal < g.numNonterminals)
    (hlt : c.overlay cell i j e.nonterminal < e.inside) (k l : Nat) (A : NonTerminal) :
    c.overlay (cell.add .best e) k l A =
      if k = i ∧ l = j ∧ A = e.nonterminal then e.inside else c.overlay cell k l A := by
  have hinside := Score.lt_of_le_of_lt (hcell.inside_le_overlay (c := c) e.nonterminal) hlt
  rw [Chart.overlay, Chart.overlay, start_add, stop_add,
    find?_add_of_lt ht (hcell.size_eq ▸ hnt) hinside, hcell.start_eq, hcell.stop_eq]
  by_cases hspan : k = i ∧ l = j
  · by_cases hA : A = e.nonterminal
    · simp [hspan, hA]
    · simp [hspan, hA]
  · rw [if_neg hspan, if_neg hspan, if_neg (fun h => hspan ⟨h.1, h.2.1⟩)]

/-- A better entry that is warranted is added at the present time. -/
theorem Clocked.improve (hnonpos : ∀ p ∈ g.productions, p.logProb ≤ 0)
    (h : cell.Clocked g s c i j stamp now) (he : Warranted g s (c.overlay cell) i j e)
    (hlt : c.overlay cell i j e.nonterminal < e.inside) :
    (cell.add .best e).Clocked g s c i j
      (Agenda.restamp (c.overlay cell) (c.overlay (cell.add .best e)) stamp now) (now + 1) := by
  have hnt := he.bounds.2.2
  have hsize : e.nonterminal < cell.held.size := h.size_eq ▸ hnt
  have hinside := Score.lt_of_le_of_lt (h.inside_le_overlay (c := c) e.nonterminal) hlt
  have hover := overlay_add h.toProper h.tight hnt hlt
  have hfind := find?_add_of_lt h.tight hsize hinside
  have hgrown : ∀ k l A, c.overlay cell k l A ≤ c.overlay (cell.add .best e) k l A := by
    intro k l A
    rw [hover]
    split
    · next heq => rw [heq.1, heq.2.1, heq.2.2]; exact Score.le_of_lt hlt
    · exact Score.le_refl _
  have hhere : c.overlay (cell.add .best e) i j e.nonterminal = e.inside := by
    rw [hover, if_pos ⟨rfl, rfl, rfl⟩]
  have hproper := h.toProper.add Accumulator.keepsPossible_best hnt
  refine ⟨hproper, h.tight.add hsize, fun A held hA => ?_, Agenda.restamp_lt h.stamp_lt,
    fun A held hA => ?_⟩
  · rw [start_add, stop_add]
    rw [hfind] at hA
    split at hA
    · next heq =>
      have hheld : e.inside = held.inside := by rw [← Option.some.inj hA]
      rw [← hheld, heq, h.start_eq, h.stop_eq]
      exact Score.lt_of_le_of_lt (h.above.le_overlay i j e.nonterminal) hlt
    · exact h.above A held hA
  · rw [hfind] at hA
    split at hA
    · next heq =>
      subst heq
      rw [Option.some.injEq] at hA
      subst hA
      have hnew := he.mono hgrown
      obtain ⟨x, happ, hx⟩ := he.below
      refine ⟨hnew.derived, hnew.below, fun child hb _ _ _ => ?_⟩
      -- a rule never gains, so that the child is not the symbol itself
      have hchild : e.inside ≤ c.overlay cell i j child :=
        Score.le_trans hx (Agenda.le_of_unary hnonpos (hb ▸ happ))
      have hne : child ≠ e.nonterminal := by
        rintro rfl
        exact Score.not_le.2 hlt hchild
      have hkept : ¬ c.overlay cell i j child < c.overlay (cell.add .best e) i j child := by
        rw [hover, if_neg fun heq => hne heq.2.2]
        exact Score.lt_irrefl _
      rw [Agenda.restamp, Agenda.restamp, if_neg hkept, if_pos (hhere.symm ▸ hlt)]
      exact h.stamp_lt i j child
    · exact (h.held A held hA).later hnonpos h.stamp_lt hgrown

/-- An entry of a clocked cell comes after its unary child. -/
theorem Clocked.before (hnonpos : ∀ p ∈ g.productions, p.logProb ≤ 0)
    (h : cell.Clocked g s c i j stamp now) {held : Held α} (hA : cell.find? A = some held)
    (hb : held.backpointer = .unary B) :
    Agenda.before (c.overlay cell i j) (stamp i j) B A = true :=
  (h.held A held hA).before hnonpos (h.toProper.overlay_of_find? hA) hb

end Scratch

/-! ## Charts that grow by such cells -/

namespace Chart

/-- A chart whose scores are those of derivations and whose unary backpointers do not run in circles.
Unless its arena has run out of numbers, its entries are made by rules from its entries. -/
structure Grown (g : Grammar α) (s : Sentence) (c : Chart α) : Prop where
  sound : c.Sound g
  size_eq : c.size = s.size
  derived : ∀ i j A e, c.get? i j A = some e →
    Score.impossible < e.inside ∧ ∃ d, Derives g s i j A d ∧ d.score = e.inside
  acyclic : c.Acyclic
  linked : c.Fits → c.Linked g s (· ≤ ·)

/-- The score of a symbol that is possible is that of a derivation. -/
theorem Grown.exists_score_eq [MonotoneScore α] (h : c.Grown g s)
    (hpos : Score.impossible < c.inside i j A) :
    ∃ d, Derives g s i j A d ∧ d.score = c.inside i j A := by
  obtain ⟨e, he⟩ := h.sound.exists_get?_of_possible hpos
  rw [h.sound.inside_of_get? he]
  exact (h.derived i j A e he).2

/-- To commit a clocked cell lets a chart grow, if there are no unary backpointers in the place of the
cell before. -/
theorem Grown.commit [MonotoneScore α] (hnonpos : ∀ p ∈ g.productions, p.logProb ≤ 0)
    (h : c.Grown g s) (hcell : cell.Clocked g s c i j stamp now) (hij : i < j) (hj : j ≤ s.size)
    (hfresh : ∀ A e, c.get? i j A = some e → e.backpointer.isUnary = false) :
    (c.commit cell).Grown g s := by
  have hj' : j ≤ c.size := h.size_eq ▸ hj
  have hproper := hcell.toProper
  obtain ⟨hsound, hsize⟩ := sound_commit h.sound hproper.toShaped hij hj'
  have hcases := fun {k l A e} (he : (c.commit cell).get? k l A = some e) =>
    get?_commit_cases h.sound hproper.toShaped hij hj' he
  refine ⟨hsound, hsize.trans h.size_eq, fun k l A e he => ?_, fun k l A => ?_, fun hfits => ?_⟩
  · rcases hcases he with hold | ⟨⟨rfl, rfl⟩, hnew⟩
    · exact h.derived k l A e hold
    · obtain ⟨held, hheld, rfl⟩ := Scratch.get?_eq_some_iff.1 hnew
      exact ⟨hproper.possible A held hheld, (hcell.held A held hheld).derived⟩
  · by_cases hspan : k = i ∧ l = j
    · obtain ⟨rfl, rfl⟩ := hspan
      refine not_transGen_self (Agenda.before (c.overlay cell k l) (stamp k l))
        (fun _ _ _ => Agenda.before_trans) Agenda.before_irrefl (fun A B hlink => ?_) A
      obtain ⟨e, he, hb⟩ := hlink
      rcases hcases he with hold | ⟨-, hnew⟩
      · have hnot := hfresh A e hold
        rw [hb] at hnot
        cases hnot
      · obtain ⟨held, hheld, rfl⟩ := Scratch.get?_eq_some_iff.1 hnew
        exact hcell.before hnonpos hheld hb
    · intro hcycle
      refine h.acyclic k l A (hcycle.lift id fun A B hlink => ?_)
      obtain ⟨e, he, hb⟩ := hlink
      exact ⟨e, (hcases he).resolve_right fun hnew => hspan hnew.1, hb⟩
  · refine (h.linked (fits_of_fits_commit hfits)).commit hproper hcell.above hij hj hfits
      (fun _ _ _ => Score.le_trans) fun A held hA => (hcell.held A held hA).below

end Chart

end Constituency
