import Constituency.Proofs.Chart.Best
import Constituency.Proofs.Chart.Links

/-!
# What a committed cell makes of a chart

A scratch cell whose entries are better than those of the chart in their places is seen on top of the
chart while it is being filled (`Chart.overlay`), and once it is committed the chart is what has been seen.
What the entries of the chart were made of has only become better by that.
-/

namespace Constituency

namespace PackedChart

variable {α : Type} [Score α] [MonotoneScore α] {e : Entry α} {row : List (PackedEntry α)}

/-- An entry that is offered to a row brings no score down, and its own symbol at least to its score. -/
theorem le_offer (e : Entry α) (row : List (PackedEntry α)) :
    (∃ x ∈ (offer e row).2, x.nonterminal = e.nonterminal ∧ e.inside ≤ x.inside) ∧
      ∀ y ∈ row, ∃ x ∈ (offer e row).2, x.nonterminal = y.nonterminal ∧ y.inside ≤ x.inside := by
  induction row with
  | nil =>
    exact ⟨⟨fresh e, List.mem_singleton_self _, rfl, Score.le_refl _⟩, fun y hy => by cases hy⟩
  | cons z rest ih =>
    have hsame : ∀ y ∈ rest, ∃ x ∈ rest, x.nonterminal = y.nonterminal ∧ y.inside ≤ x.inside :=
      fun y hy => ⟨y, hy, rfl, Score.le_refl _⟩
    have hcons : ∀ {z' : PackedEntry α} {rest' : List (PackedEntry α)},
        z'.nonterminal = z.nonterminal → z.inside ≤ z'.inside →
        (∀ y ∈ rest, ∃ x ∈ rest', x.nonterminal = y.nonterminal ∧ y.inside ≤ x.inside) →
        ∀ y ∈ z :: rest, ∃ x ∈ z' :: rest', x.nonterminal = y.nonterminal ∧ y.inside ≤ x.inside := by
      intro z' rest' hnt hle hrest y hy
      rcases List.mem_cons.1 hy with rfl | hy
      · exact ⟨z', List.mem_cons_self, hnt, hle⟩
      · obtain ⟨x, hx, hspec⟩ := hrest y hy
        exact ⟨x, List.mem_cons_of_mem _ hx, hspec⟩
    unfold offer
    split
    · exact ⟨⟨fresh e, List.mem_cons_self, rfl, Score.le_refl _⟩,
        fun y hy => ⟨y, List.mem_cons_of_mem _ hy, rfl, Score.le_refl _⟩⟩
    · split
      · next heq =>
        have hnt : e.nonterminal = z.nonterminal := beq_iff_eq.1 heq
        split
        · next hlt =>
          exact ⟨⟨{ z with toEntry := e }, List.mem_cons_self, rfl, Score.le_refl _⟩,
            hcons hnt (Score.le_of_lt hlt) hsame⟩
        · next hnot =>
          exact ⟨⟨z, List.mem_cons_self, hnt.symm, Score.not_lt.1 hnot⟩,
            hcons rfl (Score.le_refl _) hsame⟩
      · obtain ⟨⟨x, hx, hspec⟩, hrest⟩ := ih
        exact ⟨⟨x, List.mem_cons_of_mem _ hx, hspec⟩, hcons rfl (Score.le_refl _) hrest⟩

/-- The same of the chart of the row. -/
theorem le_inside_update {g : Grammar α} {c : PackedChart α} {i j : Nat} (h : c.Sound g)
    (hij : i < j) (hj : j ≤ c.size) (hnt : e.nonterminal < g.numNonterminals) :
    e.inside ≤ (c.update i j e).2.inside i j e.nonterminal ∧
      ∀ A, c.inside i j A ≤ (c.update i j e).2.inside i j A := by
  by_cases hadm : Score.admissible e.inside = true
  · obtain ⟨rows, hupdate, hrows⟩ := update_eq h hij hj hnt hadm
    have hsound := sound_update h hij hj hnt
    obtain ⟨⟨x, hx, hxnt, hxe⟩, hkept⟩ := le_offer e (c.row i j)
    rw [hupdate] at hsound ⊢
    have hnew : ∀ x ∈ (offer e (c.row i j)).2,
        ({ c with rows } : PackedChart α).inside i j x.nonterminal = x.inside := by
      intro x hx
      have hget := (get?_eq_some_iff hsound (e := x.toEntry)).2
        ⟨x, by rwa [row_of_replaces hrows, if_pos ⟨rfl, rfl⟩], rfl, rfl⟩
      rw [inside_eq, hget]
      rfl
    refine ⟨by rw [← hxnt, hnew x hx]; exact hxe, fun A => ?_⟩
    rw [inside_eq c]
    cases hold : c.get? i j A with
    | none => exact Score.impossible_le _
    | some old =>
      obtain ⟨y, hy, rfl, rfl⟩ := (get?_eq_some_iff h).1 hold
      obtain ⟨z, hz, hznt, hyz⟩ := hkept y hy
      rw [← hznt, hnew z hz]
      exact hyz
  · rw [update_of_not_admissible (Bool.not_eq_true _ ▸ hadm)]
    rw [Score.admissible_iff, Score.not_lt] at hadm
    exact ⟨Score.le_trans hadm (Score.impossible_le _), fun A => Score.le_refl _⟩

end PackedChart

namespace Chart

variable {α : Type} [Score α] {g : Grammar α} {s : Sentence} {c : Chart α} {cell : Scratch α}
  {i j : Nat} {A : NonTerminal} {e : Entry α} {R : α → α → Prop}

/-! ## Offers -/

section Offers

variable [MonotoneScore α]

/-- An entry that is offered brings no score of its cell down, and its own symbol at least to its score. -/
theorem le_inside_update (h : c.Sound g) (hij : i < j) (hj : j ≤ c.size)
    (hnt : e.nonterminal < g.numNonterminals) (hfits : (c.update i j e).2.Fits) :
    e.inside ≤ (c.update i j e).2.inside i j e.nonterminal ∧
      ∀ A, c.inside i j A ≤ (c.update i j e).2.inside i j A := by
  cases c with
  | slots c =>
    have hfits' : (c.install i j e).2.arena.next ≤ UInt32.size := hfits
    show e.inside ≤ (c.install i j e).2.inside i j e.nonterminal ∧
      ∀ A, c.inside i j A ≤ (c.install i j e).2.inside i j A
    rcases SlotChart.install_cases h hij hj hnt hfits' with
      ⟨hsame, hle⟩ | ⟨-, hsound, -, hle, hget⟩
    · rw [hsame]
      exact ⟨hle, fun A => Score.le_refl _⟩
    · have hinside : ∀ A, (c.install i j e).2.inside i j A =
          if A = e.nonterminal then e.inside else c.inside i j A := by
        intro A
        rw [SlotChart.Sound.inside_eq hsound, hget, SlotChart.Sound.inside_eq h]
        by_cases hA : A = e.nonterminal <;> simp [hA]
      refine ⟨by rw [hinside, if_pos rfl]; exact Score.le_refl _, fun A => ?_⟩
      rw [hinside]
      split
      · next hA => exact hA ▸ hle
      · exact Score.le_refl _
  | packed c =>
    exact PackedChart.le_inside_update h hij hj hnt

theorem le_inside_foldl_update {offers : List (Entry α)} (h : c.Sound g) (hij : i < j)
    (hj : j ≤ c.size) (hnt : ∀ e ∈ offers, e.nonterminal < g.numNonterminals)
    (hfits : (offers.foldl (fun c e => (c.update i j e).2) c).Fits) :
    (∀ e ∈ offers, e.inside ≤
        (offers.foldl (fun c e => (c.update i j e).2) c).inside i j e.nonterminal) ∧
      ∀ A, c.inside i j A ≤ (offers.foldl (fun c e => (c.update i j e).2) c).inside i j A := by
  induction offers generalizing c with
  | nil => exact ⟨fun e he => (by cases he), fun A => Score.le_refl _⟩
  | cons e rest ih =>
    have hone := fits_of_fits_foldl_update rest hfits
    have hoff := update_offered h hij hj (hnt e List.mem_cons_self) hone
    obtain ⟨hself, hkept⟩ := le_inside_update h hij hj (hnt e List.mem_cons_self) hone
    obtain ⟨hrest, hgrown⟩ := ih hoff.sound (hoff.size_eq ▸ hj)
      (fun e' he' => hnt e' (List.mem_cons_of_mem _ he')) hfits
    refine ⟨fun e' he' => ?_, fun A => Score.le_trans (hkept A) (hgrown A)⟩
    rcases List.mem_cons.1 he' with rfl | he'
    · exact Score.le_trans hself (hgrown _)
    · exact hrest e' he'

/-- Each symbol comes at least to its score in a cell that is committed. -/
theorem le_inside_commit (h : c.Sound g) (hcell : cell.Proper g i j) (hij : i < j)
    (hj : j ≤ c.size) (hfits : (c.commit cell).Fits) (he : e ∈ cell.entries) :
    e.inside ≤ (c.commit cell).inside i j e.nonterminal := by
  have hnt : ∀ e ∈ cell.entries, e.nonterminal < g.numNonterminals := fun e he =>
    hcell.size_eq ▸ Scratch.nonterminal_lt_of_mem_entries he
  obtain ⟨rfl, rfl⟩ := And.intro hcell.start_eq hcell.stop_eq
  cases c with
  | slots c =>
    rw [commit_slots] at hfits ⊢
    exact (le_inside_foldl_update h hij hj hnt hfits).1 e he
  | packed c =>
    have hoff := commit_offered h hij hj hcell.size_eq hfits
    by_cases hpopulated : c.isPopulated cell.start cell.stop = true
    · have hcommit : (packed c).commit cell =
          cell.entries.foldl (fun c e => (c.update cell.start cell.stop e).2) (packed c) := by
        rw [← foldl_update_packed]
        show packed (c.commit cell) = _
        rw [PackedChart.commit, if_pos hpopulated]
      rw [hcommit] at hfits ⊢
      exact (le_inside_foldl_update h hij hj hnt hfits).1 e he
    · have hadm : Score.admissible e.inside = true := by
        obtain ⟨held, hheld, heq⟩ := Scratch.get?_eq_some_iff.1 (Scratch.mem_entries.1 he)
        rw [heq]
        exact Score.admissible_iff.2 (hcell.possible _ _ hheld)
      obtain ⟨e', he'⟩ := Option.isSome_iff_exists.1
        (hoff.found e.nonterminal (.inr ⟨e, he, rfl, hadm⟩))
      rw [hoff.sound.inside_of_get? he']
      rcases hoff.old_or_offer _ _ he' with hold | ⟨hmem, hnt'⟩
      · have hblank := PackedChart.get?_of_not_isPopulated h (Bool.not_eq_true _ ▸ hpopulated)
        rw [get?, hblank] at hold
        cases hold
      · have hsame : some e' = some e := by
          rw [← Scratch.mem_entries.1 hmem, hnt', Scratch.mem_entries.1 he]
        rw [Option.some.inj hsame]
        exact Score.le_refl _

end Offers

/-! ## A cell on top of a chart -/

/-- The scores of a chart with those of a cell on top. -/
def overlay (c : Chart α) (cell : Scratch α) (k l : Nat) (A : NonTerminal) : α :=
  if k = cell.start ∧ l = cell.stop then
    match cell.find? A with
    | some h => h.inside
    | none => c.inside k l A
  else c.inside k l A

/-- The entries of a cell are better than those of the chart in their places. -/
def Above (c : Chart α) (cell : Scratch α) : Prop :=
  ∀ A h, cell.find? A = some h → c.inside cell.start cell.stop A < h.inside

/-- Where a chart has no entries, any possible one is better. -/
theorem above_of_blank (hc : c.Sound g) (hcell : cell.Proper g i j)
    (hblank : ∀ A, c.get? i j A = none) : c.Above cell := by
  intro A held hA
  rw [hcell.start_eq, hcell.stop_eq, hc.inside_eq, hblank]
  exact hcell.possible A held hA

theorem overlay_of_ne {k l : Nat} (hne : ¬ (k = cell.start ∧ l = cell.stop)) :
    c.overlay cell k l A = c.inside k l A := if_neg hne

theorem overlay_of_find? {h : Held α} (hA : cell.find? A = some h) :
    c.overlay cell cell.start cell.stop A = h.inside := by
  rw [overlay, if_pos ⟨rfl, rfl⟩, hA]

theorem overlay_of_find?_eq_none (hA : cell.find? A = none) (k l : Nat) :
    c.overlay cell k l A = c.inside k l A := by
  rw [overlay, hA, ite_self]

variable [MonotoneScore α]

theorem Above.le_overlay (h : c.Above cell) (k l : Nat) (A : NonTerminal) :
    c.inside k l A ≤ c.overlay cell k l A := by
  by_cases hspan : k = cell.start ∧ l = cell.stop
  · obtain ⟨rfl, rfl⟩ := hspan
    cases hA : cell.find? A with
    | none =>
      rw [overlay_of_find?_eq_none hA]
      exact Score.le_refl _
    | some held =>
      rw [overlay_of_find? hA]
      exact Score.le_of_lt (h A held hA)
  · rw [overlay_of_ne hspan]
    exact Score.le_refl _

/-- The entries of a chart after a cell has been committed: those of the cell, and else those of before. -/
theorem get?_commit (hc : c.Sound g) (hcell : cell.Proper g i j) (habove : c.Above cell)
    (hij : i < j) (hj : j ≤ c.size) (hfits : (c.commit cell).Fits) (k l : Nat)
    (A : NonTerminal) :
    (c.commit cell).get? k l A =
      if k = i ∧ l = j then (cell.get? A).or (c.get? k l A) else c.get? k l A := by
  have hle := fun e (he : e ∈ cell.entries) => le_inside_commit hc hcell hij hj hfits he
  obtain ⟨rfl, rfl⟩ := And.intro hcell.start_eq hcell.stop_eq
  have hoff := commit_offered hc hij hj hcell.size_eq hfits
  split
  · next hspan =>
    obtain ⟨rfl, rfl⟩ := hspan
    cases hA : cell.get? A with
    | some e =>
      obtain ⟨held, hheld, rfl⟩ := Scratch.get?_eq_some_iff.1 hA
      have hmem : (⟨A, held.inside, held.backpointer⟩ : Entry α) ∈ cell.entries :=
        Scratch.mem_entries.2 hA
      obtain ⟨e', he'⟩ := Option.isSome_iff_exists.1 (hoff.found A
        (.inr ⟨_, hmem, rfl, Score.admissible_iff.2 (hcell.possible _ _ hheld)⟩))
      rcases hoff.old_or_offer A e' he' with hold | ⟨hmem', hnt⟩
      · have hlow := habove A held hheld
        rw [hc.inside_of_get? hold] at hlow
        have hhigh := hle _ hmem
        rw [hoff.sound.inside_of_get? he'] at hhigh
        exact absurd hhigh (Score.not_le.2 hlow)
      · rw [he', Option.some_or, ← hA, ← hnt, Scratch.mem_entries.1 hmem']
    | none =>
      rw [Option.none_or]
      have hnew : ∀ e, (c.commit cell).get? cell.start cell.stop A = some e →
          c.get? cell.start cell.stop A = some e := by
        intro e he
        rcases hoff.old_or_offer A e he with hold | ⟨hmem, rfl⟩
        · exact hold
        · rw [Scratch.mem_entries.1 hmem] at hA
          cases hA
      cases hold : c.get? cell.start cell.stop A with
      | none =>
        rw [Option.eq_none_iff_forall_ne_some]
        intro e he
        rw [hnew e he] at hold
        cases hold
      | some e =>
        obtain ⟨e', he'⟩ := Option.isSome_iff_exists.1 (hoff.found A (.inl (by rw [hold]; rfl)))
        rw [he', ← hnew e' he', hold]
  · next hne => exact hoff.elsewhere k l A hne

/-- The scores that have been seen are those that are committed. -/
theorem inside_commit (hc : c.Sound g) (hcell : cell.Proper g i j) (habove : c.Above cell)
    (hij : i < j) (hj : j ≤ c.size) (hfits : (c.commit cell).Fits) :
    (c.commit cell).inside = c.overlay cell := by
  funext k l A
  have hsound := (sound_commit hc hcell.toShaped hij hj).1
  rw [hsound.inside_eq, get?_commit hc hcell habove hij hj hfits, overlay, hcell.start_eq,
    hcell.stop_eq, Scratch.get?]
  split
  · cases cell.find? A with
    | some h => rfl
    | none => exact (hc.inside_eq k l A).symm
  · exact (hc.inside_eq k l A).symm

/-- A cell whose entries are made by rules from what is seen of chart and cell keeps a chart linked. -/
theorem Linked.commit (h : c.Linked g s R) (hcell : cell.Proper g i j) (habove : c.Above cell)
    (hij : i < j) (hj : j ≤ s.size) (hfits : (c.commit cell).Fits)
    (hR : ∀ a x y, R a x → x ≤ y → R a y)
    (hmade : ∀ A held, cell.find? A = some held →
      ∃ x, Application g s (c.overlay cell) held.backpointer i j A x ∧ R held.inside x) :
    (c.commit cell).Linked g s R := by
  have hj' : j ≤ c.size := h.size_eq ▸ hj
  obtain ⟨hsound, hsize⟩ := sound_commit h.sound hcell.toShaped hij hj'
  refine ⟨hsound, hsize.trans h.size_eq, fun k l A e he => ?_⟩
  rw [inside_commit h.sound hcell habove hij hj' hfits]
  rw [get?_commit h.sound hcell habove hij hj' hfits] at he
  have hold : c.get? k l A = some e →
      ∃ x, Application g s (c.overlay cell) e.backpointer k l A x ∧ R e.inside x := by
    intro hold
    obtain ⟨x, happ, hx⟩ := h.made k l A e hold
    obtain ⟨y, happ', hxy⟩ := happ.mono habove.le_overlay
    exact ⟨y, happ', hR _ _ _ hx hxy⟩
  split at he
  · next hspan =>
    obtain ⟨rfl, rfl⟩ := hspan
    rcases Option.or_eq_some_iff.1 he with hnew | ⟨-, he⟩
    · obtain ⟨held, hheld, rfl⟩ := Scratch.get?_eq_some_iff.1 hnew
      exact hmade A held hheld
    · exact hold he
  · exact hold he

end Chart

end Constituency
