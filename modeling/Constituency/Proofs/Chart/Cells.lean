import Constituency.Proofs.Chart.Basic

/-!
# Committing cells

Which entries a chart has after a scratch cell has been committed. Whatever is found there was there
before or comes from the cell (`get?_commit_cases`), and unless the arena has run out of numbers all of
that is found (`live_commit`).
-/

namespace Constituency

variable {α : Type} [Score α] {g : Grammar α} {i j : Nat} {A : NonTerminal}

/-! ## Scratch cells -/

namespace Scratch

variable {acc : Accumulator α} {cell cell' : Scratch α} {e : Entry α} {entries : List (Entry α)}
  {live : Nat → Nat → NonTerminal → Prop}

/-- The live places and those of a scratch cell. -/
def among (live : Nat → Nat → NonTerminal → Prop) (cell : Scratch α) :
    Nat → Nat → NonTerminal → Prop :=
  fun k l B => live k l B ∨ (k = cell.start ∧ l = cell.stop) ∧ (cell.find? B).isSome = true

/-- A cell for a span, with a place for every symbol. -/
structure Shaped (g : Grammar α) (i j : Nat) (cell : Scratch α) : Prop where
  start_eq : cell.start = i
  stop_eq : cell.stop = j
  size_eq : cell.held.size = g.numNonterminals

/-- A cell for a span, with a place for every symbol and possible scores. -/
structure Proper (g : Grammar α) (i j : Nat) (cell : Scratch α) : Prop extends
    cell.Shaped g i j where
  possible : cell.Possible

omit [Score α] in
theorem shaped_empty (g : Grammar α) (i j : Nat) :
    (empty i j g.numNonterminals : Scratch α).Shaped g i j where
  start_eq := rfl
  stop_eq := rfl
  size_eq := Array.size_replicate

theorem proper_empty (g : Grammar α) (i j : Nat) :
    (empty i j g.numNonterminals : Scratch α).Proper g i j where
  toShaped := shaped_empty g i j
  possible A h hA := by simp at hA

omit [Score α] in
theorem Shaped.nonterminal_lt (h : cell.Shaped g i j) (he : e ∈ cell.entries) :
    e.nonterminal < g.numNonterminals := by
  obtain ⟨held, hheld, -⟩ := get?_eq_some_iff.1 (mem_entries.1 he)
  exact h.size_eq ▸ lt_size_of_find? hheld

theorem Shaped.add (h : cell.Shaped g i j) : (cell.add acc e).Shaped g i j where
  start_eq := start_add.trans h.start_eq
  stop_eq := stop_add.trans h.stop_eq
  size_eq := size_add.trans h.size_eq

theorem Shaped.foldl_add (h : cell.Shaped g i j) :
    (entries.foldl (Scratch.add acc) cell).Shaped g i j where
  start_eq := (foldl_add_start acc cell entries).1.trans h.start_eq
  stop_eq := (foldl_add_start acc cell entries).2.trans h.stop_eq
  size_eq := (foldl_add_size cell entries).trans h.size_eq

theorem Shaped.merge (h : cell.Shaped g i j) (h' : cell'.Shaped g i j) :
    (Scratch.merge acc cell cell').Shaped g i j where
  start_eq := h.start_eq
  stop_eq := h.stop_eq
  size_eq := by rw [size_merge, h.size_eq, h'.size_eq, Nat.min_self]

/-- Cells whose entries all have a property, merged into one. -/
theorem Shaped.foldl_merge_all {P : NonTerminal → Backpointer → Prop} {cells : List (Scratch α)}
    (h : cell.Shaped g i j) (hall : cell.All P) (hcells : ∀ c ∈ cells, c.Shaped g i j ∧ c.All P) :
    (cells.foldl (Scratch.merge acc) cell).Shaped g i j ∧
      (cells.foldl (Scratch.merge acc) cell).All P := by
  induction cells generalizing cell with
  | nil => exact ⟨h, hall⟩
  | cons c rest ih =>
    obtain ⟨hc, hcall⟩ := hcells c List.mem_cons_self
    exact ih (h.merge hc) (hall.merge hcall (h.size_eq.trans hc.size_eq.symm)) fun c' hc' =>
      hcells c' (List.mem_cons_of_mem _ hc')

theorem Proper.add [MonotoneScore α] (h : cell.Proper g i j) (hacc : acc.KeepsPossible)
    (hnt : e.nonterminal < g.numNonterminals) : (cell.add acc e).Proper g i j where
  toShaped := h.toShaped.add
  possible := possible_add hacc h.possible (h.size_eq ▸ hnt)

theorem Proper.merge (h : cell.Proper g i j) (h' : cell'.Proper g i j) (hacc : acc.KeepsPossible) :
    (Scratch.merge acc cell cell').Proper g i j where
  toShaped := h.toShaped.merge h'.toShaped
  possible := possible_merge hacc (h.size_eq.trans h'.size_eq.symm) h.possible h'.possible

theorem among_add (h : cell.Shaped g i j) (hnt : e.nonterminal < g.numNonterminals) (k l : Nat)
    (B : NonTerminal) (hB : cell.among live k l B) : (cell.add acc e).among live k l B := by
  refine hB.imp_right fun ⟨hspan, hfound⟩ => ?_
  rw [start_add, stop_add]
  exact ⟨hspan, (isSome_find?_add (h.size_eq ▸ hnt)).2 (.inr hfound)⟩

end Scratch

/-! ## Charts -/

namespace Chart

variable {c : Chart α} {cell : Scratch α} {e : Entry α}

/-- The chart has an entry for the symbol. -/
def Live (c : Chart α) (start stop : Nat) (nt : NonTerminal) : Prop :=
  (c.get? start stop nt).isSome = true

theorem sound_update (h : c.Sound g) (hij : i < j) (hj : j ≤ c.size)
    (hnt : e.nonterminal < g.numNonterminals) :
    (c.update i j e).2.Sound g ∧ (c.update i j e).2.size = c.size := by
  cases c with
  | slots c => exact ⟨(SlotChart.install_changes h hij hj hnt).1, SlotChart.size_install ..⟩
  | packed c =>
    have hoff := update_offered h hij hj hnt trivial
    exact ⟨hoff.sound, hoff.size_eq⟩

theorem sound_foldl_update {offers : List (Entry α)} (h : c.Sound g) (hij : i < j)
    (hj : j ≤ c.size) (hnt : ∀ e ∈ offers, e.nonterminal < g.numNonterminals) :
    (offers.foldl (fun c e => (c.update i j e).2) c).Sound g ∧
      (offers.foldl (fun c e => (c.update i j e).2) c).size = c.size := by
  induction offers generalizing c with
  | nil => exact ⟨h, rfl⟩
  | cons e rest ih =>
    obtain ⟨hsound, hsize⟩ := sound_update h hij hj (hnt e List.mem_cons_self)
    obtain ⟨hsound', hsize'⟩ := ih hsound (hsize ▸ hj) fun e' he' =>
      hnt e' (List.mem_cons_of_mem _ he')
    exact ⟨hsound', hsize'.trans hsize⟩

theorem sound_commit (h : c.Sound g) (hcell : cell.Shaped g i j) (hij : i < j)
    (hj : j ≤ c.size) : (c.commit cell).Sound g ∧ (c.commit cell).size = c.size := by
  have hnt : ∀ e ∈ cell.entries, e.nonterminal < g.numNonterminals :=
    fun e he => hcell.nonterminal_lt he
  cases c with
  | slots c =>
    rw [commit_slots, hcell.start_eq, hcell.stop_eq]
    exact sound_foldl_update h hij hj hnt
  | packed c =>
    have hlt : cell.start < cell.stop := by rwa [hcell.start_eq, hcell.stop_eq]
    have hoff := commit_offered h hlt (by rwa [hcell.stop_eq]) hcell.size_eq trivial
    exact ⟨hoff.sound, hoff.size_eq⟩

theorem get?_update_cases (h : c.Sound g) (hij : i < j) (hj : j ≤ c.size)
    (hnt : e.nonterminal < g.numNonterminals) {k l : Nat} {e' : Entry α}
    (he' : (c.update i j e).2.get? k l A = some e') :
    c.get? k l A = some e' ∨ (k = i ∧ l = j) ∧ e' = e ∧ e.nonterminal = A := by
  cases c with
  | slots c =>
    have he' : (c.install i j e).2.get? k l A = some e' := he'
    rcases (SlotChart.install_changes h hij hj hnt).2 with ⟨-, hget⟩ | ⟨-, -, hget⟩
    · exact .inl ((hget k l A).symm.trans he')
    · rw [hget] at he'
      split at he'
      · next heq =>
        exact .inr ⟨⟨heq.1, heq.2.1⟩, (Option.some.inj he').symm, heq.2.2.symm⟩
      · exact .inl he'
  | packed c =>
    have hoff := update_offered h hij hj hnt trivial
    by_cases hspan : k = i ∧ l = j
    · obtain ⟨rfl, rfl⟩ := hspan
      rcases hoff.old_or_offer A e' he' with hold | ⟨hmem, hA⟩
      · exact .inl hold
      · exact .inr ⟨⟨rfl, rfl⟩, List.mem_singleton.1 hmem, List.mem_singleton.1 hmem ▸ hA⟩
    · exact .inl ((hoff.elsewhere k l A hspan).symm.trans he')

theorem get?_foldl_update_cases {offers : List (Entry α)} (h : c.Sound g) (hij : i < j)
    (hj : j ≤ c.size) (hnt : ∀ e ∈ offers, e.nonterminal < g.numNonterminals) {k l : Nat}
    {e' : Entry α}
    (he' : (offers.foldl (fun c e => (c.update i j e).2) c).get? k l A = some e') :
    c.get? k l A = some e' ∨ (k = i ∧ l = j) ∧ e' ∈ offers ∧ e'.nonterminal = A := by
  induction offers generalizing c with
  | nil => exact .inl he'
  | cons e rest ih =>
    have hhead := hnt e List.mem_cons_self
    obtain ⟨hsound, hsize⟩ := sound_update h hij hj hhead
    rcases ih hsound (hsize ▸ hj) (fun e' he' => hnt e' (List.mem_cons_of_mem _ he')) he' with
      hold | ⟨hspan, hmem, hA⟩
    · rcases get?_update_cases h hij hj hhead hold with hold | ⟨hspan, rfl, hA⟩
      · exact .inl hold
      · exact .inr ⟨hspan, List.mem_cons_self, hA⟩
    · exact .inr ⟨hspan, List.mem_cons_of_mem _ hmem, hA⟩

/-- Whether or not the arena has numbers left, what is found after a cell has been committed was there
before, or comes from the cell. -/
theorem get?_commit_cases (h : c.Sound g) (hcell : cell.Shaped g i j) (hij : i < j)
    (hj : j ≤ c.size) {k l : Nat} (he : (c.commit cell).get? k l A = some e) :
    c.get? k l A = some e ∨ (k = i ∧ l = j) ∧ cell.get? A = some e := by
  have hnt : ∀ e ∈ cell.entries, e.nonterminal < g.numNonterminals :=
    fun e he => hcell.nonterminal_lt he
  have hfrom : ∀ {e' : Entry α}, e' ∈ cell.entries → e'.nonterminal = A →
      cell.get? A = some e' := by
    rintro e' hmem rfl
    exact Scratch.mem_entries.1 hmem
  cases c with
  | slots c =>
    rw [commit_slots, hcell.start_eq, hcell.stop_eq] at he
    exact (get?_foldl_update_cases h hij hj hnt he).imp_right
      fun ⟨hspan, hmem, hA⟩ => ⟨hspan, hfrom hmem hA⟩
  | packed c =>
    obtain ⟨rfl, rfl⟩ := And.intro hcell.start_eq hcell.stop_eq
    have hoff := commit_offered h hij hj hcell.size_eq trivial
    by_cases hspan : k = cell.start ∧ l = cell.stop
    · obtain ⟨rfl, rfl⟩ := hspan
      exact (hoff.old_or_offer A e he).imp_right
        fun ⟨hmem, hA⟩ => ⟨⟨rfl, rfl⟩, hfrom hmem hA⟩
    · exact .inl ((hoff.elsewhere k l A hspan).symm.trans he)

/-- A cell with possible scores leaves those of a chart possible. -/
theorem Possible.commit (hpos : c.Possible) (h : c.Sound g) (hcell : cell.Proper g i j)
    (hij : i < j) (hj : j ≤ c.size) : (c.commit cell).Possible := by
  intro k l A e he
  rcases get?_commit_cases h hcell.toShaped hij hj he with hold | ⟨-, hnew⟩
  · exact hpos k l A e hold
  · obtain ⟨held, hheld, rfl⟩ := Scratch.get?_eq_some_iff.1 hnew
    exact hcell.possible A held hheld

/-- The entries of a chart after a cell has been committed are those of both. -/
theorem live_commit [MonotoneScore α] (h : c.Sound g) (hcell : cell.Proper g i j) (hij : i < j) (hj : j ≤ c.size)
    (hfits : (c.commit cell).Fits) (k l : Nat) (B : NonTerminal) :
    (c.commit cell).Live k l B ↔ cell.among c.Live k l B := by
  have hlt : cell.start < cell.stop := by rwa [hcell.start_eq, hcell.stop_eq]
  have hoff := commit_offered h hlt (by rwa [hcell.stop_eq]) hcell.size_eq hfits
  unfold Live Scratch.among
  constructor
  · intro hB
    by_cases hspan : k = cell.start ∧ l = cell.stop
    · obtain ⟨e, he⟩ := Option.isSome_iff_exists.1 hB
      rw [hspan.1, hspan.2] at he
      rcases hoff.old_or_offer B e he with hold | ⟨hmem, rfl⟩
      · have hlive : c.Live k l B := by
          rw [Live, hspan.1, hspan.2, hold]
          rfl
        exact .inl hlive
      · obtain ⟨held, hheld, -⟩ := Scratch.get?_eq_some_iff.1 (Scratch.mem_entries.1 hmem)
        exact .inr ⟨hspan, Option.isSome_iff_exists.2 ⟨held, hheld⟩⟩
    · rw [hoff.elsewhere k l B hspan] at hB
      exact .inl hB
  · rintro (hB | ⟨⟨rfl, rfl⟩, hfound⟩)
    · by_cases hspan : k = cell.start ∧ l = cell.stop
      · obtain ⟨rfl, rfl⟩ := hspan
        exact hoff.found B (.inl hB)
      · rw [hoff.elsewhere k l B hspan]
        exact hB
    · obtain ⟨held, hheld⟩ := Option.isSome_iff_exists.1 hfound
      refine hoff.found B (.inr ⟨⟨B, held.inside, held.backpointer⟩, ?_, rfl, ?_⟩)
      · exact Scratch.mem_entries.2 (Scratch.get?_eq_some_iff.2 ⟨held, hheld, rfl⟩)
      · exact Score.admissible_iff.2 (hcell.possible B held hheld)

end Chart

end Constituency
