import Constituency.Proofs.Chart.Supported

/-!
# The best of what a scratch cell gathers

Whatever a cell makes of the scores of several derivations, its backpointers follow the best one of
each symbol (`Gathers`). In a cell that does not sum, the score of a symbol is the score of that
derivation (`Tight`), so that an entry that is added either takes the place of the present one, or leaves
the cell as it was.
-/

namespace Constituency

namespace Scratch

variable {α : Type} [Score α] {g : Grammar α} {acc : Accumulator α} {cell cell' : Scratch α}
  {i j : Nat} {A : NonTerminal} {e : Entry α} {h : Held α} {entries more : List (Entry α)}

/-- The score of the best derivation in what is kept of a symbol. -/
def bestOf : Option (Held α) → α
  | some h => h.best
  | none => Score.impossible

/-- The score of the best derivation of a symbol. -/
def best (cell : Scratch α) (A : NonTerminal) : α :=
  bestOf (cell.find? A)

theorem best_of_find? (hA : cell.find? A = some h) : cell.best A = h.best := by
  rw [best, hA, bestOf]

theorem inside_of_find? (hA : cell.find? A = some h) : cell.inside A = h.inside := by
  rw [inside, hA]

theorem inside_of_get? (hA : cell.get? A = some e) : cell.inside A = e.inside := by
  obtain ⟨h, hfind, rfl⟩ := get?_eq_some_iff.1 hA
  exact inside_of_find? hfind

theorem inside_of_find?_eq_none (hA : cell.find? A = none) :
    cell.inside A = Score.impossible := by
  rw [inside, hA]

/-- The score of each symbol is that of its best derivation. -/
def Tight (cell : Scratch α) : Prop :=
  ∀ A h, cell.find? A = some h → h.best = h.inside

theorem Tight.best_eq (ht : cell.Tight) (A : NonTerminal) : cell.best A = cell.inside A := by
  cases hA : cell.find? A with
  | none => rw [best, inside, hA, bestOf]
  | some h => rw [best_of_find? hA, inside_of_find? hA, ht A h hA]

omit [Score α] in
/-- A cell is known by its span and by what is found in it. -/
theorem eq_of_find?_eq (hstart : cell.start = cell'.start) (hstop : cell.stop = cell'.stop)
    (hsize : cell.held.size = cell'.held.size) (hfind : ∀ A, cell.find? A = cell'.find? A) :
    cell = cell' := by
  obtain ⟨start, stop, held⟩ := cell
  obtain ⟨start', stop', held'⟩ := cell'
  obtain ⟨rfl, rfl⟩ := And.intro hstart hstop
  congr 1
  refine Array.ext hsize fun A hA hA' => ?_
  have hsame := hfind A
  simpa [find?, Array.getD_eq_getD_getElem?, hA, hA'] using hsame

/-! ## Adding to a cell that does not sum -/

section Add

variable [MonotoneScore α]

/-- An entry with a better score than the present one takes its place. -/
theorem find?_add_of_lt (ht : cell.Tight) (hnt : e.nonterminal < cell.held.size)
    (hlt : cell.inside e.nonterminal < e.inside) (A : NonTerminal) :
    (cell.add .best e).find? A =
      if A = e.nonterminal then some ⟨e.inside, e.inside, e.backpointer⟩ else cell.find? A := by
  have hadm : Score.admissible e.inside = true :=
    Score.admissible_iff.2 (Score.lt_of_le_of_lt (Score.impossible_le _) hlt)
  rw [find?_add hnt]
  by_cases hA : A = e.nonterminal
  · rw [if_pos ⟨hA, hadm⟩, if_pos hA, hA]
    cases hfound : cell.find? e.nonterminal with
    | none => rfl
    | some h =>
      rw [inside_of_find? hfound] at hlt
      have hbest : h.best < e.inside := (ht _ h hfound).symm ▸ hlt
      rw [improve]
      simp only [if_pos hbest, Accumulator.combine, Score.best_eq_ite, if_pos hlt]
  · rw [if_neg (fun h => hA h.1), if_neg hA]

/-- An entry with no better score than the present one changes nothing. -/
theorem add_of_le (ht : cell.Tight) (hnt : e.nonterminal < cell.held.size)
    (hle : e.inside ≤ cell.inside e.nonterminal) : cell.add .best e = cell := by
  refine eq_of_find?_eq start_add stop_add size_add fun A => ?_
  rw [find?_add hnt]
  split
  · next heq =>
    obtain ⟨rfl, hadm⟩ := heq
    have hpos := Score.lt_of_lt_of_le (Score.admissible_iff.1 hadm) hle
    cases hfound : cell.find? e.nonterminal with
    | none =>
      rw [inside_of_find?_eq_none hfound] at hpos
      exact absurd hpos Score.not_impossible_lt_impossible
    | some h =>
      rw [inside_of_find? hfound] at hle
      have hbest : ¬ h.best < e.inside := (ht _ h hfound).symm ▸ Score.not_lt.2 hle
      rw [improve]
      simp only [if_neg hbest, Accumulator.combine, Score.best_eq_ite,
        if_neg (Score.not_lt.2 hle)]
  · rfl

theorem Tight.add (ht : cell.Tight) (hnt : e.nonterminal < cell.held.size) :
    (cell.add .best e).Tight := by
  intro A h hA
  rcases Score.lt_or_ge (cell.inside e.nonterminal) e.inside with hlt | hle
  · rw [find?_add_of_lt ht hnt hlt] at hA
    split at hA
    · rw [Option.some.injEq] at hA
      rw [← hA]
    · exact ht A h hA
  · rw [add_of_le ht hnt hle] at hA
    exact ht A h hA

theorem Tight.foldl_add (ht : cell.Tight)
    (hnt : ∀ e ∈ entries, e.nonterminal < cell.held.size) :
    (entries.foldl (Scratch.add .best) cell).Tight := by
  induction entries generalizing cell with
  | nil => exact ht
  | cons e rest ih =>
    refine ih (ht.add (hnt e List.mem_cons_self)) fun e' he' => ?_
    rw [size_add]
    exact hnt e' (List.mem_cons_of_mem _ he')

end Add

/-! ## Merging -/

/-- What two cells keep of a symbol together comes from one of them, with the better of their best
derivations. -/
theorem mergeHeld_spec [MonotoneScore α] {x y : Option (Held α)} :
    bestOf x ≤ bestOf (mergeHeld acc x y) ∧ bestOf y ≤ bestOf (mergeHeld acc x y) ∧
      ∀ h, mergeHeld acc x y = some h → ∃ h', (x = some h' ∨ y = some h') ∧
        h'.backpointer = h.backpointer ∧ h'.best = h.best := by
  cases x with
  | none =>
    refine ⟨Score.impossible_le _, ?_, fun h hh => ?_⟩
    · cases y <;> exact Score.le_refl _
    · cases y with
      | none => cases hh
      | some b => exact ⟨b, .inr rfl, Option.some.inj hh ▸ ⟨rfl, rfl⟩⟩
  | some a =>
    cases y with
    | none =>
      exact ⟨Score.le_refl _, Score.impossible_le _,
        fun h hh => ⟨a, .inl rfl, Option.some.inj hh ▸ ⟨rfl, rfl⟩⟩⟩
    | some b =>
      rw [mergeHeld]
      by_cases hlt : a.best < b.best
      · rw [if_pos hlt]
        exact ⟨Score.le_of_lt hlt, Score.le_refl _,
          fun h hh => ⟨b, .inr rfl, Option.some.inj hh ▸ ⟨rfl, rfl⟩⟩⟩
      · rw [if_neg hlt]
        exact ⟨Score.le_refl _, Score.not_lt.1 hlt,
          fun h hh => ⟨a, .inl rfl, Option.some.inj hh ▸ ⟨rfl, rfl⟩⟩⟩

/-- Scores that are not summed stay those of the best derivations. -/
theorem best_eq_of_mergeHeld [MonotoneScore α] {x y : Option (Held α)}
    (hx : ∀ a, x = some a → a.best = a.inside) (hy : ∀ b, y = some b → b.best = b.inside)
    (hh : mergeHeld .best x y = some h) : h.best = h.inside := by
  cases x with
  | none =>
    cases y with
    | none => cases hh
    | some b => exact Option.some.inj hh ▸ hy b rfl
  | some a =>
    cases y with
    | none => exact Option.some.inj hh ▸ hx a rfl
    | some b =>
      rw [mergeHeld, hx a rfl, hy b rfl, Accumulator.combine, Score.best_eq_ite] at hh
      split at hh <;> rw [← Option.some.inj hh]

theorem Tight.merge [MonotoneScore α] (ht : cell.Tight) (ht' : cell'.Tight)
    (hsize : cell.held.size = cell'.held.size) : (Scratch.merge .best cell cell').Tight := by
  intro A h hA
  rw [find?_merge hsize] at hA
  exact best_eq_of_mergeHeld (ht A) (ht' A) hA

theorem merge_empty {n : Nat} (acc : Accumulator α) (hsize : cell.held.size = n) :
    merge acc cell (empty i j n) = cell := by
  have hsame : cell.held.size = (empty i j n : Scratch α).held.size := by
    rw [hsize, empty, Array.size_replicate]
  refine eq_of_find?_eq rfl rfl ?_ fun A => ?_
  · rw [size_merge, ← hsame, Nat.min_self]
  · rw [find?_merge hsame, find?_empty]
    cases cell.find? A <;> rfl

/-! ## Gathering -/

/-- A cell whose entries are the best ones of a list: what it keeps of a symbol is the best way to derive
it in the list, whatever the score of all of them together. -/
structure Gathers (g : Grammar α) (i j : Nat) (entries : List (Entry α)) (cell : Scratch α) :
    Prop extends cell.Proper g i j where
  source : ∀ A h, cell.find? A = some h →
    ∃ e ∈ entries, e.nonterminal = A ∧ e.backpointer = h.backpointer ∧ e.inside = h.best
  le_best : ∀ e ∈ entries, e.inside ≤ cell.best e.nonterminal

omit [Score α] in
theorem tight_empty (start stop n : Nat) : (empty start stop n : Scratch α).Tight := by
  intro A h hA
  simp at hA

theorem Gathers.empty (g : Grammar α) (i j : Nat) :
    Gathers g i j [] (empty i j g.numNonterminals) where
  toProper := proper_empty g i j
  source A h hA := by simp at hA
  le_best e he := by cases he

theorem Gathers.congr (h : cell.Gathers g i j entries) (hmem : ∀ e, e ∈ more ↔ e ∈ entries) :
    cell.Gathers g i j more where
  toProper := h.toProper
  source A held hA := by
    obtain ⟨e, he, hspec⟩ := h.source A held hA
    exact ⟨e, (hmem e).2 he, hspec⟩
  le_best e he := h.le_best e ((hmem e).1 he)

/-- The entries of a cell that does not sum are entries of the list. -/
theorem Gathers.mem_of_find? (hg : cell.Gathers g i j entries) (ht : cell.Tight)
    (hA : cell.find? A = some h) : (⟨A, h.inside, h.backpointer⟩ : Entry α) ∈ entries := by
  obtain ⟨e, he, rfl, hb, hscore⟩ := hg.source A h hA
  rw [← hb, ← ht _ h hA, ← hscore]
  exact he

section Monotone

variable [MonotoneScore α]

/-- What a cell keeps after an entry has been added: of a symbol the entry, if it is better than the best one
so far, or else what was kept before. -/
theorem best_add (acc : Accumulator α) (hnt : e.nonterminal < cell.held.size) (A : NonTerminal) :
    cell.best A ≤ (cell.add acc e).best A ∧
      (A = e.nonterminal → e.inside ≤ (cell.add acc e).best A) ∧
      ∀ h, (cell.add acc e).find? A = some h →
        (A = e.nonterminal ∧ h.backpointer = e.backpointer ∧ h.best = e.inside ∧
          cell.best A < e.inside) ∨
          ∃ h', cell.find? A = some h' ∧ h'.backpointer = h.backpointer ∧ h'.best = h.best := by
  have hfind : (cell.add acc e).find? A = _ := find?_add hnt A
  by_cases hcond : A = e.nonterminal ∧ Score.admissible e.inside = true
  · rw [if_pos hcond] at hfind
    rw [best_of_find? hfind, hfind]
    obtain ⟨rfl, hadm⟩ := hcond
    cases hfound : cell.find? e.nonterminal with
    | none =>
      have hnone : cell.best e.nonterminal = Score.impossible := by rw [best, hfound, bestOf]
      rw [hnone]
      refine ⟨Score.impossible_le _, fun _ => Score.le_refl _, fun h hh => .inl ?_⟩
      rw [Option.some.injEq] at hh
      subst hh
      exact ⟨rfl, rfl, rfl, Score.admissible_iff.1 hadm⟩
    | some held =>
      rw [best_of_find? hfound, improve]
      split
      · next hlt =>
        refine ⟨Score.le_of_lt hlt, fun _ => Score.le_refl _, fun h hh => .inl ?_⟩
        rw [Option.some.injEq] at hh
        subst hh
        exact ⟨rfl, rfl, rfl, hlt⟩
      · next hnot =>
        refine ⟨Score.le_refl _, fun _ => Score.not_lt.1 hnot, fun h hh => .inr ⟨held, rfl, ?_⟩⟩
        rw [Option.some.injEq] at hh
        subst hh
        exact ⟨rfl, rfl⟩
  · rw [if_neg hcond] at hfind
    have hsame : (cell.add acc e).best A = cell.best A := by rw [best, best, hfind]
    rw [hsame, hfind]
    refine ⟨Score.le_refl _, fun hA => ?_, fun h hh => .inr ⟨h, hh, rfl, rfl⟩⟩
    refine Score.le_trans (Score.not_lt.1 fun hpos => hcond ⟨hA, Score.admissible_iff.2 hpos⟩)
      (Score.impossible_le _)

/-- The backpointer of a symbol stays what it was unless one of the entries that are added is better. -/
theorem backpointer_foldl_add (hnt : ∀ e ∈ entries, e.nonterminal < cell.held.size)
    (hA : (entries.foldl (Scratch.add acc) cell).find? A = some h) :
    (∃ h', cell.find? A = some h' ∧ h'.backpointer = h.backpointer) ∨
      ∃ e ∈ entries, e.nonterminal = A ∧ e.backpointer = h.backpointer ∧
        cell.best A < e.inside := by
  induction entries generalizing cell with
  | nil => exact .inl ⟨h, hA, rfl⟩
  | cons e rest ih =>
    obtain ⟨hle, -, hcases⟩ := best_add acc (hnt e List.mem_cons_self) A
    have hrest : ∀ e' ∈ rest, e'.nonterminal < (cell.add acc e).held.size := by
      intro e' he'
      rw [size_add]
      exact hnt e' (List.mem_cons_of_mem _ he')
    rcases ih hrest hA with ⟨h', hA', hb⟩ | ⟨e', he', hA', hb, hlt⟩
    · rcases hcases h' hA' with ⟨rfl, hb', -, hlt⟩ | ⟨h'', hA'', hb', -⟩
      · exact .inr ⟨e, List.mem_cons_self, rfl, hb'.symm.trans hb, hlt⟩
      · exact .inl ⟨h'', hA'', hb'.trans hb⟩
    · exact .inr ⟨e', List.mem_cons_of_mem _ he', hA', hb, Score.lt_of_le_of_lt hle hlt⟩

theorem Gathers.add (h : cell.Gathers g i j entries) (hacc : acc.KeepsPossible)
    (hnt : e.nonterminal < g.numNonterminals) :
    (cell.add acc e).Gathers g i j (entries ++ [e]) := by
  have hbest := best_add acc (h.size_eq.symm ▸ hnt : e.nonterminal < cell.held.size)
  refine ⟨h.toProper.add hacc hnt, fun A held hA => ?_, fun e' he' => ?_⟩
  · rcases (hbest A).2.2 held hA with ⟨rfl, hb, hscore, -⟩ | ⟨held', hA', hb, hscore⟩
    · exact ⟨e, by simp, rfl, hb.symm, hscore.symm⟩
    · obtain ⟨e', he', hnt', hb', hscore'⟩ := h.source A held' hA'
      exact ⟨e', List.mem_append_left _ he', hnt', hb'.trans hb, hscore'.trans hscore⟩
  · rcases List.mem_append.1 he' with he' | he'
    · exact Score.le_trans (h.le_best e' he') (hbest _).1
    · rw [List.mem_singleton] at he'
      exact he' ▸ (hbest _).2.1 (he' ▸ rfl)

theorem Gathers.foldl_add (h : cell.Gathers g i j entries) (hacc : acc.KeepsPossible)
    (hnt : ∀ e ∈ more, e.nonterminal < g.numNonterminals) :
    (more.foldl (Scratch.add acc) cell).Gathers g i j (entries ++ more) := by
  induction more generalizing cell entries with
  | nil => rwa [List.append_nil]
  | cons e rest ih =>
    have hnext := ih (h.add hacc (hnt e List.mem_cons_self)) fun e' he' =>
      hnt e' (List.mem_cons_of_mem _ he')
    rwa [List.append_assoc] at hnext

theorem Gathers.merge (h : cell.Gathers g i j entries) (h' : cell'.Gathers g i j more)
    (hacc : acc.KeepsPossible) :
    (Scratch.merge acc cell cell').Gathers g i j (entries ++ more) := by
  have hsize : cell.held.size = cell'.held.size := h.size_eq.trans h'.size_eq.symm
  have hfind : ∀ A, (Scratch.merge acc cell cell').find? A =
      mergeHeld acc (cell.find? A) (cell'.find? A) := find?_merge hsize
  have hbest : ∀ A, cell.best A ≤ (Scratch.merge acc cell cell').best A ∧
      cell'.best A ≤ (Scratch.merge acc cell cell').best A := by
    intro A
    rw [best, best, best, hfind]
    exact ⟨mergeHeld_spec.1, mergeHeld_spec.2.1⟩
  have hproper := h.toProper.merge h'.toProper hacc
  refine ⟨hproper, fun A held hA => ?_, fun e he => ?_⟩
  · rw [hfind] at hA
    obtain ⟨a, ha | ha, hb, hscore⟩ := mergeHeld_spec.2.2 held hA
    · obtain ⟨e, he, hnt, heb, hes⟩ := h.source A a ha
      exact ⟨e, List.mem_append_left _ he, hnt, heb.trans hb, hes.trans hscore⟩
    · obtain ⟨e, he, hnt, heb, hes⟩ := h'.source A a ha
      exact ⟨e, List.mem_append_right _ he, hnt, heb.trans hb, hes.trans hscore⟩
  · rcases List.mem_append.1 he with he | he
    · exact Score.le_trans (h.le_best e he) (hbest _).1
    · exact Score.le_trans (h'.le_best e he) (hbest _).2

/-- Cells that gather from the same entries hold scores no lower than each other. -/
theorem Gathers.inside_le (hg : cell.Gathers g i j entries) (ht : cell.Tight)
    (hg' : cell'.Gathers g i j more) (ht' : cell'.Tight) (hmem : ∀ e ∈ entries, e ∈ more)
    (A : NonTerminal) : cell.inside A ≤ cell'.inside A := by
  cases hA : cell.find? A with
  | none =>
    rw [inside_of_find?_eq_none hA]
    exact Score.impossible_le _
  | some h =>
    rw [inside_of_find? hA, ← ht'.best_eq]
    exact hg'.le_best _ (hmem _ (hg.mem_of_find? ht hA))

end Monotone

end Scratch

end Constituency
