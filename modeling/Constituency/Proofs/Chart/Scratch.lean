import Constituency.Chart.Scratch
import Constituency.Proofs.Score.Order
import Mathlib.Data.List.Basic

/-!
# What a scratch cell gathers

The score of a symbol in a scratch cell is what its derivations come to when they are gathered in the
order in which they were added, and an entry is derived in the way of one of them.
-/

namespace Constituency

variable {α : Type} [Score α]

/-- A score with one more derivation: one that cannot be is passed over. -/
def Accumulator.gather (acc : Accumulator α) (present score : α) : α :=
  if Score.impossible < score then
    if Score.impossible < present then acc.combine present score else score
  else present

namespace Scratch

variable {acc : Accumulator α} {c d : Scratch α} {e : Entry α} {nt : NonTerminal}

/-- What the cell keeps is possible. -/
def Possible (c : Scratch α) : Prop :=
  ∀ A h, c.find? A = some h → Score.impossible < h.inside

omit [Score α] in
@[simp] theorem find?_empty (start stop n : Nat) (A : NonTerminal) :
    (empty start stop n : Scratch α).find? A = none := by
  simp only [find?, empty, Array.getD_eq_getD_getElem?, Array.getElem?_replicate]
  split <;> rfl

omit [Score α] in
theorem lt_size_of_find? {h : Held α} (hA : c.find? nt = some h) : nt < c.held.size := by
  by_contra hge
  rw [find?, Array.getD_eq_getD_getElem?, Array.getElem?_eq_none (Nat.not_lt.1 hge)] at hA
  cases hA

@[simp] theorem start_add : (c.add acc e).start = c.start := by
  unfold add update
  split <;> rfl

@[simp] theorem stop_add : (c.add acc e).stop = c.stop := by
  unfold add update
  split <;> rfl

@[simp] theorem size_add : (c.add acc e).held.size = c.held.size := by
  unfold add update
  split
  · exact Array.size_setIfInBounds
  · rfl

theorem find?_add (hnt : e.nonterminal < c.held.size) (A : NonTerminal) :
    (c.add acc e).find? A =
      if A = e.nonterminal ∧ Score.admissible e.inside = true then
        some (improve acc e.inside e.backpointer (c.find? A)).2
      else c.find? A := by
  by_cases hadm : Score.admissible e.inside = true
  · rw [add, update, if_pos hadm]
    simp only [find?, Array.getD_eq_getD_getElem?]
    by_cases hA : A = e.nonterminal
    · subst hA
      simp [hnt, hadm]
    · simp [hA, Array.getElem?_setIfInBounds_ne (Ne.symm hA)]
  · rw [add, update, if_neg hadm, if_neg (fun h => hadm h.2)]

theorem foldl_add_size (c : Scratch α) (entries : List (Entry α)) :
    (entries.foldl (add acc) c).held.size = c.held.size := by
  induction entries generalizing c with
  | nil => rfl
  | cons e rest ih => exact (ih _).trans size_add

theorem foldl_add_start (acc : Accumulator α) (c : Scratch α) (entries : List (Entry α)) :
    (entries.foldl (add acc) c).start = c.start ∧ (entries.foldl (add acc) c).stop = c.stop := by
  induction entries generalizing c with
  | nil => exact ⟨rfl, rfl⟩
  | cons e rest ih => exact ⟨(ih _).1.trans start_add, (ih _).2.trans stop_add⟩

/-! ## Gathering -/

section Monotone

variable [MonotoneScore α]

theorem isSome_find?_iff (hc : c.Possible) :
    (c.find? nt).isSome = true ↔ Score.impossible < c.inside nt := by
  rw [inside]
  cases hA : c.find? nt with
  | none => simp [Score.lt_irrefl]
  | some h => simpa using hc _ _ hA

/-- An entry is gathered into the score of its symbol. -/
theorem inside_add (hc : c.Possible) (hnt : e.nonterminal < c.held.size) (A : NonTerminal) :
    (c.add acc e).inside A =
      if A = e.nonterminal then acc.gather (c.inside A) e.inside else c.inside A := by
  rw [inside, find?_add hnt]
  by_cases hA : A = e.nonterminal
  · rw [if_pos hA]
    by_cases hadm : Score.admissible e.inside = true
    · rw [if_pos ⟨hA, hadm⟩, Accumulator.gather, if_pos (Score.admissible_iff.1 hadm)]
      cases hfound : c.find? A with
      | none =>
        rw [if_neg]
        · rfl
        · rw [inside, hfound]
          exact Score.not_impossible_lt_impossible
      | some h =>
        have hin : c.inside A = h.inside := by rw [inside, hfound]
        rw [if_pos (hin ▸ hc _ _ hfound), hin, improve]
        dsimp only
        split <;> rfl
    · rw [if_neg (fun h => hadm h.2), Accumulator.gather, if_neg]
      · rfl
      · rwa [← Score.admissible_iff]
  · rw [if_neg hA, if_neg (fun h => hA h.1)]
    rfl

theorem possible_add (hacc : acc.KeepsPossible) (hc : c.Possible)
    (hnt : e.nonterminal < c.held.size) : (c.add acc e).Possible := by
  intro A h hA
  rw [find?_add hnt] at hA
  split at hA
  · next heq =>
    have hpos := Score.admissible_iff.1 heq.2
    rw [Option.some.injEq] at hA
    subst hA
    cases hfound : c.find? A with
    | none => exact hpos
    | some h =>
      have hcombine := hacc _ _ (hc _ _ hfound) hpos
      rw [improve]
      split <;> exact hcombine
  · exact hc _ _ hA

/-! ## Several entries -/

variable {entries : List (Entry α)}

theorem foldl_add_possible (hacc : acc.KeepsPossible) (hc : c.Possible)
    (hnt : ∀ e ∈ entries, e.nonterminal < c.held.size) :
    (entries.foldl (add acc) c).Possible := by
  induction entries generalizing c with
  | nil => exact hc
  | cons e rest ih =>
    refine ih (possible_add hacc hc (hnt e List.mem_cons_self)) fun e' he' => ?_
    rw [size_add]
    exact hnt e' (List.mem_cons_of_mem _ he')

/-- The score of a symbol after adding entries gathers those for the symbol. -/
theorem foldl_add_inside (hacc : acc.KeepsPossible) (hc : c.Possible)
    (hnt : ∀ e ∈ entries, e.nonterminal < c.held.size) (A : NonTerminal) :
    (entries.foldl (add acc) c).inside A =
      ((entries.filter (·.nonterminal == A)).map (·.inside)).foldl acc.gather (c.inside A) := by
  induction entries generalizing c with
  | nil => rfl
  | cons e rest ih =>
    have hhead := hnt e List.mem_cons_self
    rw [List.foldl_cons, ih (possible_add hacc hc hhead) fun e' he' => by
      rw [size_add]
      exact hnt e' (List.mem_cons_of_mem _ he')]
    rw [inside_add hc hhead, List.filter_cons]
    by_cases hA : e.nonterminal = A
    · simp [hA]
    · simp [hA, Ne.symm hA]

end Monotone

theorem isSome_find?_add (hnt : e.nonterminal < c.held.size) {A : NonTerminal} :
    ((c.add acc e).find? A).isSome = true ↔
      (e.nonterminal = A ∧ Score.admissible e.inside = true) ∨ (c.find? A).isSome = true := by
  rw [find?_add hnt]
  by_cases hA : A = e.nonterminal
  · by_cases hadm : Score.admissible e.inside = true
    · simp [hA, hadm]
    · simp [hadm]
  · simp [hA, Ne.symm hA]

/-! ## Merging -/

theorem find?_merge (hsize : c.held.size = d.held.size) (A : NonTerminal) :
    (merge acc c d).find? A = mergeHeld acc (c.find? A) (d.find? A) := by
  simp only [find?, merge, Array.getD_eq_getD_getElem?, Array.getElem?_zipWith]
  by_cases hA : A < c.held.size
  · simp [hA, hsize ▸ hA]
  · rw [Array.getElem?_eq_none (Nat.not_lt.1 hA),
      Array.getElem?_eq_none (hsize ▸ Nat.not_lt.1 hA)]
    rfl

@[simp] theorem size_merge : (merge acc c d).held.size = min c.held.size d.held.size := by
  simp [merge]

theorem possible_merge (hacc : acc.KeepsPossible) (hsize : c.held.size = d.held.size)
    (hc : c.Possible) (hd : d.Possible) : (merge acc c d).Possible := by
  intro A h hA
  rw [find?_merge hsize] at hA
  cases hfound : c.find? A with
  | none =>
    cases hfound' : d.find? A with
    | none => simp [hfound, hfound', mergeHeld] at hA
    | some h' =>
      rw [hfound, hfound', mergeHeld, Option.some.injEq] at hA
      exact hA ▸ hd _ _ hfound'
  | some h' =>
    cases hfound' : d.find? A with
    | none =>
      rw [hfound, hfound', mergeHeld, Option.some.injEq] at hA
      exact hA ▸ hc _ _ hfound
    | some h'' =>
      have hcombine := hacc _ _ (hc _ _ hfound) (hd _ _ hfound')
      simp only [hfound, hfound', mergeHeld] at hA
      split at hA <;> exact Option.some.inj hA ▸ hcombine

/-- What two cells have for a symbol is gathered into one score. -/
theorem inside_merge [MonotoneScore α] (hc : c.Possible) (hd : d.Possible)
    (hsize : c.held.size = d.held.size) (A : NonTerminal) :
    (merge acc c d).inside A = acc.gather (c.inside A) (d.inside A) := by
  rw [inside, inside, inside, find?_merge hsize, Accumulator.gather]
  cases hfound' : d.find? A with
  | none =>
    rw [if_neg Score.not_impossible_lt_impossible]
    rfl
  | some h' =>
    rw [if_pos (hd _ _ hfound')]
    cases hfound : c.find? A with
    | none =>
      rw [if_neg Score.not_impossible_lt_impossible]
      rfl
    | some h =>
      rw [if_pos (hc _ _ hfound), mergeHeld]
      by_cases hbest : h.best < h'.best
      · simp only [if_pos hbest]
      · simp only [if_neg hbest]

/-! ## Backpointers -/

variable {entries : List (Entry α)} {P Q : NonTerminal → Backpointer → Prop}

/-- All that the cell keeps is derived in a way with a property. -/
def All (P : NonTerminal → Backpointer → Prop) (c : Scratch α) : Prop :=
  ∀ A h, c.find? A = some h → P A h.backpointer

omit [Score α] in
theorem all_empty (start stop n : Nat) : (empty start stop n : Scratch α).All P := by
  intro A h hA
  rw [find?_empty] at hA
  cases hA

omit [Score α] in
theorem All.mono (hc : c.All P) (hPQ : ∀ A b, P A b → Q A b) : c.All Q :=
  fun A h hA => hPQ A _ (hc A h hA)

theorem All.add (hc : c.All P) (hnt : e.nonterminal < c.held.size)
    (he : Score.admissible e.inside = true → P e.nonterminal e.backpointer) :
    (c.add acc e).All P := by
  intro A h hA
  rw [find?_add hnt] at hA
  split at hA
  · next heq =>
    obtain ⟨rfl, hadm⟩ := heq
    rw [Option.some.injEq] at hA
    subst hA
    cases hfound : c.find? e.nonterminal with
    | none => exact he hadm
    | some old =>
      rw [improve]
      split
      · exact he hadm
      · exact hc _ old hfound
  · exact hc A h hA

theorem All.foldl_add (hc : c.All P) (hnt : ∀ e ∈ entries, e.nonterminal < c.held.size)
    (he : ∀ e ∈ entries, Score.admissible e.inside = true → P e.nonterminal e.backpointer) :
    (entries.foldl (Scratch.add acc) c).All P := by
  induction entries generalizing c with
  | nil => exact hc
  | cons e rest ih =>
    refine ih (hc.add (hnt e List.mem_cons_self) (he e List.mem_cons_self))
      (fun e' he' => ?_) fun e' he' => he e' (List.mem_cons_of_mem _ he')
    rw [size_add]
    exact hnt e' (List.mem_cons_of_mem _ he')

theorem All.merge (hc : c.All P) (hd : d.All P) (hsize : c.held.size = d.held.size) :
    (Scratch.merge acc c d).All P := by
  intro A h hA
  rw [find?_merge hsize] at hA
  cases hfound : c.find? A with
  | none =>
    rw [hfound] at hA
    cases hother : d.find? A with
    | none => rw [hother] at hA; cases hA
    | some old =>
      rw [hother] at hA
      obtain rfl := Option.some.inj hA
      exact hd A old hother
  | some old =>
    rw [hfound] at hA
    cases hother : d.find? A with
    | none =>
      rw [hother] at hA
      obtain rfl := Option.some.inj hA
      exact hc A old hfound
    | some new =>
      rw [hother, mergeHeld] at hA
      split at hA
      · obtain rfl := Option.some.inj hA
        exact hd A new hother
      · obtain rfl := Option.some.inj hA
        exact hc A old hfound

/-! ## Entries -/

omit [Score α] in
theorem get?_eq_some_iff :
    c.get? nt = some e ↔ ∃ h, c.find? nt = some h ∧ e = ⟨nt, h.inside, h.backpointer⟩ := by
  rw [get?, Option.map_eq_some_iff]
  exact exists_congr fun h => and_congr_right fun _ => eq_comm

omit [Score α] in
theorem mem_entries : e ∈ c.entries ↔ c.get? e.nonterminal = some e := by
  rw [entries, List.mem_filterMap]
  constructor
  · rintro ⟨A, -, hA⟩
    obtain ⟨h, -, rfl⟩ := get?_eq_some_iff.1 hA
    exact hA
  · intro he
    obtain ⟨h, hh, -⟩ := get?_eq_some_iff.1 he
    exact ⟨e.nonterminal, List.mem_range.2 (lt_size_of_find? hh), he⟩

omit [Score α] in
theorem nonterminal_lt_of_mem_entries (he : e ∈ c.entries) : e.nonterminal < c.held.size := by
  obtain ⟨h, hh, -⟩ := get?_eq_some_iff.1 (mem_entries.1 he)
  exact lt_size_of_find? hh

omit [Score α] in
/-- The entries come in ascending order, one for each symbol. -/
theorem entries_pairwise (c : Scratch α) :
    c.entries.Pairwise fun a b => a.nonterminal < b.nonterminal := by
  rw [entries, List.pairwise_filterMap]
  refine List.pairwise_lt_range.imp fun {a b} hab x hx y hy => ?_
  obtain ⟨_, -, rfl⟩ := get?_eq_some_iff.1 hx
  obtain ⟨_, -, rfl⟩ := get?_eq_some_iff.1 hy
  exact hab

end Scratch

end Constituency
