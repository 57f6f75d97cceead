import Constituency.Chart.Packed
import Constituency.Proofs.Chart.TidyRows
import Constituency.Proofs.Score.Order
import Mathlib.Data.List.Perm.Subperm

/-!
# What a packed chart holds

In a sound chart each row is in ascending order, so that it holds one entry for a symbol at most, and
that entry is the one that is found.
-/

namespace Constituency

namespace PackedChart

variable {α : Type} {g : Grammar α} {c : PackedChart α} {start stop : Nat} {nt : NonTerminal}
  {e : Entry α} {row : List (PackedEntry α)}

/-- The row is in ascending order of its symbols, which are symbols of a grammar. -/
structure RowSound (n : Nat) (row : List (PackedEntry α)) : Prop where
  ascending : row.Pairwise fun a b => a.nonterminal < b.nonterminal
  nonterminal_lt : ∀ e ∈ row, e.nonterminal < n

/-- All rows are in order and keep to their strides, and the chart is one for the grammar. -/
structure Sound [Score α] (g : Grammar α) (c : PackedChart α) : Prop where
  numNonterminals_eq : c.numNonterminals = g.numNonterminals
  classes_eq : c.classes = g.classes
  stride_eq : c.rows.stride = g.numNonterminals
  tidy : c.rows.Tidy
  rows : ∀ i j, RowSound g.numNonterminals (c.row i j)

theorem row_empty [Score α] (size : Nat) (g : Grammar α) (i j : Nat) : (empty size g).row i j = [] := by
  rw [row, empty, RowTable.get, RowTable.count_make]
  rfl

theorem sound_empty [Score α] (size : Nat) (g : Grammar α) : (empty size g).Sound g where
  numNonterminals_eq := rfl
  classes_eq := rfl
  stride_eq := rfl
  tidy := RowTable.tidy_make size g.numNonterminals
  rows i j := by
    rw [row_empty]
    exact ⟨.nil, fun e he => by cases he⟩

/-! ## Rows -/

theorem find?_eq_some_iff {n : Nat} (h : RowSound n row) {x : PackedEntry α} :
    find? row nt = some x ↔ x ∈ row ∧ x.nonterminal = nt := by
  constructor
  · intro hx
    rw [find?] at hx
    have hnt := List.find?_some hx
    exact ⟨List.mem_of_find?_eq_some hx, beq_iff_eq.1 hnt⟩
  · rintro ⟨hx, rfl⟩
    rw [find?, List.find?_eq_some_iff_append]
    obtain ⟨before, after, rfl⟩ := List.append_of_mem hx
    refine ⟨by simp, before, after, rfl, fun y hy => ?_⟩
    have hlt := (List.pairwise_append.1 h.ascending).2.2 y hy x List.mem_cons_self
    simp [Nat.ne_of_lt hlt]

/-- A row has at most one entry for each symbol. -/
theorem RowSound.length_le {n : Nat} (h : RowSound n row) : row.length ≤ n := by
  have hnodup : (row.map (·.nonterminal)).Nodup :=
    (List.pairwise_map.2 h.ascending).imp Nat.ne_of_lt
  have hsub : row.map (·.nonterminal) ⊆ List.range n := by
    intro A hA
    obtain ⟨x, hx, rfl⟩ := List.mem_map.1 hA
    exact List.mem_range.2 (h.nonterminal_lt x hx)
  simpa using (List.subperm_of_subset hnodup hsub).length_le

theorem row_of_not_covers (hcov : ¬ (start < stop ∧ stop ≤ c.size)) : c.row start stop = [] :=
  RowTable.get_of_not_covers hcov

variable [Score α]

/-- What is looked up in the arrays is found in the row. -/
theorem lookup_eq (h : c.Sound g) (start stop : Nat) (nt : NonTerminal) :
    c.rows.find? start stop nt = find? (c.row start stop) nt :=
  RowTable.find?_eq h.tidy.fit (h.rows start stop).ascending nt

theorem get?_eq (h : c.Sound g) (start stop : Nat) (nt : NonTerminal) :
    c.get? start stop nt = (find? (c.row start stop) nt).map (·.toEntry) := by
  rw [get?, lookup_eq h]

theorem get?_eq_some_iff (h : c.Sound g) :
    c.get? start stop nt = some e ↔
      ∃ x ∈ c.row start stop, x.nonterminal = nt ∧ x.toEntry = e := by
  rw [get?_eq h, Option.map_eq_some_iff]
  constructor
  · rintro ⟨x, hx, rfl⟩
    obtain ⟨hmem, hnt⟩ := (find?_eq_some_iff (h.rows start stop)).1 hx
    exact ⟨x, hmem, hnt, rfl⟩
  · rintro ⟨x, hmem, hnt, rfl⟩
    exact ⟨x, (find?_eq_some_iff (h.rows start stop)).2 ⟨hmem, hnt⟩, rfl⟩

theorem Sound.nonterminal_eq (h : c.Sound g) (he : c.get? start stop nt = some e) :
    e.nonterminal = nt := by
  obtain ⟨x, -, hnt, rfl⟩ := (get?_eq_some_iff h).1 he
  exact hnt

theorem Sound.bounds (h : c.Sound g) (he : c.get? start stop nt = some e) :
    start < stop ∧ stop ≤ c.size ∧ nt < g.numNonterminals := by
  obtain ⟨x, hx, rfl, rfl⟩ := (get?_eq_some_iff h).1 he
  have hnt := (h.rows start stop).nonterminal_lt x hx
  by_cases hcov : start < stop ∧ stop ≤ c.size
  · exact ⟨hcov.1, hcov.2, hnt⟩
  · rw [row_of_not_covers hcov] at hx
    cases hx

theorem inside_eq (c : PackedChart α) (start stop : Nat) (nt : NonTerminal) :
    c.inside start stop nt = ((c.get? start stop nt).map (·.inside)).getD Score.impossible := by
  rw [inside, get?]
  cases c.rows.find? start stop nt <;> rfl

/-! ## Writing -/

/-- A chart of which one row has changed and is still in order. -/
theorem sound_of_replaces (h : c.Sound g) {rows : RowTable α}
    (hrows : c.rows.Replaces rows start stop row) (hrow : RowSound g.numNonterminals row) :
    ({ c with rows } : PackedChart α).Sound g where
  numNonterminals_eq := h.numNonterminals_eq
  classes_eq := h.classes_eq
  stride_eq := hrows.stride_eq.trans h.stride_eq
  tidy := hrows.tidy
  rows k l := by
    show RowSound _ (rows.get k l)
    by_cases heq : k = start ∧ l = stop
    · obtain ⟨rfl, rfl⟩ := heq
      exact hrows.get_self ▸ hrow
    · rw [hrows.get_eq k l heq]
      exact h.rows k l

theorem row_of_replaces {rows : RowTable α} (hrows : c.rows.Replaces rows start stop row)
    (k l : Nat) :
    ({ c with rows } : PackedChart α).row k l =
      if k = start ∧ l = stop then row else c.row k l := by
  split
  · next heq =>
    obtain ⟨rfl, rfl⟩ := heq
    exact hrows.get_self
  · next hne => exact hrows.get_eq k l hne

theorem rowSound_fresh {n : Nat} {entries : List (Entry α)}
    (hasc : entries.Pairwise fun a b => a.nonterminal < b.nonterminal)
    (hlt : ∀ e ∈ entries, e.nonterminal < n) : RowSound n (entries.map fresh) where
  ascending := List.pairwise_map.2 hasc
  nonterminal_lt e he := by
    obtain ⟨e', he', rfl⟩ := List.mem_map.1 he
    exact hlt e' he'

omit [Score α] in
theorem RowSound.sublist {n : Nat} (h : RowSound n row) {row' : List (PackedEntry α)}
    (hsub : row'.Sublist row) : RowSound n row' :=
  ⟨h.ascending.sublist hsub, fun x hx => h.nonterminal_lt x (hsub.subset hx)⟩

omit [Score α] in
/-- A row with an entry put between those before it and those after it. -/
theorem RowSound.insert {n : Nat} {before after : List (PackedEntry α)} {x : PackedEntry α}
    (h : RowSound n (before ++ after)) (hbefore : ∀ y ∈ before, y.nonterminal < x.nonterminal)
    (hafter : ∀ y ∈ after, x.nonterminal < y.nonterminal) (hx : x.nonterminal < n) :
    RowSound n (before ++ x :: after) where
  ascending := by
    obtain ⟨hasc, hasc', hbetween⟩ := List.pairwise_append.1 h.ascending
    refine List.pairwise_append.2 ⟨hasc, List.pairwise_cons.2 ⟨hafter, hasc'⟩, fun y hy => ?_⟩
    exact List.forall_mem_cons.2 ⟨hbefore y hy, hbetween y hy⟩
  nonterminal_lt y hy := by
    rcases List.mem_cons.1 (List.perm_middle.mem_iff.1 hy) with rfl | hy
    · exact hx
    · exact h.nonterminal_lt y hy

omit [Score α] in
/-- The place of a symbol in a row: there is at most one entry between the smaller and the greater ones. -/
theorem exists_place (h : row.Pairwise fun a b => a.nonterminal < b.nonterminal) (A : NonTerminal) :
    ∃ before after, (∀ x ∈ before, x.nonterminal < A) ∧ (∀ x ∈ after, A < x.nonterminal) ∧
      (row = before ++ after ∨ ∃ x, x.nonterminal = A ∧ row = before ++ x :: after) := by
  induction row with
  | nil =>
    exact ⟨[], [], fun x hx => absurd hx List.not_mem_nil, fun x hx => absurd hx List.not_mem_nil,
      .inl rfl⟩
  | cons y rest ih =>
    obtain ⟨hhead, hrest⟩ := List.pairwise_cons.1 h
    rcases Nat.lt_trichotomy A y.nonterminal with hlt | rfl | hgt
    · refine ⟨[], y :: rest, fun x hx => absurd hx List.not_mem_nil, ?_, .inl rfl⟩
      exact List.forall_mem_cons.2 ⟨hlt, fun x hx => Nat.lt_trans hlt (hhead x hx)⟩
    · exact ⟨[], rest, fun x hx => absurd hx List.not_mem_nil, hhead, .inr ⟨y, rfl, rfl⟩⟩
    · obtain ⟨before, after, hbefore, hafter, hrow⟩ := ih hrest
      refine ⟨y :: before, after, List.forall_mem_cons.2 ⟨hgt, hbefore⟩, hafter, ?_⟩
      rcases hrow with rfl | ⟨x, hx, rfl⟩
      · exact .inl rfl
      · exact .inr ⟨x, hx, rfl⟩

/-- What an offer does to a row: it is put in its place if there is nothing there or something worse. -/
theorem offer_cases {n : Nat} (h : RowSound n row) (e : Entry α) :
    ∃ before after, (∀ x ∈ before, x.nonterminal < e.nonterminal) ∧
      (∀ x ∈ after, e.nonterminal < x.nonterminal) ∧
      ((row = before ++ after ∧ offer e row = (true, before ++ fresh e :: after)) ∨
        ∃ x, x.nonterminal = e.nonterminal ∧ row = before ++ x :: after ∧
          offer e row = if x.inside < e.inside then (true, before ++ { x with toEntry := e } :: after)
            else (false, row)) := by
  obtain ⟨before, after, hbefore, hafter, hrow⟩ := exists_place h.ascending e.nonterminal
  refine ⟨before, after, hbefore, hafter, ?_⟩
  rcases hrow with rfl | ⟨x, hx, rfl⟩
  · refine .inl ⟨rfl, ?_⟩
    rw [offer_append hbefore, offer_of_lt hafter]
  · refine .inr ⟨x, hx, rfl, ?_⟩
    rw [offer_append hbefore, offer_cons_self hx]
    split <;> rfl

/-- A row after an entry has been offered: it holds the entries of before, of which the one for the same symbol
may have been replaced. -/
theorem offer_spec {n : Nat} (h : RowSound n row) (hnt : e.nonterminal < n) :
    RowSound n (offer e row).2 ∧
      (∀ x ∈ (offer e row).2, (∃ y ∈ row, y.toEntry = x.toEntry) ∨ x.toEntry = e) ∧
      (∀ y ∈ row, y.nonterminal ≠ e.nonterminal → y ∈ (offer e row).2) ∧
      ∃ x ∈ (offer e row).2, x.nonterminal = e.nonterminal := by
  have hmem : ∀ {before after : List (PackedEntry α)} {x y : PackedEntry α},
      y ∈ before ++ x :: after ↔ y = x ∨ y ∈ before ++ after :=
    List.perm_middle.mem_iff.trans List.mem_cons
  obtain ⟨before, after, hbefore, hafter, ⟨rfl, hoffer⟩ | ⟨x, hx, rfl, hoffer⟩⟩ := offer_cases h e
  · rw [hoffer]
    refine ⟨h.insert hbefore hafter hnt, fun y hy => ?_, fun y hy _ => hmem.2 (.inr hy), fresh e,
      hmem.2 (.inl rfl), rfl⟩
    rcases hmem.1 hy with rfl | hy
    · exact .inr rfl
    · exact .inl ⟨y, hy, rfl⟩
  · rw [hoffer]
    split
    · have hrest : RowSound n (before ++ after) :=
        h.sublist ((List.Sublist.refl before).append (List.sublist_cons_self x after))
      refine ⟨hrest.insert hbefore hafter hnt, fun y hy => ?_, fun y hy hne => ?_,
        { x with toEntry := e }, hmem.2 (.inl rfl), rfl⟩
      · rcases hmem.1 hy with rfl | hy
        · exact .inr rfl
        · exact .inl ⟨y, hmem.2 (.inr hy), rfl⟩
      · rcases hmem.1 hy with rfl | hy
        · exact absurd hx hne
        · exact hmem.2 (.inr hy)
    · exact ⟨h, fun y hy => .inl ⟨y, hy, rfl⟩, fun y hy _ => hy, x, hmem.2 (.inl rfl), hx⟩

/-- What an offer does to a row: it changes if it has no entry for the symbol or a worse one, then the entry
for that symbol alone, and it grows if it had none. -/
theorem offer_find? {n : Nat} (h : RowSound n row) :
    (offer e row).1 = (find? row e.nonterminal).all (fun old => decide (old.inside < e.inside)) ∧
      (∀ A, (find? (offer e row).2 A).map (·.toEntry) =
        if (offer e row).1 = true ∧ A = e.nonterminal then some e
        else (find? row A).map (·.toEntry)) ∧
      (offer e row).2.length =
        row.length + if (find? row e.nonterminal).isNone then 1 else 0 := by
  obtain ⟨before, after, hbefore, hafter, ⟨rfl, hoffer⟩ | ⟨x, hx, rfl, hoffer⟩⟩ := offer_cases h e
  · have hnew := find?_middle (x := fresh e) hbefore after
    rw [hoffer, find?_place_eq_none hbefore hafter]
    refine ⟨rfl, fun A => ?_, ?_⟩
    · simp only [true_and]
      rw [hnew, apply_ite (Option.map _), Option.map_some]
      rfl
    · rw [List.length_append, List.length_cons, List.length_append]
      rfl
  · have hold := find?_middle (x := x) (hx ▸ hbefore) after
    rw [hold e.nonterminal, if_pos hx.symm, hoffer]
    split
    · next hbetter =>
      have hnew := find?_middle (x := { x with toEntry := e }) hbefore after
      refine ⟨(decide_eq_true hbetter).symm, fun A => ?_, ?_⟩
      · simp only [true_and]
        rw [hnew, hold, hx]
        split <;> rfl
      · rw [List.length_append, List.length_append]
        rfl
    · next hbetter =>
      exact ⟨(decide_eq_false hbetter).symm, fun A => by simp only [Bool.false_eq_true, false_and,
        if_false], rfl⟩

/-! ## Offers -/

/-- What the chart makes of an entry that can be possible is what its row makes of it. -/
theorem update_eq (h : c.Sound g) (hij : start < stop) (hj : stop ≤ c.size)
    (hnt : e.nonterminal < g.numNonterminals) (hadm : Score.admissible e.inside = true) :
    ∃ rows, c.update start stop e = ((offer e (c.row start stop)).1, { c with rows }) ∧
      c.rows.Replaces rows start stop (offer e (c.row start stop)).2 := by
  have hroom : find? (c.row start stop) e.nonterminal = none →
      c.rows.count start stop < c.rows.stride := by
    intro hnone
    -- with another entry the row would still be one of the grammar
    have hle := (offer_spec (h.rows start stop) hnt).1.length_le
    rw [(offer_find? (h.rows start stop)).2.2, if_pos (Option.isNone_iff_eq_none.2 hnone)] at hle
    rw [← RowTable.length_get h.tidy.fit, h.stride_eq]
    exact hle
  obtain ⟨hdone, hrows⟩ := RowTable.update_spec (e := e) h.tidy hij hj (h.rows start stop).ascending hroom
  refine ⟨(c.rows.update start stop e).2, ?_, hrows⟩
  rw [update, if_pos hadm]
  exact Prod.ext hdone rfl

theorem update_of_not_admissible (hadm : Score.admissible e.inside = false) :
    c.update start stop e = (false, c) := by
  rw [update, hadm, if_neg Bool.false_ne_true]

/-- Entries in order are written to an empty cell as they are. -/
theorem write_spec (h : c.Sound g) (hij : start < stop) (hj : stop ≤ c.size)
    (hempty : c.row start stop = []) {entries : List (Entry α)}
    (hasc : entries.Pairwise fun a b => a.nonterminal < b.nonterminal)
    (hlt : ∀ e ∈ entries, e.nonterminal < g.numNonterminals) :
    c.rows.Replaces (c.write start stop entries).rows start stop (entries.map fresh) ∧
      (c.write start stop entries).Sound g := by
  have hrow := rowSound_fresh hasc hlt
  have hlength : entries.length ≤ c.rows.stride := by
    rw [h.stride_eq, ← List.length_map fresh]
    exact hrow.length_le
  have hcount : c.rows.count start stop = 0 := by
    rw [← RowTable.length_get h.tidy.fit]
    exact List.length_eq_zero_iff.2 hempty
  have hrows := RowTable.write_spec h.tidy hij hj hcount hlength
  exact ⟨hrows, sound_of_replaces h hrows hrow⟩

theorem sound_update (h : c.Sound g) (hij : start < stop) (hj : stop ≤ c.size)
    (hnt : e.nonterminal < g.numNonterminals) : (c.update start stop e).2.Sound g := by
  by_cases hadm : Score.admissible e.inside = true
  · obtain ⟨rows, hupdate, hrows⟩ := update_eq h hij hj hnt hadm
    rw [hupdate]
    exact sound_of_replaces h hrows (offer_spec (h.rows start stop) hnt).1
  · rwa [update_of_not_admissible (Bool.not_eq_true _ ▸ hadm)]

theorem size_update (h : c.Sound g) (hij : start < stop) (hj : stop ≤ c.size)
    (hnt : e.nonterminal < g.numNonterminals) : (c.update start stop e).2.size = c.size := by
  by_cases hadm : Score.admissible e.inside = true
  · obtain ⟨rows, hupdate, hrows⟩ := update_eq h hij hj hnt hadm
    rw [hupdate]
    exact hrows.size_eq
  · rw [update_of_not_admissible (Bool.not_eq_true _ ▸ hadm)]

theorem isPopulated_eq (h : c.Sound g) (start stop : Nat) :
    c.isPopulated start stop = !(c.row start stop).isEmpty := by
  rw [isPopulated, ← RowTable.length_get h.tidy.fit]
  show decide (0 < (c.row start stop).length) = _
  cases c.row start stop <;> rfl

theorem row_of_not_isPopulated (h : c.Sound g) (hnot : c.isPopulated start stop = false) :
    c.row start stop = [] := by
  rwa [isPopulated_eq h, Bool.not_eq_false', List.isEmpty_iff] at hnot

theorem get?_of_not_isPopulated (h : c.Sound g) (hnot : c.isPopulated start stop = false)
    (nt : NonTerminal) : c.get? start stop nt = none := by
  rw [get?_eq h, row_of_not_isPopulated h hnot]
  rfl

/-- A cell in which nothing is found is empty. -/
theorem row_of_get?_eq_none (h : c.Sound g) (hnone : ∀ A, c.get? start stop A = none) :
    c.row start stop = [] := by
  refine List.eq_nil_iff_forall_not_mem.2 fun x hx => ?_
  have hsome := (get?_eq_some_iff h (e := x.toEntry)).2 ⟨x, hx, rfl, rfl⟩
  rw [hnone] at hsome
  cases hsome

theorem get?_empty (size : Nat) (g : Grammar α) (i j : Nat) (nt : NonTerminal) :
    (empty size g).get? i j nt = none := by
  rw [get?_eq (sound_empty size g), row_empty]
  rfl

end PackedChart

end Constituency
