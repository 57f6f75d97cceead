import Constituency.Chart.RowTable
import Constituency.Proofs.Span

/-!
# Rows that share their arrays

The strides of a table do not overlap (`offset_inj`), and as long as no row is longer than its stride
(`Fit`) a row is read off its stride place by place (`getElem?_get`). Each of the writing operations is
known by the parts that it leaves at a place of the arrays, and a row in ascending order is searched
correctly (`search_spec`).
-/

namespace Constituency

theorem Backpointer.ofChildren_children (b : Backpointer) (stop : Nat) :
    ofChildren (b.midpoint stop) b.children = b := by
  cases b <;> rfl

/-! ## Rows as lists -/

namespace PackedChart

variable {α : Type}

/-- The entry of a non-terminal in a row. -/
def find? (row : List (PackedEntry α)) (nt : NonTerminal) : Option (PackedEntry α) :=
  row.find? (·.nonterminal == nt)

/-- An entry is found in its place, and hides none for another symbol. -/
theorem find?_middle {before : List (PackedEntry α)} {x : PackedEntry α}
    (hbefore : ∀ y ∈ before, y.nonterminal < x.nonterminal) (after : List (PackedEntry α))
    (A : NonTerminal) :
    find? (before ++ x :: after) A =
      if A = x.nonterminal then some x else find? (before ++ after) A := by
  rw [find?, List.find?_append, List.find?_cons, find?, List.find?_append]
  by_cases hA : A = x.nonterminal
  · have hnone : before.find? (·.nonterminal == A) = none :=
      List.find?_eq_none.2 fun y hy heq => Nat.ne_of_lt (hbefore y hy) ((beq_iff_eq.1 heq).trans hA)
    rw [if_pos hA, hnone, beq_iff_eq.2 hA.symm]
    rfl
  · rw [if_neg hA, beq_eq_false_iff_ne.2 (Ne.symm hA)]

/-- Nothing is found between the smaller entries and the greater ones. -/
theorem find?_place_eq_none {before after : List (PackedEntry α)} {A : NonTerminal}
    (hbefore : ∀ x ∈ before, x.nonterminal < A) (hafter : ∀ x ∈ after, A < x.nonterminal) :
    find? (before ++ after) A = none := by
  refine List.find?_eq_none.2 fun x hx heq => ?_
  rcases List.mem_append.1 hx with hx | hx
  · exact Nat.ne_of_lt (hbefore x hx) (beq_iff_eq.1 heq)
  · exact Nat.ne_of_gt (hafter x hx) (beq_iff_eq.1 heq)

variable [Score α] {e : Entry α}

/-- The entry with nothing known of its surroundings. -/
def fresh (e : Entry α) : PackedEntry α :=
  { e with outside := Score.impossible }

/-- The row with an entry put in its place, and whether the row has changed: the entry must have a
strictly higher score than the one it replaces, whose surroundings it takes over. -/
def offer (e : Entry α) : List (PackedEntry α) → Bool × List (PackedEntry α)
  | [] => (true, [fresh e])
  | x :: rest =>
    if e.nonterminal < x.nonterminal then (true, fresh e :: x :: rest)
    else if e.nonterminal == x.nonterminal then
      if x.inside < e.inside then (true, { x with toEntry := e } :: rest) else (false, x :: rest)
    else
      let (changed, rest) := offer e rest
      (changed, x :: rest)

/-- An entry goes behind those that come before it. -/
theorem offer_append {before after : List (PackedEntry α)}
    (hbefore : ∀ x ∈ before, x.nonterminal < e.nonterminal) :
    offer e (before ++ after) = ((offer e after).1, before ++ (offer e after).2) := by
  induction before with
  | nil => rfl
  | cons x rest ih =>
    have hx := hbefore x List.mem_cons_self
    have hne : ¬(e.nonterminal == x.nonterminal) = true := fun h =>
      Nat.ne_of_gt hx (beq_iff_eq.1 h)
    rw [List.cons_append, offer, if_neg (Nat.lt_asymm hx), if_neg hne,
      ih fun y hy => hbefore y (List.mem_cons_of_mem x hy)]
    rfl

/-- An entry goes in front of those that come after it. -/
theorem offer_of_lt {row : List (PackedEntry α)} (h : ∀ x ∈ row, e.nonterminal < x.nonterminal) :
    offer e row = (true, fresh e :: row) := by
  cases row with
  | nil => rfl
  | cons x rest => rw [offer, if_pos (h x List.mem_cons_self)]

/-- An entry replaces one for the same symbol if it is better. -/
theorem offer_cons_self {x : PackedEntry α} (hx : x.nonterminal = e.nonterminal)
    (rest : List (PackedEntry α)) :
    offer e (x :: rest) =
      if x.inside < e.inside then (true, { x with toEntry := e } :: rest)
      else (false, x :: rest) := by
  rw [offer, if_neg (hx ▸ Nat.lt_irrefl _), if_pos (beq_iff_eq.2 hx.symm)]

end PackedChart

namespace RowTable

variable {α : Type} {t t' : RowTable α} {i j k l m place stop : Nat} {nt : NonTerminal}
  {e : Entry α} {es : List (Entry α)}

/-! ## Places -/

/-- The number of places in each of the arrays. -/
abbrev length (t : RowTable α) : Nat := numCells t.size * t.stride

theorem parts?_of_lt (h : place < t.length) :
    t.parts? place = some
      ⟨t.nonterminals[place], t.inside[place], t.children[place], t.midpoints[place],
        t.outside[place]⟩ := by
  simp [parts?, Vector.getElem?_eq_getElem h]

theorem parts?_of_le (h : t.length ≤ place) : t.parts? place = none := by
  have hnone : t.nonterminals[place]? = none := Vector.getElem?_eq_none h
  simp [parts?, hnone]

theorem isSome_parts? : (t.parts? place).isSome = true ↔ place < t.length := by
  constructor
  · intro h
    by_contra hle
    rw [parts?_of_le (Nat.not_lt.1 hle)] at h
    cases h
  · intro h
    rw [parts?_of_lt h, Option.isSome_some]

theorem exists_entryAt? (h : place < t.length) : ∃ x, t.entryAt? place = some x := by
  rw [entryAt?, parts?_of_lt h]
  exact ⟨_, rfl⟩

theorem key_eq {x : PackedEntry α} (hx : t.entryAt? place = some x) :
    t.nonterminals.getD place 0 = x.nonterminal := by
  obtain ⟨p, hp, rfl⟩ := Option.map_eq_some_iff.1 hx
  have hlt := isSome_parts?.1 (Option.isSome_of_eq_some hp)
  rw [parts?_of_lt hlt, Option.some.injEq] at hp
  rw [← hp]
  show t.nonterminals.getD place 0 = t.nonterminals[place]
  simp [Vector.getD, hlt]

theorem inside_eq {x : PackedEntry α} (hx : t.entryAt? place = some x) :
    t.inside[place]? = some x.inside := by
  obtain ⟨p, hp, rfl⟩ := Option.map_eq_some_iff.1 hx
  have hlt := isSome_parts?.1 (Option.isSome_of_eq_some hp)
  rw [parts?_of_lt hlt, Option.some.injEq] at hp
  rw [← hp, Vector.getElem?_eq_getElem hlt]
  rfl

theorem outside_eq {x : PackedEntry α} (hx : t.entryAt? place = some x) :
    t.outside[place]? = some x.outside := by
  obtain ⟨p, hp, rfl⟩ := Option.map_eq_some_iff.1 hx
  have hlt := isSome_parts?.1 (Option.isSome_of_eq_some hp)
  rw [parts?_of_lt hlt, Option.some.injEq] at hp
  rw [← hp, Vector.getElem?_eq_getElem hlt]
  rfl

/-! ## Writing at one place -/

theorem parts?_store (t : RowTable α) (place stop : Nat) (e : Entry α) (k : Nat) :
    (t.store place stop e).parts? k =
      if k = place then (t.parts? k).map fun p =>
        ⟨e.nonterminal, e.inside, e.backpointer.children, e.backpointer.midpoint stop, p.outside⟩
      else t.parts? k := by
  by_cases hk : k < t.length
  · rw [parts?_of_lt (t := t.store place stop e) hk, parts?_of_lt hk]
    simp only [store, Vector.getElem_setIfInBounds]
    by_cases hplace : place = k
    · subst hplace
      simp
    · simp [hplace, Ne.symm hplace]
  · have hle := Nat.not_lt.1 hk
    rw [parts?_of_le (t := t.store place stop e) hle, parts?_of_le hle, Option.map_none, ite_self]

theorem parts?_setOutside (t : RowTable α) (place : Nat) (x : α) (k : Nat) :
    (t.setOutside place x).parts? k =
      if k = place then (t.parts? k).map fun p => { p with outside := x } else t.parts? k := by
  by_cases hk : k < t.length
  · rw [parts?_of_lt (t := t.setOutside place x) hk, parts?_of_lt hk]
    simp only [setOutside, Vector.getElem_setIfInBounds]
    by_cases hplace : place = k
    · subst hplace
      simp
    · simp [hplace, Ne.symm hplace]
  · have hle := Nat.not_lt.1 hk
    rw [parts?_of_le (t := t.setOutside place x) hle, parts?_of_le hle, Option.map_none, ite_self]

theorem parts?_put (t : RowTable α) (place : Nat) (p : PackedParts α) (k : Nat) :
    (t.put place p).parts? k =
      if k = place ∧ k < t.length then some p else t.parts? k := by
  by_cases hk : k < t.length
  · rw [parts?_of_lt (t := t.put place p) hk, parts?_of_lt hk]
    simp only [put, Vector.getElem_setIfInBounds]
    by_cases hplace : place = k
    · subst hplace
      simp [hk]
    · simp [hplace, Ne.symm hplace]
  · have hle := Nat.not_lt.1 hk
    rw [if_neg fun h => hk h.2, parts?_of_le (t := t.put place p) hle, parts?_of_le hle]

/-- Nothing but the parts of entries is changed. -/
structure SameShape (t t' : RowTable α) : Prop where
  size_eq : t'.size = t.size
  stride_eq : t'.stride = t.stride
  counts_eq : t'.counts.toArray = t.counts.toArray
  total_eq : t'.total = t.total

theorem SameShape.refl (t : RowTable α) : SameShape t t := ⟨rfl, rfl, rfl, rfl⟩

theorem SameShape.trans {t'' : RowTable α} (h : SameShape t t') (h' : SameShape t' t'') :
    SameShape t t'' :=
  ⟨h'.size_eq.trans h.size_eq, h'.stride_eq.trans h.stride_eq, h'.counts_eq.trans h.counts_eq,
    h'.total_eq.trans h.total_eq⟩

theorem sameShape_moveUp (t : RowTable α) (place : Nat) : SameShape t (t.moveUp place) := by
  unfold moveUp
  split <;> exact ⟨rfl, rfl, rfl, rfl⟩

theorem parts?_moveUp (t : RowTable α) (place k : Nat) :
    (t.moveUp place).parts? k =
      if k = place + 1 ∧ k < t.length then t.parts? place else t.parts? k := by
  unfold moveUp
  cases hp : t.parts? place with
  | none =>
    have hle : ¬ place < t.length := fun h => by
      rw [parts?_of_lt h] at hp
      cases hp
    rw [if_neg (by omega)]
  | some p => exact parts?_put t (place + 1) p k

/-- The parts of so many entries stand one place further up. -/
theorem parts?_shift (t : RowTable α) (first size k : Nat) :
    SameShape t (t.shift first size) ∧
      (t.shift first size).parts? k =
        if first < k ∧ k ≤ first + size ∧ k < t.length then t.parts? (k - 1) else t.parts? k := by
  induction size generalizing t k with
  | zero => exact ⟨.refl t, by rw [if_neg (by omega)]; rfl⟩
  | succ size ih =>
    have hshape := sameShape_moveUp t (first + size)
    have hlength : (t.moveUp (first + size)).length = t.length := by
      rw [length, hshape.size_eq, hshape.stride_eq]
    refine ⟨hshape.trans (ih (t.moveUp (first + size)) k).1, ?_⟩
    rw [shift, (ih (t.moveUp (first + size)) k).2, parts?_moveUp, parts?_moveUp, hlength]
    by_cases hk : first < k ∧ k ≤ first + size ∧ k < t.length
    · rw [if_pos hk, if_neg (show ¬(k - 1 = first + size + 1 ∧ _) by omega),
        if_pos (show first < k ∧ k ≤ first + (size + 1) ∧ _ by omega)]
    · rw [if_neg hk]
      by_cases hlast : k = first + size + 1 ∧ k < t.length
      · rw [if_pos hlast, if_pos (show first < k ∧ k ≤ first + (size + 1) ∧ _ by omega), hlast.1,
          Nat.add_sub_cancel]
      · rw [if_neg hlast, if_neg (show ¬(first < k ∧ k ≤ first + (size + 1) ∧ _) by omega)]

/-- Entries written one behind the other stand there in the same order. -/
theorem parts?_storeAll (t : RowTable α) (place stop : Nat) (es : List (Entry α)) (k : Nat) :
    SameShape t (t.storeAll place stop es) ∧
      (t.storeAll place stop es).parts? k =
        if place ≤ k then
          match es[k - place]? with
          | some e => (t.parts? k).map fun p =>
            ⟨e.nonterminal, e.inside, e.backpointer.children, e.backpointer.midpoint stop, p.outside⟩
          | none => t.parts? k
        else t.parts? k := by
  induction es generalizing t place with
  | nil => exact ⟨.refl t, by simp [storeAll]⟩
  | cons e rest ih =>
    obtain ⟨hshape, hparts⟩ := ih (t.store place stop e) (place + 1)
    have hstore : SameShape t (t.store place stop e) := ⟨rfl, rfl, rfl, rfl⟩
    refine ⟨hstore.trans hshape, ?_⟩
    rw [storeAll, hparts, parts?_store]
    rcases Nat.lt_trichotomy place k with hlt | rfl | hgt
    · obtain ⟨m, rfl⟩ : ∃ m, k = place + 1 + m := ⟨k - (place + 1), by omega⟩
      rw [if_pos (by omega), if_neg (by omega), if_pos (by omega), Nat.add_sub_cancel_left,
        show place + 1 + m - place = m + 1 by omega, List.getElem?_cons_succ]
    · rw [if_neg (by omega), if_pos rfl, if_pos (Nat.le_refl _), Nat.sub_self,
        List.getElem?_cons_zero]
    · rw [if_neg (by omega), if_neg (by omega), if_neg (by omega)]

/-! ## Cells -/

theorem covers_iff : t.covers i j = true ↔ i < j ∧ j ≤ t.size := by
  simp [covers]

theorem counts_eq (hij : i < j) (hj : j ≤ t.size) :
    t.counts[cellIndex i j t.size]? = some (t.count i j) := by
  have hlt := cellIndex_lt hij hj
  rw [count, if_pos (covers_iff.2 ⟨hij, hj⟩), Vector.getElem?_eq_getElem hlt]
  simp [Vector.getD, hlt]

theorem count_of_not_covers (h : ¬(i < j ∧ j ≤ t.size)) : t.count i j = 0 := by
  rw [count, if_neg (covers_iff.not.2 h)]

theorem count_make [Score α] (size stride i j : Nat) :
    (make (α := α) size stride).count i j = 0 := by
  by_cases h : i < j ∧ j ≤ size
  · have hcount := counts_eq (t := make (α := α) size stride) h.1 h.2
    rw [make, Vector.getElem?_replicate, if_pos (cellIndex_lt h.1 h.2)] at hcount
    exact (Option.some.inj hcount).symm
  · exact count_of_not_covers h

theorem offset_add_lt (hij : i < j) (hj : j ≤ t.size) (hm : m < t.stride) :
    t.offset i j + m < t.length :=
  cellIndex_mul_add_lt hij hj hm

theorem offset_inj {n : Nat} (hij : i < j) (hj : j ≤ t.size) (hkl : k < l) (hl : l ≤ t.size)
    (hm : m < t.stride) (hn : n < t.stride) (h : t.offset i j + m = t.offset k l + n) :
    (i = k ∧ j = l) ∧ m = n :=
  cellIndex_mul_add_inj hij hj hkl hl hm hn h

/-- Every place belongs to a cell. -/
theorem exists_offset_add (h : place < t.length) :
    ∃ i j m, (i < j ∧ j ≤ t.size) ∧ m < t.stride ∧ place = t.offset i j + m := by
  obtain ⟨i, j, m, hij, hm, hplace⟩ := exists_cellIndex_mul_add_eq h
  exact ⟨i, j, m, hij, hm, hplace.symm⟩

/-- No row is longer than its stride. -/
def Fit (t : RowTable α) : Prop :=
  ∀ i j, t.count i j ≤ t.stride

theorem getElem?_filterMap {β γ : Type} {f : β → Option γ} {xs : List β}
    (h : ∀ x ∈ xs, (f x).isSome = true) (m : Nat) : (xs.filterMap f)[m]? = xs[m]?.bind f := by
  induction xs generalizing m with
  | nil => rfl
  | cons x rest ih =>
    obtain ⟨y, hy⟩ := Option.isSome_iff_exists.1 (h x List.mem_cons_self)
    rw [List.filterMap_cons_some hy]
    cases m with
    | zero => exact hy.symm
    | succ m => exact ih (fun x' hx' => h x' (List.mem_cons_of_mem x hx')) m

/-- A row is read off its stride place by place. -/
theorem getElem?_get (h : t.Fit) (i j m : Nat) :
    (t.get i j)[m]? = if m < t.count i j then t.entryAt? (t.offset i j + m) else none := by
  have hplaces : ∀ place ∈ List.range' (t.offset i j) (t.count i j),
      (t.entryAt? place).isSome = true := by
    intro place hplace
    rw [List.mem_range'_1] at hplace
    by_cases hcov : i < j ∧ j ≤ t.size
    · obtain ⟨m, rfl⟩ := Nat.exists_eq_add_of_le hplace.1
      have hfit := h i j
      obtain ⟨x, hx⟩ := exists_entryAt? (offset_add_lt hcov.1 hcov.2 (show m < t.stride by omega))
      rw [hx, Option.isSome_some]
    · rw [count_of_not_covers hcov] at hplace
      omega
  rw [get, getElem?_filterMap hplaces]
  split
  · next hm => rw [List.getElem?_range' hm, Nat.one_mul, Option.bind_some]
  · next hm =>
    rw [List.getElem?_eq_none (by rw [List.length_range']; omega), Option.bind_none]

theorem length_get (h : t.Fit) (i j : Nat) : (t.get i j).length = t.count i j := by
  refine Nat.le_antisymm (Nat.not_lt.1 fun hlt => ?_) (Nat.not_lt.1 fun hlt => ?_)
  · have hsome := getElem?_get h i j (t.count i j)
    rw [if_neg (Nat.lt_irrefl _), List.getElem?_eq_getElem hlt] at hsome
    cases hsome
  · have hnone := getElem?_get h i j (t.get i j).length
    by_cases hcov : i < j ∧ j ≤ t.size
    · have hfit := h i j
      obtain ⟨x, hx⟩ := exists_entryAt?
        (offset_add_lt hcov.1 hcov.2 (show (t.get i j).length < t.stride by omega))
      rw [if_pos hlt, List.getElem?_eq_none (Nat.le_refl _), hx] at hnone
      cases hnone
    · rw [count_of_not_covers hcov] at hlt
      exact Nat.not_lt_zero _ hlt

theorem get_of_not_covers (h : ¬(i < j ∧ j ≤ t.size)) : t.get i j = [] := by
  rw [get, count_of_not_covers h]
  rfl

/-! ## Searching -/

/-- In a stretch in ascending order, what is before the place found comes before the symbol, and what is
behind it comes after the symbol. -/
theorem lastNotAfter_spec {n : Nat} (keys : Vector NonTerminal n) (nt first size : Nat)
    (hsize : 0 < size) (hasc : ∀ a b, first ≤ a → a < b → b < first + size →
      keys.getD a 0 < keys.getD b 0) :
    (first ≤ lastNotAfter keys nt first size ∧ lastNotAfter keys nt first size < first + size) ∧
      (∀ a, first ≤ a → a < lastNotAfter keys nt first size → keys.getD a 0 < nt) ∧
      ∀ b, lastNotAfter keys nt first size < b → b < first + size → nt < keys.getD b 0 := by
  fun_induction lastNotAfter keys nt first size with
  | case1 first size hone => exact ⟨by omega, fun a _ _ => by omega, fun b _ _ => by omega⟩
  | case2 first size hmany middle ih =>
    have hmiddle : middle = first + size / 2 := rfl
    by_cases hnt : nt < keys.getD middle 0
    · simp only [hnt, if_true, dite_eq_ite] at ih ⊢
      obtain ⟨hin, hbefore, hbehind⟩ := ih (by omega)
        fun a b ha hab hb => hasc a b ha hab (by omega)
      refine ⟨by omega, hbefore, fun b hb hlt => ?_⟩
      rcases Nat.lt_or_ge b (first + (size - size / 2)) with hnear | hfar
      · exact hbehind b hb hnear
      · rcases Nat.eq_or_lt_of_le (show middle ≤ b by omega) with rfl | hlater
        · exact hnt
        · exact Nat.lt_trans hnt (hasc middle b (by omega) hlater hlt)
    · simp only [hnt, if_false, dite_eq_ite] at ih ⊢
      obtain ⟨hin, hbefore, hbehind⟩ := ih (by omega)
        fun a b ha hab hb => hasc a b (by omega) hab (by omega)
      refine ⟨by omega, fun a ha hlt => ?_, fun b hb hlt => hbehind b hb (by omega)⟩
      rcases Nat.lt_or_ge a middle with hnear | hfar
      · exact Nat.lt_of_lt_of_le (hasc a middle ha hnear (by omega)) (Nat.not_lt.1 hnt)
      · exact hbefore a hfar hlt

/-- The entry of a row that so many others come before stands so far behind the start of the stride. -/
theorem entryAt?_of_row (h : t.Fit) {before after : List (PackedEntry α)} {x : PackedEntry α}
    (row : t.get i j = before ++ x :: after) :
    t.entryAt? (t.offset i j + before.length) = some x := by
  have hx := getElem?_get h i j before.length
  have hlength := length_get h i j
  rw [row, List.length_append, List.length_cons] at hlength
  rw [row, List.getElem?_append_right (Nat.le_refl _), Nat.sub_self, List.getElem?_cons_zero,
    if_pos (by omega)] at hx
  exact hx.symm

/-- The row of a cell is in ascending order. -/
def Ascending (t : RowTable α) (i j : Nat) : Prop :=
  (t.get i j).Pairwise fun a b => a.nonterminal < b.nonterminal

theorem key_offset_add (h : t.Fit) (hm : m < (t.get i j).length) :
    t.nonterminals.getD (t.offset i j + m) 0 = (t.get i j)[m].nonterminal := by
  have hx := getElem?_get h i j m
  rw [List.getElem?_eq_getElem hm, if_pos (length_get h i j ▸ hm)] at hx
  exact key_eq hx.symm

/-- What a search for a symbol in a row comes to: its place, or the place where it belongs. -/
inductive Searched (t : RowTable α) (i j : Nat) (nt : NonTerminal) : Except Nat Nat → Prop
  | found {before after : List (PackedEntry α)} {x : PackedEntry α}
      (row : t.get i j = before ++ x :: after) (same : x.nonterminal = nt)
      (earlier : ∀ y ∈ before, y.nonterminal < nt) (later : ∀ y ∈ after, nt < y.nonterminal) :
      Searched t i j nt (.ok (t.offset i j + before.length))
  | missing {before after : List (PackedEntry α)} (row : t.get i j = before ++ after)
      (earlier : ∀ y ∈ before, y.nonterminal < nt) (later : ∀ y ∈ after, nt < y.nonterminal) :
      Searched t i j nt (.error (t.offset i j + before.length))

/-- A row in ascending order is searched correctly. -/
theorem search_spec (h : t.Fit) (hasc : t.Ascending i j) (nt : NonTerminal) :
    Searched t i j nt (t.search i j nt) := by
  have hlength := length_get h i j
  unfold search
  dsimp only
  by_cases hzero : t.count i j = 0
  · rw [if_pos (beq_iff_eq.2 hzero)]
    have hrow : t.get i j = [] ++ [] := List.length_eq_zero_iff.1 (hlength.trans hzero)
    exact .missing hrow (fun y hy => absurd hy List.not_mem_nil)
      fun y hy => absurd hy List.not_mem_nil
  · rw [if_neg (beq_iff_eq.not.2 hzero), ← hlength]
    have hkeys : ∀ a b, t.offset i j ≤ a → a < b → b < t.offset i j + (t.get i j).length →
        t.nonterminals.getD a 0 < t.nonterminals.getD b 0 := by
      intro a b ha hab hb
      obtain ⟨a, rfl⟩ := Nat.exists_eq_add_of_le ha
      obtain ⟨b, rfl⟩ := Nat.exists_eq_add_of_le (Nat.le_trans ha (Nat.le_of_lt hab))
      rw [key_offset_add h (by omega), key_offset_add h (by omega)]
      exact List.pairwise_iff_getElem.1 hasc a b (by omega) (by omega) (by omega)
    obtain ⟨⟨hfirst, hlast⟩, hbefore, hbehind⟩ :=
      lastNotAfter_spec t.nonterminals nt (t.offset i j) (t.get i j).length (by omega) hkeys
    generalize lastNotAfter t.nonterminals nt (t.offset i j) (t.get i j).length = place
      at hfirst hlast hbefore hbehind ⊢
    obtain ⟨m, rfl⟩ := Nat.exists_eq_add_of_le hfirst
    have hm : m < (t.get i j).length := by omega
    have hsplit : t.get i j = (t.get i j).take m ++ (t.get i j)[m] :: (t.get i j).drop (m + 1) := by
      rw [← List.drop_eq_getElem_cons hm, List.take_append_drop]
    have htake : ((t.get i j).take m).length = m := by
      rw [List.length_take]
      omega
    have hearlier : ∀ y ∈ (t.get i j).take m, y.nonterminal < nt := by
      intro y hy
      obtain ⟨a, ha, rfl⟩ := List.mem_take_iff_getElem.1 hy
      rw [← key_offset_add h (by omega)]
      exact hbefore _ (by omega) (by omega)
    have hlater : ∀ y ∈ (t.get i j).drop (m + 1), nt < y.nonterminal := by
      intro y hy
      obtain ⟨b, hb, rfl⟩ := List.mem_drop_iff_getElem.1 hy
      rw [← key_offset_add h (by omega)]
      exact hbehind _ (by omega) (by omega)
    rw [key_offset_add h hm]
    rcases Nat.lt_trichotomy (t.get i j)[m].nonterminal nt with hlt | heq | hgt
    · rw [if_neg (beq_iff_eq.not.2 (Nat.ne_of_lt hlt)), if_pos hlt]
      rw [List.append_cons] at hsplit
      have hmissing := Searched.missing hsplit (fun y hy => by
        rcases List.mem_append.1 hy with hy | hy
        · exact hearlier y hy
        · rwa [List.mem_singleton.1 hy]) hlater
      rwa [List.length_append, htake] at hmissing
    · rw [if_pos (beq_iff_eq.2 heq)]
      have hfound := Searched.found hsplit heq hearlier hlater
      rwa [htake] at hfound
    · rw [if_neg (beq_iff_eq.not.2 (Nat.ne_of_gt hgt)), if_neg (Nat.lt_asymm hgt)]
      have hmissing := Searched.missing hsplit hearlier fun y hy => by
        rcases List.mem_cons.1 hy with rfl | hy
        · exact hgt
        · exact hlater y hy
      rwa [htake] at hmissing

/-- What is found in a row is the entry for the symbol, if it has one. -/
theorem find?_eq (h : t.Fit) (hasc : t.Ascending i j) (nt : NonTerminal) :
    t.find? i j nt = PackedChart.find? (t.get i j) nt := by
  have hsearch := search_spec h hasc nt
  rw [find?]
  generalize t.search i j nt = result at hsearch ⊢
  cases hsearch with
  | @found before after x row same earlier later =>
    rw [row, PackedChart.find?_middle (same ▸ earlier), if_pos same.symm]
    exact entryAt?_of_row h row
  | missing row earlier later =>
    rw [row, PackedChart.find?_place_eq_none earlier later]

end RowTable

end Constituency
