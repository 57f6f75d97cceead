import Constituency.Proofs.Chart.RowTable
import Mathlib.Algebra.BigOperators.Group.List.Basic

/-!
# Rows and what stands behind them

A table is tidy if each stride holds the entries of its row, in their order, and nothing has ever been
written behind them (`RowTable.Tidy`). What is done to a cell of a tidy table is known by the row that it
has afterwards (`RowTable.Replaces`): what an insertion does to five arrays at once is what it does to a
list of entries (`update_spec`), and so for the other operations. A tidy table is known by its rows
(`Tidy.eq_of_get_eq`).
-/

namespace Constituency

namespace PackedParts

variable {α : Type}

/-- The parts of an entry of a cell that ends at `stop`. -/
def of (stop : Nat) (x : PackedEntry α) : PackedParts α where
  nonterminal := x.nonterminal
  inside := x.inside
  children := x.backpointer.children
  midpoint := x.backpointer.midpoint stop
  outside := x.outside

theorem entry_of (stop : Nat) (x : PackedEntry α) : (of stop x).entry = x := by
  simp only [of, entry, Backpointer.ofChildren_children]

variable [Score α]

/-- What stands at a place that has not been used. -/
def blank : PackedParts α where
  nonterminal := 0
  inside := Score.impossible
  children := .unary 0
  midpoint := 0
  outside := Score.impossible

/-- What stands at the places of a cell that ends at `stop`: the parts of its entries, and nothing behind
them. -/
def placed (stop : Nat) (row : List (PackedEntry α)) (m : Nat) : PackedParts α :=
  match row[m]? with
  | some x => of stop x
  | none => blank

theorem placed_append_left {m : Nat} (stop : Nat) (before after after' : List (PackedEntry α))
    (hm : m < before.length) : placed stop (before ++ after) m = placed stop (before ++ after') m := by
  rw [placed, placed, List.getElem?_append_left hm, List.getElem?_append_left hm]

theorem placed_append_right (stop : Nat) (before after : List (PackedEntry α)) (m : Nat) :
    placed stop (before ++ after) (before.length + m) = placed stop after m := by
  rw [placed, placed, List.getElem?_append_right (Nat.le_add_right _ _), Nat.add_sub_cancel_left]

theorem placed_cons_succ (stop : Nat) (x : PackedEntry α) (row : List (PackedEntry α)) (m : Nat) :
    placed stop (x :: row) (m + 1) = placed stop row m := rfl

end PackedParts

namespace RowTable

variable {α : Type} {t t' : RowTable α} {i j k l m place stop : Nat} {nt : NonTerminal}
  {e : Entry α} {es : List (Entry α)} {row : List (PackedEntry α)}

open PackedParts (placed)

/-! ## The same shape -/

theorem count_of_shape (h : SameShape t t') (i j : Nat) : t'.count i j = t.count i j := by
  have hcovers : t'.covers i j = t.covers i j := by rw [covers, covers, h.size_eq]
  rw [count, count, hcovers]
  show (if _ then t'.counts.toArray.getD _ 0 else 0) = if _ then t.counts.toArray.getD _ 0 else 0
  rw [h.counts_eq, h.size_eq]

theorem count_recount (hij : i < j) (hj : j ≤ t.size) (count total k l : Nat) :
    (t.recount i j count total).count k l = if k = i ∧ l = j then count else t.count k l := by
  by_cases hkl : k < l ∧ l ≤ t.size
  · have hcounts : (t.counts.setIfInBounds (cellIndex i j t.size) count)[cellIndex k l t.size]? =
        some ((t.recount i j count total).count k l) :=
      counts_eq (t := t.recount i j count total) hkl.1 hkl.2
    rw [Vector.getElem?_setIfInBounds, counts_eq hkl.1 hkl.2] at hcounts
    by_cases heq : k = i ∧ l = j
    · obtain ⟨rfl, rfl⟩ := heq
      rw [if_pos rfl, if_pos (cellIndex_lt hij hj)] at hcounts
      rw [if_pos ⟨rfl, rfl⟩]
      exact (Option.some.inj hcounts).symm
    · have hne : ¬ cellIndex i j t.size = cellIndex k l t.size := fun h =>
        heq (cellIndex_inj hkl.1 hkl.2 hij hj h.symm)
      rw [if_neg hne] at hcounts
      rw [if_neg heq]
      exact (Option.some.inj hcounts).symm
  · rw [if_neg (by rintro ⟨rfl, rfl⟩; exact hkl ⟨hij, hj⟩), count_of_not_covers hkl]
    exact count_of_not_covers hkl

theorem getElem?_counts {n : Nat} (hsize : t.size = n) (hij : i < j) (hj : j ≤ n) :
    t.counts.toList[cellIndex i j n]? = some (t.count i j) := by
  subst hsize
  rw [Vector.getElem?_toList, counts_eq hij hj]

/-- The numbers of live places after one of them has changed. -/
theorem sum_counts (hij : i < j) (hj : j ≤ t.size) (hsize : t'.size = t.size) {count : Nat}
    (hcount : ∀ k l, t'.count k l = if k = i ∧ l = j then count else t.count k l) :
    t'.counts.toList.sum + t.count i j = t.counts.toList.sum + count := by
  have hlt : cellIndex i j t.size < t.counts.toList.length := by
    rw [Vector.length_toList]
    exact cellIndex_lt hij hj
  have hold := getElem?_counts rfl hij hj
  rw [List.getElem?_eq_getElem hlt, Option.some.injEq] at hold
  have hlist : t'.counts.toList = t.counts.toList.set (cellIndex i j t.size) count := by
    refine List.ext_getElem? fun n => ?_
    by_cases hn : n < numCells t.size
    · obtain ⟨k, l, hkl, hl, rfl⟩ := exists_cellIndex_eq hn
      rw [getElem?_counts hsize hkl hl, List.getElem?_set, if_pos hlt, getElem?_counts rfl hkl hl,
        hcount]
      by_cases heq : k = i ∧ l = j
      · obtain ⟨rfl, rfl⟩ := heq
        rw [if_pos ⟨rfl, rfl⟩, if_pos rfl]
      · rw [if_neg heq, if_neg fun h => heq (cellIndex_inj hkl hl hij hj h.symm)]
    · rw [List.getElem?_eq_none (by rw [Vector.length_toList, hsize]; omega),
        List.getElem?_eq_none (by rw [List.length_set, Vector.length_toList]; omega)]
  have hsplit := List.sum_take_add_sum_drop t.counts.toList (cellIndex i j t.size)
  rw [List.drop_eq_getElem_cons hlt, List.sum_cons, hold] at hsplit
  rw [hlist, List.sum_set, if_pos hlt]
  omega

/-! ## Tidy tables -/

/-- The stride of every cell holds the entries of its row, and nothing behind them. -/
structure Tidy [Score α] (t : RowTable α) : Prop where
  fit : t.Fit
  parts?_eq : ∀ i j m, i < j → j ≤ t.size → m < t.stride →
    t.parts? (t.offset i j + m) = some (placed j (t.get i j) m)
  total_eq : t.total = t.counts.toList.sum

/-- One cell has a new row. -/
structure Replaces [Score α] (t t' : RowTable α) (i j : Nat) (row : List (PackedEntry α)) : Prop where
  size_eq : t'.size = t.size
  stride_eq : t'.stride = t.stride
  tidy : t'.Tidy
  get_self : t'.get i j = row
  get_eq : ∀ k l, ¬(k = i ∧ l = j) → t'.get k l = t.get k l
  total_eq : t'.total + (t.get i j).length = t.total + row.length

/-- A row whose places are left alone stays as it is. -/
theorem get_congr (hoffset : t'.offset i j = t.offset i j) (hcount : t'.count i j = t.count i j)
    (hparts : ∀ m < t.count i j, t'.parts? (t.offset i j + m) = t.parts? (t.offset i j + m)) :
    t'.get i j = t.get i j := by
  rw [get, get, hoffset, hcount]
  refine List.filterMap_congr fun place hplace => ?_
  rw [List.mem_range'_1] at hplace
  obtain ⟨m, rfl⟩ := Nat.exists_eq_add_of_le hplace.1
  rw [entryAt?, entryAt?, hparts m (by omega)]

variable [Score α]

theorem tidy_make (size stride : Nat) : (make (α := α) size stride).Tidy where
  fit i j := by
    rw [count_make]
    exact Nat.zero_le _
  parts?_eq i j m hij hj hm := by
    have hget : (make (α := α) size stride).get i j = [] := by
      rw [get, count_make]
      rfl
    rw [hget, parts?_of_lt (offset_add_lt hij hj hm)]
    simp [make, placed, PackedParts.blank]
  total_eq := by simp [make]

/-- What is written into the stride of one cell alone gives that cell a new row. -/
theorem replaces_of (h : t.Tidy) (hij : i < j) (hj : j ≤ t.size) (hsize : t'.size = t.size)
    (hstride : t'.stride = t.stride) (hlength : row.length ≤ t.stride)
    (hcount : ∀ k l, t'.count k l = if k = i ∧ l = j then row.length else t.count k l)
    (htotal : t'.total + t.count i j = t.total + row.length)
    (hself : ∀ m < t.stride, t'.parts? (t.offset i j + m) = some (placed j row m))
    (hother : ∀ k, (∀ m < t.stride, k ≠ t.offset i j + m) → t'.parts? k = t.parts? k) :
    Replaces t t' i j row := by
  have hfit : t'.Fit := by
    intro k l
    rw [hcount, hstride]
    split
    · exact hlength
    · exact h.fit k l
  have hoffset : ∀ k l, t'.offset k l = t.offset k l := by
    intro k l
    rw [offset, offset, hsize, hstride]
  have hplace : ∀ k l m, k < l → l ≤ t.size → m < t.stride → ¬(k = i ∧ l = j) →
      t'.parts? (t.offset k l + m) = t.parts? (t.offset k l + m) := fun k l m hkl hl hm hne =>
    hother _ fun n hn heq => hne (offset_inj hkl hl hij hj hm hn heq).1
  have hcell : t'.count i j = row.length := by rw [hcount, if_pos ⟨rfl, rfl⟩]
  have hget : t'.get i j = row := by
    refine List.ext_getElem? fun m => ?_
    rw [getElem?_get hfit, hcell, hoffset]
    split
    · next hm =>
      rw [entryAt?, hself m (Nat.lt_of_lt_of_le hm hlength), placed, List.getElem?_eq_getElem hm,
        Option.map_some, PackedParts.entry_of]
    · next hm => rw [List.getElem?_eq_none (Nat.not_lt.1 hm)]
  have hrest : ∀ k l, ¬(k = i ∧ l = j) → t'.get k l = t.get k l := by
    intro k l hne
    refine get_congr (hoffset k l) (by rw [hcount, if_neg hne]) fun m hm => ?_
    by_cases hkl : k < l ∧ l ≤ t.size
    · exact hplace k l m hkl.1 hkl.2 (Nat.lt_of_lt_of_le hm (h.fit k l)) hne
    · rw [count_of_not_covers hkl] at hm
      exact absurd hm (Nat.not_lt_zero m)
  refine ⟨hsize, hstride, ⟨hfit, fun k l m hkl hl hm => ?_, ?_⟩, hget, hrest, ?_⟩
  · rw [hoffset]
    rw [hsize] at hl
    rw [hstride] at hm
    by_cases heq : k = i ∧ l = j
    · obtain ⟨rfl, rfl⟩ := heq
      rw [hself m hm, hget]
    · rw [hplace k l m hkl hl hm heq, h.parts?_eq k l m hkl hl hm, hrest k l heq]
  · have hsum := sum_counts hij hj hsize hcount
    rw [← h.total_eq] at hsum
    omega
  · rw [length_get h.fit]
    exact htotal

/-- The same where no row changes its length. -/
theorem replaces_of_shape (h : t.Tidy) (hij : i < j) (hj : j ≤ t.size) (hshape : SameShape t t')
    (hlength : row.length = (t.get i j).length)
    (hself : ∀ m < t.stride, t'.parts? (t.offset i j + m) = some (placed j row m))
    (hother : ∀ k, (∀ m < t.stride, k ≠ t.offset i j + m) → t'.parts? k = t.parts? k) :
    Replaces t t' i j row := by
  rw [length_get h.fit] at hlength
  refine replaces_of h hij hj hshape.size_eq hshape.stride_eq (hlength ▸ h.fit i j) (fun k l => ?_)
    (by rw [hshape.total_eq, hlength]) hself hother
  rw [count_of_shape hshape]
  split
  · next heq => rw [heq.1, heq.2, hlength]
  · rfl

theorem Replaces.refl (h : t.Tidy) (i j : Nat) : Replaces t t i j (t.get i j) :=
  ⟨rfl, rfl, h, rfl, fun _ _ _ => rfl, rfl⟩

theorem Replaces.trans {t'' : RowTable α} {row' : List (PackedEntry α)}
    (h : Replaces t t' i j row) (h' : Replaces t' t'' i j row') : Replaces t t'' i j row' where
  size_eq := h'.size_eq.trans h.size_eq
  stride_eq := h'.stride_eq.trans h.stride_eq
  tidy := h'.tidy
  get_self := h'.get_self
  get_eq k l hne := (h'.get_eq k l hne).trans (h.get_eq k l hne)
  total_eq := by
    have hfirst := h.total_eq
    have hsecond := h'.total_eq
    rw [h.get_self] at hsecond
    omega

/-- Nothing is written outside of the stride of the cell. -/
theorem Replaces.parts?_eq (h : t.Tidy) (hrows : Replaces t t' i j row)
    (hplace : ∀ m < t.stride, place ≠ t.offset i j + m) : t'.parts? place = t.parts? place := by
  by_cases hlt : place < t.length
  · obtain ⟨k, l, m, ⟨hkl, hl⟩, hm, rfl⟩ := exists_offset_add hlt
    have hne : ¬(k = i ∧ l = j) := by
      rintro ⟨rfl, rfl⟩
      exact hplace m hm rfl
    have hoffset : t.offset k l = t'.offset k l := by
      rw [offset, offset, hrows.size_eq, hrows.stride_eq]
    rw [h.parts?_eq k l m hkl hl hm, hoffset, hrows.tidy.parts?_eq k l m hkl (hrows.size_eq ▸ hl)
      (hrows.stride_eq ▸ hm), hrows.get_eq k l hne]
  · have hlength : t'.length = t.length := by rw [length, length, hrows.size_eq, hrows.stride_eq]
    rw [parts?_of_le (Nat.not_lt.1 hlt), parts?_of_le (hlength ▸ Nat.not_lt.1 hlt)]

/-! ## Rows after writing -/

/-- A change to the parts of one entry is seen in its row. -/
theorem change_spec (h : t.Tidy) (hshape : SameShape t t') (hij : i < j) (hj : j ≤ t.size)
    {before after : List (PackedEntry α)} {x x' : PackedEntry α}
    (hrow : t.get i j = before ++ x :: after) {change : PackedParts α → PackedParts α}
    (hparts : ∀ k, t'.parts? k =
      if k = t.offset i j + before.length then (t.parts? k).map change else t.parts? k)
    (hchange : change (.of j x) = .of j x') :
    Replaces t t' i j (before ++ x' :: after) := by
  have hlength : before.length < t.stride := by
    have hle := h.fit i j
    rw [← length_get h.fit, hrow, List.length_append, List.length_cons] at hle
    omega
  refine replaces_of_shape h hij hj hshape (by rw [hrow]; simp) (fun m hm => ?_) fun k hk => ?_
  · rw [hparts, h.parts?_eq i j m hij hj hm, hrow]
    rcases Nat.lt_trichotomy m before.length with hlt | rfl | hgt
    · rw [if_neg (by omega), PackedParts.placed_append_left j before _ _ hlt]
    · rw [if_pos rfl, ← Nat.add_zero before.length, PackedParts.placed_append_right,
        PackedParts.placed_append_right]
      exact congrArg some hchange
    · obtain ⟨n, rfl⟩ := Nat.exists_eq_add_of_lt hgt
      rw [if_neg (by omega), Nat.add_assoc, PackedParts.placed_append_right,
        PackedParts.placed_append_right, PackedParts.placed_cons_succ, PackedParts.placed_cons_succ]
  · rw [hparts, if_neg (hk before.length hlength)]

theorem sameShape_insert (t : RowTable α) (place stop size : Nat) (e : Entry α) :
    SameShape t (t.insert place stop size e) := by
  have hstored : SameShape (t.shift place size) (t.insert place stop size e) := ⟨rfl, rfl, rfl, rfl⟩
  exact (parts?_shift t place size 0).1.trans hstored

theorem parts?_insert (t : RowTable α) (place stop size : Nat) (e : Entry α) (k : Nat) :
    (t.insert place stop size e).parts? k =
      if k = place then (t.parts? k).map fun _ => .of stop (PackedChart.fresh e)
      else if place < k ∧ k ≤ place + size ∧ k < t.length then t.parts? (k - 1)
      else t.parts? k := by
  rw [insert, parts?_setOutside, parts?_store, (parts?_shift t place size k).2]
  by_cases hplace : k = place
  · subst hplace
    rw [if_pos rfl, if_pos rfl, if_pos rfl, if_neg fun h => Nat.lt_irrefl _ h.1, Option.map_map]
    rfl
  · rw [if_neg hplace, if_neg hplace, if_neg hplace]

/-- An entry that is put between others is seen there in its row, which grows by one place. -/
theorem insert_spec (h : t.Tidy) (hij : i < j) (hj : j ≤ t.size)
    {before after : List (PackedEntry α)} (hrow : t.get i j = before ++ after)
    (hroom : t.count i j < t.stride) (e : Entry α) :
    Replaces t ((t.insert (t.offset i j + before.length) j after.length e).recount i j
      (t.count i j + 1) (t.total + 1)) i j (before ++ PackedChart.fresh e :: after) := by
  have hshape := sameShape_insert t (t.offset i j + before.length) j after.length e
  have hlength := length_get h.fit i j
  rw [hrow, List.length_append] at hlength
  have hgrown : (before ++ PackedChart.fresh e :: after).length = t.count i j + 1 := by
    rw [List.length_append, List.length_cons, ← hlength]
    rfl
  refine replaces_of h hij hj hshape.size_eq hshape.stride_eq (hgrown ▸ hroom) (fun k l => ?_)
    (by rw [hgrown]; show t.total + 1 + _ = _; omega) (fun m hm => ?_) fun k hk => ?_
  · rw [count_recount hij (hshape.size_eq ▸ hj), count_of_shape hshape, hgrown]
  · refine (parts?_insert t _ j after.length e _).trans ?_
    have hplace := offset_add_lt hij hj hm
    rcases Nat.lt_trichotomy m before.length with hlt | rfl | hgt
    · rw [if_neg (by omega), if_neg (by omega), h.parts?_eq i j m hij hj hm, hrow,
        PackedParts.placed_append_left j before _ _ hlt]
    · rw [if_pos rfl, h.parts?_eq i j _ hij hj hm, ← Nat.add_zero before.length,
        PackedParts.placed_append_right]
      rfl
    · obtain ⟨n, rfl⟩ := Nat.exists_eq_add_of_lt hgt
      rw [if_neg (by omega), Nat.add_assoc, PackedParts.placed_append_right,
        PackedParts.placed_cons_succ]
      by_cases hn : n < after.length
      · rw [if_pos (by omega), show t.offset i j + (before.length + (n + 1)) - 1 =
          t.offset i j + (before.length + n) by omega, h.parts?_eq i j _ hij hj (by omega), hrow,
          PackedParts.placed_append_right]
      · -- behind the entries nothing moves, and nothing stands there
        rw [if_neg (by omega), h.parts?_eq i j _ hij hj (by omega), hrow,
          PackedParts.placed_append_right, placed, placed, List.getElem?_eq_none (by omega),
          List.getElem?_eq_none (by omega)]
  · refine (parts?_insert t _ j after.length e k).trans ?_
    rw [if_neg (hk before.length (by omega)), if_neg]
    rintro ⟨hlo, hhi, -⟩
    exact hk (k - t.offset i j) (by omega) (by omega)

/-- What the arrays make of an entry that is offered is what the list of a row makes of it. -/
theorem update_spec (h : t.Tidy) (hij : i < j) (hj : j ≤ t.size) (hasc : t.Ascending i j)
    (hroom : PackedChart.find? (t.get i j) e.nonterminal = none → t.count i j < t.stride) :
    (t.update i j e).1 = (PackedChart.offer e (t.get i j)).1 ∧
      Replaces t (t.update i j e).2 i j (PackedChart.offer e (t.get i j)).2 := by
  have hsearch := search_spec h.fit hasc e.nonterminal
  have hlength := length_get h.fit i j
  rw [update, if_pos (covers_iff.2 ⟨hij, hj⟩)]
  generalize t.search i j e.nonterminal = result at hsearch ⊢
  cases hsearch with
  | @found before after x row same earlier later =>
    have hbetter : (t.inside[t.offset i j + before.length]?).any (· < e.inside) =
        decide (x.inside < e.inside) := by
      rw [inside_eq (entryAt?_of_row h.fit row), Option.any_some]
    have hshape : SameShape t (t.store (t.offset i j + before.length) j e) := ⟨rfl, rfl, rfl, rfl⟩
    have hparts := parts?_store t (t.offset i j + before.length) j e
    have hstore : Replaces t _ i j (before ++ { x with toEntry := e } :: after) :=
      change_spec h hshape hij hj row hparts rfl
    rw [row, PackedChart.offer_append earlier, PackedChart.offer_cons_self same]
    dsimp only
    rw [hbetter]
    by_cases hlt : x.inside < e.inside
    · rw [decide_eq_true hlt, if_pos rfl, if_pos hlt]
      exact ⟨rfl, hstore⟩
    · rw [decide_eq_false hlt, if_neg Bool.false_ne_true, if_neg hlt]
      exact ⟨rfl, row ▸ Replaces.refl h i j⟩
  | @missing before after row earlier later =>
    have hnone : PackedChart.find? (t.get i j) e.nonterminal = none := by
      rw [row]
      exact PackedChart.find?_place_eq_none earlier later
    have hbehind : t.offset i j + t.count i j - (t.offset i j + before.length) = after.length := by
      rw [row, List.length_append] at hlength
      omega
    have hinsert := insert_spec h hij hj row (hroom hnone) e
    rw [row, PackedChart.offer_append earlier, PackedChart.offer_of_lt later]
    dsimp only
    rw [hbehind]
    exact ⟨rfl, hinsert⟩

/-- Entries that are written to an empty cell are its row from then on. -/
theorem write_spec (h : t.Tidy) (hij : i < j) (hj : j ≤ t.size) (hempty : t.count i j = 0)
    (hes : es.length ≤ t.stride) :
    Replaces t (t.write i j es) i j (es.map PackedChart.fresh) := by
  have hshape := (parts?_storeAll t (t.offset i j) j es 0).1
  have hrow : t.get i j = [] := List.length_eq_zero_iff.1 ((length_get h.fit i j).trans hempty)
  rw [write, if_pos (covers_iff.2 ⟨hij, hj⟩), hempty, Nat.sub_zero]
  refine replaces_of h hij hj hshape.size_eq hshape.stride_eq (by rwa [List.length_map])
    (fun k l => ?_) (by rw [hempty, List.length_map]; rfl) (fun m hm => ?_) fun k hk => ?_
  · rw [count_recount hij (hshape.size_eq ▸ hj), count_of_shape hshape, List.length_map]
  · refine (parts?_storeAll t (t.offset i j) j es _).2.trans ?_
    rw [if_pos (Nat.le_add_right _ _), Nat.add_sub_cancel_left, h.parts?_eq i j m hij hj hm, hrow]
    simp only [placed, List.getElem?_map]
    cases es[m]? <;> rfl
  · refine (parts?_storeAll t (t.offset i j) j es k).2.trans ?_
    split
    · next hle =>
      have hnone : es[k - t.offset i j]? = none := by
        refine List.getElem?_eq_none (Nat.not_lt.1 fun hlt => hk (k - t.offset i j) ?_ ?_)
        · exact Nat.lt_of_lt_of_le hlt hes
        · omega
      rw [hnone]
    · rfl

/-! ## Rows after weighing -/

omit [Score α] in
theorem getElem?_overwrite {β : Type} {n : Nat} (v : Vector β n) (place : Nat) (xs : List β)
    (k : Nat) :
    (overwrite v place xs)[k]? =
      if place ≤ k then
        match xs[k - place]? with
        | some x => if k < n then some x else none
        | none => v[k]?
      else v[k]? := by
  induction xs generalizing v place with
  | nil => simp [overwrite]
  | cons x rest ih =>
    rw [overwrite, ih, Vector.getElem?_setIfInBounds]
    rcases Nat.lt_trichotomy place k with hlt | rfl | hgt
    · obtain ⟨m, rfl⟩ : ∃ m, k = place + 1 + m := ⟨k - (place + 1), by omega⟩
      rw [if_pos (by omega), if_neg (by omega), if_pos (by omega), Nat.add_sub_cancel_left,
        show place + 1 + m - place = m + 1 by omega, List.getElem?_cons_succ]
    · rw [if_neg (by omega), if_pos rfl, if_pos (Nat.le_refl _), Nat.sub_self,
        List.getElem?_cons_zero]
    · rw [if_neg (by omega), if_neg (by omega), if_neg (by omega)]

omit [Score α] in
theorem parts?_inside (t : RowTable α) (v : Vector α (numCells t.size * t.stride)) (k : Nat) :
    ({ t with inside := v } : RowTable α).parts? k =
      (t.parts? k).bind fun p => v[k]?.map fun x => { p with inside := x } := by
  by_cases hk : k < t.length
  · rw [parts?_of_lt (t := { t with inside := v }) hk, parts?_of_lt hk, Option.bind_some,
      Vector.getElem?_eq_getElem hk]
    rfl
  · have hle := Nat.not_lt.1 hk
    rw [parts?_of_le (t := { t with inside := v }) hle, parts?_of_le hle, Option.bind_none]

omit [Score α] in
theorem parts?_outside (t : RowTable α) (v : Vector α (numCells t.size * t.stride)) (k : Nat) :
    ({ t with outside := v } : RowTable α).parts? k =
      (t.parts? k).bind fun p => v[k]?.map fun x => { p with outside := x } := by
  by_cases hk : k < t.length
  · rw [parts?_of_lt (t := { t with outside := v }) hk, parts?_of_lt hk, Option.bind_some,
      Vector.getElem?_eq_getElem hk]
    rfl
  · have hle := Nat.not_lt.1 hk
    rw [parts?_of_le (t := { t with outside := v }) hle, parts?_of_le hle, Option.bind_none]

/-- Values that are copied over those of a cell change its entries one by one. -/
theorem copy_spec (h : t.Tidy) (hshape : SameShape t t') (hij : i < j) (hj : j ≤ t.size)
    {v : Vector α (numCells t.size * t.stride)} {xs : List α}
    (hlength : xs.length = (t.get i j).length) {part : PackedParts α → α → PackedParts α}
    {change : PackedEntry α → α → PackedEntry α}
    (hpart : ∀ y x, part (.of j y) x = .of j (change y x))
    (hold : ∀ k, ((t.parts? k).bind fun p => v[k]?.map (part p)) = t.parts? k)
    (hnew : ∀ k, t'.parts? k = (t.parts? k).bind fun p =>
      (overwrite v (t.offset i j) xs)[k]?.map (part p)) :
    Replaces t t' i j ((t.get i j).zipWith change xs) := by
  have hcount := length_get h.fit i j
  refine replaces_of_shape h hij hj hshape (by rw [List.length_zipWith, hlength, Nat.min_self])
    (fun m hm => ?_) fun k hk => ?_
  · have hplace := offset_add_lt hij hj hm
    have hhere := hold (t.offset i j + m)
    rw [hnew, getElem?_overwrite, if_pos (Nat.le_add_right _ _), Nat.add_sub_cancel_left]
    rw [h.parts?_eq i j m hij hj hm, Option.bind_some] at hhere ⊢
    simp only [placed, List.getElem?_zipWith] at hhere ⊢
    by_cases hx : m < xs.length
    · rw [List.getElem?_eq_getElem hx, List.getElem?_eq_getElem (hlength ▸ hx)]
      dsimp only
      rw [if_pos hplace, Option.map_some, hpart]
    · have hy : (t.get i j)[m]? = none := List.getElem?_eq_none (hlength ▸ Nat.not_lt.1 hx)
      rw [hy] at hhere
      rw [hy, List.getElem?_eq_none (Nat.not_lt.1 hx)]
      exact hhere
  · rw [hnew, getElem?_overwrite]
    split
    · next hle =>
      have hnone : xs[k - t.offset i j]? = none := by
        refine List.getElem?_eq_none (Nat.not_lt.1 fun hlt => hk (k - t.offset i j) ?_ (by omega))
        have hfit := h.fit i j
        omega
      rw [hnone]
      exact hold k
    · exact hold k

theorem copyInside_spec (h : t.Tidy) (hij : i < j) (hj : j ≤ t.size) {xs : List α}
    (hlength : xs.length = (t.get i j).length) :
    Replaces t (t.copyInside i j xs) i j
      ((t.get i j).zipWith (fun y x => { y with inside := x }) xs) := by
  rw [copyInside, if_pos (covers_iff.2 ⟨hij, hj⟩)]
  have hshape : SameShape t { t with inside := overwrite t.inside (t.offset i j) xs } :=
    ⟨rfl, rfl, rfl, rfl⟩
  exact copy_spec h hshape hij hj hlength (fun y x => rfl)
    (fun k => (parts?_inside t t.inside k).symm) (parts?_inside t _)

theorem copyOutside_spec (h : t.Tidy) (hij : i < j) (hj : j ≤ t.size) {xs : List α}
    (hlength : xs.length = (t.get i j).length) :
    Replaces t (t.copyOutside i j xs) i j
      ((t.get i j).zipWith (fun y x => { y with outside := x }) xs) := by
  rw [copyOutside, if_pos (covers_iff.2 ⟨hij, hj⟩)]
  have hshape : SameShape t { t with outside := overwrite t.outside (t.offset i j) xs } :=
    ⟨rfl, rfl, rfl, rfl⟩
  exact copy_spec h hshape hij hj hlength (fun y x => rfl)
    (fun k => (parts?_outside t t.outside k).symm) (parts?_outside t _)

omit [Score α] in
theorem copyOutside_of_not_covers (h : ¬(i < j ∧ j ≤ t.size)) (xs : List α) :
    t.copyOutside i j xs = t := by
  rw [copyOutside, if_neg (covers_iff.not.2 h)]

/-- The entry for a symbol with its surroundings changed. -/
def adjusted (nt : NonTerminal) (change : α → α) (y : PackedEntry α) : PackedEntry α :=
  if y.nonterminal = nt then { y with outside := change y.outside } else y

omit [Score α] in
theorem map_adjusted_of_ne {change : α → α} (h : ∀ y ∈ row, y.nonterminal ≠ nt) :
    row.map (adjusted nt change) = row :=
  (List.map_congr_left fun y hy => if_neg (h y hy)).trans (List.map_id _)

theorem adjustOutside_spec (h : t.Tidy) (hij : i < j) (hj : j ≤ t.size) (hasc : t.Ascending i j)
    (nt : NonTerminal) (change : α → α) :
    Replaces t (t.adjustOutside i j nt change) i j ((t.get i j).map (adjusted nt change)) := by
  have hsearch := search_spec h.fit hasc nt
  rw [adjustOutside]
  generalize t.search i j nt = result at hsearch ⊢
  cases hsearch with
  | @found before after x row same earlier later =>
    have hshape : SameShape t (t.setOutside (t.offset i j + before.length) (change x.outside)) :=
      ⟨rfl, rfl, rfl, rfl⟩
    have hparts := parts?_setOutside t (t.offset i j + before.length) (change x.outside)
    have hspec : Replaces t _ i j (before ++ { x with outside := change x.outside } :: after) :=
      change_spec h hshape hij hj row hparts rfl
    dsimp only
    rw [outside_eq (entryAt?_of_row h.fit row), row, List.map_append, List.map_cons, adjusted, if_pos same,
      map_adjusted_of_ne fun y hy => Nat.ne_of_lt (earlier y hy),
      map_adjusted_of_ne fun y hy => Nat.ne_of_gt (later y hy)]
    exact hspec
  | missing row earlier later =>
    rw [map_adjusted_of_ne]
    · exact Replaces.refl h i j
    · intro y hy
      rcases List.mem_append.1 (row ▸ hy) with hy | hy
      · exact Nat.ne_of_lt (earlier y hy)
      · exact Nat.ne_of_gt (later y hy)

omit [Score α] in
theorem adjustOutside_of_not_covers (h : ¬(i < j ∧ j ≤ t.size)) (nt : NonTerminal)
    (change : α → α) : t.adjustOutside i j nt change = t := by
  have hsearch : t.search i j nt = .error (t.offset i j) := by
    simp [search, count_of_not_covers h]
  rw [adjustOutside, hsearch]

theorem parts?_clearOutside (t : RowTable α) (k : Nat) :
    t.clearOutside.parts? k = (t.parts? k).map fun p => { p with outside := Score.impossible } := by
  rw [clearOutside, parts?_outside]
  by_cases hk : k < t.length
  · rw [parts?_of_lt hk, Vector.getElem?_replicate, if_pos hk]
    rfl
  · rw [parts?_of_le (Nat.not_lt.1 hk)]
    rfl

theorem get_clearOutside (t : RowTable α) (i j : Nat) :
    t.clearOutside.get i j = (t.get i j).map fun y => { y with outside := Score.impossible } := by
  rw [get, get, List.map_filterMap]
  refine List.filterMap_congr fun place _ => ?_
  rw [entryAt?, parts?_clearOutside, entryAt?, Option.map_map, Option.map_map]
  rfl

theorem tidy_clearOutside (h : t.Tidy) : t.clearOutside.Tidy where
  fit := h.fit
  parts?_eq i j m hij hj hm := by
    refine (parts?_clearOutside t (t.offset i j + m)).trans ?_
    rw [h.parts?_eq i j m hij hj hm, get_clearOutside]
    simp only [placed, List.getElem?_map]
    cases (t.get i j)[m]? <;> rfl
  total_eq := h.total_eq

/-! ## Tables that are known by their rows -/

/-- Tidy tables of one shape with the same rows are one table. -/
theorem Tidy.eq_of_get_eq (h : t.Tidy) (h' : t'.Tidy) (hsize : t.size = t'.size)
    (hstride : t.stride = t'.stride) (hget : ∀ i j, t.get i j = t'.get i j) : t = t' := by
  have hlength : t.length = t'.length := by rw [length, length, hsize, hstride]
  have hoffset : ∀ i j, t.offset i j = t'.offset i j := by
    intro i j
    rw [offset, offset, hsize, hstride]
  have hparts : ∀ k, t.parts? k = t'.parts? k := by
    intro k
    by_cases hk : k < t.length
    · obtain ⟨i, j, m, ⟨hij, hj⟩, hm, rfl⟩ := exists_offset_add hk
      rw [h.parts?_eq i j m hij hj hm, hoffset, h'.parts?_eq i j m hij (hsize ▸ hj) (hstride ▸ hm),
        hget]
    · rw [parts?_of_le (Nat.not_lt.1 hk), parts?_of_le (hlength ▸ Nat.not_lt.1 hk)]
  have hcounts : t.counts.toList = t'.counts.toList := by
    refine List.ext_getElem? fun n => ?_
    by_cases hn : n < numCells t.size
    · obtain ⟨i, j, hij, hj, rfl⟩ := exists_cellIndex_eq hn
      rw [getElem?_counts rfl hij hj, getElem?_counts hsize.symm hij hj, ← length_get h.fit,
        ← length_get h'.fit, hget]
    · rw [List.getElem?_eq_none (by rw [Vector.length_toList]; omega),
        List.getElem?_eq_none (by rw [Vector.length_toList, ← hsize]; omega)]
  have htotal : t.total = t'.total := by rw [h.total_eq, h'.total_eq, hcounts]
  obtain ⟨size, stride, nonterminals, inside, children, midpoints, outside, counts, total⟩ := t
  obtain ⟨size', stride', nonterminals', inside', children', midpoints', outside', counts',
    total'⟩ := t'
  dsimp only at hsize hstride htotal hcounts
  subst hsize hstride htotal
  have hplace : ∀ n (hn : n < numCells size * stride), nonterminals[n] = nonterminals'[n] ∧
      inside[n] = inside'[n] ∧ children[n] = children'[n] ∧ midpoints[n] = midpoints'[n] ∧
      outside[n] = outside'[n] := by
    intro n hn
    have hpart := hparts n
    rw [parts?_of_lt hn, parts?_of_lt hn, Option.some.injEq, PackedParts.mk.injEq] at hpart
    exact hpart
  congr 1
  · exact Vector.ext fun n hn => (hplace n hn).1
  · exact Vector.ext fun n hn => (hplace n hn).2.1
  · exact Vector.ext fun n hn => (hplace n hn).2.2.1
  · exact Vector.ext fun n hn => (hplace n hn).2.2.2.1
  · exact Vector.ext fun n hn => (hplace n hn).2.2.2.2
  · exact Vector.toList_inj.1 hcounts

/-- The new row says all about what has been written. -/
theorem Replaces.unique {t'' : RowTable α} (h : Replaces t t' i j row)
    (h' : Replaces t t'' i j row) : t' = t'' := by
  refine h.tidy.eq_of_get_eq h'.tidy (h.size_eq.trans h'.size_eq.symm)
    (h.stride_eq.trans h'.stride_eq.symm) fun k l => ?_
  by_cases hkl : k = i ∧ l = j
  · obtain ⟨rfl, rfl⟩ := hkl
    rw [h.get_self, h'.get_self]
  · rw [h.get_eq k l hkl, h'.get_eq k l hkl]

end RowTable

end Constituency
