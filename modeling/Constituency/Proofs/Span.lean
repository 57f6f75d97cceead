import Constituency.Span
import Mathlib.Tactic.Ring
import Mathlib.Data.List.Basic

/-!
# Cells and the order of the spans

The cells of a sentence do not overlap (`cellIndex_inj`), so that a span table is a function that is
changed at one span at a time (`SpanTable.get_modify`), and a stride table one that is changed at one column of
a span (`StrideTable.find?_set`). A pass over the spans, upwards or downwards,
meets each of them once and all shorter ones, or all longer ones, before it
(`spansUp_induction`, `spansDown_induction`).
-/

namespace Constituency

/-! ## Cells -/

/-- The number of spans that start before a position. -/
def rowStart (size start : Nat) : Nat :=
  start * (2 * size - start + 1) / 2

theorem rowStart_succ {n i : Nat} (h : i < n) :
    rowStart n (i + 1) = rowStart n i + (n - i) := by
  obtain ⟨m, rfl⟩ : ∃ m, n = i + m := ⟨n - i, by omega⟩
  have hl : 2 * (i + m) - (i + 1) + 1 = i + 2 * m := by omega
  have hr : 2 * (i + m) - i + 1 = i + 2 * m + 1 := by omega
  have key : (i + 1) * (i + 2 * m) = i * (i + 2 * m + 1) + m * 2 := by ring
  rw [rowStart, rowStart, hl, hr, key, Nat.add_mul_div_right _ _ (by decide), Nat.add_sub_cancel_left]

theorem rowStart_mono {n a b : Nat} (hab : a ≤ b) (hb : b ≤ n) :
    rowStart n a ≤ rowStart n b := by
  induction b with
  | zero => rw [Nat.le_zero.1 hab]
  | succ b ih =>
    rcases Nat.lt_or_ge b a with h | h
    · rw [show a = b + 1 by omega]
    · have := rowStart_succ (n := n) (i := b) (by omega)
      have := ih h (by omega)
      omega

theorem rowStart_size (size : Nat) : rowStart size size = numCells size := by
  rw [rowStart, numCells, show 2 * size - size + 1 = size + 1 by omega]

theorem cellIndex_eq (start stop size : Nat) :
    cellIndex start stop size = rowStart size start + (stop - start - 1) := rfl

theorem cellIndex_lt {start stop size : Nat} (h : start < stop) (hs : stop ≤ size) :
    cellIndex start stop size < numCells size := by
  have h1 := rowStart_succ (n := size) (i := start) (by omega)
  have h2 := rowStart_mono (n := size) (a := start + 1) (b := size) (by omega) (Nat.le_refl _)
  rw [rowStart_size] at h2
  rw [cellIndex_eq]
  omega

/-- Every place of a table is the place of a span. -/
theorem exists_cellIndex_eq {size n : Nat} (h : n < numCells size) :
    ∃ i j, i < j ∧ j ≤ size ∧ cellIndex i j size = n := by
  suffices ∀ k, k ≤ size → n < rowStart size k → ∃ i j, i < j ∧ j ≤ size ∧ cellIndex i j size = n from
    this size (Nat.le_refl _) (rowStart_size size ▸ h)
  intro k
  induction k with
  | zero =>
    intro _ hn
    simp [rowStart] at hn
  | succ k ih =>
    intro hk hn
    rcases Nat.lt_or_ge n (rowStart size k) with hlt | hge
    · exact ih (by omega) hlt
    · have hrow := rowStart_succ (n := size) (i := k) hk
      refine ⟨k, k + 1 + (n - rowStart size k), by omega, by omega, ?_⟩
      rw [cellIndex_eq]
      omega

/-- The cells come row by row. -/
theorem cellIndex_lt_iff {size i j k l : Nat} (hij : i < j) (hj : j ≤ size) (hkl : k < l)
    (hl : l ≤ size) :
    cellIndex i j size < cellIndex k l size ↔ i < k ∨ i = k ∧ j < l := by
  rw [cellIndex_eq, cellIndex_eq]
  have hi := rowStart_succ (n := size) (i := i) (by omega)
  have hk := rowStart_succ (n := size) (i := k) (by omega)
  rcases Nat.lt_trichotomy i k with hik | rfl | hik
  · have := rowStart_mono (n := size) (a := i + 1) (b := k) (by omega) (by omega)
    omega
  · omega
  · have := rowStart_mono (n := size) (a := k + 1) (b := i) (by omega) (by omega)
    omega

theorem cellIndex_inj {size i j k l : Nat} (hij : i < j) (hj : j ≤ size) (hkl : k < l)
    (hl : l ≤ size) (h : cellIndex i j size = cellIndex k l size) : i = k ∧ j = l := by
  have hnot := (cellIndex_lt_iff hij hj hkl hl).not.1 (Nat.not_lt.2 (Nat.le_of_eq h.symm))
  have hnot' := (cellIndex_lt_iff hkl hl hij hj).not.1 (Nat.not_lt.2 (Nat.le_of_eq h))
  omega

/-! ## Strides -/

section Strides

variable {size stride i j k l m n : Nat}

/-- Cells with a stride of places each take up so many places for each of them. -/
theorem cellIndex_mul_add_lt (hij : i < j) (hj : j ≤ size) (hm : m < stride) :
    cellIndex i j size * stride + m < numCells size * stride := by
  have hcell := Nat.mul_le_mul_right stride (Nat.succ_le_of_lt (cellIndex_lt hij hj))
  rw [Nat.succ_mul] at hcell
  omega

/-- The strides of two cells have no place in common. -/
theorem cellIndex_mul_add_inj (hij : i < j) (hj : j ≤ size) (hkl : k < l) (hl : l ≤ size)
    (hm : m < stride) (hn : n < stride)
    (h : cellIndex i j size * stride + m = cellIndex k l size * stride + n) :
    (i = k ∧ j = l) ∧ m = n := by
  have hdiv := congrArg (· / stride) h
  simp only [Nat.mul_comm _ stride, Nat.mul_add_div (Nat.zero_lt_of_lt hm),
    Nat.div_eq_of_lt hm, Nat.div_eq_of_lt hn, Nat.add_zero] at hdiv
  refine ⟨cellIndex_inj hij hj hkl hl hdiv, ?_⟩
  rw [hdiv] at h
  exact Nat.add_left_cancel h

/-- Every place belongs to the stride of a cell. -/
theorem exists_cellIndex_mul_add_eq (h : n < numCells size * stride) :
    ∃ i j m, (i < j ∧ j ≤ size) ∧ m < stride ∧ cellIndex i j size * stride + m = n := by
  rw [Nat.mul_comm] at h
  have hpos : 0 < stride := Nat.pos_of_mul_pos_right (Nat.zero_lt_of_lt h)
  obtain ⟨i, j, hij, hj, hcell⟩ := exists_cellIndex_eq (Nat.div_lt_of_lt_mul h)
  refine ⟨i, j, n % stride, ⟨hij, hj⟩, Nat.mod_lt _ hpos, ?_⟩
  rw [hcell, Nat.mul_comm, Nat.div_add_mod]

end Strides

/-! ## Tables -/

namespace SpanTable

variable {β : Type}

theorem covers_iff {t : SpanTable β} {i j : Nat} : t.covers i j = true ↔ i < j ∧ j ≤ t.size := by
  simp [covers]

@[simp] theorem size_modify (t : SpanTable β) (i j : Nat) (f : β → β) :
    (t.modify i j f).size = t.size := by
  unfold modify
  split <;> rfl

@[simp] theorem blank_modify (t : SpanTable β) (i j : Nat) (f : β → β) :
    (t.modify i j f).blank = t.blank := by
  unfold modify
  split <;> rfl

@[simp] theorem size_set (t : SpanTable β) (i j : Nat) (x : β) : (t.set i j x).size = t.size :=
  size_modify t i j _

theorem get_of_not_covers {t : SpanTable β} {i j : Nat} (h : ¬ (i < j ∧ j ≤ t.size)) :
    t.get i j = t.blank := by
  rw [get, if_neg (covers_iff.not.2 h)]

theorem cellIndex_lt_size (t : SpanTable β) {i j : Nat} (h : i < j) (hj : j ≤ t.size) :
    cellIndex i j t.size < t.cells.size :=
  t.cells_size ▸ cellIndex_lt h hj

theorem get_eq_getElem {t : SpanTable β} {i j : Nat} (h : i < j) (hj : j ≤ t.size)
    (hlt : cellIndex i j t.size < t.cells.size) : t.get i j = t.cells[cellIndex i j t.size] := by
  rw [get, if_pos (covers_iff.2 ⟨h, hj⟩), Array.getD_eq_getD_getElem?, Array.getElem?_eq_getElem hlt,
    Option.getD_some]

theorem cells_modify (t : SpanTable β) {i j : Nat} (h : i < j) (hj : j ≤ t.size) (f : β → β) :
    (t.modify i j f).cells = t.cells.modify (cellIndex i j t.size) f := by
  rw [modify, if_pos (covers_iff.2 ⟨h, hj⟩)]

/-- A change at one span is seen there and nowhere else. -/
theorem get_modify {t : SpanTable β} {i j : Nat} (h : i < j) (hj : j ≤ t.size) (f : β → β)
    (k l : Nat) :
    (t.modify i j f).get k l = if k = i ∧ l = j then f (t.get k l) else t.get k l := by
  by_cases hkl : k < l ∧ l ≤ t.size
  · have hmod := t.cells_modify h hj f
    have hl : l ≤ (t.modify i j f).size := by simpa using hkl.2
    have hget := get_eq_getElem hkl.1 hl (cellIndex_lt_size _ hkl.1 hl)
    rw [hget, get_eq_getElem hkl.1 hkl.2 (cellIndex_lt_size _ hkl.1 hkl.2)]
    simp only [hmod, size_modify, Array.getElem_modify]
    by_cases heq : k = i ∧ l = j
    · obtain ⟨rfl, rfl⟩ := heq
      simp
    · rw [if_neg heq, if_neg]
      intro hc
      exact heq ((cellIndex_inj hkl.1 hkl.2 h hj hc.symm))
  · have hne : ¬ (k = i ∧ l = j) := by
      rintro ⟨rfl, rfl⟩
      exact hkl ⟨h, hj⟩
    rw [if_neg hne, get_of_not_covers hkl, get_of_not_covers (by simpa using hkl), blank_modify]

theorem get_set {t : SpanTable β} {i j : Nat} (h : i < j) (hj : j ≤ t.size) (x : β) (k l : Nat) :
    (t.set i j x).get k l = if k = i ∧ l = j then x else t.get k l :=
  get_modify h hj _ k l

end SpanTable

namespace StrideTable

variable {β : Type} {t : StrideTable β} {i j k l c d : Nat} {x y : β}

theorem covers_iff : t.covers i j c = true ↔ (i < j ∧ j ≤ t.size) ∧ c < t.stride := by
  simp [covers]

@[simp] theorem size_set (t : StrideTable β) (i j c : Nat) (x : β) : (t.set i j c x).size = t.size := by
  unfold set
  split <;> rfl

@[simp] theorem stride_set (t : StrideTable β) (i j c : Nat) (x : β) :
    (t.set i j c x).stride = t.stride := by
  unfold set
  split <;> rfl

@[simp] theorem find?_make (size stride i j c : Nat) :
    (make size stride : StrideTable β).find? i j c = none := by
  rw [find?, make, Vector.getElem?_replicate]
  split
  · split <;> rfl
  · rfl

/-- What has a value lies in the table. -/
theorem bounds (h : t.find? i j c = some x) : i < j ∧ j ≤ t.size ∧ c < t.stride := by
  rw [find?] at h
  split at h
  · next hcov =>
    obtain ⟨⟨hij, hj⟩, hc⟩ := covers_iff.1 hcov
    exact ⟨hij, hj, hc⟩
  · cases h

theorem set_of_not_covers (h : ¬ ((i < j ∧ j ≤ t.size) ∧ c < t.stride)) (x : β) :
    t.set i j c x = t := by
  rw [set, if_neg (covers_iff.not.2 h)]

/-- No value but that of the column of the span changes. -/
theorem find?_set (hij : i < j) (hj : j ≤ t.size) (x : β) (k l d : Nat) :
    (t.set i j c x).find? k l d =
      if (k = i ∧ l = j) ∧ d = c ∧ c < t.stride then some x else t.find? k l d := by
  by_cases hc : c < t.stride
  swap
  · rw [set_of_not_covers fun h => hc h.2, if_neg fun h => hc h.2.2]
  have hcov : t.covers i j c = true := covers_iff.2 ⟨⟨hij, hj⟩, hc⟩
  have hplace : t.place i j c < numCells t.size * t.stride := cellIndex_mul_add_lt hij hj hc
  have hfind : (t.set i j c x).find? k l d = if t.covers k l d then
      ((t.values.setIfInBounds (t.place i j c) (some x))[t.place k l d]?).join else none := by
    rw [set, if_pos hcov]
    rfl
  rw [hfind, find?, Vector.getElem?_setIfInBounds, if_pos hplace]
  by_cases hcov' : t.covers k l d = true
  · obtain ⟨⟨hkl, hl⟩, hd⟩ := covers_iff.1 hcov'
    rw [if_pos hcov', if_pos hcov']
    by_cases hsame : t.place i j c = t.place k l d
    · obtain ⟨⟨rfl, rfl⟩, rfl⟩ := cellIndex_mul_add_inj hij hj hkl hl hc hd hsame
      rw [if_pos rfl, if_pos ⟨⟨rfl, rfl⟩, rfl, hc⟩, Option.join_some]
    · rw [if_neg hsame, if_neg]
      rintro ⟨⟨rfl, rfl⟩, rfl, -⟩
      exact hsame rfl
  · rw [if_neg hcov', if_neg hcov', if_neg]
    rintro ⟨⟨rfl, rfl⟩, rfl, -⟩
    exact hcov' hcov

/-- What is found after a value has been set was there before, or is the value that has been set. -/
theorem find?_of_set (h : (t.set i j c x).find? k l d = some y) :
    t.find? k l d = some y ∨ ((k = i ∧ l = j) ∧ d = c) ∧ y = x := by
  by_cases hcov : (i < j ∧ j ≤ t.size) ∧ c < t.stride
  · rw [find?_set hcov.1.1 hcov.1.2] at h
    split at h
    · next hhere => exact .inr ⟨⟨hhere.1, hhere.2.1⟩, (Option.some.inj h).symm⟩
    · exact .inl h
  · rw [set_of_not_covers hcov] at h
    exact .inl h

end StrideTable

/-! ## The order of the spans -/

theorem mem_midpoints {i j m : Nat} : m ∈ midpoints i j ↔ i < m ∧ m < j := by
  simp only [midpoints, List.mem_range'_1]
  omega

theorem nodup_midpoints (i j : Nat) : (midpoints i j).Nodup := List.nodup_range'

theorem mem_spansOfLength {size length i j : Nat} :
    (i, j) ∈ spansOfLength size length ↔ j = i + length ∧ i < size + 1 - length := by
  simp only [spansOfLength, List.mem_map, List.mem_range, Prod.mk.injEq]
  constructor
  · rintro ⟨a, ha, rfl, rfl⟩
    exact ⟨rfl, ha⟩
  · rintro ⟨rfl, hi⟩
    exact ⟨i, hi, rfl, rfl⟩

theorem mem_spansUp {size i j : Nat} : (i, j) ∈ spansUp size ↔ i < j ∧ j ≤ size := by
  simp only [spansUp, List.mem_flatMap, mem_spansOfLength, List.mem_range'_1]
  constructor
  · rintro ⟨n, hn, rfl, hi⟩
    omega
  · intro h
    exact ⟨j - i, by omega, by omega, by omega⟩

theorem mem_spansDown {size i j : Nat} : (i, j) ∈ spansDown size ↔ i < j ∧ j ≤ size := by
  rw [← mem_spansUp]
  simp only [spansUp, spansDown, List.mem_flatMap, List.mem_reverse]

/-- The spans of one length come from left to right. -/
theorem spansOfLength_pairwise (size length : Nat) :
    (spansOfLength size length).Pairwise fun a b => a.1 < b.1 := by
  rw [spansOfLength, List.pairwise_map]
  exact List.pairwise_lt_range

/-- A span comes before another one upwards if it is shorter, or as long and further left. -/
theorem spansUp_pairwise (size : Nat) :
    (spansUp size).Pairwise fun a b =>
      a.2 - a.1 < b.2 - b.1 ∨ a.2 - a.1 = b.2 - b.1 ∧ a.1 < b.1 := by
  rw [spansUp, List.pairwise_flatMap]
  refine ⟨fun n _ => ?_, (List.pairwise_lt_range' (s := 1) (n := size)).imp fun {m n} hmn => ?_⟩
  · refine (spansOfLength_pairwise size n).imp_of_mem fun {a b} ha hb hab => .inr ⟨?_, hab⟩
    have := (mem_spansOfLength (i := a.1) (j := a.2)).1 ha
    have := (mem_spansOfLength (i := b.1) (j := b.2)).1 hb
    omega
  · rintro ⟨i, j⟩ ha ⟨k, l⟩ hb
    rw [mem_spansOfLength] at ha hb
    omega

/-- No span is visited twice. -/
theorem not_mem_of_spansUp_eq {size : Nat} {span : Nat × Nat} {visited rest : List (Nat × Nat)}
    (h : spansUp size = visited ++ span :: rest) : span ∉ visited := by
  intro hin
  have horder := spansUp_pairwise size
  rw [h, List.pairwise_append] at horder
  have := horder.2.2 span hin span List.mem_cons_self
  omega

/-- A span comes before another one downwards if it is longer, or as long and further left. -/
theorem spansDown_pairwise (size : Nat) :
    (spansDown size).Pairwise fun a b =>
      b.2 - b.1 < a.2 - a.1 ∨ a.2 - a.1 = b.2 - b.1 ∧ a.1 < b.1 := by
  rw [spansDown, List.pairwise_flatMap]
  refine ⟨fun n _ => ?_, ?_⟩
  · refine (spansOfLength_pairwise size n).imp_of_mem fun {a b} ha hb hab => .inr ⟨?_, hab⟩
    have := (mem_spansOfLength (i := a.1) (j := a.2)).1 ha
    have := (mem_spansOfLength (i := b.1) (j := b.2)).1 hb
    omega
  · rw [List.pairwise_reverse]
    refine (List.pairwise_lt_range' (s := 1) (n := size)).imp fun {m n} hmn => ?_
    rintro ⟨i, j⟩ ha ⟨k, l⟩ hb
    rw [mem_spansOfLength] at ha hb
    omega

/-- What one step of a pass keeps, a whole pass keeps; the step knows what has been visited. -/
theorem foldl_prefix_induction {β σ : Type} {step : σ → β → σ} {P : List β → σ → Prop}
    (items : List β)
    (hstep : ∀ visited x rest state, items = visited ++ x :: rest → P visited state →
      P (visited ++ [x]) (step state x))
    {state : σ} (hinit : P [] state) : P items (items.foldl step state) := by
  suffices ∀ rest visited state, items = visited ++ rest → P visited state →
      P items (rest.foldl step state) from this items [] state rfl hinit
  intro rest
  induction rest with
  | nil =>
    intro visited state h hv
    rw [List.append_nil] at h
    exact h ▸ hv
  | cons x rest ih =>
    intro visited state h hv
    exact ih (visited ++ [x]) (step state x) (by simp [h]) (hstep visited x rest state h hv)

/-- A pass upwards comes to a span when it has visited all shorter spans and no longer one. -/
theorem spansUp_induction {σ : Type} {step : σ → Nat × Nat → σ} {size : Nat}
    {P : List (Nat × Nat) → σ → Prop} {state : σ} (hinit : P [] state)
    (hstep : ∀ visited i j state, i < j → j ≤ size → (i, j) ∉ visited →
      (∀ k l, k < l → l ≤ size → l - k < j - i → (k, l) ∈ visited) →
      (∀ k l, (k, l) ∈ visited → l - k ≤ j - i) →
      P visited state → P (visited ++ [(i, j)]) (step state (i, j))) :
    P (spansUp size) ((spansUp size).foldl step state) := by
  refine foldl_prefix_induction _ (fun visited x rest state hsplit hv => ?_) hinit
  obtain ⟨i, j⟩ := x
  have horder := spansUp_pairwise size
  have hmem : (i, j) ∈ spansUp size := by rw [hsplit]; simp
  rw [mem_spansUp] at hmem
  rw [hsplit, List.pairwise_append, List.pairwise_cons] at horder
  obtain ⟨-, ⟨hafter, -⟩, hbefore⟩ := horder
  refine hstep visited i j state hmem.1 hmem.2 (not_mem_of_spansUp_eq hsplit)
    (fun k l hkl hl hlt => ?_) (fun k l hin => ?_) hv
  · have hin : (k, l) ∈ visited ++ (i, j) :: rest := hsplit ▸ mem_spansUp.2 ⟨hkl, hl⟩
    rw [List.mem_append, List.mem_cons, Prod.mk.injEq] at hin
    rcases hin with hin | ⟨rfl, rfl⟩ | hin
    · exact hin
    · omega
    · have := hafter (k, l) hin
      omega
  · have := hbefore (k, l) hin (i, j) List.mem_cons_self
    omega

/-- A pass downwards comes to a span when it has visited all longer spans and no shorter one. -/
theorem spansDown_induction {σ : Type} {step : σ → Nat × Nat → σ} {size : Nat}
    {P : List (Nat × Nat) → σ → Prop} {state : σ} (hinit : P [] state)
    (hstep : ∀ visited i j state, i < j → j ≤ size → (i, j) ∉ visited →
      (∀ k l, k < l → l ≤ size → j - i < l - k → (k, l) ∈ visited) →
      (∀ k l, (k, l) ∈ visited → j - i ≤ l - k) →
      P visited state → P (visited ++ [(i, j)]) (step state (i, j))) :
    P (spansDown size) ((spansDown size).foldl step state) := by
  refine foldl_prefix_induction _ (fun visited x rest state hsplit hv => ?_) hinit
  obtain ⟨i, j⟩ := x
  have horder := spansDown_pairwise size
  have hmem : (i, j) ∈ spansDown size := by rw [hsplit]; simp
  rw [mem_spansDown] at hmem
  rw [hsplit, List.pairwise_append, List.pairwise_cons] at horder
  obtain ⟨-, ⟨hafter, -⟩, hbefore⟩ := horder
  refine hstep visited i j state hmem.1 hmem.2 (fun hin => ?_) (fun k l hkl hl hlt => ?_)
    (fun k l hin => ?_) hv
  · have := hbefore (i, j) hin (i, j) List.mem_cons_self
    omega
  · have hin : (k, l) ∈ visited ++ (i, j) :: rest := hsplit ▸ mem_spansDown.2 ⟨hkl, hl⟩
    rw [List.mem_append, List.mem_cons, Prod.mk.injEq] at hin
    rcases hin with hin | ⟨rfl, rfl⟩ | hin
    · exact hin
    · omega
    · have := hafter (k, l) hin
      omega
  · have := hbefore (k, l) hin (i, j) List.mem_cons_self
    omega

end Constituency
