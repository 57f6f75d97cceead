import Constituency.Decode.Constituents
import Constituency.Decode.Rules
import Constituency.Proofs.Chart.Packed
import Constituency.Proofs.Chart.Slots
import Constituency.Proofs.Search.MeritTable

/-!
# Cells side by side

The spans of a sentence are numbered without gaps, row by row (`bijOn_cellIndex`), so that the strides of the
cells fill an array and have no place in common (`tiles_stride`). The charts, the merit tables and the tables
of the decoders all lay out their cells in this way (`cells_side_by_side`). Computed in machine words the
places are the same, as long as an array can have so many of them (`toNat_strideWord`).
-/

namespace Constituency

/-! ## Places -/

/-- The spans of a sentence. -/
def spanSet (size : Nat) : Set (Nat × Nat) :=
  {span | span.1 < span.2 ∧ span.2 ≤ size}

/-- The places of the columns of all spans fill an array, and no two of them are the same. -/
def Tiles (size stride length : Nat) (place : Nat → Nat → Nat → Nat) : Prop :=
  Set.BijOn (fun p : (Nat × Nat) × Nat => place p.1.1 p.1.2 p.2) (spanSet size ×ˢ Set.Iio stride)
    (Set.Iio length)

/-- Every span has a cell, and every cell belongs to one span. -/
theorem bijOn_cellIndex (size : Nat) :
    Set.BijOn (fun span : Nat × Nat => cellIndex span.1 span.2 size) (spanSet size)
      (Set.Iio (numCells size)) := by
  refine ⟨fun span h => cellIndex_lt h.1 h.2, fun a ha b hb heq => ?_, fun n hn => ?_⟩
  · obtain ⟨hstart, hstop⟩ := cellIndex_inj ha.1 ha.2 hb.1 hb.2 heq
    exact Prod.ext hstart hstop
  · obtain ⟨i, j, hij, hj, hcell⟩ := exists_cellIndex_eq hn
    exact ⟨(i, j), ⟨hij, hj⟩, hcell⟩

example : (spansByStart 3).map (fun span => cellIndex span.1 span.2 3) = List.range 6 := by decide

/-- The strides of all cells fill an array, and no two of them overlap. -/
theorem tiles_stride (size stride : Nat) :
    Tiles size stride (numCells size * stride) fun i j m => cellIndex i j size * stride + m := by
  refine ⟨fun p h => cellIndex_mul_add_lt h.1.1 h.1.2 h.2, fun p hp q hq heq => ?_, fun n hn => ?_⟩
  · obtain ⟨⟨hstart, hstop⟩, hcolumn⟩ :=
      cellIndex_mul_add_inj hp.1.1 hp.1.2 hq.1.1 hq.1.2 hp.2 hq.2 heq
    exact Prod.ext (Prod.ext hstart hstop) hcolumn
  · obtain ⟨i, j, m, hij, hm, hplace⟩ := exists_cellIndex_mul_add_eq hn
    exact ⟨((i, j), m), ⟨hij, hm⟩, hplace⟩

/-! ## Machine words -/

/-- The number of spans as it is computed in machine words, which wrap around. -/
def numCellsWord (size : UInt64) : UInt64 :=
  size * (size + 1) / 2

/-- The position of a span as it is computed in machine words, which wrap around. -/
def cellIndexWord (start stop size : UInt64) : UInt64 :=
  start * (2 * size - start + 1) / 2 + (stop - start - 1)

/-- The product of which `cellIndex` takes half is largest at the end of the sentence. -/
theorem mul_le_size_mul {start size : Nat} (h : start ≤ size) :
    start * (2 * size - start + 1) ≤ size * (size + 1) := by
  obtain ⟨m, rfl⟩ := Nat.exists_eq_add_of_le h
  have hrow : 2 * (start + m) - start + 1 = start + 2 * m + 1 := by omega
  have hall : (start + m) * (start + m + 1) = start * (start + 2 * m + 1) + m * (m + 1) := by ring
  rw [hrow, hall]
  exact Nat.le_add_right _ _

/-- No product wraps around where there are so few spans that an array can have a place for each. -/
theorem mul_succ_lt_of_numCells_lt {size : Nat} (h : numCells size < 2 ^ 63) :
    size * (size + 1) < 2 ^ 64 := by
  rw [numCells, Nat.div_lt_iff_lt_mul Nat.two_pos] at h
  exact h

/-- Only sentences of less than `2 ^ 32` words have so few spans. -/
theorem lt_of_numCells_lt {size : Nat} (h : numCells size < 2 ^ 63) : size < 2 ^ 32 := by
  by_contra hge
  have hle : 2 ^ 32 ≤ size := Nat.not_lt.1 hge
  have hmul : 2 ^ 32 * 2 ^ 32 ≤ size * (size + 1) := Nat.mul_le_mul hle (Nat.le_succ_of_le hle)
  exact absurd (mul_succ_lt_of_numCells_lt h) (Nat.not_lt.2 hmul)

section Words

variable {size start stop stride column : UInt64}

theorem toNat_numCellsWord (h : numCells size.toNat < 2 ^ 63) :
    (numCellsWord size).toNat = numCells size.toNat := by
  have hsize := lt_of_numCells_lt h
  have hmul := mul_succ_lt_of_numCells_lt h
  have hsucc : (size + 1).toNat = size.toNat + 1 := by
    rw [UInt64.toNat_add, UInt64.toNat_one, Nat.mod_eq_of_lt (by omega)]
  rw [numCellsWord, UInt64.toNat_div, UInt64.toNat_mul, hsucc, Nat.mod_eq_of_lt hmul]
  rfl

theorem toNat_cellIndexWord (h : numCells size.toNat < 2 ^ 63) (hstart : start < stop)
    (hstop : stop ≤ size) :
    (cellIndexWord start stop size).toNat = cellIndex start.toNat stop.toNat size.toNat := by
  have hsize := lt_of_numCells_lt h
  have hij : start.toNat < stop.toNat := UInt64.lt_iff_toNat_lt.1 hstart
  have hj : stop.toNat ≤ size.toNat := UInt64.le_iff_toNat_le.1 hstop
  have hcell := Nat.lt_trans (cellIndex_lt hij hj) h
  have hmul := Nat.lt_of_le_of_lt (mul_le_size_mul (Nat.le_of_lt (Nat.lt_of_lt_of_le hij hj)))
    (mul_succ_lt_of_numCells_lt h)
  have hdouble : (2 * size).toNat = 2 * size.toNat := by
    rw [UInt64.toNat_mul, show (2 : UInt64).toNat = 2 from rfl, Nat.mod_eq_of_lt (by omega)]
  have hrest : (2 * size - start).toNat = 2 * size.toNat - start.toNat := by
    rw [UInt64.toNat_sub_of_le _ _ (UInt64.le_iff_toNat_le.2 (by omega)), hdouble]
  have hrow : (2 * size - start + 1).toNat = 2 * size.toNat - start.toNat + 1 := by
    rw [UInt64.toNat_add, hrest, UInt64.toNat_one, Nat.mod_eq_of_lt (by omega)]
  have hlength : (stop - start).toNat = stop.toNat - start.toNat :=
    UInt64.toNat_sub_of_le _ _ (UInt64.le_of_lt hstart)
  have hcolumn : (stop - start - 1).toNat = stop.toNat - start.toNat - 1 := by
    rw [UInt64.toNat_sub_of_le _ _ (UInt64.le_iff_toNat_le.2 (by rw [UInt64.toNat_one]; omega)),
      hlength, UInt64.toNat_one]
  rw [cellIndex] at hcell ⊢
  rw [cellIndexWord, UInt64.toNat_add, UInt64.toNat_div, UInt64.toNat_mul, hrow, hcolumn,
    Nat.mod_eq_of_lt hmul, show (2 : UInt64).toNat = 2 from rfl, Nat.mod_eq_of_lt (by omega)]

theorem numCells_lt_of_mul_lt {size stride m : Nat} (hm : m < stride)
    (h : numCells size * stride < 2 ^ 63) : numCells size < 2 ^ 63 :=
  Nat.lt_of_le_of_lt (Nat.le_mul_of_pos_right _ (Nat.zero_lt_of_lt hm)) h

theorem toNat_numCellsWord_mul (h : numCells size.toNat * stride.toNat < 2 ^ 63)
    (hcolumn : column < stride) :
    (numCellsWord size * stride).toNat = numCells size.toNat * stride.toNat := by
  have hcells := numCells_lt_of_mul_lt (UInt64.lt_iff_toNat_lt.1 hcolumn) h
  rw [UInt64.toNat_mul, toNat_numCellsWord hcells, Nat.mod_eq_of_lt (by omega)]

/-- The place of a column of a span does not wrap around where an array can have a place for every column of
every span. -/
theorem toNat_strideWord (h : numCells size.toNat * stride.toNat < 2 ^ 63) (hstart : start < stop)
    (hstop : stop ≤ size) (hcolumn : column < stride) :
    (cellIndexWord start stop size * stride + column).toNat =
      cellIndex start.toNat stop.toNat size.toNat * stride.toNat + column.toNat := by
  have hm : column.toNat < stride.toNat := UInt64.lt_iff_toNat_lt.1 hcolumn
  have hcells := numCells_lt_of_mul_lt hm h
  have hplace := Nat.lt_trans (cellIndex_mul_add_lt (UInt64.lt_iff_toNat_lt.1 hstart)
    (UInt64.le_iff_toNat_le.1 hstop) hm) h
  rw [UInt64.toNat_add, UInt64.toNat_mul, toNat_cellIndexWord hcells hstart hstop,
    Nat.mod_eq_of_lt (by omega), Nat.mod_eq_of_lt (by omega)]

end Words

/-! ## Tables -/

theorem SlotChart.tiles_slots {α : Type} [Score α] (c : SlotChart α) :
    Tiles c.size c.numNonterminals c.slots.toArray.size c.place :=
  c.slots.size_toArray.symm ▸ tiles_stride c.size c.numNonterminals

theorem CellBits.tiles_words (b : CellBits) : Tiles b.size b.stride b.words.toArray.size b.place :=
  b.words.size_toArray.symm ▸ tiles_stride b.size b.stride

theorem StrideTable.tiles_values {β : Type} (t : StrideTable β) :
    Tiles t.size t.stride t.values.toArray.size t.place :=
  t.values.size_toArray.symm ▸ tiles_stride t.size t.stride

namespace RowTable

variable {α : Type} (t : RowTable α)

/-- The lengths of the arrays that have a stride for each cell. -/
def lengths : List Nat :=
  [t.nonterminals.toArray.size, t.inside.toArray.size, t.children.toArray.size,
    t.midpoints.toArray.size, t.outside.toArray.size]

theorem tiles_lengths : ∀ length ∈ t.lengths,
    Tiles t.size t.stride length fun i j m => t.offset i j + m := by
  have hlengths : t.lengths = List.replicate 5 t.length := by
    simp only [lengths, Vector.size_toArray, List.replicate]
  intro length hlength
  rw [hlengths, List.mem_replicate] at hlength
  exact hlength.2 ▸ tiles_stride t.size t.stride

theorem bijOn_counts :
    Set.BijOn (fun span : Nat × Nat => cellIndex span.1 span.2 t.size) (spanSet t.size)
      (Set.Iio t.counts.toArray.size) :=
  t.counts.size_toArray.symm ▸ bijOn_cellIndex t.size

end RowTable

theorem SpanTable.bijOn_cells {β : Type} (t : SpanTable β) :
    Set.BijOn (fun span : Nat × Nat => cellIndex span.1 span.2 t.size) (spanSet t.size)
      (Set.Iio t.cells.size) :=
  t.cells_size.symm ▸ bijOn_cellIndex t.size

/-- The spans of a sentence are numbered without gaps, by start and then by stop. So each table has a place for
every column of every span, no two have a place in common, and none lies outside the arrays: in the charts of
slots, their bit sets and the charts of rows, of whose strides no more is live than there is, in the merit
tables, and in the tables of both decoders. Machine words do not wrap around on the way to a place. -/
theorem cells_side_by_side (α : Type) [Score α] :
    (∀ size, Set.BijOn (fun span : Nat × Nat => cellIndex span.1 span.2 size) (spanSet size)
      (Set.Iio (numCells size))) ∧
    (∀ size, ∀ a ∈ spanSet size, ∀ b ∈ spanSet size,
      (cellIndex a.1 a.2 size < cellIndex b.1 b.2 size ↔ a.1 < b.1 ∨ a.1 = b.1 ∧ a.2 < b.2)) ∧
    (∀ c : SlotChart α, Tiles c.size c.numNonterminals c.slots.toArray.size c.place) ∧
    (∀ b : CellBits, Tiles b.size b.stride b.words.toArray.size b.place) ∧
    (∀ size n nt, nt < n → nt / 64 < (CellBits.make size n).stride) ∧
    (∀ t : RowTable α,
      (∀ length ∈ t.lengths, Tiles t.size t.stride length fun i j m => t.offset i j + m) ∧
      Set.BijOn (fun span : Nat × Nat => cellIndex span.1 span.2 t.size) (spanSet t.size)
        (Set.Iio t.counts.toArray.size)) ∧
    (∀ (g : Grammar α) (c : PackedChart α), c.Sound g →
      ∀ i j, c.rows.count i j ≤ c.rows.stride) ∧
    (∀ t : MeritTable α,
      Tiles t.cells.size t.numNonterminals t.cells.values.toArray.size t.cells.place) ∧
    (∀ choices : ConstituentTask.Choices α,
      Set.BijOn (fun span : Nat × Nat => cellIndex span.1 span.2 choices.size) (spanSet choices.size)
        (Set.Iio choices.cells.size)) ∧
    (∀ t : RuleTable α, Tiles t.size t.stride t.values.toArray.size t.place) ∧
    (∀ size stride : UInt64, numCells size.toNat * stride.toNat < 2 ^ 63 →
      ∀ start stop column : UInt64, start < stop → stop ≤ size → column < stride →
        (numCellsWord size * stride).toNat = numCells size.toNat * stride.toNat ∧
        (cellIndexWord start stop size * stride + column).toNat =
          cellIndex start.toNat stop.toNat size.toNat * stride.toNat + column.toNat) :=
  ⟨bijOn_cellIndex,
    fun _ _ ha _ hb => cellIndex_lt_iff ha.1 ha.2 hb.1 hb.2,
    SlotChart.tiles_slots,
    CellBits.tiles_words,
    fun _ _ _ => CellBits.lt_wordsFor,
    fun t => ⟨t.tiles_lengths, t.bijOn_counts⟩,
    fun _ _ h => h.tidy.fit,
    fun t => t.cells.tiles_values,
    SpanTable.bijOn_cells,
    StrideTable.tiles_values,
    fun _ _ hfew _ _ _ hstart hstop hcolumn =>
      ⟨toNat_numCellsWord_mul hfew hcolumn, toNat_strideWord hfew hstart hstop hcolumn⟩⟩

theorem cells_side_by_side_chain :
    Set.BijOn (fun span : Nat × Nat => cellIndex span.1 span.2 3) (spanSet 3) (Set.Iio 6) ∧
    cellIndex 0 3 3 < cellIndex 1 2 3 ∧
    Tiles 3 3 18 (SlotChart.empty 3 Chain.whole).place ∧
    100 / 64 < (CellBits.make 3 101).stride ∧
    (PackedChart.empty 3 Chain.whole).rows.count 0 3 ≤ 3 ∧
    (cellIndexWord 2147483647 2147483648 2147483648 * 3 + 2).toNat = 6917529030862307327 := by
  obtain ⟨hcells, horder, hslots, -, hbits, -, hlive, -, -, -, hwords⟩ :=
    cells_side_by_side (WithBot ℤ)
  refine ⟨hcells 3, ?_, hslots (SlotChart.empty 3 Chain.whole), hbits 3 101 100 (by decide),
    hlive Chain.whole _ (PackedChart.sound_empty 3 _) 0 3, ?_⟩
  · exact (horder 3 (0, 3) ⟨by decide, by decide⟩ (1, 2) ⟨by decide, by decide⟩).2 (by decide)
  · exact (hwords 2147483648 3 (by decide) 2147483647 2147483648 2 (by decide) (by decide)
      (by decide)).2

end Constituency
