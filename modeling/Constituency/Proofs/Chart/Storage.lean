import Constituency.Proofs.Chart.Commit
import Mathlib.Data.List.Sort

/-!
# Charts that hold the same

A chart is known by the entries that it finds. A chart of slots and a chart of rows that find the same
list the same entries in the same order, for their lists are in ascending order (`Same.entries_eq` and the
lemmas after it), and still find the same after the same cell has been committed to both
(`Same.commit`), although one of them compares ranks and the other one scores. Turned into rows they are
one and the same chart (`Same.toPacked_eq`).
-/

namespace Constituency

/-- Lists in ascending order of some number are known by their members. -/
theorem eq_of_ascending {β : Type} (number : β → Nat) {l l' : List β}
    (h : l.Pairwise fun a b => number a < number b)
    (h' : l'.Pairwise fun a b => number a < number b) (hmem : ∀ x, x ∈ l ↔ x ∈ l') : l = l' := by
  have hirrefl : Std.Irrefl fun a b : β => number a < number b := ⟨fun a => Nat.lt_irrefl _⟩
  have hantisymm : Std.Antisymm fun a b : β => number a < number b :=
    ⟨fun a b hab hba => absurd hab (Nat.lt_asymm hba)⟩
  exact h.eq_of_mem_iff h' hmem

/-! ## Rows as they are written -/

namespace PackedChart

variable {α : Type} [Score α] {g : Grammar α} {c c' : PackedChart α} {e : Entry α} {i j : Nat}
  {row : List (PackedEntry α)}

/-- A chart for a grammar of whose surroundings nothing is known yet. -/
structure Plain (g : Grammar α) (c : PackedChart α) : Prop where
  code_eq : c.code = g.code
  hasOutside_eq : c.hasOutside = false
  outside_eq : ∀ i j, ∀ x ∈ c.row i j, x.outside = Score.impossible

theorem plain_empty (size : Nat) (g : Grammar α) : (empty size g).Plain g where
  code_eq := rfl
  hasOutside_eq := rfl
  outside_eq i j x hx := by
    rw [row_empty] at hx
    cases hx

theorem Plain.of_replaces (h : c.Plain g) {rows : RowTable α}
    (hrows : c.rows.Replaces rows i j row) (hrow : ∀ x ∈ row, x.outside = Score.impossible) :
    ({ c with rows } : PackedChart α).Plain g where
  code_eq := h.code_eq
  hasOutside_eq := h.hasOutside_eq
  outside_eq k l x hx := by
    rw [row_of_replaces hrows] at hx
    split at hx
    · exact hrow x hx
    · exact h.outside_eq k l x hx

theorem Plain.write (h : c.Plain g) (hc : c.Sound g) (hij : i < j) (hj : j ≤ c.size)
    (hempty : c.row i j = []) {entries : List (Entry α)}
    (hasc : entries.Pairwise fun a b => a.nonterminal < b.nonterminal)
    (hlt : ∀ e ∈ entries, e.nonterminal < g.numNonterminals) :
    (c.write i j entries).Plain g := by
  refine h.of_replaces (write_spec hc hij hj hempty hasc hlt).1 fun x hx => ?_
  obtain ⟨e, -, rfl⟩ := List.mem_map.1 hx
  rfl

theorem outside_offer (h : ∀ x ∈ row, x.outside = Score.impossible) :
    ∀ x ∈ (offer e row).2, x.outside = Score.impossible := by
  induction row with
  | nil =>
    intro x hx
    rw [List.mem_singleton.1 hx]
    rfl
  | cons y rest ih =>
    have hy := h y List.mem_cons_self
    have hrest := fun x hx => h x (List.mem_cons_of_mem y hx)
    unfold offer
    split
    · exact List.forall_mem_cons.2 ⟨rfl, h⟩
    · split
      · split
        · exact List.forall_mem_cons.2 ⟨hy, hrest⟩
        · exact h
      · exact List.forall_mem_cons.2 ⟨hy, ih hrest⟩

theorem Plain.update (h : c.Plain g) (hc : c.Sound g) (hij : i < j) (hj : j ≤ c.size)
    (hnt : e.nonterminal < g.numNonterminals) : (c.update i j e).2.Plain g := by
  by_cases hadm : Score.admissible e.inside = true
  · obtain ⟨rows, hupdate, hrows⟩ := update_eq hc hij hj hnt hadm
    rw [hupdate]
    exact h.of_replaces hrows (outside_offer (h.outside_eq i j))
  · rwa [update_of_not_admissible (Bool.not_eq_true _ ▸ hadm)]

theorem Plain.commit (h : c.Plain g) (hc : c.Sound g) {cell : Scratch α}
    (hij : cell.start < cell.stop) (hj : cell.stop ≤ c.size)
    (hsize : cell.held.size = g.numNonterminals) : (c.commit cell).Plain g := by
  have hnt : ∀ e ∈ cell.entries, e.nonterminal < g.numNonterminals := fun e he =>
    hsize ▸ Scratch.nonterminal_lt_of_mem_entries he
  unfold PackedChart.commit
  split
  · have hfold : (cell.entries.foldl (fun c e => (c.update cell.start cell.stop e).2) c).Plain g ∧
        (cell.entries.foldl (fun c e => (c.update cell.start cell.stop e).2) c).Sound g ∧
        (cell.entries.foldl (fun c e => (c.update cell.start cell.stop e).2) c).size = c.size := by
      refine foldl_prefix_induction (P := fun _ (c' : PackedChart α) =>
        c'.Plain g ∧ c'.Sound g ∧ c'.size = c.size) cell.entries
        (fun visited e rest c' hsplit hv => ?_) ⟨h, hc, rfl⟩
      obtain ⟨hplain, hsound, hsize'⟩ := hv
      have he := hnt e (by rw [hsplit]; simp)
      exact ⟨hplain.update hsound hij (hsize' ▸ hj) he, sound_update hsound hij (hsize' ▸ hj) he,
        (size_update hsound hij (hsize' ▸ hj) he).trans hsize'⟩
    exact hfold.1
  · next hnot =>
    exact h.write hc hij hj (row_of_not_isPopulated hc (Bool.not_eq_true _ ▸ hnot))
      cell.entries_pairwise hnt

theorem Plain.row_eq (h : c.Plain g) (i j : Nat) : c.row i j = (c.entries i j).map fresh := by
  rw [entries, List.map_map]
  refine (List.map_id _).symm.trans (List.map_congr_left fun x hx => ?_)
  rw [Function.comp_apply, fresh, ← h.outside_eq i j x hx]
  rfl

/-- Such a chart is known by its entries. -/
theorem Plain.eq_of_entries_eq (h : c.Plain g) (hc : c.Sound g) (h' : c'.Plain g)
    (hc' : c'.Sound g) (hsize : c.size = c'.size)
    (hentries : ∀ i j, c.entries i j = c'.entries i j) : c = c' := by
  have hrows : c.rows = c'.rows := by
    refine hc.tidy.eq_of_get_eq hc'.tidy hsize (hc.stride_eq.trans hc'.stride_eq.symm) fun i j => ?_
    show c.row i j = c'.row i j
    rw [h.row_eq, h'.row_eq, hentries]
  have hnumber := hc.numNonterminals_eq.trans hc'.numNonterminals_eq.symm
  have hclasses := hc.classes_eq.trans hc'.classes_eq.symm
  have hcode := h.code_eq.trans h'.code_eq.symm
  have houtside := h.hasOutside_eq.trans h'.hasOutside_eq.symm
  obtain ⟨number, classes, code, rows, outside⟩ := c
  obtain ⟨number', classes', code', rows', outside'⟩ := c'
  simp only at hrows hnumber hclasses hcode houtside
  rw [hrows, hnumber, hclasses, hcode, houtside]

end PackedChart

/-! ## The same in either storage -/

namespace Chart

variable {α : Type} [Score α] {g : Grammar α} {c c' : Chart α} {cell : Scratch α} {i j : Nat}

/-- A chart of whose surroundings nothing is known yet. -/
def Plain (g : Grammar α) : Chart α → Prop
  | slots _ => True
  | packed c => c.Plain g

theorem Plain.commit (h : c.Plain g) (hc : c.Sound g) (hij : cell.start < cell.stop)
    (hj : cell.stop ≤ c.size) (hsize : cell.held.size = g.numNonterminals) :
    (c.commit cell).Plain g := by
  cases c with
  | slots c => trivial
  | packed c => exact PackedChart.Plain.commit h hc hij hj hsize

theorem Plain.toPacked (h : c.Plain g) (hc : c.Sound g) : (c.toPacked g).Plain g := by
  cases c with
  | packed c => exact h
  | slots c =>
    refine (toPacked_induction hc (P := fun packed => packed.Plain g)
      (PackedChart.plain_empty c.size g) fun packed i j hsound hij hj hempty hv => ?_).2
    exact hv.write hsound hij hj (PackedChart.row_of_get?_eq_none hsound hempty)
      (entries_pairwise hc i j) fun e he => (hc.bounds ((mem_entries hc).1 he)).2.2

/-- The chart is one of rows. -/
def InRows : Chart α → Prop
  | slots _ => False
  | packed _ => True

omit [Score α] in
theorem InRows.fits (h : c.InRows) : c.Fits := by
  cases c with
  | slots c => exact h.elim
  | packed c => trivial

theorem InRows.commit (h : c.InRows) : (c.commit cell).InRows := by
  cases c with
  | slots c => exact h
  | packed c => trivial

/-- A sound chart for a grammar and one of rows find the same entries. -/
structure Same (g : Grammar α) (c c' : Chart α) : Prop where
  sound : c.Sound g
  sound' : c'.Sound g
  inRows : c'.InRows
  plain : c.Plain g
  plain' : c'.Plain g
  size_eq : c.size = c'.size
  get?_eq : c.get? = c'.get?

namespace Same

theorem inside_eq (h : Same g c c') : c.inside = c'.inside := by
  funext i j A
  rw [h.sound.inside_eq, h.sound'.inside_eq, h.get?_eq]

theorem entries_eq (h : Same g c c') : c.entries = c'.entries := by
  funext i j
  refine eq_of_ascending (·.nonterminal) (entries_pairwise h.sound i j)
    (entries_pairwise h.sound' i j) fun e => ?_
  rw [mem_entries h.sound, mem_entries h.sound', h.get?_eq]

theorem leftChildren_eq (h : Same g c c') : c.leftChildren = c'.leftChildren := by
  funext i j
  refine eq_of_ascending (·.1) (leftChildren_pairwise h.sound i j)
    (leftChildren_pairwise h.sound' i j) fun ⟨A, x⟩ => ?_
  rw [mem_leftChildren h.sound, mem_leftChildren h.sound', h.get?_eq]

theorem rightChildren_eq (h : Same g c c') : c.rightChildren = c'.rightChildren := by
  funext i j
  refine eq_of_ascending (·.1) (rightChildren_pairwise h.sound i j)
    (rightChildren_pairwise h.sound' i j) fun ⟨A, x⟩ => ?_
  rw [mem_rightChildren h.sound, mem_rightChildren h.sound', h.get?_eq]

theorem posEntries_eq (h : Same g c c') : c.posEntries = c'.posEntries := by
  funext i j
  refine eq_of_ascending (·.1) (posEntries_pairwise h.sound i j)
    (posEntries_pairwise h.sound' i j) fun ⟨A, x⟩ => ?_
  rw [mem_posEntries h.sound, mem_posEntries h.sound', h.get?_eq]

theorem hasParse_eq (h : Same g c c') (A : NonTerminal) : c.hasParse A = c'.hasParse A := by
  rw [hasParse, hasParse, h.size_eq, h.inside_eq]

/-- The same trees are read off both charts. -/
theorem viterbiTree?_eq (h : Same g c c') (symbols : SymbolTable) (words : List String)
    (root : NonTerminal) : c.viterbiTree? symbols words root = c'.viterbiTree? symbols words root := by
  have hback : c.backpointers symbols words = c'.backpointers symbols words := by
    rw [backpointers, backpointers, h.get?_eq, h.sound.numNonterminals_eq,
      h.sound'.numNonterminals_eq]
  rw [viterbiTree?, viterbiTree?, h.hasParse_eq, h.size_eq, hback]

/-- In rows both are one chart. -/
theorem toPacked_eq (h : Same g c c') : c.toPacked g = c'.toPacked g := by
  obtain ⟨hsound, hsize, hget⟩ := toPacked_spec h.sound
  obtain ⟨hsound', hsize', hget'⟩ := toPacked_spec h.sound'
  have hrows : Same g (packed (c.toPacked g)) (packed (c'.toPacked g)) := by
    refine ⟨hsound, hsound', trivial, h.plain.toPacked h.sound, h.plain'.toPacked h.sound',
      hsize.trans (h.size_eq.trans hsize'.symm), ?_⟩
    funext i j A
    exact (hget i j A).trans (h.get?_eq ▸ (hget' i j A).symm)
  exact (h.plain.toPacked h.sound).eq_of_entries_eq hsound (h.plain'.toPacked h.sound') hsound'
    hrows.size_eq
    fun i j => congrFun (congrFun hrows.entries_eq i) j

variable [MonotoneScore α]

/-- A cell whose entries are better than those in their places leaves the same in both. -/
theorem commit (h : Same g c c') (hcell : cell.Proper g i j) (habove : c.Above cell)
    (hij : i < j) (hj : j ≤ c.size) (hfits : (c.commit cell).Fits) :
    Same g (c.commit cell) (c'.commit cell) := by
  have hj' : j ≤ c'.size := h.size_eq ▸ hj
  obtain ⟨hsound, hsize⟩ := sound_commit h.sound hcell.toShaped hij hj
  obtain ⟨hsound', hsize'⟩ := sound_commit h.sound' hcell.toShaped hij hj'
  have habove' : c'.Above cell := by
    intro A held hA
    rw [← h.inside_eq]
    exact habove A held hA
  have hspan : cell.start < cell.stop := by rwa [hcell.start_eq, hcell.stop_eq]
  have hplain := h.plain.commit h.sound hspan (hcell.stop_eq ▸ hj) hcell.size_eq
  have hplain' := h.plain'.commit h.sound' hspan (hcell.stop_eq ▸ hj') hcell.size_eq
  refine ⟨hsound, hsound', h.inRows.commit, hplain, hplain',
    hsize.trans (h.size_eq.trans hsize'.symm), ?_⟩
  funext k l A
  rw [get?_commit h.sound hcell habove hij hj hfits,
    get?_commit h.sound' hcell habove' hij hj' h.inRows.commit.fits, h.get?_eq]

end Same

end Chart

end Constituency
