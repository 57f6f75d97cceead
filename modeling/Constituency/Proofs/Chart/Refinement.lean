import Constituency.Proofs.Chart.Leaders
import Constituency.Proofs.Chart.Posterior

/-!
# Rows are a map

Whatever entries and scratch cells are put into a chart of rows, and wherever its surroundings are computed
in between, it is the map from the symbols over spans to the first of the best entries that have been offered
(`refines`). To write a cell as a whole is to offer its entries one by one (`commit_eq_foldl`), and an
insertion leaves the outside scores of all symbols as they are (`outside_update`), although it moves those
that stand behind it.
-/

namespace Constituency

/-! ## Scratch cells -/

/-- Two scores that derivations can have combine to another one. -/
def Accumulator.KeepsAdmissible {α : Type} [Score α] (acc : Accumulator α) : Prop :=
  ∀ {a b : α}, Score.admissible a = true → Score.admissible b = true →
    Score.admissible (acc.combine a b) = true

theorem Accumulator.keepsAdmissible_best {α : Type} [Score α] :
    (Accumulator.best : Accumulator α).KeepsAdmissible := by
  intro a b ha hb
  show Score.admissible (Score.best a b) = true
  rcases Score.best_eq_left_or_right a b with heq | heq <;> rw [heq]
  · exact ha
  · exact hb

namespace Scratch

variable {α : Type} [Score α] {g : Grammar α} {acc : Accumulator α} {cell other : Scratch α}
  {size i j : Nat}

/-- The cell lies in a sentence of that size, has a place for every symbol of the grammar, and its entries
have scores that derivations can have. -/
structure Committable (g : Grammar α) (size : Nat) (cell : Scratch α) : Prop where
  start_lt : cell.start < cell.stop
  stop_le : cell.stop ≤ size
  size_eq : cell.held.size = g.numNonterminals
  admissible : ∀ A held, cell.find? A = some held → Score.admissible held.inside = true

theorem committable_empty (g : Grammar α) (hij : i < j) (hj : j ≤ size) :
    (empty i j g.numNonterminals : Scratch α).Committable g size where
  start_lt := hij
  stop_le := hj
  size_eq := Array.size_replicate
  admissible A held hA := by
    rw [find?_empty] at hA
    cases hA

/-- Derivations that are added leave it so. -/
theorem Committable.update (hacc : acc.KeepsAdmissible) (h : cell.Committable g size)
    (A : NonTerminal) (x : α) (b : Backpointer) : (cell.update acc A x b).2.Committable g size := by
  unfold Scratch.update
  split
  · next hadm =>
    refine ⟨h.start_lt, h.stop_le, Array.size_setIfInBounds.trans h.size_eq, fun B held hB => ?_⟩
    rw [find?, Array.getD_eq_getD_getElem?, Array.getElem?_setIfInBounds] at hB
    split at hB
    · split at hB
      · obtain rfl := Option.some.inj hB
        cases hold : cell.find? A with
        | none => exact hadm
        | some old =>
          have hcombined := hacc (h.admissible A old hold) hadm
          simp only [improve]
          split <;> exact hcombined
      · cases hB
    · rw [← Array.getD_eq_getD_getElem?] at hB
      exact h.admissible B held hB
  · exact h

/-- So does another cell that is folded in. -/
theorem Committable.merge (hacc : acc.KeepsAdmissible) (h : cell.Committable g size)
    (h' : other.Committable g size) : (merge acc cell other).Committable g size := by
  have hsize := h.size_eq.trans h'.size_eq.symm
  refine ⟨h.start_lt, h.stop_le, ?_, fun A held hA => ?_⟩
  · rw [size_merge, ← hsize, Nat.min_self, h.size_eq]
  · rw [find?_merge hsize] at hA
    cases hleft : cell.find? A with
    | none =>
      cases hright : other.find? A with
      | none =>
        rw [hleft, hright] at hA
        cases hA
      | some held' =>
        rw [hleft, hright] at hA
        obtain rfl := Option.some.inj hA
        exact h'.admissible A held' hright
    | some held' =>
      cases hright : other.find? A with
      | none =>
        rw [hleft, hright] at hA
        obtain rfl := Option.some.inj hA
        exact h.admissible A held' hleft
      | some held'' =>
        have hcombined := hacc (h.admissible A held' hleft) (h'.admissible A held'' hright)
        rw [hleft, hright, mergeHeld] at hA
        split at hA <;> (obtain rfl := Option.some.inj hA; exact hcombined)

/-- The entries of a cell as offers. -/
def offers (cell : Scratch α) : List (Offer α) :=
  cell.entries.map fun e => ⟨e, cell.start, cell.stop⟩

theorem Committable.valid (h : cell.Committable g size) {o : Offer α} (ho : o ∈ cell.offers) :
    o.Valid g size ∧ Score.admissible o.inside = true := by
  obtain ⟨e, he, rfl⟩ := List.mem_map.1 ho
  obtain ⟨held, hheld, heq⟩ := get?_eq_some_iff.1 (mem_entries.1 he)
  refine ⟨⟨h.start_lt, h.stop_le, h.size_eq ▸ nonterminal_lt_of_mem_entries he⟩, ?_⟩
  rw [heq]
  exact h.admissible _ held hheld

end Scratch

namespace PackedChart

variable {α : Type} [Score α] {g : Grammar α} {c c' : PackedChart α} {cell : Scratch α}
  {i j size : Nat} {e : Entry α} {o : Offer α} {row : List (PackedEntry α)}

/-! ## Writing a cell as a whole -/

/-- An entry that comes after all others goes behind them. -/
theorem offer_of_gt (h : ∀ x ∈ row, x.nonterminal < e.nonterminal) :
    offer e row = (true, row ++ [fresh e]) := by
  have happend : offer e (row ++ []) = (true, row ++ [fresh e]) := offer_append h
  rwa [List.append_nil] at happend

/-- To commit a cell is to offer its entries one by one. -/
theorem commit_eq_foldl (h : c.Sound g) (hcell : cell.Committable g c.size) :
    c.commit cell = cell.entries.foldl (fun c e => (c.update cell.start cell.stop e).2) c := by
  rw [commit]
  split
  · rfl
  · next hnot =>
    have hempty := row_of_not_isPopulated h (Bool.not_eq_true _ ▸ hnot)
    have hentries : ∀ e ∈ cell.entries,
        e.nonterminal < g.numNonterminals ∧ Score.admissible e.inside = true := by
      intro e he
      obtain ⟨hvalid, hadm⟩ := hcell.valid (List.mem_map_of_mem he)
      exact ⟨hvalid.nonterminal_lt, hadm⟩
    have hasc := cell.entries_pairwise
    obtain ⟨hwrite, -⟩ := write_spec h hcell.start_lt hcell.stop_le hempty hasc
      fun e he => (hentries e he).1
    -- one by one each entry goes behind those before it
    have hfold : c.rows.Replaces (cell.entries.foldl (fun c e =>
          (c.update cell.start cell.stop e).2) c).rows cell.start cell.stop
          (cell.entries.map fresh) ∧
        cell.entries.foldl (fun c e => (c.update cell.start cell.stop e).2) c = { c with
          rows := (cell.entries.foldl (fun c e => (c.update cell.start cell.stop e).2) c).rows } := by
      refine foldl_prefix_induction (P := fun visited (c' : PackedChart α) =>
        c.rows.Replaces c'.rows cell.start cell.stop (visited.map fresh) ∧
          c' = { c with rows := c'.rows }) cell.entries (fun visited e rest c' hsplit hv => ?_)
        ⟨?_, rfl⟩
      · obtain ⟨hrows, heq⟩ := hv
        rw [hsplit, List.pairwise_append] at hasc
        have hbefore : ∀ x ∈ visited.map fresh, x.nonterminal < e.nonterminal := by
          intro x hx
          obtain ⟨e', he', rfl⟩ := List.mem_map.1 hx
          exact hasc.2.2 e' he' e List.mem_cons_self
        have hsound : c'.Sound g := by
          rw [heq]
          exact sound_of_replaces h hrows
            (rowSound_fresh hasc.1 fun e' he' => (hentries e' (by simp [hsplit, he'])).1)
        have hrow : c'.row cell.start cell.stop = visited.map fresh := hrows.get_self
        obtain ⟨hnt, hadm⟩ := hentries e (by simp [hsplit])
        have hsize : c'.size = c.size := hrows.size_eq
        obtain ⟨rows, hupdate, hnext⟩ :=
          update_eq hsound hcell.start_lt (hsize ▸ hcell.stop_le) hnt hadm
        rw [hrow, offer_of_gt hbefore] at hnext
        rw [hupdate, List.map_append]
        exact ⟨hrows.trans hnext, by rw [heq]⟩
      · have hrefl := RowTable.Replaces.refl h.tidy cell.start cell.stop
        rwa [← row, hempty] at hrefl
    rw [hfold.2, ← hwrite.unique hfold.1]
    rfl

/-! ## Surroundings -/

theorem outside_eq (h : c.Sound g) (i j : Nat) (A : NonTerminal) :
    c.outside i j A = ((find? (c.row i j) A).map (·.outside)).getD Score.impossible := by
  rw [outside, lookup_eq h]
  cases find? (c.row i j) A <;> rfl

/-- An offer to a row leaves the surroundings of every symbol as they are. -/
theorem outside_find?_offer {n : Nat} (h : RowSound n row) (A : NonTerminal) :
    ((find? (offer e row).2 A).map (·.outside)).getD Score.impossible =
      ((find? row A).map (·.outside)).getD Score.impossible := by
  obtain ⟨before, after, hbefore, hafter, ⟨rfl, hoffer⟩ | ⟨x, hx, rfl, hoffer⟩⟩ := offer_cases h e
  · rw [hoffer, find?_middle (x := fresh e) hbefore]
    split
    · next hA =>
      have hnone : find? (before ++ after) (fresh e).nonterminal = none :=
        find?_place_eq_none hbefore hafter
      rw [hA, hnone]
      rfl
    · rfl
  · rw [hoffer]
    split
    · rw [find?_middle (x := { x with toEntry := e }) hbefore, find?_middle (hx ▸ hbefore), hx]
      split <;> rfl
    · rfl

/-- So does one to a chart. -/
theorem outside_update (h : c.Sound g) (ho : o.Valid g c.size) (k l : Nat) (A : NonTerminal) :
    (c.update o.start o.stop o.toEntry).2.outside k l A = c.outside k l A := by
  by_cases hadm : Score.admissible o.inside = true
  · obtain ⟨rows, hupdate, hrows⟩ := update_eq h ho.start_lt ho.stop_le ho.nonterminal_lt hadm
    have hsound := sound_update h ho.start_lt ho.stop_le ho.nonterminal_lt
    rw [hupdate] at hsound ⊢
    rw [outside_eq hsound, row_of_replaces hrows, outside_eq h]
    split
    · next hspan =>
      obtain ⟨rfl, rfl⟩ := hspan
      exact outside_find?_offer (h.rows _ _) A
    · rfl
  · rw [update_of_not_admissible (Bool.not_eq_true _ ▸ hadm)]

/-- Without an entry nothing is known of the surroundings. -/
theorem outside_of_get?_eq_none (h : c.Sound g) {A : NonTerminal} (hA : c.get? i j A = none) :
    c.outside i j A = Score.impossible := by
  rw [get?_eq h, Option.map_eq_none_iff] at hA
  rw [outside_eq h, hA]
  rfl

/-- To compute the surroundings changes no entry. -/
theorem get?_of_sameInside (h : c.Sound g) (hsame : SameInside c c') : c'.get? = c.get? := by
  have hsound := hsame.sound h
  funext i j A
  cases hget : c'.get? i j A with
  | none =>
    rw [eq_comm, ← Option.not_isSome_iff_eq_none, ← hsame.isSome_get? h, hget]
    exact Bool.noConfusion
  | some e' =>
    obtain ⟨e, he, hb⟩ := hsame.exists_get? h hget
    have hinside := hsame.inside_eq i j A
    rw [inside_eq, inside_eq, hget, he] at hinside
    have hnt := (hsound.nonterminal_eq hget).trans (h.nonterminal_eq he).symm
    obtain ⟨nt, x, b⟩ := e
    obtain ⟨nt', x', b'⟩ := e'
    dsimp only at hnt hb
    rw [he, hnt, hb, show x' = x from hinside]

/-! ## Histories -/

/-- What is done to a chart of rows. -/
inductive Operation (α : Type) where
  /-- An entry is offered. -/
  | offer (o : Offer α)
  /-- A scratch cell is committed. -/
  | commit (cell : Scratch α)
  /-- The surroundings of all entries are computed. -/
  | surround (acc : Accumulator α)

/-- The chart after an operation. -/
def perform (g : Grammar α) (c : PackedChart α) : Operation α → PackedChart α
  | .offer o => (c.update o.start o.stop o.toEntry).2
  | .commit cell => c.commit cell
  | .surround acc => c.surround acc g

namespace Operation

/-- Entries and cells lie in a sentence of that size and are for symbols of the grammar. -/
def Valid (g : Grammar α) (size : Nat) : Operation α → Prop
  | offer o => o.Valid g size
  | commit cell => cell.Committable g size
  | surround _ => True

/-- The entries that are offered by an operation. -/
def offers : Operation α → List (Offer α)
  | offer o => [o]
  | commit cell => cell.offers
  | surround _ => []

end Operation

/-- Comparison of scores. -/
def higher (new old : α) : Bool :=
  decide (old < new)

/-- A chart for a sentence of that size holds the first of the best offers. -/
structure Kept (g : Grammar α) (size : Nat) (offers : List (Offer α)) (c : PackedChart α) : Prop where
  size_eq : c.size = size
  holds : Chart.Holds g higher offers (.packed c)

theorem Kept.sound {offers : List (Offer α)} (h : Kept g size offers c) : c.Sound g := h.holds.sound

theorem Kept.offer (hb : Chart.Orders (higher : α → α → Bool)) {offers : List (Offer α)}
    (h : Kept g size offers c) (ho : o.Valid g size) :
    Kept g size (offers ++ [o]) (c.update o.start o.stop o.toEntry).2 := by
  obtain ⟨rfl, hholds⟩ := h
  have htakes := Chart.packed_takes hholds.sound ho
  exact ⟨htakes.size_eq, hholds.offer hb htakes⟩

theorem Kept.foldl_update (hb : Chart.Orders (higher : α → α → Bool)) {offers : List (Offer α)}
    (h : Kept g size offers c) (entries : List (Entry α))
    (hvalid : ∀ e ∈ entries, Offer.Valid g size ⟨e, i, j⟩) :
    Kept g size (offers ++ entries.map fun e => ⟨e, i, j⟩)
      (entries.foldl (fun c e => (c.update i j e).2) c) := by
  induction entries generalizing c offers with
  | nil => rwa [List.map_nil, List.append_nil]
  | cons e rest ih =>
    have hrest := ih (h.offer hb (hvalid e List.mem_cons_self))
      fun e' he' => hvalid e' (List.mem_cons_of_mem e he')
    rwa [List.append_assoc] at hrest

/-- An operation adds the entries that it offers. -/
theorem Kept.perform (hb : Chart.Orders (higher : α → α → Bool)) {offers : List (Offer α)}
    (h : Kept g size offers c) {op : Operation α} (hop : op.Valid g size) :
    Kept g size (offers ++ op.offers) (c.perform g op) := by
  cases op with
  | offer o => exact h.offer hb hop
  | commit cell =>
    have hcell : cell.Committable g size := hop
    show Kept g size _ (c.commit cell)
    rw [commit_eq_foldl h.sound (h.size_eq.symm ▸ hcell)]
    exact h.foldl_update hb cell.entries fun e he => (hcell.valid (List.mem_map_of_mem he)).1
  | surround acc =>
    have hsame := sameInside_surround acc h.sound
    have hget := get?_of_sameInside h.sound hsame
    have hcounted := h.holds.counted
    show Kept g size (offers ++ []) (c.surround acc g)
    rw [List.append_nil]
    refine ⟨hsame.size_eq.trans h.size_eq, hsame.sound h.sound, fun i j A e => ?_, fun i j A => ?_, ?_⟩
    · show (c.surround acc g).get? i j A = some e ↔ _
      rw [hget]
      exact h.holds.get?_iff i j A e
    · show (c.surround acc g).get? i j A = none ↔ _
      rw [hget]
      exact h.holds.none_iff i j A
    · obtain ⟨keys, hnodup, hmem, hlength⟩ := hcounted
      refine ⟨keys, hnodup, fun i j A => ?_, hlength.trans hsame.numEntries_eq.symm⟩
      show _ ↔ ((c.surround acc g).get? i j A).isSome = true
      rw [hget]
      exact hmem i j A

theorem kept_foldl_perform (hb : Chart.Orders (higher : α → α → Bool)) {offers : List (Offer α)}
    (h : Kept g size offers c) (history : List (Operation α))
    (hvalid : ∀ op ∈ history, op.Valid g size) :
    Kept g size (offers ++ history.flatMap (·.offers)) (history.foldl (perform g) c) := by
  induction history generalizing c offers with
  | nil => rwa [List.flatMap_nil, List.append_nil]
  | cons op rest ih =>
    have hrest := ih (h.perform hb (hvalid op List.mem_cons_self))
      fun op' hop' => hvalid op' (List.mem_cons_of_mem op hop')
    rwa [List.append_assoc] at hrest

/-! ## One cell at a time -/

/-- Nothing is changed but in one cell: neither another row, nor a place of the arrays outside of the
stride of the cell. -/
structure Confined (c c' : PackedChart α) (start stop : Nat) : Prop where
  size_eq : c'.rows.size = c.rows.size
  stride_eq : c'.rows.stride = c.rows.stride
  row_eq : ∀ k l, ¬(k = start ∧ l = stop) → c'.row k l = c.row k l
  parts?_eq : ∀ place, (∀ m < c.rows.stride, place ≠ c.rows.offset start stop + m) →
    c'.rows.parts? place = c.rows.parts? place

omit [Score α] in
theorem Confined.refl (c : PackedChart α) (i j : Nat) : Confined c c i j :=
  ⟨rfl, rfl, fun _ _ _ => rfl, fun _ _ => rfl⟩

omit [Score α] in
theorem Confined.trans {c'' : PackedChart α} (h : Confined c c' i j) (h' : Confined c' c'' i j) :
    Confined c c'' i j where
  size_eq := h'.size_eq.trans h.size_eq
  stride_eq := h'.stride_eq.trans h.stride_eq
  row_eq k l hne := (h'.row_eq k l hne).trans (h.row_eq k l hne)
  parts?_eq place hplace := by
    have hoffset : c'.rows.offset i j = c.rows.offset i j := by
      rw [RowTable.offset, RowTable.offset, h.size_eq, h.stride_eq]
    rw [h'.parts?_eq place (by rwa [h.stride_eq, hoffset]), h.parts?_eq place hplace]

theorem confined_update (h : c.Sound g) (ho : o.Valid g c.size) :
    Confined c (c.update o.start o.stop o.toEntry).2 o.start o.stop := by
  by_cases hadm : Score.admissible o.inside = true
  · obtain ⟨rows, hupdate, hrows⟩ := update_eq h ho.start_lt ho.stop_le ho.nonterminal_lt hadm
    rw [hupdate]
    exact ⟨hrows.size_eq, hrows.stride_eq, hrows.get_eq, fun place => hrows.parts?_eq h.tidy⟩
  · rw [update_of_not_admissible (Bool.not_eq_true _ ▸ hadm)]
    exact .refl c o.start o.stop

theorem confined_commit (h : c.Sound g) (hcell : cell.Committable g c.size) :
    Confined c (c.commit cell) cell.start cell.stop := by
  rw [commit_eq_foldl h hcell]
  have hfold : Confined c (cell.entries.foldl (fun c e => (c.update cell.start cell.stop e).2) c)
        cell.start cell.stop ∧
      (cell.entries.foldl (fun c e => (c.update cell.start cell.stop e).2) c).Sound g := by
    refine foldl_prefix_induction (P := fun _ (c' : PackedChart α) =>
      Confined c c' cell.start cell.stop ∧ c'.Sound g) cell.entries
      (fun visited e rest c' hsplit hv => ?_) ⟨.refl c _ _, h⟩
    obtain ⟨hconfined, hsound⟩ := hv
    have hsize : c'.size = c.size := hconfined.size_eq
    have hvalid : Offer.Valid g c'.size ⟨e, cell.start, cell.stop⟩ := by
      rw [hsize]
      exact (hcell.valid (List.mem_map_of_mem (by simp [hsplit]))).1
    exact ⟨hconfined.trans (confined_update hsound hvalid),
      sound_update hsound hvalid.start_lt hvalid.stop_le hvalid.nonterminal_lt⟩
  exact hfold.1

/-! ## Single precision -/

theorem orders_higher : Chart.Orders (higher : Float32 → Float32 → Bool) where
  asymm {x y} hx hy h := by
    have hx := Chart.isNaN_of_admissible hx
    have hy := Chart.isNaN_of_admissible hy
    simp only [higher, decide_eq_true_eq, decide_eq_false_iff_not, Binary32.lt_iff_signed_lt hx hy,
      Binary32.lt_iff_signed_lt hy hx] at h ⊢
    omega
  better_of_not {x y z} hx hy hz h h' := by
    have hx := Chart.isNaN_of_admissible hx
    have hy := Chart.isNaN_of_admissible hy
    have hz := Chart.isNaN_of_admissible hz
    simp only [higher, decide_eq_true_eq, decide_eq_false_iff_not, Binary32.lt_iff_signed_lt hx hy,
      Binary32.lt_iff_signed_lt hx hz, Binary32.lt_iff_signed_lt hy hz] at h h' ⊢
    omega

/-- A chart of rows is the map that some offers make, and what is put into it next is put into one place of
that map. -/
structure Refines (g : Grammar Float32) (size : Nat) (offers : List (Offer Float32))
    (c : PackedChart Float32) : Prop where
  /-- An entry is found if it is the first of those offered with the highest score. -/
  get?_iff : ∀ i j A e, c.get? i j A = some e ↔ Chart.Leads higher offers i j A e
  /-- None is found where none has been offered that a derivation can have. -/
  none_iff : ∀ i j A, c.get? i j A = none ↔ ∀ o ∈ offers, ¬ Chart.Competes o i j A
  inside_eq : ∀ i j A, c.inside i j A = ((c.get? i j A).map (·.inside)).getD Score.impossible
  mem_entries : ∀ i j e, e ∈ c.entries i j ↔ c.get? i j e.nonterminal = some e
  /-- The live symbols of a cell are in strictly ascending order. -/
  ascending : ∀ i j, (c.symbols i j).Pairwise (· < ·)
  /-- There are at most as many as the stride of the cell has places. -/
  length_le : ∀ i j, (c.symbols i j).length ≤ g.numNonterminals
  stride_eq : c.rows.stride = g.numNonterminals
  /-- The counter of a cell is the number of its entries. -/
  count_eq : ∀ i j, c.rows.count i j = (c.entries i j).length
  /-- The counter of the chart is the number of keys of the map. -/
  counted : (Chart.packed c).Counted
  /-- An offer stays within the stride of its cell, and so does a scratch cell. -/
  confined_update : ∀ o : Offer Float32, o.Valid g size →
    Confined c (c.update o.start o.stop o.toEntry).2 o.start o.stop
  confined_commit : ∀ cell : Scratch Float32, cell.Committable g size →
    Confined c (c.commit cell) cell.start cell.stop
  /-- A cell that is committed, be it as a whole, leaves what its entries leave one by one. -/
  commit_eq : ∀ cell : Scratch Float32, cell.Committable g size →
    c.commit cell = cell.entries.foldl (fun c e => (c.update cell.start cell.stop e).2) c
  /-- An offer leaves the outside scores of all symbols as they are. -/
  outside_update : ∀ o : Offer Float32, o.Valid g size → ∀ i j A,
    (c.update o.start o.stop o.toEntry).2.outside i j A = c.outside i j A
  /-- A new entry comes without an outside score. -/
  outside_new : ∀ o : Offer Float32, o.Valid g size →
    c.get? o.start o.stop o.nonterminal = none →
    (c.update o.start o.stop o.toEntry).2.outside o.start o.stop o.nonterminal = Score.impossible

/-- The start symbol is offered with `-1`, its surroundings are computed, a cell with the part of speech
comes as well, and then the start symbol with `-2`, and with `-1` again. -/
def mixed : List (Operation Float32) :=
  [.offer (Chart.startOffer 0xBF800000), .surround .best,
    .commit ((Scratch.empty 0 1 Chart.certain.numNonterminals).update .best 2 0 (.lexical 0)).2,
    .offer (Chart.startOffer 0xC0000000), .offer (Chart.startOffer 0xBF800000)]

end PackedChart

end Constituency
