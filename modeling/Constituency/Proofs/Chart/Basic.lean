import Constituency.Parser
import Constituency.Proofs.Chart.Packed
import Constituency.Proofs.Chart.Scratch
import Constituency.Proofs.Chart.Slots

/-!
# What a chart holds

The two storages answer alike: a sound chart is the function `Chart.get?`, from which all its lists and
scores can be told, and to commit a cell changes that function over the span of the cell alone.
-/

namespace Constituency

namespace Chart

variable {α : Type} [Score α] {g : Grammar α} {c c' : Chart α} {start stop : Nat}
  {nt : NonTerminal} {e : Entry α}

/-- The parts of a chart agree. -/
def Sound (g : Grammar α) : Chart α → Prop
  | slots c => c.Sound g
  | packed c => c.Sound g

/-- The numbers of the arena, if there is one, have not run out. -/
def Fits : Chart α → Prop
  | slots c => c.arena.next ≤ UInt32.size
  | packed _ => True

instance : (c : Chart α) → Decidable c.Fits
  | slots c => inferInstanceAs (Decidable (c.arena.next ≤ UInt32.size))
  | packed _ => inferInstanceAs (Decidable True)

/-- The entries of a chart are possible. -/
def Possible (c : Chart α) : Prop :=
  ∀ i j A e, c.get? i j A = some e → Score.impossible < e.inside

namespace Sound

theorem nonterminal_eq (h : c.Sound g) (he : c.get? start stop nt = some e) :
    e.nonterminal = nt := by
  cases c with
  | slots c => exact SlotChart.Sound.nonterminal_eq h he
  | packed c => exact PackedChart.Sound.nonterminal_eq h he

theorem bounds (h : c.Sound g) (he : c.get? start stop nt = some e) :
    start < stop ∧ stop ≤ c.size ∧ nt < g.numNonterminals := by
  cases c with
  | slots c => exact SlotChart.Sound.bounds h he
  | packed c => exact PackedChart.Sound.bounds h he

theorem numNonterminals_eq (h : c.Sound g) : c.numNonterminals = g.numNonterminals := by
  cases c with
  | slots c => exact SlotChart.Sound.numNonterminals_eq h
  | packed c => exact PackedChart.Sound.numNonterminals_eq h

theorem inside_eq (h : c.Sound g) (start stop : Nat) (nt : NonTerminal) :
    c.inside start stop nt = ((c.get? start stop nt).map (·.inside)).getD Score.impossible := by
  cases c with
  | slots c => exact SlotChart.Sound.inside_eq h start stop nt
  | packed c => exact PackedChart.inside_eq c start stop nt

theorem inside_of_get? (h : c.Sound g) (he : c.get? start stop nt = some e) :
    c.inside start stop nt = e.inside := by
  rw [h.inside_eq, he]
  rfl

theorem exists_get?_of_possible [MonotoneScore α] (h : c.Sound g)
    (hpos : Score.impossible < c.inside start stop nt) : ∃ e, c.get? start stop nt = some e := by
  rw [h.inside_eq] at hpos
  cases he : c.get? start stop nt with
  | none =>
    rw [he] at hpos
    exact absurd hpos Score.not_impossible_lt_impossible
  | some e => exact ⟨e, rfl⟩

end Sound

/-! ## Lists -/

theorem mem_scored_slots {c : SlotChart α} (h : c.Sound g) {sets : CellBits}
    {keep : NonTerminal → Bool} (hmarks : SlotChart.Marks c sets keep) {x : α} :
    (nt, x) ∈ c.scored sets start stop ↔
      keep nt = true ∧ ∃ e, c.get? start stop nt = some e ∧ e.inside = x := by
  simp only [SlotChart.scored, List.mem_map, Prod.mk.injEq, hmarks.mem_iff]
  constructor
  · rintro ⟨A, ⟨hsome, hkeep⟩, rfl, rfl⟩
    obtain ⟨slot, hslot⟩ := Option.isSome_iff_exists.1 hsome
    obtain ⟨e, he, -⟩ := h.get?_of_slot? hslot
    exact ⟨hkeep, e, he, (h.inside_of_get? he).symm⟩
  · rintro ⟨hkeep, e, he, rfl⟩
    refine ⟨nt, ⟨?_, hkeep⟩, rfl, h.inside_of_get? he⟩
    rw [h.isSome_slot?, he]
    rfl

theorem mem_scored_packed {c : PackedChart α} (h : c.Sound g) {keep : NonTerminal → Bool} {x : α} :
    (nt, x) ∈ c.scored keep start stop ↔
      keep nt = true ∧ ∃ e, c.get? start stop nt = some e ∧ e.inside = x := by
  simp only [PackedChart.scored, List.mem_map, List.mem_filter, Prod.mk.injEq,
    PackedChart.get?_eq_some_iff h]
  constructor
  · rintro ⟨y, ⟨hy, hkeep⟩, rfl, rfl⟩
    exact ⟨hkeep, y.toEntry, ⟨y, hy, rfl, rfl⟩, rfl⟩
  · rintro ⟨hkeep, _, ⟨y, hy, rfl, rfl⟩, rfl⟩
    exact ⟨y, ⟨hy, hkeep⟩, rfl, rfl⟩

/-- The left children of a cell are its entries for symbols that can stand there. -/
theorem mem_leftChildren (h : c.Sound g) {x : α} :
    (nt, x) ∈ c.leftChildren start stop ↔
      g.classes.isLeft nt = true ∧ ∃ e, c.get? start stop nt = some e ∧ e.inside = x := by
  cases c with
  | slots c =>
    rw [← SlotChart.Sound.classes_eq h]
    exact mem_scored_slots h (SlotChart.Sound.leftChildren h)
  | packed c =>
    rw [← PackedChart.Sound.classes_eq h]
    exact mem_scored_packed h

/-- The right children of a cell are its entries for symbols that can stand there. -/
theorem mem_rightChildren (h : c.Sound g) {x : α} :
    (nt, x) ∈ c.rightChildren start stop ↔
      g.classes.isRight nt = true ∧ ∃ e, c.get? start stop nt = some e ∧ e.inside = x := by
  cases c with
  | slots c =>
    rw [← SlotChart.Sound.classes_eq h]
    exact mem_scored_slots h (SlotChart.Sound.rightChildren h)
  | packed c =>
    rw [← PackedChart.Sound.classes_eq h]
    exact mem_scored_packed h

/-- The parts of speech of a cell are its entries for symbols that are parts of speech. -/
theorem mem_posEntries (h : c.Sound g) {x : α} :
    (nt, x) ∈ c.posEntries start stop ↔
      g.classes.isPos nt = true ∧ ∃ e, c.get? start stop nt = some e ∧ e.inside = x := by
  cases c with
  | slots c =>
    rw [← SlotChart.Sound.classes_eq h]
    exact mem_scored_slots h (SlotChart.Sound.pos h)
  | packed c =>
    rw [← PackedChart.Sound.classes_eq h]
    exact mem_scored_packed h

theorem scored_slots_pairwise (c : SlotChart α) (sets : CellBits) (i j : Nat) :
    (c.scored sets i j).Pairwise fun a b => a.1 < b.1 := by
  rw [SlotChart.scored, List.pairwise_map]
  exact sets.members_pairwise i j

theorem scored_packed_pairwise {c : PackedChart α} (h : c.Sound g) (keep : NonTerminal → Bool)
    (i j : Nat) : (c.scored keep i j).Pairwise fun a b => a.1 < b.1 := by
  rw [PackedChart.scored, List.pairwise_map]
  exact (h.rows i j).ascending.filter _

/-- The left children of a cell are in ascending order. -/
theorem leftChildren_pairwise (h : c.Sound g) (i j : Nat) :
    (c.leftChildren i j).Pairwise fun a b => a.1 < b.1 := by
  cases c with
  | slots c => exact scored_slots_pairwise c _ i j
  | packed c => exact scored_packed_pairwise h _ i j

/-- The right children of a cell are in ascending order. -/
theorem rightChildren_pairwise (h : c.Sound g) (i j : Nat) :
    (c.rightChildren i j).Pairwise fun a b => a.1 < b.1 := by
  cases c with
  | slots c => exact scored_slots_pairwise c _ i j
  | packed c => exact scored_packed_pairwise h _ i j

/-- The parts of speech of a cell are in ascending order. -/
theorem posEntries_pairwise (h : c.Sound g) (i j : Nat) :
    (c.posEntries i j).Pairwise fun a b => a.1 < b.1 := by
  cases c with
  | slots c => exact scored_slots_pairwise c _ i j
  | packed c => exact scored_packed_pairwise h _ i j

theorem nodup_leftChildren (h : c.Sound g) (i j : Nat) :
    ((c.leftChildren i j).map (·.1)).Nodup :=
  List.pairwise_map.2 ((leftChildren_pairwise h i j).imp fun hab => Nat.ne_of_lt hab)

theorem nodup_rightChildren (h : c.Sound g) (i j : Nat) :
    ((c.rightChildren i j).map (·.1)).Nodup :=
  List.pairwise_map.2 ((rightChildren_pairwise h i j).imp fun hab => Nat.ne_of_lt hab)

/-- The entries of a cell are those that are found there. -/
theorem mem_entries (h : c.Sound g) :
    e ∈ c.entries start stop ↔ c.get? start stop e.nonterminal = some e := by
  cases c with
  | slots c =>
    simp only [entries, SlotChart.entries, List.mem_filterMap,
      (SlotChart.Sound.populated h).mem_iff, and_true]
    constructor
    · rintro ⟨A, -, he⟩
      rw [SlotChart.Sound.nonterminal_eq h he]
      exact he
    · intro he
      refine ⟨e.nonterminal, ?_, he⟩
      rw [SlotChart.Sound.isSome_slot? h]
      exact Option.isSome_iff_exists.2 ⟨e, he⟩
  | packed c =>
    rw [entries, PackedChart.entries, List.mem_map]
    refine Iff.trans ?_ (PackedChart.get?_eq_some_iff h).symm
    exact exists_congr fun x => and_congr_right fun _ =>
      ⟨fun hx => ⟨congrArg _ hx, hx⟩, fun hx => hx.2⟩

/-- The entries of a cell are in ascending order. -/
theorem entries_pairwise (h : c.Sound g) (i j : Nat) :
    (c.entries i j).Pairwise fun a b => a.nonterminal < b.nonterminal := by
  cases c with
  | slots c =>
    rw [entries, SlotChart.entries, List.pairwise_filterMap]
    refine (c.populated.members_pairwise i j).imp fun {a b} hab x hx y hy => ?_
    rw [SlotChart.Sound.nonterminal_eq h hx, SlotChart.Sound.nonterminal_eq h hy]
    exact hab
  | packed c =>
    rw [entries, PackedChart.entries, List.pairwise_map]
    exact ((PackedChart.Sound.rows h) i j).ascending

/-- A cell is populated if it has entries. -/
theorem isPopulated_iff (h : c.Sound g) {i j : Nat} :
    c.isPopulated i j = true ↔ ∃ A, (c.get? i j A).isSome = true := by
  cases c with
  | slots c =>
    have hmem : ∀ A, A ∈ c.populated.members i j ↔ ((slots c).get? i j A).isSome = true := by
      intro A
      rw [(SlotChart.Sound.populated h).mem_iff, and_iff_left rfl, SlotChart.Sound.isSome_slot? h]
      rfl
    show (!(c.populated.members i j).isEmpty) = true ↔ _
    rw [Bool.not_eq_true', List.isEmpty_eq_false_iff_exists_mem]
    exact exists_congr hmem
  | packed c =>
    show c.isPopulated i j = true ↔ _
    rw [PackedChart.isPopulated_eq h, Bool.not_eq_true', List.isEmpty_eq_false_iff]
    constructor
    · intro hne
      obtain ⟨x, hx⟩ := List.exists_mem_of_ne_nil _ hne
      exact ⟨x.nonterminal, Option.isSome_iff_exists.2
        ⟨x.toEntry, (PackedChart.get?_eq_some_iff h).2 ⟨x, hx, rfl, rfl⟩⟩⟩
    · rintro ⟨A, hA⟩
      obtain ⟨e, he⟩ := Option.isSome_iff_exists.1 hA
      obtain ⟨x, hx, -⟩ := (PackedChart.get?_eq_some_iff h).1 he
      exact List.ne_nil_of_mem hx

/-! ## Packing -/

/-- The entries of a cell are found where they have been written. -/
theorem write_entries_spec (h : c.Sound g) {packed : PackedChart α} (hpacked : packed.Sound g)
    {i j : Nat} (hij : i < j) (hj : j ≤ packed.size) (hempty : ∀ A, packed.get? i j A = none) :
    (packed.write i j (c.entries i j)).Sound g ∧
      (packed.write i j (c.entries i j)).size = packed.size ∧
      ∀ k l A, (packed.write i j (c.entries i j)).get? k l A =
        if k = i ∧ l = j then c.get? k l A else packed.get? k l A := by
  obtain ⟨hrows, hsound⟩ := PackedChart.write_spec hpacked hij hj
    (PackedChart.row_of_get?_eq_none hpacked hempty) (entries_pairwise h i j)
    fun e he => (h.bounds ((mem_entries h).1 he)).2.2
  have hrow : ∀ k l, (packed.write i j (c.entries i j)).row k l =
      if k = i ∧ l = j then (c.entries i j).map PackedChart.fresh else packed.row k l :=
    PackedChart.row_of_replaces hrows
  refine ⟨hsound, hrows.size_eq, fun k l A => ?_⟩
  split
  · next heq =>
    obtain ⟨rfl, rfl⟩ := heq
    refine Option.ext fun e => ?_
    rw [PackedChart.get?_eq_some_iff hsound, hrow, if_pos ⟨rfl, rfl⟩]
    constructor
    · rintro ⟨x, hx, rfl, rfl⟩
      obtain ⟨e, he, rfl⟩ := List.mem_map.1 hx
      exact (mem_entries h).1 he
    · intro he
      obtain rfl := h.nonterminal_eq he
      exact ⟨PackedChart.fresh e, List.mem_map_of_mem ((mem_entries h).2 he), rfl, rfl⟩
  · next hne => rw [PackedChart.get?_eq hsound, PackedChart.get?_eq hpacked, hrow, if_neg hne]

/-- The cells of a chart of slots are written into empty rows one by one. What each of them keeps, the
chart in rows has. -/
theorem toPacked_induction {c : SlotChart α} (h : (slots c).Sound g) {P : PackedChart α → Prop}
    (hinit : P (.empty c.size g))
    (hwrite : ∀ packed i j, packed.Sound g → i < j → j ≤ packed.size →
      (∀ A, packed.get? i j A = none) → P packed → P (packed.write i j ((slots c).entries i j))) :
    (((slots c).toPacked g).Sound g ∧ ((slots c).toPacked g).size = c.size ∧
      ∀ i j A, ((slots c).toPacked g).get? i j A =
        if (i, j) ∈ spansUp c.size then (slots c).get? i j A else none) ∧
      P ((slots c).toPacked g) := by
  refine spansUp_induction (P := fun visited (packed : PackedChart α) =>
    (packed.Sound g ∧ packed.size = c.size ∧ ∀ i j A, packed.get? i j A =
      if (i, j) ∈ visited then (slots c).get? i j A else none) ∧ P packed)
    ⟨⟨PackedChart.sound_empty c.size g, rfl, fun i j A => ?_⟩, hinit⟩
    fun visited i j packed hij hj hnew _ _ hv => ?_
  · rw [PackedChart.get?_empty]
    rfl
  · obtain ⟨⟨hsound, hsize, hget⟩, hkept⟩ := hv
    have hempty : ∀ A, packed.get? i j A = none := fun A => by rw [hget, if_neg hnew]
    obtain ⟨hsound', hsize', hget'⟩ := write_entries_spec h hsound hij (hsize ▸ hj) hempty
    refine ⟨⟨hsound', hsize'.trans hsize, fun k l A => ?_⟩,
      hwrite packed i j hsound hij (hsize ▸ hj) hempty hkept⟩
    refine (hget' k l A).trans ?_
    by_cases hspan : k = i ∧ l = j
    · obtain ⟨rfl, rfl⟩ := hspan
      simp
    · rw [if_neg hspan, hget]
      simp [hspan]

/-- A chart in rows has the entries of the chart it was made from. -/
theorem toPacked_spec (h : c.Sound g) :
    (c.toPacked g).Sound g ∧ (c.toPacked g).size = c.size ∧
      ∀ i j A, (c.toPacked g).get? i j A = c.get? i j A := by
  cases c with
  | packed c => exact ⟨h, rfl, fun _ _ _ => rfl⟩
  | slots c =>
    obtain ⟨⟨hsound, hsize, hget⟩, -⟩ := toPacked_induction h (P := fun _ => True) trivial
      fun _ _ _ _ _ _ _ _ => trivial
    refine ⟨hsound, hsize, fun i j A => ?_⟩
    rw [hget]
    split
    · rfl
    · next hout =>
      rw [eq_comm, Option.eq_none_iff_forall_ne_some]
      intro e he
      have hbounds := Sound.bounds h he
      exact hout (mem_spansUp.2 ⟨hbounds.1, hbounds.2.1⟩)

/-! ## Committing -/

/-- A chart after entries have been offered to a cell: each of its entries there is one of them or was
there before, and each symbol that had an entry or was offered a possible one has an entry. -/
structure Offered (g : Grammar α) (c c' : Chart α) (i j : Nat) (offers : List (Entry α)) :
    Prop where
  sound : c'.Sound g
  size_eq : c'.size = c.size
  elsewhere : ∀ k l A, ¬ (k = i ∧ l = j) → c'.get? k l A = c.get? k l A
  old_or_offer : ∀ A e, c'.get? i j A = some e → c.get? i j A = some e ∨
    e ∈ offers ∧ e.nonterminal = A
  found : ∀ A, (c.get? i j A).isSome = true ∨
    (∃ e ∈ offers, e.nonterminal = A ∧ Score.admissible e.inside = true) →
      (c'.get? i j A).isSome = true

theorem Offered.refl (h : c.Sound g) (i j : Nat) : Offered g c c i j [] where
  sound := h
  size_eq := rfl
  elsewhere _ _ _ _ := rfl
  old_or_offer _ _ he := .inl he
  found A h := by
    rcases h with h | ⟨e, he, -⟩
    · exact h
    · cases he

theorem Offered.trans {c'' : Chart α} {i j : Nat} {offers more : List (Entry α)}
    (h : Offered g c c' i j offers) (h' : Offered g c' c'' i j more) :
    Offered g c c'' i j (offers ++ more) where
  sound := h'.sound
  size_eq := h'.size_eq.trans h.size_eq
  elsewhere k l A hne := (h'.elsewhere k l A hne).trans (h.elsewhere k l A hne)
  old_or_offer A e he := by
    rcases h'.old_or_offer A e he with he | ⟨he, hA⟩
    · rcases h.old_or_offer A e he with he | ⟨he, hA⟩
      · exact .inl he
      · exact .inr ⟨List.mem_append_left _ he, hA⟩
    · exact .inr ⟨List.mem_append_right _ he, hA⟩
  found A hA := by
    refine h'.found A ?_
    rcases hA with hA | ⟨e, he, hA⟩
    · exact .inl (h.found A (.inl hA))
    · rcases List.mem_append.1 he with he | he
      · exact .inl (h.found A (.inr ⟨e, he, hA⟩))
      · exact .inr ⟨e, he, hA⟩

theorem fits_of_fits_update (h : (c.update start stop e).2.Fits) : c.Fits := by
  cases c with
  | slots c => exact Nat.le_trans (SlotChart.next_le_next_install ..) h
  | packed c => trivial

/-- An offer that changes nothing, because the score cannot be had or because there is an entry already. -/
theorem Offered.refused (h : c.Sound g)
    (hpresent : Score.admissible e.inside = true →
      (c.get? start stop e.nonterminal).isSome = true) :
    Offered g c c start stop [e] := by
  refine ⟨h, rfl, fun _ _ _ _ => rfl, fun _ _ he' => .inl he', fun A hA => ?_⟩
  rcases hA with hA | ⟨e', he', rfl, hadm⟩
  · exact hA
  · rw [List.mem_singleton] at he'
    subst he'
    exact hpresent hadm

/-- A slot takes an entry that beats the present one. -/
theorem install_offered {c : SlotChart α} (h : c.Sound g) (hij : start < stop) (hj : stop ≤ c.size)
    (hnt : e.nonterminal < g.numNonterminals)
    (hfits : (c.install start stop e).2.arena.next ≤ UInt32.size)
    (hadm : Score.admissible e.inside = true)
    (hbeats : SlotChart.beats e.inside (c.slot? start stop e.nonterminal) = true) :
    Offered g (slots c) (slots (c.install start stop e).2) start stop [e] := by
  have hnext := SlotChart.next_install_of_beats start stop hadm hbeats
  obtain ⟨-, hsound, hget⟩ := SlotChart.install_of_beats h hij hj hnt (by omega) hadm hbeats
  have hget' : ∀ k l A, (slots (c.install start stop e).2).get? k l A =
      if k = start ∧ l = stop ∧ A = e.nonterminal then some e else c.get? k l A := hget
  refine ⟨hsound, SlotChart.size_install .., fun k l A hne => ?_, fun A e' he' => ?_, fun A hA => ?_⟩
  · rw [hget', if_neg (fun heq => hne ⟨heq.1, heq.2.1⟩)]
    rfl
  · rw [hget'] at he'
    split at he'
    · next heq =>
      rw [Option.some.injEq] at he'
      exact .inr ⟨List.mem_singleton.2 he'.symm, he' ▸ heq.2.2.symm⟩
    · exact .inl he'
  · rw [hget']
    split
    · rfl
    · next hne =>
      rcases hA with hA | ⟨e', he', hA, -⟩
      · exact hA
      · rw [List.mem_singleton] at he'
        exact absurd ⟨rfl, rfl, he' ▸ hA.symm⟩ hne

/-- A row takes an entry or keeps the one it has. -/
theorem packed_update_offered {c : PackedChart α} (h : c.Sound g) (hij : start < stop)
    (hj : stop ≤ c.size) (hnt : e.nonterminal < g.numNonterminals)
    (hadm : Score.admissible e.inside = true) :
    Offered g (packed c) (packed (c.update start stop e).2) start stop [e] := by
  obtain ⟨-, hfrom, hkept, hfound⟩ := PackedChart.offer_spec (PackedChart.Sound.rows h start stop) hnt
  obtain ⟨rows, hupdate, hrows⟩ := PackedChart.update_eq h hij hj hnt hadm
  have hsound := PackedChart.sound_update h hij hj hnt
  have hrow := PackedChart.row_of_replaces hrows
  rw [hupdate] at hsound ⊢
  refine ⟨hsound, hrows.size_eq, fun k l A hne => ?_, fun A e' he' => ?_, fun A hA => ?_⟩
  · show PackedChart.get? _ k l A = c.get? k l A
    rw [PackedChart.get?_eq hsound, PackedChart.get?_eq h, hrow, if_neg hne]
  · obtain ⟨x, hx, rfl, rfl⟩ := (PackedChart.get?_eq_some_iff hsound).1 he'
    rw [hrow, if_pos ⟨rfl, rfl⟩] at hx
    rcases hfrom x hx with ⟨y, hy, hyx⟩ | hxe
    · exact .inl ((PackedChart.get?_eq_some_iff h).2 ⟨y, hy, hyx ▸ rfl, hyx⟩)
    · exact .inr ⟨List.mem_singleton.2 hxe, rfl⟩
  · rw [Option.isSome_iff_exists]
    by_cases hA' : A = e.nonterminal
    · obtain ⟨x, hx, hxe⟩ := hfound
      refine ⟨x.toEntry, (PackedChart.get?_eq_some_iff hsound).2 ⟨x, ?_, hxe.trans hA'.symm, rfl⟩⟩
      rw [hrow, if_pos ⟨rfl, rfl⟩]
      exact hx
    · rcases hA with hA | ⟨e', he', hA, -⟩
      · obtain ⟨old, hold⟩ := Option.isSome_iff_exists.1 hA
        obtain ⟨y, hy, rfl, rfl⟩ := (PackedChart.get?_eq_some_iff h).1 hold
        refine ⟨y.toEntry, (PackedChart.get?_eq_some_iff hsound).2 ⟨y, ?_, rfl, rfl⟩⟩
        rw [hrow, if_pos ⟨rfl, rfl⟩]
        exact hkept y hy hA'
      · rw [List.mem_singleton] at he'
        exact absurd (he' ▸ hA.symm) hA'

/-- An entry offered to a cell. -/
theorem update_offered (h : c.Sound g) (hij : start < stop) (hj : stop ≤ c.size)
    (hnt : e.nonterminal < g.numNonterminals) (hfits : (c.update start stop e).2.Fits) :
    Offered g c (c.update start stop e).2 start stop [e] := by
  by_cases hadm : Score.admissible e.inside = true
  · cases c with
    | slots c =>
      show Offered g (slots c) (slots (c.install start stop e).2) start stop [e]
      by_cases hbeats : SlotChart.beats e.inside (c.slot? start stop e.nonterminal) = true
      · exact install_offered h hij hj hnt hfits hadm hbeats
      · rw [SlotChart.install_of_not (by simp [hbeats])]
        refine .refused h fun _ => ?_
        rw [SlotChart.Sound.beats_eq h] at hbeats
        cases hold : c.get? start stop e.nonterminal with
        | none => simp [hold] at hbeats
        | some old =>
          rw [get?, hold]
          rfl
    | packed c => exact packed_update_offered h hij hj hnt hadm
  · have hsame : (c.update start stop e).2 = c := by
      cases c with
      | slots c =>
        show slots (c.install start stop e).2 = slots c
        rw [SlotChart.install_of_not (by simp [hadm])]
      | packed c =>
        show packed (c.update start stop e).2 = packed c
        rw [PackedChart.update_of_not_admissible (Bool.not_eq_true _ ▸ hadm)]
    rw [hsame]
    exact .refused h fun hadm' => absurd hadm' hadm

theorem fits_of_fits_foldl_update (offers : List (Entry α))
    (h : (offers.foldl (fun c e => (c.update start stop e).2) c).Fits) : c.Fits := by
  induction offers generalizing c with
  | nil => exact h
  | cons e rest ih => exact fits_of_fits_update (ih h)

theorem foldl_update_offered {offers : List (Entry α)} (h : c.Sound g) (hij : start < stop)
    (hj : stop ≤ c.size) (hnt : ∀ e ∈ offers, e.nonterminal < g.numNonterminals)
    (hfits : (offers.foldl (fun c e => (c.update start stop e).2) c).Fits) :
    Offered g c (offers.foldl (fun c e => (c.update start stop e).2) c) start stop offers := by
  induction offers generalizing c with
  | nil => exact .refl h start stop
  | cons e rest ih =>
    have hone := update_offered h hij hj (hnt e List.mem_cons_self)
      (fits_of_fits_foldl_update rest hfits)
    exact hone.trans (ih hone.sound (hone.size_eq ▸ hj)
      (fun e' he' => hnt e' (List.mem_cons_of_mem _ he')) hfits)

theorem commit_slots (c : SlotChart α) (cell : Scratch α) :
    (slots c).commit cell =
      cell.entries.foldl (fun c e => (c.update cell.start cell.stop e).2) (slots c) := by
  show slots (c.commit cell) = _
  rw [SlotChart.commit]
  generalize cell.entries = entries
  induction entries generalizing c with
  | nil => rfl
  | cons e rest ih => exact ih _

theorem foldl_update_packed (c : PackedChart α) (i j : Nat) (entries : List (Entry α)) :
    packed (entries.foldl (fun c e => (c.update i j e).2) c) =
      entries.foldl (fun c e => (c.update i j e).2) (packed c) := by
  induction entries generalizing c with
  | nil => rfl
  | cons e rest ih => exact ih _

/-- A scratch cell committed to a chart. -/
theorem commit_offered (h : c.Sound g) {cell : Scratch α} (hij : cell.start < cell.stop)
    (hj : cell.stop ≤ c.size) (hsize : cell.held.size = g.numNonterminals)
    (hfits : (c.commit cell).Fits) :
    Offered g c (c.commit cell) cell.start cell.stop cell.entries := by
  have hnt : ∀ e ∈ cell.entries, e.nonterminal < g.numNonterminals := fun e he =>
    hsize ▸ Scratch.nonterminal_lt_of_mem_entries he
  cases c with
  | slots c =>
    rw [commit_slots] at hfits ⊢
    exact foldl_update_offered h hij hj hnt hfits
  | packed c =>
    show Offered g (packed c) (packed (c.commit cell)) cell.start cell.stop cell.entries
    by_cases hpopulated : c.isPopulated cell.start cell.stop = true
    · rw [PackedChart.commit, if_pos hpopulated, foldl_update_packed]
      exact foldl_update_offered h hij hj hnt (by rw [← foldl_update_packed]; trivial)
    · have hnot := Bool.not_eq_true _ ▸ hpopulated
      have hblank := PackedChart.get?_of_not_isPopulated h hnot
      obtain ⟨hrows, hsound⟩ := PackedChart.write_spec h hij hj
        (PackedChart.row_of_not_isPopulated h hnot) cell.entries_pairwise hnt
      have hrow : ∀ k l, (c.write cell.start cell.stop cell.entries).row k l =
          if k = cell.start ∧ l = cell.stop then cell.entries.map PackedChart.fresh
          else c.row k l := PackedChart.row_of_replaces hrows
      rw [PackedChart.commit, if_neg hpopulated]
      refine ⟨hsound, hrows.size_eq, fun k l A hne => ?_, fun A e he => .inr ?_, fun A hA => ?_⟩
      · show PackedChart.get? _ k l A = c.get? k l A
        rw [PackedChart.get?_eq hsound, PackedChart.get?_eq h, hrow, if_neg hne]
      · obtain ⟨x, hx, rfl, rfl⟩ := (PackedChart.get?_eq_some_iff hsound).1 he
        rw [hrow, if_pos ⟨rfl, rfl⟩] at hx
        obtain ⟨e, hmem, rfl⟩ := List.mem_map.1 hx
        exact ⟨hmem, rfl⟩
      · rcases hA with hA | ⟨e, he, rfl, -⟩
        · rw [get?, hblank] at hA
          cases hA
        · refine Option.isSome_iff_exists.2 ⟨e, (PackedChart.get?_eq_some_iff hsound).2
            ⟨PackedChart.fresh e, ?_, rfl, rfl⟩⟩
          rw [hrow, if_pos ⟨rfl, rfl⟩]
          exact List.mem_map_of_mem he

theorem fits_of_fits_commit {cell : Scratch α} (h : (c.commit cell).Fits) : c.Fits := by
  cases c with
  | slots c =>
    rw [commit_slots] at h
    exact fits_of_fits_foldl_update _ h
  | packed c => trivial

/-- A cell without entries takes over those of a scratch cell. -/
theorem get?_commit_of_blank (h : c.Sound g) {cell : Scratch α} (hij : cell.start < cell.stop)
    (hj : cell.stop ≤ c.size) (hsize : cell.held.size = g.numNonterminals)
    (hfits : (c.commit cell).Fits) (hadm : ∀ e ∈ cell.entries, Score.admissible e.inside = true)
    (hblank : ∀ A, c.get? cell.start cell.stop A = none) (A : NonTerminal) :
    (c.commit cell).get? cell.start cell.stop A = cell.get? A := by
  have hoff := commit_offered h hij hj hsize hfits
  have hnew : ∀ e, (c.commit cell).get? cell.start cell.stop A = some e → cell.get? A = some e := by
    intro e he
    rcases hoff.old_or_offer A e he with hold | ⟨hmem, hA⟩
    · rw [hblank] at hold
      cases hold
    · rw [← hA]
      exact Scratch.mem_entries.1 hmem
  cases hcell : cell.get? A with
  | none =>
    rw [Option.eq_none_iff_forall_ne_some]
    intro e he
    rw [hnew e he] at hcell
    cases hcell
  | some e =>
    obtain ⟨held, -, rfl⟩ := Scratch.get?_eq_some_iff.1 hcell
    have hmem : (⟨A, held.inside, held.backpointer⟩ : Entry α) ∈ cell.entries :=
      Scratch.mem_entries.2 hcell
    obtain ⟨e', he'⟩ := Option.isSome_iff_exists.1
      (hoff.found A (.inr ⟨_, hmem, rfl, hadm _ hmem⟩))
    rw [he', ← hnew e' he', hcell]

end Chart

namespace Parser

variable {α : Type} [Score α]

theorem sound_emptyChart (g : Grammar α) (storage : Storage) (size : Nat) :
    (emptyChart g storage size).Sound g := by
  cases storage with
  | slots => exact SlotChart.sound_empty size g
  | packed => exact PackedChart.sound_empty size g

theorem size_emptyChart (g : Grammar α) (storage : Storage) (size : Nat) :
    (emptyChart g storage size).size = size := by
  cases storage <;> rfl

theorem get?_emptyChart (g : Grammar α) (storage : Storage) (size i j : Nat) (A : NonTerminal) :
    (emptyChart g storage size).get? i j A = none := by
  cases storage with
  | slots => exact SlotChart.get?_empty size g i j A
  | packed => exact PackedChart.get?_empty size g i j A

end Parser

end Constituency
