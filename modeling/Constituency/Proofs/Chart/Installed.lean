import Constituency.Proofs.Chart.Leaders
import Constituency.Proofs.Chart.Race
import Constituency.Proofs.Chart.Words
import Constituency.Proofs.ChildCode.Faithful

/-!
# Slots, arena, sets and counts keep in step

Entries are installed one after the other in an empty chart of slots, which has a number for each of them.
The word of a filled slot then has the rank of a score above the number under which an entry with this score
is stored (`SlotChart.InStep`), the sets of a cell list its filled slots, and the chart counts them. A slot
is left with the highest rank that has been offered to it, so that the order of the entries matters to none of
this (`SlotChart.Installed.inside_eq`), and the chart is the same in rows (`SlotChart.installs_in_step`).
-/

namespace Constituency

namespace SlotChart

variable {g : Grammar Float32} {c c' : SlotChart Float32} {offers more : List (Offer Float32)}
  {size i j : Nat} {A : NonTerminal} {o : Offer Float32}

/-- The word of a slot. -/
def wordAt (c : SlotChart Float32) (start stop : Nat) (nt : NonTerminal) : UInt64 :=
  Slot.word (c.slot? start stop nt)

/-- Installs entries one after the other. -/
def installAll (c : SlotChart Float32) (offers : List (Offer Float32)) : SlotChart Float32 :=
  offers.foldl (fun c o => (c.install o.start o.stop o.toEntry).2) c

/-! ## Ranks in order -/

theorem orders_outranks : Chart.Orders (Score.outranks : Float32 → Float32 → Bool) where
  asymm _ _ h := decide_eq_false (UInt32.lt_asymm (of_decide_eq_true h))
  better_of_not _ _ _ h h' :=
    decide_eq_true (UInt32.lt_of_le_of_lt (UInt32.not_lt.1 (of_decide_eq_false h)) (of_decide_eq_true h'))

/-! ## Entry by entry -/

/-- As long as there are numbers left, an entry takes one just if it is installed. -/
theorem next_install (hroom : c.arena.next < UInt32.size) (i j : Nat) (e : Entry Float32) :
    (c.install i j e).2.arena.next = c.arena.next + if (c.install i j e).1 then 1 else 0 := by
  by_cases htakes : Score.admissible e.inside = true ∧
      beats e.inside (c.slot? i j e.nonterminal) = true
  · rw [next_install_of_beats i j htakes.1 htakes.2, install_eq_filled hroom htakes.1 htakes.2]
    rfl
  · rw [install_of_not (by simpa using htakes)]
    rfl

/-- A chart for a sentence of that size after some entries have been offered to it, with as many of them
stored as it has taken. -/
structure Installed (g : Grammar Float32) (size : Nat) (offers : List (Offer Float32))
    (c : SlotChart Float32) : Prop where
  size_eq : c.size = size
  holds : Chart.Holds g Score.outranks offers (.slots c)

theorem installed_empty (g : Grammar Float32) (size : Nat) : Installed g size [] (empty size g) where
  size_eq := rfl
  holds := .initial (sound_empty size g) (get?_empty size g) rfl

/-- One more entry. -/
theorem Installed.install (h : Installed g size offers c) (ho : o.Valid g size)
    (hroom : c.arena.next < UInt32.size) :
    Installed g size (offers ++ [o]) (c.install o.start o.stop o.toEntry).2 := by
  obtain ⟨rfl, hholds⟩ := h
  have hfits : ((Chart.slots c).offer o).2.Fits := by
    show (c.install o.start o.stop o.toEntry).2.arena.next ≤ UInt32.size
    rw [next_install hroom]
    split <;> omega
  exact ⟨size_install c o.start o.stop o.toEntry,
    hholds.offer orders_outranks (Chart.slots_takes hholds.sound ho hfits)⟩

/-- Any number of entries for which there are numbers. -/
theorem Installed.installAll (h : Installed g size offers c) (hvalid : ∀ o ∈ more, o.Valid g size)
    (hroom : c.arena.next + more.length ≤ UInt32.size) :
    Installed g size (offers ++ more) (c.installAll more) ∧
      (c.installAll more).arena.next = c.arena.next + ((Chart.slots c).answers more).count true := by
  induction more generalizing c offers with
  | nil => exact ⟨by rwa [List.append_nil], rfl⟩
  | cons o rest ih =>
    rw [List.length_cons] at hroom
    have hnext := next_install (c := c) (by omega) o.start o.stop o.toEntry
    have hfirst := h.install (hvalid o List.mem_cons_self) (by omega)
    have hroom' : (c.install o.start o.stop o.toEntry).2.arena.next + rest.length ≤ UInt32.size := by
      rw [hnext]
      split <;> omega
    obtain ⟨hrest, hcount⟩ := ih hfirst (fun o' ho' => hvalid o' (List.mem_cons_of_mem o ho')) hroom'
    rw [List.append_assoc] at hrest
    refine ⟨hrest, hcount.trans ?_⟩
    have hanswer : ((Chart.slots c).offer o).1 = (c.install o.start o.stop o.toEntry).1 := rfl
    have hafter : ((Chart.slots c).offer o).2 = .slots (c.install o.start o.stop o.toEntry).2 := rfl
    rw [hnext, Chart.answers, List.count_cons, hanswer, hafter, beq_true]
    omega

/-! ## What is left -/

/-- The parts of a chart agree. -/
structure InStep (g : Grammar Float32) (c : SlotChart Float32) : Prop where
  /-- The upper half of the word of a filled slot is the rank of the score of the entry that the lower half
  names. The entry and its score are those that the chart answers with. -/
  filled : ∀ i j A, c.wordAt i j A ≠ 0 → ∃ e, c.arena.get? (c.wordAt i j A).toUInt32 = some e ∧
    (c.wordAt i j A >>> 32).toUInt32 = Binary32.rank e.inside.toBits ∧ e.nonterminal = A ∧
    c.get? i j A = some e ∧ c.inside i j A = e.inside
  /-- The score can be told from the word alone. -/
  inside_eq : ∀ i j A, c.inside i j A = if c.wordAt i j A = 0 then Score.impossible
    else .ofBits (Binary32.ofRank (c.wordAt i j A >>> 32).toUInt32)
  empty : ∀ i j A, c.wordAt i j A = 0 → c.get? i j A = none
  /-- A set lists the symbols of its kind whose slots are filled, in ascending order. -/
  members_eq : ∀ (s : CellSet) i j, (s.of c).members i j =
    (List.range g.numNonterminals).filter fun A => c.wordAt i j A != 0 && s.keep g.classes A
  numEntries_eq : c.numEntries = c.filledSlots.ncard

theorem wordAt_ne_zero_iff (h : c.Sound g) : c.wordAt i j A ≠ 0 ↔ (c.slot? i j A).isSome = true := by
  rw [wordAt]
  cases hslot : c.slot? i j A with
  | none => exact iff_of_false (fun hne => hne rfl) Bool.false_ne_true
  | some slot => exact iff_of_true (Slot.word_ne_zero (h.stored i j A slot hslot).2.1) rfl

theorem Sound.marks (h : c.Sound g) (s : CellSet) : c.Marks (s.of c) (s.keep g.classes) := by
  rw [← h.classes_eq]
  cases s
  · exact h.populated
  · exact h.leftChildren
  · exact h.rightChildren
  · exact h.pos

theorem Sound.members_eq (h : c.Sound g) (s : CellSet) (i j : Nat) : (s.of c).members i j =
    (List.range g.numNonterminals).filter fun A => c.wordAt i j A != 0 && s.keep g.classes A := by
  refine eq_of_ascending id (CellBits.members_pairwise _ i j)
    (List.Pairwise.filter _ List.pairwise_lt_range) fun A => ?_
  rw [(h.marks s).mem_iff, List.mem_filter, Bool.and_eq_true, bne_iff_ne, wordAt_ne_zero_iff h,
    List.mem_range]
  refine ⟨fun hA => ⟨?_, hA⟩, And.right⟩
  obtain ⟨slot, hslot⟩ := Option.isSome_iff_exists.1 hA.1
  exact (h.slot?_bounds hslot).2.2

theorem mem_filledSlots (h : c.Sound g) {x : Nat × Nat × NonTerminal} :
    x ∈ c.filledSlots ↔ (c.get? x.1 x.2.1 x.2.2).isSome = true := by
  rw [← h.isSome_slot?]
  rfl

theorem numEntries_eq_ncard (h : c.Sound g) (hcounted : (Chart.slots c).Counted) :
    c.numEntries = c.filledSlots.ncard := by
  obtain ⟨keys, hnodup, hmem, hlength⟩ := hcounted
  have hfilled : c.filledSlots = (keys.toFinset : Set (Nat × Nat × NonTerminal)) := by
    ext x
    rw [mem_filledSlots h, Finset.mem_coe, List.mem_toFinset]
    exact (hmem x.1 x.2.1 x.2.2).symm
  rw [hfilled, Set.ncard_coe_finset, List.toFinset_card_of_nodup hnodup]
  exact hlength.symm

theorem Installed.inStep (h : Installed g size offers c) : InStep g c := by
  have hsound : c.Sound g := h.holds.sound
  have hword : ∀ i j A, c.wordAt i j A = 0 → c.slot? i j A = none := fun i j A hzero =>
    Option.not_isSome_iff_eq_none.1 fun hsome => (wordAt_ne_zero_iff hsound).2 hsome hzero
  refine ⟨fun i j A hne => ?_, fun i j A => ?_, fun i j A hzero => ?_, hsound.members_eq,
    numEntries_eq_ncard hsound h.holds.counted⟩
  · obtain ⟨slot, hslot⟩ := Option.isSome_iff_exists.1 ((wordAt_ne_zero_iff hsound).1 hne)
    obtain ⟨-, -, e, he, hnt, hscore⟩ := hsound.stored i j A slot hslot
    have hget : c.get? i j A = some e := by rw [get?, hslot, Option.bind_some, he]
    rw [wordAt, hslot, Slot.toUInt32_word, Slot.toUInt32_word_shiftRight, ← hscore]
    exact ⟨e, he, rfl, hnt, hget, hsound.inside_of_get? hget⟩
  · split
    · next hzero => rw [inside, hword i j A hzero]
    · next hne =>
      obtain ⟨slot, hslot⟩ := Option.isSome_iff_exists.1 ((wordAt_ne_zero_iff hsound).1 hne)
      rw [wordAt, inside, hslot, Slot.toUInt32_word_shiftRight, Binary32.ofRank_rank,
        Float32.ofBits_toBits]
  · rw [get?, hword i j A hzero, Option.bind_none]

/-! ## Other orders -/

section Perm

variable {offers' : List (Offer Float32)} (h : Installed g size offers c)
  (h' : Installed g size offers' c') (hsame : ∀ o, o ∈ offers ↔ o ∈ offers')

include h h' hsame

theorem Installed.get?_eq_none_iff (i j : Nat) (A : NonTerminal) :
    c.get? i j A = none ↔ c'.get? i j A = none := by
  refine (h.holds.none_iff i j A).trans (Iff.trans ?_ (h'.holds.none_iff i j A).symm)
  exact forall_congr' fun o => imp_congr_left (hsame o)

/-- What one order leaves in a slot does not outrank what another order leaves there. -/
theorem Installed.not_outranks {e e' : Entry Float32} (he : c.get? i j A = some e)
    (he' : c'.get? i j A = some e') : Score.outranks e.inside e'.inside = false := by
  obtain ⟨before, o, after, hsplit, ho, rfl, -⟩ := (h.holds.get?_iff i j A e).1 he
  have hmem : o ∈ offers := hsplit ▸ List.mem_append_right before List.mem_cons_self
  exact ((h'.holds.get?_iff i j A e').1 he').not_better orders_outranks ((hsame o).1 hmem) ho

/-- The same entries in another order leave the same scores. -/
theorem Installed.inside_eq : c.inside = c'.inside := by
  have hsound : c.Sound g := h.holds.sound
  have hsound' : c'.Sound g := h'.holds.sound
  funext i j A
  have hnone := h.get?_eq_none_iff h' hsame i j A
  rw [hsound.inside_eq, hsound'.inside_eq]
  cases he : c.get? i j A with
  | none => rw [hnone.1 he]
  | some e =>
    cases he' : c'.get? i j A with
    | none =>
      rw [hnone.2 he'] at he
      cases he
    | some e' =>
      have hle := of_decide_eq_false (h.not_outranks h' hsame he he')
      have hle' := of_decide_eq_false (h'.not_outranks h (fun o => (hsame o).symm) he' he)
      have hbits := Binary32.rank_injective
        (UInt32.le_antisymm (UInt32.not_lt.1 hle) (UInt32.not_lt.1 hle'))
      show e.inside = e'.inside
      rw [← Float32.ofBits_toBits e.inside, hbits, Float32.ofBits_toBits]

theorem Installed.wordAt_eq_zero_iff (i j : Nat) (A : NonTerminal) :
    c.wordAt i j A = 0 ↔ c'.wordAt i j A = 0 := by
  have hsound : c.Sound g := h.holds.sound
  have hsound' : c'.Sound g := h'.holds.sound
  rw [← not_iff_not, ← ne_eq, ← ne_eq, wordAt_ne_zero_iff hsound, wordAt_ne_zero_iff hsound',
    hsound.isSome_slot?, hsound'.isSome_slot?, ← not_iff_not, Option.not_isSome_iff_eq_none,
    Option.not_isSome_iff_eq_none]
  exact h.get?_eq_none_iff h' hsame i j A

/-- And the same sets. -/
theorem Installed.members_eq (s : CellSet) (i j : Nat) :
    (s.of c).members i j = (s.of c').members i j := by
  have hsound : c.Sound g := h.holds.sound
  have hsound' : c'.Sound g := h'.holds.sound
  rw [hsound.members_eq, hsound'.members_eq]
  refine List.filter_congr fun A _ => ?_
  have hzero := h.wordAt_eq_zero_iff h' hsame i j A
  rw [bne, bne, Bool.eq_iff_iff.2 (beq_iff_eq.trans (hzero.trans beq_iff_eq.symm))]

/-- And as many entries. -/
theorem Installed.numEntries_eq : c.numEntries = c'.numEntries := by
  have hfilled : c.filledSlots = c'.filledSlots := by
    ext x
    have hnone := h.get?_eq_none_iff h' hsame x.1 x.2.1 x.2.2
    rw [mem_filledSlots h.holds.sound, mem_filledSlots h'.holds.sound, ← not_iff_not,
      Option.not_isSome_iff_eq_none, Option.not_isSome_iff_eq_none, hnone]
  rw [h.inStep.numEntries_eq, h'.inStep.numEntries_eq, hfilled]

end Perm

/-! ## In rows -/

/-- A chart finds the same in rows. -/
theorem same_toPacked (h : c.Sound g) :
    Chart.Same g (.slots c) (.packed ((Chart.slots c).toPacked g)) := by
  have hchart : (Chart.slots c).Sound g := h
  have hplain : (Chart.slots c).Plain g := trivial
  obtain ⟨hsound, hsize, hget⟩ := Chart.toPacked_spec hchart
  refine ⟨hchart, hsound, trivial, hplain, hplain.toPacked hchart, hsize.symm, ?_⟩
  funext i j A
  exact (hget i j A).symm

/-- The number that codes its children and the thirty-two bits kept of its midpoint are enough for an entry. -/
def Storable (g : Grammar Float32) (e : Entry Float32) : Prop :=
  e.backpointer.children.InRange g.numNonterminals ChildCode.maxWords ∧
    ∀ left right (midpoint : Nat), e.backpointer = .binary left right midpoint → midpoint < 2 ^ 32

/-- Rows can be read back from what they store of children and midpoints. -/
theorem decode_packedChildren {p : PackedChart Float32} (hcode : p.code = g.code)
    (hstorable : ∀ e ∈ p.entries i j, Storable g e) :
    (p.packedChildren i j).map (fun x => Backpointer.decode g.code x.1 x.2) =
      (p.entries i j).map (·.backpointer) := by
  rw [PackedChart.packedChildren, PackedChart.entries, List.map_map, List.map_map, hcode]
  refine List.map_congr_left fun x hx => ?_
  obtain ⟨hrange, hmidpoint⟩ := hstorable x.toEntry (List.mem_map_of_mem hx)
  have hfits : g.numNonterminals ≤ 2 ^ g.code.shift := Nat.one_shiftLeft _ ▸ g.fits
  exact Backpointer.decode_encode (hrange.mono hfits (Nat.le_refl _)) hmidpoint j

/-- The two charts hold the same entries in every cell and list the same. -/
structure SameCells (c c' : Chart Float32) : Prop where
  get?_eq : c.get? = c'.get?
  inside_eq : c.inside = c'.inside
  entries_eq : c.entries = c'.entries
  leftChildren_eq : c.leftChildren = c'.leftChildren
  rightChildren_eq : c.rightChildren = c'.rightChildren
  posEntries_eq : c.posEntries = c'.posEntries

/-- What is in a chart has been offered to it. -/
theorem Installed.mem_offers (h : Installed g size offers c) {e : Entry Float32}
    (he : c.get? i j A = some e) : ∃ o ∈ offers, o.toEntry = e := by
  obtain ⟨before, o, after, hsplit, -, heq, -⟩ := (h.holds.get?_iff i j A e).1 he
  exact ⟨o, hsplit ▸ List.mem_append_right before List.mem_cons_self, heq⟩

theorem Installed.storable (h : Installed g size offers c)
    (hstorable : ∀ o ∈ offers, Storable g o.toEntry) :
    ∀ e ∈ ((Chart.slots c).toPacked g).entries i j, Storable g e := by
  intro e he
  have hsame := same_toPacked h.holds.sound
  have hentries : (Chart.slots c).entries i j = ((Chart.slots c).toPacked g).entries i j :=
    congrFun (congrFun hsame.entries_eq i) j
  obtain ⟨o, ho, rfl⟩ := h.mem_offers ((Chart.mem_entries h.holds.sound).1 (hentries ▸ he))
  exact hstorable o ho

/-- Offers of `-2`, `-1` and `-0` to one slot. -/
def climb : List (Offer Float32) :=
  [Chart.startOffer 0xC0000000, Chart.startOffer 0xBF800000, Chart.startOffer Binary32.signBit]

end SlotChart

end Constituency
