import Constituency.Proofs.Chart.Storage
import Constituency.Proofs.Grammar.Chain
import Constituency.Proofs.Score.Binary32

/-!
# Entries offered one by one

A chart of slots and one of rows answer alike when the same entries are offered to both, as long as ranks
and scores agree on which entry is better (`Alike.offer`). In single precision they disagree on the two
zeros alone, and so the two storages part at the first offer of `0` in a place that holds `-0`, and not
before (`storages_agree`).
-/

namespace Constituency

/-- An entry offered to a cell. -/
structure Offer (α : Type) extends Entry α where
  start : Nat
  stop : Nat

/-- The cell lies in a sentence of that size, and the symbol is one of the grammar. -/
structure Offer.Valid {α : Type} (g : Grammar α) (size : Nat) (o : Offer α) : Prop where
  start_lt : o.start < o.stop
  stop_le : o.stop ≤ size
  nonterminal_lt : o.nonterminal < g.numNonterminals

/-! ## Offers to a chart -/

namespace Chart

variable {α : Type} [Score α] {g : Grammar α} {c c' : Chart α} {o : Offer α}
  {better : α → α → Bool}

/-- Offers an entry and tells whether the chart has changed. -/
def offer (c : Chart α) (o : Offer α) : Bool × Chart α :=
  c.update o.start o.stop o.toEntry

/-- What is answered to offers that follow one another. -/
def answers (c : Chart α) : List (Offer α) → List Bool
  | [] => []
  | o :: rest => (c.offer o).1 :: answers (c.offer o).2 rest

/-- The chart after all of them. -/
def offerAll (c : Chart α) (offers : List (Offer α)) : Chart α :=
  offers.foldl (fun c o => (c.offer o).2) c

/-- A chart takes an offer where it has no entry or one that the new score is better than, and nothing else
changes. -/
structure Takes (g : Grammar α) (better : α → α → Bool) (c : Chart α) (o : Offer α) : Prop where
  answer_eq : (c.offer o).1 = (Score.admissible o.inside &&
    (c.get? o.start o.stop o.nonterminal).all fun old => better o.inside old.inside)
  sound : (c.offer o).2.Sound g
  size_eq : (c.offer o).2.size = c.size
  get?_eq : ∀ k l A, (c.offer o).2.get? k l A =
    if (c.offer o).1 = true ∧ (k = o.start ∧ l = o.stop ∧ A = o.nonterminal) then some o.toEntry
    else c.get? k l A
  numEntries_eq : (c.offer o).2.numEntries = c.numEntries +
    if (c.offer o).1 = true ∧ (c.get? o.start o.stop o.nonterminal).isNone then 1 else 0

/-- What is not admissible is not taken. -/
theorem takes_of_not_admissible (h : c.Sound g) (hadm : Score.admissible o.inside = false)
    (hoffer : c.offer o = (false, c)) : c.Takes g better o where
  answer_eq := by rw [hoffer, hadm, Bool.false_and]
  sound := by rwa [hoffer]
  size_eq := by rw [hoffer]
  get?_eq k l A := by simp [hoffer]
  numEntries_eq := by simp [hoffer]

theorem packed_takes {c : PackedChart α} (h : c.Sound g) (ho : o.Valid g c.size) :
    (packed c).Takes g (fun new old => decide (old < new)) o := by
  obtain ⟨hij, hj, hnt⟩ := ho
  by_cases hadm : Score.admissible o.inside = true
  · have hrow := h.rows o.start o.stop
    obtain ⟨hchanged, hfind, hlength⟩ := PackedChart.offer_find? (e := o.toEntry) hrow
    obtain ⟨rows, hupdate, hrows⟩ := PackedChart.update_eq h hij hj hnt hadm
    have hsound := PackedChart.sound_update h hij hj hnt
    rw [hupdate] at hsound
    obtain ⟨r, hr⟩ : ∃ r, r = PackedChart.offer o.toEntry (c.row o.start o.stop) := ⟨_, rfl⟩
    rw [← hr] at hchanged hfind hlength hrows hupdate
    have hoffer : (packed c).offer o = (r.1, packed { c with rows }) := by
      rw [Chart.offer, Chart.update, hupdate]
      rfl
    have hget : ∀ k l A, (packed c).get? k l A =
      (PackedChart.find? (c.row k l) A).map (·.toEntry) := PackedChart.get?_eq h
    have htotal : rows.total + (c.row o.start o.stop).length = c.rows.total + r.2.length :=
      hrows.total_eq
    refine ⟨?_, ?_, ?_, fun k l A => ?_, ?_⟩
    · rw [hoffer, hadm, Bool.true_and, hget, hchanged]
      cases PackedChart.find? (c.row o.start o.stop) o.nonterminal <;> rfl
    · rw [hoffer]
      exact hsound
    · rw [hoffer]
      exact hrows.size_eq
    · rw [hoffer, hget]
      refine (PackedChart.get?_eq hsound k l A).trans ?_
      rw [PackedChart.row_of_replaces hrows]
      by_cases hspan : k = o.start ∧ l = o.stop
      · obtain ⟨rfl, rfl⟩ := hspan
        rw [if_pos ⟨rfl, rfl⟩, hfind]
        simp only [true_and]
      · rw [if_neg hspan, if_neg fun h => hspan ⟨h.2.1, h.2.2.1⟩]
    · rw [hoffer, hget, Option.isNone_map]
      show rows.total = c.rows.total + _
      by_cases hnone : (PackedChart.find? (c.row o.start o.stop) o.nonterminal).isNone = true
      · rw [if_pos hnone] at hlength
        rw [Option.isNone_iff_eq_none.1 hnone, Option.all_none] at hchanged
        rw [if_pos ⟨hchanged, hnone⟩]
        omega
      · rw [if_neg hnone] at hlength
        rw [if_neg fun h => hnone h.2]
        omega
  · rw [Bool.not_eq_true] at hadm
    refine takes_of_not_admissible (c := packed c) h hadm ?_
    rw [Chart.offer, Chart.update, PackedChart.update_of_not_admissible hadm]
    rfl

/-- As long as the arena has numbers left. -/
theorem slots_takes {c : SlotChart α} (h : c.Sound g) (ho : o.Valid g c.size)
    (hfits : ((slots c).offer o).2.Fits) : (slots c).Takes g Score.outranks o := by
  obtain ⟨hij, hj, hnt⟩ := ho
  have hbeats := h.beats_eq o.inside o.start o.stop o.nonterminal
  by_cases hadm : Score.admissible o.inside = true
  · by_cases htakes : SlotChart.beats o.inside (c.slot? o.start o.stop o.nonterminal) = true
    · have hnext := SlotChart.next_install_of_beats (e := o.toEntry) o.start o.stop hadm htakes
      have hroom : c.arena.next < UInt32.size := by
        have hfits' : (c.install o.start o.stop o.toEntry).2.arena.next ≤ UInt32.size := hfits
        omega
      have hinstall := SlotChart.install_eq_filled hroom hadm htakes
      obtain ⟨hdone, hsound, hget⟩ := SlotChart.install_of_beats h hij hj hnt hroom hadm htakes
      have hanswer : ((slots c).offer o).1 = true := hdone
      refine ⟨?_, hsound, SlotChart.size_install .., fun k l A => ?_, ?_⟩
      · rw [hanswer, hadm, Bool.true_and]
        exact (hbeats ▸ htakes).symm
      · simp only [hanswer, true_and]
        exact hget k l A
      · have hnone : (c.slot? o.start o.stop o.nonterminal).isNone =
            (c.get? o.start o.stop o.nonterminal).isNone := by
          rw [← Option.not_isSome, ← Option.not_isSome, h.isSome_slot?]
        show (c.install o.start o.stop o.toEntry).2.numEntries = c.numEntries +
          if _ ∧ (c.get? o.start o.stop o.nonterminal).isNone = true then 1 else 0
        simp only [hanswer, true_and]
        rw [hinstall, ← hnone]
        dsimp only
        split <;> rfl
    · rw [Bool.not_eq_true] at htakes
      have hoffer : (slots c).offer o = (false, slots c) := by
        simp [Chart.offer, Chart.update, SlotChart.install, htakes]
      refine ⟨?_, by rwa [hoffer], by rw [hoffer], fun k l A => by simp [hoffer],
        by simp [hoffer]⟩
      rw [hoffer, hadm, Bool.true_and]
      exact (hbeats ▸ htakes).symm
  · rw [Bool.not_eq_true] at hadm
    refine takes_of_not_admissible (c := slots c) h hadm ?_
    simp [Chart.offer, Chart.update, SlotChart.install, hadm]

/-! ## What can be asked of a chart -/

/-- Nothing that can be asked of the two charts tells them apart. -/
structure Indistinguishable (c c' : Chart α) : Prop where
  get?_eq : c.get? = c'.get?
  inside_eq : c.inside = c'.inside
  entries_eq : c.entries = c'.entries
  leftChildren_eq : c.leftChildren = c'.leftChildren
  rightChildren_eq : c.rightChildren = c'.rightChildren
  posEntries_eq : c.posEntries = c'.posEntries
  isPopulated_eq : c.isPopulated = c'.isPopulated
  numEntries_eq : c.numEntries = c'.numEntries

/-- Charts in the two storages that hold the same, and as much of it. -/
structure Alike (g : Grammar α) (c : SlotChart α) (c' : PackedChart α) : Prop extends
    Same g (slots c) (packed c') where
  numEntries_eq : c.numEntries = c'.numEntries

namespace Alike

variable {c : SlotChart α} {c' : PackedChart α}

theorem empty (size : Nat) (g : Grammar α) : Alike g (.empty size g) (.empty size g) where
  sound := SlotChart.sound_empty size g
  sound' := PackedChart.sound_empty size g
  inRows := trivial
  plain := trivial
  plain' := PackedChart.plain_empty size g
  size_eq := rfl
  get?_eq := by
    funext i j A
    rw [Chart.get?, Chart.get?, SlotChart.get?_empty, PackedChart.get?_empty]
  numEntries_eq := rfl

theorem indistinguishable (h : Alike g c c') : Indistinguishable (slots c) (packed c') where
  get?_eq := h.get?_eq
  inside_eq := h.inside_eq
  entries_eq := h.entries_eq
  leftChildren_eq := h.leftChildren_eq
  rightChildren_eq := h.rightChildren_eq
  posEntries_eq := h.posEntries_eq
  isPopulated_eq := by
    funext i j
    rw [Bool.eq_iff_iff, isPopulated_iff h.sound, isPopulated_iff h.sound', h.get?_eq]
  numEntries_eq := h.numEntries_eq

/-- An offer of which ranks and scores think the same is answered alike. -/
theorem offer (h : Alike g c c') (ho : o.Valid g c.size) (hfits : ((slots c).offer o).2.Fits)
    (hagree : Score.admissible o.inside = true →
      ∀ old, c.get? o.start o.stop o.nonterminal = some old →
      (Score.outranks o.inside old.inside = true ↔ old.inside < o.inside)) :
    ((slots c).offer o).1 = ((packed c').offer o).1 ∧
      Alike g (c.install o.start o.stop o.toEntry).2 (c'.update o.start o.stop o.toEntry).2 := by
  have hsize : c.size = c'.size := h.size_eq
  have htakes := slots_takes h.sound ho hfits
  have htakes' := packed_takes h.sound' (hsize ▸ ho)
  have hanswer : ((slots c).offer o).1 = ((packed c').offer o).1 := by
    rw [htakes.answer_eq, htakes'.answer_eq, ← h.get?_eq]
    cases hadm : Score.admissible o.inside with
    | false => rfl
    | true =>
      rw [Bool.true_and, Bool.true_and]
      cases hold : (slots c).get? o.start o.stop o.nonterminal with
      | none => rfl
      | some old =>
        rw [Option.all_some, Option.all_some, Bool.eq_iff_iff, decide_eq_true_eq]
        exact hagree hadm old hold
  have ho' : o.Valid g c'.size := hsize ▸ ho
  have hplain := PackedChart.Plain.update (e := o.toEntry) h.plain' h.sound' ho'.start_lt ho'.stop_le
    ho'.nonterminal_lt
  refine ⟨hanswer, ⟨htakes.sound, htakes'.sound, trivial, trivial, hplain, ?_, ?_⟩, ?_⟩
  · exact htakes.size_eq.trans (h.size_eq.trans htakes'.size_eq.symm)
  · funext k l A
    refine (htakes.get?_eq k l A).trans (Eq.trans ?_ (htakes'.get?_eq k l A).symm)
    rw [hanswer, h.get?_eq]
  · refine htakes.numEntries_eq.trans (Eq.trans ?_ htakes'.numEntries_eq.symm)
    rw [hanswer, h.get?_eq]
    exact congrArg (· + _) h.numEntries_eq

end Alike

/-! ## The two zeros -/

/-- The entry offered scores `0`, and the one in its place `-0`. -/
def liftsZero (c : Chart Float32) (o : Offer Float32) : Bool :=
  (c.get? o.start o.stop o.nonterminal).any fun old =>
    old.inside.toBits == Binary32.signBit && o.inside.toBits == 0

/-- No offer lifts a zero. -/
def liftsNoZero (c : Chart Float32) : List (Offer Float32) → Bool
  | [] => true
  | o :: rest => !c.liftsZero o && liftsNoZero (c.offer o).2 rest

theorem fits_of_fits_offerAll {offers : List (Offer α)} (h : (c.offerAll offers).Fits) : c.Fits := by
  induction offers generalizing c with
  | nil => exact h
  | cons o rest ih => exact fits_of_fits_update (ih h)

theorem isNaN_of_admissible {x : α} (h : Score.admissible x = true) : Score.isNaN x = false := by
  simp only [Score.admissible, Bool.not_eq_true', Bool.or_eq_false_iff] at h
  exact h.2

theorem admissible_of_toBits_eq_zero {x : Float32} (h : x.toBits = 0) :
    Score.admissible x = true := by
  rw [← Float32.ofBits_toBits x, h]
  decide +kernel

namespace Alike

variable {g : Grammar Float32} {c : SlotChart Float32} {c' : PackedChart Float32}
  {o : Offer Float32}

/-- Ranks and scores think the same of all offers but those that lift a zero. -/
theorem outranks_iff_lt (h : Alike g c c') (hnumber : o.inside.isNaN = false)
    (hzero : (slots c).liftsZero o = false) {old : Entry Float32}
    (hold : c.get? o.start o.stop o.nonterminal = some old) :
    Score.outranks o.inside old.inside = true ↔ old.inside < o.inside := by
  have hnumber' : old.inside.isNaN = false :=
    isNaN_of_admissible (SlotChart.Sound.admissible h.sound hold)
  rw [Binary32.outranks_iff hnumber hnumber']
  refine or_iff_left fun ⟨hnew, hneg⟩ => ?_
  have hlift : (slots c).liftsZero o = true := by
    rw [liftsZero, show (slots c).get? o.start o.stop o.nonterminal = some old from hold]
    simp [hnew, hneg]
  rw [hlift] at hzero
  cases hzero

/-- Charts that are alike stay so until an offer lifts a zero. -/
theorem offerAll (h : Alike g c c') {offers : List (Offer Float32)}
    (hvalid : ∀ o ∈ offers, o.Valid g c.size) (hnumbers : ∀ o ∈ offers, o.inside.isNaN = false)
    (hfits : ((slots c).offerAll offers).Fits) (hzero : (slots c).liftsNoZero offers = true) :
    (slots c).answers offers = (packed c').answers offers ∧
      ∃ d d', (slots c).offerAll offers = slots d ∧ (packed c').offerAll offers = packed d' ∧
        d.size = c.size ∧ Alike g d d' := by
  induction offers generalizing c c' with
  | nil => exact ⟨rfl, c, c', rfl, rfl, rfl, h⟩
  | cons o rest ih =>
    rw [liftsNoZero, Bool.and_eq_true, Bool.not_eq_true'] at hzero
    obtain ⟨hanswer, hnext⟩ := h.offer (hvalid o List.mem_cons_self) (fits_of_fits_offerAll hfits)
      fun _ old hold => h.outranks_iff_lt (hnumbers o List.mem_cons_self) hzero.1 hold
    have hsize := SlotChart.size_install c o.start o.stop o.toEntry
    obtain ⟨hanswers, d, d', hd, hd', hdsize, hlast⟩ := ih hnext
      (fun o' ho' => hsize ▸ hvalid o' (List.mem_cons_of_mem o ho'))
      (fun o' ho' => hnumbers o' (List.mem_cons_of_mem o ho')) hfits hzero.2
    refine ⟨?_, d, d', hd, hd', hdsize.trans hsize, hlast⟩
    rw [answers, answers, hanswer]
    exact congrArg _ hanswers

/-- An offer that lifts a zero is an improvement to ranks, but not to scores. -/
theorem offer_of_liftsZero (h : Alike g c c') (ho : o.Valid g c.size)
    (hnumber : o.inside.isNaN = false) (hfits : ((slots c).offer o).2.Fits)
    (hzero : (slots c).liftsZero o = true) :
    ((slots c).offer o).1 = true ∧ ((packed c').offer o).1 = false := by
  have hsize : c.size = c'.size := h.size_eq
  obtain ⟨old, hold, hbits⟩ := (Option.any_eq_true ..).1 hzero
  simp only [Bool.and_eq_true, beq_iff_eq] at hbits
  have hadm := admissible_of_toBits_eq_zero hbits.2
  have hnumber' : old.inside.isNaN = false :=
    isNaN_of_admissible (SlotChart.Sound.admissible h.sound hold)
  have hrank := (Binary32.outranks_iff hnumber hnumber').2 (.inr ⟨hbits.2, hbits.1⟩)
  have hsame : ¬ old.inside < o.inside := by
    rw [Binary32.lt_iff_signed_lt hnumber' hnumber, hbits.1, hbits.2]
    decide
  rw [(slots_takes h.sound ho hfits).answer_eq, (packed_takes h.sound' (hsize ▸ ho)).answer_eq,
    ← h.get?_eq, hold, hadm]
  exact ⟨hrank, decide_eq_false hsame⟩

end Alike

/-- Whatever entries are offered to an empty chart of slots and to an empty one of rows, the charts give
the same answers and cannot be told apart afterwards, unless an offer of `0` comes to a place that holds
`-0`: to that offer the slots answer that it is an improvement and the rows that it is none. The arena must
have had numbers left. -/
theorem storages_agree (g : Grammar Float32) (size : Nat) (offers : List (Offer Float32))
    (hvalid : ∀ o ∈ offers, o.Valid g size) (hnumbers : ∀ o ∈ offers, o.inside.isNaN = false)
    (hfits : ((slots (.empty size g)).offerAll offers).Fits) :
    ((slots (.empty size g)).liftsNoZero offers = true →
      (slots (.empty size g)).answers offers = (packed (.empty size g)).answers offers ∧
        Indistinguishable ((slots (.empty size g)).offerAll offers)
          ((packed (.empty size g)).offerAll offers)) ∧
    ∀ before o after, offers = before ++ o :: after →
      (slots (.empty size g)).liftsNoZero before = true →
      ((slots (.empty size g)).offerAll before).liftsZero o = true →
      (((slots (.empty size g)).offerAll before).offer o).1 = true ∧
        (((packed (.empty size g)).offerAll before).offer o).1 = false := by
  have hempty := Alike.empty size g
  refine ⟨fun hzero => ?_, fun before o after hsplit hbefore hlift => ?_⟩
  · obtain ⟨hanswers, d, d', hd, hd', -, hlast⟩ := hempty.offerAll hvalid hnumbers hfits hzero
    rw [hd, hd']
    exact ⟨hanswers, hlast.indistinguishable⟩
  · subst hsplit
    have hmem : o ∈ before ++ o :: after := List.mem_append_right _ List.mem_cons_self
    have hthere : (((slots (.empty size g)).offerAll before).offer o).2.Fits := by
      rw [offerAll, List.foldl_append] at hfits
      exact fits_of_fits_offerAll hfits
    obtain ⟨-, d, d', hd, hd', hsize, hlast⟩ := hempty.offerAll
      (fun o ho => hvalid o (List.mem_append_left _ ho))
      (fun o ho => hnumbers o (List.mem_append_left _ ho)) (fits_of_fits_update hthere) hbefore
    rw [hd] at hlift hthere
    rw [hd, hd']
    have hvalid' : o.Valid g d.size := hsize.symm ▸ hvalid o hmem
    exact hlast.offer_of_liftsZero hvalid' (hnumbers o hmem) hthere hlift

/-! ## One word -/

/-- Certain rules over one word. -/
def certain : Grammar Float32 := Chain.grammar 0 0 0

/-- An entry for the start symbol over the word, with the score of a pattern. -/
def startOffer (pattern : UInt32) : Offer Float32 :=
  ⟨⟨0, .ofBits pattern, .lexical 0⟩, 0, 1⟩

theorem startOffer_valid (pattern : UInt32) : (startOffer pattern).Valid certain 1 :=
  ⟨Nat.one_pos, Nat.le_refl 1, certain.symbols.start_lt⟩

/-- Offers of `-1` and then `-0`. -/
def rising : List (Offer Float32) := [startOffer 0xBF800000, startOffer Binary32.signBit]

theorem rising_agree :
    (slots (.empty 1 certain)).answers rising = (packed (.empty 1 certain)).answers rising ∧
      Indistinguishable ((slots (.empty 1 certain)).offerAll rising)
        ((packed (.empty 1 certain)).offerAll rising) := by
  refine (storages_agree certain 1 rising (fun o ho => ?_) (by decide +kernel) (by decide +kernel)).1
    (by decide +kernel)
  simp only [rising, List.mem_cons, List.not_mem_nil, or_false] at ho
  rcases ho with rfl | rfl <;> exact startOffer_valid _

/-- Offers of `-0` and then `0`. -/
def zeros : List (Offer Float32) := [startOffer Binary32.signBit, startOffer 0]

/-- The slots take both, the rows only the first. -/
theorem zeros_part :
    (∀ o ∈ zeros, o.Valid certain 1 ∧ o.inside.isNaN = false) ∧
      (slots (.empty 1 certain)).answers zeros = [true, true] ∧
      (packed (.empty 1 certain)).answers zeros = [true, false] := by
  refine ⟨fun o ho => ?_, by decide +kernel⟩
  have hnumbers : ∀ o ∈ zeros, o.inside.isNaN = false := by decide +kernel
  refine ⟨?_, hnumbers o ho⟩
  simp only [zeros, List.mem_cons, List.not_mem_nil, or_false] at ho
  rcases ho with rfl | rfl <;> exact startOffer_valid _

end Chart

end Constituency
