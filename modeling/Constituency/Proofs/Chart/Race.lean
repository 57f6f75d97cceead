import Constituency.Proofs.Chart.Interleaving

/-!
# The best entry wins, in whatever order the calls take their steps

Any number of calls offer entries to an empty chart of slots, and take their steps in any order. A call
that returns `true` has had its entry in the slot, and one that returns `false` has offered no proper
score, or has seen an entry in the slot that ranks no lower, or has found the arena full (`explained_run`).
Since ranks never fall, each slot holds an entry of the highest rank in the end. A slot that has been
filled is entered into the sets of its cell by the call that has filled it: at any time all of them are
entered but those of calls that are about to do so (`Marking`), and as many are missing from the count
(`Counted`). When all calls have returned, nothing is missing (`installs_interleaved`).
-/

namespace Constituency

/-! ## Sets of a cell -/

/-- One of the sets that a cell keeps. -/
inductive CellSet where
  | populated
  | leftChildren
  | rightChildren
  | pos

namespace CellSet

/-- The set in all cells of a chart. -/
def of {α : Type} (c : SlotChart α) : CellSet → CellBits
  | populated => c.populated
  | leftChildren => c.leftChildren
  | rightChildren => c.rightChildren
  | pos => c.pos

/-- The symbols that belong into the set if their slots are filled. -/
def keep (classes : SymbolClasses) : CellSet → NonTerminal → Bool
  | populated => fun _ => true
  | leftChildren => classes.isLeft
  | rightChildren => classes.isRight
  | pos => classes.isPos

theorem of_mark {α : Type} (c : SlotChart α) (i j : Nat) (A : NonTerminal) (s : CellSet) :
    s.of (c.mark i j A) =
      if s.keep c.classes A then (s.of c).insert i j A else s.of c := by
  cases s <;> rfl

end CellSet

/-- The places of all filled slots. -/
def SlotChart.filledSlots {α : Type} (c : SlotChart α) : Set (Nat × Nat × NonTerminal) :=
  {x | (c.slot? x.1 x.2.1 x.2.2).isSome = true}

namespace Race

variable {ι : Type} [DecidableEq ι] {offers : ι → Offer Float32} {g : Grammar Float32} {size : Nat}
  {r r' : Race ι} {k : ι} {i j : Nat} {A : NonTerminal} {s : CellSet}

/-! ## Entering symbols into sets -/

/-- A call is about to enter a symbol into the sets of a cell. -/
def Pending (offers : ι → Offer Float32) (r : Race ι) (i j : Nat) (A : NonTerminal) : Prop :=
  ∃ k, r.stage k = .filled ∧ (offers k).At i j A

/-- The members of a set have filled slots, and none is missing but those that are about to be
entered. -/
structure Marking (offers : ι → Offer Float32) (r : Race ι) (s : CellSet) : Prop where
  size_eq : (s.of r.chart).size = r.chart.size
  stride_eq : (s.of r.chart).stride = wordsFor r.chart.numNonterminals
  filled : ∀ i j A, A ∈ (s.of r.chart).members i j →
    (r.chart.slot? i j A).isSome = true ∧ s.keep r.chart.classes A = true
  entered : ∀ i j A, (r.chart.slot? i j A).isSome = true → s.keep r.chart.classes A = true →
    A ∈ (s.of r.chart).members i j ∨ Pending offers r i j A

/-- What is about to be entered still is after a step of a call that is not. -/
theorem Pending.act (h : Pending offers r i j A) (hk : r.stage k ≠ .filled) (c : SlotChart Float32)
    (stage : Stage) : Pending offers (r.act k c stage) i j A := by
  obtain ⟨k', hfilled, hat⟩ := h
  have hne : k' ≠ k := by
    rintro rfl
    exact hk hfilled
  exact ⟨k', (stage_act_of_ne hne ..).trans hfilled, hat⟩

omit [DecidableEq ι] in
theorem marking_start (offers : ι → Offer Float32) (g : Grammar Float32) (size : Nat) (s : CellSet) :
    Marking offers (start size g) s := by
  have hof : s.of (SlotChart.empty size g) = CellBits.make size g.numNonterminals := by
    cases s <;> rfl
  refine ⟨?_, ?_, fun i j A h => ?_, fun i j A h _ => ?_⟩
  · rw [start, hof]
    rfl
  · rw [start, hof]
    rfl
  · rw [start, hof] at h
    exact absurd h (CellBits.not_mem_members_make size _)
  · rw [start, SlotChart.slot?_empty] at h
    cases h

/-- A step that fills no slot and enters no symbol. -/
theorem Marking.move (h : Marking offers r s) (hk : r.stage k ≠ .filled)
    (arena : Arena (Entry Float32)) (stage : Stage) :
    Marking offers (r.act k { r.chart with arena } stage) s := by
  have hof : s.of { r.chart with arena } = s.of r.chart := by
    cases s <;> rfl
  refine ⟨?_, ?_, fun i j A hA => ?_, fun i j A hslot hkeep => ?_⟩
  · exact (congrArg CellBits.size hof).trans h.size_eq
  · exact (congrArg CellBits.stride hof).trans h.stride_eq
  · exact h.filled i j A (hof ▸ hA)
  · exact (h.entered i j A hslot hkeep).imp (fun hA => hof.symm ▸ hA)
      fun hpending => hpending.act hk ..

/-- A slot that was empty is pending once it is filled. -/
theorem Marking.exchange (h : Marking offers r s) (hr : Sane offers g size r)
    (hvalid : (offers k).Valid g size) (hk : r.stage k ≠ .filled) (edge : UInt32) :
    Marking offers (r.act k (r.chart.fill (offers k) edge)
      (.exchanged (r.chart.slotFor (offers k)))) s := by
  have hof : s.of (r.chart.fill (offers k) edge) = s.of r.chart := by
    cases s <;> rfl
  have hlater := hr.later_fill hvalid edge
  have hslots := hr.slot?_fill hvalid edge
  refine ⟨?_, ?_, fun i j A hA => ?_, fun i j A hslot hkeep => ?_⟩
  · exact (congrArg CellBits.size hof).trans (h.size_eq.trans hlater.size_eq.symm)
  · exact (congrArg CellBits.stride hof).trans h.stride_eq
  · exact (h.filled i j A (hof ▸ hA)).imp_left (hlater.filled i j A)
  · change (((r.chart.fill (offers k) edge)).slot? i j A).isSome = true at hslot
    show A ∈ (s.of (r.chart.fill (offers k) edge)).members i j ∨ _
    rw [hof]
    by_cases hold : (r.chart.slot? i j A).isSome = true
    · exact (h.entered i j A hold hkeep).imp_right fun hpending => hpending.act hk ..
    · rw [hslots] at hslot
      split at hslot
      · next hhere =>
        obtain ⟨rfl, rfl, rfl⟩ := hhere
        refine .inr ⟨k, ?_, rfl, rfl, rfl⟩
        rw [Option.not_isSome_iff_eq_none] at hold
        rw [stage_act, Stage.exchanged, SlotChart.slotFor, hold]
        rfl
      · exact absurd hslot hold

/-- What has been pending is entered. -/
theorem Marking.mark (h : Marking offers r s) (hr : Sane offers g size r)
    (hvalid : (offers k).Valid g size) (hk : r.stage k = .filled) :
    Marking offers (r.act k (r.chart.enter (offers k)) (.returned true)) s := by
  have hfilled : (r.chart.slotFor (offers k)).isSome = true := by
    have hstage := hr.stages k
    rwa [hk] at hstage
  have hj : (offers k).stop ≤ (s.of r.chart).size := by
    rw [h.size_eq, hr.size_eq]
    exact hvalid.stop_le
  have hnt : (offers k).nonterminal / 64 < (s.of r.chart).stride := by
    rw [h.stride_eq, hr.numNonterminals_eq]
    exact CellBits.lt_wordsFor hvalid.nonterminal_lt
  have hmem : ∀ i j A, A ∈ (s.of (r.chart.enter (offers k))).members i j ↔
      A ∈ (s.of r.chart).members i j ∨
        (i = (offers k).start ∧ j = (offers k).stop ∧ A = (offers k).nonterminal) ∧
          s.keep r.chart.classes A = true := by
    intro i j A
    rw [SlotChart.enter, CellSet.of_mark]
    exact SlotChart.mem_members_enter hvalid.start_lt hj hnt i j A
  refine ⟨?_, ?_, fun i j A hA => ?_, fun i j A hslot hkeep => ?_⟩
  · show (s.of (r.chart.enter (offers k))).size = r.chart.size
    rw [SlotChart.enter, CellSet.of_mark, ← h.size_eq]
    split <;> simp
  · show (s.of (r.chart.enter (offers k))).stride = wordsFor r.chart.numNonterminals
    rw [SlotChart.enter, CellSet.of_mark, ← h.stride_eq]
    split <;> simp
  · rcases (hmem i j A).1 hA with hA | ⟨⟨rfl, rfl, rfl⟩, hkeep⟩
    · exact h.filled i j A hA
    · exact ⟨hfilled, hkeep⟩
  · show A ∈ (s.of (r.chart.enter (offers k))).members i j ∨ _
    rw [hmem]
    rcases h.entered i j A hslot hkeep with hA | ⟨k', hpending, hat⟩
    · exact .inl (.inl hA)
    · by_cases hkk : k' = k
      · subst hkk
        exact .inl (.inr ⟨⟨hat.start_eq.symm, hat.stop_eq.symm, hat.nonterminal_eq.symm⟩, hkeep⟩)
      · exact .inr ⟨k', (stage_act_of_ne hkk ..).trans hpending, hat⟩

theorem Marking.step (hoffers : ∀ k, (offers k).Valid g size) (hr : Sane offers g size r)
    (h : Marking offers r s) (hstep : Step offers r r') : Marking offers r' s := by
  cases hstep with
  | reject k called => exact h.move (by rw [called]; nofun) ..
  | load k called => exact h.move (by rw [called]; nofun) ..
  | push k slot edge arena loaded => exact h.move (by rw [loaded]; nofun) ..
  | full k slot arena loaded => exact h.move (by rw [loaded]; nofun) ..
  | exchange k slot edge stored =>
    exact h.exchange hr (hoffers k) (by rw [stored]; nofun) edge
  | fail k slot edge stored => exact h.move (by rw [stored]; nofun) ..
  | mark k filled => exact h.mark hr (hoffers k) filled

/-! ## Counting -/

/-- What a call is about to add to the number of entries. -/
def due : Stage → Nat
  | .filled => 1
  | _ => 0

/-- Whether a call may still use up a number of the arena. -/
def unstored : Stage → Nat
  | .called | .loaded _ => 1
  | _ => 0

omit [DecidableEq ι] in
theorem due_look {o : Offer Float32} {slot : Option (Slot Float32)} {onward : Stage}
    (h : due onward = 0) : due (.look o slot onward) = 0 := by
  rw [Stage.look]
  split
  · exact h
  · rfl

omit [DecidableEq ι] in
theorem due_exchanged (slot : Option (Slot Float32)) :
    due (.exchanged slot) = if slot.isSome then 0 else 1 := by
  cases slot <;> rfl

theorem sum_act [Fintype ι] (f : Stage → Nat) (r : Race ι) (k : ι) (c : SlotChart Float32)
    (stage : Stage) :
    ∑ k', f ((r.act k c stage).stage k') + f (r.stage k) = ∑ k', f (r.stage k') + f stage := by
  have hrest : ∑ k' ∈ Finset.univ.erase k, f ((r.act k c stage).stage k') =
      ∑ k' ∈ Finset.univ.erase k, f (r.stage k') :=
    Finset.sum_congr rfl fun k' hk' => by rw [stage_act_of_ne (Finset.ne_of_mem_erase hk')]
  rw [← Finset.add_sum_erase Finset.univ (fun k' => f ((r.act k c stage).stage k'))
      (Finset.mem_univ k),
    ← Finset.add_sum_erase Finset.univ (fun k' => f (r.stage k')) (Finset.mem_univ k), hrest,
    stage_act]
  omega

/-- The number of entries lacks those that are about to be added. -/
structure Counted [Fintype ι] (r : Race ι) : Prop where
  finite : r.chart.filledSlots.Finite
  count : r.chart.numEntries + ∑ k, due (r.stage k) = r.chart.filledSlots.ncard

section Counting

variable [Fintype ι] {stage : Stage}

omit [DecidableEq ι] in
theorem counted_start (g : Grammar Float32) (size : Nat) : Counted (start size g : Race ι) := by
  have hempty : (SlotChart.empty size g).filledSlots = ∅ := by
    refine Set.eq_empty_iff_forall_notMem.2 fun x hx => ?_
    rw [SlotChart.filledSlots, Set.mem_ofPred_eq, SlotChart.slot?_empty] at hx
    cases hx
  refine ⟨?_, ?_⟩
  · rw [start, hempty]
    exact Set.finite_empty
  · rw [start, hempty, Set.ncard_empty]
    exact Nat.add_eq_zero_iff.2 ⟨rfl, Finset.sum_eq_zero fun _ _ => rfl⟩

/-- A step that neither fills a slot nor counts one. -/
theorem Counted.move (h : Counted r) (hk : due (r.stage k) = 0) (arena : Arena (Entry Float32))
    (hs : due stage = 0) : Counted (r.act k { r.chart with arena } stage) := by
  have hsum := sum_act due r k { r.chart with arena } stage
  rw [hk, hs] at hsum
  refine ⟨h.finite, ?_⟩
  show r.chart.numEntries + _ = r.chart.filledSlots.ncard
  rw [← h.count]
  omega

theorem Counted.exchange (h : Counted r) (hr : Sane offers g size r)
    (hvalid : (offers k).Valid g size) (hk : due (r.stage k) = 0) (edge : UInt32) :
    Counted (r.act k (r.chart.fill (offers k) edge) (.exchanged (r.chart.slotFor (offers k)))) := by
  have hfilled : (r.chart.fill (offers k) edge).filledSlots =
      insert ((offers k).start, (offers k).stop, (offers k).nonterminal) r.chart.filledSlots := by
    ext ⟨i, j, A⟩
    rw [SlotChart.filledSlots, Set.mem_ofPred_eq, hr.slot?_fill hvalid, Set.mem_insert_iff,
      Prod.mk.injEq, Prod.mk.injEq]
    split
    · next hhere => exact iff_of_true rfl (.inl hhere)
    · next hnot => exact (or_iff_right hnot).symm
  have hsum := sum_act due r k (r.chart.fill (offers k) edge)
    (.exchanged (r.chart.slotFor (offers k)))
  rw [hk, due_exchanged] at hsum
  refine ⟨?_, ?_⟩
  · rw [act, hfilled]
    exact h.finite.insert _
  · show r.chart.numEntries + _ = (r.chart.fill (offers k) edge).filledSlots.ncard
    rw [hfilled]
    by_cases hold : (r.chart.slotFor (offers k)).isSome = true
    · rw [if_pos hold] at hsum
      rw [Set.insert_eq_of_mem (show _ ∈ r.chart.filledSlots from hold), ← h.count]
      exact congrArg _ hsum
    · rw [if_neg hold] at hsum
      rw [Set.ncard_insert_of_notMem (show _ ∉ r.chart.filledSlots from hold) h.finite, ← h.count]
      omega

theorem Counted.mark (h : Counted r) (hk : r.stage k = .filled) (o : Offer Float32) :
    Counted (r.act k (r.chart.enter o) (.returned true)) := by
  have hsum := sum_act due r k (r.chart.enter o) (.returned true)
  have hdue : due .filled = 1 := rfl
  have hnone : due (.returned true) = 0 := rfl
  rw [hk] at hsum
  refine ⟨h.finite, ?_⟩
  show r.chart.numEntries + 1 + _ = r.chart.filledSlots.ncard
  rw [← h.count]
  omega

theorem Counted.step (hoffers : ∀ k, (offers k).Valid g size) (hr : Sane offers g size r)
    (h : Counted r) (hstep : Step offers r r') : Counted r' := by
  cases hstep with
  | reject k called => exact h.move (by rw [called]; rfl) _ rfl
  | load k called => exact h.move (by rw [called]; rfl) _ (due_look rfl)
  | push k slot edge arena loaded => exact h.move (by rw [loaded]; rfl) _ rfl
  | full k slot arena loaded => exact h.move (by rw [loaded]; rfl) _ rfl
  | exchange k slot edge stored => exact h.exchange hr (hoffers k) (by rw [stored]; rfl) edge
  | fail k slot edge stored => exact h.move (by rw [stored]; rfl) _ (due_look rfl)
  | mark k filled => exact h.mark filled _

omit [DecidableEq ι] [Fintype ι] in
theorem unstored_look (o : Offer Float32) (slot : Option (Slot Float32)) (onward : Stage) :
    unstored (.look o slot onward) ≤ unstored onward := by
  rw [Stage.look]
  split
  · exact Nat.le_refl _
  · exact Nat.zero_le _

omit [DecidableEq ι] [Fintype ι] in
theorem unstored_exchanged (slot : Option (Slot Float32)) : unstored (.exchanged slot) = 0 := by
  cases slot <;> rfl

/-- A call uses up one number of the arena, which it can then not do again, or none. -/
theorem next_add_unstored_step (hstep : Step offers r r') :
    r'.chart.arena.next + ∑ k, unstored (r'.stage k) ≤
      r.chart.arena.next + ∑ k, unstored (r.stage k) := by
  have hact : ∀ {k : ι} {c : SlotChart Float32} {stage : Stage},
      c.arena.next + unstored stage ≤ r.chart.arena.next + unstored (r.stage k) →
      (r.act k c stage).chart.arena.next + ∑ k', unstored ((r.act k c stage).stage k') ≤
        r.chart.arena.next + ∑ k', unstored (r.stage k') := by
    intro k c stage hle
    have hsum := sum_act unstored r k c stage
    show c.arena.next + _ ≤ _
    omega
  cases hstep with
  | reject k called => exact hact (Nat.add_le_add_left (Nat.zero_le _) _)
  | load k called =>
    refine hact (Nat.add_le_add_left ?_ _)
    rw [called]
    exact unstored_look ..
  | push k slot edge arena loaded pushed =>
    refine hact ?_
    rw [loaded, Arena.next_of_push pushed]
    exact Nat.le_refl _
  | full k slot arena loaded pushed =>
    refine hact ?_
    rw [loaded, Arena.next_of_push pushed]
    exact Nat.le_refl _
  | exchange k slot edge stored =>
    refine hact ?_
    rw [unstored_exchanged]
    exact Nat.le_add_right _ _
  | fail k slot edge stored =>
    refine hact (Nat.add_le_add_left ?_ _)
    rw [stored]
    exact unstored_look ..
  | mark k filled => exact hact (Nat.add_le_add_left (Nat.zero_le _) _)

/-- No call stores more than one entry. -/
theorem next_le_card (hoffers : ∀ k, (offers k).Valid g size)
    (hrun : Run offers (start size g) r) : r.chart.arena.next ≤ Fintype.card ι := by
  refine Nat.le_trans (Nat.le_add_right _ (∑ k, unstored (r.stage k))) ?_
  refine run_induction (P := fun r =>
    r.chart.arena.next + ∑ k, unstored (r.stage k) ≤ Fintype.card ι) hoffers ?_
    (fun r r' _ _ hstep hle => (next_add_unstored_step hstep).trans hle) hrun
  have hall : ∑ k : ι, unstored ((start size g : Race ι).stage k) = Fintype.card ι :=
    (Finset.sum_const 1).trans (Nat.mul_one _)
  rw [hall]
  exact (Nat.zero_add _).le

end Counting

/-! ## Answers -/

/-- At some moment of a run. -/
def Sometime (offers : ι → Offer Float32) (first last : Race ι) (P : SlotChart Float32 → Prop) :
    Prop :=
  ∃ r, Run offers first r ∧ Run offers r last ∧ P r.chart

/-- The entry that is offered is in its slot. -/
def Holding (o : Offer Float32) (c : SlotChart Float32) : Prop :=
  c.get? o.start o.stop o.nonterminal = some o.toEntry

/-- An entry that ranks no lower is in the slot. -/
def Outranked (o : Offer Float32) (c : SlotChart Float32) : Prop :=
  ∃ e, c.get? o.start o.stop o.nonterminal = some e ∧
    Binary32.rank o.inside.toBits ≤ Binary32.rank e.inside.toBits

/-- Why a call has come to its stage. -/
def Explained (offers : ι → Offer Float32) (first last : Race ι) (k : ι) : Stage → Prop
  | .filled | .returned true => Sometime offers first last (Holding (offers k))
  | .returned false => Score.admissible (offers k).inside = false ∨
      UInt32.size < last.chart.arena.next ∨ Sometime offers first last (Outranked (offers k))
  | _ => True

section Answers

variable {first : Race ι} {P : SlotChart Float32 → Prop} {o : Offer Float32} {stage : Stage}

theorem Sometime.step (h : Sometime offers first r P) (hstep : Step offers r r') :
    Sometime offers first r' P := by
  obtain ⟨mid, hbefore, hafter, hmid⟩ := h
  exact ⟨mid, hbefore, hafter.tail hstep, hmid⟩

theorem Explained.step (h : Explained offers first r k stage) (hstep : Step offers r r') :
    Explained offers first r' k stage := by
  have hnext : r.chart.arena.next ≤ r'.chart.arena.next := by
    cases hstep with
    | push k slot edge arena loaded pushed =>
      exact (Nat.le_succ _).trans_eq (Arena.next_of_push pushed).symm
    | full k slot arena loaded pushed =>
      exact (Nat.le_succ _).trans_eq (Arena.next_of_push pushed).symm
    | reject | load | exchange | fail | mark => exact Nat.le_refl _
  cases stage with
  | filled => exact Sometime.step h hstep
  | returned answer =>
    cases answer with
    | true => exact Sometime.step h hstep
    | false =>
      exact h.imp_right fun h => h.imp (fun hfull => Nat.lt_of_lt_of_le hfull hnext) (·.step hstep)
  | called | loaded | stored => trivial

omit [DecidableEq ι] in
/-- Only what ranks no lower can keep an entry out. -/
theorem outranked_of_not_beats (h : Sane offers g size r)
    (hgood : Score.admissible o.inside = true)
    (hbeats : ¬ SlotChart.beats o.inside (r.chart.slotFor o) = true) : Outranked o r.chart := by
  rw [Slot.beats_iff hgood, UInt32.not_lt] at hbeats
  cases hslot : r.chart.slotFor o with
  | none =>
    rw [hslot] at hbeats
    exact absurd hbeats (UInt32.not_le.2 (Slot.rank_pos hgood))
  | some slot =>
    obtain ⟨k, -, -, -, hget⟩ := h.exists_of_slot? hslot
    exact ⟨_, hget, h.rank_slot? hget ▸ hbeats⟩

theorem explained_look {slot : Option (Slot Float32)} {onward : Stage}
    (h : Explained offers first r k onward)
    (hout : ¬ SlotChart.beats (offers k).inside slot = true →
      Sometime offers first r (Outranked (offers k))) :
    Explained offers first r k (.look (offers k) slot onward) := by
  rw [Stage.look]
  split
  · exact h
  · next hbeats => exact .inr (.inr (hout hbeats))

theorem explained_exchanged (slot : Option (Slot Float32))
    (h : Sometime offers first r (Holding (offers k))) :
    Explained offers first r k (.exchanged slot) := by
  rw [Stage.exchanged]
  split <;> exact h

end Answers

/-- At any time there is a reason for the stage of each call. -/
theorem explained_run (hoffers : ∀ k, (offers k).Valid g size)
    (hrun : Run offers (start size g) r) (k : ι) :
    Explained offers (start size g) r k (r.stage k) := by
  refine run_induction (P := fun r => ∀ k, Explained offers (start size g) r k (r.stage k)) hoffers
    (fun _ => trivial) (fun r r' hrun hr hstep h => ?_) hrun k
  have hnow : ∀ {P : SlotChart Float32 → Prop}, P r.chart →
      Sometime offers (start size g) r' P := fun hP => ⟨r, hrun, .single hstep, hP⟩
  have hlater : ∀ {P : SlotChart Float32 → Prop}, P r'.chart →
      Sometime offers (start size g) r' P := fun hP => ⟨r', hrun.tail hstep, .refl, hP⟩
  have hact : ∀ {k c stage}, r' = r.act k c stage → Explained offers (start size g) r' k stage →
      ∀ k', Explained offers (start size g) r' k' (r'.stage k') := by
    intro k c stage heq hk
    have hall := (Function.forall_update_iff r.stage fun k' s =>
      Explained offers (start size g) r' k' s).2 ⟨hk, fun k' _ => (h k').step hstep⟩
    rw [heq] at hall ⊢
    exact hall
  cases hstep with
  | reject k called bad => exact hact rfl (.inl bad)
  | load k called good =>
    exact hact rfl (explained_look trivial fun hbeats => hnow (outranked_of_not_beats hr good hbeats))
  | push k slot edge arena loaded pushed => exact hact rfl trivial
  | full k slot arena loaded pushed => exact hact rfl (.inr (.inl (Arena.size_lt_of_push pushed)))
  | exchange k slot edge stored same =>
    have hk := hr.stages k
    rw [stored] at hk
    refine hact rfl (explained_exchanged _ (hlater ?_))
    show SlotChart.get? (r.chart.fill (offers k) edge) _ _ _ = _
    rw [SlotChart.get?, hr.slot?_fill (hoffers k), if_pos ⟨rfl, rfl, rfl⟩, Option.bind_some]
    exact hk.2.get?_eq
  | fail k slot edge stored =>
    have hk := hr.stages k
    rw [stored] at hk
    exact hact rfl
      (explained_look trivial fun hbeats => hnow (outranked_of_not_beats hr hk.1.1 hbeats))
  | mark k filled =>
    have hk := h k
    rw [filled] at hk
    obtain ⟨mid, hbefore, hafter, hmid⟩ := hk
    exact hact rfl ⟨mid, hbefore, hafter.tail (.mark k filled), hmid⟩

/-! ## The outcome -/

section Outcome

variable (hoffers : ∀ k, (offers k).Valid g size)
include hoffers

/-- An entry that has been in its slot is outranked by nothing but what has come after it, and one that
has been kept out is not better than what has kept it out. -/
theorem rank_le_of_returned (hrun : Run offers (start size g) r)
    (hgood : Score.admissible (offers k).inside = true)
    (hreturned : ∃ answer, r.stage k = .returned answer)
    (hroom : r.chart.arena.next ≤ UInt32.size) :
    Binary32.rank (offers k).inside.toBits ≤ Slot.rank (r.chart.slotFor (offers k)) := by
  have hlater : ∀ {mid}, Run offers (start size g) mid → Run offers mid r →
      Slot.rank (mid.chart.slotFor (offers k)) ≤ Slot.rank (r.chart.slotFor (offers k)) :=
    fun hbefore hafter => rank_le_of_run hoffers (.run hoffers hbefore) hafter ..
  have hexplained := explained_run hoffers hrun k
  obtain ⟨answer, hanswer⟩ := hreturned
  rw [hanswer] at hexplained
  cases answer with
  | true =>
    obtain ⟨mid, hbefore, hafter, hmid⟩ := hexplained
    rw [← (Sane.run hoffers hbefore).rank_slot? hmid]
    exact hlater hbefore hafter
  | false =>
    rcases hexplained with hbad | hfull | ⟨mid, hbefore, hafter, e, he, hle⟩
    · rw [hgood] at hbad
      cases hbad
    · exact absurd hroom (Nat.not_le.2 hfull)
    · rw [← (Sane.run hoffers hbefore).rank_slot? he] at hle
      exact UInt32.le_trans hle (hlater hbefore hafter)

end Outcome

/-- What all calls together leave: each slot holds an entry of the highest rank that has been offered to it,
and the count and the sets say which slots are filled. -/
structure Complete (offers : ι → Offer Float32) (g : Grammar Float32) (c : SlotChart Float32) :
    Prop where
  empty_iff : ∀ i j A, c.get? i j A = none ↔
    ∀ k, (offers k).At i j A → Score.admissible (offers k).inside = false
  offered : ∀ i j A e, c.get? i j A = some e → ∃ k, (offers k).At i j A ∧
    Score.admissible (offers k).inside = true ∧ (offers k).toEntry = e
  best : ∀ i j A e, c.get? i j A = some e → ∀ k, (offers k).At i j A →
    Score.admissible (offers k).inside = true →
      Binary32.rank (offers k).inside.toBits ≤ Binary32.rank e.inside.toBits
  numEntries_eq : c.numEntries = c.filledSlots.ncard
  marks : ∀ s : CellSet, c.Marks (s.of c) (s.keep g.classes)

theorem complete_of_returned [Fintype ι] (hoffers : ∀ k, (offers k).Valid g size)
    (hrun : Run offers (start size g) r) (hreturned : ∀ k, ∃ answer, r.stage k = .returned answer)
    (hroom : r.chart.arena.next ≤ UInt32.size) : Complete offers g r.chart := by
  have hsane := Sane.run hoffers hrun
  have hbest : ∀ k, Score.admissible (offers k).inside = true →
      Binary32.rank (offers k).inside.toBits ≤ Slot.rank (r.chart.slotFor (offers k)) :=
    fun k hgood => rank_le_of_returned hoffers hrun hgood (hreturned k) hroom
  refine ⟨fun i j A => ⟨fun hnone k hat => ?_, fun hbad => ?_⟩, fun i j A e he => ?_,
    fun i j A e he k hat hgood => ?_, ?_, fun s => ?_⟩
  · by_contra hgood
    rw [Bool.not_eq_false] at hgood
    have hrank := hbest k hgood
    obtain ⟨rfl, rfl, rfl⟩ := hat
    cases hslot : r.chart.slotFor (offers k) with
    | none =>
      rw [hslot] at hrank
      exact UInt32.not_le.2 (Slot.rank_pos hgood) hrank
    | some slot =>
      obtain ⟨k', -, -, -, hget⟩ := hsane.exists_of_slot? hslot
      rw [hnone] at hget
      cases hget
  · cases hslot : r.chart.slot? i j A with
    | none => rw [SlotChart.get?, hslot, Option.bind_none]
    | some slot =>
      obtain ⟨k, hat, hgood, -⟩ := hsane.exists_of_slot? hslot
      rw [hbad k hat] at hgood
      cases hgood
  · obtain ⟨slot, hslot, -⟩ := Option.bind_eq_some_iff.1 he
    obtain ⟨k, hat, hgood, -, hget⟩ := hsane.exists_of_slot? hslot
    exact ⟨k, hat, hgood, Option.some.inj (hget.symm.trans he)⟩
  · obtain ⟨rfl, rfl, rfl⟩ := hat
    exact hsane.rank_slot? he ▸ hbest k hgood
  · have hcounted : Counted r := run_induction hoffers (counted_start g size)
      (fun r r' _ hr hstep h => h.step hoffers hr hstep) hrun
    have hdone : ∑ k, due (r.stage k) = 0 := Finset.sum_eq_zero fun k _ => by
      obtain ⟨answer, hanswer⟩ := hreturned k
      rw [hanswer]
      rfl
    rw [← hcounted.count, hdone, Nat.add_zero]
  · have hmarking : Marking offers r s := run_induction (P := fun r => Marking offers r s) hoffers
      (marking_start offers g size s) (fun r r' _ hr hstep h => h.step hoffers hr hstep) hrun
    refine ⟨hmarking.size_eq, hmarking.stride_eq, fun i j A => ?_⟩
    rw [← hsane.classes_eq]
    refine ⟨hmarking.filled i j A, fun hA => (hmarking.entered i j A hA.1 hA.2).resolve_right ?_⟩
    rintro ⟨k, hfilled, -⟩
    obtain ⟨answer, hanswer⟩ := hreturned k
    rw [hanswer] at hfilled
    cases hfilled

/-- In whatever order calls take their steps, no slot is ever lowered in rank, and a call returns `true`
only if its entry has been in the slot, and `false` only if its score is not a proper one, or an entry has
been in the slot that ranks no lower, or the numbers of the arena have run out, for which there must be
more calls than numbers. When all calls have returned, the best entries are in their slots. -/
theorem installs_interleaved [Fintype ι] (offers : ι → Offer Float32) (g : Grammar Float32)
    (size : Nat) (hoffers : ∀ k, (offers k).Valid g size) {r : Race ι}
    (hrun : Run offers (start size g) r) :
    (∀ r', Run offers r r' → ∀ i j A,
      Slot.rank (r.chart.slot? i j A) ≤ Slot.rank (r'.chart.slot? i j A)) ∧
    (∀ k, r.stage k = .returned true → Sometime offers (start size g) r (Holding (offers k))) ∧
    (∀ k, r.stage k = .returned false → Score.admissible (offers k).inside = false ∨
      Sometime offers (start size g) r (Outranked (offers k)) ∨
      UInt32.size < r.chart.arena.next) ∧
    r.chart.arena.next ≤ Fintype.card ι ∧
    ((∀ k, ∃ answer, r.stage k = .returned answer) → r.chart.arena.next ≤ UInt32.size →
      Complete offers g r.chart) := by
  have hexplained := explained_run hoffers hrun
  refine ⟨fun r' hrun' => rank_le_of_run hoffers (.run hoffers hrun) hrun', fun k hk => ?_,
    fun k hk => ?_, next_le_card hoffers hrun, complete_of_returned hoffers hrun⟩
  · have hwhy := hexplained k
    rwa [hk] at hwhy
  · have hwhy := hexplained k
    rw [hk] at hwhy
    exact hwhy.imp_right Or.symm

/-- Offers of `-1` and of `-0` to the same slot. -/
def rivals (better : Bool) : Offer Float32 :=
  Chart.startOffer (if better then Binary32.signBit else 0xBF800000)

/-- Both calls read the empty slot, the better one is faster, and the other one gives up. -/
theorem exists_run_rivals : ∃ r : Race Bool, Run rivals (start 1 Chart.certain) r ∧
    r.stage false = .returned false ∧ r.stage true = .returned true ∧ r.chart.arena.next = 2 := by
  let c₀ : SlotChart Float32 := .empty 1 Chart.certain
  let c₁ : SlotChart Float32 := { c₀ with arena := (c₀.arena.push (rivals false).toEntry).2 }
  let c₂ : SlotChart Float32 := { c₁ with arena := (c₁.arena.push (rivals true).toEntry).2 }
  let c₃ := c₂.fill (rivals true) 1
  let r₀ : Race Bool := start 1 Chart.certain
  let r₁ := r₀.act false c₀ (.loaded none)
  let r₂ := r₁.act true c₀ (.loaded none)
  let r₃ := r₂.act false c₁ (.stored none 0)
  let r₄ := r₃.act true c₂ (.stored none 1)
  let r₅ := r₄.act true c₃ .filled
  let r₆ := r₅.act false c₃ (.returned false)
  let r₇ := r₆.act true (c₃.enter (rivals true)) (.returned true)
  have hgood : ∀ k, Score.admissible (rivals k).inside = true := by decide +kernel
  have hempty : ∀ o, c₀.slotFor o = none := fun _ => SlotChart.slot?_empty 1
  have h₁ : Step rivals r₀ r₁ := by
    have hload : Step rivals r₀ _ := .load false rfl (hgood false)
    rwa [show r₀.chart.slotFor (rivals false) = none from hempty _] at hload
  have h₂ : Step rivals r₁ r₂ := by
    have hload : Step rivals r₁ _ := .load true rfl (hgood true)
    rwa [show r₁.chart.slotFor (rivals true) = none from hempty _] at hload
  have hnext : c₁.arena.next = 1 := Arena.next_push
  have h₃ : Step rivals r₂ r₃ :=
    .push (r := r₂) false none 0 c₁.arena rfl (Arena.push_eq_some (a := c₀.arena) _ (by decide))
  have h₄ : Step rivals r₃ r₄ := by
    refine .push (r := r₃) true none 1 c₂.arena rfl ?_
    have hpush := Arena.push_eq_some (a := c₁.arena) (rivals true).toEntry (hnext ▸ by decide)
    rwa [hnext] at hpush
  have h₅ : Step rivals r₄ r₅ := by
    have hslot : r₄.chart.slotFor (rivals true) = none := hempty _
    have hexchange : Step rivals r₄ _ := .exchange true none 1 rfl (congrArg Slot.word hslot)
    rwa [hslot] at hexchange
  have h₆ : Step rivals r₅ r₆ := by
    have hslot : r₅.chart.slotFor (rivals false) = some ⟨(rivals true).inside, 1⟩ :=
      (SlotChart.slot?_fill (by decide) (Nat.le_refl 1)
        (Chart.startOffer_valid 0).nonterminal_lt 1 0 1 0).trans (if_pos ⟨rfl, rfl, rfl⟩)
    have hbeaten : ¬ SlotChart.beats (rivals false).inside (some ⟨(rivals true).inside, 1⟩) = true := by
      decide +kernel
    have hfail : Step rivals r₅ _ := .fail false none 0 rfl
    rwa [hslot, Stage.look, if_neg hbeaten] at hfail
  have h₇ : Step rivals r₆ r₇ := .mark (r := r₆) true rfl
  refine ⟨r₇, ?_, rfl, rfl, Arena.next_push.trans (congrArg (· + 1) hnext)⟩
  exact .head h₁ (.head h₂ (.head h₃ (.head h₄ (.head h₅ (.head h₆ (.single h₇))))))

theorem installs_interleaved_rivals : ∃ r : Race Bool, Run rivals (start 1 Chart.certain) r ∧
    Sometime rivals (start 1 Chart.certain) r (Holding (rivals true)) ∧
    Sometime rivals (start 1 Chart.certain) r (Outranked (rivals false)) ∧
    Complete rivals Chart.certain r.chart ∧ r.chart.get? 0 1 0 = some (rivals true).toEntry := by
  obtain ⟨r, hrun, hfalse, htrue, hnext⟩ := exists_run_rivals
  have hvalid : ∀ k, (rivals k).Valid Chart.certain 1 := fun _ => Chart.startOffer_valid _
  have hroom : r.chart.arena.next ≤ UInt32.size := hnext.trans_le (by decide)
  have hgood : ∀ k, Score.admissible (rivals k).inside = true := by decide +kernel
  obtain ⟨-, hheld, hkept, -, hcomplete⟩ :=
    installs_interleaved rivals Chart.certain 1 hvalid hrun
  have hdone := hcomplete (Bool.rec ⟨_, hfalse⟩ ⟨_, htrue⟩) hroom
  have hout : Sometime rivals (start 1 Chart.certain) r (Outranked (rivals false)) := by
    rcases hkept false hfalse with hbad | hout | hfull
    · rw [hgood] at hbad
      cases hbad
    · exact hout
    · exact absurd hroom (Nat.not_le.2 hfull)
  refine ⟨r, hrun, hheld true htrue, hout, hdone, ?_⟩
  cases he : r.chart.get? 0 1 0 with
  | none =>
    have hbad := (hdone.empty_iff 0 1 0).1 he true ⟨rfl, rfl, rfl⟩
    rw [hgood] at hbad
    cases hbad
  | some e =>
    obtain ⟨k, -, -, rfl⟩ := hdone.offered 0 1 0 e he
    have hrank := hdone.best 0 1 0 _ he true ⟨rfl, rfl, rfl⟩ (hgood true)
    cases k with
    | true => rfl
    | false => exact absurd hrank (by decide +kernel)

end Race

end Constituency
