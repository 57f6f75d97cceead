import Constituency.Proofs.Chart.Offers

/-!
# Calls that race for the slots of a chart

Entries may be offered to a chart of slots by any number of callers at once. A call then takes several
steps, between which other calls take theirs (`Race.Step`): it reads its slot, stores its entry, tries to
exchange the word of the slot, over and over if another call has been faster, and enters the symbol into
the sets of its cell if the slot had been empty. A call that is not interrupted does what
`SlotChart.install` does (`Race.run_install`).

A slot is never exchanged for a word that it does not hold any more, and the score is the upper half of
the word. So ranks only rise (`Race.Step.rank_le`), although the number of the entry is of no help.
-/

namespace Constituency

/-! ## Words -/

namespace Slot

/-- The rank of the score in a slot, zero if there is none. -/
def rank : Option (Slot Float32) → UInt32
  | none => 0
  | some s => Binary32.rank s.score.toBits

/-- The rank is the upper half of the word. -/
theorem word_shiftRight (s : Option (Slot Float32)) : (word s >>> 32).toNat = (rank s).toNat := by
  cases s with
  | none => rfl
  | some s =>
    have hrank := (Binary32.rank s.score.toBits).toNat_lt
    have hedge := s.edge.toNat_lt
    rw [word, rank, UInt64.toNat_shiftRight, UInt64.toNat_or, UInt64.toNat_shiftLeft]
    simp only [UInt32.toNat_toUInt64]
    rw [show (32 : UInt64).toNat % 64 = 32 from rfl, Nat.shiftRight_or_distrib,
      Nat.shiftRight_eq_div_pow s.edge.toNat, Nat.div_eq_of_lt hedge, Nat.or_zero,
      Nat.mod_eq_of_lt (by rw [Nat.shiftLeft_eq]; omega), Nat.shiftLeft_shiftRight]

theorem rank_eq_of_word_eq {s s' : Option (Slot Float32)} (h : word s = word s') :
    rank s = rank s' := by
  rw [← UInt32.toNat_inj, ← word_shiftRight, ← word_shiftRight, h]

theorem rank_pos {x : Float32} (h : Score.admissible x = true) : 0 < Binary32.rank x.toBits := by
  have hmag := Binary32.isNaN_eq_false_iff.1 (Chart.isNaN_of_admissible h)
  have hinf : Binary32.infiniteMagnitude = 0x7f800000 := rfl
  rw [UInt32.lt_iff_toNat_lt, Binary32.toNat_rank, show (0 : UInt32).toNat = 0 from rfl]
  split <;> omega

/-- A score beats the slots of lower rank, the empty one included. -/
theorem beats_iff {x : Float32} (h : Score.admissible x = true) (s : Option (Slot Float32)) :
    SlotChart.beats x s = true ↔ rank s < Binary32.rank x.toBits := by
  cases s with
  | none => exact iff_of_true rfl (rank_pos h)
  | some s => exact decide_eq_true_iff

end Slot

/-! ## Calls -/

namespace SlotChart

/-- The slot that an entry is offered to. -/
abbrev slotFor (c : SlotChart Float32) (o : Offer Float32) : Option (Slot Float32) :=
  c.slot? o.start o.stop o.nonterminal

/-- The chart with a stored entry in its slot. -/
abbrev fill (c : SlotChart Float32) (o : Offer Float32) (edge : UInt32) : SlotChart Float32 :=
  c.put o.start o.stop o.nonterminal ⟨o.inside, edge⟩

/-- The chart with the symbol of an entry in the sets of its cell. -/
abbrev enter (c : SlotChart Float32) (o : Offer Float32) : SlotChart Float32 :=
  c.mark o.start o.stop o.nonterminal

end SlotChart

/-- How far a call has come. -/
inductive Stage where
  | called
  /-- It has read a slot that its entry beats. -/
  | loaded (slot : Option (Slot Float32))
  /-- Its entry is stored, and it is to replace a slot. -/
  | stored (slot : Option (Slot Float32)) (edge : UInt32)
  /-- It has filled an empty slot. -/
  | filled
  | returned (answer : Bool)

/-- Where a call comes to that has read its slot: it gives up unless its entry beats what it has read. -/
def Stage.look (o : Offer Float32) (slot : Option (Slot Float32)) (onward : Stage) : Stage :=
  if SlotChart.beats o.inside slot then onward else .returned false

/-- Where a call comes to that has exchanged its slot. -/
def Stage.exchanged (slot : Option (Slot Float32)) : Stage :=
  if slot.isNone then .filled else .returned true

/-- A chart, and how far the calls have come that offer entries to it. -/
structure Race (ι : Type) where
  chart : SlotChart Float32
  stage : ι → Stage

namespace Race

variable {ι : Type} [DecidableEq ι]

omit [DecidableEq ι] in
/-- An empty chart, to which all entries are still to be offered. -/
def start (size : Nat) (g : Grammar Float32) : Race ι :=
  ⟨.empty size g, fun _ => .called⟩

/-- A call comes to another stage, and the chart changes. -/
def act (r : Race ι) (k : ι) (chart : SlotChart Float32) (stage : Stage) : Race ι :=
  ⟨chart, Function.update r.stage k stage⟩

/-- A step of one of the calls. -/
inductive Step (offers : ι → Offer Float32) (r : Race ι) : Race ι → Prop
  | reject (k : ι) (called : r.stage k = .called)
      (bad : Score.admissible (offers k).inside = false) :
      Step offers r (r.act k r.chart (.returned false))
  | load (k : ι) (called : r.stage k = .called)
      (good : Score.admissible (offers k).inside = true) :
      Step offers r (r.act k r.chart
        (.look (offers k) (r.chart.slotFor (offers k)) (.loaded (r.chart.slotFor (offers k)))))
  | push (k : ι) (slot : Option (Slot Float32)) (edge : UInt32) (arena : Arena (Entry Float32))
      (loaded : r.stage k = .loaded slot)
      (pushed : r.chart.arena.push (offers k).toEntry = (some edge, arena)) :
      Step offers r (r.act k { r.chart with arena } (.stored slot edge))
  | full (k : ι) (slot : Option (Slot Float32)) (arena : Arena (Entry Float32))
      (loaded : r.stage k = .loaded slot)
      (pushed : r.chart.arena.push (offers k).toEntry = (none, arena)) :
      Step offers r (r.act k { r.chart with arena } (.returned false))
  | exchange (k : ι) (slot : Option (Slot Float32)) (edge : UInt32)
      (stored : r.stage k = .stored slot edge)
      (same : Slot.word (r.chart.slotFor (offers k)) = Slot.word slot) :
      Step offers r (r.act k (r.chart.fill (offers k) edge)
        (.exchanged (r.chart.slotFor (offers k))))
  /-- The exchange fails, be it for no reason, and the call looks at what it has read instead. -/
  | fail (k : ι) (slot : Option (Slot Float32)) (edge : UInt32)
      (stored : r.stage k = .stored slot edge) :
      Step offers r (r.act k r.chart
        (.look (offers k) (r.chart.slotFor (offers k)) (.stored (r.chart.slotFor (offers k)) edge)))
  | mark (k : ι) (filled : r.stage k = .filled) :
      Step offers r (r.act k (r.chart.enter (offers k)) (.returned true))

/-- Any number of steps, in any order. -/
abbrev Run (offers : ι → Offer Float32) : Race ι → Race ι → Prop :=
  Relation.ReflTransGen (Step offers)

variable {offers : ι → Offer Float32} {r r' : Race ι} {k : ι} {o : Offer Float32}
  {c : SlotChart Float32} {edge : UInt32} {arena : Arena (Entry Float32)}

/-! ## A call by itself -/

theorem act_act (c c' : SlotChart Float32) (s s' : Stage) :
    (r.act k c s).act k c' s' = r.act k c' s' := by
  rw [act, act, act, Function.update_idem]

theorem stage_act (c : SlotChart Float32) (s : Stage) : (r.act k c s).stage k = s :=
  Function.update_self ..

theorem stage_act_of_ne {k' : ι} (h : k' ≠ k) (c : SlotChart Float32) (s : Stage) :
    (r.act k c s).stage k' = r.stage k' :=
  Function.update_of_ne h ..

omit [DecidableEq ι] in
theorem install_of_push (hgood : Score.admissible o.inside = true)
    (hbeats : SlotChart.beats o.inside (c.slotFor o) = true)
    (hpush : c.arena.push o.toEntry = (some edge, arena)) :
    c.install o.start o.stop o.toEntry =
      (true, if (c.slotFor o).isNone then
        (({ c with arena } : SlotChart Float32).fill o edge).enter o
      else ({ c with arena } : SlotChart Float32).fill o edge) := by
  simp [SlotChart.install, hgood, hbeats, hpush, SlotChart.put]

/-- A call that is not interrupted installs its entry and returns the answer. -/
theorem run_install (hcalled : r.stage k = .called) :
    Run offers r
      (r.act k (r.chart.install (offers k).start (offers k).stop (offers k).toEntry).2
        (.returned (r.chart.install (offers k).start (offers k).stop (offers k).toEntry).1)) := by
  by_cases hgood : Score.admissible (offers k).inside = true
  swap
  · rw [Bool.not_eq_true] at hgood
    have hreject := Step.reject k hcalled hgood
    rw [SlotChart.install_of_not (by rw [hgood, Bool.false_and])]
    exact .single hreject
  have hload := Step.load k hcalled hgood
  generalize hslot : r.chart.slotFor (offers k) = slot at hload
  by_cases hbeats : SlotChart.beats (offers k).inside slot = true
  swap
  · rw [Stage.look, if_neg hbeats] at hload
    rw [Bool.not_eq_true, ← hslot] at hbeats
    rw [SlotChart.install_of_not (by rw [hbeats, Bool.and_false])]
    exact .single hload
  rw [Stage.look, if_pos hbeats] at hload
  refine .head hload ?_
  generalize hloaded : r.act k r.chart (.loaded slot) = loaded
  have hstage : loaded.stage k = .loaded slot := hloaded ▸ stage_act ..
  have hchart : loaded.chart = r.chart := hloaded ▸ rfl
  have hact : ∀ c s, loaded.act k c s = r.act k c s := fun c s => hloaded ▸ act_act ..
  cases hstore : r.chart.arena.push (offers k).toEntry with
  | mk edge arena =>
    cases edge with
    | none =>
      have hfull := Step.full k slot arena hstage (hchart ▸ hstore)
      have hinstall : r.chart.install (offers k).start (offers k).stop (offers k).toEntry =
          (false, { r.chart with arena }) := by
        subst hslot
        simp [SlotChart.install, hgood, hbeats, hstore]
      rw [hact, hchart] at hfull
      rw [hinstall]
      exact .single hfull
    | some edge =>
      have hpush := Step.push k slot edge arena hstage (hchart ▸ hstore)
      rw [hact, hchart] at hpush
      have hexchange := Step.exchange (r := r.act k { r.chart with arena } (.stored slot edge)) k
        slot edge (stage_act ..) (congrArg Slot.word hslot)
      rw [act_act] at hexchange
      refine .head hpush (.head hexchange ?_)
      rw [install_of_push hgood (hslot ▸ hbeats) hstore]
      show Run offers (r.act k _ (.exchanged (r.chart.slotFor (offers k)))) _
      rw [Stage.exchanged]
      split
      · -- the slot had been empty: one step is left
        have hmark : Step offers (r.act k
            (({ r.chart with arena } : SlotChart Float32).fill (offers k) edge) .filled) _ :=
          .mark k (stage_act ..)
        rw [act_act] at hmark
        exact .single hmark
      · exact .refl

end Race

/-! ## What holds at all times -/

namespace Arena

variable {β : Type} {a a' : Arena β} {id : UInt32} {value : β}

/-- A value is stored under a number. -/
structure Keeps (a : Arena β) (id : UInt32) (value : β) : Prop where
  lt_next : id.toNat < a.next
  get?_eq : a.get? id = some value

theorem Keeps.push (h : a.Keeps id value) (value' : β) : (a.push value').2.Keeps id value :=
  ⟨next_push ▸ Nat.lt_succ_of_lt h.lt_next, (get?_push_of_lt h.lt_next).trans h.get?_eq⟩

theorem next_of_push {result : Option UInt32} (h : a.push value = (result, a')) :
    a'.next = a.next + 1 := by
  have hnext : (a.push value).2.next = a.next + 1 := next_push
  rwa [h] at hnext

theorem keeps_of_push (h : a.push value = (some id, a')) : a'.Keeps id value := by
  have hlt : a.next < UInt32.size := by
    by_contra hge
    rw [push, if_neg hge] at h
    cases h
  have hself : (a.push value).2.get? (UInt32.ofNat a.next) = some value := get?_push_self hlt
  have hnext := next_of_push h
  rw [h] at hself
  rw [push_of_lt hlt] at h
  obtain rfl := Option.some.inj (Prod.mk.inj h).1
  refine ⟨?_, hself⟩
  rw [toNat_ofNat_next hlt, hnext]
  exact Nat.lt_succ_self _

theorem size_lt_of_push (h : a.push value = (none, a')) : UInt32.size < a'.next := by
  have hge : ¬ a.next < UInt32.size := by
    intro hlt
    rw [push_of_lt hlt] at h
    cases h
  rw [next_of_push h]
  omega

end Arena

/-- The entry is offered to a place. -/
structure Offer.At {α : Type} (o : Offer α) (i j : Nat) (A : NonTerminal) : Prop where
  start_eq : o.start = i
  stop_eq : o.stop = j
  nonterminal_eq : o.nonterminal = A

/-- What a chart keeps while the calls take their steps. -/
structure SlotChart.Later (c c' : SlotChart Float32) : Prop where
  classes_eq : c'.classes = c.classes
  size_eq : c'.size = c.size
  numNonterminals_eq : c'.numNonterminals = c.numNonterminals
  keeps : ∀ edge e, c.arena.Keeps edge e → c'.arena.Keeps edge e
  filled : ∀ i j A, (c.slot? i j A).isSome = true → (c'.slot? i j A).isSome = true

namespace SlotChart

variable {c : SlotChart Float32} {e : Entry Float32} {id : Option UInt32}
  {arena : Arena (Entry Float32)} {o : Offer Float32}

theorem Later.refl (c : SlotChart Float32) : c.Later c :=
  ⟨rfl, rfl, rfl, fun _ _ h => h, fun _ _ _ h => h⟩

theorem later_push (h : c.arena.push e = (id, arena)) : c.Later { c with arena } := by
  refine ⟨rfl, rfl, rfl, fun edge e' hkeeps => ?_, fun _ _ _ h => h⟩
  have hpushed := hkeeps.push e
  rwa [h] at hpushed

theorem later_mark (c : SlotChart Float32) (o : Offer Float32) : c.Later (c.enter o) :=
  ⟨rfl, rfl, rfl, fun _ _ h => h, fun _ _ _ h => h⟩

theorem slot?_fill (hij : o.start < o.stop) (hj : o.stop ≤ c.size)
    (hnt : o.nonterminal < c.numNonterminals) (edge : UInt32) (i j : Nat)
    (A : NonTerminal) : (c.fill o edge).slot? i j A =
      if i = o.start ∧ j = o.stop ∧ A = o.nonterminal then some ⟨o.inside, edge⟩
      else c.slot? i j A :=
  slot?_put hij hj hnt _ i j A

theorem later_fill (hij : o.start < o.stop) (hj : o.stop ≤ c.size)
    (hnt : o.nonterminal < c.numNonterminals) (edge : UInt32) :
    c.Later (c.fill o edge) where
  classes_eq := rfl
  size_eq := rfl
  numNonterminals_eq := rfl
  keeps _ _ h := h
  filled i j A h := by
    rw [slot?_fill hij hj hnt]
    split
    · rfl
    · exact h

end SlotChart

/-- What is known of a call from its stage. -/
def Stage.Sane (c : SlotChart Float32) (o : Offer Float32) : Stage → Prop
  | called => True
  | loaded slot => Score.admissible o.inside = true ∧ SlotChart.beats o.inside slot = true
  | stored slot edge => (Score.admissible o.inside = true ∧
      SlotChart.beats o.inside slot = true) ∧ c.arena.Keeps edge o.toEntry
  | filled => (c.slotFor o).isSome = true
  | returned _ => True

namespace Stage

variable {c c' : SlotChart Float32} {o : Offer Float32} {s : Stage}
  {slot : Option (Slot Float32)} {edge : UInt32}

theorem Sane.later (h : s.Sane c o) (hlater : c.Later c') : s.Sane c' o := by
  cases s with
  | stored => exact ⟨h.1, hlater.keeps _ _ h.2⟩
  | filled => exact hlater.filled _ _ _ h
  | called | loaded | returned => exact h

theorem sane_look {onward : Stage} (h : SlotChart.beats o.inside slot = true → onward.Sane c o) :
    (look o slot onward).Sane c o := by
  rw [look]
  split
  · next hbeats => exact h hbeats
  · trivial

theorem sane_exchanged (h : (c.slotFor o).isSome = true) : (exchanged slot).Sane c o := by
  rw [exchanged]
  split
  · exact h
  · trivial

end Stage

namespace Race

variable {ι : Type} [DecidableEq ι] {offers : ι → Offer Float32} {g : Grammar Float32} {size : Nat}
  {r r' : Race ι} {k : ι} {i j : Nat} {A : NonTerminal}

/-- A slot holds an entry that has been offered to it, with a proper score. -/
def Holds (offers : ι → Offer Float32) (c : SlotChart Float32) (i j : Nat) (A : NonTerminal)
    (slot : Slot Float32) : Prop :=
  ∃ k, (offers k).At i j A ∧ Score.admissible (offers k).inside = true ∧
    slot.score = (offers k).inside ∧ c.arena.Keeps slot.edge (offers k).toEntry

/-- The parts of the chart and what the calls have done agree. -/
structure Sane (offers : ι → Offer Float32) (g : Grammar Float32) (size : Nat) (r : Race ι) :
    Prop where
  classes_eq : r.chart.classes = g.classes
  size_eq : r.chart.size = size
  numNonterminals_eq : r.chart.numNonterminals = g.numNonterminals
  held : ∀ i j A slot, r.chart.slot? i j A = some slot → Holds offers r.chart i j A slot
  stages : ∀ k, (r.stage k).Sane r.chart (offers k)

omit [DecidableEq ι] in
theorem sane_start (offers : ι → Offer Float32) (g : Grammar Float32) (size : Nat) :
    Sane offers g size (start size g) where
  classes_eq := rfl
  size_eq := rfl
  numNonterminals_eq := rfl
  held i j A slot h := by
    rw [start, SlotChart.slot?_empty] at h
    cases h
  stages _ := trivial

namespace Sane

/-- A call that goes on leaves the chart and the stages of the others in order, if only its own stage is
and what it puts into a slot. -/
theorem act (h : Sane offers g size r) {c : SlotChart Float32} (hlater : r.chart.Later c)
    (hslots : ∀ i j A slot, c.slot? i j A = some slot →
      r.chart.slot? i j A = some slot ∨ Holds offers c i j A slot)
    {s : Stage} (hs : s.Sane c (offers k)) : Sane offers g size (r.act k c s) where
  classes_eq := hlater.classes_eq.trans h.classes_eq
  size_eq := hlater.size_eq.trans h.size_eq
  numNonterminals_eq := hlater.numNonterminals_eq.trans h.numNonterminals_eq
  held i j A slot hslot := by
    rcases hslots i j A slot hslot with hold | hnew
    · obtain ⟨k', hat, hgood, hscore, hkeeps⟩ := h.held i j A slot hold
      exact ⟨k', hat, hgood, hscore, hlater.keeps _ _ hkeeps⟩
    · exact hnew
  stages := (Function.forall_update_iff _ fun k' (s : Stage) => s.Sane c (offers k')).2
    ⟨hs, fun k' _ => (h.stages k').later hlater⟩

omit [DecidableEq ι] in
theorem slot?_fill (h : Sane offers g size r) (hk : (offers k).Valid g size) (edge : UInt32)
    (i j : Nat) (A : NonTerminal) : (r.chart.fill (offers k) edge).slot? i j A =
      if i = (offers k).start ∧ j = (offers k).stop ∧ A = (offers k).nonterminal then
        some ⟨(offers k).inside, edge⟩
      else r.chart.slot? i j A :=
  SlotChart.slot?_fill hk.start_lt (h.size_eq ▸ hk.stop_le) (h.numNonterminals_eq ▸ hk.nonterminal_lt) ..

omit [DecidableEq ι] in
theorem later_fill (h : Sane offers g size r) (hk : (offers k).Valid g size) (edge : UInt32) :
    r.chart.Later (r.chart.fill (offers k) edge) :=
  SlotChart.later_fill hk.start_lt (h.size_eq ▸ hk.stop_le) (h.numNonterminals_eq ▸ hk.nonterminal_lt) _

theorem step (hoffers : ∀ k, (offers k).Valid g size) (h : Sane offers g size r)
    (hstep : Step offers r r') : Sane offers g size r' := by
  cases hstep with
  | reject k called bad => exact h.act (.refl _) (fun _ _ _ _ => .inl) trivial
  | load k called good =>
    exact h.act (.refl _) (fun _ _ _ _ => .inl) (Stage.sane_look fun hbeats => ⟨good, hbeats⟩)
  | push k slot edge arena loaded pushed =>
    have hk := h.stages k
    rw [loaded] at hk
    exact h.act (SlotChart.later_push pushed) (fun _ _ _ _ => .inl)
      ⟨hk, Arena.keeps_of_push pushed⟩
  | full k slot arena loaded pushed =>
    exact h.act (SlotChart.later_push pushed) (fun _ _ _ _ => .inl) trivial
  | exchange k slot edge stored same =>
    have hk := h.stages k
    rw [stored] at hk
    have hslot := h.slot?_fill (hoffers k) edge
    refine h.act (h.later_fill (hoffers k) edge) (fun i j A slot' hslot' => ?_)
      (Stage.sane_exchanged ?_)
    · rw [hslot] at hslot'
      split at hslot'
      · next hhere =>
        obtain ⟨rfl, rfl, rfl⟩ := hhere
        obtain rfl := Option.some.inj hslot'
        exact .inr ⟨k, ⟨rfl, rfl, rfl⟩, hk.1.1, rfl, hk.2⟩
      · exact .inl hslot'
    · rw [SlotChart.slotFor, hslot, if_pos ⟨rfl, rfl, rfl⟩]
      rfl
  | fail k slot edge stored =>
    have hk := h.stages k
    rw [stored] at hk
    exact h.act (.refl _) (fun _ _ _ _ => .inl)
      (Stage.sane_look fun hbeats => ⟨⟨hk.1.1, hbeats⟩, hk.2⟩)
  | mark k filled =>
    exact h.act (SlotChart.later_mark ..) (fun _ _ _ _ => .inl) trivial

/-- Whatever order the calls take their steps in. -/
theorem run (hoffers : ∀ k, (offers k).Valid g size) (hrun : Run offers (start size g) r) :
    Sane offers g size r := by
  induction hrun with
  | refl => exact sane_start offers g size
  | tail _ hstep ih => exact ih.step hoffers hstep

end Sane

omit [DecidableEq ι] in
/-- What a filled slot leads to. -/
theorem Sane.exists_of_slot? (h : Sane offers g size r) {slot : Slot Float32}
    (hslot : r.chart.slot? i j A = some slot) : ∃ k, (offers k).At i j A ∧
      Score.admissible (offers k).inside = true ∧ slot.score = (offers k).inside ∧
      r.chart.get? i j A = some (offers k).toEntry := by
  obtain ⟨k, hat, hgood, hscore, hkeeps⟩ := h.held i j A slot hslot
  refine ⟨k, hat, hgood, hscore, ?_⟩
  rw [SlotChart.get?, hslot, Option.bind_some, hkeeps.get?_eq]

omit [DecidableEq ι] in
theorem Sane.rank_slot? (h : Sane offers g size r) {e : Entry Float32}
    (he : r.chart.get? i j A = some e) :
    Slot.rank (r.chart.slot? i j A) = Binary32.rank e.inside.toBits := by
  cases hslot : r.chart.slot? i j A with
  | none =>
    rw [SlotChart.get?, hslot] at he
    cases he
  | some slot =>
    obtain ⟨k, -, -, hscore, hget⟩ := h.exists_of_slot? hslot
    obtain rfl := Option.some.inj (hget.symm.trans he)
    rw [Slot.rank, hscore]

/-- What holds at the start and is preserved by each step of a sane race holds at all times. -/
theorem run_induction {P : Race ι → Prop} (hoffers : ∀ k, (offers k).Valid g size)
    (hstart : P (start size g))
    (hstep : ∀ r r', Run offers (start size g) r → Sane offers g size r → Step offers r r' → P r →
      P r')
    (hrun : Run offers (start size g) r) : P r := by
  induction hrun with
  | refl => exact hstart
  | tail hrun step ih => exact hstep _ _ hrun (.run hoffers hrun) step ih

/-! ## Ranks -/

/-- No step takes the rank of a slot down. -/
theorem Step.rank_le (hoffers : ∀ k, (offers k).Valid g size) (h : Sane offers g size r)
    (hstep : Step offers r r') (i j : Nat) (A : NonTerminal) :
    Slot.rank (r.chart.slot? i j A) ≤ Slot.rank (r'.chart.slot? i j A) := by
  cases hstep with
  | exchange k slot edge stored same =>
    have hk := h.stages k
    rw [stored] at hk
    show _ ≤ Slot.rank ((r.chart.fill (offers k) edge).slot? i j A)
    rw [h.slot?_fill (hoffers k)]
    split
    · next hhere =>
      obtain ⟨rfl, rfl, rfl⟩ := hhere
      rw [Slot.rank_eq_of_word_eq same]
      exact UInt32.le_of_lt ((Slot.beats_iff hk.1.1 slot).1 hk.1.2)
    · exact UInt32.le_refl _
  | reject | load | push | full | fail | mark => exact UInt32.le_refl _

theorem rank_le_of_run (hoffers : ∀ k, (offers k).Valid g size) (h : Sane offers g size r)
    (hrun : Run offers r r') (i j : Nat) (A : NonTerminal) :
    Slot.rank (r.chart.slot? i j A) ≤ Slot.rank (r'.chart.slot? i j A) := by
  induction hrun using Relation.ReflTransGen.head_induction_on with
  | refl => exact UInt32.le_refl _
  | head hstep _ ih =>
    exact UInt32.le_trans (hstep.rank_le hoffers h i j A) (ih (h.step hoffers hstep))

end Race

end Constituency
