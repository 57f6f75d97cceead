import Constituency.Chart.Slots
import Constituency.Proofs.Chart.Arena
import Constituency.Proofs.Chart.CellBits
import Constituency.Proofs.Score.Order

/-!
# What a slot chart holds

A slot chart is seen through the entries that it finds. In a sound chart the slots, the arena and the
sets of each cell tell the same story about them, so that to install an entry is to change one entry
and nothing else (`install_of_beats`).
-/

namespace Constituency

namespace SlotChart

variable {α : Type} [Score α] {g : Grammar α} {c : SlotChart α} {start stop : Nat}
  {nt : NonTerminal} {e : Entry α}

/-! ## Soundness -/

/-- The set of each cell has those of its filled slots as members that have a property. -/
structure Marks (c : SlotChart α) (sets : CellBits) (keep : NonTerminal → Bool) : Prop where
  size_eq : sets.size = c.size
  stride_eq : sets.stride = wordsFor c.numNonterminals
  mem_iff : ∀ i j A,
    A ∈ sets.members i j ↔ (c.slot? i j A).isSome = true ∧ keep A = true

/-- The parts of a chart agree: filled slots lead to entries for their symbols with their scores,
and the sets know which slots are filled. -/
structure Sound (g : Grammar α) (c : SlotChart α) : Prop where
  numNonterminals_eq : c.numNonterminals = g.numNonterminals
  classes_eq : c.classes = g.classes
  stored : ∀ i j A slot, c.slot? i j A = some slot →
    slot.edge.toNat < c.arena.next ∧ Score.admissible slot.score = true ∧
      ∃ e, c.arena.get? slot.edge = some e ∧ e.nonterminal = A ∧ e.inside = slot.score
  populated : Marks c c.populated fun _ => true
  leftChildren : Marks c c.leftChildren c.classes.isLeft
  rightChildren : Marks c c.rightChildren c.classes.isRight
  pos : Marks c c.pos c.classes.isPos

omit [Score α] in
theorem covers_iff : c.covers start stop nt = true ↔
    (start < stop ∧ stop ≤ c.size) ∧ nt < c.numNonterminals := by
  simp [covers]

omit [Score α] in
theorem slot?_empty (size : Nat) : (empty size g).slot? start stop nt = none := by
  rw [slot?, empty, Vector.getElem?_replicate]
  split
  · split <;> rfl
  · rfl

omit [Score α] in
theorem get?_empty (size : Nat) (g : Grammar α) (i j : Nat) (A : NonTerminal) :
    (empty size g).get? i j A = none := by
  rw [get?, slot?_empty, Option.bind_none]

omit [Score α] in
theorem marks_empty (size : Nat) (keep : NonTerminal → Bool) :
    Marks (empty size g) (CellBits.make size g.numNonterminals) keep where
  size_eq := rfl
  stride_eq := rfl
  mem_iff i j A := by
    rw [slot?_empty]
    exact iff_of_false (CellBits.not_mem_members_make size _) fun h => Bool.noConfusion h.1

theorem sound_empty (size : Nat) (g : Grammar α) : (empty size g).Sound g where
  numNonterminals_eq := rfl
  classes_eq := rfl
  stored i j A slot h := by simp [slot?_empty] at h
  populated := marks_empty size _
  leftChildren := marks_empty size _
  rightChildren := marks_empty size _
  pos := marks_empty size _

namespace Sound

/-- A filled slot lies in the sentence and belongs to a symbol of the grammar. -/
theorem slot?_bounds (h : c.Sound g) {slot : Slot α} (hs : c.slot? start stop nt = some slot) :
    start < stop ∧ stop ≤ c.size ∧ nt < g.numNonterminals := by
  rw [slot?] at hs
  split at hs
  · next hcov =>
    obtain ⟨⟨hij, hj⟩, hnt⟩ := covers_iff.1 hcov
    exact ⟨hij, hj, h.numNonterminals_eq ▸ hnt⟩
  · cases hs

theorem get?_of_slot? (h : c.Sound g) {slot : Slot α} (hs : c.slot? start stop nt = some slot) :
    ∃ e, c.get? start stop nt = some e ∧ e.nonterminal = nt ∧ e.inside = slot.score := by
  obtain ⟨-, -, e, he, hnt, hscore⟩ := h.stored _ _ _ _ hs
  exact ⟨e, by rw [get?, hs, Option.bind_some, he], hnt, hscore⟩

theorem slot?_of_get? (h : c.Sound g) (he : c.get? start stop nt = some e) :
    ∃ slot, c.slot? start stop nt = some slot ∧ slot.score = e.inside := by
  rw [get?, Option.bind_eq_some_iff] at he
  obtain ⟨slot, hs, he⟩ := he
  obtain ⟨-, -, e', he', -, hscore⟩ := h.stored _ _ _ _ hs
  rw [he, Option.some.injEq] at he'
  exact ⟨slot, hs, he' ▸ hscore.symm⟩

theorem isSome_slot? (h : c.Sound g) (start stop : Nat) (nt : NonTerminal) :
    (c.slot? start stop nt).isSome = (c.get? start stop nt).isSome := by
  cases hs : c.slot? start stop nt with
  | none => rw [get?, hs]; rfl
  | some slot =>
    obtain ⟨e, he, -⟩ := h.get?_of_slot? hs
    rw [he, Option.isSome_some, Option.isSome_some]

theorem nonterminal_eq (h : c.Sound g) (he : c.get? start stop nt = some e) :
    e.nonterminal = nt := by
  obtain ⟨slot, hs, -⟩ := h.slot?_of_get? he
  obtain ⟨e', he', hnt, -⟩ := h.get?_of_slot? hs
  rw [he, Option.some.injEq] at he'
  exact he' ▸ hnt

theorem admissible (h : c.Sound g) (he : c.get? start stop nt = some e) :
    Score.admissible e.inside = true := by
  obtain ⟨slot, hs, hscore⟩ := h.slot?_of_get? he
  exact hscore ▸ (h.stored _ _ _ _ hs).2.1

theorem bounds (h : c.Sound g) (he : c.get? start stop nt = some e) :
    start < stop ∧ stop ≤ c.size ∧ nt < g.numNonterminals := by
  obtain ⟨slot, hs, -⟩ := h.slot?_of_get? he
  exact h.slot?_bounds hs

/-- The score of a slot is that of the entry. -/
theorem inside_eq (h : c.Sound g) (start stop : Nat) (nt : NonTerminal) :
    c.inside start stop nt = ((c.get? start stop nt).map (·.inside)).getD Score.impossible := by
  rw [inside]
  cases hs : c.slot? start stop nt with
  | none => rw [get?, hs]; rfl
  | some slot =>
    obtain ⟨e, he, -, hscore⟩ := h.get?_of_slot? hs
    rw [he]
    exact hscore.symm

theorem beats_eq (h : c.Sound g) (x : α) (start stop : Nat) (nt : NonTerminal) :
    beats x (c.slot? start stop nt) =
      (c.get? start stop nt).all fun old => Score.outranks x old.inside := by
  cases hs : c.slot? start stop nt with
  | none => rw [get?, hs]; rfl
  | some slot =>
    obtain ⟨e, he, -, hscore⟩ := h.get?_of_slot? hs
    rw [he, beats, Option.all_some, hscore]

theorem inside_of_get? (h : c.Sound g) (he : c.get? start stop nt = some e) :
    c.inside start stop nt = e.inside := by
  rw [h.inside_eq, he]
  rfl

/-- The scores of a chart in which one more entry is found. -/
theorem inside_eq_of_entered {c' : SlotChart α} (h : c.Sound g) (h' : c'.Sound g)
    (hget : ∀ k l A, c'.get? k l A =
      if k = start ∧ l = stop ∧ A = e.nonterminal then some e else c.get? k l A)
    (k l : Nat) (A : NonTerminal) :
    c'.inside k l A =
      if k = start ∧ l = stop ∧ A = e.nonterminal then e.inside else c.inside k l A := by
  rw [h'.inside_eq, hget, h.inside_eq]
  split <;> rfl

section Monotone

variable [MonotoneScore α]

/-- An entry that is no worse than the one before it makes no score worse. -/
theorem inside_le_of_entered {c' : SlotChart α} (h : c.Sound g) (h' : c'.Sound g)
    (hget : ∀ k l A, c'.get? k l A =
      if k = start ∧ l = stop ∧ A = e.nonterminal then some e else c.get? k l A)
    (hle : c.inside start stop e.nonterminal ≤ e.inside) (k l : Nat) (A : NonTerminal) :
    c.inside k l A ≤ c'.inside k l A := by
  rw [h.inside_eq_of_entered h' hget]
  split
  · next heq => rw [heq.1, heq.2.1, heq.2.2]; exact hle
  · exact Score.le_refl _

theorem inside_le_of_beats (h : c.Sound g) {x : α}
    (hbeats : beats x (c.slot? start stop nt) = true) : c.inside start stop nt ≤ x := by
  rw [h.beats_eq] at hbeats
  rw [h.inside_eq]
  cases hold : c.get? start stop nt with
  | none => exact Score.impossible_le _
  | some old =>
    rw [hold, Option.all_some] at hbeats
    exact MonotoneScore.le_of_outranks hbeats

/-- What is possible has an entry. -/
theorem possible_iff (h : c.Sound g) :
    Score.impossible < c.inside start stop nt ↔ ∃ e, c.get? start stop nt = some e := by
  constructor
  · intro hpos
    rw [h.inside_eq] at hpos
    cases he : c.get? start stop nt with
    | none =>
      rw [he] at hpos
      exact absurd hpos Score.not_impossible_lt_impossible
    | some e => exact ⟨e, rfl⟩
  · rintro ⟨e, he⟩
    rw [h.inside_of_get? he]
    exact Score.admissible_iff.1 (h.admissible he)

theorem bounds_of_possible (h : c.Sound g) (hpos : Score.impossible < c.inside start stop nt) :
    start < stop ∧ stop ≤ c.size ∧ nt < g.numNonterminals := by
  obtain ⟨e, he⟩ := h.possible_iff.1 hpos
  exact h.bounds he

end Monotone

end Sound

/-! ## Installing -/

theorem install_of_not (h : (Score.admissible e.inside &&
    beats e.inside (c.slot? start stop e.nonterminal)) = false) :
    c.install start stop e = (false, c) := by
  simp [install, h]

/-- An edge number is used up by every entry that would be an improvement. -/
theorem next_install_of_beats (start stop : Nat) (hadm : Score.admissible e.inside = true)
    (hbeats : beats e.inside (c.slot? start stop e.nonterminal) = true) :
    (c.install start stop e).2.arena.next = c.arena.next + 1 := by
  have hnext : (c.arena.push e).2.next = c.arena.next + 1 := Arena.next_push
  simp only [install, hadm, hbeats, Bool.and_self, if_true]
  split
  · next hpush => rwa [hpush] at hnext
  · next hpush =>
    rw [hpush] at hnext
    split <;> exact hnext

theorem next_le_next_install (c : SlotChart α) (start stop : Nat) (e : Entry α) :
    c.arena.next ≤ (c.install start stop e).2.arena.next := by
  by_cases h : Score.admissible e.inside = true ∧
      beats e.inside (c.slot? start stop e.nonterminal) = true
  · rw [next_install_of_beats start stop h.1 h.2]
    exact Nat.le_succ _
  · rw [install_of_not (by simpa using h)]

theorem size_install (c : SlotChart α) (start stop : Nat) (e : Entry α) :
    (c.install start stop e).2.size = c.size := by
  unfold install
  dsimp only
  split
  · split
    · rfl
    · split <;> rfl
  · rfl

omit [Score α] in
/-- No slot but the one that is filled changes. -/
theorem slot?_put (hij : start < stop) (hj : stop ≤ c.size) (hnt : nt < c.numNonterminals)
    (slot : Slot α) (k l : Nat) (A : NonTerminal) :
    (c.put start stop nt slot).slot? k l A =
      if k = start ∧ l = stop ∧ A = nt then some slot else c.slot? k l A := by
  have hcov : c.covers start stop nt = true := covers_iff.2 ⟨⟨hij, hj⟩, hnt⟩
  have hplace : c.place start stop nt < numCells c.size * c.numNonterminals :=
    cellIndex_mul_add_lt hij hj hnt
  have hslot : (c.put start stop nt slot).slot? k l A = if c.covers k l A then
      ((c.slots.setIfInBounds (c.place start stop nt) (some slot))[c.place k l A]?).join
      else none := by
    rw [put, if_pos hcov]
    rfl
  rw [hslot, slot?, Vector.getElem?_setIfInBounds, if_pos hplace]
  by_cases hcov' : c.covers k l A = true
  · obtain ⟨⟨hkl, hl⟩, hA⟩ := covers_iff.1 hcov'
    rw [if_pos hcov', if_pos hcov']
    by_cases hsame : c.place start stop nt = c.place k l A
    · obtain ⟨⟨rfl, rfl⟩, rfl⟩ := cellIndex_mul_add_inj hij hj hkl hl hnt hA hsame
      rw [if_pos rfl, if_pos ⟨rfl, rfl, rfl⟩, Option.join_some]
    · rw [if_neg hsame, if_neg]
      rintro ⟨rfl, rfl, rfl⟩
      exact hsame rfl
  · rw [if_neg hcov', if_neg hcov', if_neg]
    rintro ⟨rfl, rfl, rfl⟩
    exact hcov' hcov

/-- The chart with an entry stored and put into its slot. -/
def filled (c : SlotChart α) (start stop : Nat) (e : Entry α) : SlotChart α :=
  { c with arena := (c.arena.push e).2 }.put start stop e.nonterminal
    ⟨e.inside, UInt32.ofNat c.arena.next⟩

theorem install_eq_filled (hfits : c.arena.next < UInt32.size)
    (hadm : Score.admissible e.inside = true)
    (hbeats : beats e.inside (c.slot? start stop e.nonterminal) = true) :
    c.install start stop e =
      (true, if (c.slot? start stop e.nonterminal).isNone then
        (c.filled start stop e).mark start stop e.nonterminal else c.filled start stop e) := by
  simp [install, hadm, hbeats, Arena.push_of_lt hfits, filled]

section Filled

variable (h : c.Sound g) (hij : start < stop) (hj : stop ≤ c.size)
  (hnt : e.nonterminal < g.numNonterminals) (hfits : c.arena.next < UInt32.size)

include h hij hj hnt in
theorem slot?_filled (k l : Nat) (A : NonTerminal) :
    (c.filled start stop e).slot? k l A =
      if k = start ∧ l = stop ∧ A = e.nonterminal then
        some ⟨e.inside, UInt32.ofNat c.arena.next⟩
      else c.slot? k l A :=
  slot?_put hij hj (h.numNonterminals_eq ▸ hnt) _ k l A

include h hij hj hnt hfits in
theorem get?_filled (k l : Nat) (A : NonTerminal) :
    (c.filled start stop e).get? k l A =
      if k = start ∧ l = stop ∧ A = e.nonterminal then some e else c.get? k l A := by
  rw [get?, slot?_filled h hij hj hnt]
  split
  · exact Arena.get?_push_self hfits
  · rw [get?]
    cases hs : c.slot? k l A with
    | none => rfl
    | some slot => exact Arena.get?_push_of_lt (h.stored _ _ _ _ hs).1

/-- What a set has as members after a symbol has been entered that may not belong to it. -/
theorem mem_members_enter {sets : CellBits} {keep : NonTerminal → Bool} {start stop : Nat}
    {nt : NonTerminal} (hij : start < stop) (hj : stop ≤ sets.size) (hnt : nt / 64 < sets.stride)
    (k l : Nat) (A : NonTerminal) :
    A ∈ (if keep nt then sets.insert start stop nt else sets).members k l ↔
      A ∈ sets.members k l ∨ (k = start ∧ l = stop ∧ A = nt) ∧ keep A = true := by
  split
  · next hkeep =>
    rw [CellBits.mem_members_insert hij hj hnt]
    exact or_congr_right ⟨fun h => ⟨h, h.2.2 ▸ hkeep⟩, And.left⟩
  · next hkeep =>
    refine (or_iff_left ?_).symm
    rintro ⟨⟨-, -, rfl⟩, hA⟩
    exact hkeep hA

omit [Score α] in
/-- The sets of a cell after its slot has been filled and, if it was empty, entered. -/
theorem marks_enter {c c' : SlotChart α} {sets : CellBits} {keep : NonTerminal → Bool}
    (hm : Marks c sets keep) (hsize : c'.size = c.size)
    (hcount : c'.numNonterminals = c.numNonterminals) {start stop : Nat} {nt : NonTerminal}
    (hij : start < stop) (hj : stop ≤ c.size) (hnt : nt < c.numNonterminals)
    (hslot : ∀ k l A, (c'.slot? k l A).isSome = true ↔
      (c.slot? k l A).isSome = true ∨ k = start ∧ l = stop ∧ A = nt) :
    Marks c' (if keep nt then sets.insert start stop nt else sets) keep := by
  refine ⟨?_, ?_, fun k l A => ?_⟩
  · split <;> simp [hm.size_eq, hsize]
  · split <;> simp [hm.stride_eq, hcount]
  · rw [hslot, mem_members_enter hij (hm.size_eq ▸ hj) (hm.stride_eq ▸ CellBits.lt_wordsFor hnt),
      hm.mem_iff, or_and_right]

omit [Score α] in
theorem marks_same {c c' : SlotChart α} {sets : CellBits} {keep : NonTerminal → Bool}
    (hm : Marks c sets keep) (hsize : c'.size = c.size)
    (hcount : c'.numNonterminals = c.numNonterminals)
    (hslot : ∀ k l A, (c'.slot? k l A).isSome = (c.slot? k l A).isSome) :
    Marks c' sets keep :=
  ⟨hm.size_eq.trans hsize.symm, hcount ▸ hm.stride_eq, fun k l A => by rw [hslot, hm.mem_iff]⟩

include h hij hj hnt hfits in
theorem stored_filled (hadm : Score.admissible e.inside = true) (k l : Nat) (A : NonTerminal)
    (slot : Slot α) (hs : (c.filled start stop e).slot? k l A = some slot) :
    slot.edge.toNat < (c.filled start stop e).arena.next ∧
      Score.admissible slot.score = true ∧
      ∃ e', (c.filled start stop e).arena.get? slot.edge = some e' ∧ e'.nonterminal = A ∧
        e'.inside = slot.score := by
  have hnext : (c.filled start stop e).arena.next = c.arena.next + 1 := Arena.next_push
  rw [slot?_filled h hij hj hnt] at hs
  split at hs
  · next heq =>
    rw [Option.some.injEq] at hs
    subst hs
    refine ⟨?_, hadm, e, Arena.get?_push_self hfits, heq.2.2.symm, rfl⟩
    rw [Arena.toNat_ofNat_next hfits, hnext]
    exact Nat.lt_succ_self _
  · obtain ⟨hlt, hadm', e', he', hnt', hscore⟩ := h.stored _ _ _ _ hs
    exact ⟨by omega, hadm', e', (Arena.get?_push_of_lt hlt).trans he', hnt', hscore⟩

include h hij hj hnt hfits in
theorem sound_filled (hadm : Score.admissible e.inside = true)
    (hsome : (c.slot? start stop e.nonterminal).isSome = true) :
    (c.filled start stop e).Sound g := by
  have hslot : ∀ k l A, ((c.filled start stop e).slot? k l A).isSome =
      (c.slot? k l A).isSome := by
    intro k l A
    rw [slot?_filled h hij hj hnt]
    split
    · next heq =>
      obtain ⟨rfl, rfl, rfl⟩ := heq
      rw [hsome, Option.isSome_some]
    · rfl
  exact
    { numNonterminals_eq := h.numNonterminals_eq
      classes_eq := h.classes_eq
      stored := stored_filled h hij hj hnt hfits hadm
      populated := marks_same h.populated rfl rfl hslot
      leftChildren := marks_same h.leftChildren rfl rfl hslot
      rightChildren := marks_same h.rightChildren rfl rfl hslot
      pos := marks_same h.pos rfl rfl hslot }

omit [Score α] in
@[simp] theorem slot?_mark (c : SlotChart α) (start stop : Nat) (nt : NonTerminal) :
    (c.mark start stop nt).slot? = c.slot? := rfl

include h hij hj hnt hfits in
theorem sound_mark (hadm : Score.admissible e.inside = true) :
    ((c.filled start stop e).mark start stop e.nonterminal).Sound g := by
  have hslot : ∀ k l A,
      (((c.filled start stop e).mark start stop e.nonterminal).slot? k l A).isSome = true ↔
        (c.slot? k l A).isSome = true ∨ k = start ∧ l = stop ∧ A = e.nonterminal := by
    intro k l A
    rw [slot?_mark, slot?_filled h hij hj hnt]
    split
    · next heq => simp [heq]
    · next hne => simp [hne]
  have hnt' : e.nonterminal < c.numNonterminals := h.numNonterminals_eq ▸ hnt
  have hsize : ((c.filled start stop e).mark start stop e.nonterminal).size = c.size := rfl
  have hcount : ((c.filled start stop e).mark start stop e.nonterminal).numNonterminals =
      c.numNonterminals := rfl
  exact
    { numNonterminals_eq := h.numNonterminals_eq
      classes_eq := h.classes_eq
      stored := by
        rw [slot?_mark]
        exact stored_filled h hij hj hnt hfits hadm
      populated := marks_enter h.populated hsize hcount hij hj hnt' hslot
      leftChildren := marks_enter h.leftChildren hsize hcount hij hj hnt' hslot
      rightChildren := marks_enter h.rightChildren hsize hcount hij hj hnt' hslot
      pos := marks_enter h.pos hsize hcount hij hj hnt' hslot }

include h hij hj hnt hfits in
/-- An entry that beats its slot is found in its place from then on, and all else stays. -/
theorem install_of_beats (hadm : Score.admissible e.inside = true)
    (hbeats : beats e.inside (c.slot? start stop e.nonterminal) = true) :
    (c.install start stop e).1 = true ∧ (c.install start stop e).2.Sound g ∧
      ∀ k l A, (c.install start stop e).2.get? k l A =
        if k = start ∧ l = stop ∧ A = e.nonterminal then some e else c.get? k l A := by
  rw [install_eq_filled hfits hadm hbeats]
  refine ⟨rfl, ?_, fun k l A => ?_⟩
  · dsimp only
    split
    · exact sound_mark h hij hj hnt hfits hadm
    · next hsome =>
      exact sound_filled h hij hj hnt hfits hadm (by simpa [Option.isSome_iff_ne_none] using hsome)
  · have hget := get?_filled h hij hj hnt hfits k l A
    dsimp only
    split <;> exact hget

section Monotone

variable [MonotoneScore α]

include h hij hj hnt in
/-- An entry that is offered either is no improvement, and the chart stays as it is, or it is found
in its place, and its score is at least that of the entry before it. -/
theorem install_cases (hfits : (c.install start stop e).2.arena.next ≤ UInt32.size) :
    (c.install start stop e = (false, c) ∧ e.inside ≤ c.inside start stop e.nonterminal) ∨
      ((c.install start stop e).1 = true ∧ (c.install start stop e).2.Sound g ∧
        Score.impossible < e.inside ∧ c.inside start stop e.nonterminal ≤ e.inside ∧
        ∀ k l A, (c.install start stop e).2.get? k l A =
          if k = start ∧ l = stop ∧ A = e.nonterminal then some e else c.get? k l A) := by
  have hinside := h.inside_eq start stop e.nonterminal
  by_cases hadm : Score.admissible e.inside = true
  · by_cases hbeats : beats e.inside (c.slot? start stop e.nonterminal) = true
    · right
      have hlt : c.arena.next < UInt32.size := by
        have hnext := next_install_of_beats start stop hadm hbeats
        omega
      obtain ⟨h1, hsound, hget⟩ := install_of_beats h hij hj hnt hlt hadm hbeats
      exact ⟨h1, hsound, Score.admissible_iff.1 hadm, h.inside_le_of_beats hbeats, hget⟩
    · left
      refine ⟨install_of_not (by simp [hbeats]), ?_⟩
      rw [h.beats_eq] at hbeats
      rw [hinside]
      cases hold : c.get? start stop e.nonterminal with
      | none => simp [hold] at hbeats
      | some old =>
        rw [hold, Option.all_some] at hbeats
        exact Score.not_lt.1 fun hlt => hbeats (MonotoneScore.outranks_of_lt hlt)
  · left
    refine ⟨install_of_not (by simp [hadm]), ?_⟩
    rw [Score.admissible_iff, Score.not_lt] at hadm
    exact Score.le_trans hadm (Score.impossible_le _)

end Monotone

end Filled

/-! ## A full arena -/

/-- The chart with a number of its arena used up in vain. -/
def refused (c : SlotChart α) (e : Entry α) : SlotChart α :=
  { c with arena := (c.arena.push e).2 }

theorem install_of_full (hfull : ¬ c.arena.next < UInt32.size)
    (hadm : Score.admissible e.inside = true)
    (hbeats : beats e.inside (c.slot? start stop e.nonterminal) = true) :
    c.install start stop e = (false, c.refused e) := by
  simp [install, hadm, hbeats, Arena.push, hfull, refused]

theorem get?_refused (h : c.Sound g) (e : Entry α) (k l : Nat) (A : NonTerminal) :
    (c.refused e).get? k l A = c.get? k l A := by
  have hslot : (c.refused e).slot? k l A = c.slot? k l A := rfl
  rw [get?, get?, hslot]
  cases hs : c.slot? k l A with
  | none => rfl
  | some slot => exact Arena.get?_push_of_lt (h.stored _ _ _ _ hs).1

theorem sound_refused (h : c.Sound g) (e : Entry α) : (c.refused e).Sound g where
  numNonterminals_eq := h.numNonterminals_eq
  classes_eq := h.classes_eq
  stored i j A slot hs := by
    obtain ⟨hlt, hadm, e', he', hspec⟩ := h.stored i j A slot hs
    refine ⟨?_, hadm, e', ?_, hspec⟩
    · show slot.edge.toNat < (c.arena.push e).2.next
      rw [Arena.next_push]
      omega
    · exact (Arena.get?_push_of_lt hlt).trans he'
  populated := marks_same h.populated rfl rfl fun _ _ _ => rfl
  leftChildren := marks_same h.leftChildren rfl rfl fun _ _ _ => rfl
  rightChildren := marks_same h.rightChildren rfl rfl fun _ _ _ => rfl
  pos := marks_same h.pos rfl rfl fun _ _ _ => rfl

/-- Whether or not the arena has numbers left, an entry that is offered is found in its place or
changes nothing. -/
theorem install_changes (h : c.Sound g) (hij : start < stop) (hj : stop ≤ c.size)
    (hnt : e.nonterminal < g.numNonterminals) :
    (c.install start stop e).2.Sound g ∧
      (((c.install start stop e).1 = false ∧
          ∀ k l A, (c.install start stop e).2.get? k l A = c.get? k l A) ∨
        ((c.install start stop e).1 = true ∧ Score.admissible e.inside = true ∧
          ∀ k l A, (c.install start stop e).2.get? k l A =
            if k = start ∧ l = stop ∧ A = e.nonterminal then some e else c.get? k l A)) := by
  by_cases hcond : Score.admissible e.inside = true ∧
      beats e.inside (c.slot? start stop e.nonterminal) = true
  · obtain ⟨hadm, hbeats⟩ := hcond
    by_cases hfits : c.arena.next < UInt32.size
    · obtain ⟨hdone, hsound, hget⟩ := install_of_beats h hij hj hnt hfits hadm hbeats
      exact ⟨hsound, .inr ⟨hdone, hadm, hget⟩⟩
    · rw [install_of_full hfits hadm hbeats]
      exact ⟨sound_refused h e, .inl ⟨rfl, get?_refused h e⟩⟩
  · rw [install_of_not (by simpa using hcond)]
    exact ⟨h, .inl ⟨rfl, fun _ _ _ => rfl⟩⟩

/-- What has been installed beats its slot, and the arena had a number for it. -/
theorem beats_of_install (hdone : (c.install start stop e).1 = true) :
    c.arena.next < UInt32.size ∧ Score.admissible e.inside = true ∧
      beats e.inside (c.slot? start stop e.nonterminal) = true := by
  by_cases hcond : Score.admissible e.inside = true ∧
      beats e.inside (c.slot? start stop e.nonterminal) = true
  · refine ⟨Classical.byContradiction fun hfull => ?_, hcond⟩
    rw [install_of_full hfull hcond.1 hcond.2] at hdone
    cases hdone
  · rw [install_of_not (by simpa using hcond)] at hdone
    cases hdone

/-- What is not installed leaves all slots as they are. -/
theorem slot?_install_of_not (hnot : (c.install start stop e).1 = false) (k l : Nat)
    (A : NonTerminal) : (c.install start stop e).2.slot? k l A = c.slot? k l A := by
  by_cases hcond : Score.admissible e.inside = true ∧
      beats e.inside (c.slot? start stop e.nonterminal) = true
  · by_cases hfits : c.arena.next < UInt32.size
    · rw [install_eq_filled hfits hcond.1 hcond.2] at hnot
      cases hnot
    · rw [install_of_full hfits hcond.1 hcond.2]
      rfl
  · rw [install_of_not (by simpa using hcond)]

/-- What is installed fills its slot, under the next number of the arena. -/
theorem slot?_install (h : c.Sound g) (hij : start < stop) (hj : stop ≤ c.size)
    (hnt : e.nonterminal < g.numNonterminals) (hdone : (c.install start stop e).1 = true)
    (k l : Nat) (A : NonTerminal) :
    (c.install start stop e).2.slot? k l A =
      if k = start ∧ l = stop ∧ A = e.nonterminal then
        some ⟨e.inside, UInt32.ofNat c.arena.next⟩
      else c.slot? k l A := by
  obtain ⟨hfits, hadm, hbeats⟩ := beats_of_install hdone
  have hfilled := slot?_filled h hij hj hnt k l A
  rw [install_eq_filled hfits hadm hbeats]
  dsimp only
  split <;> exact hfilled

/-- What has been installed is possible, and its score is at least that of the entry before it. -/
theorem le_of_install [MonotoneScore α] (h : c.Sound g)
    (hdone : (c.install start stop e).1 = true) :
    Score.impossible < e.inside ∧ c.inside start stop e.nonterminal ≤ e.inside := by
  by_cases hcond : Score.admissible e.inside = true ∧
      beats e.inside (c.slot? start stop e.nonterminal) = true
  · obtain ⟨hadm, hbeats⟩ := hcond
    exact ⟨Score.admissible_iff.1 hadm, h.inside_le_of_beats hbeats⟩
  · rw [install_of_not (by simpa using hcond)] at hdone
    cases hdone

end SlotChart

end Constituency
