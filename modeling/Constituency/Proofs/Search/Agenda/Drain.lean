import Constituency.Proofs.Chart.Interleaving
import Constituency.Proofs.Search.Agenda.Budget
import Constituency.Proofs.Search.Agreement

/-!
# The queue of an agenda search runs dry

In single precision a slot can take no more than the `2 ^ 32` ranks of a score. Every entry that enters the
chart raises the rank of its slot, and so the sum over all slots (`SlotChart.height`), which is bounded; every
other edge leaves the chart alone and shortens the queue. Whatever the log probabilities, the figure of merit and
the order in which edges are taken, a search comes to an end: each entry queues at most so many edges
(`Task.fan`), and no more edges are taken than have been queued (`Funded`).
-/

namespace Constituency

namespace SlotChart

variable {g : Grammar Float32} {c : SlotChart Float32} {start stop : Nat} {e : Entry Float32}

/-! ## The height of a chart -/

/-- The places that the slots of a chart can have. -/
def places (size count : Nat) : Finset (Nat × Nat × NonTerminal) :=
  Finset.range size ×ˢ Finset.range (size + 1) ×ˢ Finset.range count

/-- The sum of the ranks of all scores in a chart. -/
def height (c : SlotChart Float32) : Nat :=
  ∑ x ∈ places c.size c.numNonterminals, (Slot.rank (c.slot? x.1 x.2.1 x.2.2)).toNat

theorem card_places (size count : Nat) :
    (places size count).card = 2 * (numCells size * count) := by
  have heven : 2 * (size * (size + 1) / 2) = size * (size + 1) :=
    Nat.two_mul_div_two_of_even (Nat.even_mul_succ_self size)
  rw [places, Finset.card_product, Finset.card_product, Finset.card_range, Finset.card_range,
    Finset.card_range, numCells, ← Nat.mul_assoc, ← Nat.mul_assoc, heven]

theorem height_le (c : SlotChart Float32) :
    c.height ≤ 2 * (numCells c.size * c.numNonterminals) * UInt32.size := by
  rw [← card_places, ← smul_eq_mul, height]
  exact Finset.sum_le_card_nsmul _ _ _ fun x _ => Nat.le_of_lt (UInt32.toNat_lt _)

/-- An entry that enters a chart raises it. -/
theorem height_lt_install (h : c.Sound g) (hij : start < stop) (hj : stop ≤ c.size)
    (hnt : e.nonterminal < g.numNonterminals) (hdone : (c.install start stop e).1 = true) :
    c.height < (c.install start stop e).2.height := by
  obtain ⟨-, hadm, hbeats⟩ := beats_of_install hdone
  have hslot := slot?_install h hij hj hnt hdone
  have hrank := (Slot.beats_iff hadm _).1 hbeats
  have hcount : (c.install start stop e).2.numNonterminals = c.numNonterminals :=
    (install_changes h hij hj hnt).1.numNonterminals_eq.trans h.numNonterminals_eq.symm
  rw [height, height, size_install, hcount]
  refine Finset.sum_lt_sum (fun x _ => ?_) ⟨(start, stop, e.nonterminal), ?_, ?_⟩
  · rw [hslot]
    split
    · next hplace =>
      rw [hplace.1, hplace.2.1, hplace.2.2]
      exact Nat.le_of_lt hrank
    · exact Nat.le_refl _
  · simp only [places, Finset.mem_product, Finset.mem_range, h.numNonterminals_eq]
    exact ⟨by omega, by omega, hnt⟩
  · rw [hslot, if_pos ⟨rfl, rfl, rfl⟩]
    exact hrank

/-- An entry that does not enter a chart leaves its height. -/
theorem height_install_of_not (h : c.Sound g) (hij : start < stop) (hj : stop ≤ c.size)
    (hnt : e.nonterminal < g.numNonterminals) (hnot : (c.install start stop e).1 = false) :
    (c.install start stop e).2.height = c.height := by
  have hcount : (c.install start stop e).2.numNonterminals = c.numNonterminals :=
    (install_changes h hij hj hnt).1.numNonterminals_eq.trans h.numNonterminals_eq.symm
  simp only [height, size_install, hcount, slot?_install_of_not hnot]

end SlotChart

namespace Agenda

variable {t : Task Float32} {g : Grammar Float32} {s : Sentence} {st st' : State Float32}
  {e : Edge Float32} {batch : List (Edge Float32)} {c : SlotChart Float32}

/-! ## Edges in their places -/

/-- The edge has a place in the chart of a search. -/
def Task.Admits {α : Type} (t : Task α) (e : Edge α) : Prop :=
  e.start < e.stop ∧ e.stop ≤ t.size ∧ e.nonterminal < t.grammar.numNonterminals

/-- What builds on an entry has a place. -/
theorem admits_of_mem_frontier {α : Type} [Score α] {t : Task α} {c : SlotChart α} {e : Edge α}
    {i j : Nat} {A : NonTerminal} {x : α} (hij : i < j) (hj : j ≤ t.size)
    (he : e ∈ frontier t c i j A x) : t.Admits e := by
  rw [frontier, List.mem_filter, List.mem_append, List.mem_append] at he
  rcases he.1 with (he | he) | he
  · obtain ⟨p, hp, rfl⟩ := List.mem_map.1 he
    exact ⟨hij, hj, Grammar.parent_lt (Grammar.mem_byUnaryChild.1 hp).1⟩
  · obtain ⟨p, hp, he⟩ := List.mem_flatMap.1 he
    obtain ⟨hmem, right, hc⟩ := Grammar.mem_byLeftChild.1 hp
    simp only [hc, List.mem_filterMap, List.mem_range'_1] at he
    obtain ⟨stop, hstop, he⟩ := he
    obtain ⟨-, he⟩ := Option.ite_none_right_eq_some.1 he
    obtain rfl := Option.some.inj he
    exact ⟨show i < stop by omega, show stop ≤ t.size by omega, Grammar.parent_lt hmem⟩
  · obtain ⟨p, hp, he⟩ := List.mem_flatMap.1 he
    obtain ⟨hmem, left, hc⟩ := Grammar.mem_byRightChild.1 hp
    simp only [hc, List.mem_filterMap, List.mem_range] at he
    obtain ⟨start, hstart, he⟩ := he
    obtain ⟨-, he⟩ := Option.ite_none_right_eq_some.1 he
    obtain rfl := Option.some.inj he
    exact ⟨show start < j by omega, hj, Grammar.parent_lt hmem⟩

/-! ## Funds -/

/-- All edges have places, each of those that have been queued waits or has been taken, and the chart has
been raised often enough to pay for them. -/
structure Funded (t : Task Float32) (batch : List (Edge Float32)) (st : State Float32) : Prop where
  sound : st.chart.Sound t.grammar
  size_eq : st.chart.size = t.size
  admitted : ∀ e ∈ batch ++ st.queue.edges, t.Admits e
  taken : st.pops + (batch.length + st.queue.edges.length) = st.pushes
  paid : st.pushes ≤ t.fan * st.chart.height

theorem Funded.process (h : Funded t (e :: batch) st) : Funded t batch (process t st e) := by
  obtain ⟨hij, hj, hnt⟩ := h.admitted e List.mem_cons_self
  have hj' : e.stop ≤ st.chart.size := h.size_eq.symm ▸ hj
  have hsound := (SlotChart.install_changes h.sound hij hj' hnt).1
  have hrest : ∀ e' ∈ batch ++ st.queue.edges, t.Admits e' := fun e' he' =>
    h.admitted e' (List.mem_cons_of_mem e he')
  have htaken := h.taken
  have hpaid := h.paid
  rw [List.length_cons] at htaken
  cases hdone : (st.chart.install e.start e.stop e.toEntry).1 with
  | false =>
    have hheight := SlotChart.height_install_of_not h.sound hij hj' hnt hdone
    refine ⟨?_, ?_, ?_, ?_, ?_⟩ <;>
      simp only [chart_process, queue_process, pops_process, pushes_process, hdone,
        Bool.false_eq_true, if_false, SlotChart.size_install]
    · exact hsound
    · exact h.size_eq
    · exact hrest
    · omega
    · rwa [hheight]
  | true =>
    have hheight := SlotChart.height_lt_install h.sound hij hj' hnt hdone
    have hfan := length_frontier_le (st.chart.install e.start e.stop e.toEntry).2 hij hj
      e.nonterminal e.inside
    refine ⟨?_, ?_, ?_, ?_, ?_⟩ <;>
      simp only [chart_process, queue_process, pops_process, pushes_process, hdone, if_true,
        SlotChart.size_install]
    · exact hsound
    · exact h.size_eq
    · intro e' he'
      rw [List.mem_append, mem_insertAll] at he'
      rcases he' with he' | he' | he'
      · exact hrest e' (List.mem_append_left _ he')
      · exact admits_of_mem_frontier hij hj he'
      · exact hrest e' (List.mem_append_right _ he')
    · rw [length_insertAll]
      omega
    · calc st.pushes + _ ≤ t.fan * st.chart.height + t.fan := Nat.add_le_add hpaid hfan
        _ = t.fan * (st.chart.height + 1) := (Nat.mul_succ _ _).symm
        _ ≤ _ := Nat.mul_le_mul_left _ hheight

/-- Whichever edge is taken next, the funds suffice. -/
theorem Funded.step (h : Funded t [] st) (hstep : Step t st st') :
    Funded t [] st' ∧ st'.pops = st.pops + 1 := by
  obtain ⟨e, rest, hperm, rfl⟩ := hstep
  refine ⟨Funded.process ⟨h.sound, h.size_eq, fun e' he' => h.admitted e' ?_, ?_, h.paid⟩,
    pops_process ..⟩
  · rw [List.nil_append, hperm.mem_iff]
    simpa using he'
  · have hlength := hperm.length_eq
    have htaken := h.taken
    simp only [List.length_cons, List.length_nil] at hlength htaken ⊢
    omega

theorem Funded.run (h : Funded t [] st) (hrun : Run t st st') : Funded t [] st' := by
  induction hrun with
  | refl => exact h
  | tail _ hstep ih => exact (ih.step hstep).1

/-- No search takes more edges than this. -/
def Task.popBound (t : Task Float32) : Nat :=
  t.fan * (2 * (numCells t.size * t.grammar.numNonterminals) * UInt32.size)

theorem Funded.pushes_le (h : Funded t batch st) : st.pushes ≤ t.popBound := by
  have hheight := st.chart.height_le
  rw [h.size_eq, h.sound.numNonterminals_eq] at hheight
  exact Nat.le_trans h.paid (Nat.mul_le_mul_left _ hheight)

theorem Funded.pops_le (h : Funded t batch st) : st.pops ≤ st.pushes := by
  have htaken := h.taken
  omega

/-- In every round the funds suffice. -/
theorem Funded.rounds (h : Funded t [] st) (hbatch : 0 < t.batch) (rounds : Nat)
    (hdone : (Agenda.run t rounds st).done = false) :
    Funded t [] (Agenda.run t rounds st) ∧
      ((Agenda.run t rounds st).queue.edges = [] ∨
        st.pops + rounds ≤ (Agenda.run t rounds st).pops) := by
  refine run_induction (fun e rest st h => h.process) (fun st h => ?_) hbatch rounds h hdone
  refine ⟨h.sound, h.size_eq, fun e he => h.admitted e ?_, ?_, h.paid⟩
  · rw [List.nil_append]
    rw [Queue.take, List.take_append_drop] at he
    exact he
  · have hlength := length_take_add st.queue t.batch
    have htaken := h.taken
    rw [List.length_nil, Nat.zero_add] at htaken
    dsimp only
    omega

/-- A search that nothing is left to do in has taken all edges that have been queued. -/
theorem Funded.pops_eq (h : Funded t [] st) (hempty : st.queue.edges = []) :
    st.pops = st.pushes := by
  have htaken := h.taken
  rwa [hempty] at htaken

/-! ## The start -/

/-- A chart with some of the words of a sentence, and the places of those, each of which has raised it. -/
structure Sowing (g : Grammar Float32) (s : Sentence)
    (state : SlotChart Float32 × List (Nat × NonTerminal)) : Prop where
  sound : state.1.Sound g
  size_eq : state.1.size = s.size
  bounds : ∀ x ∈ state.2, x.1 + 1 ≤ s.size ∧ x.2 < g.numNonterminals
  raised : state.2.length ≤ state.1.height

theorem Sowing.seedStep {state : SlotChart Float32 × List (Nat × NonTerminal)}
    {x : Nat × Entry Float32} (h : Sowing g s state) (hx : x ∈ lexicalEntries g s) :
    Sowing g s (seedStep state x) := by
  obtain ⟨p, word, hp, -, hword, he⟩ := mem_lexicalEntries.1 hx
  have hi : x.1 + 1 ≤ s.size := Sentence.lt_size_of_terminal? hword
  have hnt : x.2.nonterminal < g.numNonterminals := he ▸ Grammar.parent_lt hp
  have hj : x.1 + 1 ≤ state.1.size := h.size_eq.symm ▸ hi
  have hij : x.1 < x.1 + 1 := Nat.lt_succ_self _
  have hraised := h.raised
  refine ⟨?_, ?_, ?_, ?_⟩ <;> simp only [chart_seedStep, seeds_seedStep]
  · exact (SlotChart.install_changes h.sound hij hj hnt).1
  · exact (SlotChart.size_install ..).trans h.size_eq
  · split
    · intro y hy
      rcases List.mem_append.1 hy with hy | hy
      · exact h.bounds y hy
      · rw [List.mem_singleton.1 hy]
        exact ⟨hi, hnt⟩
    · exact h.bounds
  · split
    · next hdone =>
      have hheight := SlotChart.height_lt_install h.sound hij hj hnt hdone
      rw [List.length_append, List.length_singleton]
      omega
    · next hnot =>
      rwa [SlotChart.height_install_of_not h.sound hij hj hnt (Bool.eq_false_iff.2 hnot)]

theorem seed_sowing (g : Grammar Float32) (s : Sentence) : Sowing g s (seed g s) := by
  refine foldl_prefix_induction (P := fun _ state => Sowing g s state) (lexicalEntries g s)
    (fun visited x rest state hsplit h => h.seedStep (by rw [hsplit]; simp)) ?_
  exact ⟨SlotChart.sound_empty s.size g, rfl, fun x hx => absurd hx List.not_mem_nil, Nat.zero_le _⟩

/-- The words fund the first edges. -/
theorem initial_funded (hg : t.grammar = g) (ht : t.size = s.size) :
    Funded t [] (initial t (seed g s).1 (seed g s).2) := by
  subst hg
  have hseed := seed_sowing t.grammar s
  obtain ⟨hchart, hqueue⟩ := initial_spec t (seed t.grammar s).1 (seed t.grammar s).2
  obtain ⟨hpops, hlength, hpushes⟩ := initial_pushes t (seed t.grammar s).1
    fun x hx => ht.symm ▸ (hseed.bounds x hx).1
  refine ⟨?_, ?_, fun e he => ?_, ?_, ?_⟩
  · rw [hchart]
    exact hseed.sound
  · rw [hchart, ht]
    exact hseed.size_eq
  · obtain ⟨i, A, hseeded, he⟩ := (hqueue e).1 he
    have hi : i + 1 ≤ t.size := ht.symm ▸ (hseed.bounds _ hseeded).1
    exact admits_of_mem_frontier (Nat.lt_succ_self i) hi he
  · rw [hpops, hlength, List.length_nil, Nat.zero_add, Nat.zero_add]
  · rw [hchart]
    exact hpushes.trans (Nat.mul_le_mul_left _ hseed.raised)

/-! ## The end -/

theorem popBound_lt_maxRounds (t : Task Float32) : t.popBound < maxRounds t := by
  rw [maxRounds_eq, Task.popBound, Nat.mul_assoc 2, Nat.mul_comm t.fan]
  exact Nat.lt_succ_self _

/-- Each edge taken leaves fewer to take. -/
theorem Funded.left_lt (h : Funded t [] st) (hstep : Step t st st') :
    t.popBound - st'.pops < t.popBound - st.pops := by
  obtain ⟨hnext, hpops⟩ := h.step hstep
  have hle := Nat.le_trans hnext.pops_le hnext.pushes_le
  omega

/-- No order of edges goes on for ever. -/
theorem Funded.not_forever (h : Funded t [] st) :
    ¬∃ f : Nat → State Float32, f 0 = st ∧ ∀ n, Step t (f n) (f (n + 1)) := by
  rintro ⟨f, hstart, hstep⟩
  have hfunded : ∀ n, Funded t [] (f n) := by
    intro n
    induction n with
    | zero => exact hstart.symm ▸ h
    | succ n ih => exact (ih.step (hstep n)).1
  obtain ⟨n, hn⟩ := WellFounded.not_rel_apply_succ (r := (· < ·))
    fun n => t.popBound - (f n).pops
  exact hn ((hfunded n).left_lt (hstep n))

/-- A search that takes one edge after the other comes to an empty queue. -/
theorem Funded.exists_empty (h : Funded t [] st) :
    ∃ final, Run t st final ∧ final.queue.edges = [] := by
  induction hleft : t.popBound - st.pops using Nat.strong_induction_on generalizing st with
  | _ left ih =>
    cases hqueue : st.queue.edges with
    | nil => exact ⟨st, .refl, hqueue⟩
    | cons e rest =>
      have hstep : Step t st (Agenda.process t { st with queue := ⟨rest⟩ } e) :=
        ⟨e, rest, by rw [hqueue], rfl⟩
      obtain ⟨final, hrun, hempty⟩ := ih _ (hleft ▸ h.left_lt hstep) (h.step hstep).1 rfl
      exact ⟨final, .head hstep hrun, hempty⟩

end Agenda

/-! ## The result -/

namespace Parser

open Agenda

/-- An agenda search comes to an end: whatever its log probabilities and its figure of merit, there is no
endless way of taking edges off the queue one after the other, and every way leads to an empty queue. By
then each edge that has been queued has been taken. A parser that goes on without a limit gets there. -/
theorem agenda_drains (g : Grammar Float32) (s : Sentence) :
    (∀ t : Agenda.Task Float32, t.grammar = g → t.size = s.size →
      (¬∃ f : Nat → State Float32, f 0 = initial t (seed g s).1 (seed g s).2 ∧
        ∀ n, Step t (f n) (f (n + 1))) ∧
      ∀ st, Run t (initial t (seed g s).1 (seed g s).2) st →
        st.pops ≤ st.pushes ∧ st.pushes ≤ t.popBound ∧
          (st.queue.edges = [] → st.pops = st.pushes) ∧
          ∃ final, Run t st final ∧ final.queue.edges = []) ∧
    ∀ p : Parser Float32, p.grammar = g → p.Unhurried →
      ∃ t rounds final, p.AgendaRun s t rounds final ∧ final.queue.edges = [] ∧
        (p.search s).stats.pops = (p.search s).stats.pushes := by
  refine ⟨fun t hg ht => ?_, fun p hp hunhurried => ?_⟩
  · have hstart := initial_funded (s := s) hg ht
    refine ⟨hstart.not_forever, fun st hrun => ?_⟩
    have hst := hstart.run hrun
    exact ⟨hst.pops_le, hst.pushes_le, hst.pops_eq, hst.exists_empty⟩
  · subst hp
    obtain ⟨t, rounds, final, hrun⟩ := exists_agendaRun hunhurried.strategy_eq s
    have hstart := initial_funded (s := s) hrun.grammar_eq hrun.size_eq
    have hlimit : t.popLimit = fun _ => none := by
      rw [hrun.popLimit_eq]
      exact funext hunhurried.popLimit_eq_none
    have hgoes := (unlimited_run hlimit (unlimited_initial t (seed p.grammar s).1
      (seed p.grammar s).2) rounds).1
    obtain ⟨hend, hprogress⟩ := hstart.rounds hrun.batch_pos rounds hgoes
    rw [← hrun.final_eq] at hend hprogress
    have hempty : final.queue.edges = [] := by
      refine hprogress.resolve_right fun hmany => ?_
      have hle := Nat.le_trans hend.pops_le hend.pushes_le
      have hbound := popBound_lt_maxRounds t
      have hrounds := hrun.rounds_le
      omega
    refine ⟨t, rounds, final, hrun, hempty, ?_⟩
    rw [hrun.pops_eq, hrun.pushes_eq]
    exact hend.pops_eq hempty

/-- `A → b`, `S → A` and `A → S`, all of them certain, in a search that ends with its queue. -/
def circling : Parser Float32 where
  grammar :=
    .ofProductions Chain.symbols Chain.code Chain.fits
      [⟨1, .lexical 0, 0⟩, ⟨0, .unary 1, 0⟩, ⟨1, .unary 0, 0⟩]
      (by
        have hsize : Chain.symbols.numNonterminals = 3 ∧ Chain.symbols.lexicon.size = 1 := by decide
        rw [hsize.1, hsize.2]
        simp [Production.InRange, Children.InRange])
      (by simp [Production.sameRule])
  options := { Options.standard with strategy := .agenda, overParse := .ofBits 0x7F800000 }
  merit := .inside

theorem circling_drains :
    (¬∃ f : Nat → State Float32,
      f 0 = initial (searchTask circling.grammar .inside (fun _ => none) 1 Chain.sentence)
        (seed circling.grammar Chain.sentence).1 (seed circling.grammar Chain.sentence).2 ∧
      ∀ n, Step (searchTask circling.grammar .inside (fun _ => none) 1 Chain.sentence)
        (f n) (f (n + 1))) ∧
    (circling.search Chain.sentence).stats.pops = (circling.search Chain.sentence).stats.pushes ∧
      (circling.search Chain.sentence).stats.pops = 1 := by
  have hbits : circling.options.overParse.toBits = 0x7F800000 := by decide +kernel
  have hunhurried : circling.Unhurried := ⟨rfl, by rw [hbits]; rfl⟩
  obtain ⟨horders, hparser⟩ := agenda_drains circling.grammar Chain.sentence
  obtain ⟨-, -, -, -, -, hpops⟩ := hparser circling rfl hunhurried
  let t := searchTask circling.grammar circling.merit circling.options.popLimit
    circling.options.agendaBatch Chain.sentence
  obtain ⟨-, hone⟩ := search_of_ended (p := circling) (s := Chain.sentence) rfl (t := t) rfl 1 rfl
    (by decide +kernel) (by decide +kernel)
  exact ⟨(horders _ rfl rfl).1, hpops, hone.trans (by decide +kernel)⟩

end Parser

end Constituency
