import Constituency.Proofs.Chart.Survival
import Constituency.Proofs.Decimal
import Constituency.Proofs.Search.Agenda.FirstParse

/-!
# The budget of an agenda search

A search whose words do not yet make a parse takes every edge that it queues if it never comes upon one.
Otherwise the edge that completes the first parse sets the number of edges to take (`Budgeted`), later ones
leave it as it is, and the search takes no edge beyond it. A parse that the words make by themselves sets
no number. What a search does edge by edge is the list of its states (`states`), and what such a stretch of
a search keeps is put together from single edges (`Stretch.trans`).
-/

namespace Constituency

namespace Agenda

variable {α : Type} [Score α] {t : Task α} {g : Grammar α} {s : Sentence}
  {st mid final : State α} {sts sts' : List (State α)} {e : Edge α} {batch : List (Edge α)}

/-! ## The states of a search -/

/-- The states of a search after each edge of a batch that it takes. -/
def batchStates (t : Task α) (st : State α) : List (Edge α) → List (State α)
  | [] => []
  | e :: rest => if st.done then [] else process t st e :: batchStates t (process t st e) rest

/-- The states of a search after each edge that it takes in a number of rounds. -/
def states (t : Task α) : Nat → State α → List (State α)
  | 0, _ => []
  | rounds + 1, st =>
    if st.done || st.queue.edges.isEmpty then []
    else
      let (batch, queue) := st.queue.take t.batch
      batchStates t { st with queue } batch ++
        states t rounds (processBatch t { st with queue } batch)

/-- The start symbol derives the whole sentence. -/
def Found (t : Task α) (st : State α) : Bool :=
  (Chart.slots st.chart).hasParse t.grammar.start

/-! ## One edge -/

instance (t : Task α) (e : Edge α) : Decidable (t.Completes e) :=
  inferInstanceAs (Decidable (_ ∧ _ ∧ _))

/-- The number of edges to take is set by the first edge that completes a parse. -/
theorem target_process (t : Task α) (st : State α) (e : Edge α) :
    (process t st e).target =
      if (st.chart.install e.start e.stop e.toEntry).1 = true ∧ t.Completes e ∧ st.target = none then
        t.popLimit (st.pops + 1)
      else st.target := by
  simp only [process, countPop]
  split
  · next h => simp [h]
  · next h =>
    simp only [expand, noteParse, h, Task.Completes]
    by_cases hall : (e.start = 0 ∧ e.stop = t.size ∧ e.nonterminal = t.grammar.start) ∧
        st.target = none
    · simp [hall]
    · rw [if_neg, if_neg]
      · simpa using hall
      · simpa [and_assoc] using hall

/-- A search is done when it has taken as many edges as it may. -/
theorem done_process (t : Task α) (st : State α) (e : Edge α) :
    (process t st e).done =
      (st.done || (process t st e).target.any fun limit => decide (limit ≤ st.pops + 1)) := by
  simp only [process, countPop]
  split
  · rfl
  · simp only [expand, noteParse]
    split
    · next hall =>
      simp only [Bool.and_eq_true, Option.isNone_iff_eq_none] at hall
      simp [hall.2]
    · rfl

/-- The number of edges to take was set when so many edges had been taken. -/
def Budgeted (t : Task α) (pops : Nat) (st : State α) : Prop :=
  ∀ limit, t.popLimit pops = some limit → st.target = some limit ∧ st.pops ≤ max pops limit ∧
    (st.done = false → st.pops < limit)

theorem Budgeted.process {pops : Nat} (h : Budgeted t pops st) (hdone : st.done = false)
    (e : Edge α) : Budgeted t pops (process t st e) := by
  intro limit hlimit
  obtain ⟨htarget, -, hlt⟩ := h limit hlimit
  have hkept : (Agenda.process t st e).target = some limit := by
    rw [target_process, if_neg (by simp [htarget]), htarget]
  have hpops := hlt hdone
  refine ⟨hkept, ?_, fun hgoes => ?_⟩
  · rw [pops_process]
    omega
  · rw [done_process, hkept, hdone] at hgoes
    simp only [Option.any_some, Bool.false_or, decide_eq_false_iff_not] at hgoes
    rw [pops_process]
    omega

/-- An edge that completes the first parse sets the number. -/
theorem budgeted_process (h : Unlimited st)
    (hinstalls : (st.chart.install e.start e.stop e.toEntry).1 = true) (hcompletes : t.Completes e) :
    Budgeted t (process t st e).pops (process t st e) := by
  intro limit hlimit
  rw [pops_process] at hlimit
  have htarget : (process t st e).target = some limit := by
    rw [target_process, if_pos ⟨hinstalls, hcompletes, h.2⟩, hlimit]
  refine ⟨htarget, Nat.le_max_left _ _, fun hgoes => ?_⟩
  rw [done_process, htarget, h.1] at hgoes
  simp only [Option.any_some, Bool.false_or, decide_eq_false_iff_not] at hgoes
  rw [pops_process]
  omega

section Monotone

variable [MonotoneScore α]

theorem found_iff (h : Held g s st.chart) (hg : t.grammar = g) :
    Found t st = true ↔ (Chart.slots st.chart).Live 0 s.size g.start := by
  rw [Found, Chart.Sound.hasParse_iff (c := .slots st.chart) h.sound, hg,
    h.sustained.possible.lt_inside_iff h.sound]
  exact iff_of_eq (congrArg (fun n => (Chart.slots st.chart).Live 0 n g.start) h.size_eq)

/-- A parse is found where one was, or by an edge that completes one. -/
theorem found_process (hg : t.grammar = g) (ht : t.size = s.size) (hst : Supplied g s st)
    (he : Supplies g s st.chart e) :
    Found t (process t st e) = true ↔ Found t st = true ∨
      (st.chart.install e.start e.stop e.toEntry).1 = true ∧ t.Completes e := by
  obtain ⟨hij, hj, hnt⟩ := he.bounds hst.toHeld
  have hnext := (process_supplied hg hst he).1.toHeld
  rw [found_iff hnext hg, found_iff hst.toHeld hg, chart_process]
  obtain ⟨-, ⟨hnot, hget⟩ | ⟨hinstalls, -, hget⟩⟩ :=
    SlotChart.install_changes hst.sound hij (hst.size_eq ▸ hj) hnt
  · rw [hnot, Chart.Live, Chart.get?, hget]
    simp [Chart.Live, Chart.get?]
  · rw [hinstalls, Chart.Live, Chart.get?, hget]
    split
    · next hplace =>
      obtain ⟨hstart, hstop, hroot⟩ := hplace
      have hcompletes : t.Completes e :=
        ⟨hstart.symm, hstop.symm.trans ht.symm, hroot.symm.trans (congrArg Grammar.start hg).symm⟩
      exact iff_of_true rfl (.inr ⟨rfl, hcompletes⟩)
    · next hplace =>
      have hnot : ¬ t.Completes e := by
        rintro ⟨hstart, hstop, hroot⟩
        exact hplace
          ⟨hstart.symm, (hstop.trans ht).symm, (hroot.trans (congrArg Grammar.start hg)).symm⟩
      simp [hnot, Chart.Live, Chart.get?]

end Monotone

/-! ## Stretches -/

/-- What a stretch of a search keeps: each state counts one more edge, parses are not lost, a number that
has been set is kept to, and none is set before the first parse is found. -/
structure Stretch (t : Task α) (st : State α) (sts : List (State α)) (final : State α) : Prop where
  pops_eq : sts.map (·.pops) = List.range' (st.pops + 1) sts.length
  final_pops : final.pops = st.pops + sts.length
  found : Found t final = (Found t st || sts.any (Found t))
  budgeted : ∀ pops, Budgeted t pops st → Budgeted t pops final
  unlimited : Unlimited st → Found t final = false → Unlimited final
  first : Unlimited st → Found t st = false → ∀ first, sts.find? (Found t) = some first →
    Budgeted t first.pops final

namespace Stretch

theorem refl (t : Task α) (st : State α) : Stretch t st [] st where
  pops_eq := rfl
  final_pops := rfl
  found := (Bool.or_false _).symm
  budgeted _ := id
  unlimited h _ := h
  first _ _ _ hfirst := by cases hfirst

/-- One stretch after the other. -/
theorem trans (h : Stretch t st sts mid) (h' : Stretch t mid sts' final) :
    Stretch t st (sts ++ sts') final where
  pops_eq := by
    rw [List.map_append, h.pops_eq, h'.pops_eq, h.final_pops, List.length_append,
      ← List.range'_append_1]
    congr 2
    omega
  final_pops := by
    rw [h'.final_pops, h.final_pops, List.length_append, Nat.add_assoc]
  found := by rw [h'.found, h.found, List.any_append, Bool.or_assoc]
  budgeted pops hpops := h'.budgeted pops (h.budgeted pops hpops)
  unlimited hunl hnot := by
    have hmid : Found t mid = false := by
      rw [h'.found] at hnot
      exact (Bool.or_eq_false_iff.1 hnot).1
    exact h'.unlimited (h.unlimited hunl hmid) hnot
  first hunl hnot first hfirst := by
    rw [List.find?_append] at hfirst
    cases hsome : sts.find? (Found t) with
    | some early =>
      rw [hsome, Option.some_or] at hfirst
      obtain rfl := Option.some.inj hfirst
      exact h'.budgeted _ (h.first hunl hnot early hsome)
    | none =>
      rw [hsome, Option.none_or] at hfirst
      have hmid : Found t mid = false := by
        rw [h.found, hnot, Bool.false_or, List.any_eq_false]
        exact List.find?_eq_none.1 hsome
      exact h'.first (h.unlimited hunl hmid) hmid first hfirst

/-- What depends on the queue is left aside. -/
theorem of_queue {queue : Queue α} (h : Stretch t { st with queue } sts final) :
    Stretch t st sts final where
  pops_eq := h.pops_eq
  final_pops := h.final_pops
  found := h.found
  budgeted := h.budgeted
  unlimited := h.unlimited
  first := h.first

variable [MonotoneScore α]

/-- A stretch of one edge. -/
theorem single (hg : t.grammar = g) (ht : t.size = s.size) (hst : Supplied g s st)
    (he : Supplies g s st.chart e) (hdone : st.done = false) :
    Stretch t st [process t st e] (process t st e) where
  pops_eq := by simp [pops_process]
  final_pops := pops_process t st e
  found := by
    have hiff := found_process hg ht hst he
    rw [List.any_cons, List.any_nil, Bool.or_false, Bool.eq_iff_iff, Bool.or_eq_true]
    exact ⟨.inr, fun h => h.elim (hiff.2 ∘ .inl) id⟩
  budgeted pops hpops := hpops.process hdone e
  unlimited hunl hnot := by
    refine unlimited_process_of_not_completes hunl fun hinstalls hcompletes => ?_
    rw [(found_process hg ht hst he).2 (.inr ⟨hinstalls, hcompletes⟩)] at hnot
    cases hnot
  first hunl hnot first hfirst := by
    obtain ⟨rfl, hfound⟩ : process t st e = first ∧ Found t (process t st e) = true := by
      rw [List.find?_singleton] at hfirst
      split at hfirst
      · next hfound => exact ⟨Option.some.inj hfirst, hfound⟩
      · cases hfirst
    rcases (found_process hg ht hst he).1 hfound with hold | ⟨hinstalls, hcompletes⟩
    · rw [hold] at hnot
      cases hnot
    · exact budgeted_process hunl hinstalls hcompletes

theorem of_batch (hg : t.grammar = g) (ht : t.size = s.size) (hst : Supplied g s st)
    (hbatch : ∀ e ∈ batch, Supplies g s st.chart e) :
    Stretch t st (batchStates t st batch) (processBatch t st batch) := by
  induction batch generalizing st with
  | nil => exact .refl t st
  | cons e rest ih =>
    cases hdone : st.done with
    | true =>
      rw [batchStates, if_pos hdone, processBatch_of_done hdone]
      exact .refl t st
    | false =>
      have he := hbatch e List.mem_cons_self
      obtain ⟨hnext, hlater⟩ := process_supplied hg hst he
      have hfold : processBatch t st (e :: rest) = processBatch t (process t st e) rest := by
        simp [processBatch, hdone]
      rw [batchStates, if_neg (by simp [hdone]), hfold]
      exact (single hg ht hst he hdone).trans
        (ih hnext fun e' he' => hlater e' (hbatch e' (List.mem_cons_of_mem _ he')))

/-- The whole loop is such a stretch. -/
theorem run (hg : t.grammar = g) (ht : t.size = s.size) (rounds : Nat) (hst : Supplied g s st) :
    Stretch t st (states t rounds st) (run t rounds st) := by
  induction rounds generalizing st with
  | zero => exact .refl t st
  | succ rounds ih =>
    unfold Agenda.run states
    split
    · exact .refl t st
    · have hmid : Supplied g s { st with queue := (st.queue.take t.batch).2 } :=
        ⟨hst.toHeld, fun e he => hst.queued e (List.mem_of_mem_drop he)⟩
      have htaken : ∀ e ∈ (st.queue.take t.batch).1, Supplies g s st.chart e :=
        fun e he => hst.queued e (List.mem_of_mem_take he)
      exact (of_batch hg ht hmid htaken).of_queue.trans
        (ih (processBatch_supplied hg hmid htaken))

end Stretch

theorem pops_initial (t : Task α) (c : SlotChart α) (seeds : List (Nat × NonTerminal)) :
    (initial t c seeds).pops = 0 := by
  unfold initial
  refine foldl_prefix_induction (P := fun _ (st : State α) => st.pops = 0) seeds
    (fun _ _ _ _ _ h => ?_) rfl
  exact h

/-- A search that comes upon no parse goes on until its queue is empty. -/
theorem pops_eq_pushes [MonotoneScore α] (hg : t.grammar = g) (ht : t.size = s.size)
    (hbatch : 0 < t.batch) {rounds : Nat} (hrounds : maxRounds t ≤ rounds)
    (hfinal : final = run t rounds (initial t (seed g s).1 (seed g s).2))
    (hfits : final.chart.arena.next ≤ UInt32.size) (hnot : Found t final = false) :
    final.pops = final.pushes := by
  have hstretch := Stretch.run hg ht rounds (initial_supplied hg s)
  rw [← hfinal] at hstretch
  have hunl := hstretch.unlimited (unlimited_initial t (seed g s).1 (seed g s).2) hnot
  have hempty := (run_maxRounds_ends hg ht hbatch hrounds hfinal.symm hfits).resolve_left
    (by rw [hunl.1]; exact Bool.false_ne_true)
  obtain ⟨hcounted, -⟩ := run_counted hg ht hbatch rounds (initial_supplied hg s)
    (initial_counted hg ht) (by rw [← hfinal, hunl.1])
  rw [← hfinal] at hcounted
  have htaken := hcounted.taken
  rw [hempty] at htaken
  exact htaken

/-- A search without a parse at the start keeps to the number that its first parse sets. -/
theorem pops_le_of_find?_eq_some [MonotoneScore α] (hg : t.grammar = g) (ht : t.size = s.size)
    {rounds : Nat} (hfinal : final = run t rounds (initial t (seed g s).1 (seed g s).2))
    (hseed : (Chart.slots (seed g s).1).hasParse g.start = false) {first : State α}
    (hfirst : (states t rounds (initial t (seed g s).1 (seed g s).2)).find? (Found t) = some first)
    {limit : Nat} (hlimit : t.popLimit first.pops = some limit) :
    final.pops ≤ max first.pops limit := by
  have hstretch := Stretch.run hg ht rounds (initial_supplied hg s)
  rw [← hfinal] at hstretch
  have hnot : Found t (initial t (seed g s).1 (seed g s).2) = false := by
    rw [Found, hg, (initial_spec t (seed g s).1 (seed g s).2).1, hseed]
  have hunl := unlimited_initial t (seed g s).1 (seed g s).2
  exact (hstretch.first hunl hnot first hfirst limit hlimit).2.1

end Agenda

/-! ## Parsers -/

namespace Parser

variable {α : Type} [Score α]

/-- The states of the agenda search of a sentence after each edge that it takes. -/
def agendaStates (p : Parser α) (s : Sentence) : List (Agenda.State α) :=
  let t := Agenda.searchTask p.grammar p.merit p.options.popLimit p.options.agendaBatch s
  Agenda.states t (Agenda.maxRounds t)
    (Agenda.initial t (Agenda.seed p.grammar s).1 (Agenda.seed p.grammar s).2)

/-- The run of an agenda search, with names for what it consists of. -/
structure AgendaRun (p : Parser α) (s : Sentence) (t : Agenda.Task α) (rounds : Nat)
    (final : Agenda.State α) : Prop where
  grammar_eq : t.grammar = p.grammar
  size_eq : t.size = s.size
  popLimit_eq : t.popLimit = p.options.popLimit
  batch_pos : 0 < t.batch
  rounds_le : Agenda.maxRounds t ≤ rounds
  final_eq : final = Agenda.run t rounds
    (Agenda.initial t (Agenda.seed p.grammar s).1 (Agenda.seed p.grammar s).2)
  states_eq : p.agendaStates s = Agenda.states t rounds
    (Agenda.initial t (Agenda.seed p.grammar s).1 (Agenda.seed p.grammar s).2)
  chart_eq : (p.search s).chart = .slots final.chart
  pops_eq : (p.search s).stats.pops = final.pops
  pushes_eq : (p.search s).stats.pushes = final.pushes

theorem exists_agendaRun {p : Parser α} (hstrategy : p.options.strategy = .agenda) (s : Sentence) :
    ∃ t rounds final, AgendaRun p s t rounds final := by
  obtain ⟨t, ht⟩ : ∃ t, t = Agenda.searchTask p.grammar p.merit p.options.popLimit
    p.options.agendaBatch s := ⟨_, rfl⟩
  obtain ⟨final, hfinal⟩ : ∃ final, final = Agenda.run t (Agenda.maxRounds t)
    (Agenda.initial t (Agenda.seed p.grammar s).1 (Agenda.seed p.grammar s).2) := ⟨_, rfl⟩
  have hsearch := hfinal
  rw [ht] at hsearch
  obtain ⟨hchart, hpops, hpushes⟩ := Agenda.search_of_run hsearch
  refine ⟨t, Agenda.maxRounds t, final, ?_, ?_, ?_, ?_, Nat.le_refl _, hfinal, ?_, ?_, ?_, ?_⟩
  · rw [ht]
    rfl
  · rw [ht]
    rfl
  · rw [ht]
    rfl
  · rw [ht]
    exact Nat.lt_of_lt_of_le Nat.one_pos (Nat.le_max_right _ 1)
  · rw [ht]
    rfl
  · rw [search_agenda hstrategy, ← hchart]
  · rw [search_agenda hstrategy, ← hpops]
  · rw [search_agenda hstrategy, ← hpushes]

/-- An agenda search counts the edges that it takes one by one. It takes every edge that it queues if it
never comes upon a parse. If the words by themselves make no parse and the first one is there after `k`
edges, it takes `k` edges or the multiple of `k` by the factor of the options, whichever is more; below
`2 ^ 29` the multiple is exact. The arena must have had numbers left for all entries and the counter
must have held the number of edges. -/
theorem search_within_budget [MonotoneScore α] (p : Parser α) (s : Sentence)
    (hstrategy : p.options.strategy = .agenda) (hfits : (p.search s).chart.Fits)
    (hcounter : (p.search s).stats.pops < UInt64.size) :
    (p.agendaStates s).map (·.pops) = List.range' 1 (p.search s).stats.pops ∧
      ((p.search s).chart.hasParse p.grammar.start = false →
        (p.search s).stats.pops = (p.search s).stats.pushes) ∧
      ((Chart.slots (Agenda.seed p.grammar s).1).hasParse p.grammar.start = false →
        (p.search s).chart.hasParse p.grammar.start = true →
        ∃ first, (p.agendaStates s).find?
            (fun st => (Chart.slots st.chart).hasParse p.grammar.start) = some first ∧
          ∀ x, Decimal.Value.ofPattern p.options.overParse.toBits = .finite x →
            (p.search s).stats.pops ≤ max first.pops (x.times first.pops).floor ∧
              (first.pops < 2 ^ 29 → (x.times first.pops).floor =
                if x.negative then 0 else first.pops * x.num / x.den)) := by
  obtain ⟨t, rounds, final, hrun⟩ := exists_agendaRun hstrategy s
  rw [hrun.chart_eq] at hfits
  rw [hrun.pops_eq] at hcounter
  rw [hrun.chart_eq, hrun.pops_eq, hrun.pushes_eq, hrun.states_eq]
  have hfound : Agenda.Found t = fun st => (Chart.slots st.chart).hasParse p.grammar.start := by
    funext st
    rw [Agenda.Found, hrun.grammar_eq]
  have hstretch := Agenda.Stretch.run hrun.grammar_eq hrun.size_eq rounds
    (Agenda.initial_supplied hrun.grammar_eq s)
  rw [← hrun.final_eq] at hstretch
  refine ⟨?_, fun hnot => ?_, fun hseed hparse => ?_⟩
  · rw [hstretch.pops_eq, hstretch.final_pops, Agenda.pops_initial, Nat.zero_add, Nat.zero_add]
  · exact Agenda.pops_eq_pushes hrun.grammar_eq hrun.size_eq hrun.batch_pos hrun.rounds_le
      hrun.final_eq hfits ((congrFun hfound final).trans hnot)
  · have hsome := hstretch.found
    rw [congrFun hfound final, hparse, congrFun hfound, (Agenda.initial_spec t _ _).1, hseed,
      Bool.false_or, eq_comm, List.any_eq_true, ← List.find?_isSome,
      Option.isSome_iff_exists] at hsome
    obtain ⟨first, hfirst⟩ := hsome
    refine ⟨first, hfound ▸ hfirst, fun x hx => ⟨?_, ?_⟩⟩
    · rcases Nat.lt_or_ge (x.times first.pops).floor (UInt64.size - 1) with hlt | hge
      · refine Agenda.pops_le_of_find?_eq_some hrun.grammar_eq hrun.size_eq hrun.final_eq hseed
          hfirst ?_
        rw [hrun.popLimit_eq, Options.popLimit_eq hx, if_pos hlt]
      · omega
    · exact Decimal.BinaryFraction.floor_times (Decimal.mantissa_lt_of_ofPattern hx)

/-! ## Two runs -/

open Chain (pair)

/-- The rivals again, in a search that takes twice as many edges as its first parse needs. -/
def patientRivals : Parser (WithBot ℤ) :=
  { rivals with options := { rivals.options with overParse := .ofBits 0x40000000 } }

/-- The search ends long before its last round. -/
theorem search_patientRivals :
    (patientRivals.search pair).chart = .slots (patientRivals.afterRounds 10).chart ∧
      (patientRivals.search pair).stats.pops = 10 := by
  let t := Agenda.searchTask patientRivals.grammar patientRivals.merit
    patientRivals.options.popLimit patientRivals.options.agendaBatch pair
  obtain ⟨hchart, hpops⟩ := search_of_ended (p := patientRivals) (s := pair) rfl (t := t) rfl 10 rfl
    (by decide +kernel) (by decide +kernel)
  exact ⟨hchart, hpops.trans (by decide +kernel)⟩

theorem patientRivals_within_budget :
    (patientRivals.agendaStates pair).map (·.pops) = List.range' 1 10 ∧
      ∃ first, (patientRivals.agendaStates pair).find?
          (fun st => (Chart.slots st.chart).hasParse 0) = some first ∧
        10 ≤ max first.pops (2 * first.pops) := by
  obtain ⟨hchart, hpops⟩ := search_patientRivals
  have hfits : (patientRivals.search pair).chart.Fits := by
    rw [hchart]
    decide +kernel
  have hbits : Decimal.Value.ofPattern patientRivals.options.overParse.toBits =
      .finite ⟨false, 0x800000, -22⟩ := by
    have hpattern : patientRivals.options.overParse.toBits = 0x40000000 := by decide +kernel
    rw [hpattern]
    rfl
  obtain ⟨hcounts, -, hfirst⟩ := search_within_budget patientRivals pair rfl hfits
    (by rw [hpops]; decide)
  obtain ⟨first, hsome, hbound⟩ := hfirst (by decide +kernel) (by rw [hchart]; decide +kernel)
  rw [hpops] at hcounts
  have hmem : first.pops ∈ List.range' 1 10 :=
    hcounts ▸ List.mem_map_of_mem (List.mem_of_find?_eq_some hsome)
  rw [List.mem_range'_1] at hmem
  obtain ⟨hle, hexact⟩ := hbound _ hbits
  have hfactor : (⟨false, 0x800000, -22⟩ : Decimal.BinaryFraction).num = 0x800000 ∧
      (⟨false, 0x800000, -22⟩ : Decimal.BinaryFraction).den = 0x400000 := by decide +kernel
  rw [hpops, hexact (by omega), hfactor.1, hfactor.2] at hle
  simp only [Bool.false_eq_true, if_false] at hle
  exact ⟨hcounts, first, hsome, by omega⟩

/-- The word makes a parse by itself, and an edge can be built on it. -/
def oneWord : Parser (WithBot ℤ) where
  grammar :=
    .ofProductions Chain.symbols Chain.code Chain.fits [⟨0, .lexical 0, 0⟩, ⟨1, .unary 0, 0⟩]
      (by
        have hsize : Chain.symbols.numNonterminals = 3 ∧ Chain.symbols.lexicon.size = 1 := by decide
        rw [hsize.1, hsize.2]
        simp [Production.InRange, Children.InRange])
      (by simp [Production.sameRule])
  options := rivals.options
  merit := .inside

/-- A parse that the words make by themselves sets no number: no edge was needed for it, and yet one is
taken. -/
theorem oneWord_over_budget :
    (Chart.slots (Agenda.seed oneWord.grammar Chain.sentence).1).hasParse oneWord.grammar.start =
        true ∧
      ∃ x, Decimal.Value.ofPattern oneWord.options.overParse.toBits = .finite x ∧
        ¬ (oneWord.search Chain.sentence).stats.pops ≤ max 0 (x.times 0).floor := by
  refine ⟨by decide +kernel, ⟨false, 0x800000, -23⟩, ?_, ?_⟩
  · have hpattern : oneWord.options.overParse.toBits = 0x3F800000 := by decide +kernel
    rw [hpattern]
    rfl
  · let t := Agenda.searchTask oneWord.grammar oneWord.merit oneWord.options.popLimit
      oneWord.options.agendaBatch Chain.sentence
    have hpops := (search_of_ended (p := oneWord) (s := Chain.sentence) rfl (t := t) rfl 1
      rfl (by decide +kernel) (by decide +kernel)).2
    rw [hpops]
    decide +kernel

end Parser

end Constituency
