import Mathlib
import Constituency.Proofs.Search.Agreement

/-!
# The first complete parse is the best one

An agenda search by score that takes one edge at a time comes upon scores from the best down: a
derivation that scores more than all edges in the queue has its score in the chart already
(`Inv.score_le`). So the edge that completes the first parse has the best score of the whole sentence
(`Inv.isMaximum_of_completes`), and it makes no difference to that score how many edges the search goes
on to take.
-/

namespace Constituency

theorem DerivesIn.score_nonpos {α : Type} [Score α] [UnitalScore α] {g : Grammar α} {s : Sentence}
    {live : Nat → Nat → NonTerminal → Prop} {i j : Nat} {A : NonTerminal} {d : Derivation α}
    (hnonpos : ∀ p ∈ g.productions, p.logProb ≤ 0) (h : DerivesIn g s live i j A d) :
    d.score ≤ 0 := by
  induction h with
  | word mem => exact hnonpos _ mem
  | unary mem _ _ _ ih => exact Score.le_trans (Score.add_le_of_nonpos (hnonpos _ mem) _) ih
  | binary mem _ _ _ _ ihl ihr =>
    exact Score.le_trans (Score.add_le_of_nonpos_right ihr _)
      (Score.le_trans (Score.add_le_of_nonpos (hnonpos _ mem) _) ihl)

namespace Agenda

variable {α : Type} [Score α] {t : Task α} {g : Grammar α} {s : Sentence} {c : SlotChart α}
  {edges : List (Edge α)} {stamp : Stamps} {now : Nat} {st st' : State α}

/-! ## What is left to find -/

section Bound

variable [UnitalScore α] {x : α} {i j : Nat} {A : NonTerminal} {d : Derivation α}

/-- What a rule makes of the chart is in the chart, or no better than the best edge that waits. -/
theorem Inv.result_le (h : Inv g s c edges stamp now) (hx : ∀ e ∈ edges, e.inside ≤ x)
    {b : Backpointer} {y : α} (happ : Application g s c.inside b i j A y) :
    y ≤ c.inside i j A ∨ y ≤ x := by
  rcases h.reached b i j A y happ with hle | ⟨e, he, -, -, -, hle⟩
  · exact .inl hle
  · exact .inr (Score.le_trans hle (hx e he))

/-- A derivation that is better than all edges that wait has its score in the chart. -/
theorem Inv.score_le (hnonpos : ∀ p ∈ g.productions, p.logProb ≤ 0)
    (h : Inv g s c edges stamp now) (hx : ∀ e ∈ edges, e.inside ≤ x) (hd : Derives g s i j A d) :
    d.score ≤ c.inside i j A ∨ d.score ≤ x := by
  induction hd with
  | word mem children terminal => exact h.result_le hx (.word mem children terminal)
  | @unary i j p B d mem children below _ ih =>
    rcases Score.lt_or_ge Score.impossible (p.logProb + d.score) with hpos | hle
    · rcases ih with hle | hle
      · have hB := Score.lt_of_lt_of_le (Score.impossible_lt_of_add hpos).2 hle
        have hmono := Score.add_le_add_left hle p.logProb
        exact (h.result_le hx (.unary mem children hB)).imp (Score.le_trans hmono)
          (Score.le_trans hmono)
      · exact .inr (Score.le_trans (Score.add_le_of_nonpos (hnonpos p mem) _) hle)
    · exact .inl (Score.le_trans hle (Score.impossible_le _))
  | @binary i m j p B C l r mem children left right _ ihl ihr =>
    rcases Score.lt_or_ge Score.impossible (p.logProb + l.score + r.score) with hpos | hle
    · -- neither child is worth less than both together
      have hpl := Score.add_le_of_nonpos (hnonpos p mem) l.score
      rcases ihl with hlel | hle
      · rcases ihr with hler | hle
        · obtain ⟨hposl, hposr⟩ := Score.impossible_lt_of_add hpos
          have hB := Score.lt_of_lt_of_le (Score.impossible_lt_of_add hposl).2 hlel
          have hC := Score.lt_of_lt_of_le hposr hler
          have hmono := MonotoneScore.add_le_add (Score.add_le_add_left hlel p.logProb) hler
          exact (h.result_le hx (.binary mem children hB hC)).imp (Score.le_trans hmono)
            (Score.le_trans hmono)
        · have hnonpos' := Score.le_trans hpl (left.score_nonpos hnonpos)
          exact .inr (Score.le_trans (Score.add_le_of_nonpos hnonpos' _) hle)
      · have hright := Score.add_le_of_nonpos_right (right.score_nonpos hnonpos)
        exact .inr (Score.le_trans (hright _) (Score.le_trans hpl hle))
    · exact .inl (Score.le_trans hle (Score.impossible_le _))

end Bound

/-! ## Best-first steps -/

/-- An edge of the highest merit, whichever of several, is taken off the queue and processed. -/
def BestStep (t : Task α) (st st' : State α) : Prop :=
  ∃ e rest, st.queue.edges.Perm (e :: rest) ∧ (∀ e' ∈ rest, e'.merit ≤ e.merit) ∧
    st' = process t { st with queue := ⟨rest⟩ } e

/-- Edges are taken off the queue from the best down. -/
abbrev BestRun (t : Task α) : State α → State α → Prop :=
  Relation.ReflTransGen (BestStep t)

theorem BestRun.run (h : BestRun t st st') : Run t st st' :=
  h.lift id fun _ _ ⟨e, rest, hperm, _, heq⟩ => ⟨e, rest, hperm, heq⟩

/-- The merit of an edge is its score. -/
def Task.ByScore (t : Task α) : Prop :=
  ∀ i j A x, t.merit.score i j A x = x

/-- The edge derives the whole sentence from the start symbol. -/
def Task.Completes (t : Task α) (e : Edge α) : Prop :=
  e.start = 0 ∧ e.stop = t.size ∧ e.nonterminal = t.grammar.start

/-- No derivation of the sentence is better than what the chart has. -/
def Optimal (g : Grammar α) (s : Sentence) (c : SlotChart α) : Prop :=
  ∀ d, Derives g s 0 s.size g.start d → d.score ≤ c.inside 0 s.size g.start

/-- Only an edge that completes a parse lets a search know when to end. -/
theorem unlimited_process_of_not_completes (h : Unlimited st) {e : Edge α}
    (hnot : (st.chart.install e.start e.stop e.toEntry).1 = true → ¬ t.Completes e) :
    Unlimited (process t st e) := by
  have hcount : Unlimited (countPop st) := by simp [countPop, Unlimited, h.1, h.2]
  have hnote : ∀ st : State α, Unlimited st → ¬ t.Completes e → Unlimited (noteParse t st e) := by
    intro st h hnot
    rw [noteParse, if_neg]
    · exact h
    · intro hall
      simp only [Bool.and_eq_true, beq_iff_eq] at hall
      exact hnot ⟨hall.1.1.1, hall.1.1.2, hall.1.2⟩
  unfold process
  dsimp only
  have hsame : (countPop st).chart = st.chart := rfl
  rw [hsame]
  cases hinstall : st.chart.install e.start e.stop e.toEntry with
  | mk became chart =>
    cases became with
    | false => exact hcount
    | true => exact hnote _ hcount (hnot (by rw [hinstall]))

/-- What is queued in a search by score has its score as its merit. -/
theorem merit_eq_of_mem_frontier (hscore : t.ByScore) {i j : Nat} {A : NonTerminal} {x : α}
    {e : Edge α} (he : e ∈ frontier t c i j A x) : e.merit = e.inside := by
  have hedge : ∀ i j (e : Entry α), (t.edge i j e).merit = (t.edge i j e).inside :=
    fun i j e => hscore i j e.nonterminal e.inside
  rcases List.mem_append.1 (List.mem_filter.1 he).1 with he | he
  · rcases List.mem_append.1 he with he | he
    · obtain ⟨p, -, rfl⟩ := List.mem_map.1 he
      exact hedge _ _ _
    · obtain ⟨p, -, he⟩ := List.mem_flatMap.1 he
      split at he
      · obtain ⟨k, -, hk⟩ := List.mem_filterMap.1 he
        obtain ⟨-, hk⟩ := Option.ite_none_right_eq_some.1 hk
        obtain rfl := Option.some.inj hk
        exact hedge _ _ _
      · cases he
  · obtain ⟨p, -, he⟩ := List.mem_flatMap.1 he
    split at he
    · obtain ⟨k, -, hk⟩ := List.mem_filterMap.1 he
      obtain ⟨-, hk⟩ := Option.ite_none_right_eq_some.1 hk
      obtain rfl := Option.some.inj hk
      exact hedge _ _ _
    · cases he

/-- An entry that is offered brings no score down. -/
theorem le_inside_install [MonotoneScore α] (h : c.Sound g) {i j : Nat} (hij : i < j)
    (hj : j ≤ c.size) {e : Entry α} (hnt : e.nonterminal < g.numNonterminals) (k l : Nat)
    (B : NonTerminal) : c.inside k l B ≤ (c.install i j e).2.inside k l B := by
  obtain ⟨hsound, ⟨-, hget⟩ | ⟨hdone, -, hget⟩⟩ := SlotChart.install_changes h hij hj hnt
  · rw [h.inside_eq, hsound.inside_eq, hget]
    exact Score.le_refl _
  · rw [hsound.inside_eq, hget]
    split
    · next hplace =>
      obtain ⟨rfl, rfl, rfl⟩ := hplace
      exact (SlotChart.le_of_install h hdone).2
    · rw [← h.inside_eq]
      exact Score.le_refl _

section Steps

variable [UnitalScore α] {e : Edge α} {rest : List (Edge α)}

/-- The best edge that waits, if it completes a parse and enters the chart, completes the best one. -/
theorem Inv.isMaximum_of_completes (hnonpos : ∀ p ∈ g.productions, p.logProb ≤ 0)
    (hg : t.grammar = g) (ht : t.size = s.size) (h : Inv g s c edges stamp now)
    (he : e ∈ edges) (hbest : ∀ e' ∈ edges, e'.inside ≤ e.inside) (hcompletes : t.Completes e)
    (hdone : (c.install e.start e.stop e.toEntry).1 = true) :
    IsMaximum (Derives g s 0 s.size g.start) e.inside := by
  obtain ⟨hstart, hstop, hnt⟩ := hcompletes
  rw [ht] at hstop
  rw [hg] at hnt
  obtain ⟨d, hd, hscore⟩ := (h.queued e he).derived
  obtain ⟨hpos, hle⟩ := SlotChart.le_of_install h.sound hdone
  rw [hstart, hstop, hnt] at hle hd
  refine ⟨fun d' hd' => ?_, .inr ⟨d, hd, hscore⟩, fun heq => ?_, fun hnone => ?_⟩
  · exact (h.score_le hnonpos hbest hd').elim (Score.le_trans · hle) id
  · rw [heq] at hpos
    exact absurd hpos Score.not_impossible_lt_impossible
  · exact absurd ⟨d, hd, hscore ▸ hpos⟩ hnone

/-- What holds of a search by score: once it knows when to end, it has the best parse. -/
structure Settling (g : Grammar α) (s : Sentence) (st : State α) : Prop where
  merit_eq : ∀ e ∈ st.queue.edges, e.merit = e.inside
  optimal : ¬ Unlimited st → Optimal g s st.chart

/-- A step from the best edge keeps a search on its way to the best parse. -/
theorem BestStep.settling (hnonpos : ∀ p ∈ g.productions, p.logProb ≤ 0) (hg : t.grammar = g)
    (ht : t.size = s.size) (hscore : t.ByScore) (hstep : BestStep t st st')
    (hinv : Inv g s st.chart st.queue.edges stamp now) (h : Settling g s st) :
    Settling g s st' := by
  obtain ⟨e, rest, hperm, hbest, rfl⟩ := hstep
  have hmem : ∀ e', e' ∈ st.queue.edges ↔ e' ∈ e :: rest := fun _ => hperm.mem_iff
  have he : e ∈ st.queue.edges := (hmem e).2 List.mem_cons_self
  obtain ⟨hij, hj, hnt⟩ := hinv.bounds he
  have hj' : e.stop ≤ st.chart.size := hinv.size_eq ▸ hj
  have hgrows := le_inside_install hinv.sound hij hj' hnt
  refine ⟨fun e' he' => ?_, fun hends d hd => ?_⟩
  · rw [queue_process] at he'
    have hold : ∀ e' ∈ rest, e'.merit = e'.inside :=
      fun e' he' => h.merit_eq e' ((hmem e').2 (List.mem_cons_of_mem e he'))
    split at he'
    · rcases mem_insertAll.1 he' with he' | he'
      · exact merit_eq_of_mem_frontier hscore he'
      · exact hold e' he'
    · exact hold e' he'
  rw [chart_process]
  by_cases hunl : Unlimited st
  · -- the search has come to know its end by this step
    have hcomplete : (st.chart.install e.start e.stop e.toEntry).1 = true ∧ t.Completes e := by
      by_contra hnot
      have hunl' : Unlimited { st with queue := ⟨rest⟩ } := hunl
      exact hends (unlimited_process_of_not_completes hunl'
        fun hdone hcompletes => hnot ⟨hdone, hcompletes⟩)
    obtain ⟨hdone, hcompletes⟩ := hcomplete
    have hle : ∀ e' ∈ st.queue.edges, e'.inside ≤ e.inside := by
      intro e' he'
      rw [← h.merit_eq e' he', ← h.merit_eq e he]
      rcases List.mem_cons.1 ((hmem e').1 he') with rfl | he'
      · exact Score.le_refl _
      · exact hbest e' he'
    have hmax := hinv.isMaximum_of_completes hnonpos hg ht he hle hcompletes hdone
    obtain ⟨hsound, ⟨hnot, -⟩ | ⟨-, -, hget⟩⟩ :=
      SlotChart.install_changes hinv.sound hij hj' hnt
    · rw [hdone] at hnot
      cases hnot
    · have hnew := hsound.inside_of_get? ((hget _ _ _).trans (if_pos ⟨rfl, rfl, rfl⟩))
      rw [hcompletes.1, hcompletes.2.1, hcompletes.2.2, ht, hg] at hnew
      rw [hcompletes.1, hcompletes.2.1, ht, hnew]
      exact hmax.score_le d hd
  · exact Score.le_trans (h.optimal hunl d hd) (hgrows _ _ _)

/-- A whole run of such steps. -/
theorem BestRun.settling (hnonpos : ∀ p ∈ g.productions, p.logProb ≤ 0) (hg : t.grammar = g)
    (ht : t.size = s.size) (hscore : t.ByScore)
    (hrun : BestRun t (initial t (seed g s).1 (seed g s).2) st)
    (hfits : st.chart.edgesAllocated ≤ UInt32.size) : Settling g s st := by
  induction hrun with
  | refl =>
    refine ⟨fun e he => ?_, fun hends => ?_⟩
    · obtain ⟨i, A, -, he⟩ := ((initial_spec t (seed g s).1 (seed g s).2).2 e).1 he
      exact merit_eq_of_mem_frontier hscore he
    · exact absurd (unlimited_initial t (seed g s).1 (seed g s).2) hends
  | @tail mid last hrun hstep ih =>
    have hfits' : mid.chart.edgesAllocated ≤ UInt32.size :=
      Nat.le_trans (next_le_next_of_run (BestRun.run (.single hstep))) hfits
    obtain ⟨stamp, now, hinv⟩ := inv_of_run hnonpos hg ht (BestRun.run hrun) hfits'
    exact hstep.settling hnonpos hg ht hscore hinv (ih hfits')

end Steps

/-! ## The loop -/

section Loop

variable [MonotoneScore α]

/-- A search that takes one edge at a time off its queue takes the best one each time. -/
theorem bestRun_run (hbatch : t.batch = 1) (rounds : Nat)
    (hqueue : Queue.Descending st.queue.edges) : BestRun t st (run t rounds st) := by
  induction rounds generalizing st with
  | zero => exact .refl
  | succ rounds ih =>
    unfold run
    split
    · exact .refl
    · next hgoes =>
      simp only [Bool.or_eq_true, not_or, Bool.not_eq_true, List.isEmpty_eq_false_iff] at hgoes
      obtain ⟨hdone, hsome⟩ := hgoes
      obtain ⟨e, rest, hedges⟩ := List.exists_cons_of_ne_nil hsome
      rw [hedges, Queue.Descending, List.pairwise_cons] at hqueue
      have htake : st.queue.take t.batch = ([e], ⟨rest⟩) := by
        simp [Queue.take, hbatch, hedges]
      have hone : processBatch t { st with queue := ⟨rest⟩ } [e] =
          process t { st with queue := ⟨rest⟩ } e := by
        simp [processBatch, hdone]
      simp only [htake, hone]
      refine .head ⟨e, rest, .of_eq hedges, hqueue.1, rfl⟩ (ih ?_)
      rw [queue_process]
      split
      · exact Queue.descending_insertAll hqueue.2 _
      · exact hqueue.2

theorem descending_initial (t : Task α) (c : SlotChart α) (seeds : List (Nat × NonTerminal)) :
    Queue.Descending (initial t c seeds).queue.edges := by
  unfold initial
  exact foldl_prefix_induction (P := fun _ (st : State α) => Queue.Descending st.queue.edges) seeds
    (fun _ _ _ _ _ h => Queue.descending_insertAll h _) .nil

end Loop

section Search

variable [UnitalScore α]

/-- When the loop ends, whether its limit has been reached or its queue is empty, no parse is better
than the one in the chart. -/
theorem optimal_run (hnonpos : ∀ p ∈ g.productions, p.logProb ≤ 0) (hg : t.grammar = g)
    (ht : t.size = s.size) (hscore : t.ByScore) (hbatch : t.batch = 1) {rounds : Nat}
    (hrounds : maxRounds t ≤ rounds) {final : State α}
    (hfinal : run t rounds (initial t (seed g s).1 (seed g s).2) = final)
    (hfits : final.chart.arena.next ≤ UInt32.size) : Optimal g s final.chart := by
  have hends := run_maxRounds_ends hg ht (hbatch ▸ Nat.one_pos) hrounds hfinal hfits
  have hrun := bestRun_run hbatch rounds (descending_initial t (seed g s).1 (seed g s).2)
  rw [hfinal] at hrun
  rcases hends with hdone | hempty
  · refine (hrun.settling hnonpos hg ht hscore hfits).optimal fun hunl => ?_
    rw [hunl.1] at hdone
    cases hdone
  · obtain ⟨stamp, now, hinv⟩ := inv_of_run hnonpos hg ht hrun.run hfits
    rw [hempty] at hinv
    exact (hinv.isMaximum 0 s.size g.start).score_le

/-- The search by score, one edge at a time, has the best score of the whole sentence, however early it
ends. -/
theorem search_isMaximum_start (hnonpos : ∀ p ∈ g.productions, p.logProb ≤ 0)
    (popLimit : Nat → Option Nat)
    (hfits : (search g .inside popLimit 1 s).1.arena.next ≤ UInt32.size) :
    IsMaximum (Derives g s 0 s.size g.start)
      ((search g .inside popLimit 1 s).1.inside 0 s.size g.start) := by
  have hgrown := (search_grown (g := g) (s := s) hnonpos .inside popLimit 1).1
  refine Chart.isMaximum_of_score_le hgrown.sound hgrown.derived ?_
  have hrun : ∀ (t : Task α) (rounds : Nat), t.grammar = g → t.size = s.size → t.ByScore →
      t.batch = 1 → maxRounds t ≤ rounds →
      (run t rounds (initial t (seed g s).1 (seed g s).2)).chart.arena.next ≤ UInt32.size →
      Optimal g s (run t rounds (initial t (seed g s).1 (seed g s).2)).chart :=
    fun t rounds hg ht hscore hbatch hrounds hfits =>
      optimal_run hnonpos hg ht hscore hbatch hrounds rfl hfits
  change Optimal g s (search g .inside popLimit 1 s).1
  rw [chart_search] at hfits ⊢
  exact hrun (searchTask g .inside popLimit 1 s) _ rfl rfl (fun _ _ _ _ => rfl) rfl
    (Nat.le_refl _) hfits

end Search

end Agenda

/-! ## Parsers -/

namespace Parser

/-- An agenda search by score that takes one edge at a time, whatever its limit. -/
structure Stepwise {α : Type} (p : Parser α) : Prop where
  strategy_eq : p.options.strategy = .agenda
  merit_eq : p.merit = .inside
  batch_eq : p.options.agendaBatch = 1

section Optimal

variable {α : Type} [Score α] [UnitalScore α] {g : Grammar α} {s : Sentence} {p : Parser α}

theorem Stepwise.isMaximum (h : p.Stepwise) (hnonpos : ∀ r ∈ p.grammar.productions, r.logProb ≤ 0)
    (hfits : (p.search s).chart.Fits) :
    IsMaximum (Derives p.grammar s 0 s.size p.grammar.start)
      ((p.search s).chart.inside 0 s.size p.grammar.start) := by
  rw [chart_search_agenda h.strategy_eq, h.merit_eq, h.batch_eq] at hfits ⊢
  exact Agenda.search_isMaximum_start hnonpos p.options.popLimit hfits

/-- An agenda search by score that takes one edge at a time ends with the best score of the sentence,
however many edges it goes on to take after its first complete parse, and so with the score of a
search that goes on until its queue is empty. Whichever edge of the highest merit is taken each time,
the first one that completes a parse has the best score already. The arenas must have had numbers
left for all entries. -/
theorem first_parse_optimal (hnonpos : ∀ r ∈ g.productions, r.logProb ≤ 0) (s : Sentence) :
    (∀ p : Parser α, p.grammar = g → p.Stepwise → (p.search s).chart.Fits →
      IsMaximum (Derives g s 0 s.size g.start) ((p.search s).chart.inside 0 s.size g.start) ∧
        ∀ full : Parser α, full.grammar = g → full.Unhurried → (full.search s).chart.Fits →
          (p.search s).chart.inside 0 s.size g.start ≤
              (full.search s).chart.inside 0 s.size g.start ∧
            (full.search s).chart.inside 0 s.size g.start ≤
              (p.search s).chart.inside 0 s.size g.start) ∧
    ∀ (t : Agenda.Task α) (st : Agenda.State α) (e : Edge α) (rest : List (Edge α)),
      t.grammar = g → t.size = s.size → t.ByScore →
      Agenda.BestRun t (Agenda.initial t (Agenda.seed g s).1 (Agenda.seed g s).2) st →
      st.chart.edgesAllocated ≤ UInt32.size →
      st.queue.edges.Perm (e :: rest) → (∀ e' ∈ rest, e'.merit ≤ e.merit) →
      t.Completes e → (st.chart.install e.start e.stop e.toEntry).1 = true →
      IsMaximum (Derives g s 0 s.size g.start) e.inside := by
  refine ⟨fun p hp hstepwise hfits => ?_,
    fun t st e rest hg ht hscore hrun hfits hperm hbest hcompletes hdone => ?_⟩
  · subst hp
    have hmax := hstepwise.isMaximum hnonpos hfits
    refine ⟨hmax, fun full hfull hunhurried hfits' => ?_⟩
    have hmax' := hunhurried.isMaximum (hfull ▸ hnonpos) s hfits'
    have hgrown := (search_grown p hnonpos
      (fun h => by rw [hstepwise.strategy_eq] at h; cases h) s).1
    have hgrown' := (search_grown full (hfull ▸ hnonpos)
      (fun h => by rw [hunhurried.strategy_eq] at h; cases h) s).1
    rw [hfull] at hmax' hgrown'
    exact ⟨hgrown.inside_le_of_isMaximum (hmax' 0 s.size p.grammar.start),
      hgrown'.inside_le_of_isMaximum hmax⟩
  · obtain ⟨stamp, now, hinv⟩ := Agenda.inv_of_run hnonpos hg ht hrun.run hfits
    have hsettling := hrun.settling hnonpos hg ht hscore hfits
    have he : e ∈ st.queue.edges := hperm.mem_iff.2 List.mem_cons_self
    refine hinv.isMaximum_of_completes hnonpos hg ht he (fun e' he' => ?_) hcompletes hdone
    rw [← hsettling.merit_eq e' he', ← hsettling.merit_eq e he]
    rcases List.mem_cons.1 (hperm.mem_iff.1 he') with rfl | he'
    · exact Score.le_refl _
    · exact hbest e' he'

end Optimal

/-! ## Rivals -/

open Chain (pair)

/-- A grammar in which the score of `A` over a word is improved upon after edges have been built on it.
The search ends with its first complete parse: the bits are those of one. -/
def rivals : Parser (WithBot ℤ) where
  grammar :=
    .ofProductions Chain.symbols Chain.code Chain.fits
      [⟨0, .binary 1 1, (-1 : ℤ)⟩, ⟨0, .unary 2, 0⟩, ⟨1, .lexical 0, (-5 : ℤ)⟩,
        ⟨1, .unary 2, (-1 : ℤ)⟩, ⟨2, .lexical 0, 0⟩, ⟨2, .binary 2 2, (-4 : ℤ)⟩]
      (by
        have hsize : Chain.symbols.numNonterminals = 3 ∧ Chain.symbols.lexicon.size = 1 := by decide
        rw [hsize.1, hsize.2]
        simp [Production.InRange, Children.InRange])
      (by simp [Production.sameRule])
  options :=
    { Chain.options with strategy := .agenda, agendaBatch := 1, overParse := .ofBits 0x3F800000 }
  merit := .inside

/-- The same without a limit: the bits are those of infinity. -/
def rivalsToTheEnd : Parser (WithBot ℤ) :=
  { rivals with options := { rivals.options with overParse := .ofBits 0x7F800000 } }

/-- A search of the two words that has taken some edges. -/
def afterRounds (p : Parser (WithBot ℤ)) (rounds : Nat) : Agenda.State (WithBot ℤ) :=
  let t := Agenda.searchTask p.grammar p.merit p.options.popLimit p.options.agendaBatch pair
  Agenda.run t rounds (Agenda.initial t (Agenda.seed p.grammar pair).1 (Agenda.seed p.grammar pair).2)

/-- The searches end long before their last round. -/
theorem chart_search_pair {p : Parser (WithBot ℤ)} (hstrategy : p.options.strategy = .agenda)
    {rounds : Nat} (hrounds : rounds ≤ Agenda.maxRounds (Agenda.searchTask p.grammar p.merit
      p.options.popLimit p.options.agendaBatch pair))
    (hend : ((p.afterRounds rounds).done || (p.afterRounds rounds).queue.edges.isEmpty) = true) :
    (p.search pair).chart = .slots (p.afterRounds rounds).chart :=
  (search_of_ended hstrategy rfl rounds rfl hrounds hend).1

theorem rivals_first_parse_optimal :
    (rivals.search pair).chart.inside 0 2 0 = (-3 : ℤ) ∧
      (rivals.search pair).chart.inside 0 2 0 ≤ (rivalsToTheEnd.search pair).chart.inside 0 2 0 ∧
      ∃ e rest, (rivals.afterRounds 4).queue.edges = e :: rest ∧ e.inside = (-3 : ℤ) ∧
        IsMaximum (Derives rivals.grammar pair 0 2 0) e.inside := by
  have hnonpos : ∀ r ∈ rivals.grammar.productions, r.logProb ≤ 0 := by decide +kernel
  have hbits : rivalsToTheEnd.options.overParse.toBits = 0x7F800000 := by decide +kernel
  have hunhurried : rivalsToTheEnd.Unhurried := ⟨rfl, by rw [hbits]; rfl⟩
  have hchart : (rivals.search pair).chart = .slots (rivals.afterRounds 5).chart :=
    chart_search_pair rfl (by decide +kernel) (by decide +kernel)
  have hchart' : (rivalsToTheEnd.search pair).chart =
      .slots (rivalsToTheEnd.afterRounds 11).chart :=
    chart_search_pair rfl (by decide +kernel) (by decide +kernel)
  have hfits : (rivals.search pair).chart.Fits := by
    rw [hchart]
    decide +kernel
  have hfits' : (rivalsToTheEnd.search pair).chart.Fits := by
    rw [hchart']
    decide +kernel
  obtain ⟨hsearch, hstep⟩ := first_parse_optimal hnonpos pair
  refine ⟨?_, ((hsearch rivals rfl ⟨rfl, rfl, rfl⟩ hfits).2 rivalsToTheEnd rfl hunhurried hfits').1,
    ?_⟩
  · rw [hchart]
    decide +kernel
  -- the fifth edge completes the first parse
  have hsome : (rivals.afterRounds 4).queue.edges.isEmpty = false := by decide +kernel
  obtain ⟨e, rest, hedges⟩ := List.exists_cons_of_ne_nil (List.isEmpty_eq_false_iff.1 hsome)
  have hhead : (rivals.afterRounds 4).queue.edges.head?.all (fun e =>
      e.start == 0 && e.stop == 2 && e.nonterminal == 0 && e.inside == ((-3 : ℤ) : WithBot ℤ) &&
        ((rivals.afterRounds 4).chart.install e.start e.stop e.toEntry).1) = true := by
    decide +kernel
  rw [hedges] at hhead
  simp only [List.head?_cons, Option.all_some, Bool.and_eq_true, beq_iff_eq] at hhead
  obtain ⟨⟨⟨⟨hstart, hstop⟩, hnt⟩, hinside⟩, hdone⟩ := hhead
  let t := Agenda.searchTask rivals.grammar rivals.merit rivals.options.popLimit
    rivals.options.agendaBatch pair
  have hrun : Agenda.BestRun t (Agenda.initial t (Agenda.seed rivals.grammar pair).1
      (Agenda.seed rivals.grammar pair).2) (rivals.afterRounds 4) :=
    Agenda.bestRun_run rfl 4 (Agenda.descending_initial t _ _)
  have hdesc : Queue.Descending (rivals.afterRounds 4).queue.edges := by decide +kernel
  rw [hedges, Queue.Descending, List.pairwise_cons] at hdesc
  exact ⟨e, rest, hedges, hinside, hstep _ (rivals.afterRounds 4) e rest rfl rfl (fun _ _ _ _ => rfl)
    hrun (by decide +kernel) (.of_eq hedges) hdesc.1 ⟨hstart, hstop, hnt⟩ hdone⟩

end Parser

end Constituency
