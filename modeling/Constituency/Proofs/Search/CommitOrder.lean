import Mathlib
import Constituency.Proofs.Grammar.Chain
import Constituency.Proofs.Search.BestFirst

/-!
# The order of commits

A beam search takes the edges of a cell from the best one down, and each edge that it commits puts its
unary parents into the queue. Ranked by score, the symbols come out in the order of the best scores that
unary chains of any length lead to from the candidates and entries of the cell (`Reaches`): since no rule
is a gain, nothing that is still to come is better than the edge that is taken, so that its score is the
best one of its symbol (`Waiting.isGreatest`). Main statement: each cell of a search holds, up to ties, the
best symbols among those that improve upon the chart and do not fall too far below the best candidate
(`search_takes_best`).
-/

namespace Constituency

variable {α : Type} [Score α]

/-! ## Scores by unary chains -/

/-- The scores of a symbol by unary rules, any number of them on top of each other, above some entries. -/
inductive Reaches (rules : List (Production α)) (sources : List (Entry α)) : NonTerminal → α → Prop
  | source {e : Entry α} : e ∈ sources → Reaches rules sources e.nonterminal e.inside
  | unary {p : Production α} {B : NonTerminal} {x : α} : p ∈ rules → p.children = .unary B →
      Reaches rules sources B x → Reaches rules sources p.parent (p.logProb + x)

/-- The score is the best one of a symbol, and impossible if there is none. -/
def BestReach (rules : List (Production α)) (sources : List (Entry α)) (A : NonTerminal) (u : α) :
    Prop :=
  IsGreatest {x | x = Score.impossible ∨ Reaches rules sources A x} u

/-- The scores of a symbol by way of an entry, or of one unary rule above best scores. -/
def steps (rules : List (Production α)) (sources : List (Entry α)) (A : NonTerminal)
    (U : NonTerminal → α) : List α :=
  (sources.filter (·.nonterminal == A)).map (·.inside) ++ rules.filterMap fun p =>
    match p.children with
    | .unary B => if p.parent = A then some (p.logProb + U B) else none
    | _ => none

namespace Reaches

variable {rules rules' : List (Production α)} {sources sources' : List (Entry α)}
  {A : NonTerminal} {x : α}

theorem mono (hrules : ∀ p ∈ rules, p ∈ rules') (hsources : ∀ e ∈ sources, e ∈ sources')
    (h : Reaches rules sources A x) : Reaches rules' sources' A x := by
  induction h with
  | source he => exact .source (hsources _ he)
  | unary hp hB _ ih => exact .unary (hrules _ hp) hB ih

variable [MonotoneScore α]

/-- A chain gains nothing by coming back to a symbol: either its score is at most a bound on the best way
to the symbol, or the chain keeps away from the symbol. -/
theorem le_or_avoids (hnonpos : ∀ p ∈ rules, p.logProb ≤ 0) {u : α} {U : NonTerminal → α}
    (hU : ∀ B y, Reaches (rules.filter (·.parent != A)) (sources.filter (·.nonterminal != A)) B y →
      y ≤ U B)
    (hsource : ∀ e ∈ sources, e.nonterminal = A → e.inside ≤ u)
    (hunary : ∀ p ∈ rules, ∀ B, p.parent = A → p.children = .unary B → p.logProb + U B ≤ u)
    {C : NonTerminal} {y : α} (h : Reaches rules sources C y) :
    y ≤ u ∨ C ≠ A ∧ ∃ z, y ≤ z ∧
      Reaches (rules.filter (·.parent != A)) (sources.filter (·.nonterminal != A)) C z := by
  induction h with
  | @source e he =>
    by_cases hA : e.nonterminal = A
    · exact .inl (hsource e he hA)
    · exact .inr ⟨hA, _, Score.le_refl _, .source (List.mem_filter.2 ⟨he, bne_iff_ne.2 hA⟩)⟩
  | @unary p B x hp hB _ ih =>
    rcases ih with hle | ⟨-, z, hle, hz⟩
    · exact .inl (Score.le_trans (Score.add_le_of_nonpos (hnonpos p hp) x) hle)
    · by_cases hA : p.parent = A
      · refine .inl (Score.le_trans (Score.add_le_add_left (Score.le_trans hle (hU B z hz)) _) ?_)
        exact hunary p hp B hA hB
      · exact .inr ⟨hA, _, Score.add_le_add_left hle _,
          .unary (List.mem_filter.2 ⟨hp, bne_iff_ne.2 hA⟩) hB hz⟩

omit [MonotoneScore α] in
theorem mem_steps {U : NonTerminal → α} :
    x ∈ steps rules sources A U ↔ (∃ e ∈ sources, e.nonterminal = A ∧ e.inside = x) ∨
      ∃ p ∈ rules, ∃ B, p.parent = A ∧ p.children = .unary B ∧ p.logProb + U B = x := by
  simp only [steps, List.mem_append, List.mem_map, List.mem_filter, beq_iff_eq, and_assoc,
    List.mem_filterMap]
  refine or_congr Iff.rfl (exists_congr fun p => and_congr_right fun _ => ?_)
  cases p.children <;> simp

/-- One of the entries of a symbol, or one of its rules above best scores, is the best way to the symbol,
unless all of them are impossible. -/
theorem exists_best_step (rules : List (Production α)) (sources : List (Entry α)) (A : NonTerminal)
    {U : NonTerminal → α}
    (hU : ∀ B, BestReach (rules.filter (·.parent != A)) (sources.filter (·.nonterminal != A)) B
      (U B)) :
    ∃ u, (u = Score.impossible ∨ Reaches rules sources A u) ∧
      (∀ e ∈ sources, e.nonterminal = A → e.inside ≤ u) ∧
      ∀ p ∈ rules, ∀ B, p.parent = A → p.children = .unary B → p.logProb + U B ≤ u := by
  obtain ⟨hbest, hle⟩ := Score.isGreatest_foldl_best Score.impossible (steps rules sources A U)
  generalize (steps rules sources A U).foldl Score.best Score.impossible = u at hbest hle
  have hsteps : ∀ x ∈ steps rules sources A U, x ≤ u := fun x hx => hle (List.mem_cons_of_mem _ hx)
  have hsource : ∀ e ∈ sources, e.nonterminal = A → e.inside ≤ u := fun e he hA =>
    hsteps _ (mem_steps.2 (.inl ⟨e, he, hA, rfl⟩))
  have hunary : ∀ p ∈ rules, ∀ B, p.parent = A → p.children = .unary B → p.logProb + U B ≤ u :=
    fun p hp B hA hB => hsteps _ (mem_steps.2 (.inr ⟨p, hp, B, hA, hB, rfl⟩))
  rcases Score.lt_or_ge Score.impossible u with hpos | himp
  · refine ⟨u, .inr ?_, hsource, hunary⟩
    rcases List.mem_cons.1 hbest with rfl | hin
    · exact absurd hpos Score.not_impossible_lt_impossible
    rcases mem_steps.1 hin with ⟨e, he, rfl, rfl⟩ | ⟨p, hp, B, rfl, hB, rfl⟩
    · exact .source he
    · have hbelow := (hU B).1.resolve_left fun himp => by
        rw [himp] at hpos
        exact Score.not_impossible_lt_impossible (Score.impossible_lt_of_add hpos).2
      exact .unary hp hB (hbelow.mono (fun p hp => (List.mem_filter.1 hp).1)
        fun e he => (List.mem_filter.1 he).1)
  · exact ⟨Score.impossible, .inl rfl, fun e he hA => Score.le_trans (hsource e he hA) himp,
      fun p hp B hA hB => Score.le_trans (hunary p hp B hA hB) himp⟩

/-- Each symbol has a best score. The chains to a symbol need not pass it before, so that the rules and
entries of the symbol may be left out below it. -/
theorem exists_bestReach (rules : List (Production α)) (sources : List (Entry α))
    (hnonpos : ∀ p ∈ rules, p.logProb ≤ 0) (A : NonTerminal) :
    ∃ u, BestReach rules sources A u := by
  induction hn : rules.length + sources.length using Nat.strongRecOn generalizing rules sources A with
  | _ n ih =>
    subst hn
    by_cases hnone : (∀ p ∈ rules, p.parent ≠ A) ∧ ∀ e ∈ sources, e.nonterminal ≠ A
    · refine ⟨Score.impossible, .inl rfl, ?_⟩
      rintro x (rfl | hx)
      · exact Score.le_refl _
      · exfalso
        cases hx with
        | source he => exact hnone.2 _ he rfl
        | unary hp => exact hnone.1 _ hp rfl
    · have hshorter : (rules.filter (·.parent != A)).length +
          (sources.filter (·.nonterminal != A)).length < rules.length + sources.length := by
        have hrules := List.length_filter_le (·.parent != A) rules
        have hsources := List.length_filter_le (·.nonterminal != A) sources
        by_contra hge
        refine hnone ⟨fun p hp => ?_, fun e he => ?_⟩
        · have hall := List.length_filter_eq_length_iff.1 (show (rules.filter (·.parent != A)).length =
            rules.length by omega)
          exact bne_iff_ne.1 (hall p hp)
        · have hall := List.length_filter_eq_length_iff.1
            (show (sources.filter (·.nonterminal != A)).length = sources.length by omega)
          exact bne_iff_ne.1 (hall e he)
      choose U hU using fun B => ih _ hshorter (rules.filter (·.parent != A))
        (sources.filter (·.nonterminal != A))
        (fun p hp => hnonpos p (List.mem_filter.1 hp).1) B rfl
      obtain ⟨u, hu, hsource, hunary⟩ := exists_best_step rules sources A hU
      refine ⟨u, hu, ?_⟩
      rintro x (rfl | hx)
      · exact Score.impossible_le u
      · exact (hx.le_or_avoids hnonpos (fun B y hy => (hU B).2 (.inr hy)) hsource
          hunary).resolve_right fun havoids => havoids.1 rfl

end Reaches

namespace Beam

variable {t : Task α} {g : Grammar α} {s : Sentence} {c : Chart α} {cell : Scratch α}
  {st : CellState α} {i j width segments : Nat} {e : Edge α} {dropped queue rest : List (Edge α)}
  {sources : List (Entry α)} {A : NonTerminal} {x top : α} {U : NonTerminal → α}

/-! ## What is committed -/

/-- The edges that are committed, in their order. -/
def commits (t : Task α) (chart : Chart α) : Nat → CellState α → List (Edge α)
  | 0, _ => []
  | width + 1, st =>
    match nextImprovement t chart st.cell st.bestMerit st.queue with
    | none => []
    | some (e, rest, bestMerit) => e :: commits t chart width (commitEdge t st e rest bestMerit)

/-- A cell gathers the edges that are committed, and no others. -/
theorem cell_commitBest (t : Task α) (c : Chart α) (width : Nat) (st : CellState α) :
    (commitBest t c width st).cell =
      (commits t c width st).foldl (fun cell e => cell.add .best e.toEntry) st.cell := by
  induction width generalizing st with
  | zero => rfl
  | succ width ih =>
    unfold commitBest commits
    cases nextImprovement t c st.cell st.bestMerit st.queue with
    | none => rfl
    | some next => exact ih _

/-- Edges were taken in the order of the best scores of their symbols: those that improve upon a chart and
do not fall below a threshold, as many as there is room for. -/
structure TakesBest (U present : NonTerminal → α) (threshold : α) (width : Nat)
    (taken : List (Edge α)) : Prop where
  once : (taken.map (·.nonterminal)).Nodup
  descending : taken.Pairwise fun d e => U e.nonterminal ≤ U d.nonterminal
  eligible : ∀ e ∈ taken, present e.nonterminal < U e.nonterminal ∧ ¬ U e.nonterminal < threshold
  length_le : taken.length ≤ width
  best : ∀ A, present A < U A → ¬ U A < threshold → (∃ e ∈ taken, e.nonterminal = A) ∨
    taken.length = width ∧ ∀ e ∈ taken, U A ≤ U e.nonterminal

variable [MonotoneScore α]

/-- To take the best edge first and then the best of what is left, is to take the best. -/
theorem TakesBest.cons {present present' : NonTerminal → α} {threshold : α} {taken : List (Edge α)}
    (h : TakesBest U present' threshold width taken)
    (hpresent : ∀ A, present' A = if A = e.nonterminal then e.inside else present A)
    (hlt : present e.nonterminal < e.inside) (hle : e.inside ≤ U e.nonterminal)
    (hge : U e.nonterminal ≤ e.inside) (hthreshold : ¬ U e.nonterminal < threshold)
    (hcap : ∀ A, present A < U A → U A ≤ U e.nonterminal) :
    TakesBest U present threshold (width + 1) (e :: taken) := by
  have hlater : ∀ d ∈ taken, d.nonterminal ≠ e.nonterminal ∧
      present d.nonterminal < U d.nonterminal := by
    intro d hd
    have hel := (h.eligible d hd).1
    rw [hpresent] at hel
    split at hel
    · next heq => exact absurd (heq ▸ hel) (Score.not_lt.2 hge)
    · next hne => exact ⟨hne, hel⟩
  refine
    { once := List.nodup_cons.2 ⟨fun hmem => ?_, h.once⟩
      descending := List.pairwise_cons.2 ⟨fun d hd => hcap _ (hlater d hd).2, h.descending⟩
      eligible := List.forall_mem_cons.2 ⟨⟨Score.lt_of_lt_of_le hlt hle, hthreshold⟩,
        fun d hd => ⟨(hlater d hd).2, (h.eligible d hd).2⟩⟩
      length_le := Nat.succ_le_succ h.length_le
      best := fun A hA hA' => ?_ }
  · obtain ⟨d, hd, heq⟩ := List.mem_map.1 hmem
    exact (hlater d hd).1 heq
  · by_cases hAe : A = e.nonterminal
    · exact .inl ⟨e, List.mem_cons_self, hAe.symm⟩
    · have hnext : present' A < U A := by rwa [hpresent, if_neg hAe]
      refine (h.best A hnext hA').imp ?_ ?_
      · exact fun ⟨d, hd, heq⟩ => ⟨d, List.mem_cons_of_mem _ hd, heq⟩
      · exact fun ⟨hfull, hall⟩ =>
          ⟨congrArg (· + 1) hfull, List.forall_mem_cons.2 ⟨hcap A hA, hall⟩⟩

/-! ## The threshold -/

theorem best_eq_left (h : x ≤ top) : Score.best top x = top := by
  rw [Score.best_eq_ite, if_neg (Score.not_lt.2 h)]

/-- While no edge is better than the best one so far, the threshold stays. -/
theorem threshold_of_some {best : α} (hle : ∀ e ∈ queue, e.merit ≤ top)
    (h : nextImprovement t c cell top queue = some (e, rest, best)) :
    best = top ∧ ¬ e.merit < top - t.delta := by
  induction queue with
  | nil => cases h
  | cons d queue ih =>
    unfold nextImprovement at h
    split at h
    · cases h
    · next hthreshold =>
      simp only [best_eq_left (hle d List.mem_cons_self)] at h
      split at h
      · exact ih (fun e he => hle e (List.mem_cons_of_mem _ he)) h
      · simp only [Option.some.injEq, Prod.mk.injEq] at h
        obtain ⟨rfl, -, rfl⟩ := h
        exact ⟨rfl, hthreshold⟩

/-- A cell is done when what is left of its queue starts below the threshold. -/
theorem threshold_of_none (hle : ∀ e ∈ queue, e.merit ≤ top)
    (h : nextImprovement t c cell top queue = none) :
    ∃ dropped rest, queue = dropped ++ rest ∧ (∀ d ∈ dropped, d.inside ≤ present c cell d) ∧
      ∀ e ∈ rest.head?, e.merit < top - t.delta := by
  induction queue with
  | nil => exact ⟨[], [], rfl, by simp, by simp⟩
  | cons d queue ih =>
    unfold nextImprovement at h
    split at h
    · next hthreshold =>
      exact ⟨[], d :: queue, rfl, by simp, by simpa using hthreshold⟩
    · simp only [best_eq_left (hle d List.mem_cons_self)] at h
      split at h
      · next hpresent =>
        obtain ⟨dropped, rest, rfl, hdropped, hrest⟩ :=
          ih (fun e he => hle e (List.mem_cons_of_mem _ he)) h
        refine ⟨d :: dropped, rest, rfl, fun d' hd' => ?_, hrest⟩
        rcases List.mem_cons.1 hd' with rfl | hd'
        · exact hpresent
        · exact hdropped d' hd'
      · cases h

/-- The best merit of a queue. -/
def topMerit (queue : List (Edge α)) : α :=
  (queue.head?.map fun e => Score.best Score.impossible e.merit).getD Score.impossible

/-- A cell is filled as if the best merit of its queue were known from the start. -/
theorem commits_topMerit (hdelta : ∀ a : α, a - t.delta ≤ a) (hst : st.bestMerit = Score.impossible) :
    commits t c width st = commits t c width { st with bestMerit := topMerit st.queue } := by
  have hnot : ∀ a b : α, b ≤ a → ¬ a < b - t.delta :=
    fun a b hba => Score.not_lt.2 (Score.le_trans (hdelta b) hba)
  have hnext : nextImprovement t c st.cell st.bestMerit st.queue =
      nextImprovement t c st.cell (topMerit st.queue) st.queue := by
    cases hqueue : st.queue with
    | nil => rfl
    | cons d queue =>
      have htop : topMerit (d :: queue) = Score.best Score.impossible d.merit := rfl
      have hd : Score.best Score.impossible d.merit ≤ d.merit :=
        Score.best_le (Score.impossible_le _) (Score.le_refl _)
      have hbest : Score.best (Score.best Score.impossible d.merit) d.merit =
          Score.best Score.impossible d.merit := best_eq_left (Score.le_best_right _ _)
      rw [hst, htop, nextImprovement, if_neg (hnot _ _ (Score.impossible_le _)), nextImprovement,
        if_neg (hnot _ _ hd), hbest]
  cases width with
  | zero => rfl
  | succ width =>
    rw [commits, commits, hnext]
    rfl

/-! ## A cell under way -/

/-- A cell under way in a search by score, in which all best scores of the symbols are no improvement or
come from what waits in the queue. -/
structure Waiting (g : Grammar α) (s : Sentence) (c : Chart α) (i j : Nat) (sources : List (Entry α))
    (top : α) (st : CellState α) : Prop extends Timed g s c i j st, Falling st where
  best_eq : st.bestMerit = top
  le_top : ∀ e ∈ st.queue, e.merit ≤ top
  reached : ∀ e ∈ st.queue, Reaches g.productions sources e.nonterminal e.inside
  base : ∀ e ∈ sources, Pending c i j st e.nonterminal e.inside
  step : ∀ p ∈ g.productions, ∀ B, p.children = .unary B →
    Pending c i j st p.parent (p.logProb + c.overlay st.cell i j B)

namespace Waiting

variable (hnonpos : ∀ p ∈ g.productions, p.logProb ≤ 0)
include hnonpos

/-- What chains lead to is no improvement, or at most as good as something that is left in the queue. -/
theorem le_overlay_or_le (h : Waiting g s c i j sources top st) (hqueue : st.queue = dropped ++ rest)
    (hdropped : ∀ d ∈ dropped, d.inside ≤ present c st.cell d)
    (hx : Reaches g.productions sources A x) :
    x ≤ c.overlay st.cell i j A ∨ ∃ e ∈ rest, x ≤ e.inside := by
  have hpending : ∀ {A x}, Pending c i j st A x →
      x ≤ c.overlay st.cell i j A ∨ ∃ e ∈ rest, x ≤ e.inside := by
    rintro A x (hle | ⟨e, he, rfl, hle⟩)
    · exact .inl hle
    · rw [hqueue] at he
      rcases List.mem_append.1 he with he | he
      · exact .inl (Score.le_trans hle
          (h.toTimed.le_overlay (by simp [hqueue, he]) (hdropped e he)))
      · exact .inr ⟨e, he, hle⟩
  induction hx with
  | source he => exact hpending (h.base _ he)
  | @unary p B x hp hB _ ih =>
    rcases ih with hle | ⟨e, he, hle⟩
    · refine (hpending (h.step p hp B hB)).imp ?_ ?_
      · exact Score.le_trans (Score.add_le_add_left hle _)
      · rintro ⟨e, he, hle'⟩
        exact ⟨e, he, Score.le_trans (Score.add_le_add_left hle _) hle'⟩
    · exact .inr ⟨e, he, Score.le_trans (Score.add_le_of_nonpos (hnonpos p hp) x) hle⟩

/-- Nothing that chains lead to improves upon the cell and is better than the edge that is taken. -/
theorem le_of_reaches (h : Waiting g s c i j sources top st)
    (hqueue : st.queue = dropped ++ e :: rest)
    (hdropped : ∀ d ∈ dropped, d.inside ≤ present c st.cell d)
    (hx : Reaches g.productions sources A x) (hover : c.overlay st.cell i j A < x) :
    x ≤ e.inside := by
  rcases h.le_overlay_or_le hnonpos hqueue hdropped hx with hle | ⟨e', he', hle⟩
  · exact absurd hover (Score.not_lt.2 hle)
  · rcases List.mem_cons.1 he' with rfl | he'
    · exact hle
    · exact Score.le_trans hle ((h.toFalling.behind hqueue).2 e' he')

/-- The edge that is taken has the best score of its symbol. -/
theorem bestReach (h : Waiting g s c i j sources top st) (hqueue : st.queue = dropped ++ e :: rest)
    (hdropped : ∀ d ∈ dropped, d.inside ≤ present c st.cell d)
    (himp : ¬ e.inside ≤ present c st.cell e) :
    c.overlay st.cell i j e.nonterminal < e.inside ∧
      BestReach g.productions sources e.nonterminal e.inside := by
  have he : e ∈ st.queue := by simp [hqueue]
  obtain ⟨⟨hstart, hstop⟩, -⟩ := h.queued e he
  have hlt : c.overlay st.cell i j e.nonterminal < e.inside :=
    Score.lt_of_le_of_lt (overlay_le_present h.proper hstart hstop) (Score.not_le.1 himp)
  refine ⟨hlt, .inr (h.reached e he), ?_⟩
  rintro x (rfl | hx)
  · exact Score.impossible_le _
  · rcases Score.lt_or_ge (c.overlay st.cell i j e.nonterminal) x with hover | hle
    · exact h.le_of_reaches hnonpos hqueue hdropped hx hover
    · exact Score.le_trans hle (Score.le_of_lt hlt)

/-- To commit the best edge keeps all of this. -/
theorem commitEdge (hg : t.grammar = g) (hmerit : ∀ i j A x, t.merit.score i j A x = x)
    (h : Waiting g s c i j sources top st) (hqueue : st.queue = dropped ++ e :: rest)
    (hdropped : ∀ d ∈ dropped, d.inside ≤ present c st.cell d)
    (himp : ¬ e.inside ≤ present c st.cell e) :
    Waiting g s c i j sources top (Beam.commitEdge t st e rest top) := by
  have he : e ∈ st.queue := by simp [hqueue]
  have hrest : ∀ e' ∈ rest, e' ∈ st.queue := fun e' he' => by simp [hqueue, he']
  obtain ⟨htimed, hover, hlt⟩ := commitEdge_timed hnonpos hg h.toTimed he hrest himp top
  have hfalling := h.toFalling.commitEdge hnonpos hg hmerit h.toTimed hqueue himp top
  have hkept : ∀ {A x}, Pending c i j st A x →
      Pending c i j (Beam.commitEdge t st e rest top) A x :=
    Pending.commitEdge hnonpos hg h.toTimed hqueue hdropped himp top
  obtain ⟨hstart, hstop⟩ := (h.queued e he).1
  refine
    { toTimed := htimed
      toFalling := hfalling
      best_eq := rfl
      le_top := fun e' he' => ?_
      reached := fun e' he' => ?_
      base := fun e' he' => hkept (h.base e' he')
      step := fun p hp B hB => ?_ }
  · rcases Agenda.mem_insertAll.1 he' with hnew | hold
    · subst hg
      obtain ⟨p, hp, -, rfl⟩ := mem_unaryEdges.1 hnew
      show t.merit.score _ _ _ _ ≤ top
      rw [hmerit]
      refine Score.le_trans (Score.add_le_of_nonpos (hnonpos p hp) _) ?_
      exact h.merit_eq e he ▸ h.le_top e he
    · exact h.le_top e' (hrest e' hold)
  · rcases Agenda.mem_insertAll.1 he' with hnew | hold
    · subst hg
      obtain ⟨p, hp, hB, rfl⟩ := mem_unaryEdges.1 hnew
      exact .unary hp hB (h.reached e he)
    · exact h.reached e' (hrest e' hold)
  · show Pending c i j (Beam.commitEdge t st e rest top) p.parent
      (p.logProb + c.overlay (st.cell.add .best e.toEntry) i j B)
    rw [hover]
    by_cases hBe : B = e.nonterminal
    · subst hBe hg
      rw [if_pos ⟨rfl, rfl, rfl⟩]
      exact .inr ⟨_, Agenda.mem_insertAll.2 (.inl (mem_unaryEdges.2 ⟨p, hp, hB, rfl⟩)), rfl,
        Score.le_refl _⟩
    · rw [if_neg fun hspan => hBe hspan.2.2]
      exact hkept (h.step p hp B hB)

/-- When a cell is done, what chains lead to is no improvement or falls below the threshold. -/
theorem lt_threshold_of_none (h : Waiting g s c i j sources top st)
    (hnext : nextImprovement t c st.cell top st.queue = none)
    (hx : Reaches g.productions sources A x) (hover : c.overlay st.cell i j A < x) :
    x < top - t.delta := by
  obtain ⟨dropped, rest, hqueue, hdropped, hrest⟩ := threshold_of_none h.le_top hnext
  cases rest with
  | nil =>
    rcases h.le_overlay_or_le hnonpos hqueue hdropped hx with hle | ⟨e, he, -⟩
    · exact absurd hover (Score.not_lt.2 hle)
    · cases he
  | cons d rest =>
    refine Score.lt_of_le_of_lt (h.le_of_reaches hnonpos hqueue hdropped hx hover) ?_
    exact h.merit_eq d (by simp [hqueue]) ▸ hrest d rfl

/-- What is committed comes in the order of best scores, each symbol with its own. -/
theorem takesBest (hg : t.grammar = g) (hmerit : ∀ i j A x, t.merit.score i j A x = x)
    (hU : ∀ A, BestReach g.productions sources A (U A)) (width : Nat)
    (h : Waiting g s c i j sources top st) :
    (∀ e ∈ commits t c width st, BestReach g.productions sources e.nonterminal e.inside) ∧
      TakesBest U (c.overlay st.cell i j) (top - t.delta) width (commits t c width st) := by
  have hreaches : ∀ {A y}, y < U A → Reaches g.productions sources A (U A) := fun {A y} hy =>
    (hU A).1.resolve_left fun himp => by
      rw [himp] at hy
      exact Score.not_lt.2 (Score.impossible_le y) hy
  induction width generalizing st with
  | zero => exact ⟨nofun, .nil, .nil, nofun, Nat.le_refl 0, fun A _ _ => .inr ⟨rfl, nofun⟩⟩
  | succ width ih =>
    unfold commits
    rw [h.best_eq]
    cases hnext : nextImprovement t c st.cell top st.queue with
    | none =>
      refine ⟨nofun, .nil, .nil, nofun, Nat.zero_le _, fun A hover hthreshold => ?_⟩
      exact absurd (h.lt_threshold_of_none hnonpos hnext (hreaches hover) hover) hthreshold
    | some next =>
      obtain ⟨e, rest, best⟩ := next
      obtain ⟨dropped, hqueue, hdropped, himp⟩ := nextImprovement_eq_some hnext
      obtain ⟨rfl, hthreshold⟩ := threshold_of_some h.le_top hnext
      have he : e ∈ st.queue := by simp [hqueue]
      obtain ⟨hlt, hbest⟩ := h.bestReach hnonpos hqueue hdropped himp
      have hle : e.inside ≤ U e.nonterminal := (hU e.nonterminal).2 hbest.1
      have hrest : ∀ e' ∈ rest, e' ∈ st.queue := fun e' he' => by simp [hqueue, he']
      obtain ⟨-, hover, -⟩ := commitEdge_timed hnonpos hg h.toTimed he hrest himp best
      obtain ⟨hbests, htaken⟩ := ih (h.commitEdge hnonpos hg hmerit hqueue hdropped himp)
      refine ⟨List.forall_mem_cons.2 ⟨hbest, hbests⟩, htaken.cons (fun A => ?_) hlt hle
        (hbest.2 (hU e.nonterminal).1) (fun hbelow => hthreshold ?_) fun A hA => ?_⟩
      · exact (hover i j A).trans (if_congr (by simp) rfl rfl)
      · rw [h.merit_eq e he]
        exact Score.lt_of_le_of_lt hle hbelow
      · exact Score.le_trans (h.le_of_reaches hnonpos hqueue hdropped (hreaches hA) hA) hle

end Waiting

/-! ## The start of a cell -/

/-- The candidates and the entries of a cell. -/
def sourcesOf (t : Task α) (segments : Nat) (c : Chart α) (i j : Nat) : List (Entry α) :=
  (candidates t segments c i j).1.map (·.toEntry) ++ c.entries i j

omit [MonotoneScore α] in
theorem mem_queue_opened {st : State α} :
    e ∈ (opened t segments st i j).queue ↔ e ∈ (candidates t segments st.chart i j).1 :=
  Agenda.mem_insertAll.trans (or_iff_left List.not_mem_nil)

theorem falling_opened (hmerit : ∀ i j A x, t.merit.score i j A x = x) (st : State α) :
    Falling (opened t segments st i j) where
  merit_eq _ he := merit_eq_of_mem_candidates hmerit (mem_queue_opened.1 he)
  descending := Queue.descending_insertAll List.Pairwise.nil _
  capped A h hA := by simp [opened] at hA

/-- The best merit of the queue is the best score of a candidate. -/
theorem isGreatest_topMerit (hmerit : ∀ i j A x, t.merit.score i j A x = x) (st : State α) :
    IsGreatest {x | x = Score.impossible ∨ ∃ e ∈ (candidates t segments st.chart i j).1, e.inside = x}
      (topMerit (opened t segments st i j).queue) := by
  have hfalling : Falling (opened t segments st i j) := falling_opened hmerit st
  have hmem : ∀ e, e ∈ (opened t segments st i j).queue ↔
      e ∈ (candidates t segments st.chart i j).1 := fun _ => mem_queue_opened
  cases hqueue : (opened t segments st i j).queue with
  | nil =>
    refine ⟨.inl rfl, ?_⟩
    rintro x (rfl | ⟨e, he, rfl⟩)
    · exact Score.le_refl _
    · rw [← hmem, hqueue] at he
      cases he
  | cons d queue =>
    have hd : d ∈ (opened t segments st i j).queue := by simp [hqueue]
    have htop : topMerit (d :: queue) = Score.best Score.impossible d.inside := by
      rw [← hfalling.merit_eq d hd]
      rfl
    rw [htop]
    constructor
    · exact (Score.best_eq_left_or_right _ _).imp id fun h => ⟨d, (hmem d).1 hd, h.symm⟩
    · rintro x (rfl | ⟨e, he, rfl⟩)
      · exact Score.impossible_le _
      · refine Score.le_trans ?_ (Score.le_best_right _ _)
        rw [← hmem, hqueue] at he
        rcases List.mem_cons.1 he with rfl | he
        · exact Score.le_refl _
        · exact (hfalling.behind (hqueue.trans (List.nil_append _).symm)).2 e he

/-- Before anything is committed, the candidates wait in the queue, and the entries are no improvement. -/
theorem waiting_opened (hg : t.grammar = g) (hmerit : ∀ i j A x, t.merit.score i j A x = x)
    {st : State α} (hc : st.chart.Grown g s)
    (hblank : j ≠ i + 1 → ∀ A, st.chart.get? i j A = none) :
    Waiting g s st.chart i j (sourcesOf t segments st.chart i j)
      (topMerit (opened t segments st i j).queue)
      { opened t segments st i j with
        bestMerit := topMerit (opened t segments st i j).queue } := by
  have hfalling : Falling (opened t segments st i j) := falling_opened hmerit st
  have hover : st.chart.overlay (opened t segments st i j).cell = st.chart.inside :=
    overlay_empty st.chart i j _
  refine
    { toTimed := timed_start hg hc (fun e he => warranted_of_mem_candidates hg hc segments he) rfl rfl
      toFalling := ⟨hfalling.merit_eq, hfalling.descending, hfalling.capped⟩
      best_eq := rfl
      le_top := fun e he => ?_
      reached := fun e he => .source (List.mem_append_left _
        (List.mem_map_of_mem (mem_queue_opened.1 he)))
      base := fun e he => ?_
      step := fun p hp B hB => ?_ }
  · rw [hfalling.merit_eq e he]
    exact (isGreatest_topMerit hmerit st).2 (.inr ⟨e, mem_queue_opened.1 he, rfl⟩)
  · rcases List.mem_append.1 he with he | he
    · obtain ⟨d, hd, rfl⟩ := List.mem_map.1 he
      exact .inr ⟨d, mem_queue_opened.2 hd, rfl, Score.le_refl _⟩
    · refine .inl ?_
      have hget := (Chart.mem_entries hc.sound).1 he
      show e.inside ≤ st.chart.overlay (opened t segments st i j).cell i j e.nonterminal
      rw [hover, hc.sound.inside_of_get? hget]
      exact Score.le_refl _
  · show Pending st.chart i j _ p.parent
      (p.logProb + st.chart.overlay (opened t segments st i j).cell i j B)
    rw [hover]
    rcases Score.lt_or_ge Score.impossible (st.chart.inside i j B) with hpos | himp
    · obtain ⟨entry, hentry⟩ := hc.sound.exists_get?_of_possible hpos
      obtain rfl : j = i + 1 := Classical.byContradiction fun hne => by
        rw [hblank hne] at hentry
        cases hentry
      exact .inr ⟨_, mem_queue_opened.2 (edge_mem_candidates hg hc.sound segments hp hB hentry), rfl,
        Score.le_refl _⟩
    · refine .inl (Score.le_trans ?_ (Score.impossible_le _))
      exact Score.le_trans (Score.add_le_add_left himp _) (MonotoneScore.add_impossible_le _)

/-! ## A search by score -/

/-- What stays the same during a search by score in an empty chart. -/
def scoreTask (g : Grammar α) (width : Nat) (delta : α) (s : Sentence) (storage : Storage) :
    Task α where
  grammar := g
  merit := Merit.inside.forSentence (commitWords g s (Parser.emptyChart g storage s.size)).1
  width
  delta

/-- A search by score in an empty chart, when some spans have been visited. -/
def searchUpTo (g : Grammar α) (width : Nat) (delta : α) (segments : Nat) (summing : Bool)
    (s : Sentence) (storage : Storage) (visited : List (Nat × Nat)) : State α :=
  let (chart, stats) := commitWords g s (Parser.emptyChart g storage s.size)
  visited.foldl (fillCell (scoreTask g width delta s storage) segments)
    { chart, table := wordTable g (Merit.inside.forSentence chart) summing chart, stats }

omit [MonotoneScore α] in
theorem search_eq_searchUpTo (g : Grammar α) (width : Nat) (delta : α) (segments : Nat)
    (summing : Bool) (s : Sentence) (storage : Storage) :
    search g .inside width delta segments summing s (Parser.emptyChart g storage s.size) =
      searchUpTo g width delta segments summing s storage (spansUp s.size) := rfl

/-- Spans that have not been visited have the entries of words at most. -/
theorem searchUpTo_grown (hnonpos : ∀ p ∈ g.productions, p.logProb ≤ 0) (width : Nat) (delta : α)
    (segments : Nat) (summing : Bool) (s : Sentence) (storage : Storage)
    {visited rest : List (Nat × Nat)} (hspans : spansUp s.size = visited ++ rest) :
    (searchUpTo g width delta segments summing s storage visited).chart.Grown g s ∧
      ∀ k l A e, (k, l) ∉ visited →
        (searchUpTo g width delta segments summing s storage visited).chart.get? k l A = some e →
          l = k + 1 ∧ e.backpointer.isUnary = false := by
  have hwords := commitWords_worded hnonpos (Parser.grown_emptyChart g s storage)
    (Parser.get?_emptyChart g storage s.size)
  refine foldl_prefix_induction (P := fun visited (st : State α) => st.chart.Grown g s ∧
    ∀ k l A e, (k, l) ∉ visited → st.chart.get? k l A = some e →
      l = k + 1 ∧ e.backpointer.isUnary = false) visited
    (fun before span after st hsplit hv => ?_)
    ⟨hwords.grown, fun k l A e _ he => hwords.fresh k l A e he⟩
  obtain ⟨k, l⟩ := span
  rw [hsplit, List.append_assoc, List.cons_append] at hspans
  have hmem : (k, l) ∈ spansUp s.size := by rw [hspans]; simp
  have hnew : (k, l) ∉ before := not_mem_of_spansUp_eq hspans
  obtain ⟨hgrown, hfresh⟩ := hv
  obtain ⟨hnext, hkept⟩ := fillCell_grown (t := scoreTask g width delta s storage) hnonpos rfl
    segments hgrown (mem_spansUp.1 hmem).1 (mem_spansUp.1 hmem).2
    fun A e he => (hfresh k l A e hnew he).2
  refine ⟨hnext, fun k' l' A e hkl he => ?_⟩
  rw [List.mem_append, List.mem_singleton, Prod.mk.injEq, not_or] at hkl
  exact hfresh k' l' A e hkl.1 (hkept k' l' A e hkl.2 he)

omit [MonotoneScore α] in
/-- Where symbols are committed with best scores, these may be called the best scores of the symbols. -/
theorem exists_bestReach_eq {committed : List (Edge α)} {rules : List (Production α)}
    (hU : ∀ A, BestReach rules sources A (U A)) (honce : (committed.map (·.nonterminal)).Nodup)
    (hbests : ∀ e ∈ committed, BestReach rules sources e.nonterminal e.inside) :
    ∃ V : NonTerminal → α, (∀ A, BestReach rules sources A (V A)) ∧
      ∀ e ∈ committed, e.inside = V e.nonterminal := by
  have hfound : ∀ {A e}, committed.find? (·.nonterminal == A) = some e →
      e ∈ committed ∧ e.nonterminal = A := fun {A e} hfind =>
    ⟨List.mem_of_find?_eq_some hfind, beq_iff_eq.1 (List.find?_some
      (p := fun e : Edge α => e.nonterminal == A) hfind)⟩
  refine ⟨fun A => ((committed.find? (·.nonterminal == A)).map (·.inside)).getD (U A), fun A => ?_,
    fun e he => ?_⟩
  · cases hfind : committed.find? (·.nonterminal == A) with
    | none => simpa [hfind] using hU A
    | some e => simpa [hfind, (hfound hfind).2] using hbests e (hfound hfind).1
  · have hsome : (committed.find? (·.nonterminal == e.nonterminal)).isSome = true :=
      List.find?_isSome.2 ⟨e, he, beq_self_eq_true _⟩
    obtain ⟨d, hd⟩ := Option.isSome_iff_exists.1 hsome
    have hde : d = e := List.inj_on_of_nodup_map honce (hfound hd).1 he (hfound hd).2
    simp [hd, hde]

/-- Whenever a search by score comes to a cell, it commits each symbol at most once, from better to worse
and with the best score that unary chains lead to from the candidates and entries of the cell. Up to ties,
these are the best ones, as many as the beam is wide, of the symbols that improve upon the chart and do
not fall further below the best candidate than allowed. -/
theorem search_takes_best (hnonpos : ∀ p ∈ g.productions, p.logProb ≤ 0) (width : Nat) {delta : α}
    (hdelta : ∀ a : α, a - delta ≤ a) (segments : Nat) (summing : Bool) (s : Sentence)
    (storage : Storage) {visited rest : List (Nat × Nat)}
    (hspans : spansUp s.size = visited ++ (i, j) :: rest) :
    let t := scoreTask g width delta s storage
    let st := searchUpTo g width delta segments summing s storage visited
    let edges := (candidates t segments st.chart i j).1
    let committed := commits t st.chart width (opened t segments st i j)
    (fillCell t segments st (i, j)).chart = st.chart.commit
        (committed.foldl (fun cell e => cell.add .best e.toEntry)
          (Scratch.empty i j g.numNonterminals)) ∧
      ∃ U best,
        (∀ A, BestReach g.productions (edges.map (·.toEntry) ++ st.chart.entries i j) A (U A)) ∧
        IsGreatest {x | x = Score.impossible ∨ ∃ e ∈ edges, e.inside = x} best ∧
        (∀ e ∈ committed, e.inside = U e.nonterminal) ∧
        TakesBest U (st.chart.inside i j) (best - delta) width committed := by
  intro t st edges committed
  obtain ⟨hgrown, hfresh⟩ := searchUpTo_grown hnonpos width delta segments summing s storage hspans
  have hnew : (i, j) ∉ visited := not_mem_of_spansUp_eq hspans
  have hmerit : ∀ i j A x, t.merit.score i j A x = x := fun _ _ _ _ => rfl
  have hwaiting : Waiting g s st.chart i j (sourcesOf t segments st.chart i j) _ _ :=
    waiting_opened rfl hmerit hgrown fun hne A => Option.eq_none_iff_forall_ne_some.2
      fun e he => hne (hfresh i j A e hnew he).1
  have hcommitted : committed = commits t st.chart width
      { opened t segments st i j with
        bestMerit := topMerit (opened t segments st i j).queue } := commits_topMerit hdelta rfl
  have htakes := fun {U : NonTerminal → α} (hU : ∀ A, BestReach g.productions (sourcesOf t segments st.chart i j) A
    (U A)) => hwaiting.takesBest hnonpos rfl hmerit hU width
  rw [← hcommitted] at htakes
  choose U hU using Reaches.exists_bestReach g.productions (sourcesOf t segments st.chart i j) hnonpos
  obtain ⟨V, hV, heq⟩ := exists_bestReach_eq hU (htakes hU).2.once (htakes hU).1
  refine ⟨?_, V, _, hV, isGreatest_topMerit hmerit st, heq, ?_⟩
  · rw [chart_fillCell]
    exact congrArg st.chart.commit (cell_commitBest t st.chart width _)
  · exact overlay_empty st.chart i j t.grammar.numNonterminals ▸ (htakes hV).2

/-- `S → B B`, `A → B B`, `B → b`, and `S` and `A` above each other. -/
def round : Grammar (WithBot ℤ) :=
  .ofProductions Chain.symbols Chain.code Chain.fits
    [⟨0, .binary 2 2, (-5 : ℤ)⟩, ⟨1, .binary 2 2, 0⟩, ⟨2, .lexical 0, 0⟩, ⟨0, .unary 1, (-1 : ℤ)⟩,
      ⟨1, .unary 0, (-1 : ℤ)⟩]
    (by
      have hsize : Chain.symbols.numNonterminals = 3 ∧ Chain.symbols.lexicon.size = 1 := by decide
      rw [hsize.1, hsize.2]
      simp [Production.InRange, Children.InRange])
    (by simp [Production.sameRule])

/-- Over two words `A` comes first, and `S` above it before the candidate for `S`. -/
theorem round_takes_best :
    (∀ p ∈ round.productions, p.logProb ≤ 0) ∧ (∀ a : WithBot ℤ, a - (7 : ℤ) ≤ a) ∧
      spansUp Chain.pair.size = [(0, 1), (1, 2)] ++ (0, 2) :: [] ∧
      let t := scoreTask round 2 (7 : ℤ) Chain.pair .packed
      let st := searchUpTo round 2 (7 : ℤ) 1 false Chain.pair .packed [(0, 1), (1, 2)]
      let edges := (candidates t 1 st.chart 0 2).1
      let committed := commits t st.chart 2 (opened t 1 st 0 2)
      edges.map (fun e => (e.nonterminal, e.inside)) =
          ([(0, (-5 : ℤ)), (1, 0)] : List (NonTerminal × WithBot ℤ)) ∧
        committed.map (fun e => (e.nonterminal, e.inside)) =
          ([(1, 0), (0, (-1 : ℤ))] : List (NonTerminal × WithBot ℤ)) ∧
        ∃ U best,
          (∀ A, BestReach round.productions (edges.map (·.toEntry) ++ st.chart.entries 0 2) A (U A)) ∧
          (∀ e ∈ committed, e.inside = U e.nonterminal) ∧
          TakesBest U (st.chart.inside 0 2) (best - (7 : ℤ)) 2 committed := by
  have hnonpos : ∀ p ∈ round.productions, p.logProb ≤ 0 := by decide +kernel
  have hdelta : ∀ a : WithBot ℤ, a - (7 : ℤ) ≤ a := by
    intro a
    cases a with
    | bot => exact le_refl _
    | coe a => exact WithBot.coe_le_coe.2 (by omega)
  have hspans : spansUp Chain.pair.size = [(0, 1), (1, 2)] ++ (0, 2) :: [] := by decide +kernel
  obtain ⟨-, U, best, hU, -, hinside, htakes⟩ :=
    search_takes_best hnonpos 2 hdelta 1 false Chain.pair .packed hspans
  exact ⟨hnonpos, hdelta, hspans, by decide +kernel, by decide +kernel, U, best, hU, hinside, htakes⟩

end Beam

end Constituency
