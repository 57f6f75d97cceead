import Constituency.Proofs.Chart.Traced
import Constituency.Proofs.Decode.Bracketing
import Constituency.Proofs.Segment

/-!
# The cells of a chart with one derivation

What a decoder by constituents makes of a chart that has one derivation of the sentence, without a bias
against long spans. The named constituents of the derivation gain one expected constituent each, all
other entries nothing (`Sole.rewarded`), so that the decoder finds a bracketing that takes in every
span of the derivation (`Sole.full_part`). In the cell of a named constituent it chooses the
topmost one (`Sole.exists_chosen`), which is preferred to one below it as the parent of a unary rule.
-/

namespace Constituency

namespace ConstituentTask

variable {α : Type} [Score α] {t : ConstituentTask α} {s : Sentence} {d e : Derivation α}
  {i j k : Nat} {A B : NonTerminal} {v : Place} {c : Candidate α} {cell : ConstituentCell α}

/-- A task without coarse categories and bias, whose chart records the rules of its entries and
has one derivation of the sentence: its constituents share the whole score of the sentence,
and all other entries have no part in it. -/
structure Sole (s : Sentence) (t : ConstituentTask α) (d : Derivation α) : Prop where
  coarse_eq : t.coarse = false
  lambda_eq : t.lambda = 0
  sound : t.chart.Sound t.grammar
  length_eq : t.words.length = t.chart.size
  records : ∀ i j A e, t.chart.get? i j A = some e →
    Records t.grammar s t.chart.Live e.backpointer i j A
  derives : DerivesIn t.grammar s t.chart.Live 0 t.chart.size t.grammar.start d
  possible : Score.impossible < d.score
  single : d.SingleUnaries
  straight : d.Straight
  traced : d.Traced (fun i j A => (t.chart.get? i j A).map (·.backpointer)) 0
  sentenceScore_eq : t.sentenceScore = d.score
  node : ∀ v ∈ d.nodes 0,
    t.chart.inside v.1 v.2.1 v.2.2 + t.chart.outside v.1 v.2.1 v.2.2 = d.score
  other : ∀ v, v ∉ d.nodes 0 → ¬ Score.impossible <
    t.chart.inside v.1 v.2.1 v.2.2 + t.chart.outside v.1 v.2.1 v.2.2

/-- The place is a constituent of the derivation and no artefact of binarization. -/
def Counts (t : ConstituentTask α) (d : Derivation α) (v : Place) : Prop :=
  v ∈ d.nodes 0 ∧ t.grammar.symbols.isFactored v.2.2 = false

instance (t : ConstituentTask α) (d : Derivation α) : DecidablePred (t.Counts d) :=
  fun _ => inferInstanceAs (Decidable (_ ∧ _))

/-- The spans of the constituents that count. -/
def marks (t : ConstituentTask α) (d : Derivation α) : Finset (Nat × Nat) :=
  (((d.nodes 0).filter fun v => decide (t.Counts d v)).map fun v => (v.1, v.2.1)).toFinset

omit [Score α] in
theorem mem_marks : (i, j) ∈ t.marks d ↔ ∃ A, t.Counts d (i, j, A) := by
  simp only [marks, List.mem_toFinset, List.mem_map, List.mem_filter, decide_eq_true_eq]
  constructor
  · rintro ⟨⟨_, _, A⟩, ⟨-, hv⟩, heq⟩
    obtain ⟨rfl, rfl⟩ := Prod.mk.inj heq
    exact ⟨A, hv⟩
  · rintro ⟨A, hA⟩
    exact ⟨(i, j, A), ⟨hA.1, hA⟩, rfl⟩

omit [Score α] in
theorem mem_marks_of_counts (h : t.Counts d v) : (v.1, v.2.1) ∈ t.marks d := mem_marks.2 ⟨v.2.2, h⟩

omit [Score α] in
theorem lt_of_mem_marks (v : Nat × Nat) (hv : v ∈ t.marks d) : v.1 < v.2 := by
  obtain ⟨A, hA, -⟩ := mem_marks.1 (show (v.1, v.2) ∈ t.marks d from hv)
  exact (Derivation.within_of_mem_nodes hA).2.1

namespace Sole

variable (h : t.Sole s d)

include h

theorem live_of_mem_nodes (hA : (i, j, A) ∈ d.nodes 0) : t.chart.Live i j A := by
  obtain ⟨fs, e, -, he, -⟩ := (Surrounds.mem_nodes_iff (u := (0, t.chart.size, t.grammar.start))
    h.derives).1 hA
  exact he.alive

/-! ## Candidates -/

/-- The whole sentence has the start symbol as its only candidate, any other span all its
entries. -/
theorem exists_candidate (hA : t.chart.Live i j A)
    (hroot : j - i = t.chart.size → A = t.grammar.start) :
    ∃ c ∈ t.candidates i j, c.label = A := by
  have hlabel : ∀ B, t.labelFor B = B := by
    intro B
    rw [labelFor, h.coarse_eq, if_neg Bool.false_ne_true]
  obtain ⟨c, hc, hcA⟩ := ConstituentTask.exists_candidate h.sound
    ((PackedChart.mem_symbols h.sound).2 hA) fun hwhole => by rw [rootLabel_eq, hroot hwhole]
  exact ⟨c, hc, hcA.trans (hlabel A)⟩

theorem isSome_bestCandidate? (hA : (i, j, A) ∈ d.nodes 0) :
    (bestCandidate? (t.candidates i j)).isSome = true := by
  have hexists : ∃ c, c ∈ t.candidates i j := by
    have hlive := h.live_of_mem_nodes hA
    by_cases hwhole : j - i = t.chart.size
    · obtain ⟨hij, hj⟩ := h.sound.bounds_of_live hlive
      obtain ⟨rfl, rfl⟩ : i = 0 ∧ j = t.chart.size := by omega
      obtain ⟨c, hc, -⟩ := h.exists_candidate h.derives.alive fun _ => rfl
      exact ⟨c, hc⟩
    · obtain ⟨c, hc, -⟩ := h.exists_candidate hlive (absurd · hwhole)
      exact ⟨c, hc⟩
  obtain ⟨c, hc⟩ := hexists
  exact isSome_bestCandidate?_of_mem hc

variable [ExactScore α]

/-- The gain of an entry is that of one right constituent if it counts, and nothing otherwise. -/
theorem gain_eq {x : PackedEntry α} (hx : x ∈ t.chart.row i j) :
    t.gain i j (t.grammar.symbols.isFactored x.nonterminal) (x.inside + x.outside) =
      Score.times (Score.exp 0) (if t.Counts d (i, j, x.nonterminal) then 1 else 0) := by
  have hpenalty : t.penalty i j = 0 := by
    rw [penalty, h.lambda_eq, ite_self]
  rw [gain, hpenalty, ExactScore.sub_zero, h.sentenceScore_eq,
    ← PackedChart.inside_of_mem h.sound hx, ← PackedChart.outside_of_mem h.sound hx]
  cases hfactored : t.grammar.symbols.isFactored x.nonterminal with
  | true =>
    rw [if_pos rfl, if_neg (fun hcount => by simp [Counts, hfactored] at hcount)]
    rfl
  | false =>
    rw [if_neg Bool.false_ne_true]
    by_cases hmem : (i, j, x.nonterminal) ∈ d.nodes 0
    · rw [if_pos ⟨hmem, hfactored⟩, h.node _ hmem, ExactScore.sub_self h.possible, Score.times_one]
    · rw [if_neg fun hcount => hmem hcount.1,
        ExactScore.exp_sub_eq_zero (h.other _ hmem) h.possible]
      rfl

/-- A candidate is an entry of its cell. -/
theorem of_mem_candidates (hc : c ∈ t.candidates i j) :
    t.chart.Live i j c.label ∧
      c.gain = Score.times (Score.exp 0) (if t.Counts d (i, j, c.label) then 1 else 0) ∧
      c.unaryChild = (t.chart.get? i j c.label).bind (·.backpointer.unaryChild?) := by
  have hsplit : c ∈ t.splitCandidates i j := by
    rw [candidates, h.coarse_eq, if_neg Bool.false_ne_true] at hc
    split at hc
    · exact (List.mem_filter.1 hc).1
    · exact hc
  obtain ⟨x, hx, rfl⟩ := List.mem_map.1 hsplit
  have hget : t.chart.get? i j x.nonterminal = some x.toEntry :=
    (PackedChart.get?_eq_some_iff h.sound).2 ⟨x, hx, rfl, rfl⟩
  refine ⟨?_, h.gain_eq hx, ?_⟩
  · show (t.chart.get? i j x.nonterminal).isSome = true
    rw [hget]
    rfl
  · rw [hget]
    rfl

/-- Over less than the whole sentence the best candidate gains something exactly in the cells of the
constituents that count. -/
theorem counts_iff (hbest : bestCandidate? (t.candidates i j) = some c)
    (hroot : j - i ≠ t.chart.size) : t.Counts d (i, j, c.label) ↔ (i, j) ∈ t.marks d := by
  refine ⟨fun hcount => mem_marks_of_counts hcount, fun hmark => ?_⟩
  obtain ⟨A, hA⟩ := mem_marks.1 hmark
  obtain ⟨c', hc', hlabel⟩ := h.exists_candidate (h.live_of_mem_nodes hA.1) (absurd · hroot)
  have hle := (preferred_of_bestCandidate? hbest).gain_le c' hc'
  rw [(h.of_mem_candidates hc').2.1, (h.of_mem_candidates (mem_of_bestCandidate? hbest)).2.1,
    hlabel, if_pos hA] at hle
  by_contra hnot
  rw [if_neg hnot] at hle
  exact absurd (Score.le_of_times_le_times ExactScore.exp_zero_pos hle) (by decide)

theorem rewarded : t.Rewarded (t.marks d) (Score.exp 0) where
  unit_pos := ExactScore.exp_zero_pos
  proper := lt_of_mem_marks
  gain i j best hbest := by
    refine ⟨_, (h.of_mem_candidates (mem_of_bestCandidate? hbest)).2.1, fun hroot => ?_⟩
    simp only [h.counts_iff hbest hroot]

/-! ## Parts of the derivation -/

/-- The spans of the derivation are full. -/
theorem full_part (he : Derivation.Part 0 d k e) :
    t.Full (t.marks d) (Score.exp 0) k (k + e.width) := by
  induction e generalizing k with
  | word p =>
    have hnode : (k, k + 1, p.parent) ∈ d.nodes 0 := he.mem_nodes (Derivation.mem_nodes_self _ k)
    obtain ⟨best, hbest⟩ := Option.isSome_iff_exists.1 (h.isSome_bestCandidate? hnode)
    obtain ⟨hlt, hle⟩ := h.sound.bounds_of_live (h.live_of_mem_nodes hnode)
    have hcell : t.choices.get k (k + 1) =
        some { best with score := best.gain, midpoint := k + 1 } := by
      rw [get_choices hlt hle, choose, hbest, Option.bind_some, if_pos (beq_self_eq_true _)]
    exact h.rewarded.full_word hcell
  | unary p c ih => exact ih he.child
  | binary p l r ihl ihr =>
    have := l.width_pos
    have := r.width_pos
    have hnode := he.mem_nodes (Derivation.mem_nodes_self _ k)
    have hle := (h.sound.bounds_of_live (h.live_of_mem_nodes hnode)).2
    have hright := ihr he.right
    rw [Nat.add_assoc] at hright
    refine h.rewarded.join (h.isSome_bestCandidate? hnode) hle (m := k + l.width) (by omega)
      (by simp only [Derivation.width]; omega) (ihl he.left) hright fun v hv => ?_
    obtain ⟨hne, hmark, hl, hr⟩ := mem_inner.1 hv
    obtain ⟨A, hA, -⟩ := mem_marks.1 (show (v.1, v.2) ∈ t.marks d from hmark)
    by_contra hacross
    rw [not_or, Nat.not_le, Nat.not_le] at hacross
    obtain ⟨hk, hstop⟩ := he.not_across hA hl (by rwa [Nat.add_assoc]) hacross.2 hacross.1
    apply hne
    rw [Derivation.width, ← Nat.add_assoc, ← hstop, ← hk]

omit [ExactScore α] in
theorem derives_of_part (he : Derivation.Part 0 d k e) :
    DerivesIn t.grammar s t.chart.Live k (k + e.width) e.root e := by
  obtain ⟨fs, -, he', -⟩ := he.exists_surrounds h.derives
  exact he'

omit [ExactScore α] in
/-- The backpointer of a constituent tells the child of its unary rule. -/
theorem unaryChild_of_part (he : Derivation.Part 0 d k e) :
    (t.chart.get? k (k + e.width) e.root).bind (·.backpointer.unaryChild?) = e.onlyChild? := by
  obtain ⟨entry, hentry, hb⟩ := Option.map_eq_some_iff.1 (h.traced k e he)
  rw [hentry, Option.bind_some, hb]
  exact Derivation.unaryChild?_backpointer (h.derives_of_part he)

/-- The choice for a span of the derivation, over less than the whole sentence: the topmost of its
constituents there that count. What stands above it are artefacts of binarization. -/
theorem exists_chosen (hcell : t.choices.get i j = some cell) (hroot : j - i ≠ t.chart.size)
    (hmark : (i, j) ∈ t.marks d) :
    ∃ e above, Derivation.Part 0 d i e ∧ i + e.width = j ∧ e.root = cell.label ∧
      e.onlyChild? = cell.unaryChild ∧ d.atSpan i j 0 = above ++ e.chain.map (fun B => (i, j, B)) ∧
      ∀ v ∈ above, t.grammar.symbols.isFactored v.2.2 = true := by
  have hbest := (of_get_choices hcell).1
  have hchild := (h.of_mem_candidates (mem_of_bestCandidate? hbest)).2.2
  have hcount := (h.counts_iff hbest hroot).2 hmark
  obtain ⟨top, htop, rfl, hover⟩ := Derivation.exists_part hcount.1
  have hlabel : cell.label ∈ top.chain := by
    have hmem := Derivation.mem_atSpan.2 ⟨hcount.1, rfl, rfl⟩
    rw [hover] at hmem
    obtain ⟨B, hB, heq⟩ := List.mem_map.1 hmem
    cases heq
    exact hB
  have htopChild := h.unaryChild_of_part htop
  by_cases htopLabel : top.root = cell.label
  · refine ⟨top, [], htop, rfl, htopLabel, ?_, hover, nofun⟩
    rw [hchild, ← htopLabel, htopChild]
  -- the label is that of the child of a unary rule, whose parent would be preferred if it counted
  cases top with
  | word | binary => exact absurd (List.mem_singleton.1 hlabel).symm htopLabel
  | unary p c =>
    have hsingle := htop.singleUnaries h.single
    rw [Derivation.chain, Derivation.chain_of_not_isUnary hsingle.1] at hlabel hover
    obtain hroot' : cell.label = c.root := by
      rcases List.mem_cons.1 hlabel with heq | heq
      · exact absurd heq.symm htopLabel
      · exact List.mem_singleton.1 heq
    have hnone : cell.unaryChild = c.onlyChild? := by
      rw [hchild, hroot']
      exact h.unaryChild_of_part htop.child
    refine ⟨c, [(i, i + c.width, p.parent)], htop.child, rfl, hroot'.symm, hnone.symm, ?_, ?_⟩
    · rw [Derivation.chain_of_not_isUnary hsingle.1]
      exact hover
    intro v hv
    obtain rfl := List.mem_singleton.1 hv
    by_contra hnamed
    have hparent : t.Counts d (i, i + c.width, p.parent) :=
      ⟨htop.mem_nodes (Derivation.mem_nodes_self _ i), by simpa using hnamed⟩
    obtain ⟨c', hc', hlabel'⟩ :=
      h.exists_candidate (h.live_of_mem_nodes hparent.1) (absurd · hroot)
    obtain ⟨-, hgain', hchild'⟩ := h.of_mem_candidates hc'
    have hgain := (h.of_mem_candidates (mem_of_bestCandidate? hbest)).2.1
    have hequal : cell.gain = c'.gain := by
      rw [hgain, hgain', hlabel', if_pos hcount, if_pos hparent]
    have hsome : c'.unaryChild = some c.root := by
      rw [hchild', hlabel']
      exact htopChild
    have hpreferred := (preferred_of_bestCandidate? hbest).isSome_unaryChild c' hc'
      (by rw [hequal]; exact Score.le_refl _) (by rw [hsome]; rfl)
    rw [hnone] at hpreferred
    cases c with
    | word | binary => cases hpreferred
    | unary => cases hsingle.1

end Sole

end ConstituentTask

end Constituency
