import Constituency.Proofs.Chart.Possible

/-!
# The inside pass over maxima

Where no rule is a gain and the scores of a chart are the best scores of all derivations, the inside pass
that keeps the best alternative alone finds the same scores again (`resum_best`). A visited entry is never
above its maximum, since what the pass makes of maxima are applications of rules to them. It is never below
it either: a best derivation without detours has no more unary rules on top of each other than the pass has
levels, even if the unary rules of the grammar run in circles.
-/

namespace Constituency

/-- No rule improves maxima. -/
theorem Application.le_of_isMaximum {α : Type} [Score α] [MonotoneScore α] {g : Grammar α}
    {s : Sentence} {inside : Nat → Nat → NonTerminal → α} {i j : Nat} {A : NonTerminal}
    (hmax : ∀ i j A, IsMaximum (Derives g s i j A) (inside i j A)) {b : Backpointer} {x : α}
    (h : Application g s inside b i j A x) : x ≤ inside i j A := by
  obtain ⟨d, hd, rfl⟩ := h.derives fun k l B hmem => by
    have hpos := h.possible_of_mem_places hmem
    refine (hmax k l B).attained.resolve_left fun himp => ?_
    rw [himp] at hpos
    exact Score.not_impossible_lt_impossible hpos
  exact (hmax i j A).score_le d hd

namespace PackedChart

variable {α : Type} [Score α] [MonotoneScore α] {g : Grammar α} {s : Sentence}
  {c c' : PackedChart α} {i j : Nat} {A : NonTerminal} {symbols : List NonTerminal}

/-! ## The best of alternatives -/

omit [MonotoneScore α] in
theorem foldl_best_le {x y : α} {xs : List α} (hx : x ≤ y) (hxs : ∀ z ∈ xs, z ≤ y) :
    xs.foldl Score.best x ≤ y := by
  induction xs generalizing x with
  | nil => exact hx
  | cons w rest ih =>
    exact ih (Score.best_le hx (hxs w List.mem_cons_self))
      fun z hz => hxs z (List.mem_cons_of_mem _ hz)

theorem le_total_best {y z : α} {xs : List α} (hz : z ∈ xs) (hle : y ≤ z) : y ≤ total .best xs :=
  le_foldl_combine (fun a b => ⟨Score.le_best_left a b, Score.le_best_right a b⟩) (.inr ⟨z, hz, hle⟩)

theorem total_best_le {y : α} {xs : List α} (hxs : ∀ z ∈ xs, z ≤ y) : total .best xs ≤ y :=
  foldl_best_le (Score.impossible_le y) hxs

omit [MonotoneScore α] in
/-- The scores that the binary rules over a span result in. -/
theorem exists_of_mem_binaryInside (hc : c.Sound g) {x : α} (hx : x ∈ c.binaryInside g i j A) :
    ∃ p ∈ g.productions, ∃ B C m, p.parent = A ∧ p.children = .binary B C ∧
      Score.impossible < c.inside m j C ∧
      x = p.logProb + c.inside i m B + c.inside m j C := by
  obtain ⟨m, -, hm⟩ := List.mem_flatMap.1 hx
  rw [scored_eq hc, List.flatMap_map] at hm
  obtain ⟨B, -, hB⟩ := List.mem_flatMap.1 hm
  obtain ⟨p, hleft, hrule⟩ := List.mem_filterMap.1 hB
  obtain ⟨hp, C, hpc⟩ := Grammar.mem_byLeftChild.1 hleft
  simp only [hpc, Option.ite_none_right_eq_some, Bool.and_eq_true, beq_iff_eq, decide_eq_true_eq,
    Option.some.injEq] at hrule
  obtain ⟨⟨hpA, hC⟩, rfl⟩ := hrule
  exact ⟨p, hp, B, C, m, hpA, hpc, hC, rfl⟩

/-! ## A cell of maxima -/

/-- A score is at least that of each of some derivations, and at most a bound. -/
structure Covers (among : Derivation α → Prop) (bound x : α) : Prop where
  score_le : ∀ d, among d → d.score ≤ x
  le_bound : x ≤ bound

omit [MonotoneScore α] in
theorem Covers.of_imp {D E : Derivation α → Prop} {bound x : α} (h : Covers D bound x)
    (hE : ∀ d, E d → D d) : Covers E bound x :=
  ⟨fun d hd => h.score_le d (hE d hd), h.le_bound⟩

theorem Covers.best {D E F : Derivation α → Prop} {bound x y : α} (hx : Covers D bound x)
    (hy : Covers E bound y) (hF : ∀ d, F d → D d ∨ E d) : Covers F bound (Score.best x y) := by
  refine ⟨fun d hd => ?_, Score.best_le hx.le_bound hy.le_bound⟩
  rcases hF d hd with hd | hd
  · exact Score.le_trans (hx.score_le d hd) (Score.le_best_left x y)
  · exact Score.le_trans (hy.score_le d hd) (Score.le_best_right x y)

/-- Derivations that are not possible need not be covered by a score of their own. -/
theorem Covers.void {D E F : Derivation α → Prop} {bound x y : α} (hx : Covers D bound x)
    (hy : Covers E bound y) (hvoid : y ≤ Score.impossible) (hF : ∀ d, F d → D d ∨ E d) :
    Covers F bound x := by
  refine ⟨fun d hd => ?_, hx.le_bound⟩
  rcases hF d hd with hd | hd
  · exact hx.score_le d hd
  · exact Score.le_trans (hy.score_le d hd) (Score.le_trans hvoid (Score.impossible_le x))

/-- A derivation that is not possible is covered by every score. -/
theorem score_le_of_possible {d : Derivation α} {x : α}
    (h : Score.impossible < d.score → d.score ≤ x) : d.score ≤ x :=
  (Score.lt_or_ge Score.impossible d.score).elim h fun hle => Score.le_trans hle (Score.impossible_le x)

section Cell

variable {inside : Nat → Nat → NonTerminal → α}
  (hmax : ∀ i j A, IsMaximum (Derives g s i j A) (inside i j A))
include hmax

/-- Without unary rules an entry is as good as every derivation without one on top. -/
theorem covers_baseScore (hc : c.Sound g) (hle : ∀ k l B, c.inside k l B ≤ inside k l B)
    (hge : ∀ k l B, inside k l B ≤ c.inside k l B) :
    Covers (fun d => Derives g s i j A d ∧ d.unaryHeight = 0) (inside i j A)
      (baseScore .best c g s.terminals i j A) := by
  have hterm : s.terminals[i]?.join = s.terminal? i := rfl
  constructor
  · rintro d ⟨hd, hheight⟩
    refine score_le_of_possible fun hpos => ?_
    cases hd with
    | word mem children terminal alive =>
      rw [baseScore, if_pos rfl, hterm, terminal]
      dsimp only
      rw [← children, Grammar.logProb_of_mem mem]
      exact Score.le_refl _
    | unary => cases hheight
    | @binary _ m _ p B C e f mem children leftBelow rightBelow alive =>
      have hlt := leftBelow.start_lt
      have hlt' := rightBelow.start_lt
      obtain ⟨hleft, hright⟩ := Score.impossible_lt_of_add hpos
      have hB := Score.le_trans ((hmax i m B).score_le e leftBelow) (hge i m B)
      have hC := Score.le_trans ((hmax m j C).score_le f rightBelow) (hge m j C)
      have hlive := live_of_possible hc
        (Score.lt_of_lt_of_le (Score.impossible_lt_of_add hleft).2 hB)
      rw [baseScore, if_neg (by omega)]
      exact le_total_best (mem_binaryInside hc mem children ⟨hlt, hlt'⟩ ((mem_symbols hc).2 hlive)
        (Score.lt_of_lt_of_le hright hC))
        (MonotoneScore.add_le_add (Score.add_le_add_left hB _) hC)
  · rw [baseScore]
    split
    · next hone =>
      subst hone
      rw [hterm]
      cases hword : s.terminal? i with
      | none => exact Score.impossible_le _
      | some word =>
        dsimp only
        by_cases hrule : ∃ p ∈ g.productions, p.parent = A ∧ p.children = .lexical word
        · obtain ⟨p, hp, rfl, hpc⟩ := hrule
          rw [← hpc, Grammar.logProb_of_mem hp]
          exact Application.le_of_isMaximum hmax (.word hp hpc hword)
        · rw [Grammar.logProb_of_not_mem fun p hp hpA hpc => hrule ⟨p, hp, hpA, hpc⟩]
          exact Score.impossible_le _
    · refine total_best_le fun x hx => ?_
      obtain ⟨p, hp, B, C, m, rfl, hpc, hC, rfl⟩ := exists_of_mem_binaryInside hc hx
      rcases Score.lt_or_ge Score.impossible (c.inside i m B) with hB | hB
      · obtain ⟨y, hy, hxy⟩ := (Application.binary (s := s) hp hpc hB hC).mono hle
        exact Score.le_trans hxy (Application.le_of_isMaximum hmax hy)
      · refine Score.le_trans (Score.not_lt.1 fun hpos => ?_) (Score.impossible_le _)
        have hleft := (Score.impossible_lt_of_add (Score.impossible_lt_of_add hpos).1).2
        exact Score.not_lt.2 hB hleft

/-- With one more level an entry is as good as every derivation with one more unary rule on top. -/
theorem covers_upScore (hsymbols : ∀ B, Score.impossible < inside i j B → B ∈ symbols) (n : Nat)
    (level : NonTerminal → α)
    (hlevel : ∀ B ∈ symbols, Covers (fun d => Derives g s i j B d ∧ d.unaryHeight = n)
      (inside i j B) (level B)) :
    Covers (fun d => Derives g s i j A d ∧ d.unaryHeight = n + 1) (inside i j A)
      (upScore .best g symbols level A) := by
  constructor
  · rintro d ⟨hd, hheight⟩
    refine score_le_of_possible fun hpos => ?_
    cases hd with
    | word | binary => cases hheight
    | @unary _ _ p B e mem children below alive =>
      have he := (Score.impossible_lt_of_add hpos).2
      have hB := hsymbols B (Score.lt_of_lt_of_le he ((hmax i j B).score_le e below))
      have hle := (hlevel B hB).score_le e ⟨below, Nat.succ.inj hheight⟩
      refine le_total_best (List.mem_flatMap.2 ⟨B, hB, ?_⟩) (Score.add_le_add_left hle p.logProb)
      rw [if_neg (by
        rw [Score.beq_impossible_eq_false_iff.2 (Score.lt_of_lt_of_le he hle)]; decide)]
      refine List.mem_map.2 ⟨p, List.mem_filter.2 ⟨?_, beq_self_eq_true _⟩, rfl⟩
      exact Grammar.mem_byUnaryChild.2 ⟨mem, children⟩
  · refine total_best_le fun x hx => ?_
    obtain ⟨B, hB, hx⟩ := List.mem_flatMap.1 hx
    split at hx
    · cases hx
    · next hlive =>
      obtain ⟨p, hp, rfl⟩ := List.mem_map.1 hx
      rw [List.mem_filter, Grammar.mem_byUnaryChild, beq_iff_eq] at hp
      obtain ⟨⟨hp, hpc⟩, rfl⟩ := hp
      have hpos := Score.beq_impossible_eq_false_iff.1 (Bool.eq_false_iff.2 hlive)
      have hbound := (hlevel B hB).le_bound
      exact Score.le_trans (Score.add_le_add_left hbound p.logProb)
        (Application.le_of_isMaximum hmax (.unary hp hpc (Score.lt_of_lt_of_le hpos hbound)))

omit hmax in
/-- Above a level without possible scores there are none. -/
theorem upScore_best_le (level : NonTerminal → α)
    (hvoid : ∀ B ∈ symbols, level B ≤ Score.impossible) (A : NonTerminal) :
    upScore .best g symbols level A ≤ Score.impossible := by
  refine total_best_le fun x hx => ?_
  obtain ⟨B, hB, hx⟩ := List.mem_flatMap.1 hx
  rw [if_pos (MonotoneScore.beq_impossible_iff.2 (hvoid B hB))] at hx
  cases hx

/-- A visit of a cell over maxima finds the maxima of the cell. -/
theorem resummed_best (hnonpos : ∀ p ∈ g.productions, p.logProb ≤ 0) (hc : c.Sound g)
    (hle : ∀ k l B, c.inside k l B ≤ inside k l B) (hge : ∀ k l B, inside k l B ≤ c.inside k l B)
    (hA : A ∈ c.symbols i j) :
    resummed .best c g s.terminals i j A ≤ inside i j A ∧
      inside i j A ≤ resummed .best c g s.terminals i j A := by
  have hsymbols : ∀ B, Score.impossible < inside i j B → B ∈ c.symbols i j := fun B hB =>
    (mem_symbols hc).2 (live_of_possible hc (Score.lt_of_lt_of_le hB (hge i j B)))
  have hsucc : ∀ n B d, Derives g s i j B d ∧ d.unaryHeight ≤ n + 1 →
      (Derives g s i j B d ∧ d.unaryHeight ≤ n) ∨ Derives g s i j B d ∧ d.unaryHeight = n + 1 :=
    fun n B d ⟨hd, hheight⟩ => (Nat.lt_or_eq_of_le hheight).imp
      (fun hlt => ⟨hd, Nat.le_of_lt_succ hlt⟩) fun heq => ⟨hd, heq⟩
  have hbase := fun B => covers_baseScore (A := B) (i := i) (j := j) hmax hc hle hge
  have hcovers : Covers (fun d => Derives g s i j A d ∧ d.unaryHeight ≤ 0 + (c.symbols i j).length)
      (inside i j A) (resummed .best c g s.terminals i j A) := upTo_addScores
    (V := (· ≤ Score.impossible))
    (P := fun n B x => Covers (fun d => Derives g s i j B d ∧ d.unaryHeight = n) (inside i j B) x)
    (Q := fun n B x => Covers (fun d => Derives g s i j B d ∧ d.unaryHeight ≤ n) (inside i j B) x)
    (fun n B x y hx hy =>
      show Covers _ _ (Accumulator.best.combine x y) from hx.best hy (hsucc n B))
    (fun n B x y hx hy hvoid => hx.void hy hvoid (hsucc n B))
    (fun n level hlevel B _ => covers_upScore hmax hsymbols n level hlevel)
    (fun level hvoid B _ => upScore_best_le level hvoid B)
    (fun x hx => MonotoneScore.beq_impossible_iff.1 hx) (fun B _ => hbase B)
    (fun B _ => (hbase B).of_imp fun d ⟨hd, hheight⟩ => ⟨hd, Nat.le_zero.1 hheight⟩)
    (c.symbols i j).length hA
  refine ⟨hcovers.le_bound, ?_⟩
  rcases (hmax i j A).attained with himp | ⟨d, hd, hscore⟩
  · exact himp ▸ Score.impossible_le _
  · rw [← hscore]
    refine score_le_of_possible fun hpos => ?_
    -- a best derivation without detours is not higher than the levels go
    obtain ⟨e, he, hstraight, hbetter⟩ := hd.exists_straight_ge hnonpos
    have hlive : ∀ k l B d, Derives g s k l B d → Score.impossible < d.score →
        Score.impossible < inside k l B := fun k l B d hd hpos =>
      Score.lt_of_lt_of_le hpos ((hmax k l B).score_le d hd)
    have hheight := (he.of_possible hlive
      (Score.lt_of_lt_of_le hpos hbetter)).unaryHeight_lt_of_straight hstraight hsymbols
    exact Score.le_trans hbetter (hcovers.score_le e ⟨he, by omega⟩)

end Cell

/-! ## The pass -/

/-- Over maxima the inside pass by the best alternative changes no score. -/
theorem resum_best (hnonpos : ∀ p ∈ g.productions, p.logProb ≤ 0) (hc : c.Sound g)
    (hmax : ∀ i j A, IsMaximum (Derives g s i j A) (c.inside i j A)) :
    Reweighed c (c.resum .best g s.terminals) ∧ ∀ i j A,
      (c.resum .best g s.terminals).inside i j A ≤ c.inside i j A ∧
        c.inside i j A ≤ (c.resum .best g s.terminals).inside i j A := by
  refine spansUp_induction (P := fun _ c' => Reweighed c c' ∧ ∀ i j A,
    c'.inside i j A ≤ c.inside i j A ∧ c.inside i j A ≤ c'.inside i j A)
    ⟨.refl c, fun i j A => ⟨Score.le_refl _, Score.le_refl _⟩⟩ fun visited i j c' hij hj _ _ _ hv => ?_
  obtain ⟨hsame, heq⟩ := hv
  have hc' := hsame.sound hc
  obtain ⟨hstep, hcell, hother⟩ := resumCell_spec .best hc' hij (hsame.size_eq ▸ hj) s.terminals
  refine ⟨hsame.trans hstep, fun k l A => ?_⟩
  by_cases hA : A ∈ c'.symbols k l
  · by_cases hkl : k = i ∧ l = j
    · obtain ⟨rfl, rfl⟩ := hkl
      rw [hcell A hA]
      exact resummed_best hmax hnonpos hc' (fun k l B => (heq k l B).1) (fun k l B => (heq k l B).2) hA
    · rw [hother k l A hkl]
      exact heq k l A
  · have hA' : A ∉ c.symbols k l := by rwa [← hsame.symbols_eq]
    rw [inside_of_not_mem hc hA',
      inside_of_not_mem (hstep.sound hc') (by rwa [hstep.symbols_eq])]
    exact ⟨Score.le_refl _, Score.le_refl _⟩

end PackedChart

end Constituency
