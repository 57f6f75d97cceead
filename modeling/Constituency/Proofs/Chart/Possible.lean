import Constituency.Proofs.Chart.Inside
import Constituency.Proofs.Direct

/-!
# The posterior passes lose no derivation

If the sums of possible scores are possible, then so is the inside score of every entry with a possible
derivation from entries of the chart, and the outside score of every entry that a possible derivation of
the sentence leads down to. Unary rules may run in circles here: a pass follows their chains as far as a
derivation without detours goes.
-/

namespace Constituency

namespace PackedChart

variable {α : Type} [Score α] [LosslessScore α] {acc : Accumulator α} {g : Grammar α}
  {s : Sentence} {c c' : PackedChart α} {P : Nat → Nat → Production α → Prop} {i j m : Nat}
  {A B C : NonTerminal} {p : Production α} {symbols : List NonTerminal}
  {level : NonTerminal → α}

omit [LosslessScore α] in
/-- If a combination is never below its parts, neither is a combination of many. -/
theorem le_foldl_combine [MonotoneScore α]
    (hle : ∀ a b, a ≤ acc.combine a b ∧ b ≤ acc.combine a b) {x y : α} {xs : List α}
    (h : y ≤ x ∨ ∃ z ∈ xs, y ≤ z) : y ≤ xs.foldl acc.combine x := by
  induction xs generalizing x with
  | nil => exact h.resolve_right fun ⟨z, hz, _⟩ => by cases hz
  | cons w rest ih =>
    refine ih ?_
    rcases h with hx | ⟨z, hz, hy⟩
    · exact .inl (Score.le_trans hx (hle x w).1)
    · rcases List.mem_cons.1 hz with rfl | hz
      · exact .inl (Score.le_trans hy (hle x z).2)
      · exact .inr ⟨z, hz, hy⟩

theorem possible_total {x : α} {xs : List α} (hx : x ∈ xs) (hpos : Score.impossible < x) :
    Score.impossible < total acc xs :=
  Score.lt_of_lt_of_le hpos (le_foldl_combine acc.le_combine (.inr ⟨x, hx, Score.le_refl x⟩))

/-! ## Levels -/

section Levels

variable {next : (NonTerminal → α) → NonTerminal → α} {sums : NonTerminal → α}
  -- The symbols that chains of each length lead to.
  (reached : Nat → NonTerminal → Prop)
  (hstep : ∀ n level, (∀ A, reached n A → Score.impossible < level A) →
    ∀ A, reached (n + 1) A → Score.impossible < next level A)
  (hprev : ∀ n A, reached (n + 1) A → ∃ B, reached n B)
  (hmem : ∀ n A, reached n A → A ∈ symbols)
include hstep hprev hmem

/-- A level that is reached is not passed over. -/
theorem possible_addScores {n : Nat} (hlevel : ∀ A, reached n A → Score.impossible < level A)
    (hsums : ∀ A, reached n A → Score.impossible < sums A) (length : Nat) {steps : Nat}
    (hle : length ≤ steps) (hA : reached (n + length) A ∨ Score.impossible < sums A) :
    Score.impossible < addScores acc next symbols steps level sums A := by
  induction steps generalizing n length level sums with
  | zero =>
    obtain rfl := Nat.le_zero.1 hle
    exact hA.elim (hsums A) id
  | succ steps ih =>
    have hnext := hstep n level hlevel
    have hcombined : Score.impossible < sums A →
        Score.impossible < acc.combine (sums A) (next level A) := fun hpos =>
      Score.lt_of_lt_of_le hpos (acc.le_combine _ _).1
    rw [addScores]
    split
    · next hall =>
      rcases hA with hA | hpos
      · cases length with
        | zero => exact hsums A hA
        | succ length =>
          -- the pass would have ended before the level of the symbol
          have hfirst : ∀ length A, reached (n + 1 + length) A → ∃ B, reached (n + 1) B := by
            intro length
            induction length with
            | zero => exact fun A hA => ⟨A, hA⟩
            | succ length ih =>
              intro A hA
              obtain ⟨B, hB⟩ := hprev _ A hA
              exact ih B hB
          obtain ⟨B, hB⟩ := hfirst length A
            (by rwa [show n + 1 + length = n + (length + 1) by omega])
          have hdead := List.all_eq_true.1 hall B (hmem _ B hB)
          exact absurd (hnext B hB) (Score.not_lt.2 (MonotoneScore.beq_impossible_iff.1 hdead))
      · exact hpos
    · cases length with
      | zero =>
        refine ih hnext (fun B hB => ?_) 0 (Nat.zero_le _)
          (.inr (hcombined (hA.elim (hsums A) id)))
        exact Score.lt_of_lt_of_le (hnext B hB) (acc.le_combine _ _).2
      | succ length =>
        refine ih hnext (fun B hB => ?_) length (Nat.le_of_succ_le_succ hle)
          (hA.imp (fun hA => ?_) hcombined)
        · exact Score.lt_of_lt_of_le (hnext B hB) (acc.le_combine _ _).2
        · rwa [show n + 1 + length = n + (length + 1) by omega]

end Levels

theorem possible_upScore (hp : p ∈ g.productions) (hpc : p.children = .unary B)
    (hrule : Score.impossible < p.logProb) (hB : B ∈ symbols)
    (hlevel : Score.impossible < level B) :
    Score.impossible < upScore acc g symbols level p.parent := by
  refine possible_total (List.mem_flatMap.2 ⟨B, hB, ?_⟩)
    (LosslessScore.impossible_lt_add hrule hlevel)
  rw [if_neg (by rw [Score.beq_impossible_eq_false_iff.2 hlevel]; decide)]
  refine List.mem_map.2 ⟨p, List.mem_filter.2 ⟨?_, beq_self_eq_true _⟩, rfl⟩
  exact Grammar.mem_byUnaryChild.2 ⟨hp, hpc⟩

theorem possible_downScore (hp : p ∈ g.productions) (hpc : p.children = .unary B)
    (hrule : Score.impossible < p.logProb) (hparent : p.parent ∈ symbols)
    (hlevel : Score.impossible < level p.parent) :
    Score.impossible < downScore acc g symbols level B := by
  refine possible_total (List.mem_filterMap.2 ⟨p, Grammar.mem_byUnaryChild.2 ⟨hp, hpc⟩, ?_⟩)
    (LosslessScore.impossible_lt_add hlevel hrule)
  rw [if_pos ⟨hparent, hlevel⟩]

/-! ## Inside -/

omit [LosslessScore α] in
theorem live_of_possible [MonotoneScore α] (hc : c.Sound g)
    (hpos : Score.impossible < c.inside i j A) : c.Live i j A := by
  refine (mem_symbols hc).1 (Classical.byContradiction fun hA => ?_)
  rw [inside_of_not_mem hc hA] at hpos
  exact Score.not_impossible_lt_impossible hpos

omit [LosslessScore α] in
theorem mem_binaryInside [MonotoneScore α] (hc : c.Sound g) (hp : p ∈ g.productions)
    (hpc : p.children = .binary B C) (hm : i < m ∧ m < j) (hB : B ∈ c.symbols i m)
    (hC : Score.impossible < c.inside m j C) :
    p.logProb + c.inside i m B + c.inside m j C ∈ c.binaryInside g i j p.parent := by
  refine List.mem_flatMap.2 ⟨m, mem_midpoints.2 hm, List.mem_flatMap.2 ⟨(B, c.inside i m B), ?_,
    List.mem_filterMap.2 ⟨p, Grammar.mem_byLeftChild.2 ⟨hp, C, hpc⟩, ?_⟩⟩⟩
  · rw [scored_eq hc]
    refine List.mem_map.2 ⟨B, List.mem_filter.2 ⟨hB, ?_⟩, rfl⟩
    rw [hc.classes_eq]
    exact Grammar.isLeft_of_mem hp hpc
  · simp [hpc, hC]

/-- The score of an entry without unary rules is possible if it has a possible derivation without a unary
rule on top. -/
theorem possible_baseScore (hc : c.Sound g) {live : Nat → Nat → NonTerminal → Prop}
    (hbelow : ∀ k l B d, k < l → l - k < j - i → DerivesIn g s live k l B d → d.Direct P k →
      Score.impossible < c.inside k l B) {d : Derivation α} (h : DerivesIn g s live i j A d)
    (hd : d.Direct P i) (hbase : d.unaryHeight = 0) :
    Score.impossible < baseScore acc c g s.terminals i j A := by
  cases h with
  | @word _ p word mem children terminal alive =>
    rw [baseScore, if_pos rfl, show s.terminals[i]?.join = s.terminal? i from rfl, terminal]
    dsimp only
    rw [← children, Grammar.logProb_of_mem mem]
    exact hd.possible
  | unary => cases hbase
  | @binary _ m _ p B C e f mem children leftBelow rightBelow alive =>
    obtain ⟨hrule, hleft, hright⟩ := hd.of_binary
    rw [← leftBelow.stop_eq] at hright
    have hlt := leftBelow.start_lt
    have hlt' := rightBelow.start_lt
    have hleftPos := hbelow i m B e hlt (by omega) leftBelow hleft
    have hrightPos := hbelow m j C f hlt' (by omega) rightBelow hright
    rw [baseScore, if_neg (by omega)]
    exact possible_total (mem_binaryInside hc mem children ⟨hlt, hlt'⟩
      ((mem_symbols hc).2 (live_of_possible hc hleftPos)) hrightPos)
      (LosslessScore.impossible_lt_add (LosslessScore.impossible_lt_add hrule hleftPos) hrightPos)

theorem possible_resummed (hc : c.Sound g) {live : Nat → Nat → NonTerminal → Prop}
    (hlive : ∀ B, live i j B → B ∈ c.symbols i j)
    (hbelow : ∀ k l B d, k < l → l - k < j - i → DerivesIn g s live k l B d → d.Direct P k →
      Score.impossible < c.inside k l B) {d : Derivation α} (h : DerivesIn g s live i j A d)
    (hd : d.Direct P i) : Score.impossible < resummed acc c g s.terminals i j A := by
  have hbase : ∀ A, (∃ d, DerivesIn g s live i j A d ∧ d.Direct P i ∧ d.unaryHeight = 0) →
      Score.impossible < baseScore acc c g s.terminals i j A := by
    rintro A ⟨d, h, hd, hheight⟩
    exact possible_baseScore hc hbelow h hd hheight
  have hheight := h.unaryHeight_lt_of_straight hd.straight hlive
  refine possible_addScores
    (fun n A => ∃ d, DerivesIn g s live i j A d ∧ d.Direct P i ∧ d.unaryHeight = n)
    (fun n level hlevel A => ?_) (fun n A => ?_) (fun n A => ?_) hbase hbase d.unaryHeight
    (Nat.le_of_lt hheight) (.inl ⟨d, h, hd, (Nat.zero_add _).symm⟩)
  · rintro ⟨d, h, hd, hn⟩
    cases h with
    | word | binary => cases hn
    | unary mem children below alive =>
      obtain ⟨hrule, -, hchild⟩ := hd.of_unary
      exact possible_upScore mem children hrule (hlive _ below.alive)
        (hlevel _ ⟨_, below, hchild, Nat.succ.inj hn⟩)
  · rintro ⟨d, h, hd, hn⟩
    cases h with
    | word | binary => cases hn
    | unary mem children below alive =>
      exact ⟨_, _, below, hd.of_unary.2.2, Nat.succ.inj hn⟩
  · rintro ⟨d, h, -⟩
    exact hlive A h.alive

/-- What has a possible derivation from entries of the chart has a possible inside score. -/
theorem possible_resum (hc : c.Sound g) {d : Derivation α} (h : DerivesIn g s c.Live i j A d)
    (hd : d.Direct P i) : Score.impossible < (c.resum acc g s.terminals).inside i j A := by
  refine resum_induction (P := fun i j A x => ∀ d, DerivesIn g s c.Live i j A d → d.Direct P i →
    Score.impossible < x) acc hc s.terminals (fun i j A hA d h => ?_)
    (fun c' i j A hsame hij _ hparts d h hd => ?_) i j A d h hd
  · exact absurd ((mem_symbols hc).2 h.alive) hA
  · have hlive : ∀ i j A, c.Live i j A → A ∈ c'.symbols i j := fun i j A hA => by
      rw [hsame.symbols_eq]
      exact (mem_symbols hc).2 hA
    exact possible_resummed (hsame.sound hc) (hlive i j)
      (fun k l B e hlt hshort he hde => hparts k l B hlt hshort e he hde) h hd

/-! ## Outside -/

/-- A possible binary rule leads from the first place down to the second one, whose sister is possible. -/
inductive Hands (g : Grammar α) (c : PackedChart α) : Place → Place → Prop
  | left {i m j : Nat} {p : Production α} {B C : NonTerminal} (mem : p ∈ g.productions)
      (children : p.children = .binary B C) (rule : Score.impossible < p.logProb)
      (mid : i < m ∧ m < j) (left : Score.impossible < c.inside i m B)
      (right : Score.impossible < c.inside m j C) : Hands g c (i, j, p.parent) (i, m, B)
  | right {i m j : Nat} {p : Production α} {B C : NonTerminal} (mem : p ∈ g.productions)
      (children : p.children = .binary B C) (rule : Score.impossible < p.logProb)
      (mid : i < m ∧ m < j) (left : Score.impossible < c.inside i m B)
      (right : Score.impossible < c.inside m j C) : Hands g c (i, j, p.parent) (m, j, C)

/-- Possible rules lead from the start symbol over the sentence down to a place, the last ones of them a
number of unary rules. No chain of unary rules on the way is longer than the cell has symbols. -/
inductive Reached (g : Grammar α) (c : PackedChart α) : Nat → Place → Prop
  | root (possible : Score.impossible < c.inside 0 c.size g.start) :
      Reached g c 0 (0, c.size, g.start)
  | unary {n i j : Nat} {p : Production α} {B : NonTerminal}
      (above : Reached g c n (i, j, p.parent)) (mem : p ∈ g.productions)
      (children : p.children = .unary B) (rule : Score.impossible < p.logProb)
      (alive : B ∈ c.symbols i j) : Reached g c (n + 1) (i, j, B)
  | binary {n : Nat} {u v : Place} (above : Reached g c n u)
      (short : n ≤ (c.symbols u.1 u.2.1).length) (hands : Hands g c u v) : Reached g c 0 v

omit [LosslessScore α] in
theorem Hands.shorter {u v : Place} (h : Hands g c u v) :
    v.1 < v.2.1 ∧ v.2.1 - v.1 < u.2.1 - u.1 := by
  cases h <;> dsimp only <;> omega

theorem Hands.mem_symbols {u v : Place} (hc : c.Sound g) (h : Hands g c u v) :
    v.2.2 ∈ c.symbols v.1 v.2.1 := by
  cases h with
  | left _ _ _ _ left _ => exact (PackedChart.mem_symbols hc).2 (live_of_possible hc left)
  | right _ _ _ _ _ right => exact (PackedChart.mem_symbols hc).2 (live_of_possible hc right)

theorem Reached.mem_symbols {n : Nat} {v : Place} (hc : c.Sound g) (h : Reached g c n v) :
    v.2.2 ∈ c.symbols v.1 v.2.1 := by
  cases h with
  | root possible => exact (PackedChart.mem_symbols hc).2 (live_of_possible hc possible)
  | unary _ _ _ _ alive => exact alive
  | binary _ _ hands => exact hands.mem_symbols hc

/-- What a possible place hands down is possible. -/
theorem Hands.exists_contribution {u v : Place} (hc : c.Sound g) (h : Hands g c u v)
    (hsame : SameInside c c') (hpos : Score.impossible < c'.outside u.1 u.2.1 u.2.2) :
    ∃ x ∈ c'.binaryOutside g u.1 u.2.1,
      v = (x.start, x.stop, x.nonterminal) ∧ Score.impossible < x.score := by
  have hc' := hsame.sound hc
  have hcontribute : ∀ {i m j p B C}, p ∈ g.productions → p.children = .binary B C →
      Score.impossible < p.logProb → i < m ∧ m < j → Score.impossible < c.inside i m B →
      Score.impossible < c.inside m j C → Score.impossible < c'.outside i j p.parent →
      (⟨i, m, B, c'.outside i j p.parent + p.logProb + c'.inside m j C⟩ : Contribution α) ∈
          c'.binaryOutside g i j ∧
        (⟨m, j, C, c'.outside i j p.parent + p.logProb + c'.inside i m B⟩ : Contribution α) ∈
          c'.binaryOutside g i j := by
    intro i m j p B C hp hpc hrule hm hB hC hparent
    have hmem : ∀ x ∈ ([⟨i, m, B, c'.outside i j p.parent + p.logProb + c'.inside m j C⟩,
        ⟨m, j, C, c'.outside i j p.parent + p.logProb + c'.inside i m B⟩] : List (Contribution α)),
        x ∈ c'.binaryOutside g i j := by
      intro x hx
      refine List.mem_flatMap.2 ⟨m, mem_midpoints.2 hm,
        List.mem_flatMap.2 ⟨(B, c'.inside i m B), ?_,
          List.mem_flatMap.2 ⟨p, Grammar.mem_byLeftChild.2 ⟨hp, C, hpc⟩, ?_⟩⟩⟩
      · rw [scored_eq hc']
        refine List.mem_map.2 ⟨B, List.mem_filter.2 ⟨?_, ?_⟩, rfl⟩
        · rw [hsame.symbols_eq]
          exact (PackedChart.mem_symbols hc).2 (live_of_possible hc hB)
        · rw [hc'.classes_eq]
          exact Grammar.isLeft_of_mem hp hpc
      · rw [← hsame.inside_eq] at hC
        simpa [hpc, Score.beq_impossible_eq_false_iff.2 hparent,
          Score.beq_impossible_eq_false_iff.2 hC] using hx
    exact ⟨hmem _ List.mem_cons_self, hmem _ (List.mem_cons_of_mem _ List.mem_cons_self)⟩
  cases h with
  | left mem children rule mid left right =>
    refine ⟨_, (hcontribute mem children rule mid left right hpos).1, rfl, ?_⟩
    rw [hsame.inside_eq]
    exact LosslessScore.impossible_lt_add (LosslessScore.impossible_lt_add hpos rule) right
  | right mem children rule mid left right =>
    refine ⟨_, (hcontribute mem children rule mid left right hpos).2, rfl, ?_⟩
    rw [hsame.inside_eq]
    exact LosslessScore.impossible_lt_add (LosslessScore.impossible_lt_add hpos rule) left

theorem possible_foldl_receive {v : Place} {x : α} {xs : List (Contribution α)}
    (h : Score.impossible < x ∨
      ∃ y ∈ xs, v = (y.start, y.stop, y.nonterminal) ∧ Score.impossible < y.score) :
    Score.impossible < xs.foldl (receive acc v.1 v.2.1 v.2.2) x := by
  induction xs generalizing x with
  | nil => exact h.resolve_right fun ⟨y, hy, _⟩ => by cases hy
  | cons z rest ih =>
    refine ih ?_
    rw [receive]
    rcases h with hpos | ⟨y, hy, rfl, hpos⟩
    · left
      split
      · exact Score.lt_of_lt_of_le hpos (acc.le_combine _ _).1
      · exact hpos
    · rcases List.mem_cons.1 hy with rfl | hy
      · left
        rw [if_pos ⟨⟨rfl, rfl, rfl⟩, Score.beq_impossible_eq_false_iff.2 hpos⟩]
        exact Score.lt_of_lt_of_le hpos (acc.le_combine _ _).2
      · exact .inr ⟨y, hy, rfl, hpos⟩

/-- What is possible outside when some spans have been visited. -/
structure Opened (g : Grammar α) (c : PackedChart α) (visited : List (Nat × Nat))
    (c' : PackedChart α) : Prop where
  same : SameInside c c'
  root : Score.impossible < c.inside 0 c.size g.start →
    Score.impossible < c'.outside 0 c.size g.start
  done : ∀ n i j A, (i, j) ∈ visited → Reached g c n (i, j, A) →
    n ≤ (c.symbols i j).length → Score.impossible < c'.outside i j A
  handed : ∀ n u v, (u.1, u.2.1) ∈ visited → Reached g c n u →
    n ≤ (c.symbols u.1 u.2.1).length → Hands g c u v →
      Score.impossible < c'.outside v.1 v.2.1 v.2.2

theorem opened_unsurrounded (hc : c.Sound g) : Opened g c [] (c.unsurrounded g) := by
  obtain ⟨hsame, hout⟩ := unsurrounded_spec hc
  refine ⟨hsame, fun hpos => ?_, fun n i j A hmem => absurd hmem List.not_mem_nil,
    fun n u v hmem => absurd hmem List.not_mem_nil⟩
  rw [hout 0 c.size g.start ((mem_symbols hc).2 (live_of_possible hc hpos)), if_pos ⟨⟨rfl, rfl⟩, rfl⟩]
  exact (Score.impossible_lt_of_add
    (Score.lt_of_lt_of_le hpos (LosslessScore.le_add_zero _))).2

/-- The completed outside score of a place that is reached is possible. -/
theorem possible_completed (hc : c.Sound g) (hsame : SameInside c c') (hj : j ≤ c.size)
    {visited : List (Nat × Nat)} (hv : Opened g c visited c')
    (hlonger : ∀ k l, k < l → l ≤ c.size → j - i < l - k → (k, l) ∈ visited) {n : Nat}
    (h : Reached g c n (i, j, A)) (hn : n ≤ (c.symbols i j).length) :
    Score.impossible < completed acc c' g i j A := by
  have hbase : ∀ A, Reached g c 0 (i, j, A) → Score.impossible < c'.outside i j A := by
    intro A hA
    generalize hplace : (i, j, A) = v at hA
    cases hA with
    | root possible =>
      obtain ⟨rfl, rfl, rfl⟩ := hplace
      exact hv.root possible
    | @binary n u v above short hands =>
      subst hplace
      have hshort := hands.shorter
      have hbounds := hc.bounds_of_live ((mem_symbols hc).1 (above.mem_symbols hc))
      refine hv.handed n u _ (hlonger _ _ hbounds.1 hbounds.2 hshort.2) above short hands
  rw [completed, hsame.symbols_eq]
  refine possible_addScores (fun n A => Reached g c n (i, j, A))
    (fun n level hlevel A hA => ?_) (fun n A hA => ?_) (fun n A hA => hA.mem_symbols hc) hbase hbase
    n hn (.inl (by rwa [Nat.zero_add]))
  · cases hA with
    | unary above mem children rule alive =>
      exact possible_downScore mem children rule (above.mem_symbols hc) (hlevel _ above)
  · cases hA with
    | unary above mem children rule alive => exact ⟨_, above⟩

/-- What is possible outside stays so when a cell is completed. -/
theorem possible_complete (hc : c.Sound g) (i j : Nat) {v : Place}
    (hsymbol : v.2.2 ∈ c.symbols v.1 v.2.1)
    (hpos : Score.impossible < c.outside v.1 v.2.1 v.2.2) :
    Score.impossible < (complete acc g c i j).outside v.1 v.2.1 v.2.2 := by
  rw [outside_complete hc i j hsymbol]
  split
  · next heq =>
    rw [heq.1, heq.2] at hpos
    exact possible_addScores (fun _ _ => False) (fun _ _ _ _ => False.elim)
      (fun _ _ => False.elim) (fun _ _ => False.elim) (n := 0) (fun _ => False.elim)
      (fun _ => False.elim) 0 (Nat.zero_le _) (.inr hpos)
  · exact hpos

/-- Behind the visit of a cell is possible what has been possible in the completed chart, or has been
handed a possible score. -/
theorem possible_passDown (hc : c.Sound g) {v : Place} (hsymbol : v.2.2 ∈ c.symbols v.1 v.2.1)
    (h : Score.impossible < (complete acc g c i j).outside v.1 v.2.1 v.2.2 ∨
      ∃ y ∈ (complete acc g c i j).binaryOutside g i j,
        v = (y.start, y.stop, y.nonterminal) ∧ Score.impossible < y.score) :
    Score.impossible < (passDown acc g c (i, j)).outside v.1 v.2.1 v.2.2 := by
  rw [(passDown_spec acc hc i j).2 _ _ _ hsymbol]
  exact possible_foldl_receive h

theorem passDown_opened (hc : c.Sound g) (hj : j ≤ c.size) {visited : List (Nat × Nat)}
    (hlonger : ∀ k l, k < l → l ≤ c.size → j - i < l - k → (k, l) ∈ visited)
    (hv : Opened g c visited c') :
    Opened g c (visited ++ [(i, j)]) (passDown acc g c' (i, j)) := by
  have hc' := hv.same.sound hc
  have hcomplete := hv.same.trans (sameInside_complete acc (hv.same.sound hc) i j)
  have hsymbols : ∀ {v : Place}, v.2.2 ∈ c.symbols v.1 v.2.1 → v.2.2 ∈ c'.symbols v.1 v.2.1 :=
    fun hsymbol => by rwa [hv.same.symbols_eq]
  have hhere : ∀ {n A}, Reached g c n (i, j, A) → n ≤ (c.symbols i j).length →
      Score.impossible < (complete acc g c' i j).outside i j A := by
    intro n A hA hn
    rw [outside_complete hc' i j (hsymbols (hA.mem_symbols hc)), if_pos ⟨rfl, rfl⟩]
    exact possible_completed hc hv.same hj hv hlonger hA hn
  have hbefore : ∀ v : Place, v.2.2 ∈ c.symbols v.1 v.2.1 →
      Score.impossible < c'.outside v.1 v.2.1 v.2.2 →
      Score.impossible < (complete acc g c' i j).outside v.1 v.2.1 v.2.2 :=
    fun v hsymbol => possible_complete hc' i j (hsymbols hsymbol)
  refine ⟨hv.same.trans (passDown_spec acc hc' i j).1, fun hpos => ?_,
    fun n k l A hkl hA hn => ?_, fun n u v hu hA hn hands => ?_⟩
  · have hroot := (mem_symbols hc).2 (live_of_possible hc hpos)
    exact possible_passDown hc' (v := (0, c.size, g.start)) (hsymbols hroot)
      (.inl (hbefore _ hroot (hv.root hpos)))
  · have hsymbol := hA.mem_symbols hc
    refine possible_passDown hc' (v := (k, l, A)) (hsymbols hsymbol) (.inl ?_)
    rw [List.mem_append, List.mem_singleton, Prod.mk.injEq] at hkl
    rcases hkl with hkl | ⟨rfl, rfl⟩
    · exact hbefore (k, l, A) hsymbol (hv.done n k l A hkl hA hn)
    · exact hhere hA hn
  · have hsymbol := hands.mem_symbols hc
    refine possible_passDown hc' (hsymbols hsymbol) ?_
    rw [List.mem_append, List.mem_singleton, Prod.mk.injEq] at hu
    rcases hu with hu | ⟨rfl, rfl⟩
    · exact .inl (hbefore v hsymbol (hv.handed n u v hu hA hn hands))
    · exact .inr (hands.exists_contribution hc hcomplete (hhere hA hn))

/-- What possible rules reach from the start symbol has a possible outside score. -/
theorem possible_surround (hc : c.Sound g) {n : Nat} (h : Reached g c n (i, j, A))
    (hn : n ≤ (c.symbols i j).length) : Score.impossible < (c.surround acc g).outside i j A := by
  have hpass : Opened g c (spansDown c.size) (c.surround acc g) :=
    spansDown_induction (opened_unsurrounded hc) fun visited i j c' _ hj _ hlonger _ hv =>
      passDown_opened hc hj hlonger hv
  have hbounds := hc.bounds_of_live ((mem_symbols hc).1 (h.mem_symbols hc))
  exact hpass.done n i j A (mem_spansDown.2 hbounds) h hn

end PackedChart

end Constituency
