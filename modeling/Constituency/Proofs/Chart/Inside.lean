import Constituency.Proofs.Chart.Posterior
import Constituency.Proofs.Context
import Constituency.Proofs.Score.Extended
import Constituency.Proofs.Total
import Constituency.Sentence

/-!
# The inside pass adds up all derivations

With exact scores, and without cycles of unary rules, the inside score of an entry stands for all of its
derivations from entries of the chart. A level of unary rules adds those with one more unary rule on top;
no chain is longer than the row, so that no level is left out.
-/

namespace Constituency

namespace PackedChart

/-- The chart has an entry for the symbol. -/
def Live {α : Type} (c : PackedChart α) (start stop : Nat) (nt : NonTerminal) : Prop :=
  (c.get? start stop nt).isSome = true

theorem Sound.bounds_of_live {α : Type} [Score α] {g : Grammar α} {c : PackedChart α} {i j : Nat}
    {A : NonTerminal} (h : c.Sound g) (hA : c.Live i j A) : i < j ∧ j ≤ c.size := by
  obtain ⟨e, he⟩ := Option.isSome_iff_exists.1 hA
  obtain ⟨hij, hj, -⟩ := h.bounds he
  exact ⟨hij, hj⟩

variable {α R : Type} [Score α] [CommSemiring R] {weight : α → R} {acc : Accumulator α}
  {g : Grammar α} {s : Sentence} {c : PackedChart α} {live : Nat → Nat → NonTerminal → Prop}
  {i j k l : Nat} {A : NonTerminal} {symbols : List NonTerminal}

/-! ## Levels -/

theorem weight_foldl_combine (h : acc.Exact R weight) (x : α) (xs : List α) :
    weight (xs.foldl acc.combine x) = weight x + (xs.map weight).sum := by
  induction xs generalizing x with
  | nil => simp
  | cons y rest ih =>
    rw [List.foldl_cons, ih, h.combine, List.map_cons, List.sum_cons, add_assoc]

theorem weight_total (h : acc.Exact R weight) (xs : List α) :
    weight (total acc xs) = (xs.map weight).sum := by
  rw [total, weight_foldl_combine h, h.impossible, zero_add]

section Levels

variable {next : (NonTerminal → α) → NonTerminal → α} {level sums : NonTerminal → α} {n : Nat}
  -- `P` says what the scores of a level stand for, `Q` what those of all levels so far do, and `V` that a
  -- score stands for nothing.
  {P Q : Nat → NonTerminal → α → Prop} {V : α → Prop}
  (hsucc : ∀ n A x y, Q n A x → P (n + 1) A y → Q (n + 1) A (acc.combine x y))
  (hskip : ∀ n A x y, Q n A x → P (n + 1) A y → V y → Q (n + 1) A x)
  (hstep : ∀ n level, (∀ A ∈ symbols, P n A (level A)) →
    ∀ A ∈ symbols, P (n + 1) A (next level A))
  (hvoid : ∀ level, (∀ A ∈ symbols, V (level A)) → ∀ A ∈ symbols, V (next level A))
include hskip hstep hvoid

omit [Score α] in
/-- Above a level without weight there is none. -/
theorem upTo_of_level_void (hlevel : ∀ A ∈ symbols, P n A (level A))
    (hnone : ∀ A ∈ symbols, V (level A)) (hsums : ∀ A ∈ symbols, Q n A (sums A)) (steps : Nat)
    (hA : A ∈ symbols) : Q (n + steps) A (sums A) := by
  induction steps generalizing n level with
  | zero => exact hsums A hA
  | succ steps ih =>
    have hnone' := hvoid level hnone
    have hnext := hstep n level hlevel
    have htotal := ih hnext hnone' fun A hA => hskip n A _ _ (hsums A hA) (hnext A hA) (hnone' A hA)
    rwa [show n + 1 + steps = n + (steps + 1) by omega] at htotal

include hsucc in
/-- The levels from one on are all added up. -/
theorem upTo_addScores (hbeq : ∀ x, (x == Score.impossible) = true → V x)
    (hlevel : ∀ A ∈ symbols, P n A (level A)) (hsums : ∀ A ∈ symbols, Q n A (sums A))
    (steps : Nat) (hA : A ∈ symbols) :
    Q (n + steps) A (addScores acc next symbols steps level sums A) := by
  induction steps generalizing n level sums with
  | zero => exact hsums A hA
  | succ steps ih =>
    have hnext := hstep n level hlevel
    rw [addScores, show n + (steps + 1) = n + 1 + steps by omega]
    split
    · next hall =>
      have hnone : ∀ A ∈ symbols, V (next level A) := fun A hA =>
        hbeq _ (List.all_eq_true.1 hall A hA)
      exact upTo_of_level_void hskip hstep hvoid hnext hnone
        (fun A hA => hskip n A _ _ (hsums A hA) (hnext A hA) (hnone A hA)) steps hA
    · exact ih hnext fun A hA => hsucc n A _ _ (hsums A hA) (hnext A hA)

end Levels

omit [Score α] in
/-- The members of a set up to a height, and those one higher. -/
theorem upTo_union_succ {β : Type} (E : Set β) (height : β → Nat) (n : Nat) :
    {b | b ∈ E ∧ height b ≤ n} ∪ {b | b ∈ E ∧ height b = n + 1} =
      {b | b ∈ E ∧ height b ≤ n + 1} := by
  ext b
  constructor
  · rintro (⟨hb, hle⟩ | ⟨hb, heq⟩)
    · exact ⟨hb, by omega⟩
    · exact ⟨hb, by omega⟩
  · rintro ⟨hb, hle⟩
    rcases Nat.lt_or_eq_of_le hle with hlt | heq
    · exact .inl ⟨hb, by omega⟩
    · exact .inr ⟨hb, heq⟩

omit [Score α] in
theorem disjoint_upTo_succ {β : Type} (E : Set β) (height : β → Nat) (n : Nat) :
    Disjoint {b | b ∈ E ∧ height b ≤ n} {b | b ∈ E ∧ height b = n + 1} := by
  rw [Set.disjoint_left]
  rintro b ⟨-, hle⟩ ⟨-, heq⟩
  omega

omit [Score α] in
theorem hasTotal_succ {β : Type} {E : Set β} {height : β → Nat} {value : β → R} {n : Nat} {x y : R}
    (hsums : HasTotal {b | b ∈ E ∧ height b ≤ n} value x)
    (hnext : HasTotal {b | b ∈ E ∧ height b = n + 1} value y) :
    HasTotal {b | b ∈ E ∧ height b ≤ n + 1} value (x + y) := by
  rw [← upTo_union_succ]
  exact hsums.union hnext (disjoint_upTo_succ E height n)

/-! ## The derivations of an entry -/

/-- The probability of a derivation. -/
def probability (weight : α → R) (d : Derivation α) : R := weight d.score

/-- The derivations of an entry. -/
def below (g : Grammar α) (s : Sentence) (live : Nat → Nat → NonTerminal → Prop) (i j : Nat)
    (A : NonTerminal) : Set (Derivation α) :=
  {d | DerivesIn g s live i j A d}

/-- The left child of a binary rule. -/
def leftChild? : Children → Option NonTerminal
  | .binary left _ => some left
  | .unary _ | .lexical _ => none

omit [Score α] in
theorem mem_below_word (hA : live i (i + 1) A) {d : Derivation α} :
    (d ∈ below g s live i (i + 1) A ∧ d.unaryHeight = 0) ↔
      ∃ p word, d = .word p ∧ p ∈ g.productions ∧ p.parent = A ∧ p.children = .lexical word ∧
        s.terminal? i = some word := by
  constructor
  · rintro ⟨hd, hheight⟩
    cases d with
    | word p =>
      obtain ⟨hp, hpA, -, -, word, hc, hterm⟩ := DerivesIn.word_iff.1 hd
      exact ⟨p, word, rfl, hp, hpA, hc, hterm⟩
    | unary => cases hheight
    | binary p e f =>
      obtain ⟨-, -, -, B, C, m, -, he, hf⟩ := DerivesIn.binary_iff.1 hd
      have hleft := he.start_lt
      have hright := hf.start_lt
      omega
  · rintro ⟨p, word, rfl, hp, rfl, hc, hterm⟩
    exact ⟨.word hp hc hterm hA, rfl⟩

theorem hasTotal_word (h : acc.Exact R weight) (hA : live i (i + 1) A) :
    HasTotal {d | d ∈ below g s live i (i + 1) A ∧ d.unaryHeight = 0} (probability weight)
      (weight (match s.terminal? i with
        | some word => g.logProb A (.lexical word)
        | none => Score.impossible)) := by
  cases hterm : s.terminal? i with
  | none =>
    dsimp only
    rw [h.impossible]
    refine (HasTotal.empty _).congr fun d => ⟨fun hd => hd.elim, fun hd => ?_⟩
    obtain ⟨p, word, -, -, -, -, hsome⟩ := (mem_below_word hA).1 hd
    rw [hterm] at hsome
    cases hsome
  | some word =>
    dsimp only
    by_cases hrule : ∃ p ∈ g.productions, p.parent = A ∧ p.children = .lexical word
    · obtain ⟨p, hp, rfl, hc⟩ := hrule
      rw [← hc, Grammar.logProb_of_mem hp]
      refine (HasTotal.singleton (Derivation.word p) (probability weight)).congr fun d => ?_
      refine Iff.trans ?_ (mem_below_word hA).symm
      rw [Set.mem_singleton_iff]
      constructor
      · rintro rfl
        exact ⟨p, word, rfl, hp, rfl, hc, hterm⟩
      · rintro ⟨q, word', rfl, hq, hqA, hqc, hterm'⟩
        obtain rfl := Option.some.inj (hterm.symm.trans hterm')
        rw [Grammar.eq_of_sameRule hq hp hqA (hqc.trans hc.symm)]
    · rw [Grammar.logProb_of_not_mem fun p hp hpA hc => hrule ⟨p, hp, hpA, hc⟩, h.impossible]
      refine (HasTotal.empty _).congr fun d => ⟨fun hd => hd.elim, fun hd => ?_⟩
      obtain ⟨p, word', -, hp, hpA, hc, hterm'⟩ := (mem_below_word hA).1 hd
      obtain rfl := Option.some.inj (hterm.symm.trans hterm')
      exact hrule ⟨p, hp, hpA, hc⟩

omit [Score α] in
theorem mem_below_binary {d : Derivation α} (hone : j ≠ i + 1) :
    (d ∈ below g s live i j A ∧ d.unaryHeight = 0) ↔
      live i j A ∧ ∃ p B C m e f, d = .binary p e f ∧ p ∈ g.productions ∧ p.parent = A ∧
        p.children = .binary B C ∧ e ∈ below g s live i m B ∧ f ∈ below g s live m j C := by
  constructor
  · rintro ⟨hd, hheight⟩
    refine ⟨hd.alive, ?_⟩
    cases d with
    | word p =>
      obtain ⟨-, -, hj, -⟩ := DerivesIn.word_iff.1 hd
      exact absurd hj hone
    | unary => cases hheight
    | binary p e f =>
      obtain ⟨hp, hpA, -, B, C, m, hc, he, hf⟩ := DerivesIn.binary_iff.1 hd
      exact ⟨p, B, C, m, e, f, rfl, hp, hpA, hc, he, hf⟩
  · rintro ⟨hA, p, B, C, m, e, f, rfl, hp, rfl, hc, he, hf⟩
    exact ⟨.binary hp hc he hf hA, rfl⟩

omit [Score α] in
/-- The derivations by a rule from parts that meet at a place are those that the rule, its left child and the
place where they come apart tell apart from all others. -/
theorem image2_binary_eq (hone : j ≠ i + 1) (hA : live i j A) {p : Production α} {B C : NonTerminal}
    (hp : p ∈ g.productions) (hpA : p.parent = A) (hpc : p.children = .binary B C) (m : Nat) :
    Set.image2 (Derivation.binary p) (below g s live i m B) (below g s live m j C) =
      {d | ((((d ∈ below g s live i j A ∧ d.unaryHeight = 0) ∧ some (i + d.leftWidth) = some m) ∧
        leftChild? d.rule.children = some B) ∧ some d.rule = some p)} := by
  ext d
  constructor
  · rintro ⟨e, he, f, hf, rfl⟩
    refine ⟨⟨⟨(mem_below_binary hone).2 ⟨hA, p, B, C, m, e, f, rfl, hp, hpA, hpc, he, hf⟩,
      congrArg some he.stop_eq.symm⟩, ?_⟩, rfl⟩
    rw [Derivation.rule, hpc, leftChild?]
  · rintro ⟨⟨⟨hd, hm⟩, hB⟩, hrule⟩
    obtain ⟨-, q, B', C', m', e, f, rfl, -, -, hqc, he, hf⟩ := (mem_below_binary hone).1 hd
    obtain rfl : q = p := Option.some.inj hrule
    obtain ⟨rfl, rfl⟩ := Children.binary.inj (hqc.symm.trans hpc)
    obtain rfl : m' = m := he.stop_eq.trans (Option.some.inj hm)
    exact ⟨e, he, f, hf, rfl⟩

theorem hasTotal_binary (h : acc.Exact R weight) (hc : c.Sound g)
    (hlive : ∀ i j A, live i j A ↔ A ∈ c.symbols i j) (hone : j ≠ i + 1) (hA : live i j A)
    (hparts : ∀ k l B, k < l → l - k < j - i →
      HasTotal (below g s live k l B) (probability weight) (weight (c.inside k l B))) :
    HasTotal {d | d ∈ below g s live i j A ∧ d.unaryHeight = 0} (probability weight)
      (weight (total acc (c.binaryInside g i j A))) := by
  rw [weight_total h, binaryInside]
  refine HasTotal.flatMap (fun d => some (i + d.leftWidth)) (nodup_midpoints i j) (fun d hd => ?_)
    fun m hm => ?_
  · obtain ⟨-, p, B, C, m, e, f, rfl, -, -, -, he, hf⟩ := (mem_below_binary hone).1 hd
    refine ⟨m, mem_midpoints.2 ⟨he.start_lt, hf.start_lt⟩, ?_⟩
    rw [Derivation.leftWidth, ← he.stop_eq]
  rw [mem_midpoints] at hm
  rw [scored_eq hc, List.flatMap_map]
  refine HasTotal.flatMap (fun d => leftChild? d.rule.children) ((nodup_symbols hc i m).filter _)
    (fun d hd => ?_) fun B hB => ?_
  · obtain ⟨-, p, B, C, m', e, f, rfl, hp, -, hpc, he, -⟩ := (mem_below_binary hone).1 hd.1
    obtain rfl : m' = m := he.stop_eq.trans (Option.some.inj hd.2)
    refine ⟨B, List.mem_filter.2 ⟨(hlive _ _ _).1 he.alive, ?_⟩, by rw [Derivation.rule, hpc, leftChild?]⟩
    rw [hc.classes_eq]
    exact Grammar.isLeft_of_mem hp hpc
  refine HasTotal.filterMap (fun d => some d.rule) (g.nodup_byLeftChild B) (fun d hd => ?_)
    fun p hp => ?_
  · obtain ⟨-, p, B', C, m', e, f, rfl, hp, -, hpc, -⟩ := (mem_below_binary hone).1 hd.1.1
    have hB' := hd.2
    rw [Derivation.rule, hpc] at hB'
    obtain rfl := Option.some.inj hB'
    exact ⟨p, Grammar.mem_byLeftChild.2 ⟨hp, C, hpc⟩, rfl⟩
  obtain ⟨hp, C, hpc⟩ := Grammar.mem_byLeftChild.1 hp
  by_cases hpA : p.parent = A
  · have hset := image2_binary_eq (s := s) hone hA hp hpA hpc m
    have hparts : HasTotal (Set.image2 (Derivation.binary p) (below g s live i m B)
        (below g s live m j C)) (probability weight)
        (weight p.logProb * weight (c.inside i m B) * weight (c.inside m j C)) := by
      refine HasTotal.image2 (fun _ _ _ _ _ _ _ _ heq => (Derivation.binary.inj heq).2)
        (hparts m j C hm.2 (by omega)) fun f _ => ?_
      simp only [probability, Derivation.score, h.add, mul_right_comm _ _ (weight f.score)]
      exact (hparts i m B hm.1 (by omega)).mul _
    rw [hset] at hparts
    rw [hpc]
    by_cases hright : Score.impossible < c.inside m j C
    · simpa [hpA, hright, h.add] using hparts
    · simpa [hpA, hright, h.not_possible _ hright] using hparts
  · rw [hpc]
    simp only [beq_eq_false_iff_ne.2 hpA, Bool.false_and]
    refine (HasTotal.empty _).congr fun d => ⟨fun hd => hd.elim, ?_⟩
    rintro ⟨⟨⟨hd, -⟩, -⟩, hrule⟩
    obtain ⟨-, q, -, -, -, e, f, rfl, -, hqA, -⟩ := (mem_below_binary hone).1 hd
    exact hpA (Option.some.inj hrule ▸ hqA)

/-- The child of a unary rule. -/
def onlyChild? : Children → Option NonTerminal
  | .unary child => some child
  | .binary _ _ | .lexical _ => none

omit [Score α] in
theorem mem_below_unary {n : Nat} {d : Derivation α} :
    (d ∈ below g s live i j A ∧ d.unaryHeight = n + 1) ↔
      live i j A ∧ ∃ p B e, d = .unary p e ∧ p ∈ g.productions ∧ p.parent = A ∧
        p.children = .unary B ∧ e ∈ below g s live i j B ∧ e.unaryHeight = n := by
  constructor
  · rintro ⟨hd, hheight⟩
    refine ⟨hd.alive, ?_⟩
    cases d with
    | word | binary => cases hheight
    | unary p e =>
      obtain ⟨hp, hpA, -, B, hpc, he⟩ := DerivesIn.unary_iff.1 hd
      exact ⟨p, B, e, rfl, hp, hpA, hpc, he, Nat.succ.inj hheight⟩
  · rintro ⟨hA, p, B, e, rfl, hp, rfl, hpc, he, rfl⟩
    exact ⟨.unary hp hpc he hA, rfl⟩

theorem weight_upScore (h : acc.Exact R weight) (level : NonTerminal → α) (parent : NonTerminal) :
    weight (upScore acc g symbols level parent) =
      ((symbols.flatMap fun child =>
        ((g.byUnaryChild child).filter (·.parent == parent)).map (·, child)).map fun x =>
          weight x.1.logProb * weight (level x.2)).sum := by
  rw [upScore, weight_total h, List.map_flatMap, List.map_flatMap, List.flatMap_def,
    List.flatMap_def, List.sum_flatten, List.sum_flatten, List.map_map, List.map_map]
  refine congrArg List.sum (List.map_congr_left fun child _ => ?_)
  rw [Function.comp_apply, Function.comp_apply, List.map_map]
  split
  · next himp => simp [Function.comp_def, h.beq_impossible _ himp]
  · rw [List.map_map]
    exact congrArg List.sum (List.map_congr_left fun p _ => h.add _ _)

theorem hasTotal_upScore (h : acc.Exact R weight) (hnodup : symbols.Nodup)
    (hsymbols : ∀ A, live i j A ↔ A ∈ symbols) (n : Nat) (level : NonTerminal → α)
    (hlevel : ∀ A ∈ symbols, HasTotal {d | d ∈ below g s live i j A ∧ d.unaryHeight = n}
      (probability weight) (weight (level A))) (A : NonTerminal) (hA : A ∈ symbols) :
    HasTotal {d | d ∈ below g s live i j A ∧ d.unaryHeight = n + 1} (probability weight)
      (weight (upScore acc g symbols level A)) := by
  rw [weight_upScore h]
  refine HasTotal.flatMap (fun d => onlyChild? d.rule.children) hnodup (fun d hd => ?_) fun B hB => ?_
  · obtain ⟨-, p, B, e, rfl, -, -, hpc, he, -⟩ := mem_below_unary.1 hd
    exact ⟨B, (hsymbols B).1 he.alive, by rw [Derivation.rule, hpc, onlyChild?]⟩
  rw [List.map_map]
  refine HasTotal.fibers (fun d => some d.rule) ((g.nodup_byUnaryChild B).filter _)
    (fun d hd => ?_) fun p hp => ?_
  · obtain ⟨-, p, B', e, rfl, hp, hpA, hpc, -⟩ := mem_below_unary.1 hd.1
    have hB' := hd.2
    rw [Derivation.rule, hpc] at hB'
    obtain rfl := Option.some.inj hB'
    refine ⟨p, ?_, rfl⟩
    rw [List.mem_filter, Grammar.mem_byUnaryChild, beq_iff_eq]
    exact ⟨⟨hp, hpc⟩, hpA⟩
  rw [List.mem_filter, Grammar.mem_byUnaryChild, beq_iff_eq] at hp
  obtain ⟨⟨hp, hpc⟩, hpA⟩ := hp
  refine (HasTotal.image (f := Derivation.unary p) (D := {d | d ∈ below g s live i j B ∧
    d.unaryHeight = n}) (fun _ _ heq => (Derivation.unary.inj heq).2) ?_).congr fun d => ?_
  · simp only [probability, Derivation.score, h.add]
    exact (hlevel B hB).mul _
  · constructor
    · rintro ⟨e, ⟨he, hn⟩, rfl⟩
      refine ⟨⟨mem_below_unary.2 ⟨(hsymbols A).2 hA, p, B, e, rfl, hp, hpA, hpc, he, hn⟩, ?_⟩, rfl⟩
      rw [Derivation.rule, hpc, onlyChild?]
    · rintro ⟨⟨hd, hB'⟩, hrule⟩
      obtain ⟨-, q, B', e, rfl, -, -, hqc, he, hn⟩ := mem_below_unary.1 hd
      obtain rfl : q = p := Option.some.inj hrule
      obtain rfl := Children.unary.inj (hqc.symm.trans hpc)
      exact ⟨e, ⟨he, hn⟩, rfl⟩

theorem weight_upScore_eq_zero (h : acc.Exact R weight) (level : NonTerminal → α)
    (hnone : ∀ A ∈ symbols, weight (level A) = 0) (A : NonTerminal) :
    weight (upScore acc g symbols level A) = 0 := by
  rw [weight_upScore h]
  refine List.sum_eq_zero fun x hx => ?_
  obtain ⟨⟨p, B⟩, hmem, rfl⟩ := List.mem_map.1 hx
  obtain ⟨B', hB', hmem⟩ := List.mem_flatMap.1 hmem
  obtain ⟨p', -, heq⟩ := List.mem_map.1 hmem
  obtain ⟨-, rfl⟩ := Prod.mk.inj heq
  dsimp only
  rw [hnone B' hB', mul_zero]

/-- The visit of a cell upwards adds up the derivations of its entries. -/
theorem hasTotal_resummed (h : acc.Exact R weight) (hg : g.UnaryAcyclic) (hc : c.Sound g)
    (hlive : ∀ i j A, live i j A ↔ A ∈ c.symbols i j)
    (hparts : ∀ k l B, k < l → l - k < j - i →
      HasTotal (below g s live k l B) (probability weight) (weight (c.inside k l B)))
    (hA : A ∈ c.symbols i j) :
    HasTotal (below g s live i j A) (probability weight)
      (weight (resummed acc c g s.terminals i j A)) := by
  have hbase : ∀ A ∈ c.symbols i j, HasTotal {d | d ∈ below g s live i j A ∧ d.unaryHeight = 0}
      (probability weight) (weight (baseScore acc c g s.terminals i j A)) := by
    intro A hA
    unfold baseScore
    split
    · next hone =>
      subst hone
      exact hasTotal_word h ((hlive _ _ _).2 hA)
    · next hone => exact hasTotal_binary h hc hlive hone ((hlive _ _ _).2 hA) hparts
  have hlevels := upTo_addScores (V := (weight · = 0))
    (P := fun n A x =>
      HasTotal {d | d ∈ below g s live i j A ∧ d.unaryHeight = n} (probability weight) (weight x))
    (Q := fun n A x =>
      HasTotal {d | d ∈ below g s live i j A ∧ d.unaryHeight ≤ n} (probability weight) (weight x))
    (fun n A x y hx hy => h.combine x y ▸ hasTotal_succ hx hy)
    (fun n A x y hx hy hzero => by simpa [hzero] using hasTotal_succ hx hy)
    (hasTotal_upScore h (nodup_symbols hc i j) (hlive i j))
    (fun level hnone A _ => weight_upScore_eq_zero h level hnone A) h.beq_impossible hbase
    (fun A hA => (hbase A hA).congr fun d => and_congr_right fun _ => Nat.le_zero.symm) (c.symbols i j).length hA
  refine hlevels.congr fun d => ⟨fun hd => hd.1, fun hd => ⟨hd, ?_⟩⟩
  have := DerivesIn.unaryHeight_lt hg hd fun B hB => (hlive i j B).1 hB
  omega

/-- The inside scores stand for all derivations from entries of the chart. -/
theorem hasTotal_inside (h : acc.Exact R weight) (hg : g.UnaryAcyclic) (hc : c.Sound g)
    (s : Sentence) :
    Reweighed c (c.resum acc g s.terminals) ∧ ∀ i j A,
      HasTotal (below g s c.Live i j A) (probability weight)
        (weight ((c.resum acc g s.terminals).inside i j A)) := by
  refine ⟨reweighed_resum acc hc s.terminals, resum_induction
    (P := fun i j A x => HasTotal (below g s c.Live i j A) (probability weight) (weight x))
    acc hc s.terminals (fun i j A hA => ?_) fun c' i j A hsame hij hA hparts => ?_⟩
  · rw [h.impossible]
    exact (HasTotal.empty _).congr fun d =>
      ⟨fun hd => hd.elim, fun hd => absurd ((mem_symbols hc).2 hd.alive) hA⟩
  · have hlive : ∀ i j A, c.Live i j A ↔ A ∈ c'.symbols i j := fun i j A => by
      rw [hsame.symbols_eq, mem_symbols hc, Live]
    exact hasTotal_resummed h hg (hsame.sound hc) hlive hparts (by rwa [hsame.symbols_eq])

end PackedChart

end Constituency
