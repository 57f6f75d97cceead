import Constituency.Proofs.Chart.Outside
import Constituency.Proofs.Chart.Possible
import Constituency.Proofs.Chart.Supported
import Constituency.Proofs.Single

/-!
# The posterior passes where only one derivation is possible

Unary rules may run in circles, and alternatives may be combined in any way: if an entry of a chart has
one possible derivation only, its inside score is the score of that derivation, and if there is one
possible context of the entry only, the outside score is the score of that context. So the posterior
scores of a chart with a single complete derivation single out its constituents
(`inside_add_outside_of_only`).
-/

namespace Constituency

/-- A list put together from parts that are told apart by a key has no member twice. -/
theorem nodup_flatMap {κ ι : Type} {keys : List κ} {items : κ → List ι} (key : ι → Option κ)
    (hkeys : keys.Nodup) (hitems : ∀ k ∈ keys, (items k).Nodup)
    (hkey : ∀ k ∈ keys, ∀ x ∈ items k, key x = some k) : (keys.flatMap items).Nodup := by
  rw [List.nodup_flatMap]
  refine ⟨hitems, hkeys.imp_of_mem fun {k k'} hk hk' hne => ?_⟩
  intro x hx hx'
  apply hne
  exact Option.some.inj ((hkey k hk x hx).symm.trans (hkey k' hk' x hx'))

/-- The score that a frame adds. -/
def Frame.score {α : Type} [Add α] : Frame α → α
  | unary p => p.logProb
  | left p sister | right p sister => p.logProb + sister.score

/-- The score of all that surrounds a place. -/
def contextScore {α : Type} [Score α] : List (Frame α) → α
  | [] => 0
  | f :: fs => f.score + contextScore fs

/-- A derivation scores what it does by itself and what its context does. -/
theorem score_plug {α : Type} [Score α] [ExactScore α] (fs : List (Frame α)) (d : Derivation α) :
    (plug fs d).score = d.score + contextScore fs := by
  induction fs generalizing d with
  | nil => exact (Score.add_zero _).symm
  | cons f fs ih =>
    have hfill : (f.fill d).score = d.score + f.score := by
      cases f with
      | unary p => exact ExactScore.add_comm _ _
      | left p sister =>
        rw [Frame.fill, Frame.score, Derivation.score, ExactScore.add_comm p.logProb,
          ExactScore.add_assoc]
      | right p sister => exact ExactScore.add_comm _ _
    rw [contextScore, ← ExactScore.add_assoc, ← hfill]
    exact ih (f.fill d)

/-- A derivation in its frames is possible if it is possible by itself and so are the frames. -/
theorem possible_plug_iff {α : Type} [Score α] [LosslessScore α] {fs : List (Frame α)}
    {d : Derivation α} :
    Score.impossible < (plug fs d).score ↔
      Score.impossible < d.score ∧ ∀ f ∈ fs, Score.impossible < f.score := by
  induction fs generalizing d with
  | nil => simp [plug]
  | cons f fs ih =>
    have hfill : Score.impossible < (f.fill d).score ↔
        Score.impossible < d.score ∧ Score.impossible < f.score := by
      cases f <;> simp only [Frame.fill, Frame.score, Derivation.score,
        Score.impossible_lt_add_iff] <;> tauto
    rw [List.forall_mem_cons, ← and_assoc, ← hfill]
    exact ih

namespace PackedChart

variable {α : Type} [Score α] {acc : Accumulator α} {g : Grammar α} {s : Sentence}
  {c c' : PackedChart α} {live : Nat → Nat → NonTerminal → Prop} {i j k l m n : Nat}
  {A B C : NonTerminal} {p : Production α} {symbols : List NonTerminal}

/-! ## Binary rules over a span -/

/-- The binary rules over a span whose left child is there, with their midpoints. -/
def splits (c : PackedChart α) (g : Grammar α) (i j : Nat) : List (Nat × Production α) :=
  (midpoints i j).flatMap fun m =>
    ((c.symbols i m).filter c.classes.isLeft).flatMap fun B => (g.byLeftChild B).map (m, ·)

/-- The score of the right child of a binary rule. -/
def rightScore (c : PackedChart α) (j : Nat) (split : Nat × Production α) : α :=
  match split.2.children with
  | .binary _ right => c.inside split.1 j right
  | _ => Score.impossible

/-- The score of a binary rule over the scores of the halves. -/
def splitScore (c : PackedChart α) (i j : Nat) (split : Nat × Production α) : α :=
  match split.2.children with
  | .binary left right =>
    split.2.logProb + c.inside i split.1 left + c.inside split.1 j right
  | _ => Score.impossible

theorem mem_splits (hc : c.Sound g) :
    (m, p) ∈ c.splits g i j ↔
      (i < m ∧ m < j) ∧ p ∈ g.productions ∧ ∃ B C, p.children = .binary B C ∧
        B ∈ c.symbols i m := by
  simp only [splits, List.mem_flatMap, List.mem_map, List.mem_filter, mem_midpoints,
    Grammar.mem_byLeftChild]
  constructor
  · rintro ⟨m', hm, B, ⟨hB, -⟩, p', ⟨hp, C, hpc⟩, heq⟩
    obtain ⟨rfl, rfl⟩ := Prod.mk.inj heq
    exact ⟨hm, hp, B, C, hpc, hB⟩
  · rintro ⟨hm, hp, B, C, hpc, hB⟩
    refine ⟨m, hm, B, ⟨hB, ?_⟩, p, ⟨hp, C, hpc⟩, rfl⟩
    rw [hc.classes_eq]
    exact Grammar.isLeft_of_mem hp hpc

theorem nodup_splits (hc : c.Sound g) (i j : Nat) : (c.splits g i j).Nodup := by
  refine nodup_flatMap (fun x => some x.1) (nodup_midpoints i j) (fun m _ => ?_) fun m _ x hx => ?_
  · refine nodup_flatMap (fun x => leftChild? x.2.children) ((nodup_symbols hc i m).filter _)
      (fun B _ => (g.nodup_byLeftChild B).map (Prod.mk_right_injective m)) fun B _ x hx => ?_
    obtain ⟨p, hp, rfl⟩ := List.mem_map.1 hx
    obtain ⟨-, C, hpc⟩ := Grammar.mem_byLeftChild.1 hp
    rw [hpc, leftChild?]
  · obtain ⟨B, -, hx⟩ := List.mem_flatMap.1 hx
    obtain ⟨p, -, rfl⟩ := List.mem_map.1 hx
    rfl

theorem binaryInside_eq (hc : c.Sound g) (i j : Nat) (A : NonTerminal) :
    c.binaryInside g i j A =
      ((c.splits g i j).filter fun x =>
        x.2.parent == A && decide (Score.impossible < c.rightScore j x)).map (c.splitScore i j) := by
  rw [← List.filterMap_eq_map', List.filterMap_filter, binaryInside, splits, List.filterMap_flatMap]
  refine List.flatMap_congr fun m _ => ?_
  rw [scored_eq hc, List.flatMap_map, List.filterMap_flatMap]
  refine List.flatMap_congr fun B _ => ?_
  rw [List.filterMap_map]
  refine List.filterMap_congr fun p hp => ?_
  obtain ⟨-, C, hpc⟩ := Grammar.mem_byLeftChild.1 hp
  simp [hpc, rightScore, splitScore]

/-- The binary rules over a span that hand something down, each to its left child and to its right one. -/
def handouts (c : PackedChart α) (g : Grammar α) (i j : Nat) : List ((Nat × Production α) × Bool) :=
  (c.splits g i j).flatMap fun x =>
    if c.outside i j x.2.parent == Score.impossible || c.rightScore j x == Score.impossible then []
    else [(x, true), (x, false)]

/-- What a binary rule hands down to its left or its right child. -/
def handout (c : PackedChart α) (i j : Nat) (x : (Nat × Production α) × Bool) : Contribution α :=
  let (m, p) := x.1
  let context := c.outside i j p.parent + p.logProb
  match p.children, x.2 with
  | .binary left right, true => ⟨i, m, left, context + c.inside m j right⟩
  | .binary left right, false => ⟨m, j, right, context + c.inside i m left⟩
  | _, _ => ⟨i, j, p.parent, Score.impossible⟩

theorem binaryOutside_eq (hc : c.Sound g) (i j : Nat) :
    c.binaryOutside g i j = (c.handouts g i j).map (c.handout i j) := by
  rw [handouts, List.map_flatMap, binaryOutside, splits, List.flatMap_assoc]
  refine List.flatMap_congr fun m _ => ?_
  rw [scored_eq hc, List.flatMap_map, List.flatMap_assoc]
  refine List.flatMap_congr fun B _ => ?_
  rw [List.flatMap_map]
  refine List.flatMap_congr fun p hp => ?_
  obtain ⟨-, C, hpc⟩ := Grammar.mem_byLeftChild.1 hp
  simp only [hpc, rightScore]
  split
  · rfl
  · simp [handout, hpc]

theorem mem_handouts (hc : c.Sound g) {side : Bool} :
    ((m, p), side) ∈ c.handouts g i j ↔
      (i < m ∧ m < j) ∧ p ∈ g.productions ∧ ∃ B C, p.children = .binary B C ∧
        B ∈ c.symbols i m ∧ (c.outside i j p.parent == Score.impossible) = false ∧
        (c.inside m j C == Score.impossible) = false := by
  rw [handouts, List.mem_flatMap]
  constructor
  · rintro ⟨⟨m', p'⟩, hmem, hx⟩
    obtain ⟨hm, hp, B, C, hpc, hB⟩ := (mem_splits hc).1 hmem
    split at hx
    · cases hx
    · next hcond =>
      have hkey : (m, p) = (m', p') := by
        simp only [List.mem_cons, List.not_mem_nil, or_false, Prod.mk.injEq] at hx
        rcases hx with hx | hx
        · exact Prod.ext_iff.2 hx.1
        · exact Prod.ext_iff.2 hx.1
      obtain ⟨rfl, rfl⟩ := Prod.mk.inj hkey
      simp only [rightScore, hpc, Bool.or_eq_true, not_or, Bool.not_eq_true] at hcond
      exact ⟨hm, hp, B, C, hpc, hB, hcond⟩
  · rintro ⟨hm, hp, B, C, hpc, hB, hparent, hright⟩
    refine ⟨(m, p), (mem_splits hc).2 ⟨hm, hp, B, C, hpc, hB⟩, ?_⟩
    simp only [rightScore, hpc, hparent, hright]
    cases side <;> simp

theorem nodup_handouts (hc : c.Sound g) (i j : Nat) : (c.handouts g i j).Nodup := by
  refine nodup_flatMap (fun x => some x.1) (nodup_splits hc i j) (fun x _ => ?_) fun x _ y hy => ?_
  · split
    · exact .nil
    · simp
  · split at hy
    · cases hy
    · simp only [List.mem_cons, List.not_mem_nil, or_false] at hy
      rcases hy with rfl | rfl <;> rfl

/-! ## Unary rules within a row -/

/-- The unary rules over possible children in a row that have a parent. -/
def lifts (g : Grammar α) (symbols : List NonTerminal) (level : NonTerminal → α)
    (parent : NonTerminal) : List (Production α) :=
  symbols.flatMap fun child =>
    if level child == Score.impossible then []
    else (g.byUnaryChild child).filter (·.parent == parent)

/-- The score of a unary rule over the score of its child. -/
def liftScore (level : NonTerminal → α) (p : Production α) : α :=
  match p.children with
  | .unary child => p.logProb + level child
  | _ => Score.impossible

theorem upScore_eq (g : Grammar α) (symbols : List NonTerminal) (level : NonTerminal → α)
    (A : NonTerminal) :
    upScore acc g symbols level A = total acc ((lifts g symbols level A).map (liftScore level)) := by
  rw [upScore, lifts, List.map_flatMap]
  refine congrArg (total acc) (List.flatMap_congr fun B _ => ?_)
  split
  · rfl
  · refine List.map_congr_left fun p hp => ?_
    rw [liftScore, (Grammar.mem_byUnaryChild.1 (List.mem_filter.1 hp).1).2]

theorem mem_lifts {level : NonTerminal → α} :
    p ∈ lifts g symbols level A ↔
      p ∈ g.productions ∧ p.parent = A ∧ ∃ B ∈ symbols, p.children = .unary B ∧
        (level B == Score.impossible) = false := by
  rw [lifts, List.mem_flatMap]
  constructor
  · rintro ⟨B, hB, hp⟩
    split at hp
    · cases hp
    · next hpos =>
      rw [List.mem_filter, Grammar.mem_byUnaryChild, beq_iff_eq] at hp
      exact ⟨hp.1.1, hp.2, B, hB, hp.1.2, Bool.not_eq_true _ ▸ hpos⟩
  · rintro ⟨hp, rfl, B, hB, hpc, hpos⟩
    refine ⟨B, hB, ?_⟩
    rw [if_neg (by simp [hpos]), List.mem_filter, Grammar.mem_byUnaryChild]
    exact ⟨⟨hp, hpc⟩, beq_self_eq_true _⟩

theorem nodup_lifts (hnodup : symbols.Nodup) (level : NonTerminal → α) (A : NonTerminal) :
    (lifts g symbols level A).Nodup := by
  refine nodup_flatMap (fun p => onlyChild? p.children) hnodup (fun B _ => ?_) fun B _ p hp => ?_
  · split
    · exact .nil
    · exact (g.nodup_byUnaryChild B).filter _
  · split at hp
    · cases hp
    · rw [(Grammar.mem_byUnaryChild.1 (List.mem_filter.1 hp).1).2, onlyChild?]

/-! ## Inside -/

section Lossless

variable [LosslessScore α]

theorem tracks_word (hA : live i (i + 1) A) :
    Tracks {d | d ∈ below g s live i (i + 1) A ∧ d.unaryHeight = 0} Derivation.score
      (match s.terminal? i with
        | some word => g.logProb A (.lexical word)
        | none => Score.impossible) where
  sound hpos := by
    split at hpos
    · next word hterm =>
      obtain ⟨p, hp, rfl, hc⟩ := Grammar.exists_of_logProb_ne fun heq =>
        Score.not_impossible_lt_impossible (heq ▸ hpos)
      rw [← hc, Grammar.logProb_of_mem hp] at hpos
      exact ⟨.word p, (mem_below_word hA).2 ⟨p, word, rfl, hp, rfl, hc, hterm⟩, hpos⟩
    · exact absurd hpos Score.not_impossible_lt_impossible
  only d hd := by
    obtain ⟨p, word, rfl, hp, rfl, hc, hterm⟩ := (mem_below_word hA).1 hd.mem
    rw [hterm]
    dsimp only
    rw [← hc, Grammar.logProb_of_mem hp, Derivation.score]

/-- The score of an entry without unary rules over more than one word. -/
theorem tracks_binary (hc : c.Sound g) (hlive : ∀ i j A, live i j A ↔ A ∈ c.symbols i j)
    (hone : j ≠ i + 1) (hA : live i j A)
    (hparts : ∀ k l B, k < l → l - k < j - i →
      Tracks (below g s live k l B) Derivation.score (c.inside k l B)) :
    Tracks {d | d ∈ below g s live i j A ∧ d.unaryHeight = 0} Derivation.score
      (total acc (c.binaryInside g i j A)) := by
  rw [binaryInside_eq hc]
  refine Tracks.total (fun d => some (i + d.leftWidth, d.rule)) ((nodup_splits hc i j).filter _) ?_ ?_
  · rintro ⟨m, p⟩ hmem hpos
    obtain ⟨hmem, hcond⟩ := List.mem_filter.1 hmem
    obtain ⟨hm, hp, B, C, hpc, -⟩ := (mem_splits hc).1 hmem
    obtain rfl := beq_iff_eq.1 (Bool.and_eq_true_iff.1 hcond).1
    simp only [splitScore, hpc] at hpos
    obtain ⟨hpos, hright⟩ := Score.impossible_lt_of_add hpos
    obtain ⟨hrule, hleft⟩ := Score.impossible_lt_of_add hpos
    obtain ⟨e, he, hpose⟩ := (hparts i m B hm.1 (by omega)).sound hleft
    obtain ⟨f, hf, hposf⟩ := (hparts m j C hm.2 (by omega)).sound hright
    refine ⟨.binary p e f, (mem_below_binary hone).2 ⟨hA, p, B, C, m, e, f, rfl, hp, rfl, hpc, he, hf⟩,
      LosslessScore.impossible_lt_add (LosslessScore.impossible_lt_add hrule hpose) hposf, ?_⟩
    rw [Derivation.leftWidth, Derivation.rule, ← DerivesIn.stop_eq he]
  · intro d hd
    obtain ⟨-, p, B, C, m, e, f, rfl, hp, rfl, hpc, he, hf⟩ := (mem_below_binary hone).1 hd.mem
    have hm : i < m ∧ m < j := ⟨DerivesIn.start_lt he, DerivesIn.start_lt hf⟩
    obtain ⟨hpos, hposf⟩ := Score.impossible_lt_of_add hd.possible
    obtain ⟨hrule, hpose⟩ := Score.impossible_lt_of_add hpos
    -- another half would make another derivation
    have hleft : Only (below g s live i m B) Derivation.score e := by
      refine hd.of_map (f := fun e => Derivation.binary p e f) (fun _ _ heq => (Derivation.binary.inj heq).2.1)
        he hpose fun e' he' hpose' => ⟨?_, ?_⟩
      · exact (mem_below_binary hone).2 ⟨hA, p, B, C, m, e', f, rfl, hp, rfl, hpc, he', hf⟩
      · exact LosslessScore.impossible_lt_add (LosslessScore.impossible_lt_add hrule hpose') hposf
    have hright : Only (below g s live m j C) Derivation.score f := by
      refine hd.of_map (f := Derivation.binary p e) (fun _ _ heq => (Derivation.binary.inj heq).2.2)
        hf hposf fun f' hf' hposf' => ⟨?_, ?_⟩
      · exact (mem_below_binary hone).2 ⟨hA, p, B, C, m, e, f', rfl, hp, rfl, hpc, he, hf'⟩
      · exact LosslessScore.impossible_lt_add (LosslessScore.impossible_lt_add hrule hpose) hposf'
    have hleftScore := (hparts i m B hm.1 (by omega)).only e hleft
    have hrightScore := (hparts m j C hm.2 (by omega)).only f hright
    refine ⟨(m, p), List.mem_filter.2 ⟨(mem_splits hc).2 ⟨hm, hp, B, C, hpc,
      (hlive _ _ _).1 he.alive⟩, ?_⟩, ?_, ?_⟩
    · simp [rightScore, hpc, hrightScore, hposf]
    · rw [Derivation.leftWidth, Derivation.rule, ← DerivesIn.stop_eq he]
    · simp only [splitScore, hpc]
      rw [hleftScore, hrightScore, Derivation.score]

theorem tracks_upScore (hnodup : symbols.Nodup) (hsymbols : ∀ A, live i j A ↔ A ∈ symbols) (n : Nat)
    (level : NonTerminal → α)
    (hlevel : ∀ A ∈ symbols, Tracks {d | d ∈ below g s live i j A ∧ d.unaryHeight = n}
      Derivation.score (level A)) (A : NonTerminal) (hA : A ∈ symbols) :
    Tracks {d | d ∈ below g s live i j A ∧ d.unaryHeight = n + 1} Derivation.score
      (upScore acc g symbols level A) := by
  rw [upScore_eq]
  refine Tracks.total (fun d => some d.rule) (nodup_lifts hnodup level A) ?_ ?_
  · intro p hmem hpos
    obtain ⟨hp, hpA, B, hB, hpc, -⟩ := mem_lifts.1 hmem
    simp only [liftScore, hpc] at hpos
    obtain ⟨hrule, hchild⟩ := Score.impossible_lt_of_add hpos
    obtain ⟨e, ⟨he, hn⟩, hpose⟩ := (hlevel B hB).sound hchild
    exact ⟨.unary p e, mem_below_unary.2 ⟨(hsymbols A).2 hA, p, B, e, rfl, hp, hpA, hpc, he, hn⟩,
      LosslessScore.impossible_lt_add hrule hpose, rfl⟩
  · intro d hd
    obtain ⟨-, p, B, e, rfl, hp, hpA, hpc, he, hn⟩ := mem_below_unary.1 hd.mem
    have hB := (hsymbols B).1 he.alive
    obtain ⟨hrule, hpose⟩ := Score.impossible_lt_of_add hd.possible
    have hchild : Only {d | d ∈ below g s live i j B ∧ d.unaryHeight = n} Derivation.score e := by
      refine hd.of_map (f := Derivation.unary p) (fun _ _ heq => (Derivation.unary.inj heq).2)
        ⟨he, hn⟩ hpose fun e' he' hpose' => ⟨?_, ?_⟩
      · exact mem_below_unary.2 ⟨(hsymbols A).2 hA, p, B, e', rfl, hp, hpA, hpc, he'.1, he'.2⟩
      · exact LosslessScore.impossible_lt_add hrule hpose'
    have hscore := (hlevel B hB).only e hchild
    refine ⟨p, mem_lifts.2 ⟨hp, hpA, B, hB, hpc, Score.beq_impossible_eq_false_iff.2 ?_⟩, rfl, ?_⟩
    · rwa [hscore]
    · simp only [liftScore, hpc]
      rw [hscore, Derivation.score]

/-- The scores of two levels keep track of the members of both. -/
theorem tracks_succ {β : Type} {E : Set β} {height : β → Nat} {value : β → α} {x y : α}
    (hsums : Tracks {b | b ∈ E ∧ height b ≤ n} value x)
    (hnext : Tracks {b | b ∈ E ∧ height b = n + 1} value y) :
    Tracks {b | b ∈ E ∧ height b ≤ n + 1} value (acc.combine x y) := by
  rw [← upTo_union_succ]
  exact hsums.union hnext (disjoint_upTo_succ E height n)

/-- A level without possible scores leaves the next one without any. -/
theorem not_possible_upScore {level : NonTerminal → α}
    (hnone : ∀ A ∈ symbols, ¬ Score.impossible < level A) (A : NonTerminal) :
    ¬ Score.impossible < upScore acc g symbols level A := by
  have hlifts : lifts g symbols level A = [] := by
    refine List.eq_nil_iff_forall_not_mem.2 fun p hp => ?_
    obtain ⟨-, -, B, hB, -, hpos⟩ := mem_lifts.1 hp
    exact hnone B hB (Score.beq_impossible_eq_false_iff.1 hpos)
  rw [upScore_eq, hlifts]
  exact Score.not_impossible_lt_impossible

theorem not_possible_of_beq (x : α) (hx : (x == Score.impossible) = true) :
    ¬ Score.impossible < x :=
  Score.not_lt.2 (MonotoneScore.beq_impossible_iff.1 hx)

/-- The visit of a cell upwards keeps track of the derivations of its entries. -/
theorem tracks_resummed (hc : c.Sound g) (hlive : ∀ i j A, live i j A ↔ A ∈ c.symbols i j)
    (hparts : ∀ k l B, k < l → l - k < j - i →
      Tracks (below g s live k l B) Derivation.score (c.inside k l B))
    (hA : A ∈ c.symbols i j) :
    Tracks (below g s live i j A) Derivation.score (resummed acc c g s.terminals i j A) := by
  have hbase : ∀ A ∈ c.symbols i j, Tracks {d | d ∈ below g s live i j A ∧ d.unaryHeight = 0}
      Derivation.score (baseScore acc c g s.terminals i j A) := by
    intro A hA
    unfold baseScore
    split
    · next hone =>
      subst hone
      exact tracks_word ((hlive _ _ _).2 hA)
    · next hone => exact tracks_binary hc hlive hone ((hlive _ _ _).2 hA) hparts
  have hlevels : Tracks {d | d ∈ below g s live i j A ∧ d.unaryHeight ≤ 0 + (c.symbols i j).length}
      Derivation.score (resummed acc c g s.terminals i j A) := upTo_addScores
    (V := fun x => ¬ Score.impossible < x)
    (P := fun n A x =>
      Tracks {d | d ∈ below g s live i j A ∧ d.unaryHeight = n} Derivation.score x)
    (Q := fun n A x =>
      Tracks {d | d ∈ below g s live i j A ∧ d.unaryHeight ≤ n} Derivation.score x)
    (fun n A x y => tracks_succ)
    (fun n A x y hx hy hnone => acc.combine_of_not_possible_right (a := x) hnone ▸ tracks_succ hx hy)
    (tracks_upScore (nodup_symbols hc i j) (hlive i j))
    (fun level hnone A _ => not_possible_upScore hnone A) not_possible_of_beq hbase
    (fun A hA => (hbase A hA).congr fun d => and_congr_right fun _ => Nat.le_zero.symm)
    (c.symbols i j).length hA
  refine hlevels.extend (fun d hd => hd.1) fun d hd => ⟨hd.mem, ?_⟩
  -- the only possible derivation makes no detours, so that its chain on top is short
  obtain ⟨e, he, hdirect⟩ := DerivesIn.exists_direct hd.mem hd.possible
    (DerivesIn.unariesSatisfy (P := fun _ _ _ => True) (fun _ _ _ _ => trivial) hd.mem)
  obtain rfl := hd.unique e he hdirect.possible
  have := he.unaryHeight_lt_of_straight hdirect.straight fun B hB => (hlive i j B).1 hB
  omega

/-- The inside scores keep track of the derivations from entries of the chart. -/
theorem tracks_inside (acc : Accumulator α) (hc : c.Sound g) (s : Sentence) (i j : Nat)
    (A : NonTerminal) :
    Tracks (below g s c.Live i j A) Derivation.score
      ((c.resum acc g s.terminals).inside i j A) := by
  refine resum_induction (P := fun i j A x => Tracks (below g s c.Live i j A) Derivation.score x)
    acc hc s.terminals (fun i j A hA => ?_) (fun c' i j A hsame hij hA hparts => ?_) i j A
  · exact (Tracks.empty _).congr fun d =>
      ⟨fun hd => hd.elim, fun hd => absurd ((mem_symbols hc).2 hd.alive) hA⟩
  · have hlive : ∀ i j A, c.Live i j A ↔ A ∈ c'.symbols i j := fun i j A => by
      rw [hsame.symbols_eq, mem_symbols hc, Live]
    exact tracks_resummed (hsame.sound hc) hlive hparts (by rwa [hsame.symbols_eq])

/-- What an inside pass leaves behind: the scores keep track of the derivations, and miss none. -/
structure Summed (g : Grammar α) (s : Sentence) (live : Nat → Nat → NonTerminal → Prop)
    (c : PackedChart α) : Prop where
  tracks : ∀ i j A, Tracks (below g s live i j A) Derivation.score (c.inside i j A)
  possible : ∀ i j A, Grounded g s live i j A → Score.impossible < c.inside i j A

theorem summed_resum (acc : Accumulator α) (hc : c.Sound g) (s : Sentence) :
    Summed g s c.Live (c.resum acc g s.terminals) where
  tracks := tracks_inside acc hc s
  possible i j A h := by
    obtain ⟨d, hd, hpos⟩ := h
    obtain ⟨e, he, hdirect⟩ := hd.exists_direct hpos
      (hd.unariesSatisfy (P := fun _ _ _ => True) fun _ _ _ _ => trivial)
    exact possible_resum hc he hdirect

end Lossless

/-! ## Outside -/

section Exact

variable [ExactScore α] {root u v : Place} {f : Frame α} {fs : List (Frame α)}

theorem possible_contextScore_append {gs : List (Frame α)}
    (h : Score.impossible < contextScore (gs ++ fs)) : Score.impossible < contextScore fs := by
  induction gs with
  | nil => exact h
  | cons f gs ih => exact ih (Score.impossible_lt_of_add h).2

/-- The chain right above a place does not come back to a symbol if there is no other possible context:
the part in between could be left out. -/
theorem nodup_rungs_of_only (h : Only (around g s live root (i, j, A)) contextScore fs) :
    (A :: rungs fs).Nodup := by
  induction fs generalizing A with
  | nil => exact List.nodup_singleton A
  | cons f fs ih =>
    have hfs := h.mem
    cases hfs with
    | cons joins above alive =>
      cases joins with
      | left | right => exact List.nodup_singleton A
      | @unary _ _ p _ mem children =>
        have habove : Only (around g s live root (i, j, p.parent)) contextScore fs := by
          obtain ⟨hrule, hpos⟩ := Score.impossible_lt_of_add h.possible
          exact h.of_map List.cons_injective above hpos fun fs' hfs' hpos' =>
            ⟨.cons (.unary mem children) hfs' alive, LosslessScore.impossible_lt_add hrule hpos'⟩
        refine List.nodup_cons.2 ⟨fun hA => ?_, ih habove⟩
        obtain ⟨f', gs, fs', heq, hfs'⟩ := Surrounds.exists_of_mem_rungs h.mem hA
        have hpos := h.possible
        rw [heq] at hpos
        have hsame := h.unique fs' hfs' (possible_contextScore_append hpos)
        have hlength := congrArg List.length (hsame.trans heq)
        simp only [List.length_append, List.length_cons] at hlength
        omega

/-- The unary rules over a symbol whose parents are possible. -/
def drops (g : Grammar α) (symbols : List NonTerminal) (level : NonTerminal → α)
    (child : NonTerminal) : List (Production α) :=
  (g.byUnaryChild child).filterMap fun p =>
    if p.parent ∈ symbols ∧ Score.impossible < level p.parent then some p else none

omit [ExactScore α] in
theorem downScore_eq (g : Grammar α) (symbols : List NonTerminal) (level : NonTerminal → α)
    (A : NonTerminal) :
    downScore acc g symbols level A =
      total acc ((drops g symbols level A).map fun p => level p.parent + p.logProb) := by
  rw [downScore, drops, List.map_filterMap]
  refine congrArg (total acc) (List.filterMap_congr fun p _ => ?_)
  split <;> rfl

omit [ExactScore α] in
theorem mem_drops {level : NonTerminal → α} :
    p ∈ drops g symbols level A ↔
      p ∈ g.productions ∧ p.children = .unary A ∧ p.parent ∈ symbols ∧
        Score.impossible < level p.parent := by
  simp only [drops, List.mem_filterMap, Grammar.mem_byUnaryChild]
  constructor
  · rintro ⟨q, ⟨hq, hqc⟩, hsome⟩
    split at hsome
    · next hcond =>
      obtain rfl := Option.some.inj hsome
      exact ⟨hq, hqc, hcond⟩
    · cases hsome
  · rintro ⟨hp, hpc, hcond⟩
    exact ⟨p, ⟨hp, hpc⟩, if_pos hcond⟩

omit [ExactScore α] in
theorem nodup_drops (g : Grammar α) (symbols : List NonTerminal) (level : NonTerminal → α)
    (A : NonTerminal) : (drops g symbols level A).Nodup := by
  refine (g.nodup_byUnaryChild A).filterMap fun p q x hx hy => ?_
  split at hx
  · obtain rfl := Option.some.inj hx
    split at hy
    · exact (Option.some.inj hy).symm
    · cases hy
  · cases hx

theorem tracks_downScore (hsymbols : ∀ A, live i j A ↔ A ∈ symbols) (n : Nat)
    (level : NonTerminal → α)
    (hlevel : ∀ A ∈ symbols, Grounded g s live i j A → Tracks {fs |
      fs ∈ around g s live root (i, j, A) ∧ (rungs fs).length = n} contextScore (level A))
    (A : NonTerminal) (hA : A ∈ symbols) (hground : Grounded g s live i j A) :
    Tracks {fs | fs ∈ around g s live root (i, j, A) ∧ (rungs fs).length = n + 1} contextScore
      (downScore acc g symbols level A) := by
  rw [downScore_eq]
  refine Tracks.total lowestRule? (nodup_drops g symbols level A) ?_ ?_
  · intro p hmem hpos
    obtain ⟨hp, hpc, hparent, -⟩ := mem_drops.1 hmem
    obtain ⟨habove, hrule⟩ := Score.impossible_lt_of_add hpos
    have hup := hground.unary hp hpc hrule ((hsymbols _).2 hparent)
    obtain ⟨fs, ⟨hfs, hn⟩, hposfs⟩ := (hlevel p.parent hparent hup).sound habove
    exact ⟨.unary p :: fs, mem_around_unary.2 ⟨(hsymbols A).2 hA, p, fs, rfl, hp, hpc, hfs, hn⟩,
      LosslessScore.impossible_lt_add hrule hposfs, rfl⟩
  · intro fs hfs
    obtain ⟨-, p, fs', rfl, hp, hpc, hfs', hn⟩ := mem_around_unary.1 hfs.mem
    have hparent := (hsymbols p.parent).1 hfs'.alive
    obtain ⟨hrule, hpos⟩ := Score.impossible_lt_of_add hfs.possible
    have habove : Only {fs | fs ∈ around g s live root (i, j, p.parent) ∧ (rungs fs).length = n}
        contextScore fs' := by
      refine hfs.of_map (f := List.cons (.unary p)) List.cons_injective ⟨hfs', hn⟩ hpos
        fun fs'' hfs'' hpos'' => ⟨?_, LosslessScore.impossible_lt_add hrule hpos''⟩
      exact mem_around_unary.2 ⟨(hsymbols A).2 hA, p, fs'', rfl, hp, hpc, hfs''.1, hfs''.2⟩
    have hup := hground.unary hp hpc hrule hfs'.alive
    have hscore := (hlevel p.parent hparent hup).only fs' habove
    refine ⟨p, mem_drops.2 ⟨hp, hpc, hparent, ?_⟩, rfl, ?_⟩
    · rwa [hscore]
    · rw [hscore, contextScore, Frame.score, ExactScore.add_comm]

omit [ExactScore α] in
theorem not_possible_downScore [MonotoneScore α] {level : NonTerminal → α}
    (hnone : ∀ A ∈ symbols, ¬ Score.impossible < level A) (A : NonTerminal) :
    ¬ Score.impossible < downScore acc g symbols level A := by
  have hdrops : drops g symbols level A = [] := by
    refine List.eq_nil_iff_forall_not_mem.2 fun p hp => ?_
    obtain ⟨-, -, hparent, hpos⟩ := mem_drops.1 hp
    exact hnone p.parent hparent hpos
  rw [downScore_eq, hdrops]
  exact Score.not_impossible_lt_impossible

/-- The completed outside scores of a cell. -/
theorem tracks_completed (hlive : ∀ i j A, live i j A ↔ A ∈ c'.symbols i j)
    (hbase : ∀ A ∈ c'.symbols i j, Grounded g s live i j A →
      Tracks {fs | fs ∈ around g s live root (i, j, A) ∧ (rungs fs).length = 0} contextScore
        (c'.outside i j A)) (hA : A ∈ c'.symbols i j) (hground : Grounded g s live i j A) :
    Tracks (around g s live root (i, j, A)) contextScore (completed acc c' g i j A) := by
  have hlevels : Grounded g s live i j A → Tracks {fs | fs ∈ around g s live root (i, j, A) ∧
      (rungs fs).length ≤ 0 + (c'.symbols i j).length} contextScore (completed acc c' g i j A) :=
    upTo_addScores (V := fun x => ¬ Score.impossible < x)
      (P := fun n A x => Grounded g s live i j A → Tracks {fs |
        fs ∈ around g s live root (i, j, A) ∧ (rungs fs).length = n} contextScore x)
      (Q := fun n A x => Grounded g s live i j A → Tracks {fs |
        fs ∈ around g s live root (i, j, A) ∧ (rungs fs).length ≤ n} contextScore x)
      (fun n A x y hx hy hground => tracks_succ (hx hground) (hy hground))
      (fun n A x y hx hy hnone hground => acc.combine_of_not_possible_right (a := x) hnone ▸
        tracks_succ (hx hground) (hy hground))
      (tracks_downScore (hlive i j))
      (fun level hnone A _ => not_possible_downScore hnone A) not_possible_of_beq hbase
      (fun A hA hground => (hbase A hA hground).congr fun fs =>
        and_congr_right fun _ => Nat.le_zero.symm)
      (c'.symbols i j).length hA
  refine (hlevels hground).extend (fun fs hfs => hfs.1) fun fs hfs => ⟨hfs.mem, ?_⟩
  have hshort := length_le_of_chain (R := (· ≠ ·)) (fun _ hne => hne rfl)
    (nodup_rungs_of_only hfs) fun B hB => (hlive i j B).1 (hfs.mem.rungs_pairwise.2 B hB)
  rw [List.length_cons] at hshort
  omega

/-- A contribution is for a place, and possible. -/
def Reaches (v : Place) (x : Contribution α) : Prop :=
  v = (x.start, x.stop, x.nonterminal) ∧ Score.impossible < x.score

open Classical in
omit [ExactScore α] in
/-- What a place receives is the scores of the contributions for it. -/
theorem foldl_receive_eq [MonotoneScore α] (v : Place) (outside : α) (xs : List (Contribution α)) :
    xs.foldl (receive acc v.1 v.2.1 v.2.2) outside =
      ((xs.filter fun x => decide (Reaches v x)).map (·.score)).foldl acc.combine outside := by
  obtain ⟨k, l, A⟩ := v
  induction xs generalizing outside with
  | nil => rfl
  | cons x rest ih =>
    have hreach : ((k = x.start ∧ l = x.stop ∧ A = x.nonterminal) ∧
        (x.score == Score.impossible) = false) ↔ Reaches (k, l, A) x := by
      rw [Reaches, Prod.mk.injEq, Prod.mk.injEq, Score.beq_impossible_eq_false_iff]
    rw [List.foldl_cons, ih, List.filter_cons]
    simp only [receive, hreach, decide_eq_true_eq]
    split
    · rw [List.map_cons, List.foldl_cons]
    · rfl

omit [ExactScore α] in
/-- How a binary rule reaches a place: the place is one of its children. -/
theorem reaches_handout_iff (hc : c.Sound g) {side : Bool}
    (hmem : ((m, p), side) ∈ c.handouts g i j) :
    Reaches v (c.handout i j ((m, p), side)) ↔ ∃ B C, p.children = .binary B C ∧
      ((side = true ∧ v = (i, m, B) ∧
          Score.impossible < c.outside i j p.parent + p.logProb + c.inside m j C) ∨
        (side = false ∧ v = (m, j, C) ∧
          Score.impossible < c.outside i j p.parent + p.logProb + c.inside i m B)) := by
  obtain ⟨-, -, B, C, hpc, -⟩ := (mem_handouts hc).1 hmem
  cases side <;> simp [Reaches, handout, hpc]

/-- The binary rule of the lowest frame, as it hands down to the place. -/
def handoutOf? (v : Place) : List (Frame α) → Option ((Nat × Production α) × Bool)
  | .left p _ :: _ => some ((v.2.1, p), true)
  | .right p _ :: _ => some ((v.1, p), false)
  | _ => none

/-- In the only possible context that begins with a binary rule both the rest of the context and the sister
are the only possible ones. -/
theorem only_of_binary {F : Derivation α → Frame α} {X Y : Set (List (Frame α))}
    {Z : Set (Derivation α)} {d : Derivation α}
    (hF : Function.Injective F) (hscore : ∀ d, (F d).score = p.logProb + d.score)
    (hfs : fs ∈ Y) (hd : d ∈ Z) (hmem : ∀ fs ∈ Y, ∀ d ∈ Z, F d :: fs ∈ X)
    (h : Only X contextScore (F d :: fs)) :
    Only Y contextScore fs ∧ Only Z Derivation.score d ∧ Score.impossible < p.logProb := by
  obtain ⟨hframe, hposfs⟩ := Score.impossible_lt_of_add h.possible
  rw [hscore] at hframe
  obtain ⟨hrule, hposd⟩ := Score.impossible_lt_of_add hframe
  have hpossible : ∀ {d fs}, Score.impossible < d.score → Score.impossible < contextScore fs →
      Score.impossible < contextScore (F d :: fs) := by
    intro d fs hd hfs
    rw [contextScore, hscore]
    exact LosslessScore.impossible_lt_add (LosslessScore.impossible_lt_add hrule hd) hfs
  refine ⟨h.of_map List.cons_injective hfs hposfs fun fs' hfs' hpos' =>
      ⟨hmem fs' hfs' d hd, hpossible hposd hpos'⟩, ?_, hrule⟩
  refine h.of_map (f := fun d => F d :: fs) (fun _ _ heq => hF (List.cons.inj heq).1) hd hposd
    fun d' hd' hpos' => ⟨hmem fs hfs d' hd', hpossible hpos' hposfs⟩

/-- What reaches a place that derives something comes down a possible context that begins with its rule. -/
theorem exists_context_of_reaches (hc : c.Sound g)
    (hlive : ∀ i j A, live i j A ↔ A ∈ c.symbols i j) (hinside : Summed g s live c)
    (houtside : ∀ A, Grounded g s live i j A →
      Tracks (around g s live root (i, j, A)) contextScore (c.outside i j A))
    (hv : Grounded g s live v.1 v.2.1 v.2.2) {h : (Nat × Production α) × Bool}
    (hmem : h ∈ c.handouts g i j) (hreach : Reaches v (c.handout i j h)) :
    ∃ fs ∈ aroundFrom g s live root v i j,
      Score.impossible < contextScore fs ∧ handoutOf? v fs = some h := by
  obtain ⟨e, he, -⟩ := id hv
  have halive := he.alive
  obtain ⟨⟨m, p⟩, side⟩ := h
  obtain ⟨hm, hp, -⟩ := (mem_handouts hc).1 hmem
  have hparent : Score.impossible < c.outside i j p.parent → live i j p.parent := fun hpos => by
    rw [hlive]
    by_contra hB
    rw [outside_of_not_mem hc hB] at hpos
    exact Score.not_impossible_lt_impossible hpos
  obtain ⟨B, C, hpc, ⟨rfl, rfl, hpos⟩ | ⟨rfl, rfl, hpos⟩⟩ := (reaches_handout_iff hc hmem).1 hreach
  all_goals
    obtain ⟨hpos, hsister⟩ := Score.impossible_lt_of_add hpos
    obtain ⟨habove, hrule⟩ := Score.impossible_lt_of_add hpos
    obtain ⟨d, hd, hposd⟩ := (hinside.tracks _ _ _).sound hsister
  · have hup := Grounded.binary hv ⟨d, hd, hposd⟩ hp hpc hrule (hparent habove)
    obtain ⟨fs, hfs, hposfs⟩ := (houtside p.parent hup).sound habove
    exact ⟨.left p d :: fs, mem_aroundFrom.2 ⟨halive, p, B, C, m, fs, hp, hpc, hm, hfs,
      .inl ⟨rfl, d, hd, rfl⟩⟩, LosslessScore.impossible_lt_add
        (LosslessScore.impossible_lt_add hrule hposd) hposfs, rfl⟩
  · have hup := Grounded.binary ⟨d, hd, hposd⟩ hv hp hpc hrule (hparent habove)
    obtain ⟨fs, hfs, hposfs⟩ := (houtside p.parent hup).sound habove
    exact ⟨.right p d :: fs, mem_aroundFrom.2 ⟨halive, p, B, C, m, fs, hp, hpc, hm, hfs,
      .inr ⟨rfl, d, hd, rfl⟩⟩, LosslessScore.impossible_lt_add
        (LosslessScore.impossible_lt_add hrule hposd) hposfs, rfl⟩

/-- A rule adds to what is above it and beside it as its frame does. -/
theorem add_score_eq_contextScore {F : Derivation α → Frame α} {x y : α} {d : Derivation α}
    (hscore : (F d).score = p.logProb + d.score) (hx : x = contextScore fs) (hy : y = d.score) :
    x + p.logProb + y = contextScore (F d :: fs) := by
  rw [contextScore, hscore, hx, hy, ExactScore.add_assoc, ExactScore.add_comm]

/-- The only possible context that begins with a binary rule over a span is reached by what that rule
hands down, and has its score. -/
theorem exists_handout_of_only (hc : c.Sound g)
    (hlive : ∀ i j A, live i j A ↔ A ∈ c.symbols i j) (hinside : Summed g s live c)
    (houtside : ∀ A, Grounded g s live i j A →
      Tracks (around g s live root (i, j, A)) contextScore (c.outside i j A))
    (hv : Grounded g s live v.1 v.2.1 v.2.2)
    (hfs : Only (aroundFrom g s live root v i j) contextScore fs) :
    ∃ h ∈ c.handouts g i j, Reaches v (c.handout i j h) ∧ handoutOf? v fs = some h ∧
      (c.handout i j h).score = contextScore fs := by
  obtain ⟨e, he, -⟩ := id hv
  have halive := he.alive
  obtain ⟨-, p, B, C, m, fs', hp, hpc, hm, hfs', ⟨rfl, d, hd, rfl⟩ | ⟨rfl, d, hd, rfl⟩⟩ :=
    mem_aroundFrom.1 hfs.mem
  · obtain ⟨habove, hsister, hrule⟩ := only_of_binary (F := .left p)
      (fun _ _ heq => (Frame.left.inj heq).2) (fun _ => rfl) hfs' hd (fun fs'' hfs'' d' hd' =>
        mem_aroundFrom.2 ⟨halive, p, B, C, m, fs'', hp, hpc, hm, hfs'', .inl ⟨rfl, d', hd', rfl⟩⟩)
      hfs
    have hup := Grounded.binary hv ⟨d, hd, hsister.possible⟩ hp hpc hrule hfs'.alive
    have hscore := (houtside p.parent hup).only fs' habove
    have hsum : c.outside i j p.parent + p.logProb + c.inside m j C =
        contextScore (.left p d :: fs') :=
      add_score_eq_contextScore (F := .left p) rfl hscore ((hinside.tracks m j C).only d hsister)
    have hmem : ((m, p), true) ∈ c.handouts g i j :=
      (mem_handouts hc).2 ⟨hm, hp, B, C, hpc, (hlive _ _ _).1 halive,
        Score.beq_impossible_eq_false_iff.2 (hscore ▸ habove.possible),
        Score.beq_impossible_eq_false_iff.2 (hinside.possible m j C ⟨d, hd, hsister.possible⟩)⟩
    refine ⟨((m, p), true), hmem, (reaches_handout_iff hc hmem).2
      ⟨B, C, hpc, .inl ⟨rfl, rfl, hsum ▸ hfs.possible⟩⟩, rfl, ?_⟩
    simp only [← hsum, handout, hpc]
  · obtain ⟨habove, hsister, hrule⟩ := only_of_binary (F := .right p)
      (fun _ _ heq => (Frame.right.inj heq).2) (fun _ => rfl) hfs' hd (fun fs'' hfs'' d' hd' =>
        mem_aroundFrom.2 ⟨halive, p, B, C, m, fs'', hp, hpc, hm, hfs'', .inr ⟨rfl, d', hd', rfl⟩⟩)
      hfs
    have hup := Grounded.binary ⟨d, hd, hsister.possible⟩ hv hp hpc hrule hfs'.alive
    have hscore := (houtside p.parent hup).only fs' habove
    have hsum : c.outside i j p.parent + p.logProb + c.inside i m B =
        contextScore (.right p d :: fs') :=
      add_score_eq_contextScore (F := .right p) rfl hscore ((hinside.tracks i m B).only d hsister)
    have hmem : ((m, p), false) ∈ c.handouts g i j :=
      (mem_handouts hc).2 ⟨hm, hp, B, C, hpc, (hlive _ _ _).1 hd.alive,
        Score.beq_impossible_eq_false_iff.2 (hscore ▸ habove.possible),
        Score.beq_impossible_eq_false_iff.2 (hinside.possible m j C hv)⟩
    refine ⟨((m, p), false), hmem, (reaches_handout_iff hc hmem).2
      ⟨B, C, hpc, .inr ⟨rfl, rfl, hsum ▸ hfs.possible⟩⟩, rfl, ?_⟩
    simp only [← hsum, handout, hpc]

/-- The contexts that begin with a binary rule over a span are kept track of by what the rules over that
span hand down. -/
theorem tracks_received (hc : c.Sound g) (hlive : ∀ i j A, live i j A ↔ A ∈ c.symbols i j)
    (hinside : Summed g s live c)
    (houtside : ∀ A, Grounded g s live i j A →
      Tracks (around g s live root (i, j, A)) contextScore (c.outside i j A))
    (hv : Grounded g s live v.1 v.2.1 v.2.2) {X : Set (List (Frame α))} {x : α}
    (hX : Tracks X contextScore x) (hdisjoint : Disjoint X (aroundFrom g s live root v i j)) :
    Tracks (X ∪ aroundFrom g s live root v i j) contextScore
      ((c.binaryOutside g i j).foldl (receive acc v.1 v.2.1 v.2.2) x) := by
  classical
  rw [foldl_receive_eq, binaryOutside_eq hc, List.filter_map, List.map_map]
  refine hX.foldl (handoutOf? v) hdisjoint ((nodup_handouts hc i j).filter _) ?_ ?_
  · intro h hmem _
    rw [List.mem_filter, Function.comp_apply, decide_eq_true_iff] at hmem
    exact exists_context_of_reaches hc hlive hinside houtside hv hmem.1 hmem.2
  · intro fs hfs
    obtain ⟨h, hmem, hreach, hof, hscore⟩ :=
      exists_handout_of_only hc hlive hinside houtside hv hfs
    exact ⟨h, List.mem_filter.2 ⟨hmem, decide_eq_true hreach⟩, hof, hscore⟩

/-- What the outside scores stand for when some spans have been visited. -/
structure Attended (g : Grammar α) (s : Sentence) (c : PackedChart α) (visited : List (Nat × Nat))
    (c' : PackedChart α) : Prop where
  same : SameInside c c'
  done : ∀ v : Place, (v.1, v.2.1) ∈ visited → Grounded g s c.Live v.1 v.2.1 v.2.2 →
    Tracks (around g s c.Live (0, c.size, g.start) v) contextScore (c'.outside v.1 v.2.1 v.2.2)
  handed : ∀ v : Place, (v.1, v.2.1) ∉ visited → Grounded g s c.Live v.1 v.2.1 v.2.2 →
    Tracks {fs | fs ∈ around g s c.Live (0, c.size, g.start) v ∧ Handed visited v fs} contextScore
      (c'.outside v.1 v.2.1 v.2.2)

theorem attended_unsurrounded (hc : c.Sound g) (s : Sentence) :
    Attended g s c [] (c.unsurrounded g) := by
  obtain ⟨hsame, hout⟩ := unsurrounded_spec hc
  refine ⟨hsame, fun v hmem => absurd hmem List.not_mem_nil, fun v _ hv => ?_⟩
  obtain ⟨d, hd, -⟩ := hv
  obtain ⟨i, j, A⟩ := v
  rw [hout i j A ((mem_symbols hc).2 hd.alive)]
  have hset : ∀ fs, (fs ∈ around g s c.Live (0, c.size, g.start) (i, j, A) ∧
      Handed [] (i, j, A) fs) ↔ ((i = 0 ∧ j = c.size) ∧ A = g.start) ∧ fs = [] :=
    fun _ => mem_handed_nil hd.alive
  split
  · next hroot =>
    exact (Tracks.singleton [] contextScore).congr fun fs =>
      ⟨fun hfs => (hset fs).2 ⟨hroot, hfs⟩, fun hfs => ((hset fs).1 hfs).2⟩
  · next hroot =>
    exact (Tracks.empty _).congr fun fs =>
      ⟨fun hfs => hfs.elim, fun hfs => absurd ((hset fs).1 hfs).1 hroot⟩

theorem passDown_attended (hc : c.Sound g) (hinside : Summed g s c.Live c)
    {visited : List (Nat × Nat)} (hnew : (i, j) ∉ visited)
    (hlonger : ∀ k l, k < l → l ≤ c.size → j - i < l - k → (k, l) ∈ visited)
    (hshort : ∀ k l, (k, l) ∈ visited → j - i ≤ l - k) (hv : Attended g s c visited c') :
    Attended g s c (visited ++ [(i, j)]) (passDown acc g c' (i, j)) := by
  have hc' := hv.same.sound hc
  have hsame := hv.same.trans (sameInside_complete acc (hv.same.sound hc) i j)
  have hlive : ∀ {c' : PackedChart α}, SameInside c c' → ∀ i j A, c.Live i j A ↔ A ∈ c'.symbols i j :=
    fun hsame => hsame.live_iff hc
  obtain ⟨hsame', hout⟩ := passDown_spec acc hc' i j
  have hcell : ∀ A, Grounded g s c.Live i j A →
      Tracks (around g s c.Live (0, c.size, g.start) (i, j, A)) contextScore
        ((complete acc g c' i j).outside i j A) := by
    intro A hA
    obtain ⟨d, hd, -⟩ := id hA
    have hmem := (hlive hv.same i j A).1 hd.alive
    rw [outside_complete hc' i j hmem, if_pos ⟨rfl, rfl⟩]
    refine tracks_completed (hlive hv.same) (fun B _ hB => ?_) hmem hA
    refine (hv.handed (i, j, B) hnew hB).congr fun fs => and_congr_right fun hfs => ?_
    exact handed_iff (fun i j A hA => (hc.bounds_of_live hA).2) hlonger hfs
  have hsummed : Summed g s c.Live (complete acc g c' i j) := by
    refine ⟨fun k l B => ?_, fun k l B hB => ?_⟩
    · rw [hsame.inside_eq]
      exact hinside.tracks k l B
    · rw [hsame.inside_eq]
      exact hinside.possible k l B hB
  -- the visit adds the contexts that begin over its span to those known before
  have hadded : ∀ v : Place, Grounded g s c.Live v.1 v.2.1 v.2.2 → ∀ X : Set (List (Frame α)),
      Disjoint X (aroundFrom g s c.Live (0, c.size, g.start) v i j) →
      Tracks X contextScore ((complete acc g c' i j).outside v.1 v.2.1 v.2.2) →
      Tracks (X ∪ aroundFrom g s c.Live (0, c.size, g.start) v i j) contextScore
        ((passDown acc g c' (i, j)).outside v.1 v.2.1 v.2.2) := by
    intro v hground X hdisjoint hX
    obtain ⟨d, hd, -⟩ := id hground
    rw [hout _ _ _ ((hlive hv.same _ _ _).1 hd.alive)]
    exact tracks_received (hsame.sound hc) (hlive hsame) hsummed hcell hground hX hdisjoint
  refine ⟨hv.same.trans hsame', fun v hmem hground => ?_, fun v hmem hground => ?_⟩
  · have hlong : j - i ≤ v.2.1 - v.1 := by
      rcases List.mem_append.1 hmem with hmem | hmem
      · exact hshort _ _ hmem
      · obtain ⟨hstart, hstop⟩ := Prod.mk.inj (List.mem_singleton.1 hmem)
        rw [hstart, hstop]
    have hnone : aroundFrom g s c.Live (0, c.size, g.start) v i j = ∅ := aroundFrom_eq_empty hlong
    have hkeep := hadded v hground (around g s c.Live (0, c.size, g.start) v)
      (hnone ▸ Set.disjoint_empty _)
    rw [hnone, Set.union_empty] at hkeep
    apply hkeep
    obtain ⟨k, l, A⟩ := v
    obtain ⟨d, hd, -⟩ := id hground
    by_cases heq : k = i ∧ l = j
    · obtain ⟨rfl, rfl⟩ := heq
      exact hcell A hground
    · rw [outside_complete hc' i j ((hlive hv.same k l A).1 hd.alive), if_neg heq]
      rw [List.mem_append, List.mem_singleton, Prod.mk.injEq] at hmem
      exact hv.done (k, l, A) (hmem.resolve_right heq) hground
  · rw [List.mem_append, List.mem_singleton, Prod.ext_iff, not_or] at hmem
    obtain ⟨d, hd, -⟩ := id hground
    refine (hadded v hground {fs | fs ∈ around g s c.Live (0, c.size, g.start) v ∧
      Handed visited v fs} (disjoint_handed hnew) ?_).congr fun fs => mem_handed_append
    rw [outside_complete hc' i j ((hlive hv.same _ _ _).1 hd.alive), if_neg hmem.2]
    exact hv.handed v hmem.1 hground

/-- The outside scores keep track of the contexts, as far as these are contexts of possible derivations. -/
theorem tracks_outside (acc : Accumulator α) (hc : c.Sound g) (hinside : Summed g s c.Live c)
    (hv : Grounded g s c.Live v.1 v.2.1 v.2.2) :
    Tracks (around g s c.Live (0, c.size, g.start) v) contextScore
      ((c.surround acc g).outside v.1 v.2.1 v.2.2) := by
  have hpass : Attended g s c (spansDown c.size) (c.surround acc g) := by
    refine spansDown_induction (attended_unsurrounded hc s)
      fun visited i j c' hij hj hnew hlonger hshort hv => ?_
    exact passDown_attended hc hinside hnew hlonger hshort hv
  obtain ⟨d, hd, -⟩ := id hv
  exact hpass.done v (mem_spansDown.2 (hc.bounds_of_live hd.alive)) hv

/-! ## Both passes -/

/-- In a chart with a single possible derivation of the sentence, the inside and the outside score of a
constituent of the derivation add up to its score, and no other entry has both of them possible. -/
theorem inside_add_outside_of_only (acc : Accumulator α) (hc : c.Sound g) {d : Derivation α}
    (hd : Only (below g s c.Live 0 c.size g.start) Derivation.score d) (v : Place) :
    (v ∈ d.nodes 0 → (c.weighed acc g s).inside v.1 v.2.1 v.2.2 +
      (c.weighed acc g s).outside v.1 v.2.1 v.2.2 = d.score) ∧
    (v ∉ d.nodes 0 → ¬ Score.impossible < (c.weighed acc g s).inside v.1 v.2.1 v.2.2 +
      (c.weighed acc g s).outside v.1 v.2.1 v.2.2) := by
  have hup := reweighed_resum acc hc s.terminals
  have hlive : (c.resum acc g s.terminals).Live = c.Live := by
    funext i j A
    rw [Live, Live, hup.isSome_get? hc]
  have hsummed := summed_resum acc hc s
  have hout : Grounded g s c.Live v.1 v.2.1 v.2.2 → Tracks (around g s c.Live (0, c.size, g.start) v) contextScore
      ((c.weighed acc g s).outside v.1 v.2.1 v.2.2) := by
    intro hv
    have htracks := tracks_outside (v := v) acc (hup.sound hc) (by rwa [hlive]) (by rwa [hlive])
    rwa [hlive, hup.size_eq] at htracks
  have hin : (c.weighed acc g s).inside v.1 v.2.1 v.2.2 =
      (c.resum acc g s.terminals).inside v.1 v.2.1 v.2.2 :=
    (sameInside_surround acc (hup.sound hc)).inside_eq _ _ _
  rw [hin]
  constructor
  · intro hv
    obtain ⟨fs, e, hfs, he, rfl⟩ :=
      (Surrounds.mem_nodes_iff (u := (0, c.size, g.start)) hd.mem).1 hv
    have hpos := hd.possible
    rw [score_plug] at hpos
    obtain ⟨hpose, hposfs⟩ := Score.impossible_lt_of_add hpos
    have honly : Only (below g s c.Live v.1 v.2.1 v.2.2) Derivation.score e := by
      refine ⟨he, hpose, fun e' he' hpos' => plug_injective fs ?_⟩
      exact hd.unique (plug fs e') (hfs.derives he')
        (by rw [score_plug]; exact LosslessScore.impossible_lt_add hpos' hposfs)
    have honly' : Only (around g s c.Live (0, c.size, g.start) v) contextScore fs := by
      refine ⟨hfs, hposfs, fun fs' hfs' hpos' => ?_⟩
      have hplug := hd.unique (plug fs' e) (hfs'.derives he)
        (by rw [score_plug]; exact LosslessScore.impossible_lt_add hpose hpos')
      exact Surrounds.plug_left_inj hfs' hfs he hplug
    rw [(hsummed.tracks _ _ _).only e honly, (hout ⟨e, he, hpose⟩).only fs honly', score_plug]
  · intro hv hpos
    obtain ⟨hin, hposout⟩ := Score.impossible_lt_of_add hpos
    obtain ⟨e, he, hpose⟩ := (hsummed.tracks _ _ _).sound hin
    obtain ⟨fs, hfs, hposfs⟩ := (hout ⟨e, he, hpose⟩).sound hposout
    have hplug := hd.unique (plug fs e) (hfs.derives he)
      (by rw [score_plug]; exact LosslessScore.impossible_lt_add hpose hposfs)
    apply hv
    rw [← hplug]
    exact (Surrounds.mem_nodes_iff (u := (0, c.size, g.start)) (hfs.derives he)).2
      ⟨fs, e, hfs, he, rfl⟩

end Exact

end PackedChart

end Constituency
