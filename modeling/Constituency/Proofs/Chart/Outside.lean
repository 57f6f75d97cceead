import Mathlib
import Constituency.Proofs.Chart.Inside
import Constituency.Proofs.Grammar.Chain
import Constituency.Proofs.Score.Whole

/-!
# The outside pass adds up all contexts

With exact scores, and without cycles of unary rules, the outside score of an entry stands for all that
can surround it in a derivation of the sentence from entries of the chart. The pass goes from long spans
to short ones: when it comes to a cell, the contexts that begin with a binary rule have been added up,
and the chains of unary rules are completed before the cell hands its scores on to those below.
-/

namespace Constituency

namespace PackedChart

variable {α R : Type} [Score α] [CommSemiring R] {weight : α → R} {acc : Accumulator α}
  {g : Grammar α} {s : Sentence} {c c' : PackedChart α} {live : Nat → Nat → NonTerminal → Prop}
  {root u v : Place} {i j k l m : Nat} {A : NonTerminal} {symbols : List NonTerminal}
  {f : Frame α} {fs : List (Frame α)}

/-! ## Contexts of an entry -/

/-- The contexts of a place. -/
def around (g : Grammar α) (s : Sentence) (live : Nat → Nat → NonTerminal → Prop)
    (root v : Place) : Set (List (Frame α)) :=
  {fs | Surrounds g s live root v fs}

/-- The probability of a derivation in its frames. -/
def plugged (weight : α → R) (d : Derivation α) (fs : List (Frame α)) : R :=
  probability weight (plug fs d)

/-- The span of the parent in a frame around a place. -/
def parentSpan (v : Place) : Frame α → Nat × Nat
  | .unary _ => (v.1, v.2.1)
  | .left _ sister => (v.1, v.2.1 + sister.width)
  | .right _ sister => (v.1 - sister.width, v.2.1)

omit [Score α] in
theorem parentSpan_eq (h : f.Joins g s live u v) : parentSpan v f = (u.1, u.2.1) := by
  cases h with
  | unary => rfl
  | left _ _ _ sister => rw [parentSpan, sister.stop_eq]
  | right _ _ _ sister =>
    have hstop := sister.stop_eq
    rw [parentSpan, Prod.mk.injEq]
    exact ⟨by omega, rfl⟩

/-- The context is empty, or begins with a binary rule over a span that has been visited. -/
def Handed (visited : List (Nat × Nat)) (v : Place) : List (Frame α) → Prop
  | [] => True
  | f :: _ => f.isUnary = false ∧ parentSpan v f ∈ visited

/-! ## Levels -/

/-- The rule of the lowest frame. -/
def lowestRule? : List (Frame α) → Option (Production α)
  | [] => none
  | .unary p :: _ | .left p _ :: _ | .right p _ :: _ => some p

omit [Score α] in
theorem mem_around_unary {n : Nat} :
    (fs ∈ around g s live root (i, j, A) ∧ (rungs fs).length = n + 1) ↔
      live i j A ∧ ∃ p fs', fs = .unary p :: fs' ∧ p ∈ g.productions ∧ p.children = .unary A ∧
        fs' ∈ around g s live root (i, j, p.parent) ∧ (rungs fs').length = n := by
  constructor
  · rintro ⟨hfs, hn⟩
    refine ⟨hfs.alive, ?_⟩
    cases hfs with
    | nil => cases hn
    | cons joins above alive =>
      cases joins with
      | unary mem children => exact ⟨_, _, rfl, mem, children, above, Nat.succ.inj hn⟩
      | left | right => cases hn
  · rintro ⟨hA, p, fs', rfl, hp, hpc, hfs', rfl⟩
    exact ⟨.cons (.unary hp hpc) hfs' hA, rfl⟩

theorem hasTotal_downScore (h : acc.Exact R weight)
    (hsymbols : ∀ A, live i j A ↔ A ∈ symbols) (n : Nat) (level : NonTerminal → α)
    (hlevel : ∀ A ∈ symbols, ∀ d ∈ below g s live i j A,
      HasTotal {fs | fs ∈ around g s live root (i, j, A) ∧ (rungs fs).length = n}
        (plugged weight d) (weight (level A) * probability weight d))
    (A : NonTerminal) (hA : A ∈ symbols) (d : Derivation α) (hd : d ∈ below g s live i j A) :
    HasTotal {fs | fs ∈ around g s live root (i, j, A) ∧ (rungs fs).length = n + 1}
      (plugged weight d) (weight (downScore acc g symbols level A) * probability weight d) := by
  rw [downScore, weight_total h, ← List.sum_map_mul_right]
  refine HasTotal.filterMap lowestRule? (g.nodup_byUnaryChild A) (fun fs hfs => ?_) fun p hp => ?_
  · obtain ⟨-, p, fs', rfl, hp, hpc, -⟩ := mem_around_unary.1 hfs
    exact ⟨p, Grammar.mem_byUnaryChild.2 ⟨hp, hpc⟩, rfl⟩
  obtain ⟨hp, hpc⟩ := Grammar.mem_byUnaryChild.1 hp
  have hset : ∀ fs, ((fs ∈ around g s live root (i, j, A) ∧ (rungs fs).length = n + 1) ∧
      lowestRule? fs = some p) ↔ ∃ fs', (fs' ∈ around g s live root (i, j, p.parent) ∧
        (rungs fs').length = n) ∧ .unary p :: fs' = fs := by
    intro fs
    constructor
    · rintro ⟨hfs, hrule⟩
      obtain ⟨-, q, fs', rfl, -, -, hfs', hn⟩ := mem_around_unary.1 hfs
      obtain rfl := Option.some.inj hrule
      exact ⟨fs', ⟨hfs', hn⟩, rfl⟩
    · rintro ⟨fs', ⟨hfs', hn⟩, rfl⟩
      exact ⟨mem_around_unary.2 ⟨(hsymbols A).2 hA, p, fs', rfl, hp, hpc, hfs', hn⟩, rfl⟩
  by_cases hparent : p.parent ∈ symbols
  · have hup : DerivesIn g s live i j p.parent (.unary p d) :=
      .unary hp hpc hd ((hsymbols _).2 hparent)
    have himage : HasTotal {fs | (fs ∈ around g s live root (i, j, A) ∧
        (rungs fs).length = n + 1) ∧ lowestRule? fs = some p} (plugged weight d)
        (weight (level p.parent) * weight p.logProb * probability weight d) := by
      rw [mul_assoc, probability, ← h.add]
      exact (HasTotal.image (f := List.cons (.unary p)) (D := {fs' | fs' ∈ around g s live root
        (i, j, p.parent) ∧ (rungs fs').length = n}) List.cons_injective
        (hlevel _ hparent _ hup)).congr fun fs => (hset fs).symm
    by_cases hpos : Score.impossible < level p.parent
    · simpa [hparent, hpos, h.add] using himage
    · simpa [hparent, hpos, h.not_possible _ hpos] using himage
  · rw [if_neg fun hand => hparent hand.1]
    refine (HasTotal.empty _).congr fun fs => ⟨fun hfs => hfs.elim, fun hfs => ?_⟩
    obtain ⟨fs', ⟨hfs', -⟩, rfl⟩ := (hset fs).1 hfs
    exact hparent ((hsymbols _).1 hfs'.alive)

theorem weight_downScore_eq_zero (h : acc.Exact R weight) (level : NonTerminal → α)
    (hnone : ∀ A ∈ symbols, weight (level A) = 0) (A : NonTerminal) :
    weight (downScore acc g symbols level A) = 0 := by
  rw [downScore, weight_total h]
  refine List.sum_eq_zero fun x hx => ?_
  obtain ⟨y, hy, rfl⟩ := List.mem_map.1 hx
  obtain ⟨p, -, hp⟩ := List.mem_filterMap.1 hy
  split at hp
  · next hcond =>
    obtain rfl := Option.some.inj hp
    rw [h.add, hnone _ hcond.1, zero_mul]
  · cases hp

/-! ## Contributions -/

/-- What a contribution adds to the outside score of a place. -/
def given (weight : α → R) (v : Place) (x : Contribution α) : R :=
  if v = (x.start, x.stop, x.nonterminal) then weight x.score else 0

theorem weight_foldl_receive (h : acc.Exact R weight) (k l : Nat) (A : NonTerminal) (outside : α)
    (xs : List (Contribution α)) :
    weight (xs.foldl (receive acc k l A) outside) =
      weight outside + (xs.map (given weight (k, l, A))).sum := by
  induction xs generalizing outside with
  | nil => simp
  | cons x rest ih =>
    have hone : weight (receive acc k l A outside x) =
        weight outside + given weight (k, l, A) x := by
      unfold receive given
      by_cases htarget : k = x.start ∧ l = x.stop ∧ A = x.nonterminal
      · rw [if_pos (c := (k, l, A) = _) (by simp [htarget])]
        by_cases himp : (x.score == Score.impossible) = true
        · rw [if_neg (fun hand => by simp [himp] at hand), h.beq_impossible _ himp, add_zero]
        · rw [if_pos ⟨htarget, Bool.not_eq_true _ ▸ himp⟩, h.combine]
      · rw [if_neg fun hand => htarget hand.1, if_neg (c := (k, l, A) = _), add_zero]
        simpa using htarget
    rw [List.foldl_cons, ih, hone, List.map_cons, List.sum_cons, add_assoc]

/-- The position between the children in the lowest frame around a place. -/
def midpoint? (v : Place) : List (Frame α) → Option Nat
  | .left _ _ :: _ => some v.2.1
  | .right _ _ :: _ => some v.1
  | _ => none

/-- The contexts that begin with a binary rule over a span. -/
def aroundFrom (g : Grammar α) (s : Sentence) (live : Nat → Nat → NonTerminal → Prop)
    (root v : Place) (i j : Nat) : Set (List (Frame α)) :=
  {fs | fs ∈ around g s live root v ∧
    ∃ f fs', fs = f :: fs' ∧ f.isUnary = false ∧ parentSpan v f = (i, j)}

/-- The contexts with a frame of some kind around one of some sisters, on condition. -/
def framed (F : Derivation α → Frame α) (above : Set (List (Frame α)))
    (sisters : Set (Derivation α)) (P : Prop) : Set (List (Frame α)) :=
  {fs | P ∧ ∃ fs' ∈ above, ∃ d ∈ sisters, F d :: fs' = fs}

omit [Score α] in
theorem hasTotal_framed {X : Set (List (Frame α))} {Y : Set (Derivation α)}
    {value : List (Frame α) → R} {value' : Derivation α → R} {x y : R}
    {F : Derivation α → Frame α} (hinj : Function.Injective F) (hY : HasTotal Y value' y)
    (P : Prop) [Decidable P]
    (hX : P → ∀ d ∈ Y, HasTotal X (fun fs => value (F d :: fs)) (x * value' d)) :
    HasTotal (framed F X Y P) value (if P then x * y else 0) := by
  split
  · next hP =>
    refine (HasTotal.image2 (f := fun fs d => F d :: fs) (fun _ _ _ _ _ _ _ _ heq => ?_) hY
      (hX hP)).congr fun fs => ?_
    · obtain ⟨hd, rfl⟩ := List.cons.inj heq
      exact ⟨rfl, hinj hd⟩
    · exact ⟨fun hfs => ⟨hP, hfs⟩, fun hfs => hfs.2⟩
  · next hP =>
    exact (HasTotal.empty _).congr fun fs => ⟨fun hfs => hfs.elim, fun hfs => absurd hfs.1 hP⟩

omit [Score α] in
theorem mem_aroundFrom :
    fs ∈ aroundFrom g s live root v i j ↔
      live v.1 v.2.1 v.2.2 ∧ ∃ p B C m fs', p ∈ g.productions ∧ p.children = .binary B C ∧
        (i < m ∧ m < j) ∧ fs' ∈ around g s live root (i, j, p.parent) ∧
        ((v = (i, m, B) ∧ ∃ d ∈ below g s live m j C, .left p d :: fs' = fs) ∨
          (v = (m, j, C) ∧ ∃ d ∈ below g s live i m B, .right p d :: fs' = fs)) := by
  constructor
  · rintro ⟨hfs, f, fs', rfl, hbinary, hspan⟩
    refine ⟨hfs.alive, ?_⟩
    cases hfs with
    | cons joins above alive =>
      rw [parentSpan_eq joins] at hspan
      cases joins with
      | unary => cases hbinary
      | @left i' m j' p B C d mem children lt sister =>
        obtain ⟨rfl, rfl⟩ := Prod.mk.inj hspan
        exact ⟨p, B, C, m, fs', mem, children, ⟨lt, sister.start_lt⟩, above,
          .inl ⟨rfl, d, sister, rfl⟩⟩
      | @right i' m j' p B C d mem children lt sister =>
        obtain ⟨rfl, rfl⟩ := Prod.mk.inj hspan
        exact ⟨p, B, C, m, fs', mem, children, ⟨sister.start_lt, lt⟩, above,
          .inr ⟨rfl, d, sister, rfl⟩⟩
  · rintro ⟨hv, p, B, C, m, fs', hp, hpc, hm, hfs', ⟨rfl, d, hd, rfl⟩ | ⟨rfl, d, hd, rfl⟩⟩
    · have joins : (Frame.left p d).Joins g s live (i, j, p.parent) (i, m, B) :=
        .left hp hpc hm.1 hd
      exact ⟨.cons joins hfs' hv, _, _, rfl, rfl, parentSpan_eq joins⟩
    · have joins : (Frame.right p d).Joins g s live (i, j, p.parent) (m, j, C) :=
        .right hp hpc hm.2 hd
      exact ⟨.cons joins hfs' hv, _, _, rfl, rfl, parentSpan_eq joins⟩

/-- The contexts that begin with a rule at a midpoint, around its left child or around its right one. -/
def aroundRule (g : Grammar α) (s : Sentence) (live : Nat → Nat → NonTerminal → Prop)
    (root v : Place) (i m j : Nat) (p : Production α) (B C : NonTerminal) : Set (List (Frame α)) :=
  framed (.left p) (around g s live root (i, j, p.parent)) (below g s live m j C) (v = (i, m, B)) ∪
    framed (.right p) (around g s live root (i, j, p.parent)) (below g s live i m B) (v = (m, j, C))

section Rule

variable {p : Production α} {B C : NonTerminal} {d : Derivation α}

omit [Score α] in
theorem mem_aroundRule (hv : live v.1 v.2.1 v.2.2) (hp : p ∈ g.productions)
    (hpc : p.children = .binary B C) (hm : i < m ∧ m < j) :
    fs ∈ aroundRule g s live root v i m j p B C ↔
      ((fs ∈ aroundFrom g s live root v i j ∧ midpoint? v fs = some m) ∧
        ((lowestRule? fs).bind fun p => leftChild? p.children) = some B) ∧
        lowestRule? fs = some p := by
  constructor
  · rintro (⟨rfl, fs', hfs', r, hr, rfl⟩ | ⟨rfl, fs', hfs', l, hl, rfl⟩)
    · exact ⟨⟨⟨mem_aroundFrom.2 ⟨hv, p, B, C, m, fs', hp, hpc, hm, hfs', .inl ⟨rfl, r, hr, rfl⟩⟩,
        rfl⟩, congrArg leftChild? hpc⟩, rfl⟩
    · exact ⟨⟨⟨mem_aroundFrom.2 ⟨hv, p, B, C, m, fs', hp, hpc, hm, hfs', .inr ⟨rfl, l, hl, rfl⟩⟩,
        rfl⟩, congrArg leftChild? hpc⟩, rfl⟩
  · rintro ⟨⟨⟨hfs, hmid⟩, -⟩, hrule⟩
    obtain ⟨-, q, B', C', m', fs', -, hqc, -, hfs', ⟨rfl, r, hr, rfl⟩ | ⟨rfl, l, hl, rfl⟩⟩ :=
      mem_aroundFrom.1 hfs
    · obtain rfl : q = p := Option.some.inj hrule
      obtain ⟨rfl, rfl⟩ := Children.binary.inj (hqc.symm.trans hpc)
      obtain rfl : m' = m := Option.some.inj hmid
      exact .inl ⟨rfl, fs', hfs', r, hr, rfl⟩
    · obtain rfl : q = p := Option.some.inj hrule
      obtain ⟨rfl, rfl⟩ := Children.binary.inj (hqc.symm.trans hpc)
      obtain rfl : m' = m := Option.some.inj hmid
      exact .inr ⟨rfl, fs', hfs', l, hl, rfl⟩

/-- The outside score of a place stands for its contexts, whether or not the chart has an entry there. -/
theorem hasTotal_around (h : acc.Exact R weight) (hc : c.Sound g)
    (hlive : ∀ i j A, live i j A ↔ A ∈ c.symbols i j)
    (houtside : ∀ A, ∀ d ∈ below g s live i j A,
      HasTotal (around g s live root (i, j, A)) (plugged weight d)
        (weight (c.outside i j A) * probability weight d))
    (hd : live i j A → DerivesIn g s live i j A d) :
    HasTotal (around g s live root (i, j, A)) (plugged weight d)
      (weight (c.outside i j A) * probability weight d) := by
  by_cases hA : live i j A
  · exact houtside _ d (hd hA)
  · rw [outside_of_not_mem hc fun hmem => hA ((hlive _ _ _).2 hmem), h.impossible, zero_mul]
    exact (HasTotal.empty _).congr fun fs =>
      ⟨fun hfs => hfs.elim, fun hfs => absurd hfs.alive hA⟩

/-- The contexts that begin with a rule add up the sisters of either child. -/
theorem hasTotal_aroundRule (h : acc.Exact R weight) (hc : c.Sound g)
    (hlive : ∀ i j A, live i j A ↔ A ∈ c.symbols i j)
    (hinside : ∀ i j A, HasTotal (below g s live i j A) (probability weight)
      (weight (c.inside i j A)))
    (houtside : ∀ A, ∀ d ∈ below g s live i j A,
      HasTotal (around g s live root (i, j, A)) (plugged weight d)
        (weight (c.outside i j A) * probability weight d))
    (hp : p ∈ g.productions) (hpc : p.children = .binary B C) (hd : DerivesAt g s live v d) :
    HasTotal (aroundRule g s live root v i m j p B C) (plugged weight d)
      ((if v = (i, m, B) then weight (c.outside i j p.parent) *
          (weight p.logProb * probability weight d * weight (c.inside m j C)) else 0) +
        if v = (m, j, C) then weight (c.outside i j p.parent) *
          (weight p.logProb * probability weight d * weight (c.inside i m B)) else 0) := by
  refine HasTotal.union ?_ ?_ ?_
  · refine hasTotal_framed (fun _ _ heq => (Frame.left.inj heq).2) ((hinside m j C).mul _) _
      fun hv r hr => ?_
    subst hv
    rw [probability, ← h.add, probability, ← h.add]
    exact hasTotal_around (d := .binary p d r) h hc hlive houtside fun hparent =>
      .binary hp hpc hd hr hparent
  · refine hasTotal_framed (fun _ _ heq => (Frame.right.inj heq).2) ((hinside i m B).mul _) _
      fun hv l hl => ?_
    subst hv
    rw [mul_right_comm, probability, ← h.add, probability, ← h.add]
    exact hasTotal_around (d := .binary p l d) h hc hlive houtside fun hparent =>
      .binary hp hpc hl hd hparent
  · rw [Set.disjoint_left]
    rintro _ ⟨-, fs, -, d, -, rfl⟩ ⟨-, fs', -, d', -, heq⟩
    cases heq

/-- The two contributions of a rule at a midpoint add up the contexts that begin with it. The one to the
right child is left out if that child is impossible; then all of its derivations have weight zero. -/
theorem sum_contributions (h : acc.Exact R weight)
    (hinside : ∀ i j A, HasTotal (below g s live i j A) (probability weight)
      (weight (c.inside i j A)))
    (hd : DerivesAt g s live v d) (p : Production α) :
    (((if c.outside i j p.parent == Score.impossible || c.inside m j C == Score.impossible then []
      else [⟨i, m, B, c.outside i j p.parent + p.logProb + c.inside m j C⟩,
        ⟨m, j, C, c.outside i j p.parent + p.logProb + c.inside i m B⟩]).map
          fun x => given weight v x * probability weight d).sum) =
      (if v = (i, m, B) then weight (c.outside i j p.parent) *
          (weight p.logProb * probability weight d * weight (c.inside m j C)) else 0) +
        if v = (m, j, C) then weight (c.outside i j p.parent) *
          (weight p.logProb * probability weight d * weight (c.inside i m B)) else 0 := by
  by_cases himp : (c.outside i j p.parent == Score.impossible ||
      c.inside m j C == Score.impossible) = true
  · rw [if_pos himp, List.map_nil, List.sum_nil]
    rcases Bool.or_eq_true .. ▸ himp with hout | hright
    · simp [h.beq_impossible _ hout]
    · have hnone := h.beq_impossible _ hright
      by_cases hvC : v = (m, j, C)
      · subst hvC
        have htotal := hinside m j C
        rw [hnone] at htotal
        simp [hnone, htotal.eq_zero_of_mem h.eq_zero_of_add hd]
      · simp [hnone, hvC]
  · rw [if_neg himp]
    simp [given, h.add, mul_assoc, mul_comm, mul_left_comm]

end Rule

/-- The contributions of a span to a place add up the contexts that begin there. -/
theorem hasTotal_binaryOutside (h : acc.Exact R weight) (hc : c.Sound g)
    (hlive : ∀ i j A, live i j A ↔ A ∈ c.symbols i j)
    (hinside : ∀ i j A, HasTotal (below g s live i j A) (probability weight)
      (weight (c.inside i j A)))
    (houtside : ∀ A, ∀ d ∈ below g s live i j A,
      HasTotal (around g s live root (i, j, A)) (plugged weight d)
        (weight (c.outside i j A) * probability weight d))
    {d : Derivation α} (hd : DerivesAt g s live v d) :
    HasTotal (aroundFrom g s live root v i j) (plugged weight d)
      (((c.binaryOutside g i j).map (given weight v)).sum * probability weight d) := by
  rw [← List.sum_map_mul_right]
  rw [binaryOutside]
  refine HasTotal.flatMap (midpoint? v) (nodup_midpoints i j) (fun fs hfs => ?_) fun m hm => ?_
  · obtain ⟨-, p, B, C, m, fs', -, -, hm, -, ⟨rfl, d, hd, rfl⟩ | ⟨rfl, d, hd, rfl⟩⟩ :=
      mem_aroundFrom.1 hfs
    · exact ⟨m, mem_midpoints.2 hm, rfl⟩
    · exact ⟨m, mem_midpoints.2 hm, rfl⟩
  rw [mem_midpoints] at hm
  rw [scored_eq hc, List.flatMap_map]
  refine HasTotal.flatMap (fun fs => (lowestRule? fs).bind fun p => leftChild? p.children)
    ((nodup_symbols hc i m).filter _) (fun fs hfs => ?_) fun B hB => ?_
  · obtain ⟨hv, p, B, C, m', fs', hp, hpc, -, -, hends⟩ := mem_aroundFrom.1 hfs.1
    have hisLeft : c.classes.isLeft B = true := by
      rw [hc.classes_eq]
      exact Grammar.isLeft_of_mem hp hpc
    rcases hends with ⟨rfl, d, hd, rfl⟩ | ⟨rfl, d, hd, rfl⟩
    · obtain rfl := Option.some.inj hfs.2
      exact ⟨B, List.mem_filter.2 ⟨(hlive _ _ _).1 hv, hisLeft⟩, congrArg leftChild? hpc⟩
    · obtain rfl := Option.some.inj hfs.2
      exact ⟨B, List.mem_filter.2 ⟨(hlive _ _ _).1 hd.alive, hisLeft⟩, congrArg leftChild? hpc⟩
  refine HasTotal.flatMap lowestRule? (g.nodup_byLeftChild B) (fun fs hfs => ?_) fun p hp => ?_
  · obtain ⟨hv, p, B', C, m', fs', hp, hpc, -, -, hends⟩ := mem_aroundFrom.1 hfs.1.1
    have hrule : lowestRule? fs = some p := by
      rcases hends with ⟨-, d, -, rfl⟩ | ⟨-, d, -, rfl⟩ <;> rfl
    have hB' := hfs.2
    rw [hrule, Option.bind_some, hpc] at hB'
    obtain rfl := Option.some.inj hB'
    exact ⟨p, Grammar.mem_byLeftChild.2 ⟨hp, C, hpc⟩, hrule⟩
  obtain ⟨hp, C, hpc⟩ := Grammar.mem_byLeftChild.1 hp
  rw [hpc]
  dsimp only
  rw [sum_contributions h hinside hd]
  exact (hasTotal_aroundRule h hc hlive hinside houtside hp hpc hd).congr fun fs =>
    mem_aroundRule hd.alive hp hpc hm

/-! ## The pass -/

/-- What holds of the outside scores when some spans have been visited. -/
structure Passed (g : Grammar α) (s : Sentence) (weight : α → R) (c : PackedChart α)
    (visited : List (Nat × Nat)) (c' : PackedChart α) : Prop where
  same : SameInside c c'
  done : ∀ i j A, (i, j) ∈ visited → ∀ d ∈ below g s c.Live i j A,
    HasTotal (around g s c.Live (0, c.size, g.start) (i, j, A)) (plugged weight d)
      (weight (c'.outside i j A) * probability weight d)
  handed : ∀ i j A, (i, j) ∉ visited → ∀ d ∈ below g s c.Live i j A,
    HasTotal {fs | fs ∈ around g s c.Live (0, c.size, g.start) (i, j, A) ∧
        Handed visited (i, j, A) fs} (plugged weight d)
      (weight (c'.outside i j A) * probability weight d)

omit [Score α] in
/-- Before any span has been visited only the empty context has been handed down. -/
theorem mem_handed_nil (hlive : live i j A) :
    (fs ∈ around g s live root (i, j, A) ∧ Handed [] (i, j, A) fs) ↔
      ((i = root.1 ∧ j = root.2.1) ∧ A = root.2.2) ∧ fs = [] := by
  constructor
  · rintro ⟨hfs, hhanded⟩
    cases hfs with
    | nil => exact ⟨⟨⟨rfl, rfl⟩, rfl⟩, rfl⟩
    | cons => exact absurd hhanded.2 List.not_mem_nil
  · rintro ⟨⟨⟨rfl, rfl⟩, rfl⟩, rfl⟩
    exact ⟨.nil hlive, trivial⟩

theorem passed_unsurrounded (h : acc.Exact R weight) (hc : c.Sound g) (s : Sentence) :
    Passed g s weight c [] (c.unsurrounded g) := by
  obtain ⟨hsame, hout⟩ := unsurrounded_spec hc
  refine ⟨hsame, fun i j A hmem => absurd hmem List.not_mem_nil, fun i j A _ d hd => ?_⟩
  rw [hout i j A ((mem_symbols hc).2 hd.alive)]
  have hset : ∀ fs, (fs ∈ around g s c.Live (0, c.size, g.start) (i, j, A) ∧
      Handed [] (i, j, A) fs) ↔ ((i = 0 ∧ j = c.size) ∧ A = g.start) ∧ fs = [] :=
    fun _ => mem_handed_nil hd.alive
  by_cases hroot : (i = 0 ∧ j = c.size) ∧ A = g.start
  · rw [if_pos hroot, h.zero, one_mul]
    exact (HasTotal.singleton [] (plugged weight d)).congr fun fs =>
      ⟨fun hfs => (hset fs).2 ⟨hroot, hfs⟩, fun hfs => ((hset fs).1 hfs).2⟩
  · rw [if_neg hroot, h.impossible, zero_mul]
    exact (HasTotal.empty _).congr fun fs =>
      ⟨fun hfs => hfs.elim, fun hfs => absurd ((hset fs).1 hfs).1 hroot⟩

omit [Score α] in
theorem handed_append {visited : List (Nat × Nat)} :
    Handed (visited ++ [(i, j)]) v fs ↔ Handed visited v fs ∨
      ∃ f fs', fs = f :: fs' ∧ f.isUnary = false ∧ parentSpan v f = (i, j) := by
  cases fs with
  | nil => exact ⟨fun _ => .inl trivial, fun _ => trivial⟩
  | cons f fs =>
    rw [Handed, Handed, List.mem_append, List.mem_singleton, and_or_left]
    refine or_congr_right ⟨fun hf => ⟨f, fs, rfl, hf⟩, ?_⟩
    rintro ⟨f', fs', heq, hf⟩
    obtain ⟨rfl, rfl⟩ := List.cons.inj heq
    exact hf

omit [Score α] in
/-- A span hands down to shorter spans only. -/
theorem aroundFrom_eq_empty (hlong : j - i ≤ v.2.1 - v.1) :
    aroundFrom g s live root v i j = ∅ := by
  rw [Set.eq_empty_iff_forall_notMem]
  intro fs hfs
  obtain ⟨-, p, B, C, m, fs', -, -, hm, -, ⟨rfl, -⟩ | ⟨rfl, -⟩⟩ := mem_aroundFrom.1 hfs <;>
    dsimp only at hlong <;> omega

omit [Score α] in
/-- What a span hands down that has not been visited is new. -/
theorem disjoint_handed {visited : List (Nat × Nat)} (hnew : (i, j) ∉ visited) :
    Disjoint {fs | fs ∈ around g s live root v ∧ Handed visited v fs}
      (aroundFrom g s live root v i j) := by
  rw [Set.disjoint_left]
  rintro fs ⟨-, hhanded⟩ ⟨-, f, fs', rfl, -, hspan⟩
  exact hnew (hspan ▸ hhanded.2)

omit [Score α] in
/-- What has been handed down once a span has been visited is what had been, and what that span adds. -/
theorem mem_handed_append {visited : List (Nat × Nat)} :
    fs ∈ {fs | fs ∈ around g s live root v ∧ Handed visited v fs} ∪ aroundFrom g s live root v i j ↔
      fs ∈ {fs | fs ∈ around g s live root v ∧ Handed (visited ++ [(i, j)]) v fs} := by
  refine Iff.trans ?_ (and_congr_right fun _ => handed_append).symm
  rw [and_or_left]
  rfl

theorem SameInside.live_iff (hc : c.Sound g) (h : SameInside c c') (i j : Nat) (A : NonTerminal) :
    c.Live i j A ↔ A ∈ c'.symbols i j := by
  rw [h.symbols_eq, mem_symbols hc]
  rfl

omit [Score α] in
/-- When all longer spans have been visited, the contexts handed over are those without unary rules right
above. -/
theorem handed_iff {visited : List (Nat × Nat)} (hlive : ∀ i j A, live i j A → j ≤ l)
    (hlonger : ∀ k m, k < m → m ≤ l → j - i < m - k → (k, m) ∈ visited)
    (hfs : fs ∈ around g s live root (i, j, A)) :
    Handed visited (i, j, A) fs ↔ (rungs fs).length = 0 := by
  cases hfs with
  | nil => exact ⟨fun _ => rfl, fun _ => trivial⟩
  | cons joins above alive =>
    have hspan := parentSpan_eq joins
    have hle := hlive _ _ _ above.alive
    cases joins with
    | unary => exact ⟨fun hhanded => (by cases hhanded.1), fun hn => (by cases hn)⟩
    | @left _ _ stop _ _ _ _ mem children lt sister =>
      have := sister.start_lt
      exact ⟨fun _ => rfl, fun _ => ⟨rfl, hspan ▸ hlonger i stop (by omega) hle (by omega)⟩⟩
    | @right start _ _ _ _ _ _ mem children lt sister =>
      have := sister.start_lt
      exact ⟨fun _ => rfl, fun _ => ⟨rfl, hspan ▸ hlonger start j (by omega) hle (by omega)⟩⟩

/-- The completed outside scores of a cell. -/
theorem hasTotal_completed (h : acc.Exact R weight) (hg : g.UnaryAcyclic)
    (hlive : ∀ i j A, live i j A ↔ A ∈ c'.symbols i j)
    (hbase : ∀ A ∈ c'.symbols i j, ∀ d ∈ below g s live i j A,
      HasTotal {fs | fs ∈ around g s live root (i, j, A) ∧ (rungs fs).length = 0}
        (plugged weight d) (weight (c'.outside i j A) * probability weight d))
    (hA : A ∈ c'.symbols i j) (d : Derivation α) (hd : d ∈ below g s live i j A) :
    HasTotal (around g s live root (i, j, A)) (plugged weight d)
      (weight (completed acc c' g i j A) * probability weight d) := by
  have hlevels := upTo_addScores (V := (weight · = 0))
    (P := fun n A x => ∀ d ∈ below g s live i j A,
      HasTotal {fs | fs ∈ around g s live root (i, j, A) ∧ (rungs fs).length = n}
        (plugged weight d) (weight x * probability weight d))
    (Q := fun n A x => ∀ d ∈ below g s live i j A,
      HasTotal {fs | fs ∈ around g s live root (i, j, A) ∧ (rungs fs).length ≤ n}
        (plugged weight d) (weight x * probability weight d))
    (fun n A x y hx hy d hd => by
      rw [h.combine, add_mul]
      exact hasTotal_succ (hx d hd) (hy d hd))
    (fun n A x y hx hy hzero d hd => by simpa [hzero] using hasTotal_succ (hx d hd) (hy d hd))
    (hasTotal_downScore h (hlive i j))
    (fun level hnone A _ => weight_downScore_eq_zero h level hnone A) h.beq_impossible hbase
    (fun A hA d hd => (hbase A hA d hd).congr fun fs => and_congr_right fun _ => Nat.le_zero.symm)
    (c'.symbols i j).length hA d hd
  refine hlevels.congr fun fs => ⟨fun hfs => hfs.1, fun hfs => ⟨hfs, ?_⟩⟩
  have := Surrounds.length_rungs_lt hg hfs fun B hB => (hlive i j B).1 hB
  omega

theorem passDown_passed (h : acc.Exact R weight) (hg : g.UnaryAcyclic) (hc : c.Sound g)
    (hinside : ∀ i j A, HasTotal (below g s c.Live i j A) (probability weight)
      (weight (c.inside i j A)))
    {visited : List (Nat × Nat)} (hnew : (i, j) ∉ visited)
    (hlonger : ∀ k l, k < l → l ≤ c.size → j - i < l - k → (k, l) ∈ visited)
    (hshort : ∀ k l, (k, l) ∈ visited → j - i ≤ l - k) (hv : Passed g s weight c visited c') :
    Passed g s weight c (visited ++ [(i, j)]) (passDown acc g c' (i, j)) := by
  have hc' := hv.same.sound hc
  have hsame := hv.same.trans (sameInside_complete acc (hv.same.sound hc) i j)
  have hlive : ∀ {c' : PackedChart α}, SameInside c c' → ∀ i j A, c.Live i j A ↔ A ∈ c'.symbols i j :=
    fun hsame => hsame.live_iff hc
  obtain ⟨hsame', hout⟩ := passDown_spec acc hc' i j
  have hcell : ∀ A, ∀ d ∈ below g s c.Live i j A,
      HasTotal (around g s c.Live (0, c.size, g.start) (i, j, A)) (plugged weight d)
        (weight ((complete acc g c' i j).outside i j A) * probability weight d) := by
    intro A d hd
    have hA := (hlive hv.same i j A).1 hd.alive
    rw [outside_complete hc' i j hA, if_pos ⟨rfl, rfl⟩]
    refine hasTotal_completed h hg (hlive hv.same) (fun B hB e he => ?_) hA d hd
    refine (hv.handed i j B hnew e he).congr fun fs => and_congr_right fun hfs => ?_
    exact handed_iff (fun i j A hA => (hc.bounds_of_live hA).2) hlonger hfs
  have hadded : ∀ k l A, ∀ d ∈ below g s c.Live k l A,
      HasTotal (aroundFrom g s c.Live (0, c.size, g.start) (k, l, A) i j) (plugged weight d)
        ((((complete acc g c' i j).binaryOutside g i j).map (given weight (k, l, A))).sum *
          probability weight d) := by
    intro k l A d hd
    refine hasTotal_binaryOutside h (hsame.sound hc) (hlive hsame) (fun i j A => ?_) hcell hd
    rw [hsame.inside_eq]
    exact hinside i j A
  have houtside : ∀ k l A, ∀ d ∈ below g s c.Live k l A,
      weight ((passDown acc g c' (i, j)).outside k l A) * probability weight d =
        weight ((complete acc g c' i j).outside k l A) * probability weight d +
          (((complete acc g c' i j).binaryOutside g i j).map (given weight (k, l, A))).sum *
            probability weight d := by
    intro k l A d hd
    rw [hout k l A ((hlive hv.same k l A).1 hd.alive), weight_foldl_receive h, add_mul]
  refine ⟨hv.same.trans hsame', fun k l A hkl d hd => ?_, fun k l A hkl d hd => ?_⟩
  · have hlong : j - i ≤ l - k := by
      rcases List.mem_append.1 hkl with hkl | hkl
      · exact hshort k l hkl
      · obtain ⟨rfl, rfl⟩ := Prod.mk.inj (List.mem_singleton.1 hkl)
        exact Nat.le_refl _
    have hnone : aroundFrom g s c.Live (0, c.size, g.start) (k, l, A) i j = ∅ :=
      aroundFrom_eq_empty hlong
    have hzero := hadded k l A d hd
    rw [hnone] at hzero
    rw [houtside k l A d hd, hzero.unique (.empty _), add_zero]
    by_cases heq : k = i ∧ l = j
    · obtain ⟨rfl, rfl⟩ := heq
      exact hcell A d hd
    · rw [outside_complete hc' i j ((hlive hv.same k l A).1 hd.alive), if_neg heq]
      rw [List.mem_append, List.mem_singleton, Prod.mk.injEq] at hkl
      exact hv.done k l A (hkl.resolve_right heq) d hd
  · rw [List.mem_append, List.mem_singleton, Prod.mk.injEq, not_or] at hkl
    rw [houtside k l A d hd, outside_complete hc' i j ((hlive hv.same k l A).1 hd.alive),
      if_neg hkl.2]
    exact ((hv.handed k l A hkl.1 d hd).union (hadded k l A d hd) (disjoint_handed hnew)).congr
      fun fs => mem_handed_append

/-- The outside score of an entry stands for all of its contexts, as far as these are contexts of
derivations at all. -/
theorem hasTotal_outside (h : acc.Exact R weight) (hg : g.UnaryAcyclic) (hc : c.Sound g)
    (hinside : ∀ i j A, HasTotal (below g s c.Live i j A) (probability weight)
      (weight (c.inside i j A))) :
    SameInside c (c.surround acc g) ∧ ∀ i j A, ∀ d ∈ below g s c.Live i j A,
      HasTotal (around g s c.Live (0, c.size, g.start) (i, j, A)) (plugged weight d)
        (weight ((c.surround acc g).outside i j A) * probability weight d) := by
  have hpass : Passed g s weight c (spansDown c.size) (c.surround acc g) := by
    refine spansDown_induction (passed_unsurrounded h hc s)
      fun visited i j c' hij hj hnew hlonger hshort hv => ?_
    exact passDown_passed h hg hc hinside hnew hlonger hshort hv
  exact ⟨hpass.same, fun i j A d hd =>
    hpass.done i j A (mem_spansDown.2 (hc.bounds_of_live hd.alive)) d hd⟩

/-! ## Both passes -/

/-- The chart after both passes. -/
def weighed (acc : Accumulator α) (g : Grammar α) (s : Sentence) (c : PackedChart α) :
    PackedChart α :=
  (c.resum acc g s.terminals).surround acc g

omit [Score α] in
/-- The complete derivations of a sentence from entries of a chart that contain a constituent. -/
def through (g : Grammar α) (s : Sentence) (c : PackedChart α) (i j : Nat) (A : NonTerminal) :
    Set (Derivation α) :=
  {d | DerivesIn g s c.Live 0 c.size g.start d ∧ (i, j, A) ∈ d.nodes 0}

/-- The passes give the scores of the constituents, and keep the entries of the chart. -/
theorem weighed_spec (h : acc.Exact R weight) (hg : g.UnaryAcyclic) (hc : c.Sound g)
    (s : Sentence) :
    Reweighed c (c.weighed acc g s) ∧
      (∀ i j A, HasTotal (below g s c.Live i j A) (probability weight)
        (weight ((c.weighed acc g s).inside i j A))) ∧
      ∀ i j A, HasTotal (through g s c i j A) (probability weight)
        (weight ((c.weighed acc g s).inside i j A) *
          weight ((c.weighed acc g s).outside i j A)) := by
  obtain ⟨hup, hin⟩ := hasTotal_inside h hg hc s
  have hlive : (c.resum acc g s.terminals).Live = c.Live := by
    funext i j A
    rw [Live, Live, hup.isSome_get? hc]
  have houtside := hasTotal_outside (s := s) h hg (hup.sound hc) (by rwa [hlive])
  rw [hlive, hup.size_eq] at houtside
  obtain ⟨hdown, hout⟩ := houtside
  have hinside : ∀ i j A, HasTotal (below g s c.Live i j A) (probability weight)
      (weight ((c.weighed acc g s).inside i j A)) := by
    intro i j A
    rw [weighed, hdown.inside_eq]
    exact hin i j A
  refine ⟨hup.trans hdown.toReweighed, hinside, fun i j A => ?_⟩
  rw [mul_comm]
  refine (HasTotal.image2 (f := plug) (fun fs hfs d hd fs' hfs' d' hd' heq =>
    hfs.plug_inj hg hfs' hd hd' heq) (hinside i j A) fun d hd => hout i j A d hd).congr fun t => ?_
  constructor
  · rintro ⟨fs, hfs, d, hd, rfl⟩
    have ht := hfs.derives hd
    exact ⟨ht, (Surrounds.mem_nodes_iff ht).2 ⟨fs, d, hfs, hd, rfl⟩⟩
  · rintro ⟨ht, hnode⟩
    obtain ⟨fs, d, hfs, hd, rfl⟩ :=
      (Surrounds.mem_nodes_iff (u := (0, c.size, g.start)) ht).1 hnode
    exact ⟨fs, hfs, d, hd, rfl⟩

/-- For every entry of a packed chart the inside and the outside score together stand for all complete
derivations from entries of the chart that contain it, with scores that stand for the members of a
commutative semiring. If these are probabilities, their sum is at most that of all derivations, and the
posterior score of an entry is at most zero. -/
theorem inside_mul_outside (s : Sentence) (i j : Nat) (A : NonTerminal) :
    (∀ {α R : Type} [Score α] [CommSemiring R] {weight : α → R} {acc : Accumulator α}
        (g : Grammar α) (c : PackedChart α), acc.Exact R weight → g.UnaryAcyclic → c.Sound g →
      HasTotal (through g s c i j A) (fun d => weight d.score)
        (weight ((c.weighed acc g s).inside i j A) *
          weight ((c.weighed acc g s).outside i j A))) ∧
    ∀ (g : Grammar EReal) (c : PackedChart EReal), g.UnaryAcyclic → c.Sound g →
      (c.weighed .exactSum g s).inside i j A + (c.weighed .exactSum g s).outside i j A ≤
          (c.weighed .exactSum g s).inside 0 c.size g.start ∧
        (c.weighed .exactSum g s).inside i j A + (c.weighed .exactSum g s).outside i j A -
          (c.weighed .exactSum g s).inside 0 c.size g.start ≤ 0 := by
  refine ⟨fun g c h hg hc => (weighed_spec h hg hc s).2.2 i j A, fun g c hg hc => ?_⟩
  obtain ⟨-, hinside, hthrough⟩ := weighed_spec Accumulator.exact_exactSum hg hc s
  have hle := (hthrough i j A).le_of_subset (hinside 0 c.size g.start) fun d hd => hd.1
  rw [← EReal.exp_add, EReal.exp_le_exp_iff] at hle
  exact ⟨hle, EReal.sub_nonpos.2 hle⟩

theorem unaryAcyclic_chain {α : Type} (top middle word : α) :
    (Chain.grammar top middle word).UnaryAcyclic := by
  refine Grammar.unaryAcyclic_of_parent_lt fun p hp child hpc => ?_
  simp only [Chain.grammar, Grammar.ofProductions, List.mem_cons, List.not_mem_nil, or_false] at hp
  rcases hp with rfl | rfl | rfl
  · cases hpc
    exact Nat.zero_lt_one
  · cases hpc
    exact Nat.one_lt_two
  · cases hpc

/-- A chart with all three symbols over the word. -/
def chainChart {α : Type} [Score α] (g : Grammar α) : PackedChart α :=
  (empty 1 g).write 0 1 [⟨0, 0, .unary 1⟩, ⟨1, 0, .unary 2⟩, ⟨2, 0, .lexical 0⟩]

theorem sound_chainChart {α : Type} [Score α] {g : Grammar α} (hg : g.numNonterminals = 3) :
    (chainChart g).Sound g := by
  refine (write_spec (sound_empty 1 g) Nat.zero_lt_one (Nat.le_refl 1) (row_empty 1 g 0 1)
    (by simp) fun e he => ?_).2
  rw [hg]
  simp only [List.mem_cons, List.not_mem_nil, or_false] at he
  rcases he with rfl | rfl | rfl <;> dsimp only <;> decide

theorem chain_inside_mul_outside :
    HasTotal (through Chain.whole Chain.sentence (chainChart Chain.whole) 0 1 1)
        (fun d => loss d.score) (loss (-1 : ℤ) * loss (-1 : ℤ)) ∧
      ((chainChart (Chain.grammar (0 : EReal) 0 0)).weighed .exactSum (Chain.grammar 0 0 0)
          Chain.sentence).inside 0 1 1 +
        ((chainChart (Chain.grammar (0 : EReal) 0 0)).weighed .exactSum (Chain.grammar 0 0 0)
          Chain.sentence).outside 0 1 1 -
        ((chainChart (Chain.grammar (0 : EReal) 0 0)).weighed .exactSum (Chain.grammar 0 0 0)
          Chain.sentence).inside 0 1 0 ≤ 0 := by
  have hin : ((chainChart Chain.whole).weighed .best Chain.whole Chain.sentence).inside 0 1 1 =
      (-1 : ℤ) := by decide +kernel
  have hout : ((chainChart Chain.whole).weighed .best Chain.whole Chain.sentence).outside 0 1 1 =
      (-1 : ℤ) := by decide +kernel
  have hsize : Chain.symbols.numNonterminals = 3 := by decide
  have htotal := (inside_mul_outside Chain.sentence 0 1 1).1 Chain.whole (chainChart Chain.whole)
    Accumulator.exact_best (unaryAcyclic_chain _ _ _) (sound_chainChart hsize)
  rw [hin, hout] at htotal
  exact ⟨htotal, ((inside_mul_outside Chain.sentence 0 1 1).2 (Chain.grammar 0 0 0)
    (chainChart (Chain.grammar 0 0 0)) (unaryAcyclic_chain _ _ _) (sound_chainChart hsize)).2⟩

end PackedChart

end Constituency
