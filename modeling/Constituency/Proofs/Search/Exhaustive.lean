import Mathlib
import Constituency.Parser
import Constituency.Proofs.Chart.Basic
import Constituency.Proofs.Combination
import Constituency.Proofs.Grammar.Chain

/-!
# Exhaustive search counts every derivation once

The exhaustive search applies unary rules once to each cell, to what the cell holds at that time. What it
counts are therefore the derivations in which no unary rule stands directly on top of another one: each
of them once, and no other. The argument does not depend on how scores combine.
-/

namespace Constituency

namespace Exhaustive

variable {α : Type} {g : Grammar α} {s : Sentence} {i j : Nat} {A : NonTerminal}
  {d : Derivation α}

/-! ## What is counted -/

/-- The derivations of a span from a symbol without unary rules on top of each other. -/
def single (g : Grammar α) (s : Sentence) (i j : Nat) (A : NonTerminal) : Set (Derivation α) :=
  {d | Derives g s i j A d ∧ d.SingleUnaries}

/-- Those of them that have no unary rule at the top. -/
def base (g : Grammar α) (s : Sentence) (i j : Nat) (A : NonTerminal) : Set (Derivation α) :=
  {d | d ∈ single g s i j A ∧ d.isUnary = false}

/-- Those of them that have a unary rule at the top. -/
def topped (g : Grammar α) (s : Sentence) (i j : Nat) (A : NonTerminal) : Set (Derivation α) :=
  {d | d ∈ single g s i j A ∧ d.isUnary = true}

theorem base_union_topped : base g s i j A ∪ topped g s i j A = single g s i j A := by
  ext d
  constructor
  · rintro (h | h)
    · exact h.1
    · exact h.1
  · intro h
    cases htop : d.isUnary with
    | false => exact .inl ⟨h, htop⟩
    | true => exact .inr ⟨h, htop⟩

theorem disjoint_base_topped : Disjoint (base g s i j A) (topped g s i j A) := by
  rw [Set.disjoint_left]
  rintro d ⟨-, hbase⟩ ⟨-, htop⟩
  rw [hbase] at htop
  cases htop

theorem mem_base_cases (hd : d ∈ base g s i j A) :
    (∃ p word, d = .word p ∧ p ∈ g.productions ∧ p.parent = A ∧ p.children = .lexical word ∧
      j = i + 1 ∧ s.terminal? i = some word) ∨
    ∃ p left right m e f, d = .binary p e f ∧ p ∈ g.productions ∧ p.parent = A ∧
      p.children = .binary left right ∧ i < m ∧ m < j ∧ e ∈ single g s i m left ∧
      f ∈ single g s m j right := by
  obtain ⟨⟨hder, hsingle⟩, hnot⟩ := hd
  cases d with
  | word p =>
    obtain ⟨hp, hA, hj, -, word, hc, hterm⟩ := DerivesIn.word_iff.1 hder
    exact .inl ⟨p, word, rfl, hp, hA, hc, hj, hterm⟩
  | unary p e => cases hnot
  | binary p e f =>
    obtain ⟨hp, hA, -, left, right, m, hc, he, hf⟩ := DerivesIn.binary_iff.1 hder
    exact .inr ⟨p, left, right, m, e, f, rfl, hp, hA, hc, he.start_lt, hf.start_lt,
      ⟨he, hsingle.1⟩, ⟨hf, hsingle.2⟩⟩

theorem mem_topped_iff : d ∈ topped g s i j A ↔
    ∃ p child e, d = .unary p e ∧ p ∈ g.productions ∧ p.parent = A ∧ p.children = .unary child ∧
      e ∈ base g s i j child := by
  constructor
  · rintro ⟨⟨hder, hsingle⟩, htop⟩
    cases d with
    | unary p e =>
      obtain ⟨hp, hA, -, child, hc, he⟩ := DerivesIn.unary_iff.1 hder
      exact ⟨p, child, e, rfl, hp, hA, hc, ⟨he, hsingle.2⟩, hsingle.1⟩
    | word => cases htop
    | binary => cases htop
  · rintro ⟨p, child, e, rfl, hp, hA, hc, ⟨he, hsingle⟩, hnot⟩
    exact ⟨⟨DerivesIn.unary_iff.2 ⟨hp, hA, trivial, child, hc, he⟩, hnot, hsingle⟩, rfl⟩

/-- There are finitely many of these derivations. -/
theorem finite_single (g : Grammar α) (s : Sentence) (i j : Nat) (A : NonTerminal) :
    (single g s i j A).Finite := by
  have hrules : {p | p ∈ g.productions}.Finite := g.productions.finite_toSet
  suffices ∀ width i j, j - i = width → ∀ A, (single g s i j A).Finite from this _ i j rfl A
  intro width
  induction width using Nat.strongRecOn with
  | _ width ih =>
    intro i j hwidth
    have hbase : ∀ A, (base g s i j A).Finite := by
      intro A
      refine Set.Finite.subset ((hrules.image Derivation.word).union (hrules.biUnion fun p _ =>
        (Set.finite_Ioo i j).biUnion' fun m hm => (Set.finite_lt_nat g.numNonterminals).biUnion
          fun left _ => (Set.finite_lt_nat g.numNonterminals).biUnion fun right _ =>
            Set.Finite.image2 (Derivation.binary p) (ih (m - i) ?_ i m rfl left)
              (ih (j - m) ?_ m j rfl right))) ?_
      · rw [Set.mem_Ioo] at hm
        omega
      · rw [Set.mem_Ioo] at hm
        omega
      · intro d hd
        rcases mem_base_cases hd with ⟨p, _, rfl, hp, -⟩ |
          ⟨p, left, right, m, e, f, rfl, hp, -, hc, him, hmj, he, hf⟩
        · exact .inl ⟨p, hp, rfl⟩
        · obtain ⟨hl, hr⟩ := Grammar.binary_lt hp hc
          right
          simp only [Set.mem_iUnion]
          exact ⟨p, hp, m, ⟨him, hmj⟩, left, hl, right, hr, e, he, f, hf, rfl⟩
    intro A
    refine Set.Finite.subset ((hbase A).union (hrules.biUnion fun p _ =>
      (Set.finite_lt_nat g.numNonterminals).biUnion fun child _ =>
        (hbase child).image (Derivation.unary p))) ?_
    rw [← base_union_topped]
    rintro d (hd | hd)
    · exact .inl hd
    · obtain ⟨p, child, e, rfl, hp, -, hc, he⟩ := mem_topped_iff.1 hd
      right
      simp only [Set.mem_iUnion]
      exact ⟨p, hp, child, Grammar.unary_lt hp hc, e, he, rfl⟩

/-! ## What the rules offer -/

section Offers

variable [Score α] {c : Chart α} {e : Entry α}

omit [Score α] in
theorem mem_lexicalEntries {terminal : Option Terminal} :
    e ∈ lexicalEntries g terminal ↔ ∃ p word, p ∈ g.productions ∧ p.children = .lexical word ∧
      terminal = some word ∧ e = ⟨p.parent, p.logProb, .lexical word⟩ := by
  cases terminal with
  | none => simp [lexicalEntries]
  | some word =>
    simp only [lexicalEntries, List.mem_map, Grammar.mem_byWord, Option.some.injEq]
    constructor
    · rintro ⟨p, ⟨hp, hc⟩, rfl⟩
      exact ⟨p, word, hp, hc, rfl, rfl⟩
    · rintro ⟨p, _, hp, hc, rfl, rfl⟩
      exact ⟨p, ⟨hp, hc⟩, rfl⟩

theorem mem_unaryEntries {children : List (Entry α)} :
    e ∈ unaryEntries g children ↔ ∃ child ∈ children, ∃ p ∈ g.productions,
      p.children = .unary child.nonterminal ∧
        e = ⟨p.parent, p.logProb + child.inside, .unary child.nonterminal⟩ := by
  simp only [unaryEntries, List.mem_flatMap, List.mem_map, Grammar.mem_byUnaryChild]
  refine exists_congr fun child => and_congr_right fun _ => ?_
  constructor
  · rintro ⟨p, ⟨hp, hc⟩, rfl⟩
    exact ⟨p, hp, hc, rfl⟩
  · rintro ⟨p, hp, hc, rfl⟩
    exact ⟨p, ⟨hp, hc⟩, rfl⟩

theorem mem_binaryEntries (h : c.Sound g) {inSegment : NonTerminal → Bool} :
    e ∈ binaryEntries g c i j inSegment ↔ ∃ m p left right l r, i < m ∧ m < j ∧
      inSegment left = true ∧ p ∈ g.productions ∧ p.children = .binary left right ∧
      c.get? i m left = some l ∧ c.get? m j right = some r ∧
      e = ⟨p.parent, p.logProb + l.inside + r.inside, .binary left right m⟩ := by
  simp only [binaryEntries, List.mem_flatMap, mem_midpoints, List.mem_filter, Prod.exists,
    Chart.mem_leftChildren h, Chart.mem_rightChildren h, List.mem_map, Grammar.mem_byChildPair]
  constructor
  · rintro ⟨m, ⟨him, hmj⟩, left, x, ⟨⟨-, l, hl, rfl⟩, hseg⟩, right, y, ⟨-, r, hr, rfl⟩, p, ⟨hp, hc⟩, rfl⟩
    exact ⟨m, p, left, right, l, r, him, hmj, hseg, hp, hc, hl, hr, rfl⟩
  · rintro ⟨m, p, left, right, l, r, him, hmj, hseg, hp, hc, hl, hr, rfl⟩
    exact ⟨m, ⟨him, hmj⟩, left, l.inside, ⟨⟨Grammar.isLeft_of_mem hp hc, l, hl, rfl⟩, hseg⟩, right,
      r.inside, ⟨Grammar.isRight_of_mem hp hc, r, hr, rfl⟩, p, ⟨hp, hc⟩, rfl⟩

omit [Score α] in
theorem parent_lt_of_mem_lexicalEntries {terminal : Option Terminal}
    (he : e ∈ lexicalEntries g terminal) : e.nonterminal < g.numNonterminals := by
  obtain ⟨p, word, hp, -, -, rfl⟩ := mem_lexicalEntries.1 he
  exact Grammar.parent_lt hp

/-- An entry from two halves follows a binary rule, whatever the chart holds. -/
theorem exists_rule_of_mem_binaryEntries {inSegment : NonTerminal → Bool}
    (he : e ∈ binaryEntries g c i j inSegment) :
    ∃ p ∈ g.productions, ∃ left right m, p.children = .binary left right ∧
      e.nonterminal = p.parent ∧ e.backpointer = .binary left right m := by
  simp only [binaryEntries, List.mem_flatMap, List.mem_map, Grammar.mem_byChildPair] at he
  obtain ⟨m, -, l, -, r, -, p, ⟨hp, hc⟩, rfl⟩ := he
  exact ⟨p, hp, l.1, r.1, m, hc, rfl, rfl⟩

theorem parent_lt_of_mem_binaryEntries {inSegment : NonTerminal → Bool}
    (he : e ∈ binaryEntries g c i j inSegment) : e.nonterminal < g.numNonterminals := by
  obtain ⟨p, hp, -, -, -, -, hnt, -⟩ := exists_rule_of_mem_binaryEntries he
  exact hnt ▸ Grammar.parent_lt hp

theorem parent_lt_of_mem_unaryEntries {children : List (Entry α)}
    (he : e ∈ unaryEntries g children) : e.nonterminal < g.numNonterminals := by
  obtain ⟨child, -, p, hp, -, rfl⟩ := mem_unaryEntries.1 he
  exact Grammar.parent_lt hp

/-- No two entries are made by the same rule from the same children. -/
def Distinct (entries : List (Entry α)) : Prop :=
  entries.Pairwise fun a b => a.nonterminal = b.nonterminal → a.backpointer ≠ b.backpointer

omit [Score α] in
/-- Rules over the same children are told apart by their parents. -/
theorem parent_ne {p q : Production α} {children : Children} {ps : List (Production α)}
    (hps : ∀ p ∈ ps, p ∈ g.productions ∧ p.children = children)
    (hp : p ∈ ps) (hq : q ∈ ps) (hne : p ≠ q) : p.parent ≠ q.parent := fun h =>
  hne (Grammar.eq_of_sameRule (hps p hp).1 (hps q hq).1 h
    ((hps p hp).2.trans (hps q hq).2.symm))

omit [Score α] in
theorem distinct_map (g : Grammar α) (children : Children) {ps : List (Production α)}
    (hps : ∀ p ∈ ps, p ∈ g.productions ∧ p.children = children) (hnodup : ps.Nodup)
    {make : Production α → Entry α} (hmake : ∀ p, (make p).nonterminal = p.parent) :
    Distinct (ps.map make) := by
  rw [Distinct, List.pairwise_map]
  refine List.Pairwise.imp_of_mem (fun {p q} hp hq hne h => ?_) hnodup
  rw [hmake, hmake] at h
  exact absurd h (parent_ne hps hp hq hne)

omit [Score α] in
theorem distinct_lexicalEntries (g : Grammar α) (terminal : Option Terminal) :
    Distinct (lexicalEntries g terminal) := by
  cases terminal with
  | none => exact .nil
  | some word =>
    exact distinct_map g (.lexical word) (fun p hp => Grammar.mem_byWord.1 hp)
      (g.nodup_byWord word) fun p => rfl

theorem distinct_unaryEntries {children : List (Entry α)}
    (h : children.Pairwise fun a b => a.nonterminal < b.nonterminal) :
    Distinct (unaryEntries g children) := by
  rw [Distinct, unaryEntries, List.pairwise_flatMap]
  refine ⟨fun child _ => distinct_map g _ (fun p hp => Grammar.mem_byUnaryChild.1 hp)
    (g.nodup_byUnaryChild _) fun p => rfl, h.imp fun {a b} hab => ?_⟩
  intro x hx y hy _ heq
  obtain ⟨p, -, rfl⟩ := List.mem_map.1 hx
  obtain ⟨q, -, rfl⟩ := List.mem_map.1 hy
  exact Nat.ne_of_lt hab (Backpointer.unary.inj heq)

theorem distinct_binaryEntries (h : c.Sound g) (i j : Nat) (inSegment : NonTerminal → Bool) :
    Distinct (binaryEntries g c i j inSegment) := by
  have hlefts : ∀ m, ((c.leftChildren i m).filter (inSegment ·.1)).Pairwise
      fun a b => a.1 ≠ b.1 := fun m =>
    (List.pairwise_map.1 (Chart.nodup_leftChildren h i m)).filter _
  have hrights : ∀ m, (c.rightChildren m j).Pairwise fun a b => a.1 ≠ b.1 := fun m =>
    List.pairwise_map.1 (Chart.nodup_rightChildren h m j)
  rw [Distinct, binaryEntries, List.pairwise_flatMap]
  refine ⟨fun m _ => ?_, (nodup_midpoints i j).imp fun {m m'} hm => ?_⟩
  · rw [List.pairwise_flatMap]
    refine ⟨fun l _ => ?_, (hlefts m).imp fun {l l'} hl => ?_⟩
    · rw [List.pairwise_flatMap]
      refine ⟨fun r _ => distinct_map g _ (fun p hp => Grammar.mem_byChildPair.1 hp)
        (g.nodup_byChildPair _ _) fun p => rfl, (hrights m).imp fun {r r'} hr => ?_⟩
      intro x hx y hy _ heq
      obtain ⟨p, -, rfl⟩ := List.mem_map.1 hx
      obtain ⟨q, -, rfl⟩ := List.mem_map.1 hy
      exact hr (Backpointer.binary.inj heq).2.1
    · intro x hx y hy _ heq
      obtain ⟨r, -, hx⟩ := List.mem_flatMap.1 hx
      obtain ⟨r', -, hy⟩ := List.mem_flatMap.1 hy
      obtain ⟨p, -, rfl⟩ := List.mem_map.1 hx
      obtain ⟨q, -, rfl⟩ := List.mem_map.1 hy
      exact hl (Backpointer.binary.inj heq).1
  · intro x hx y hy _ heq
    obtain ⟨l, -, hx⟩ := List.mem_flatMap.1 hx
    obtain ⟨l', -, hy⟩ := List.mem_flatMap.1 hy
    obtain ⟨r, -, hx⟩ := List.mem_flatMap.1 hx
    obtain ⟨r', -, hy⟩ := List.mem_flatMap.1 hy
    obtain ⟨p, -, rfl⟩ := List.mem_map.1 hx
    obtain ⟨q, -, rfl⟩ := List.mem_map.1 hy
    exact hm (Backpointer.binary.inj heq).2.2

end Offers

/-! ## One cell -/

section Cell

variable [Score α] [MonotoneScore α] {acc : Accumulator α}
  {Combines : Set (Derivation α) → α → Prop} (h : Combination acc Combines) {c : Chart α}

include h

/-- What a cell holds of a symbol after entries have been added that stand for a set of derivations,
each for those of one kind; derivations that no entry stands for must be impossible. -/
theorem combines_foldl_add {cell : Scratch α} (hcell : cell.Possible) {entries : List (Entry α)}
    (hnt : ∀ e ∈ entries, e.nonterminal < cell.held.size) (hdistinct : Distinct entries)
    {E F : Set (Derivation α)} (hE : Combines E (cell.inside A))
    (hentries : ∀ e ∈ entries, e.nonterminal = A →
      Combines {d | d ∈ F ∧ d.backpointer i = e.backpointer} e.inside)
    (hdisjoint : Disjoint E F) (hfinite : (E ∪ F).Finite)
    (hcovered : ∀ d ∈ F, Score.impossible < d.score →
      ∃ e ∈ entries, e.nonterminal = A ∧ d.backpointer i = e.backpointer) :
    Combines (E ∪ F) ((entries.foldl (Scratch.add acc) cell).inside A) := by
  rw [Scratch.foldl_add_inside h.keepsPossible hcell hnt]
  have hmem : ∀ e, e ∈ entries.filter (·.nonterminal == A) ↔ e ∈ entries ∧ e.nonterminal = A := by
    simp
  refine h.extend (h.foldl (S := fun e => {d | d ∈ F ∧ d.backpointer i = e.backpointer})
    (fun e he => hentries e ((hmem e).1 he).1 ((hmem e).1 he).2) ?_ hE fun e _ => ?_) ?_ hfinite ?_
  · refine List.Pairwise.imp_of_mem (fun {a b} ha hb hab => ?_) (hdistinct.filter _)
    have hsame := ((hmem a).1 ha).2.trans ((hmem b).1 hb).2.symm
    rw [Set.disjoint_left]
    rintro d ⟨-, hda⟩ ⟨-, hdb⟩
    exact hab hsame (hda.symm.trans hdb)
  · exact hdisjoint.mono_right fun d hd => hd.1
  · rintro d (hd | ⟨e, -, hd, -⟩)
    · exact .inl hd
    · exact .inr hd
  · rintro d (hd | hd) hnot hpos
    · exact hnot (.inl hd)
    · obtain ⟨e, he, hA, hb⟩ := hcovered d hd hpos
      exact hnot (.inr ⟨e, (hmem e).2 ⟨he, hA⟩, hd, hb⟩)

/-- A cell filled from entries alone. -/
theorem combines_filled {entries : List (Entry α)}
    (hnt : ∀ e ∈ entries, e.nonterminal < g.numNonterminals) (hdistinct : Distinct entries)
    {F : Set (Derivation α)} (hfinite : F.Finite)
    (hentries : ∀ e ∈ entries, e.nonterminal = A →
      Combines {d | d ∈ F ∧ d.backpointer i = e.backpointer} e.inside)
    (hcovered : ∀ d ∈ F, Score.impossible < d.score →
      ∃ e ∈ entries, e.nonterminal = A ∧ d.backpointer i = e.backpointer) :
    Combines F ((filled g acc i j entries).inside A) := by
  have hempty : (Scratch.empty i j g.numNonterminals : Scratch α).Possible := by
    intro A held hA
    rw [Scratch.find?_empty] at hA
    cases hA
  have hinside : (Scratch.empty i j g.numNonterminals : Scratch α).inside A =
      Score.impossible := by
    rw [Scratch.inside, Scratch.find?_empty]
  rw [← Set.empty_union F]
  refine combines_foldl_add h hempty (fun e he => ?_) hdistinct (hinside ▸ h.empty) hentries
    (Set.empty_disjoint F) (by rwa [Set.empty_union]) hcovered
  rw [Scratch.empty, Array.size_replicate]
  exact hnt e he

/-- The rules for a word. -/
theorem combines_lexicalCell (g : Grammar α) (s : Sentence) (i : Nat) (A : NonTerminal) :
    Combines (base g s i (i + 1) A) ((lexicalCell g acc s i).1.inside A) := by
  refine combines_filled h (i := i) (fun e he => ?_) (distinct_lexicalEntries g _)
    ((finite_single g s i (i + 1) A).subset fun d hd => hd.1) (fun e he hA => ?_)
    fun d hd _ => ?_
  · obtain ⟨p, word, hp, -, -, rfl⟩ := mem_lexicalEntries.1 he
    exact Grammar.parent_lt hp
  · obtain ⟨p, word, hp, hc, hterm, rfl⟩ := mem_lexicalEntries.1 he
    have hset : {d | d ∈ base g s i (i + 1) A ∧ d.backpointer i = .lexical word} =
        {.word p} := by
      ext d
      constructor
      · rintro ⟨hd, hb⟩
        rcases mem_base_cases hd with ⟨q, w, rfl, hq, hqA, hqc, -⟩ |
          ⟨-, -, -, m, -, -, -, -, -, -, him, hmj, -⟩
        · rw [Derivation.backpointer_word hqc] at hb
          have hword : w = word := Backpointer.lexical.inj hb
          rw [Grammar.eq_of_sameRule hq hp (hqA.trans hA.symm) (by rw [hqc, hc, hword])]
          rfl
        · omega
      · rintro rfl
        refine ⟨⟨⟨?_, trivial⟩, rfl⟩, Derivation.backpointer_word hc i⟩
        exact DerivesIn.word_iff.2 ⟨hp, hA, rfl, trivial, word, hc, hterm⟩
    rw [hset]
    exact h.word p
  · rcases mem_base_cases hd with ⟨p, word, rfl, hp, hA, hc, -, hterm⟩ |
      ⟨-, -, -, m, -, -, -, -, -, -, him, hmj, -⟩
    · exact ⟨_, mem_lexicalEntries.2 ⟨p, word, hp, hc, hterm, rfl⟩, hA,
        Derivation.backpointer_word hc i⟩
    · omega

section Halves

variable (hc : c.Sound g) (hparts : ∀ k l A, i ≤ k → k < l → l ≤ j → l - k < j - i →
  Combines (single g s k l A) (c.inside k l A))
include hc hparts

omit [MonotoneScore α] in
/-- A binary rule over complete parts stands for the derivations that apply it to theirs. -/
theorem combines_of_mem_binaryEntries {e : Entry α} {inSegment : NonTerminal → Bool}
    (he : e ∈ binaryEntries g c i j inSegment) (hA : e.nonterminal = A) :
    Combines {d | d ∈ base g s i j A ∧ d.backpointer i = e.backpointer} e.inside := by
  obtain ⟨m, p, left, right, l, r, him, hmj, -, hp, hpc, hl, hr, rfl⟩ :=
    (mem_binaryEntries hc).1 he
  have hset : {d | d ∈ base g s i j A ∧ d.backpointer i = .binary left right m} =
      Set.image2 (Derivation.binary p) (single g s i m left) (single g s m j right) := by
    ext d
    constructor
    · rintro ⟨hd, hb⟩
      rcases mem_base_cases hd with ⟨q, w, rfl, -, -, hqc, -⟩ |
        ⟨q, L, R, k, e, f, rfl, hq, hqA, hqc, -, -, hel, hfr⟩
      · rw [Derivation.backpointer_word hqc] at hb
        cases hb
      · have hk : k = i + e.width := hel.1.stop_eq
        rw [Derivation.backpointer_binary hqc] at hb
        obtain ⟨rfl, rfl, hm⟩ := Backpointer.binary.inj hb
        have hkm : k = m := hk.trans hm
        subst hkm
        rw [Grammar.eq_of_sameRule hq hp (hqA.trans hA.symm) (hqc.trans hpc.symm)]
        exact ⟨e, hel, f, hfr, rfl⟩
    · rintro ⟨e, he, f, hf, rfl⟩
      refine ⟨⟨⟨?_, he.2, hf.2⟩, rfl⟩, ?_⟩
      · exact DerivesIn.binary_iff.2 ⟨hp, hA, trivial, left, right, m, hpc, he.1, hf.1⟩
      · have hm : m = i + e.width := he.1.stop_eq
        rw [Derivation.backpointer_binary hpc, hm]
  rw [hset, ← hc.inside_of_get? hl, ← hc.inside_of_get? hr]
  exact h.binary p (hparts i m left (by omega) him (by omega) (by omega))
    (hparts m j right (by omega) hmj (by omega) (by omega))

/-- A possible derivation of several words is one of those that a binary rule stands for. -/
theorem exists_binaryEntry_of_mem_base (hij : i + 1 < j) (hd : d ∈ base g s i j A)
    (hpos : Score.impossible < d.score) :
    ∃ e ∈ binaryEntries g c i j fun _ => true,
      e.nonterminal = A ∧ d.backpointer i = e.backpointer := by
  rcases mem_base_cases hd with ⟨-, -, -, -, -, -, hj, -⟩ |
    ⟨p, left, right, m, e, f, rfl, hp, hA, hpc, him, hmj, he, hf⟩
  · omega
  · have hsum := Score.impossible_lt_of_add hpos
    have hl := (h.possible_iff (hparts i m left (by omega) him (by omega) (by omega))).2
      ⟨e, he, (Score.impossible_lt_of_add hsum.1).2⟩
    have hr := (h.possible_iff (hparts m j right (by omega) hmj (by omega) (by omega))).2
      ⟨f, hf, hsum.2⟩
    obtain ⟨l, hl⟩ := hc.exists_get?_of_possible hl
    obtain ⟨r, hr⟩ := hc.exists_get?_of_possible hr
    have hm : m = i + e.width := he.1.stop_eq
    refine ⟨_, (mem_binaryEntries hc).2 ⟨m, p, left, right, l, r, him, hmj, rfl, hp, hpc, hl, hr,
      rfl⟩, hA, ?_⟩
    rw [Derivation.backpointer_binary hpc, hm]

/-- The binary rules over a span whose parts are complete. -/
theorem combines_crossCell (hij : i + 1 < j) (A : NonTerminal) :
    Combines (base g s i j A) ((crossCell g acc 1 c i j).1.inside A) :=
  combines_filled h (i := i) (fun _ he => parent_lt_of_mem_binaryEntries he)
    (distinct_binaryEntries hc i j _) ((finite_single g s i j A).subset fun _ hd => hd.1)
    (fun _ he hA => combines_of_mem_binaryEntries h hc hparts he hA)
    fun _ hd hpos => exists_binaryEntry_of_mem_base h hc hparts hij hd hpos

end Halves

/-- One round of unary rules over a cell. -/
theorem combines_unaryPass {cell : Scratch α} (hcell : cell.Possible)
    (hsize : cell.held.size = g.numNonterminals)
    (hbase : ∀ A, Combines (base g s i j A) (cell.inside A)) (A : NonTerminal) :
    Combines (single g s i j A) ((unaryPass g acc cell).1.inside A) := by
  rw [← base_union_topped]
  refine combines_foldl_add h hcell (i := i) (fun e he => ?_)
    (distinct_unaryEntries cell.entries_pairwise) (hbase A) (fun e he hA => ?_)
    disjoint_base_topped (by rw [base_union_topped]; exact finite_single g s i j A)
    fun d hd hpos => ?_
  · obtain ⟨child, -, p, hp, -, rfl⟩ := mem_unaryEntries.1 he
    rw [hsize]
    exact Grammar.parent_lt hp
  · obtain ⟨child, hchild, p, hp, hc, rfl⟩ := mem_unaryEntries.1 he
    have hset : {d | d ∈ topped g s i j A ∧ d.backpointer i = .unary child.nonterminal} =
        Derivation.unary p '' base g s i j child.nonterminal := by
      ext d
      constructor
      · rintro ⟨hd, hb⟩
        obtain ⟨q, B, e, rfl, hq, hqA, hqc, he⟩ := mem_topped_iff.1 hd
        rw [Derivation.backpointer_unary hqc] at hb
        obtain rfl := Backpointer.unary.inj hb
        rw [Grammar.eq_of_sameRule hq hp (hqA.trans hA.symm) (hqc.trans hc.symm)]
        exact ⟨e, he, rfl⟩
      · rintro ⟨e, he, rfl⟩
        exact ⟨mem_topped_iff.2 ⟨p, _, e, rfl, hp, hA, hc, he⟩,
          Derivation.backpointer_unary hc e i⟩
    obtain ⟨held, hheld, heq⟩ := Scratch.get?_eq_some_iff.1 (Scratch.mem_entries.1 hchild)
    have hinside : cell.inside child.nonterminal = child.inside := by
      rw [Scratch.inside, hheld, heq]
    rw [hset, ← hinside]
    exact h.unary p (hbase _)
  · obtain ⟨p, B, e, rfl, hp, hA, hc, he⟩ := mem_topped_iff.1 hd
    have hB := (h.possible_iff (hbase B)).2 ⟨e, he, (Score.impossible_lt_of_add hpos).2⟩
    obtain ⟨held, hheld⟩ := Option.isSome_iff_exists.1 ((Scratch.isSome_find?_iff hcell).2 hB)
    have hchild : (⟨B, held.inside, held.backpointer⟩ : Entry α) ∈ cell.entries :=
      Scratch.mem_entries.2 (Scratch.get?_eq_some_iff.2 ⟨held, hheld, rfl⟩)
    exact ⟨⟨p.parent, p.logProb + held.inside, .unary B⟩,
      mem_unaryEntries.2 ⟨_, hchild, p, hp, hc, rfl⟩, hA, Derivation.backpointer_unary hc e i⟩

end Cell

/-! ## All cells -/

section Fill

variable [Score α] [MonotoneScore α] {acc : Accumulator α}
  {Combines : Set (Derivation α) → α → Prop} {c : Chart α} {stats : Stats}

/-- What holds of a chart when some spans have been filled. -/
structure Filled (g : Grammar α) (s : Sentence) (Combines : Set (Derivation α) → α → Prop)
    (visited : List (Nat × Nat)) (c : Chart α) : Prop where
  sound : c.Sound g
  size_eq : c.size = s.size
  possible : c.Possible
  combines : ∀ k l A, (k, l) ∈ visited → Combines (single g s k l A) (c.inside k l A)
  blank : ∀ k l A, (k, l) ∉ visited → c.get? k l A = none

/-- The scratch cell of a span. -/
def cellOf (g : Grammar α) (acc : Accumulator α) (s : Sentence) (c : Chart α) (i j : Nat) :
    Scratch α :=
  (unaryPass g acc (if j == i + 1 then lexicalCell g acc s i else crossCell g acc 1 c i j).1).1

omit [MonotoneScore α] in
theorem fillCell_fst (stats : Stats) :
    (fillCell g acc 1 s (c, stats) (i, j)).1 = c.commit (cellOf g acc s c i j) := rfl

theorem filled_spec (hacc : acc.KeepsPossible) (entries : List (Entry α))
    (hnt : ∀ e ∈ entries, e.nonterminal < g.numNonterminals) :
    (filled g acc i j entries).Possible ∧
      (filled g acc i j entries).held.size = g.numNonterminals ∧
      (filled g acc i j entries).start = i ∧ (filled g acc i j entries).stop = j := by
  have hsize : (Scratch.empty i j g.numNonterminals : Scratch α).held.size =
      g.numNonterminals := Array.size_replicate
  obtain ⟨hstart, hstop⟩ := Scratch.foldl_add_start acc
    (Scratch.empty i j g.numNonterminals) entries
  refine ⟨Scratch.foldl_add_possible hacc (fun A held hA => ?_) fun e he => ?_,
    (Scratch.foldl_add_size _ _).trans hsize, hstart, hstop⟩
  · rw [Scratch.find?_empty] at hA
    cases hA
  · rw [hsize]
    exact hnt e he

/-- The scratch cell of a span combines its derivations. -/
theorem cellOf_spec (h : Combination acc Combines) (hc : c.Sound g) (hij : i < j)
    (hparts : ∀ k l A, i ≤ k → k < l → l ≤ j → l - k < j - i →
      Combines (single g s k l A) (c.inside k l A)) :
    (cellOf g acc s c i j).Possible ∧
      (cellOf g acc s c i j).held.size = g.numNonterminals ∧
      ((cellOf g acc s c i j).start = i ∧ (cellOf g acc s c i j).stop = j) ∧
      ∀ A, Combines (single g s i j A) ((cellOf g acc s c i j).inside A) := by
  have hbase : ∃ cell : Scratch α,
      cellOf g acc s c i j = (unaryPass g acc cell).1 ∧ cell.Possible ∧
        cell.held.size = g.numNonterminals ∧ (cell.start = i ∧ cell.stop = j) ∧
        ∀ A, Combines (base g s i j A) (cell.inside A) := by
    by_cases hone : j = i + 1
    · subst hone
      obtain ⟨hposs, hsize, hspan⟩ := filled_spec (g := g) (i := i) (j := i + 1) h.keepsPossible
        (lexicalEntries g (s.terminal? i)) fun e he => by
          obtain ⟨p, word, hp, -, -, rfl⟩ := mem_lexicalEntries.1 he
          exact Grammar.parent_lt hp
      exact ⟨_, by rw [cellOf, if_pos (beq_self_eq_true _)]; rfl, hposs, hsize, hspan,
        combines_lexicalCell h g s i⟩
    · obtain ⟨hposs, hsize, hspan⟩ := filled_spec (g := g) (i := i) (j := j) h.keepsPossible
        (binaryEntries g c i j fun _ => true) fun e he => by
          obtain ⟨m, p, -, -, -, -, -, -, -, hp, -, -, -, rfl⟩ := (mem_binaryEntries hc).1 he
          exact Grammar.parent_lt hp
      refine ⟨_, by rw [cellOf, if_neg (by simpa using hone)]; rfl, hposs, hsize, hspan, ?_⟩
      exact combines_crossCell h hc hparts (by omega)
  obtain ⟨cell, heq, hposs, hsize, hspan, hcomb⟩ := hbase
  rw [heq]
  obtain ⟨hstart, hstop⟩ := Scratch.foldl_add_start acc cell
    (unaryEntries g cell.entries)
  refine ⟨Scratch.foldl_add_possible h.keepsPossible hposs fun e he => ?_,
    (Scratch.foldl_add_size _ _).trans hsize, ⟨hstart.trans hspan.1, hstop.trans hspan.2⟩,
    combines_unaryPass h hposs hsize hcomb⟩
  obtain ⟨child, -, p, hp, -, rfl⟩ := mem_unaryEntries.1 he
  rw [hsize]
  exact Grammar.parent_lt hp

/-- A cell that combines the derivations of its span is entered. -/
theorem Filled.commit {visited : List (Nat × Nat)}
    (hv : Filled g s Combines visited c) (hij : i < j) (hj : j ≤ s.size) (hnew : (i, j) ∉ visited)
    {cell : Scratch α} (hposs : cell.Possible) (hsize : cell.held.size = g.numNonterminals)
    (hspan : cell.start = i ∧ cell.stop = j)
    (hcomb : ∀ A, Combines (single g s i j A) (cell.inside A)) (hfits : (c.commit cell).Fits) :
    Filled g s Combines (visited ++ [(i, j)]) (c.commit cell) := by
  obtain ⟨hstart, hstop⟩ := hspan
  have hlt : cell.start < cell.stop := by omega
  have hle : cell.stop ≤ c.size := by rw [hstop, hv.size_eq]; exact hj
  have hoff := Chart.commit_offered hv.sound hlt hle hsize hfits
  have hadm : ∀ e ∈ cell.entries, Score.admissible e.inside = true := by
    intro e he
    obtain ⟨held, hheld, heq⟩ := Scratch.get?_eq_some_iff.1 (Scratch.mem_entries.1 he)
    rw [heq]
    exact Score.admissible_iff.2 (hposs _ _ hheld)
  have hget := Chart.get?_commit_of_blank hv.sound hlt hle hsize hfits hadm fun A => by
    rw [hstart, hstop]
    exact hv.blank i j A hnew
  rw [hstart, hstop] at hget
  have hother : ∀ k l A, ¬ (k = i ∧ l = j) → (c.commit cell).get? k l A = c.get? k l A := by
    intro k l A hne
    refine hoff.elsewhere k l A fun heq => hne ⟨heq.1.trans hstart, heq.2.trans hstop⟩
  refine
    { sound := hoff.sound
      size_eq := hoff.size_eq.trans hv.size_eq
      possible := fun k l A e he => ?_
      combines := fun k l A hkl => ?_
      blank := fun k l A hkl => ?_ }
  · by_cases heq : k = i ∧ l = j
    · obtain ⟨rfl, rfl⟩ := heq
      rw [hget] at he
      obtain ⟨held, hheld, rfl⟩ := Scratch.get?_eq_some_iff.1 he
      exact hposs _ _ hheld
    · rw [hother k l A heq] at he
      exact hv.possible k l A e he
  · by_cases heq : k = i ∧ l = j
    · obtain ⟨rfl, rfl⟩ := heq
      rw [hoff.sound.inside_eq, hget]
      have hinside : cell.inside A = ((cell.get? A).map (·.inside)).getD Score.impossible := by
        rw [Scratch.inside, Scratch.get?]
        cases cell.find? A <;> rfl
      rw [← hinside]
      exact hcomb A
    · rw [hoff.sound.inside_eq, hother k l A heq, ← hv.sound.inside_eq]
      refine hv.combines k l A ?_
      rw [List.mem_append, List.mem_singleton, Prod.mk.injEq] at hkl
      exact hkl.resolve_right heq
  · rw [List.mem_append, List.mem_singleton, Prod.mk.injEq, not_or] at hkl
    rw [hother k l A hkl.2]
    exact hv.blank k l A hkl.1

/-- To fill one more cell keeps the invariant. -/
theorem fillCell_filled (h : Combination acc Combines) {visited : List (Nat × Nat)} (hij : i < j)
    (hj : j ≤ s.size) (hnew : (i, j) ∉ visited)
    (hshorter : ∀ k l, k < l → l ≤ s.size → l - k < j - i → (k, l) ∈ visited)
    (hfits : (fillCell g acc 1 s (c, stats) (i, j)).1.Fits) (hv : Filled g s Combines visited c) :
    Filled g s Combines (visited ++ [(i, j)]) (fillCell g acc 1 s (c, stats) (i, j)).1 := by
  rw [fillCell_fst] at hfits ⊢
  obtain ⟨hposs, hsize, hspan, hcomb⟩ := cellOf_spec (s := s) h hv.sound hij
    fun k l A _ hkl hl hlt => hv.combines k l A (hshorter k l hkl (by omega) hlt)
  exact hv.commit hij hj hnew hposs hsize hspan hcomb hfits

omit [MonotoneScore α] in
theorem Filled.of_blank (hc : c.Sound g) (hsize : c.size = s.size)
    (hblank : ∀ k l A, c.get? k l A = none) : Filled g s Combines [] c where
  sound := hc
  size_eq := hsize
  possible k l A e he := by
    rw [hblank] at he
    cases he
  combines k l A hkl := by cases hkl
  blank k l A _ := hblank k l A

omit [MonotoneScore α] in
theorem fits_of_fits_fillCell (hfits : (fillCell g acc 1 s (c, stats) (i, j)).1.Fits) : c.Fits :=
  Chart.fits_of_fits_commit hfits

/-- The chart after the search. -/
theorem fill_filled (h : Combination acc Combines) (hc : c.Sound g) (hsize : c.size = s.size)
    (hblank : ∀ k l A, c.get? k l A = none) (hfits : (fill g acc 1 s c).1.Fits) :
    Filled g s Combines (spansUp s.size) (fill g acc 1 s c).1 := by
  refine spansUp_induction
    (P := fun visited (state : Chart α × Stats) => state.1.Fits →
      Filled g s Combines visited state.1)
    (fun _ => .of_blank hc hsize hblank)
    (fun visited i j state hij hj hnew hshorter _ hv hfits => ?_) hfits
  exact fillCell_filled h hij hj hnew hshorter hfits (hv (fits_of_fits_fillCell hfits))

/-- A symbol has an entry if and only if one of the derivations counted is possible. -/
theorem Filled.isSome_iff (h : Combination acc Combines) {visited : List (Nat × Nat)}
    (hv : Filled g s Combines visited c) (hcombines : Combines (single g s i j A) (c.inside i j A)) :
    (c.get? i j A).isSome = true ↔ ∃ d ∈ single g s i j A, Score.impossible < d.score := by
  rw [← h.possible_iff hcombines, Option.isSome_iff_exists]
  constructor
  · rintro ⟨e, he⟩
    rw [hv.sound.inside_of_get? he]
    exact hv.possible _ _ _ _ he
  · exact hv.sound.exists_get?_of_possible

/-- A filled chart combines the derivations of every symbol over every span. -/
theorem Filled.counts (h : Combination acc Combines) (hv : Filled g s Combines (spansUp s.size) c)
    (i j : Nat) (A : NonTerminal) :
    Combines (single g s i j A) (c.inside i j A) ∧
      ((c.get? i j A).isSome = true ↔ ∃ d ∈ single g s i j A, Score.impossible < d.score) := by
  have hcombines : Combines (single g s i j A) (c.inside i j A) := by
    by_cases hspan : (i, j) ∈ spansUp s.size
    · exact hv.combines i j A hspan
    · have hempty : single g s i j A = ∅ := by
        rw [Set.eq_empty_iff_forall_notMem]
        rintro d ⟨hd, -⟩
        exact hspan (mem_spansUp.2 ⟨hd.start_lt, hd.stop_le⟩)
      rw [hempty, hv.sound.inside_eq, hv.blank i j A hspan]
      exact h.empty
  exact ⟨hcombines, hv.isSome_iff h hcombines⟩

end Fill

/-- The chart of the search of a whole sentence, with one segment and in either storage. -/
def chartOf [Score α] (g : Grammar α) (acc : Accumulator α) (storage : Storage) (s : Sentence) :
    Chart α :=
  (fill g acc 1 s (Parser.emptyChart g storage s.size)).1

theorem chartOf_combines [Score α] [MonotoneScore α] {acc : Accumulator α}
    {Combines : Set (Derivation α) → α → Prop} (h : Combination acc Combines) (storage : Storage)
    (hfits : (chartOf g acc storage s).Fits) (i j : Nat) (A : NonTerminal) :
    Combines (single g s i j A) ((chartOf g acc storage s).inside i j A) ∧
      (((chartOf g acc storage s).get? i j A).isSome = true ↔
        ∃ d ∈ single g s i j A, Score.impossible < d.score) ∧
      ((chartOf g acc storage s).inside i j A = Score.impossible ∨
        Score.impossible < (chartOf g acc storage s).inside i j A) := by
  have hv := fill_filled h (Parser.sound_emptyChart g storage s.size)
    (Parser.size_emptyChart g storage s.size) (Parser.get?_emptyChart g storage s.size) hfits
  change Filled g s Combines (spansUp s.size) (chartOf g acc storage s) at hv
  generalize chartOf g acc storage s = c at hv
  obtain ⟨hcombines, hentry⟩ := hv.counts h i j A
  refine ⟨hcombines, hentry, ?_⟩
  cases he : c.get? i j A with
  | none =>
    rw [hv.sound.inside_eq, he]
    exact .inl rfl
  | some e =>
    rw [hv.sound.inside_of_get? he]
    exact .inr (hv.possible _ _ _ _ he)

/-- In either storage the search finds for each symbol over each span the combination of all
derivations in which no unary rule stands directly on top of another one: the best score of them, or
the exact sum of their probabilities. The symbol has an entry if and only if one of them is possible.
An arena refuses entries when its numbers run out; the search must have stayed below that. -/
theorem fill_counts_each_once (s : Sentence) (storage : Storage) (i j : Nat) (A : NonTerminal) :
    (∀ {α : Type} [Score α] [MonotoneScore α] (g : Grammar α),
      (chartOf g .best storage s).Fits →
        IsMaximum (· ∈ single g s i j A) ((chartOf g .best storage s).inside i j A) ∧
        (((chartOf g .best storage s).get? i j A).isSome = true ↔
          ∃ d ∈ single g s i j A, Score.impossible < d.score)) ∧
    ∀ g : Grammar EReal, (chartOf g .exactSum storage s).Fits →
      HasTotal (single g s i j A) (fun d => EReal.exp d.score)
        (EReal.exp ((chartOf g .exactSum storage s).inside i j A)) ∧
      (((chartOf g .exactSum storage s).get? i j A).isSome = true ↔
        ∃ d ∈ single g s i j A, Score.impossible < d.score) := by
  constructor
  · intro α _ _ g hfits
    obtain ⟨hmax, hentry, hinside⟩ := chartOf_combines combination_best storage hfits i j A
    exact ⟨hmax.isMaximum hinside, hentry⟩
  · intro g hfits
    obtain ⟨hsum, hentry, -⟩ := chartOf_combines combination_sum storage hfits i j A
    exact ⟨hsum, hentry⟩

theorem chain_counts_each_once :
    IsMaximum (· ∈ single Chain.whole Chain.sentence 0 1 1)
        ((chartOf Chain.whole .best .slots Chain.sentence).inside 0 1 1) ∧
      (chartOf Chain.whole .best .slots Chain.sentence).inside 0 1 1 = (-1 : ℤ) ∧
      (chartOf Chain.whole .best .slots Chain.sentence).get? 0 1 0 = none ∧
      HasTotal (single (Chain.grammar (0 : EReal) 0 0) Chain.sentence 0 1 1)
        (fun d => EReal.exp d.score)
        (EReal.exp ((chartOf (Chain.grammar 0 0 0) .exactSum .packed Chain.sentence).inside 0 1 1)) := by
  have hfits : (chartOf Chain.whole .best .slots Chain.sentence).Fits := by
    decide +kernel
  refine ⟨((fill_counts_each_once Chain.sentence .slots 0 1 1).1 Chain.whole hfits).1,
    by decide +kernel, ?_,
    ((fill_counts_each_once Chain.sentence .packed 0 1 1).2 (Chain.grammar 0 0 0) trivial).1⟩
  rw [← Option.isNone_iff_eq_none]
  decide +kernel

end Exhaustive

end Constituency
