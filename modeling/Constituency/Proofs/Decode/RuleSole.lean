import Constituency.Proofs.Chart.Isolated
import Constituency.Proofs.Decode.Reduction
import Constituency.Proofs.Decode.RuleOffers
import Constituency.Proofs.Decode.RulePosterior
import Constituency.Proofs.Decode.Unsplit

/-!
# Decoding by rules of a sentence with one derivation

If nothing is split and a chart has one derivation of the sentence, then a rule has a possible score at its
place exactly if the derivation uses it there (`RuleTask.Sole.possible_iff_uses`). Other rules may be
offered all the same, with impossible scores: an offer that is possible displaces them and is not
displaced by them. So the possible cells of the table follow the derivation (`Traces`), whether or not a
rule is weighed with what its children weigh, and if the derivation has no unary rules on top of each
other, each of its constituents has one. The tree that is read off is that of the
derivation (`RuleTask.Sole.tree?_eq`), as it is by backpointers (`Parser.maxRule_eq_viterbi`).
-/

namespace Constituency

namespace Derivation

variable {α : Type}

/-- The rule at the top of a derivation that begins at a position. -/
def instanceAt (k : Nat) (e : Derivation α) : RuleInstance :=
  ⟨k, k + e.width, e.root, e.backpointer k⟩

/-- The derivation uses a rule at its place. -/
def Uses (d : Derivation α) (r : RuleInstance) : Prop :=
  ∃ k e, Part 0 d k e ∧ e.instanceAt k = r

end Derivation

/-! ## Possible rules -/

namespace RuleTask

variable {α : Type} [Score α] {t : RuleTask α} {rule other : CoarseRule} {x : α}
  {instances sums : List (CoarseRule × α)}

/-- A rule has a possible score among others. -/
def PossibleIn (rule : CoarseRule) (instances : List (CoarseRule × α)) : Prop :=
  ∃ x, (rule, x) ∈ instances ∧ Score.impossible < x

theorem possibleIn_cons {y : CoarseRule × α} :
    PossibleIn rule (y :: instances) ↔
      (y.1 = rule ∧ Score.impossible < y.2) ∨ PossibleIn rule instances := by
  obtain ⟨present, score⟩ := y
  simp only [PossibleIn, List.mem_cons, Prod.mk.injEq, or_and_right, exists_or]
  refine or_congr_left ⟨?_, fun h => ⟨score, ⟨h.1.symm, rfl⟩, h.2⟩⟩
  rintro ⟨_, ⟨rfl, rfl⟩, hpos⟩
  exact ⟨rfl, hpos⟩

variable [LosslessScore α]

theorem possibleIn_addScore :
    PossibleIn rule (t.addScore other x sums) ↔
      (other = rule ∧ Score.impossible < x) ∨ PossibleIn rule sums := by
  induction sums with
  | nil =>
    rw [addScore, possibleIn_cons, Accumulator.possible_combine_iff,
      or_iff_right Score.not_impossible_lt_impossible]
  | cons y rest ih =>
    obtain ⟨present, sum⟩ := y
    rw [addScore]
    split
    · next heq =>
      subst heq
      rw [possibleIn_cons, possibleIn_cons, Accumulator.possible_combine_iff]
      tauto
    · rw [possibleIn_cons, possibleIn_cons, ih]
      tauto

/-- A sum is possible if an instance is. -/
theorem possibleIn_summed : PossibleIn rule (t.summed instances) ↔ PossibleIn rule instances := by
  have hsums : ∀ sums, PossibleIn rule
      (instances.foldl (fun sums x => t.addScore x.1 x.2 sums) sums) ↔
        PossibleIn rule instances ∨ PossibleIn rule sums := by
    induction instances with
    | nil => exact fun sums => (or_iff_right nofun).symm
    | cons y rest ih =>
      intro sums
      rw [List.foldl_cons, ih, possibleIn_addScore, possibleIn_cons]
      tauto
  exact (hsums []).trans (or_iff_left nofun)

end RuleTask

/-! ## Possible cells -/

namespace RuleTable

variable {α : Type} [Score α] {table table' : RuleTable α} {i j k l : Nat} {X Y : NonTerminal}
  {offers : List (NonTerminal × RuleCell α)} {cell : RuleCell α} {d : Derivation α}

/-- The table has a possible derivation of a category over a span. -/
def Possible (table : RuleTable α) (i j : Nat) (X : NonTerminal) : Prop :=
  ∃ cell, RuleTable.find? table i j X = some cell ∧ Score.impossible < cell.score

/-- What is possible follows a derivation. -/
def Follows (d : Derivation α) (table : RuleTable α) : Prop :=
  ∀ i j X cell, RuleTable.find? table i j X = some cell → Score.impossible < cell.score →
    d.Uses ⟨i, j, X, cell.backpointer⟩

namespace Kept

variable [MonotoneScore α] (h : Kept i j offers table table')
include h

theorem possible (hY : table.Possible k l Y) : table'.Possible k l Y := by
  obtain ⟨cell, hcell, hpos⟩ := hY
  by_cases hspan : k = i ∧ l = j
  · obtain ⟨rfl, rfl⟩ := hspan
    obtain ⟨held, hheld, hle⟩ := h.kept Y cell hcell
    exact ⟨held, hheld, Score.lt_of_lt_of_le hpos hle⟩
  · exact ⟨cell, (h.elsewhere k l Y hspan).trans hcell, hpos⟩

theorem possible_of_mem (hmem : (Y, cell) ∈ offers) (hY : Y < table.stride)
    (hpos : Score.impossible < cell.score) : table'.Possible i j Y := by
  obtain ⟨held, hheld, hle⟩ := h.best Y cell hmem hY
  exact ⟨held, hheld, Score.lt_of_lt_of_le hpos hle⟩

omit [MonotoneScore α] in
theorem follows (htable : table.Follows d)
    (hoffers : ∀ Y cell, (Y, cell) ∈ offers → Score.impossible < cell.score →
      d.Uses ⟨i, j, Y, cell.backpointer⟩) : table'.Follows d := by
  intro k l Y cell hcell hpos
  by_cases hspan : k = i ∧ l = j
  · obtain ⟨rfl, rfl⟩ := hspan
    rcases h.offered Y cell hcell with hcell | hmem
    · exact htable k l Y cell hcell hpos
    · exact hoffers Y cell hmem hpos
  · exact htable k l Y cell ((h.elsewhere k l Y hspan).symm.trans hcell) hpos

end Kept

end RuleTable

/-! ## Tasks with one derivation -/

namespace RuleTask

open Constituency.Derivation (Part)
open RuleTable (Kept)

variable {α : Type} [Score α] {t : RuleTask α} {table table' : RuleTable α} {d e : Derivation α}
  {i j k : Nat} {X Y : NonTerminal} {b : Backpointer} {cell : RuleCell α} {r : RuleInstance}
  {p : Production α}

/-- The unary rules that the decoder adds up lead to other categories. -/
theorem proper_of_mem_unary [MonotoneScore α] {y : α}
    (hy : (⟨X, .unary Y⟩, y) ∈ t.summed (t.unaryInstances i j)) :
    (⟨i, j, X, .unary Y⟩ : RuleInstance).Proper := by
  obtain ⟨p, -, B, -, -, -, hne, heq⟩ :=
    mem_rules_unary.1 (mem_rules_summed.1 (mem_rules.2 ⟨_, hy, rfl⟩))
  obtain ⟨rfl, hchildren⟩ := CoarseRule.mk.inj heq
  obtain rfl := Children.unary.inj hchildren
  exact hne.symm

/-- A task whose chart singles out a derivation of the sentence that has no unary rules on top of each other,
for a grammar in which nothing is split. -/
structure Sole (t : RuleTask α) (d : Derivation α) : Prop where
  unsplit : t.grammar.symbols.Unsplit
  sound : t.chart.Sound t.grammar
  size_eq : t.chart.size = t.sentence.size
  isolates : t.chart.Isolates t.grammar t.sentence d
  single : d.SingleUnaries

namespace Sole

variable [LosslessScore α] (h : t.Sole d)
include h

omit [LosslessScore α] in
theorem base_eq (hp : p ∈ t.grammar.productions) :
    t.grammar.symbols.base p.parent = p.parent :=
  h.unsplit.base_eq _ (Grammar.parent_lt hp)

omit [LosslessScore α] in
theorem possible_sentenceScore : Score.impossible < t.sentenceScore :=
  (h.isolates.inside_iff _ _ _).2 ⟨d, h.isolates.only.mem, h.isolates.only.possible⟩

omit [LosslessScore α] in
theorem possible_inside (he : DerivesIn t.grammar t.sentence t.chart.Live i j X e)
    (hpos : Score.impossible < e.score) : Score.impossible < t.chart.inside i j X :=
  (h.isolates.inside_iff i j X).2 ⟨e, he, hpos⟩

/-- The derivation uses what is possible below and around an entry. -/
theorem uses_of_derives (he : DerivesIn t.grammar t.sentence t.chart.Live i j X e)
    (hpos : Score.impossible < e.score) (hout : Score.impossible < t.chart.outside i j X) :
    d.Uses ⟨i, j, X, e.backpointer i⟩ := by
  refine ⟨i, e, h.isolates.part he hpos hout, ?_⟩
  rw [Derivation.instanceAt, ← he.stop_eq, he.root_eq]

/-- A place has one rule of the derivation at most. -/
theorem backpointer_eq (he : Part 0 d k e) (huses : d.Uses ⟨k, k + e.width, e.root, b⟩) :
    b = e.backpointer k := by
  obtain ⟨k', f, hf, heq⟩ := huses
  obtain ⟨rfl, hwidth, hroot, rfl⟩ := RuleInstance.mk.inj heq
  rw [h.isolates.part_unique he hf (Nat.add_left_cancel hwidth) hroot]

/-- No unary rule leads to a symbol from itself. -/
theorem root_ne (he : Part 0 d k (.unary p e)) : p.parent ≠ e.root := by
  have hstraight := (h.isolates.only.part he).straight.1
  rw [Derivation.chain_of_not_isUnary (he.singleUnaries h.single).1] at hstraight
  exact List.ne_of_not_mem_cons hstraight

/-! ### Rules -/

theorem uses_of_lexical {word : Terminal}
    (hpos : PossibleIn ⟨X, .lexical word⟩ (t.lexicalInstances i)) :
    d.Uses ⟨i, i + 1, X, .lexical word⟩ := by
  obtain ⟨x, hx, hpos⟩ := hpos
  obtain ⟨_, A, hword, hA, -, -, rfl, heq⟩ := (mem_lexicalInstances h.sound).1 hx
  obtain ⟨rfl, hchildren⟩ := CoarseRule.mk.inj heq
  obtain rfl := Children.lexical.inj hchildren
  obtain ⟨hout, hrule⟩ := Score.impossible_lt_of_add hpos
  obtain ⟨p, hp, rfl, hpc⟩ := Grammar.exists_of_logProb_ne fun himp =>
    Score.not_impossible_lt_impossible (himp ▸ hrule)
  rw [← hpc, Grammar.logProb_of_mem hp] at hrule
  have hd : DerivesIn t.grammar t.sentence t.chart.Live i (i + 1) p.parent (.word p) :=
    .word hp hpc hword ((PackedChart.mem_symbols h.sound).1 hA)
  have huses := h.uses_of_derives hd hrule hout
  rwa [Derivation.backpointer_word hpc, ← h.base_eq hp] at huses

theorem uses_of_unary (hpos : PossibleIn ⟨X, .unary Y⟩ (t.unaryInstances i j)) :
    d.Uses ⟨i, j, X, .unary Y⟩ := by
  obtain ⟨x, hx, hpos⟩ := hpos
  obtain ⟨p, hp, B, hpc, ⟨entry, hentry, rfl, rfl⟩, hout, -, heq⟩ := mem_unaryInstances.1 hx
  obtain ⟨rfl, hchildren⟩ := CoarseRule.mk.inj heq
  obtain rfl := Children.unary.inj hchildren
  obtain ⟨hsum, hbelow⟩ := Score.impossible_lt_of_add hpos
  rw [← PackedChart.inside_of_mem h.sound hentry] at hbelow
  obtain ⟨f, hf, hposf⟩ := (h.isolates.inside_iff _ _ _).1 hbelow
  have hd : DerivesIn t.grammar t.sentence t.chart.Live i j p.parent (.unary p f) :=
    .unary hp hpc hf ((PackedChart.mem_symbols h.sound).1 (mem_symbols_of_possible h.sound hout).1)
  have huses := h.uses_of_derives hd
    (LosslessScore.impossible_lt_add (Score.impossible_lt_of_add hsum).2 hposf) hout
  rwa [Derivation.backpointer_unary hpc, ← h.base_eq hp,
    ← h.unsplit.base_eq _ hf.nt_lt] at huses

theorem uses_of_binary {Z : NonTerminal} {m : Nat}
    (hpos : PossibleIn ⟨X, .binary Y Z⟩ (t.binaryInstances i j m)) :
    d.Uses ⟨i, j, X, .binary Y Z m⟩ := by
  obtain ⟨x, hx, hpos⟩ := hpos
  obtain ⟨p, hp, B, C, hpc, -, hout, hright, rfl, heq⟩ := (mem_binaryInstances h.sound).1 hx
  obtain ⟨rfl, hchildren⟩ := CoarseRule.mk.inj heq
  obtain ⟨rfl, rfl⟩ := Children.binary.inj hchildren
  obtain ⟨hsum, -⟩ := Score.impossible_lt_of_add hpos
  obtain ⟨hsum, hleft⟩ := Score.impossible_lt_of_add hsum
  obtain ⟨e, he, hpose⟩ := (h.isolates.inside_iff _ _ _).1 hleft
  obtain ⟨f, hf, hposf⟩ := (h.isolates.inside_iff _ _ _).1 hright
  have hd : DerivesIn t.grammar t.sentence t.chart.Live i j p.parent (.binary p e f) :=
    .binary hp hpc he hf
      ((PackedChart.mem_symbols h.sound).1 (mem_symbols_of_possible h.sound hout).1)
  have hrule := (Score.impossible_lt_of_add hsum).2
  have huses := h.uses_of_derives hd
    (LosslessScore.impossible_lt_add (LosslessScore.impossible_lt_add hrule hpose) hposf) hout
  rwa [Derivation.backpointer_binary hpc, ← he.stop_eq,
    ← h.base_eq hp, ← h.unsplit.base_eq _ he.nt_lt, ← h.unsplit.base_eq _ hf.nt_lt] at huses

theorem possibleIn_lexical (he : Part 0 d k (.word p)) {word : Terminal}
    (hpc : p.children = .lexical word) :
    PossibleIn ⟨p.parent, .lexical word⟩ (t.lexicalInstances k) := by
  obtain ⟨hp, -, -, hA, word', hpc', hword⟩ := DerivesIn.word_iff.1 (h.isolates.derives he)
  obtain rfl := Children.lexical.inj (hpc.symm.trans hpc')
  have hscore : Score.impossible <
      t.chart.outside k (k + 1) p.parent + t.grammar.logProb p.parent (.lexical word) := by
    rw [← hpc, Grammar.logProb_of_mem hp]
    exact LosslessScore.impossible_lt_add (h.isolates.outside k _ he) (h.isolates.possible he)
  refine ⟨_, (mem_lexicalInstances h.sound).2 ⟨word, p.parent, hword,
    (PackedChart.mem_symbols h.sound).2 hA, Grammar.isPos_of_mem hp hpc, hscore, rfl, ?_⟩, hscore⟩
  rw [h.base_eq hp]

theorem possibleIn_unary (he : Part 0 d k (.unary p e)) :
    PossibleIn ⟨p.parent, .unary e.root⟩ (t.unaryInstances k (k + e.width)) := by
  have hout := h.isolates.outside k _ he
  obtain ⟨hp, hpc, hderives⟩ := (h.isolates.derives he).of_unary
  obtain ⟨hrule, hpos⟩ := Score.impossible_lt_of_add (h.isolates.possible he)
  obtain ⟨entry, hentry, hroot⟩ :=
    List.mem_map.1 ((PackedChart.mem_symbols h.sound).2 hderives.alive)
  have hbelow := h.possible_inside hderives hpos
  rw [← hroot, PackedChart.inside_of_mem h.sound hentry] at hbelow
  refine ⟨_, mem_unaryInstances.2 ⟨p, hp, e.root, hpc, ⟨entry, hentry, hroot, rfl⟩, hout, ?_, ?_⟩,
    LosslessScore.impossible_lt_add (LosslessScore.impossible_lt_add hout hrule) hbelow⟩
  · rw [h.base_eq hp, h.unsplit.base_eq _ hderives.nt_lt]
    exact h.root_ne he
  · rw [h.base_eq hp, h.unsplit.base_eq _ hderives.nt_lt]

theorem possibleIn_binary {f : Derivation α} (he : Part 0 d k (.binary p e f)) :
    PossibleIn ⟨p.parent, .binary e.root f.root⟩
      (t.binaryInstances k (k + (e.width + f.width)) (k + e.width)) := by
  have hout := h.isolates.outside k _ he
  obtain ⟨hp, hpc, hleft, hright⟩ := (h.isolates.derives he).of_binary
  obtain ⟨hsum, hposr⟩ := Score.impossible_lt_of_add (h.isolates.possible he)
  obtain ⟨hrule, hposl⟩ := Score.impossible_lt_of_add hsum
  have hinl := h.possible_inside hleft hposl
  have hinr := h.possible_inside hright hposr
  refine ⟨_, (mem_binaryInstances h.sound).2 ⟨p, hp, e.root, f.root, hpc,
    (PackedChart.mem_symbols h.sound).2 hleft.alive, hout, hinr, rfl, ?_⟩,
    LosslessScore.impossible_lt_add (LosslessScore.impossible_lt_add
      (LosslessScore.impossible_lt_add hout hrule) hinl) hinr⟩
  rw [h.base_eq hp, h.unsplit.base_eq _ hleft.nt_lt, h.unsplit.base_eq _ hright.nt_lt]

/-- What the decoder adds up for a rule is possible exactly if the derivation uses the rule there. -/
theorem possible_iff_uses (hr : r.Proper) :
    PossibleIn r.rule (t.summed (t.instancesOf r)) ↔ d.Uses r := by
  rw [possibleIn_summed]
  constructor
  · intro hpos
    obtain ⟨i, j, X, b⟩ := r
    cases b with
    | lexical word =>
      obtain rfl : j = i + 1 := hr
      exact h.uses_of_lexical hpos
    | unary child => exact h.uses_of_unary hpos
    | binary left right midpoint => exact h.uses_of_binary hpos
  · rintro ⟨k, e, he, rfl⟩
    have hderives := h.isolates.derives he
    cases e with
    | word p =>
      obtain ⟨-, -, -, -, word, hpc, -⟩ := DerivesIn.word_iff.1 hderives
      rw [Derivation.instanceAt, Derivation.backpointer_word hpc]
      exact h.possibleIn_lexical he hpc
    | unary p f =>
      rw [Derivation.instanceAt, Derivation.backpointer_unary hderives.of_unary.2.1]
      exact h.possibleIn_unary he
    | binary p l r =>
      rw [Derivation.instanceAt, Derivation.backpointer_binary hderives.of_binary.2.1]
      exact h.possibleIn_binary he

end Sole

/-! ### Offers -/

section Offers

variable [DivisibleScore α] (h : t.Sole d)
include h

namespace Sole

theorem possible_sub {x : α} :
    Score.impossible < x - t.sentenceScore ↔ Score.impossible < x :=
  DivisibleScore.impossible_lt_sub_iff h.possible_sentenceScore

omit [DivisibleScore α] h in
/-- Whether or not children are weighed, what is possible is no hindrance. -/
theorem possible_weight [LosslessScore α] (hpos : Score.impossible < cell.score) :
    Score.impossible < t.weight cell := by
  unfold weight
  split
  · exact LosslessScore.impossible_lt_zero hpos
  · exact hpos

theorem uses_of_mem_offersBelow (hcell : (X, cell) ∈ t.offersBelow table i j)
    (hpos : Score.impossible < cell.score) : d.Uses ⟨i, j, X, cell.backpointer⟩ := by
  unfold offersBelow at hcell
  split at hcell
  · next hone =>
    obtain rfl := beq_iff_eq.1 hone
    obtain ⟨word, y, hy, rfl⟩ := mem_lexicalOffers.1 hcell
    exact (h.possible_iff_uses (r := ⟨i, i + 1, X, .lexical word⟩) rfl).1
      ⟨y, hy, h.possible_sub.1 hpos⟩
  · obtain ⟨m, -, hcell⟩ := List.mem_flatMap.1 hcell
    obtain ⟨Y, Z, y, left, right, hy, -, -, rfl⟩ := mem_binaryOffers.1 hcell
    have hsum := (Score.impossible_lt_of_add (Score.impossible_lt_of_add hpos).1).1
    exact (h.possible_iff_uses (r := ⟨i, j, X, .binary Y Z m⟩) trivial).1
      ⟨y, hy, h.possible_sub.1 hsum⟩

theorem uses_of_mem_unary {y : α} (hy : (⟨X, .unary Y⟩, y) ∈ t.summed (t.unaryInstances i j))
    (hpos : Score.impossible < y) : d.Uses ⟨i, j, X, .unary Y⟩ :=
  (h.possible_iff_uses (proper_of_mem_unary hy)).1 ⟨y, hy, hpos⟩

theorem uses_of_mem_unaryOffers (hcell : (X, cell) ∈ t.unaryOffers table i j)
    (hpos : Score.impossible < cell.score) : d.Uses ⟨i, j, X, cell.backpointer⟩ := by
  obtain ⟨Y, y, below, hy, -, -, rfl⟩ := mem_unaryOffers.1 hcell
  exact h.uses_of_mem_unary hy (h.possible_sub.1 (Score.impossible_lt_of_add hpos).1)

/-- A constituent that is not derived by a unary rule has a possible offer if its children have possible
derivations. -/
theorem exists_mem_offersBelow (he : Part 0 d k e) (hunary : e.isUnary = false)
    (hbelow : ∀ m f, Part 0 d m f → f.width < e.width → table.Possible m (m + f.width) f.root) :
    ∃ cell, (e.root, cell) ∈ t.offersBelow table k (k + e.width) ∧
      Score.impossible < cell.score := by
  cases e with
  | unary => cases hunary
  | word p =>
    obtain ⟨-, -, -, -, word, hpc, -⟩ := DerivesIn.word_iff.1 (h.isolates.derives he)
    obtain ⟨y, hy, hpos⟩ := possibleIn_summed.2 (h.possibleIn_lexical he hpc)
    refine ⟨⟨y - t.sentenceScore, .lexical word⟩, ?_, h.possible_sub.2 hpos⟩
    rw [offersBelow, Derivation.width, if_pos (beq_self_eq_true _)]
    exact mem_lexicalOffers.2 ⟨word, y, hy, rfl⟩
  | binary p l r =>
    have hl := l.width_pos
    have hr := r.width_pos
    obtain ⟨y, hy, hpos⟩ := possibleIn_summed.2 (h.possibleIn_binary he)
    obtain ⟨left, hleft, hposl⟩ := hbelow k l he.left (Nat.lt_add_of_pos_right hr)
    obtain ⟨right, hright, hposr⟩ := hbelow _ r he.right (Nat.lt_add_of_pos_left hl)
    rw [Nat.add_assoc] at hright
    refine ⟨⟨y - t.sentenceScore + t.weight left + t.weight right,
      .binary l.root r.root (k + l.width)⟩, ?_, LosslessScore.impossible_lt_add
      (LosslessScore.impossible_lt_add (h.possible_sub.2 hpos) (possible_weight hposl))
      (possible_weight hposr)⟩
    have hmore : ¬ (k + (l.width + r.width) == k + 1) = true := by
      rw [beq_iff_eq]
      omega
    rw [offersBelow, Derivation.width, if_neg hmore]
    exact List.mem_flatMap.2 ⟨k + l.width, mem_midpoints.2 (by omega),
      mem_binaryOffers.2 ⟨l.root, r.root, y, left, right, hy, hleft, hright, rfl⟩⟩

/-- A category with a possible derivation has the derivation that the backpointers are to follow. -/
theorem exists_find? (he : Part 0 d k e) (hfollows : table.Follows d)
    (hpos : table.Possible k (k + e.width) e.root) :
    ∃ cell, RuleTable.find? table k (k + e.width) e.root = some cell ∧
      Score.impossible < cell.score ∧ cell.backpointer = e.backpointer k := by
  obtain ⟨cell, hcell, hpos⟩ := hpos
  exact ⟨cell, hcell, hpos, h.backpointer_eq he (hfollows _ _ _ cell hcell hpos)⟩

/-! ### Cells -/

/-- The constituents over a span that are not derived by unary rules have possible derivations. -/
theorem possible_withoutUnaries (hij : i < j) (hj : j ≤ table.size)
    (hstride : table.stride = t.grammar.symbols.numBases) (hfollows : table.Follows d)
    (hbelow : ∀ m f, Part 0 d m f → f.width < j - i → table.Possible m (m + f.width) f.root) :
    (t.withoutUnaries i j table).Follows d ∧
      ∀ e, Part 0 d i e → i + e.width = j → e.isUnary = false →
        (t.withoutUnaries i j table).Possible i j e.root := by
  have hkept := kept_withoutUnaries (t := t) hij hj
  refine ⟨hkept.follows hfollows fun Y cell => h.uses_of_mem_offersBelow, fun e he hwidth hunary => ?_⟩
  obtain ⟨cell, hmem, hpos⟩ := h.exists_mem_offersBelow he hunary fun m f hf hlt =>
    hbelow m f hf (by omega)
  rw [hwidth] at hmem
  refine hkept.possible_of_mem hmem ?_ hpos
  rw [hstride, h.unsplit.numBases_eq]
  exact (h.isolates.derives he).nt_lt

end Sole

/-- While unary rules over a span are tried: what is possible follows the derivation, the constituents that are
not derived by unary rules are possible, and so are the parents of the possible rules that
have been tried. -/
structure Climbs (t : RuleTask α) (d : Derivation α) (i j : Nat) (tried : List (CoarseRule × α))
    (table table' : RuleTable α) : Prop where
  kept : ∃ offers, Kept i j offers table table'
  follows : table'.Follows d
  bottom : ∀ e, Part 0 d i e → i + e.width = j → e.isUnary = false → table'.Possible i j e.root
  top : ∀ X Y y, (⟨X, .unary Y⟩, y) ∈ tried → Score.impossible < y → table'.Possible i j X

namespace Sole

/-- A possible unary rule is offered if its child has a possible derivation. -/
theorem exists_unaryOffer {y : α} (hy : (⟨X, .unary Y⟩, y) ∈ t.summed (t.unaryInstances i j))
    (hpos : Score.impossible < y) (hfollows : table.Follows d)
    (hbottom : ∀ e, Part 0 d i e → i + e.width = j → e.isUnary = false →
      table.Possible i j e.root) :
    ∃ cell, t.unaryOffer table i j (⟨X, .unary Y⟩, y) = some (X, cell) ∧
      Score.impossible < cell.score ∧ X < t.grammar.symbols.numBases := by
  obtain ⟨k, e, he, heq⟩ := h.uses_of_mem_unary hy hpos
  obtain ⟨rfl, rfl, rfl, hb⟩ := RuleInstance.mk.inj heq
  have hderives := h.isolates.derives he
  have hunary : e.isUnary = true := by rw [← Derivation.isUnary_backpointer hderives, hb]; rfl
  cases e with
  | word | binary => cases hunary
  | unary p f =>
    rw [Derivation.backpointer_unary hderives.of_unary.2.1] at hb
    obtain rfl := Backpointer.unary.inj hb
    have hloose := (he.singleUnaries h.single).1
    obtain ⟨below, hbelow, hposb, hsame⟩ :=
      h.exists_find? he.child hfollows (hbottom f he.child rfl hloose)
    rw [← Derivation.isUnary_backpointer (h.isolates.derives he.child), ← hsame] at hloose
    refine ⟨⟨y - t.sentenceScore + t.weight below, .unary f.root⟩, ?_,
      LosslessScore.impossible_lt_add (h.possible_sub.2 hpos) (possible_weight hposb), ?_⟩
    · simp only [unaryOffer, Derivation.width, hbelow, hloose, Bool.false_eq_true, if_false]
    · rw [h.unsplit.numBases_eq]
      exact hderives.nt_lt

/-- The trial of a unary rule leaves every constituent the derivation it has, and the parent of the rule has
one if the rule is possible. -/
theorem climbs_unaryStep {tried : List (CoarseRule × α)} {x : CoarseRule × α} (hij : i < j)
    (hj : j ≤ table.size) (hstride : table.stride = t.grammar.symbols.numBases)
    (hx : x ∈ t.summed (t.unaryInstances i j)) (hv : t.Climbs d i j tried table table') :
    t.Climbs d i j (tried ++ [x]) table (t.unaryStep i j table' x) := by
  obtain ⟨offers, hkept⟩ := hv.kept
  have hstep : Kept i j (t.unaryOffer table' i j x).toList table' (t.unaryStep i j table' x) := by
    rw [unaryStep_eq_offerAll]
    exact .offerAll hij (hkept.size_eq.symm ▸ hj) _
  have hoffer : ∀ Y cell, (Y, cell) ∈ (t.unaryOffer table' i j x).toList →
      (Y, cell) ∈ t.unaryOffers table' i j := fun Y cell hmem =>
    List.mem_filterMap.2 ⟨x, List.mem_mergeSort.2 hx, Option.mem_toList.1 hmem⟩
  refine
    { kept := ⟨_, hkept.trans hstep⟩
      follows := hstep.follows hv.follows fun Y cell hmem =>
        h.uses_of_mem_unaryOffers (hoffer Y cell hmem)
      bottom := fun e he hwidth hunary => hstep.possible (hv.bottom e he hwidth hunary)
      top := fun X Y y hmem hpos => ?_ }
  rcases List.mem_append.1 hmem with hmem | hmem
  · exact hstep.possible (hv.top X Y y hmem hpos)
  · obtain rfl := List.mem_singleton.1 hmem
    obtain ⟨cell, hcell, hposc, hX⟩ := h.exists_unaryOffer hx hpos hv.follows hv.bottom
    refine hstep.possible_of_mem (Option.mem_toList.2 hcell) ?_ hposc
    rwa [hkept.stride_eq, hstride]

/-- Once the unary rules have been tried, every constituent over the span has a possible derivation. -/
theorem possible_offerUnary (hij : i < j) (hj : j ≤ table.size)
    (hstride : table.stride = t.grammar.symbols.numBases) (hfollows : table.Follows d)
    (hbottom : ∀ e, Part 0 d i e → i + e.width = j → e.isUnary = false →
      table.Possible i j e.root) :
    (∃ offers, Kept i j offers table (t.offerUnary i j table)) ∧
      (t.offerUnary i j table).Follows d ∧
      ∀ e, Part 0 d i e → i + e.width = j → (t.offerUnary i j table).Possible i j e.root := by
  have hclimbs : t.Climbs d i j ((t.summed (t.unaryInstances i j)).mergeSort unaryBefore) table
      (t.offerUnary i j table) := by
    rw [offerUnary_eq]
    refine foldl_prefix_induction (P := fun tried table' => t.Climbs d i j tried table table') _
      (fun tried x rest table' hsplit hv => ?_) ⟨⟨[], .refl i j table⟩, hfollows, hbottom, nofun⟩
    have hx : x ∈ (t.summed (t.unaryInstances i j)).mergeSort unaryBefore := by
      rw [hsplit]
      simp
    exact h.climbs_unaryStep hij hj hstride (List.mem_mergeSort.1 hx) hv
  refine ⟨hclimbs.kept, hclimbs.follows, fun e he hwidth => ?_⟩
  cases e with
  | word | binary => exact hclimbs.bottom _ he hwidth rfl
  | unary p f =>
    obtain rfl := hwidth
    obtain ⟨y, hy, hpos⟩ := possibleIn_summed.2 (h.possibleIn_unary he)
    exact hclimbs.top _ _ y (List.mem_mergeSort.2 hy) hpos

end Sole

/-! ### The table -/

/-- Over some spans each constituent of the derivation has a possible derivation, and what is possible
follows the derivation. -/
structure Traces (t : RuleTask α) (d : Derivation α) (visited : List (Nat × Nat))
    (table : RuleTable α) : Prop where
  filled : t.Filled visited table
  follows : table.Follows d
  possible : ∀ k e, Part 0 d k e → (k, k + e.width) ∈ visited →
    table.Possible k (k + e.width) e.root

namespace Sole

omit [DivisibleScore α] h in
theorem traces_make : t.Traces d []
    (StrideTable.make t.chart.size t.grammar.symbols.numBases) where
  filled := t.filled_make
  follows i j X cell hcell := by
    have hblank := t.filled_make.blank i j X List.not_mem_nil
    exact absurd (Option.isSome_iff_exists.2 ⟨cell, hcell⟩) hblank
  possible _ _ _ hmem := absurd hmem List.not_mem_nil

/-- The visit of a cell whose shorter spans are filled. -/
theorem traces_fillCell {visited : List (Nat × Nat)} (hij : i < j) (hj : j ≤ t.chart.size)
    (hnew : (i, j) ∉ visited)
    (hshorter : ∀ k l, k < l → l ≤ t.chart.size → l - k < j - i → (k, l) ∈ visited)
    (hlonger : ∀ k l, (k, l) ∈ visited → l - k ≤ j - i) (hv : t.Traces d visited table) :
    t.Traces d (visited ++ [(i, j)]) (t.fillCell table (i, j)) := by
  have hj' : j ≤ table.size := hv.filled.size_eq.symm ▸ hj
  have hstride := hv.filled.sound.stride_eq
  have hkept := kept_withoutUnaries (t := t) hij hj'
  obtain ⟨hfollows, hbottom⟩ := h.possible_withoutUnaries hij hj' hstride hv.follows fun m f hf hlt => by
    have hspan := h.sound.bounds_of_live (h.isolates.derives hf).alive
    exact hv.possible m f hf (hshorter _ _ hspan.1 hspan.2 (by omega))
  obtain ⟨⟨offers, hkept'⟩, hfollows', hall⟩ := h.possible_offerUnary hij (hkept.size_eq.symm ▸ hj')
    (hkept.stride_eq.trans hstride) hfollows hbottom
  refine ⟨hv.filled.fillCell hij hj hnew hlonger, hfollows', fun k e he hmem => ?_⟩
  rcases List.mem_append.1 hmem with hmem | hmem
  · exact hkept'.possible (hkept.possible (hv.possible k e he hmem))
  · obtain ⟨rfl, hwidth⟩ := Prod.mk.inj (List.mem_singleton.1 hmem)
    rw [hwidth]
    exact hall e he hwidth

theorem traces_table : t.Traces d (spansUp t.chart.size) t.table :=
  spansUp_induction (P := t.Traces d) traces_make
    fun _ _ _ _ hij hj hnew hshorter hlonger hv =>
      h.traces_fillCell hij hj hnew hshorter hlonger hv

/-- The backpointers of the table lead along the derivation. -/
theorem traced : d.Traced (t.backpointers t.table).find? 0 := by
  intro k e he
  have hspan := h.sound.bounds_of_live (h.isolates.derives he).alive
  obtain ⟨cell, hcell, -, hb⟩ := h.exists_find? he h.traces_table.follows
    (h.traces_table.possible k e he (mem_spansUp.2 hspan))
  show (RuleTable.find? t.table k (k + e.width) e.root).map (·.backpointer) = _
  rw [hcell, Option.map_some, hb]

/-- The tree of the decoder is that of the derivation. -/
theorem tree?_eq : t.tree? = some (d.tree t.grammar.symbols.name t.sentence.words 0) := by
  have hderives : DerivesIn t.grammar t.sentence t.chart.Live 0 t.chart.size t.grammar.start d :=
    h.isolates.only.mem
  have hpossible : (t.sentenceScore == Score.impossible) = false :=
    Score.beq_impossible_eq_false_iff.2 h.possible_sentenceScore
  have hsome : ¬ (t.chart.size == 0 || t.sentenceScore == Score.impossible) = true := by
    rw [hpossible, Bool.or_false, beq_iff_eq]
    exact Nat.ne_of_gt hderives.start_lt
  rw [tree?, if_neg hsome, h.unsplit.baseStart_eq, ← h.unsplit.baseName_eq, Backpointers.tree?]
  exact h.traced.follow hderives h.single (Nat.le_of_eq h.size_eq) (Nat.le_add_left 1 _)
    (Nat.le_trans h.single.unaryHeight_le (Nat.le_add_left 1 _))

end Sole

end Offers

end RuleTask

/-- Once the chart is weighed, it singles out the derivation. -/
theorem Chart.Sole.ruleTask {α : Type} [Score α] [LosslessScore α] {g : Grammar α} {s : Sentence}
    {c : Chart α} {d : Derivation α} (h : c.Sole g s d) (hg : g.symbols.Unsplit) (o : Options α) :
    (o.ruleTask g (Parser.weighed o.sums g s (c.toPacked g)) s).Sole d := by
  have hw := Chart.repacked_weighed h.sound o.sums s
  exact
    { unsplit := hg
      sound := hw.sound
      size_eq := hw.size_eq.trans h.size_eq
      isolates :=
        PackedChart.isolates_weighed o.sums (Chart.toPacked_spec h.sound).1 h.only_toPacked
      single := h.single }

/-! ## Searched charts -/

namespace Parser

/-- Both decoders read off the tree of the derivation. -/
theorem decode_of_sole {α : Type} [Score α] [DivisibleScore α] {p : Parser α} {s : Sentence}
    {found : Searched α} {d : Derivation α} (hdecoder : p.options.decoder = .maxRule)
    (hg : p.grammar.symbols.Unsplit) (hsole : found.chart.Sole p.grammar s d)
    (hparse : found.chart.hasParse p.grammar.start = true) :
    (p.decode s found).1 = some (d.tree p.grammar.symbols.name s.words 0).unfactor ∧
      ((p.decodingBy .viterbi).decode s found).1 =
        some (d.tree p.grammar.symbols.name s.words 0).unfactor := by
  constructor
  · rw [decode_maxRule hdecoder, hasParse_toPacked hsole.sound, if_pos hparse]
    exact congrArg (Option.map Tree.unfactor) (hsole.ruleTask hg p.options).tree?_eq
  · rw [decode_viterbi rfl]
    exact congrArg (Option.map Tree.unfactor) (hsole.viterbiTree?_eq hparse)

/-- Max-rule is Viterbi where there is nothing to choose: for any grammar whose names carry no marks of latent
splits and any sentence, both decoders give the tree of the derivation if the searched chart has only one,
which has no unary rules on top of each other. So it is however rules are weighed and whatever fills the
chart, an exhaustive search that sums or not, a beam search of any width, or an agenda search that takes its
edges in any order and stops at any moment. Outside of an agenda search the arena must have had numbers left
for all entries. -/
theorem maxRule_eq_viterbi {α : Type} [Score α] [DivisibleScore α] {g : Grammar α}
    (hderived : g.symbols.Derived)
    (hname : ∀ A < g.numNonterminals, baseCategory (g.symbols.name A) = g.symbols.name A)
    (words : List String) {d : Derivation α} (hsingle : d.SingleUnaries) :
    (∀ p : Parser α, p.grammar = g → p.options.decoder = .maxRule →
      p.options.strategy = .agenda ∨ (p.searched words).Fits →
      (p.searched words).HasOnly g (.ofWords g words) d →
      (p.parse words).tree = ((p.decodingBy .viterbi).parse words).tree ∧
        (p.parse words).tree = some (d.tree g.symbols.name words 0).unfactor) ∧
    ∀ (t : Agenda.Task α) (st : Agenda.State α), t.grammar = g →
      Agenda.Run t (Agenda.initial t (Agenda.seed g (.ofWords g words)).1
        (Agenda.seed g (.ofWords g words)).2) st →
      (Chart.slots st.chart).HasOnly g (.ofWords g words) d →
      ∀ (p : Parser α) (found : Searched α), p.grammar = g → p.options.decoder = .maxRule →
        found.chart = .slots st.chart →
        (p.decode (.ofWords g words) found).1 =
            ((p.decodingBy .viterbi).decode (.ofWords g words) found).1 ∧
          (p.decode (.ofWords g words) found).1 =
            some (d.tree g.symbols.name words 0).unfactor := by
  have hg := hderived.unsplit hname
  refine ⟨fun p hp hdecoder hfits honly => ?_, fun t st ht hrun honly p found hp hdecoder hfound => ?_⟩
  · subst hp
    have hsustained := p.search_sustained (fun _ => Accumulator.keepsPossible _)
      (.ofWords p.grammar words)
    have hsole := honly.sole hsustained
      (p.search_records (fun _ => Accumulator.keepsPossible _) _ hfits)
      (p.search_supported (fun _ => Accumulator.keepsPossible _) _ hfits) hsingle
    have hsearch : (p.decodingBy .viterbi).search (.ofWords p.grammar words) =
        p.search (.ofWords p.grammar words) :=
      p.search_decodingBy .viterbi _ fun _ => by rw [hdecoder]; rfl
    obtain ⟨hmaxRule, hviterbi⟩ := decode_of_sole hdecoder hg hsole (honly.hasParse hsustained)
    rw [← hsearch] at hviterbi
    rw [parse_eq, parse_eq]
    exact ⟨hmaxRule.trans hviterbi.symm, hmaxRule⟩
  · subst hp
    have hheld := (Agenda.run_supplied ht (Agenda.initial_supplied ht _) hrun).toHeld
    have hsole := honly.sole hheld.sustained hheld.records (hheld.supported inferInstance) hsingle
    have hparse := honly.hasParse hheld.sustained
    rw [← hfound] at hsole hparse
    obtain ⟨hmaxRule, hviterbi⟩ := decode_of_sole hdecoder hg hsole hparse
    exact ⟨hmaxRule.trans hviterbi.symm, hmaxRule⟩

theorem start_lt_spareNames : 0 < spareNames.size := by decide

/-- A parser with a beam for `S → A`, `A → B B`, `@S|A|A → B B` and `B → b`, that weighs rules without what
their children weigh. The coarse categories have been read off the names. -/
def sproutParser : Parser (WithBot ℤ) where
  grammar :=
    .ofProductions (.ofVocabularies spareNames Chain.lexicon 0 start_lt_spareNames) Chain.code
      (by decide)
      [⟨0, .unary 1, (-1 : ℤ)⟩, ⟨1, .binary 2 2, 0⟩, ⟨3, .binary 2 2, 0⟩, ⟨2, .lexical 0, 0⟩]
      (by
        have hsize : spareNames.size = 4 ∧ Chain.lexicon.size = 1 := by decide
        show ∀ p ∈ _, Production.InRange spareNames.size Chain.lexicon.size p
        rw [hsize.1, hsize.2]
        simp [Production.InRange, Children.InRange])
      (by simp [Production.sameRule])
  options :=
    { Chain.options with
      strategy := .beam
      decoder := .maxRule
      agendaBatch := 1
      localMaxRule := true }
  merit := .inside

/-- A word of the derivation. -/
def sproutWord : Derivation (WithBot ℤ) := .word ⟨2, .lexical 0, 0⟩

/-- The derivation of two words. -/
def sproutDerivation : Derivation (WithBot ℤ) :=
  .unary ⟨0, .unary 1, (-1 : ℤ)⟩ (.binary ⟨1, .binary 2 2, 0⟩ sproutWord sproutWord)

theorem derives_sprout : Derives sproutParser.grammar Chain.pair 0 2 0 sproutDerivation := by
  obtain ⟨htop, hmiddle, hbottom⟩ :
      ⟨0, .unary 1, (-1 : ℤ)⟩ ∈ sproutParser.grammar.productions ∧
      ⟨1, .binary 2 2, 0⟩ ∈ sproutParser.grammar.productions ∧
      ⟨2, .lexical 0, 0⟩ ∈ sproutParser.grammar.productions := by
    simp [sproutParser, Grammar.ofProductions]
  have hword : ∀ i < 2, Derives sproutParser.grammar Chain.pair i (i + 1) 2 sproutWord := by
    intro i hi
    have hterminal : Chain.pair.terminal? i = some 0 := by interval_cases i <;> rfl
    exact .word hbottom rfl hterminal trivial
  exact .unary htop rfl (.binary hmiddle rfl (hword 0 (by omega)) (hword 1 (by omega)) trivial)
    trivial

/-- A chart that has the start symbol has this derivation alone. -/
theorem hasOnly_sprout {c : Chart (WithBot ℤ)}
    (hsupported : Supported sproutParser.grammar Chain.pair c.Live) (hlive : c.Live 0 2 0) :
    c.HasOnly sproutParser.grammar Chain.pair sproutDerivation := by
  have hrules : (sproutParser.grammar.productions.map (·.parent)).Nodup := by decide +kernel
  have hunique : ∀ e, DerivesIn sproutParser.grammar Chain.pair c.Live 0 2 0 e →
      e = sproutDerivation := fun e he =>
    (he.mono fun _ _ _ _ => trivial).eq_of_parents hrules derives_sprout
  obtain ⟨d, hd, -⟩ := hsupported 0 2 0 hlive
  exact ⟨hunique d hd ▸ hd, fun e he _ => hunique e he⟩

/-- A beam search, and an agenda search that has taken five edges. Both keep another symbol over both
words, for which the derivation has no use. -/
theorem sprout_maxRule_eq_viterbi :
    (sproutParser.searched ["b", "b"]).Live 0 2 3 ∧
      (sproutParser.parse ["b", "b"]).tree =
        ((sproutParser.decodingBy .viterbi).parse ["b", "b"]).tree ∧
      (sproutParser.parse ["b", "b"]).tree.map Tree.text = some "(S (A (B b)(B b)))" ∧
      (Chart.slots (sproutParser.afterRounds 5).chart).Live 0 2 3 ∧
      ∀ found : Searched (WithBot ℤ), found.chart = .slots (sproutParser.afterRounds 5).chart →
        (sproutParser.decode Chain.pair found).1 =
          ((sproutParser.decodingBy .viterbi).decode Chain.pair found).1 := by
  have hword : sproutParser.grammar.terminal? "b" = some 0 :=
    Vocabulary.find?_eq_some_iff.2 (by decide)
  have hpair : Sentence.ofWords sproutParser.grammar ["b", "b"] = Chain.pair := by
    simp [Sentence.ofWords, Chain.pair, hword]
  have hname : ∀ A < 4, baseCategory (spareNames.name A) = spareNames.name A := by decide
  obtain ⟨hsearch, hagenda⟩ := maxRule_eq_viterbi (g := sproutParser.grammar) ⟨rfl, rfl⟩ hname
    ["b", "b"] (d := sproutDerivation) ⟨rfl, trivial, trivial⟩
  have hbeam : (sproutParser.searched ["b", "b"]).Live 0 2 0 ∧
      (sproutParser.searched ["b", "b"]).Live 0 2 3 := by
    rw [searched, hpair]
    show ((sproutParser.search Chain.pair).chart.get? 0 2 0).isSome = true ∧
      ((sproutParser.search Chain.pair).chart.get? 0 2 3).isSome = true
    decide +kernel
  have hfive : (Chart.slots (sproutParser.afterRounds 5).chart).Live 0 2 0 ∧
      (Chart.slots (sproutParser.afterRounds 5).chart).Live 0 2 3 := by
    show ((sproutParser.afterRounds 5).chart.get? 0 2 0).isSome = true ∧
      ((sproutParser.afterRounds 5).chart.get? 0 2 3).isSome = true
    decide +kernel
  have hsupported := sproutParser.search_supported (fun _ => Accumulator.keepsPossible _)
    (.ofWords sproutParser.grammar ["b", "b"]) (.inr trivial)
  rw [hpair] at hsearch hagenda hsupported
  obtain ⟨heq, htree⟩ := hsearch sproutParser rfl rfl (.inr trivial)
    (hasOnly_sprout (by rw [searched, hpair]; exact hsupported) hbeam.1)
  refine ⟨hbeam.2, heq, ?_, hfive.2, fun found hfound => ?_⟩
  · rw [htree, Option.map_some]
    decide +kernel
  · let t := Agenda.searchTask sproutParser.grammar sproutParser.merit
      sproutParser.options.popLimit sproutParser.options.agendaBatch Chain.pair
    have hrun : Agenda.BestRun t (Agenda.initial t (Agenda.seed sproutParser.grammar Chain.pair).1
        (Agenda.seed sproutParser.grammar Chain.pair).2) (sproutParser.afterRounds 5) :=
      Agenda.bestRun_run rfl 5 (Agenda.descending_initial t _ _)
    have hheld := (Agenda.run_supplied rfl (Agenda.initial_supplied rfl _) hrun.run).toHeld
    exact (hagenda t _ rfl hrun.run (hasOnly_sprout (hheld.supported inferInstance) hfive.1)
      sproutParser found rfl rfl hfound).1

/-! ## Beyond the finite numbers -/

/-- A standard parser that decodes by rules, for `S → A`, `A → B B` and `B → b` in single precision, with the
log probabilities `-2 ^ 102`, `-2 ^ 101` and half of the least finite number. -/
def steepParser : Parser Float32 where
  grammar :=
    .ofProductions (.ofNames "S" ["A", "B"] (by decide) Chain.lexicon) Chain.code (by decide)
      [⟨0, .unary 1, .ofBits 0xF2800000⟩, ⟨1, .binary 2 2, .ofBits 0xF2000000⟩,
        ⟨2, .lexical 0, .ofBits 0xFEFFFFFF⟩]
      (by
        have hsize : Chain.lexicon.size = 1 := by decide
        show ∀ p ∈ _, Production.InRange 3 Chain.lexicon.size p
        rw [hsize]
        simp [Production.InRange, Children.InRange])
      (by simp [Production.sameRule])
  options := { Options.standard with decoder := .maxRule }
  merit := .inside

/-- A word of the derivation. -/
def steepWord : Derivation Float32 := .word ⟨2, .lexical 0, .ofBits 0xFEFFFFFF⟩

/-- The derivation of two words. -/
def steepDerivation : Derivation Float32 :=
  .unary ⟨0, .unary 1, .ofBits 0xF2800000⟩
    (.binary ⟨1, .binary 2 2, .ofBits 0xF2000000⟩ steepWord steepWord)

theorem ofWords_steep : Sentence.ofWords steepParser.grammar ["b", "b"] = Chain.pair := by
  have hword : steepParser.grammar.terminal? "b" = some 0 :=
    Vocabulary.find?_eq_some_iff.2 (by decide)
  simp [Sentence.ofWords, Chain.pair, hword]

/-- The entries of the searched chart. -/
theorem get?_steep :
    ((steepParser.search Chain.pair).chart.get? 0 2 0).map (·.backpointer) = some (.unary 1) ∧
      ((steepParser.search Chain.pair).chart.get? 0 2 1).map (·.backpointer) =
        some (.binary 2 2 1) ∧
      ((steepParser.search Chain.pair).chart.get? 0 1 2).map (·.backpointer) = some (.lexical 0) ∧
      ((steepParser.search Chain.pair).chart.get? 1 2 2).map (·.backpointer) =
        some (.lexical 0) := by
  decide +kernel

theorem derives_steep :
    DerivesIn steepParser.grammar Chain.pair (steepParser.search Chain.pair).chart.Live 0 2 0
      steepDerivation := by
  have hlive : ∀ {i j A b}, ((steepParser.search Chain.pair).chart.get? i j A).map (·.backpointer) =
      some b → (steepParser.search Chain.pair).chart.Live i j A := by
    intro i j A b h
    obtain ⟨e, he, -⟩ := Option.map_eq_some_iff.1 h
    exact Option.isSome_iff_exists.2 ⟨e, he⟩
  obtain ⟨htop, hmiddle, hfirst, hsecond⟩ := get?_steep
  exact DerivesIn.unary_iff.2 ⟨.head _, rfl, hlive htop, 1, rfl,
    DerivesIn.binary_iff.2 ⟨.tail _ (.head _), rfl, hlive hmiddle, 2, 2, 1, rfl,
      DerivesIn.word_iff.2 ⟨.tail _ (.tail _ (.head _)), rfl, rfl, hlive hfirst, 0, rfl, rfl⟩,
      DerivesIn.word_iff.2 ⟨.tail _ (.tail _ (.head _)), rfl, rfl, hlive hsecond, 0, rfl, rfl⟩⟩⟩

theorem viterbiTree?_steep :
    (steepParser.search Chain.pair).chart.viterbiTree? steepParser.grammar.symbols Chain.pair.words
      steepParser.grammar.start =
        some (steepDerivation.tree steepParser.grammar.symbols.name ["b", "b"] 0) := by
  have hsize : (steepParser.search Chain.pair).chart.size = 2 := by decide +kernel
  have hmax : ((steepParser.search Chain.pair).chart.backpointers steepParser.grammar.symbols
      Chain.pair.words).maxUnaries = 3 + 1 := by decide +kernel
  obtain ⟨htop, hmiddle, hfirst, hsecond⟩ := get?_steep
  rw [Chart.viterbiTree?, if_pos (by decide +kernel), Backpointers.tree?, hsize, hmax,
    Backpointers.follow_unary htop, Backpointers.follow_binary hmiddle (by decide) (by decide)
      (Backpointers.follow_lexical hfirst (by decide) _)
      (Backpointers.follow_lexical hsecond (by decide) _)]
  rfl

/-- What the decoder by rules works on. -/
def steepTask : RuleTask Float32 :=
  steepParser.options.ruleTask steepParser.grammar
    (weighed steepParser.options.sums steepParser.grammar Chain.pair
      ((steepParser.search Chain.pair).chart.toPacked steepParser.grammar)) Chain.pair

/-- The rule for `A`, with the outside score of `A` and the inside scores of both `B`, is rounded down to
what is no finite number any more. Without `A` there is no rule for `S`. -/
theorem tree?_steepTask : steepTask.tree? = none := by
  have hsize : steepTask.chart.size = 2 := by decide +kernel
  have hspans : spansUp 2 = [(0, 1), (1, 2), (0, 2)] := by decide
  have hbases : steepTask.grammar.symbols.numBases = 3 := by decide +kernel
  have hsorted : ∀ span ∈ [(0, 1), (1, 2), (0, 2)],
      (steepTask.summed (steepTask.unaryInstances span.1 span.2)).Pairwise fun a b =>
        RuleTask.unaryBefore a b = true := by
    decide +kernel
  have htable : RuleTable.find? steepTask.table 0 2 0 = none := by
    rw [RuleTask.table, hsize, hspans, hbases]
    simp only [List.foldl_cons, List.foldl_nil, RuleTask.fillCell_eq]
    rw [RuleTask.offerUnary_of_pairwise (hsorted (0, 1) (by decide)),
      RuleTask.offerUnary_of_pairwise (hsorted (1, 2) (by decide)),
      RuleTask.offerUnary_of_pairwise (hsorted (0, 2) (by decide))]
    exact Option.isNone_iff_eq_none.1 (by decide +kernel)
  exact RuleTask.tree?_eq_none (hsize.symm ▸ htable)

/-- All scores in the searched chart are finite, and so is that of its only derivation, which has no unary
rules on top of each other. It is the tree by backpointers, and there is no tree by rules. -/
theorem steep_maxRule_has_no_tree :
    steepParser.grammar.symbols.Derived ∧
      (∀ A < steepParser.grammar.numNonterminals,
        baseCategory (steepParser.grammar.symbols.name A) = steepParser.grammar.symbols.name A) ∧
      steepDerivation.SingleUnaries ∧ Score.impossible < steepDerivation.score ∧
      (∀ d, DerivesIn steepParser.grammar (.ofWords steepParser.grammar ["b", "b"])
        (steepParser.searched ["b", "b"]).Live 0 2 steepParser.grammar.start d ↔
          d = steepDerivation) ∧
      ((steepParser.decodingBy .viterbi).parse ["b", "b"]).tree.map Tree.text =
        some "(S (A (B b)(B b)))" ∧
      (steepParser.parse ["b", "b"]).tree = none := by
  have hrules : (steepParser.grammar.productions.map (·.parent)).Nodup := by decide +kernel
  have hwords : Sentence.ofWords (steepParser.decodingBy .viterbi).grammar ["b", "b"] = Chain.pair :=
    ofWords_steep
  rw [searched, parse_eq, parse_eq, hwords, ofWords_steep]
  refine ⟨SymbolTable.derived_ofNames _ _ (by decide), ?_, ⟨rfl, trivial, trivial⟩, by decide +kernel,
    fun d => ⟨fun hd => hd.eq_of_parents hrules derives_steep, fun hd => hd ▸ derives_steep⟩, ?_, ?_⟩
  · show ∀ A < 3, baseCategory (steepParser.grammar.symbols.name A) = steepParser.grammar.symbols.name A
    decide
  · show ((((steepParser.search Chain.pair).chart.viterbiTree? steepParser.grammar.symbols
      Chain.pair.words steepParser.grammar.start).map Tree.unfactor).map Tree.text) = _
    rw [viterbiTree?_steep]
    decide +kernel
  · exact decode_maxRule_eq_none rfl tree?_steepTask

end Parser

end Constituency
