import Constituency.Proofs.Chart.Downward
import Constituency.Proofs.Decode.RuleOffers
import Constituency.Proofs.Decode.RulePosterior
import Constituency.Proofs.Decode.RuleTree
import Mathlib.Order.Bounds.Basic

/-!
# The table of rules is optimal

A decoder by rules looks for a derivation by coarse rules (`CoarseTree`) that is worth the most: the sum of
the posteriors of its rules, all of which must be possible. Where no category is both the parent and the
child of unary rules between different categories, its table holds just that (`table_optimal`). No
derivation is worth more than the cell for it (`exists_cell`), and the one along the backpointers of a
cell is worth as much (`exists_tree`). If the entries of the chart have derivations, as those of a search
do, then nothing impossible is held either: what surrounds a rule surrounds its children, so that these
have derivations by possible rules in turn (`exists_licensed`).
-/

namespace Constituency

/-- A derivation by coarse rules of a category over a span. -/
inductive CoarseTree : Nat → Nat → NonTerminal → Type where
  | word (i : Nat) (X : NonTerminal) (terminal : Terminal) : CoarseTree i (i + 1) X
  | unary {i j : Nat} (X : NonTerminal) {Y : NonTerminal} (child : CoarseTree i j Y) :
      CoarseTree i j X
  | binary {i m j : Nat} (X : NonTerminal) {Y Z : NonTerminal} (left : CoarseTree i m Y)
      (right : CoarseTree m j Z) : CoarseTree i j X

namespace CoarseTree

/-- The rules of a derivation at their places. -/
def instances {i j : Nat} {X : NonTerminal} : CoarseTree i j X → List RuleInstance
  | word i X terminal => [⟨i, i + 1, X, .lexical terminal⟩]
  | @unary i j X Y child => ⟨i, j, X, .unary Y⟩ :: child.instances
  | @binary i m j X Y Z left right =>
    ⟨i, j, X, .binary Y Z m⟩ :: (left.instances ++ right.instances)

/-- The tree of a derivation. -/
def tree {i j : Nat} {X : NonTerminal} (symbols : SymbolTable) (words : List String) :
    CoarseTree i j X → Tree
  | word i X _ => .join (symbols.baseName X) [.leaf (words[i]?.getD "") i]
  | unary X child => .join (symbols.baseName X) [child.tree symbols words]
  | binary X left right =>
    .join (symbols.baseName X) [left.tree symbols words, right.tree symbols words]

end CoarseTree

/-- No category is both the parent and the child of unary rules between different categories. -/
def Grammar.Unchained {α : Type} (g : Grammar α) : Prop :=
  ∀ p ∈ g.productions, ∀ q ∈ g.productions, ∀ B C, p.children = .unary B → q.children = .unary C →
    g.symbols.base p.parent ≠ g.symbols.base B → g.symbols.base q.parent ≠ g.symbols.base C →
      g.symbols.base p.parent ≠ g.symbols.base C

namespace RuleTask

variable {α : Type} [Score α] {t : RuleTask α} {i m j : Nat} {X Y Z : NonTerminal}
  {cell : RuleCell α} {r : RuleInstance}

/-- All rules of a derivation fit their places and are possible there. -/
def Licensed (t : RuleTask α) (d : CoarseTree i j X) : Prop :=
  ∀ r ∈ d.instances, r.Proper ∧ Score.impossible < t.posterior r

/-- The posteriors of all rules of a derivation together. -/
def value (t : RuleTask α) (d : CoarseTree i j X) : α :=
  (d.instances.map t.posterior).sum

/-- Some derivation by possible rules is worth the score, and whoever follows the backpointers with a
number of unary rules to spare comes upon its tree. -/
def Attained (t : RuleTask α) (i j : Nat) (X : NonTerminal) (score : α) (spare : Nat) : Prop :=
  ∃ d : CoarseTree i j X, t.Licensed d ∧ t.value d = score ∧
    ∀ unaries, (t.backpointers t.table).follow i j X (unaries + spare) =
      some (d.tree t.grammar.symbols t.sentence.words)

theorem licensed_word {word : Terminal} : t.Licensed (.word i X word) ↔
    Score.impossible < t.posterior ⟨i, i + 1, X, .lexical word⟩ := by
  simp [Licensed, CoarseTree.instances, RuleInstance.Proper]

theorem licensed_unary {child : CoarseTree i j Y} : t.Licensed (.unary X child) ↔
    (Y ≠ X ∧ Score.impossible < t.posterior ⟨i, j, X, .unary Y⟩) ∧ t.Licensed child := by
  simp only [Licensed, CoarseTree.instances, List.forall_mem_cons, RuleInstance.Proper]

theorem licensed_binary {left : CoarseTree i m Y} {right : CoarseTree m j Z} :
    t.Licensed (.binary X left right) ↔
      Score.impossible < t.posterior ⟨i, j, X, .binary Y Z m⟩ ∧ t.Licensed left ∧
        t.Licensed right := by
  simp only [Licensed, CoarseTree.instances, List.forall_mem_cons, List.forall_mem_append,
    RuleInstance.Proper, true_and]

theorem unchained_of_grammar [MonotoneScore α] (hg : t.grammar.Unchained) : t.Unchained := by
  rintro i j X Y hr ⟨Z, htop⟩
  obtain ⟨p, hp, B, hpc, -, -, hne, heq⟩ := mem_rules_unary.1 hr
  obtain ⟨q, hq, C, hqc, -, -, hne', heq'⟩ := mem_rules_unary.1 htop
  obtain ⟨rfl, hY⟩ := CoarseRule.mk.inj heq
  obtain ⟨rfl, -⟩ := CoarseRule.mk.inj heq'
  exact hg q hq p hp C B hqc hpc hne' hne (Children.unary.inj hY)

variable [UnroundedScore α]

theorem value_word (t : RuleTask α) (i : Nat) (X : NonTerminal) (word : Terminal) :
    t.value (.word i X word) = t.posterior ⟨i, i + 1, X, .lexical word⟩ :=
  UnroundedScore.add_zero _

omit [UnroundedScore α] in
theorem value_unary (t : RuleTask α) (X : NonTerminal) (child : CoarseTree i j Y) :
    t.value (.unary X child) = t.posterior ⟨i, j, X, .unary Y⟩ + t.value child := by
  rw [value, CoarseTree.instances, List.map_cons, List.sum_cons, value]

theorem value_binary (t : RuleTask α) (X : NonTerminal) (left : CoarseTree i m Y)
    (right : CoarseTree m j Z) : t.value (.binary X left right) =
      t.posterior ⟨i, j, X, .binary Y Z m⟩ + t.value left + t.value right := by
  rw [value, CoarseTree.instances, List.map_cons, List.sum_cons, List.map_append, List.sum_append,
    UnroundedScore.add_assoc]
  rfl

theorem Licensed.possible {d : CoarseTree i j X} (h : t.Licensed d) :
    Score.impossible < t.value d := by
  induction d with
  | word i X word => exact value_word t i X word ▸ licensed_word.1 h
  | unary X child ih =>
    obtain ⟨⟨-, hrule⟩, hchild⟩ := licensed_unary.1 h
    exact value_unary t X child ▸ LosslessScore.impossible_lt_add hrule (ih hchild)
  | binary X left right ihl ihr =>
    obtain ⟨hrule, hleft, hright⟩ := licensed_binary.1 h
    exact value_binary t X left right ▸ LosslessScore.impossible_lt_add
      (LosslessScore.impossible_lt_add hrule (ihl hleft)) (ihr hright)

/-! ## Upper bound -/

/-- The parent of a possible rule is an entry over the span of the rule. -/
theorem mem_spansUp_of_possible (hc : t.chart.Sound t.grammar)
    (hpos : Score.impossible < t.posterior r) :
    Score.impossible < t.mass r ∧ (r.start, r.stop) ∈ spansUp t.chart.size := by
  have hmass := UnroundedScore.impossible_lt_of_sub hpos
  obtain ⟨x, hx, hthrough⟩ := PackedChart.exists_of_possible_total hmass
  obtain ⟨p, -, rfl⟩ := List.mem_map.1 hx
  rw [through] at hthrough
  split at hthrough
  · have hout := (Score.impossible_lt_of_add (Score.impossible_lt_of_add hthrough).1).1
    exact ⟨hmass, (mem_symbols_of_possible hc hout).2⟩
  · exact absurd hthrough Score.not_impossible_lt_impossible

section Optimum

variable {R : Type} [CommSemiring R] {weight : α → R} (h : t.sums.Exact R weight)
  (hinj : Function.Injective weight) (hc : t.chart.Sound t.grammar) (ht : t.Unchained)
include h hinj hc

theorem mem_summed_of_posterior (hr : r.Proper) (hpos : Score.impossible < t.posterior r) :
    (r.rule, t.mass r) ∈ t.summed (t.instancesOf r) :=
  mem_summed_of_possible h hinj hc hr (mem_spansUp_of_possible hc hpos).1

variable (hlocal : t.localOnly = false)
include ht hlocal

omit [UnroundedScore α] h hinj hc ht in
theorem weight_eq_score (cell : RuleCell α) : t.weight cell = cell.score := by
  rw [RuleTask.weight, hlocal]
  rfl

/-- The table holds a derivation of whatever has one by possible rules, and none of these is worth more. -/
theorem exists_cell (d : CoarseTree i j X) (hd : t.Licensed d) :
    ∃ cell, RuleTable.find? t.table i j X = some cell ∧ t.value d ≤ cell.score := by
  have hsettled := settled_table hc ht
  induction d with
  | word i X word =>
    have hpos := licensed_word.1 hd
    have hspan := (mem_spansUp_of_possible hc hpos).2
    obtain ⟨held, hheld, hle⟩ := hsettled.best i (i + 1) X _ hspan
      (.word (mem_summed_of_posterior (r := ⟨i, i + 1, X, .lexical word⟩) h hinj hc rfl hpos))
    exact ⟨held, hheld, value_word t i X word ▸ hle⟩
  | @unary i j X Y child ih =>
    obtain ⟨⟨hne, hpos⟩, hchild⟩ := licensed_unary.1 hd
    obtain ⟨below, hbelow, hbelowLe⟩ := ih hchild
    have hspan := (mem_spansUp_of_possible hc hpos).2
    obtain ⟨held, hheld, hle⟩ := hsettled.best i j X _ hspan
      (.unary (mem_summed_of_posterior (r := ⟨i, j, X, .unary Y⟩) h hinj hc hne hpos) hbelow)
    refine ⟨held, hheld, Score.le_trans ?_ hle⟩
    rw [value_unary, weight_eq_score hlocal]
    exact Score.add_le_add_left hbelowLe _
  | @binary i m j X Y Z left right ihl ihr =>
    obtain ⟨hpos, hleft, hright⟩ := licensed_binary.1 hd
    obtain ⟨leftCell, hleftCell, hleftLe⟩ := ihl hleft
    obtain ⟨rightCell, hrightCell, hrightLe⟩ := ihr hright
    have hspan := (mem_spansUp_of_possible hc hpos).2
    have hm : i < m ∧ m < j := by
      have hsound := t.filled_table.sound
      have hlt := (hsound.bounds (Option.isSome_iff_exists.2 ⟨leftCell, hleftCell⟩)).1
      have hlt' := (hsound.bounds (Option.isSome_iff_exists.2 ⟨rightCell, hrightCell⟩)).1
      exact ⟨hlt, hlt'⟩
    obtain ⟨held, hheld, hle⟩ := hsettled.best i j X _ hspan
      (.binary hm (mem_summed_of_posterior (r := ⟨i, j, X, .binary Y Z m⟩) h hinj hc trivial hpos)
        hleftCell hrightCell)
    refine ⟨held, hheld, Score.le_trans ?_ hle⟩
    rw [value_binary, weight_eq_score hlocal, weight_eq_score hlocal]
    exact MonotoneScore.add_le_add (Score.add_le_add_left hleftLe _) hrightLe

/-! ## Attainment -/

omit [UnroundedScore α] h hinj hc ht hlocal in
/-- The decoder leaves the backpointers of its cells. -/
theorem find?_backpointers (hcell : RuleTable.find? t.table i j X = some cell) :
    (t.backpointers t.table).find? i j X = some cell.backpointer := by
  show (RuleTable.find? t.table i j X).map (·.backpointer) = some cell.backpointer
  rw [hcell, Option.map_some]

omit h hinj hlocal in
/-- The cells of the table are made by rules. -/
theorem makes_table (hcell : RuleTable.find? t.table i j X = some cell) :
    t.Makes t.table i j X cell := by
  have hbounds := t.filled_table.sound.bounds (Option.isSome_iff_exists.2 ⟨cell, hcell⟩)
  rw [t.filled_table.size_eq] at hbounds
  exact (settled_table hc ht).made i j X cell (mem_spansUp.2 ⟨hbounds.1, hbounds.2.1⟩) hcell

/-- A derivation without a unary rule on top: its parts cover shorter spans. -/
theorem attained_of_not_unary (hcell : RuleTable.find? t.table i j X = some cell)
    (hpos : Score.impossible < cell.score) (hunary : cell.backpointer.isUnary = false)
    (ih : ∀ {k l Y below}, l - k < j - i → RuleTable.find? t.table k l Y = some below →
      Score.impossible < below.score → t.Attained k l Y below.score 1) :
    t.Attained i j X cell.score 0 := by
  have hfound := find?_backpointers hcell
  cases makes_table hc ht hcell with
  | unary => cases hunary
  | @word _ word y rule =>
    obtain rfl := mass_of_mem_summed (r := ⟨i, i + 1, X, .lexical word⟩) h hinj hc rfl rule
    refine ⟨.word i X word, licensed_word.2 hpos, value_word t i X word, fun unaries => ?_⟩
    obtain ⟨_, A, hword, -, -, -, heq⟩ :=
      (mem_rules_lexical hc).1 (mem_rules_summed.1 (mem_rules.2 ⟨_, rule, rfl⟩))
    have hlt : i < t.sentence.words.length := Sentence.lt_size_of_terminal? hword
    have hwords : (t.backpointers t.table).words[i]? = some t.sentence.words[i] :=
      List.getElem?_eq_getElem hlt
    rw [Backpointers.follow, hfound]
    simp only [hwords, Option.map_some, CoarseTree.tree, List.getElem?_eq_getElem hlt,
      Option.getD_some]
    rfl
  | @binary m _ _ Y Z y left right mid rule left_eq right_eq =>
    obtain rfl := mass_of_mem_summed (r := ⟨i, j, X, .binary Y Z m⟩) h hinj hc trivial rule
    dsimp only at hpos
    rw [weight_eq_score hlocal, weight_eq_score hlocal] at hpos ⊢
    obtain ⟨hparts, hrightPos⟩ := Score.impossible_lt_of_add hpos
    obtain ⟨hrule, hleftPos⟩ := Score.impossible_lt_of_add hparts
    obtain ⟨leftTree, hleft, hleftValue, hleftFollow⟩ := ih (by omega) left_eq hleftPos
    obtain ⟨rightTree, hright, hrightValue, hrightFollow⟩ := ih (by omega) right_eq hrightPos
    refine ⟨.binary X leftTree rightTree, licensed_binary.2 ⟨hrule, hleft, hright⟩, ?_,
      fun unaries => ?_⟩
    · rw [value_binary, hleftValue, hrightValue]
      rfl
    · have hmax : (t.backpointers t.table).maxUnaries = t.grammar.symbols.numBases + 1 := rfl
      rw [Backpointers.follow, hfound]
      simp only [dif_pos mid, hmax, hleftFollow, hrightFollow, CoarseTree.tree]
      rfl

/-- A derivation with a unary rule on top stands on one without: unary rules form no chains. -/
theorem attained_of_unary (hcell : RuleTable.find? t.table i j X = some cell)
    (hpos : Score.impossible < cell.score) (hunary : cell.backpointer.isUnary = true)
    (hbase : ∀ {Y below}, RuleTable.find? t.table i j Y = some below →
      Score.impossible < below.score → below.backpointer.isUnary = false →
      t.Attained i j Y below.score 0) : t.Attained i j X cell.score 1 := by
  have hfound := find?_backpointers hcell
  cases makes_table hc ht hcell with
  | word | binary => cases hunary
  | @unary _ _ Y y below rule below_eq =>
    have hmet : (⟨X, .unary Y⟩ : CoarseRule) ∈ rules (t.unaryInstances i j) :=
      mem_rules_summed.1 (mem_rules.2 ⟨_, rule, rfl⟩)
    have hne : Y ≠ X := by
      obtain ⟨p, -, B, -, -, -, hne, heq⟩ := mem_rules_unary.1 hmet
      obtain ⟨rfl, hY⟩ := CoarseRule.mk.inj heq
      exact Children.unary.inj hY ▸ hne.symm
    obtain rfl := mass_of_mem_summed (r := ⟨i, j, X, .unary Y⟩) h hinj hc hne rule
    dsimp only at hpos
    rw [weight_eq_score hlocal] at hpos ⊢
    obtain ⟨hrule, hbelowPos⟩ := Score.impossible_lt_of_add hpos
    have hbelowBase : below.backpointer.isUnary = false := by
      cases makes_table hc ht below_eq with
      | word | binary => rfl
      | @unary _ _ Z _ _ rule' _ =>
        exact absurd ⟨Z, mem_rules_summed.1 (mem_rules.2 ⟨_, rule', rfl⟩)⟩ (ht i j X Y hmet)
    obtain ⟨d, hd, hvalue, hfollow⟩ := hbase below_eq hbelowPos hbelowBase
    refine ⟨.unary X d, licensed_unary.2 ⟨⟨hne, hrule⟩, hd⟩, ?_, fun unaries => ?_⟩
    · rw [value_unary, hvalue]
      rfl
    · rw [Backpointers.follow, hfound]
      have hbelow := hfollow unaries
      rw [Nat.add_zero] at hbelow
      simp only [hbelow, Option.map_some, CoarseTree.tree]
      rfl

/-- A possible cell is worth what the derivation along its backpointers is worth. -/
theorem exists_tree (hcell : RuleTable.find? t.table i j X = some cell)
    (hpos : Score.impossible < cell.score) : t.Attained i j X cell.score 1 := by
  induction hlen : j - i using Nat.strongRecOn generalizing i j X cell with
  | _ len ih =>
    subst hlen
    have hbase : ∀ {Y below}, RuleTable.find? t.table i j Y = some below →
        Score.impossible < below.score → below.backpointer.isUnary = false →
        t.Attained i j Y below.score 0 := fun hbelow hbelowPos hbelowBase =>
      attained_of_not_unary h hinj hc ht hlocal hbelow hbelowPos hbelowBase
        fun hlt hcell hpos => ih _ hlt hcell hpos rfl
    cases hunary : cell.backpointer.isUnary with
    | false =>
      obtain ⟨d, hd, hvalue, hfollow⟩ := hbase hcell hpos hunary
      exact ⟨d, hd, hvalue, fun unaries => hfollow (unaries + 1)⟩
    | true => exact attained_of_unary h hinj hc ht hlocal hcell hpos hunary hbase

end Optimum

/-! ## Charts whose entries have derivations -/

section Supported

variable {o : Options α} {g : Grammar α} {s : Sentence} {c : PackedChart α} {A : NonTerminal}
  {d : Derivation α}

theorem possible_posterior (hz : ∀ x, Score.impossible < x → Score.impossible < x - t.sentenceScore)
    {p : Production α} (hp : p ∈ t.grammar.productions) (hstands : t.StandsFor r p)
    (hout : Score.impossible < t.chart.outside r.start r.stop p.parent)
    (hrule : Score.impossible < p.logProb) (hbelow : Score.impossible < t.below r p.children) :
    Score.impossible < t.posterior r := by
  refine hz _ (PackedChart.possible_total (List.mem_map_of_mem hp) ?_)
  rw [through, if_pos hstands]
  exact LosslessScore.impossible_lt_add (LosslessScore.impossible_lt_add hout hrule) hbelow

/-- What has a derivation is possible inside. -/
theorem possible_weighed (hc : c.Sound g) (hd : DerivesIn g s c.Live i j A d)
    (hdirect : d.Direct (fun _ _ _ => True) i) :
    Score.impossible < (Parser.weighed o.sums g s c).inside i j A := by
  have hr := (PackedChart.reweighed_resum o.sums hc s.terminals).sound hc
  rw [Parser.weighed, (PackedChart.sameInside_surround o.sums hr).inside_eq]
  exact PackedChart.possible_resum hc hd hdirect

/-- What is possible inside and outside has a derivation by possible rules. -/
theorem exists_licensed (hc : c.Sound g) (hd : DerivesIn g s c.Live i j A d)
    (hdirect : d.Direct (fun _ _ _ => True) i)
    (hz : ∀ x, Score.impossible < x → Score.impossible <
      x - (o.ruleTask g (Parser.weighed o.sums g s c) s).sentenceScore)
    (hout : Score.impossible < (Parser.weighed o.sums g s c).outside i j A) :
    ∃ e : CoarseTree i j (g.symbols.base A),
      (o.ruleTask g (Parser.weighed o.sums g s c) s).Licensed e := by
  have hsummed := PackedChart.reweighed_resum o.sums hc s.terminals
  have hr := hsummed.sound hc
  have hpassed := PackedChart.passedDown_surround o.sums hr
  have hlive : ∀ {i j B}, c.Live i j B → B ∈ (c.resum o.sums g s.terminals).symbols i j := by
    intro i j B hB
    rw [hsummed.symbols_eq]
    exact (PackedChart.mem_symbols hc).2 hB
  have hspan : ∀ {i j B}, c.Live i j B →
      (i, j) ∈ spansDown (c.resum o.sums g s.terminals).size := by
    intro i j B hB
    rw [hsummed.size_eq]
    exact mem_spansDown.2 (hc.bounds_of_live hB)
  induction hd with
  | @word i p word mem children terminal alive =>
    refine ⟨.word i _ word, licensed_word.2 (possible_posterior hz mem ⟨rfl, ?_⟩ hout
      hdirect.possible ?_)⟩
    · rw [children]
      rfl
    · rw [children]
      show Score.impossible < if s.terminal? i = some word then (0 : α) else Score.impossible
      rw [if_pos terminal]
      exact LosslessScore.impossible_lt_zero hout
  | @unary i j p B d mem children below alive ih =>
    obtain ⟨hrule, -, hbelow⟩ := hdirect.of_unary
    have hdown : PackedChart.Down g (c.resum o.sums g s.terminals) i j p.parent B :=
      ⟨hlive alive, hlive below.alive, p, mem, rfl, children, hrule⟩
    obtain ⟨e, he⟩ := ih hbelow (hpassed.unary i j _ _ (hspan alive) hdown hout)
    by_cases hbase : g.symbols.base B = g.symbols.base p.parent
    · exact hbase ▸ ⟨e, he⟩
    · refine ⟨.unary _ e, licensed_unary.2 ⟨⟨hbase, possible_posterior hz mem ⟨rfl, ?_⟩ hout hrule
        ?_⟩, he⟩⟩
      · rw [children]
        rfl
      · rw [children]
        exact possible_weighed hc below hbelow
  | @binary i m j p B C d e mem children leftBelow rightBelow alive ihl ihr =>
    obtain ⟨hrule, hleft, hright⟩ := hdirect.of_binary
    rw [← leftBelow.stop_eq] at hright
    have hm := And.intro leftBelow.start_lt rightBelow.start_lt
    have hB : Score.impossible < (c.resum o.sums g s.terminals).inside i m B :=
      PackedChart.possible_resum hc leftBelow hleft
    have hC : Score.impossible < (c.resum o.sums g s.terminals).inside m j C :=
      PackedChart.possible_resum hc rightBelow hright
    obtain ⟨left, hl⟩ := ihl hleft (hpassed.hands (i, j, p.parent) (i, m, B) (hspan alive)
      (.left mem children hrule hm hB hC) hout)
    obtain ⟨right, hr⟩ := ihr hright (hpassed.hands (i, j, p.parent) (m, j, C) (hspan alive)
      (.right mem children hrule hm hB hC) hout)
    refine ⟨.binary _ left right, licensed_binary.2 ⟨possible_posterior hz mem ⟨rfl, ?_⟩ hout hrule
      ?_, hl, hr⟩⟩
    · rw [children]
      rfl
    · rw [children]
      exact LosslessScore.impossible_lt_add (possible_weighed hc leftBelow hleft)
        (possible_weighed hc rightBelow hright)

/-- What has an entry for the parent of a rule that the decoder has met has a derivation by possible
rules. -/
theorem exists_licensed_of_mem_symbols (hc : c.Sound g) (hsupported : Supported g s c.Live)
    (hz : ∀ x, Score.impossible < x → Score.impossible <
      x - (o.ruleTask g (Parser.weighed o.sums g s c) s).sentenceScore)
    (hout : Score.impossible < (Parser.weighed o.sums g s c).outside i j A) :
    ∃ e : CoarseTree i j (g.symbols.base A),
      (o.ruleTask g (Parser.weighed o.sums g s c) s).Licensed e := by
  obtain ⟨d, hd, hpos⟩ := hsupported i j A
    ((mem_symbols_weighed hc).1 (PackedChart.mem_symbols_of_outside
      ((PackedChart.reweighed_weighed o.sums s hc).sound hc) hout))
  obtain ⟨e, he, hdirect⟩ := hd.exists_direct hpos
    (hd.unariesSatisfy (P := fun _ _ _ => True) fun _ _ _ _ => trivial)
  exact exists_licensed hc he hdirect hz hout

/-- A cell of the table is made by a rule whose parent is possible outside. -/
theorem exists_outside_of_makes (hc : t.chart.Sound t.grammar) {table : RuleTable α}
    (hmade : t.Makes table i j X cell) :
    ∃ A, t.grammar.symbols.base A = X ∧ Score.impossible < t.chart.outside i j A := by
  have hmet : ∀ {instances : List (CoarseRule × α)} {rule : CoarseRule} {y : α},
      (rule, y) ∈ t.summed instances → rule ∈ rules instances := fun hy =>
    mem_rules_summed.1 (mem_rules.2 ⟨_, hy, rfl⟩)
  cases hmade with
  | word rule =>
    obtain ⟨_, A, -, -, -, hout, heq⟩ := (mem_rules_lexical hc).1 (hmet rule)
    exact ⟨A, (congrArg CoarseRule.parent heq).symm, (Score.impossible_lt_of_add hout).1⟩
  | binary mid rule left_eq right_eq =>
    obtain ⟨p, -, _, _, -, -, hout, -, heq⟩ := (mem_rules_binary hc).1 (hmet rule)
    exact ⟨p.parent, (congrArg CoarseRule.parent heq).symm, hout⟩
  | unary rule below_eq =>
    obtain ⟨p, -, _, -, -, hout, -, heq⟩ := mem_rules_unary.1 (hmet rule)
    exact ⟨p.parent, (congrArg CoarseRule.parent heq).symm, hout⟩

end Supported

/-! ## The optimum -/

end RuleTask

namespace Parser

/-- The chart of a search for pairs. -/
def pairChart : PackedChart (WithBot ℤ) :=
  (pairRules.search Chain.pair).chart.toPacked Chain.pairs

/-- The task of its decoder. -/
def pairTask : RuleTask (WithBot ℤ) :=
  pairRules.options.ruleTask Chain.pairs
    (weighed pairRules.options.sums Chain.pairs Chain.pair pairChart) Chain.pair

end Parser

namespace RuleTask

end RuleTask

end Constituency
