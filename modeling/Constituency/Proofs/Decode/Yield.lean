import Constituency.Proofs.Decode.Constituents
import Constituency.Proofs.Decode.Offered
import Constituency.Proofs.Decode.RuleTree
import Constituency.Proofs.Search.Named
import Constituency.Proofs.Tree

/-!
# The words of a parse

Each decoder cuts the sentence up in its own way: along the backpointers of a chart, of a merit table or
of a table of rules, or at the midpoints chosen for the cells. Whatever it returns, the tree covers the
sentence, with every word at its own position, and bears the start symbol or the coarse category of the
start symbol (`Parser.parse_covers`). No law of scores is needed.
-/

namespace Constituency

/-! ## Trees from backpointers -/

namespace Backpointers

variable {b : Backpointers} {i j unaries : Nat} {A : NonTerminal} {tree : Tree}

/-- The tree below a symbol covers its span and bears its name, if words are only derived over single
words. -/
theorem covers_follow (hwide : ∀ i j A p, b.find? i j A = some p → p.WordWide i j)
    (h : b.follow i j A unaries = some tree) :
    tree.Covers b.words i j ∧ tree.label? = some (b.name A) := by
  fun_induction b.follow i j A unaries generalizing tree with
  | case1 => cases h
  | case2 i j A unaries word hfind =>
    obtain rfl : j = i + 1 := hwide _ _ _ _ hfind
    obtain ⟨text, htext, rfl⟩ := Option.map_eq_some_iff.1 h
    exact ⟨(Tree.Covers.leaf htext).join_one _, Tree.label?_join _ _⟩
  | case3 => cases h
  | case4 i j A child hfind unaries ih =>
    obtain ⟨below, hbelow, rfl⟩ := Option.map_eq_some_iff.1 h
    exact ⟨(ih hbelow).1.join_one _, Tree.label?_join _ _⟩
  | case5 i j A unaries left right m hfind hm leftTree rightTree hright hleft ihl ihr =>
    obtain rfl := Option.some.inj h
    exact ⟨.join_two (Nat.le_of_lt hm.1) (Nat.le_of_lt hm.2) (ihl hleft).1 (ihr hright).1 _,
      Tree.label?_join _ _⟩
  | case6 => cases h
  | case7 => cases h

end Backpointers

section Tables

variable {α : Type} {g : Grammar α} {s : Sentence} {words : List String} {A : NonTerminal}
  {symbols : SymbolTable} {tree : Tree}

theorem Chart.Named.covers_viterbiTree? [Score α] {c : Chart α} (hc : c.Named g s)
    (h : c.viterbiTree? symbols words A = some tree) :
    tree.Covers words 0 s.size ∧ tree.label? = some (symbols.name A) := by
  unfold Chart.viterbiTree? at h
  split at h
  · rw [← hc.size_eq]
    refine Backpointers.covers_follow (fun i j B p hp => ?_) h
    obtain ⟨e, he, rfl⟩ := Option.map_eq_some_iff.1 hp
    exact (hc.named i j B e he).wordWide
  · cases h

theorem MeritTable.Named.covers_tree? {t : MeritTable α} (ht : t.Named g s)
    (h : t.tree? symbols words A = some tree) :
    tree.Covers words 0 s.size ∧ tree.label? = some (symbols.name A) := by
  unfold MeritTable.tree? at h
  split at h
  · cases h
  · rw [← ht.size_eq]
    exact Backpointers.covers_follow (fun i j B b hb => (ht.named i j B b hb).wordWide) h

end Tables

/-! ## Decoding by rules -/

namespace RuleTask

variable {α : Type} [Score α] {t : RuleTask α}

theorem Offered.wordWide {i j : Nat} {X : NonTerminal} {b : Backpointer} (h : t.Offered i j X b) :
    b.WordWide i j := by
  cases h <;> trivial

theorem covers_tree? {tree : Tree} (h : t.tree? = some tree) :
    tree.Covers t.sentence.words 0 t.chart.size ∧
      tree.label? = some (t.grammar.symbols.baseName t.grammar.symbols.baseStart) := by
  unfold tree? at h
  split at h
  · cases h
  · refine Backpointers.covers_follow (fun i j X p hp => ?_) h
    obtain ⟨cell, hcell, rfl⟩ := Option.map_eq_some_iff.1 hp
    exact (offered_of_find? hcell).wordWide

end RuleTask

/-! ## Decoding by constituents -/

namespace ConstituentTask

variable {α : Type} [Score α] {t : ConstituentTask α} {i j unaries : Nat} {A label : NonTerminal}
  {choices : Choices α} {tree : Tree}

/-- The split of a category that is chosen is an entry of one of its splits. -/
theorem of_topSplit? (h : t.topSplit? i j label = some A) :
    A ∈ t.chart.symbols i j ∧ t.grammar.symbols.base A = label := by
  obtain ⟨⟨_, x⟩, htop, rfl⟩ := Option.map_eq_some_iff.1 h
  have hmem := foldl_prefix_induction
    (P := fun _ (top : Option (NonTerminal × α)) => ∀ e, top = some e → e ∈
      ((t.chart.row i j).filter (t.grammar.symbols.base ·.nonterminal == label)).map
        fun e => (e.nonterminal, e.inside + e.outside))
    _ (fun visited e rest top hsplit htop e' he' => ?_) (fun _ he => by cases he) _ htop
  · obtain ⟨entry, hentry, heq⟩ := List.mem_map.1 hmem
    obtain ⟨rfl, -⟩ := Prod.mk.inj heq
    obtain ⟨hrow, hbase⟩ := List.mem_filter.1 hentry
    exact ⟨List.mem_map_of_mem hrow, beq_iff_eq.1 hbase⟩
  · have he : e ∈ visited ++ e :: rest := by simp
    rw [← hsplit] at he
    cases top with
    | none =>
      obtain rfl := Option.some.inj he'
      exact he
    | some best =>
      dsimp only at he'
      split at he' <;> obtain rfl := Option.some.inj he'
      · exact htop _ rfl
      · exact he

/-- A category that an entry is a split of has a chosen one. -/
theorem isSome_topSplit? (hA : A ∈ t.chart.symbols i j)
    (hbase : t.grammar.symbols.base A = label) : (t.topSplit? i j label).isSome = true := by
  obtain ⟨x, hx, rfl⟩ := List.mem_map.1 hA
  have hsplit : x ∈ (t.chart.row i j).filter (t.grammar.symbols.base ·.nonterminal == label) :=
    List.mem_filter.2 ⟨hx, beq_iff_eq.2 hbase⟩
  obtain ⟨first, rest, hsplits⟩ := List.exists_cons_of_ne_nil (List.ne_nil_of_mem hsplit)
  rw [topSplit?, hsplits, List.map_cons, List.foldl_cons, Option.isSome_map]
  refine foldl_prefix_induction (P := fun _ (top : Option (NonTerminal × α)) => top.isSome = true)
    _ (fun visited e after top _ htop => ?_) rfl
  obtain ⟨best, rfl⟩ := Option.isSome_iff_exists.1 htop
  dsimp only
  split <;> rfl

/-- The name of a non-terminal as a label. -/
def nameOf (t : ConstituentTask α) (A : NonTerminal) : String :=
  t.name (if t.coarse then t.grammar.symbols.base A else A)

omit [Score α] in
theorem covers_unaryChain (h : t.unaryChain i unaries A = some tree) :
    tree.Covers t.words i (i + 1) ∧ tree.label? = some (t.nameOf A) := by
  fun_induction t.unaryChain i unaries A generalizing tree with
  | case1 =>
    obtain ⟨word, hword, rfl⟩ := Option.map_eq_some_iff.1 h
    exact ⟨(Tree.Covers.leaf hword).join_one _, Tree.label?_join _ _⟩
  | case2 =>
    rename_i ih
    obtain ⟨below, hbelow, rfl⟩ := Option.map_eq_some_iff.1 h
    exact ⟨(ih hbelow).1.join_one _, Tree.label?_join _ _⟩
  | case3 => cases h

theorem covers_wordTree (h : t.wordTree i label = some tree) :
    tree.Covers t.words i (i + 1) ∧ tree.label? = some (t.name label) := by
  obtain ⟨A, hA, htree⟩ := Option.bind_eq_some_iff.1 h
  have hname : t.nameOf A = t.name label := by
    unfold nameOf
    split at hA
    · next hcoarse => rw [if_pos hcoarse, (of_topSplit? hA).2]
    · next hcoarse => rw [if_neg hcoarse, Option.some.inj hA]
  exact hname ▸ covers_unaryChain htree

/-- The tree of a span covers it and bears the label of its choice, or the one left of it over several
words. -/
theorem covers_treeOf (h : t.treeOf choices i j = some tree) :
    tree.Covers t.words i j ∧ ∃ cell, choices.get i j = some cell ∧
      tree.label? = some (if j - i = 1 then t.name cell.label else t.labelOf i j cell) := by
  fun_induction t.treeOf choices i j generalizing tree with
  | case1 => cases h
  | case2 i j cell hcell hone =>
    rw [beq_iff_eq] at hone
    obtain rfl : j = i + 1 := by omega
    obtain ⟨hcovers, hlabel⟩ := covers_wordTree h
    exact ⟨hcovers, cell, hcell, by rw [if_pos hone, hlabel]⟩
  | case3 i j cell hcell hone hm left right hright hleft _ child hchild ihl =>
    rename_i ihr
    obtain rfl := Option.some.inj h
    refine ⟨((Tree.Covers.join_two (Nat.le_of_lt hm.1) (Nat.le_of_lt hm.2) (ihl hleft).1
      (ihr hright).1 _).join_one _), cell, hcell, ?_⟩
    rw [if_neg (by rwa [beq_iff_eq] at hone), Tree.label?_join]
  | case4 i j cell hcell hone hm left right hright hleft _ hchild ihl =>
    rename_i ihr
    obtain rfl := Option.some.inj h
    refine ⟨.join_two (Nat.le_of_lt hm.1) (Nat.le_of_lt hm.2) (ihl hleft).1 (ihr hright).1 _,
      cell, hcell, ?_⟩
    rw [if_neg (by rwa [beq_iff_eq] at hone), Tree.label?_join]
  | case5 => cases h
  | case6 => cases h

/-- The whole sentence keeps its label, whatever it is worth. -/
theorem labelOf_root (t : ConstituentTask α) (cell : ConstituentCell α) :
    t.labelOf 0 t.chart.size cell = t.name cell.label := by
  simp [labelOf]

theorem covers_tree? (h : t.tree? = some tree) :
    tree.Covers t.words 0 t.chart.size ∧ tree.label? = some (t.name t.rootLabel) := by
  unfold tree? at h
  split at h
  · cases h
  · obtain ⟨hcovers, cell, hcell, hlabel⟩ := covers_treeOf h
    rw [labelOf_root, ite_self,
      label_eq_rootLabel (mem_candidates_of_get_choices hcell)] at hlabel
    exact ⟨hcovers, hlabel⟩

end ConstituentTask

/-! ## Any parse -/

namespace Parser

variable {α : Type} [Score α] {p : Parser α} {s : Sentence} {found : Searched α} {tree : Tree}

/-- What the root of a tree is called: the start symbol, or its coarse category if the decoder sums over
the splits of categories. -/
def rootName (p : Parser α) : String :=
  match p.options.decoder with
  | .viterbi | .goodman | .meritMax | .meritSum => p.grammar.symbols.name p.grammar.start
  | .splitSum | .maxRule => p.grammar.symbols.baseName p.grammar.symbols.baseStart

theorem covers_posteriorTree? {c : PackedChart α} (hdecoder : p.options.decoder.needsOutside = true)
    (hsize : c.size = s.size) (h : p.posteriorTree? s c p.options.decoder = some tree) :
    tree.Covers s.words 0 s.size ∧ tree.label? = some p.rootName := by
  rw [← hsize, rootName]
  unfold posteriorTree? at h
  cases hkind : p.options.decoder <;> rw [hkind] at h hdecoder
  case goodman => exact ConstituentTask.covers_tree? h
  case splitSum => exact ConstituentTask.covers_tree? h
  case maxRule => exact RuleTask.covers_tree? h
  all_goals cases hdecoder

theorem covers_meritTree? (hchart : found.chart.Named p.grammar s)
    (htable : ∀ table, found.meritTable = some table → table.Named p.grammar s)
    (h : p.meritTree? s found = some tree) :
    tree.Covers s.words 0 s.size ∧
      tree.label? = some (p.grammar.symbols.name p.grammar.start) := by
  unfold meritTree? at h
  split at h
  · exact hchart.covers_viterbiTree? h
  · next table heq =>
    rcases Option.or_eq_some_iff.1 h with h | ⟨-, h⟩
    · exact (htable table heq).covers_tree? h
    · exact hchart.covers_viterbiTree? h

theorem covers_decode (hchart : found.chart.Named p.grammar s)
    (htable : ∀ table, found.meritTable = some table → table.Named p.grammar s)
    (h : (p.decode s found).1 = some tree) :
    tree.Covers s.words 0 s.size ∧ tree.label? = some p.rootName := by
  unfold decode at h
  dsimp only at h
  split at h
  · next houtside =>
    split at h
    · obtain ⟨hsound, hsize, -⟩ := Chart.toPacked_spec hchart.sound
      obtain ⟨unfactored, htree, rfl⟩ := Option.map_eq_some_iff.1 h
      obtain ⟨hcovers, hlabel⟩ := covers_posteriorTree? houtside
        ((PackedChart.reweighed_weighed _ s hsound).size_eq.trans (hsize.trans hchart.size_eq)) htree
      exact ⟨hcovers.unfactor, (Tree.label?_unfactor _).trans hlabel⟩
    · cases h
  · next hinside =>
    have hname : p.rootName = p.grammar.symbols.name p.grammar.start := by
      unfold rootName
      cases hkind : p.options.decoder <;> rw [hkind] at hinside <;>
        first | rfl | exact absurd rfl hinside
    rw [hname]
    obtain ⟨unfactored, htree, rfl⟩ := Option.map_eq_some_iff.1 h
    have hunfactored : unfactored.Covers s.words 0 s.size ∧
        unfactored.label? = some (p.grammar.symbols.name p.grammar.start) := by
      split at htree
      · exact covers_meritTree? hchart htable htree
      · exact hchart.covers_viterbiTree? htree
    exact ⟨hunfactored.1.unfactor, (Tree.label?_unfactor _).trans hunfactored.2⟩

/-- A parser of pairs that decodes by coarse constituents. -/
def pairConstituents : Parser (WithBot ℤ) :=
  ⟨Chain.pairs, { Chain.options with decoder := .splitSum }, .inside⟩

end Parser

end Constituency
