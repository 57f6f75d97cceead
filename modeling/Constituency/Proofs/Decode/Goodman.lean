import Constituency.Proofs.Decode.Sole
import Constituency.Proofs.Decode.Yield

/-!
# Right constituents of a sentence with one derivation

What a decoder by constituents makes of a chart with a single derivation of the sentence, without a bias
against long spans. The bracketing of the sentence takes in all named constituents of the derivation, so that
each span is divided where none of them lies across (`Sole.shows`). Over the span of a named
constituent the tree has the labels of the derivation; over any other span all labels gain nothing, and
whichever is chosen is shown if something is gained below it. If only the constituents of the
derivation are kept of the tree, it is the tree of the derivation (`Sole.restrict_unfactor`).
-/

namespace Constituency

namespace ConstituentTask

variable {α : Type} [Score α] {t : ConstituentTask α} {s : Sentence} {d e : Derivation α}
  {i j k m : Nat} {A B : NonTerminal} {v : Place} {x : Nat × Nat × String}
  {cell : ConstituentCell α} {tree left right : Tree}

/-! ## Constituents that are shown -/

/-- The name of a non-terminal of the grammar. -/
abbrev called (t : ConstituentTask α) : NonTerminal → String := t.grammar.symbols.name

/-- The derivation below its topmost constituent, without hidden constituents. -/
def view (t : ConstituentTask α) (d : Derivation α) : View :=
  View.below t.called t.words 0 d

/-- The constituents that the view shows. -/
def shown (t : ConstituentTask α) (d : Derivation α) : List (Nat × Nat × String) :=
  ((d.nodes 0).tail.filter (t.view d).shown).map (View.named t.called)

/-- Only the constituents that the view shows. -/
def isShown (t : ConstituentTask α) (d : Derivation α) (x : Nat × Nat × String) : Bool :=
  decide (x ∈ t.shown d)

omit [Score α] in
theorem isHidden_eq_false_of_isShown (h : t.isShown d x = true) : Tree.isHidden x.2.2 = false := by
  obtain ⟨v, hv, rfl⟩ := List.mem_map.1 (of_decide_eq_true h)
  exact (View.shown_below.1 (List.mem_filter.1 hv).2).1

omit [Score α] in
/-- Whether a constituent is shown can be told from its name. -/
theorem isShown_named (hv : v ∈ (d.nodes 0).tail) :
    t.isShown d (View.named t.called v) = (t.view d).shown v := by
  apply Bool.eq_iff_iff.2
  constructor
  · intro h
    exact View.shown_below.2 ⟨isHidden_eq_false_of_isShown h, hv⟩
  · intro h
    exact decide_eq_true (List.mem_map_of_mem (List.mem_filter.2 ⟨hv, h⟩))

omit [Score α] in
/-- What is shown counts. -/
theorem counts_of_shown (h : (t.view d).shown v = true) : t.Counts d v := by
  obtain ⟨hhidden, hv⟩ := View.shown_below.1 h
  refine ⟨List.mem_of_mem_tail hv, ?_⟩
  rw [Tree.isHidden, Bool.or_eq_false_iff] at hhidden
  exact hhidden.2

omit [Score α] in
theorem mem_marks_of_isShown (h : t.isShown d x = true) : (x.1, x.2.1) ∈ t.marks d := by
  obtain ⟨v, hv, rfl⟩ := List.mem_map.1 (of_decide_eq_true h)
  exact mem_marks_of_counts (counts_of_shown (List.mem_filter.1 hv).2)

/-! ## Spans beside the derivation -/

/-- No constituent that counts overlaps the span without one containing the other. -/
def Clear (t : ConstituentTask α) (d : Derivation α) (i j : Nat) : Prop :=
  ∀ v ∈ t.marks d, (i ≤ v.1 ∧ v.2 ≤ j) ∨ (v.1 ≤ i ∧ j ≤ v.2) ∨ v.2 ≤ i ∨ j ≤ v.1

omit [Score α] in
theorem Clear.halves (h : t.Clear d i j) (hfree : ∀ v ∈ inner (t.marks d) i j, v.2 ≤ m ∨ m ≤ v.1)
    (him : i < m) (hmj : m < j) : t.Clear d i m ∧ t.Clear d m j := by
  have hsides : ∀ v ∈ t.marks d, (i ≤ v.1 ∧ v.2 ≤ j) →
      v.2 ≤ m ∨ m ≤ v.1 ∨ (v.1 = i ∧ v.2 = j) := by
    intro v hv hin
    by_cases heq : v = (i, j)
    · exact .inr (.inr ⟨by rw [heq], by rw [heq]⟩)
    · rcases hfree v (mem_inner.2 ⟨heq, hv, hin⟩) with hl | hr
      · exact .inl hl
      · exact .inr (.inl hr)
  constructor
  · intro v hv
    have := h v hv
    have := hsides v hv
    omega
  · intro v hv
    have := h v hv
    have := hsides v hv
    omega

omit [Score α] in
/-- What is shown of a span is what is shown of its halves, below what is shown over all of it. -/
theorem segment_halves (him : i < m) (hmj : m < j)
    (hfree : ∀ v ∈ inner (t.marks d) i j, v.2 ≤ m ∨ m ≤ v.1) :
    (t.view d).segment i j 0 d =
      Tree.stack i j ((t.view d).labels (d.atSpan i j 0))
        ((t.view d).segment i m 0 d ++ (t.view d).segment m j 0 d) := by
  rw [View.segment_split him hmj fun v _ hshown hl hr hlm hmr => ?_]
  · exact View.encloseAll_spanning _ _
  · by_contra hspan
    have hne : (v.1, v.2.1) ≠ (i, j) := by
      intro heq
      exact hspan (Prod.mk.inj heq)
    rcases hfree (v.1, v.2.1) (mem_inner.2
      ⟨hne, mem_marks_of_counts (counts_of_shown hshown), hl, hr⟩) with hside | hside
    · exact absurd hmr (Nat.not_lt.2 hside)
    · exact absurd hlm (Nat.not_lt.2 hside)

/-- An entry over a span that no constituent has that counts, and none overlaps. -/
structure Idle (t : ConstituentTask α) (d : Derivation α) (i j : Nat) (A : NonTerminal) : Prop where
  live : t.chart.Live i j A
  unmarked : (i, j) ∉ t.marks d
  clear : t.Clear d i j

/-- A constituent of a tree that is shown, or hidden, or that of an idle entry. -/
def Fair (t : ConstituentTask α) (d : Derivation α) (x : Nat × Nat × String) : Prop :=
  t.isShown d x = true ∨ Tree.isHidden x.2.2 = true ∨
    ∃ A, t.Idle d x.1 x.2.1 A ∧ t.called A = x.2.2

/-- Labels over a span: those of a chain of the derivation, with artefacts of binarization above them, or
else any labels of entries if nothing counts. -/
def Labels (t : ConstituentTask α) (d : Derivation α) (i j : Nat) (labels : List String) : Prop :=
  (∃ (chain : List NonTerminal) (above : List Place), labels = chain.map t.called ∧
    d.atSpan i j 0 = above ++ chain.map (fun B => (i, j, B)) ∧
    ∀ v ∈ above, t.grammar.symbols.isFactored v.2.2 = true) ∨
  (i, j) ∉ t.marks d ∧ t.Clear d i j ∧ ∀ label ∈ labels, Tree.isHidden label = true ∨
    ∃ A, t.chart.Live i j A ∧ t.called A = label

namespace Sole

variable (h : t.Sole s d)

include h

theorem width_eq : d.width = t.chart.size := by
  have := h.derives.stop_eq
  omega

theorem nodes_eq : d.nodes 0 = (0, t.chart.size, t.grammar.start) :: (d.nodes 0).tail := by
  have hroot := h.derives.root_eq
  have hwidth := h.width_eq
  cases d with
  | word p => simpa [Derivation.nodes] using ⟨hwidth, hroot⟩
  | unary p c => simpa [Derivation.nodes] using ⟨hwidth, hroot⟩
  | binary p l r => simpa [Derivation.nodes] using ⟨hwidth, hroot⟩

/-- What does not span the sentence stands below the topmost constituent. -/
theorem mem_tail (hv : v ∈ d.nodes 0) (hspan : v.2.1 - v.1 ≠ t.chart.size) :
    v ∈ (d.nodes 0).tail := by
  rw [h.nodes_eq] at hv
  rcases List.mem_cons.1 hv with rfl | hv
  · exact absurd (Nat.sub_zero _) hspan
  · exact hv

/-- The labels over a span show what the derivation shows there. -/
theorem filter_labels {labels : List String} (hlabels : t.Labels d i j labels)
    (hspan : j - i ≠ t.chart.size) :
    labels.filter (fun label => t.isShown d (i, j, label)) = (t.view d).labels (d.atSpan i j 0) := by
  rcases hlabels with ⟨chain, above, rfl, hover, habove⟩ | ⟨hmark, -, -⟩
  · have hnone : (t.view d).labels above = [] := by
      rw [View.labels, List.map_eq_nil_iff, List.filter_eq_nil_iff]
      intro v hv hshown
      have := (counts_of_shown hshown).2
      rw [habove v hv] at this
      cases this
    have hsame : ∀ B ∈ chain, t.isShown d (i, j, t.called B) = (t.view d).shown (i, j, B) := by
      intro B hB
      have hmem : (i, j, B) ∈ d.atSpan i j 0 := by
        rw [hover]
        exact List.mem_append_right _ (List.mem_map_of_mem hB)
      exact isShown_named (h.mem_tail (Derivation.mem_atSpan.1 hmem).1 hspan)
    rw [hover, View.labels_append, hnone, List.nil_append, View.labels, List.filter_map,
      List.filter_map, List.map_map]
    exact congrArg (List.map t.called) (List.filter_congr hsame)
  · have hleft : ∀ label, t.isShown d (i, j, label) = false := by
      intro label
      apply Bool.eq_false_iff.2
      intro hshown
      exact hmark (mem_marks_of_isShown hshown)
    have hright : (d.atSpan i j 0).filter (t.view d).shown = [] := by
      apply List.filter_eq_nil_iff.2
      intro v hv hshown
      obtain ⟨-, rfl, rfl⟩ := Derivation.mem_atSpan.1 hv
      exact hmark (mem_marks_of_counts (counts_of_shown hshown))
    rw [View.labels, hright, List.filter_eq_nil_iff.2 fun label _ => by simp [hleft label]]
    rfl

/-- Labels over a span are those of fair constituents. -/
theorem fair_of_labels {labels : List String} (hlabels : t.Labels d i j labels)
    (hspan : j - i ≠ t.chart.size) {label : String} (hlabel : label ∈ labels) :
    t.Fair d (i, j, label) := by
  rcases hlabels with ⟨chain, above, rfl, hover, -⟩ | ⟨hmark, hclear, hall⟩
  · obtain ⟨B, hB, rfl⟩ := List.mem_map.1 hlabel
    cases hhidden : Tree.isHidden (t.called B) with
    | true => exact .inr (.inl hhidden)
    | false =>
      have hmem : (i, j, B) ∈ d.atSpan i j 0 := by
        rw [hover]
        exact List.mem_append_right _ (List.mem_map_of_mem hB)
      have htail := h.mem_tail (Derivation.mem_atSpan.1 hmem).1 hspan
      exact .inl ((isShown_named htail).trans (View.shown_below.2 ⟨hhidden, htail⟩))
  · rcases hall label hlabel with hhidden | ⟨A, hA, hname⟩
    · exact .inr (.inl hhidden)
    · exact .inr (.inr ⟨A, ⟨hA, hmark, hclear⟩, hname⟩)

end Sole

/-! ## Trees over words -/

/-- The backpointers of the chart of a task. -/
def backpointers (t : ConstituentTask α) : Backpointers where
  find? i j A := (t.chart.get? i j A).map (·.backpointer)
  name := t.called
  words := t.words
  maxUnaries := t.grammar.numNonterminals + 1

/-- A tree over a span below the whole sentence shows what the derivation shows of the span, and has fair
constituents only, all within the span. -/
structure Shows (t : ConstituentTask α) (d : Derivation α) (i j : Nat) (tree : Tree) : Prop where
  prune_eq : tree.prune (t.isShown d) = (t.view d).segment i j 0 d
  fair : ∀ x ∈ tree.constituents, t.Fair d x
  within : ∀ x ∈ tree.constituents, i ≤ x.1 ∧ x.2.1 ≤ j

namespace Sole

variable (h : t.Sole s d)

include h

theorem name_eq (A : NonTerminal) :
    t.name (if t.coarse then t.grammar.symbols.base A else A) = t.called A := by
  simp [name, h.coarse_eq]

theorem unaryChain_eq_follow (i unaries : Nat) (A : NonTerminal) :
    t.unaryChain i unaries A = t.backpointers.follow i (i + 1) A unaries := by
  have hword : ∀ m, ¬ (i < m ∧ m < i + 1) := by omega
  induction unaries generalizing A with
  | zero =>
    unfold unaryChain Backpointers.follow
    simp only [h.name_eq, backpointers]
    rcases t.chart.get? i (i + 1) A with _ | ⟨_, _, _ | _ | ⟨left, right, m⟩⟩
    · rfl
    · rfl
    · rfl
    · simp only [Option.map_some]
      rw [dif_neg (hword m)]
  | succ unaries ih =>
    unfold unaryChain Backpointers.follow
    simp only [h.name_eq, backpointers]
    rcases t.chart.get? i (i + 1) A with _ | ⟨_, _, _ | _ | ⟨left, right, m⟩⟩
    · rfl
    · rfl
    · exact congrArg (Option.map _) (ih _)
    · simp only [Option.map_some]
      rw [dif_neg (hword m)]

/-- The child of an entry is an entry. -/
theorem live_unaryChild (hB : (t.chart.get? i j A).bind (·.backpointer.unaryChild?) = some B) :
    t.chart.Live i j B := by
  obtain ⟨entry, hentry, hchild⟩ := Option.bind_eq_some_iff.1 hB
  have hrecords := h.records _ _ _ _ hentry
  cases hb : entry.backpointer with
  | lexical | binary =>
    rw [hb] at hchild
    cases hchild
  | unary C =>
    rw [hb] at hchild hrecords
    obtain rfl := Option.some.inj hchild
    cases hrecords with
    | unary _ _ _ hbelow => exact hbelow

/-- A tree over a word has the labels of entries. -/
theorem exists_stack_of_unaryChain {unaries : Nat} (hA : t.chart.Live i (i + 1) A)
    (htree : t.unaryChain i unaries A = some tree) :
    ∃ chain : List NonTerminal,
      [tree] = Tree.stack i (i + 1) (chain.map t.called) [.leaf (t.words.getD i "") i] ∧
        ∀ B ∈ chain, t.chart.Live i (i + 1) B := by
  fun_induction t.unaryChain i unaries A generalizing tree with
  | case1 unaries A label =>
    obtain ⟨word, hword, rfl⟩ := Option.map_eq_some_iff.1 htree
    refine ⟨[A], ?_, fun B hB => List.mem_singleton.1 hB ▸ hA⟩
    rw [List.getD_eq_getElem?_getD, hword, List.map_singleton, ← h.name_eq A]
    rfl
  | case2 A label nt x child unaries hget =>
    rename_i ih
    obtain ⟨below, hbelow, rfl⟩ := Option.map_eq_some_iff.1 htree
    have hcovers := (covers_unaryChain hbelow).1
    have hchild : (t.chart.get? i (i + 1) A).bind (·.backpointer.unaryChild?) = some child := by
      rw [hget]
      rfl
    obtain ⟨chain, hstack, hlive⟩ := ih (h.live_unaryChild hchild) hbelow
    refine ⟨A :: chain, ?_, List.forall_mem_cons.2 ⟨hA, hlive⟩⟩
    rw [List.map_cons, ← h.name_eq A, Tree.stack, List.foldr_cons]
    rw [Tree.stack] at hstack
    rw [← hstack]
    simp [Tree.join, hcovers.start_eq, hcovers.stop_eq, label]
  | case3 => cases htree

/-- Some labels on top of what shows the segments below them. -/
theorem shows_of_stack {labels : List String} {trees : List Tree}
    (htree : [tree] = Tree.stack i j labels trees) (hlabels : t.Labels d i j labels)
    (hspan : j - i ≠ t.chart.size)
    (hsegment : (t.view d).segment i j 0 d =
      Tree.stack i j ((t.view d).labels (d.atSpan i j 0)) (Tree.pruneAll (t.isShown d) trees))
    (hbelow : ∀ x ∈ Tree.constituentsOfAll trees, t.Fair d x ∧ i ≤ x.1 ∧ x.2.1 ≤ j) :
    t.Shows d i j tree := by
  have hconstituents : ∀ x ∈ tree.constituents,
      (∃ label ∈ labels, (i, j, label) = x) ∨ x ∈ Tree.constituentsOfAll trees := by
    intro x hx
    have hmem : x ∈ Tree.constituentsOfAll [tree] := by
      rwa [Tree.constituentsOfAll, Tree.constituentsOfAll, List.append_nil]
    rw [htree, Tree.constituentsOfAll_stack] at hmem
    exact (List.mem_append.1 hmem).imp_left List.mem_map.1
  constructor
  · rw [← Tree.pruneAll_singleton, htree, Tree.pruneAll_stack, h.filter_labels hlabels hspan,
      hsegment]
  · intro x hx
    rcases hconstituents x hx with ⟨label, hlabel, rfl⟩ | hx
    · exact h.fair_of_labels hlabels hspan hlabel
    · exact (hbelow x hx).1
  · intro x hx
    rcases hconstituents x hx with ⟨label, hlabel, rfl⟩ | hx
    · exact ⟨Nat.le_refl _, Nat.le_refl _⟩
    · exact (hbelow x hx).2

/-- The tree of a word from one of the constituents over it. -/
theorem wordTree_of_part (he : Derivation.Part 0 d i e) (hwidth : e.width = 1) :
    t.wordTree i e.root = some (e.tree t.called t.words i) := by
  have hderives := h.derives_of_part he
  have hbound := hderives.stop_le
  rw [hwidth] at hderives
  have hsingle := he.singleUnaries h.single
  have hlength : i + 1 ≤ t.words.length := by
    have := he.within
    rw [h.length_eq, ← h.width_eq]
    omega
  rw [wordTree, h.coarse_eq, if_neg Bool.false_ne_true, Option.bind_some, h.unaryChain_eq_follow]
  exact (h.traced.part he).follow (b := t.backpointers) hderives hsingle hlength
    (Nat.le_add_left 1 _) (Nat.le_trans hsingle.unaryHeight_le (Nat.le_add_left 1 _))

theorem segment_word (hi : i < t.chart.size) :
    (t.view d).segment i (i + 1) 0 d =
      Tree.stack i (i + 1) ((t.view d).labels (d.atSpan i (i + 1) 0))
        [.leaf (t.words.getD i "") i] := by
  rw [View.segment_word (Nat.zero_le i) (by rw [Nat.zero_add, h.width_eq]; exact hi)]
  exact View.encloseAll_spanning _ _

variable [ExactScore α]

theorem shows_word (hclear : t.Clear d i (i + 1)) (hspan : i + 1 - i ≠ t.chart.size)
    (htree : t.treeOf t.choices i (i + 1) = some tree) : t.Shows d i (i + 1) tree := by
  cases hcell : t.choices.get i (i + 1) with
  | none =>
    rw [treeOf, hcell] at htree
    cases htree
  | some cell =>
    rw [treeOf_word hcell] at htree
    obtain ⟨-, hi⟩ := bounds_of_get_choices hcell
    have hbelow : ∀ x ∈ Tree.constituentsOfAll [Tree.leaf (t.words.getD i "") i],
        t.Fair d x ∧ i ≤ x.1 ∧ x.2.1 ≤ i + 1 := by
      intro x hx
      cases hx
    by_cases hmark : (i, i + 1) ∈ t.marks d
    · obtain ⟨e, above, he, hwidth, hroot, -, hover, habove⟩ := h.exists_chosen hcell hspan hmark
      have hone : e.width = 1 := by omega
      rw [← hroot, h.wordTree_of_part he hone] at htree
      obtain rfl := Option.some.inj htree
      exact h.shows_of_stack (View.tree_eq_stack t.called t.words hone i)
        (.inl ⟨e.chain, above, rfl, hover, habove⟩) hspan (h.segment_word hi) hbelow
    · have hlive := (h.of_mem_candidates (mem_candidates_of_get_choices hcell)).1
      rw [wordTree, h.coarse_eq, if_neg Bool.false_ne_true, Option.bind_some] at htree
      obtain ⟨chain, hstack, hchain⟩ := h.exists_stack_of_unaryChain hlive htree
      refine h.shows_of_stack hstack (.inr ⟨hmark, hclear, fun label hlabel => ?_⟩) hspan
        (h.segment_word hi) hbelow
      obtain ⟨B, hB, rfl⟩ := List.mem_map.1 hlabel
      exact .inr ⟨B, hchain B hB, rfl⟩

/-! ## Trees over several words -/

/-- The labels of a full span of several words. -/
theorem labels_chosen (hcell : t.choices.get i j = some cell) (hspan : j - i ≠ t.chart.size)
    (hscore : cell.score = cell.gain + Score.times (Score.exp 0) (inner (t.marks d) i j).card)
    (hclear : t.Clear d i j) :
    t.Labels d i j (t.labelOf i j cell :: cell.unaryChild.toList.map t.called) := by
  have hbest := mem_of_bestCandidate? (of_get_choices hcell).1
  obtain ⟨hlive, hgain, hchild⟩ := h.of_mem_candidates hbest
  have hname : t.name cell.label = t.called cell.label := by
    rw [name, h.coarse_eq, if_neg Bool.false_ne_true]
  by_cases hmark : (i, j) ∈ t.marks d
  · obtain ⟨e, above, he, hwidth, hroot, hchild, hover, habove⟩ := h.exists_chosen hcell hspan hmark
    have hpos : 0 < cell.score := by
      rw [hscore, hgain, if_pos ((h.counts_iff (of_get_choices hcell).1 hspan).2 hmark),
        Score.times_add, Nat.add_comm]
      exact Score.times_succ_pos ExactScore.exp_zero_pos _
    refine .inl ⟨e.chain, above, ?_, hover, habove⟩
    rw [Derivation.chain_eq (he.singleUnaries h.single), hroot, hchild, List.map_cons, labelOf,
      hname, decide_eq_false (Score.not_le.2 hpos)]
    rfl
  · refine .inr ⟨hmark, hclear, fun label hlabel => ?_⟩
    rcases List.mem_cons.1 hlabel with rfl | hlabel
    · rw [labelOf, hname]
      split
      · exact .inl rfl
      · exact .inr ⟨_, hlive, rfl⟩
    · obtain ⟨B, hB, rfl⟩ := List.mem_map.1 hlabel
      rw [Option.mem_toList, hchild] at hB
      exact .inr ⟨B, h.live_unaryChild hB, rfl⟩

omit [ExactScore α] in
/-- The tree of a span of several words: the labels chosen on top of the trees of its halves. -/
theorem exists_halves (hcell : t.choices.get i j = some cell)
    (hmid : i < cell.midpoint ∧ cell.midpoint < j) (htree : t.treeOf t.choices i j = some tree) :
    ∃ left right, t.treeOf t.choices i cell.midpoint = some left ∧
      t.treeOf t.choices cell.midpoint j = some right ∧
      [tree] = Tree.stack i j (t.labelOf i j cell :: cell.unaryChild.toList.map t.called)
        [left, right] := by
  have hname : ∀ A, t.name A = t.called A := by
    intro A
    rw [name, h.coarse_eq, if_neg Bool.false_ne_true]
  have hlong : (j - i == 1) = false := by
    rw [beq_eq_false_iff_ne]
    omega
  rw [treeOf, hcell] at htree
  simp only [hlong, Bool.false_eq_true, if_false, dif_pos hmid, hname] at htree
  split at htree
  · next left right hleft hright =>
    have hl := (covers_treeOf hleft).1.start_eq
    have hr := (covers_treeOf hright).1.stop_eq
    have hjoin : ∀ label, Tree.join label [left, right] = .branch label i j [left, right] := by
      intro label
      simp [Tree.join, hl, hr]
    refine ⟨left, right, hleft, hright, ?_⟩
    cases hchild : cell.unaryChild with
    | none =>
      rw [hchild, hjoin] at htree
      obtain rfl := Option.some.inj htree
      rfl
    | some child =>
      rw [hchild, hjoin] at htree
      obtain rfl := Option.some.inj htree
      rw [hjoin]
      rfl
  · cases htree

/-- The tree of a full span that overlaps no constituent that counts. -/
theorem shows (hfull : t.Full (t.marks d) (Score.exp 0) i j) (hclear : t.Clear d i j)
    (hspan : j - i ≠ t.chart.size) (htree : t.treeOf t.choices i j = some tree) :
    t.Shows d i j tree := by
  induction hlen : j - i using Nat.strongRecOn generalizing i j tree with
  | _ len ih =>
    subst hlen
    obtain ⟨cell, hcell, hscore⟩ := hfull
    obtain ⟨hij, hj⟩ := bounds_of_get_choices hcell
    by_cases hone : j = i + 1
    · subst hone
      exact h.shows_word hclear hspan htree
    obtain ⟨hmid, hleft, hright, hfree⟩ := h.rewarded.halves hcell hscore hone
    obtain ⟨hclearl, hclearr⟩ := hclear.halves hfree hmid.1 hmid.2
    obtain ⟨left, right, htreel, htreer, hstack⟩ := h.exists_halves hcell hmid htree
    have hl := ih _ (by omega) hleft hclearl (by omega) htreel rfl
    have hr := ih _ (by omega) hright hclearr (by omega) htreer rfl
    refine h.shows_of_stack hstack (h.labels_chosen hcell hspan hscore hclear) hspan ?_ ?_
    · rw [segment_halves hmid.1 hmid.2 hfree, Tree.pruneAll, Tree.pruneAll, Tree.pruneAll,
        List.append_nil, hl.prune_eq, hr.prune_eq]
    · intro x hx
      rw [Tree.constituentsOfAll, Tree.constituentsOfAll, Tree.constituentsOfAll,
        List.append_nil] at hx
      rcases List.mem_append.1 hx with hx | hx
      · have := hl.within x hx
        exact ⟨hl.fair x hx, by omega⟩
      · have := hr.within x hx
        exact ⟨hr.fair x hx, by omega⟩

/-! ## The whole sentence -/

omit [ExactScore α] in
/-- The constituents of the derivation that a reader sees: the topmost one, hidden or not, and those
shown below it. -/
theorem constituents_unfactor_tree :
    (d.tree t.called t.words 0).unfactor.constituents =
      (0, t.chart.size, t.called t.grammar.start) :: t.shown d := by
  rw [Tree.constituents_unfactor, View.constituents_eq_map_nodes, h.nodes_eq]
  refine congrArg (List.cons _) ?_
  rw [List.map_cons, List.tail_cons, List.filter_map, shown]
  refine congrArg (List.map _) (List.filter_congr fun v hv => ?_)
  simp [view, View.below, View.named, hv]

omit [ExactScore α] in
/-- What stands below the root of the sentence over all of it is the child of a unary rule. -/
theorem labels_root :
    (t.view d).labels (d.atSpan 0 t.chart.size 0) =
        (d.onlyChild?.toList.map t.called).filter (fun label =>
          t.isShown d (0, t.chart.size, label)) ∧
      ∀ B ∈ d.onlyChild?, (0, t.chart.size, B) ∈ (d.nodes 0).tail := by
  have hchild : ∀ B ∈ d.onlyChild?, (0, t.chart.size, B) ∈ (d.nodes 0).tail := by
    intro B hB
    have hwidth := h.width_eq
    cases d with
    | word | binary => cases hB
    | unary p c =>
      obtain rfl := Option.some.inj hB
      have hmem := c.mem_nodes_self 0
      rw [Nat.zero_add] at hmem
      rw [← hwidth]
      exact hmem
  have hroot : (t.view d).shown (0, t.chart.size, d.root) = false := by
    have hnot := Derivation.root_not_mem_tail h.straight.nodup_chain 0
    rw [Nat.zero_add, h.width_eq] at hnot
    simp [view, View.below, hnot]
  refine ⟨?_, hchild⟩
  have hover := Derivation.atSpan_self d 0
  rw [Nat.zero_add, h.width_eq, Derivation.chain_eq h.single, List.map_cons] at hover
  rw [hover, View.labels, List.filter_cons, hroot, if_neg Bool.false_ne_true, List.filter_map,
    List.filter_map, List.map_map]
  refine congrArg (List.map t.called) (List.filter_congr fun B hB => ?_)
  exact (isShown_named (hchild B (Option.mem_toList.1 hB))).symm

omit [ExactScore α] in
theorem clear_root : t.Clear d 0 t.chart.size := by
  intro v hv
  obtain ⟨A, hA, -⟩ := mem_marks.1 (show (v.1, v.2) ∈ t.marks d from hv)
  have := (Derivation.within_of_mem_nodes hA).2.2
  rw [h.width_eq, Nat.zero_add] at this
  exact .inl ⟨Nat.zero_le _, this⟩

theorem full_root : t.Full (t.marks d) (Score.exp 0) 0 t.chart.size := by
  have := h.full_part .whole
  rwa [Nat.zero_add, h.width_eq] at this

omit [ExactScore α] in
/-- The choice for the whole sentence is the topmost constituent. -/
theorem root_chosen (hcell : t.choices.get 0 t.chart.size = some cell) :
    cell.label = t.grammar.start := by
  rw [label_eq_rootLabel (mem_of_bestCandidate? (of_get_choices hcell).1), rootLabel, h.coarse_eq,
    if_neg Bool.false_ne_true]

/-- The tree of a sentence of several words: a root with what the derivation shows below it, and fair
constituents. -/
theorem exists_root (hone : t.chart.size ≠ 0 + 1)
    (htree : t.treeOf t.choices 0 t.chart.size = some tree) :
    ∃ below, tree = .branch (t.called t.grammar.start) 0 t.chart.size below ∧
      Tree.pruneAll (t.isShown d) below = (t.view d).segment 0 t.chart.size 0 d ∧
      ∀ x ∈ Tree.constituentsOfAll below, t.Fair d x ∧
        (x = (0, t.chart.size, t.called t.grammar.start) →
          t.isShown d x = !Tree.isHidden x.2.2) := by
  obtain ⟨cell, hcell, hscore⟩ := h.full_root
  obtain ⟨hmid, hleft, hright, hfree⟩ := h.rewarded.halves hcell hscore hone
  obtain ⟨hclearl, hclearr⟩ := h.clear_root.halves hfree hmid.1 hmid.2
  obtain ⟨left, right, htreel, htreer, hstack⟩ := h.exists_halves hcell hmid htree
  have hl := h.shows hleft hclearl (by omega) htreel
  have hr := h.shows hright hclearr (by omega) htreer
  obtain ⟨hlabels, hchild⟩ := h.labels_root
  have honly : cell.unaryChild = d.onlyChild? := by
    have := h.unaryChild_of_part .whole
    rw [Nat.zero_add, h.width_eq, h.derives.root_eq, ← h.root_chosen hcell] at this
    rw [← this]
    exact (h.of_mem_candidates (mem_of_bestCandidate? (of_get_choices hcell).1)).2.2
  rw [labelOf_root, name, h.coarse_eq, if_neg Bool.false_ne_true, h.root_chosen hcell,
    honly] at hstack
  refine ⟨Tree.stack 0 t.chart.size (d.onlyChild?.toList.map t.called) [left, right],
    List.singleton_inj.1 hstack, ?_, fun x hx => ?_⟩
  · rw [segment_halves hmid.1 hmid.2 hfree, hlabels, Tree.pruneAll_stack, Tree.pruneAll,
      Tree.pruneAll, Tree.pruneAll, List.append_nil, hl.prune_eq, hr.prune_eq]
  rw [Tree.constituentsOfAll_stack, Tree.constituentsOfAll, Tree.constituentsOfAll,
    Tree.constituentsOfAll, List.append_nil] at hx
  rcases List.mem_append.1 hx with hx | hx
  · obtain ⟨label, hlabel, rfl⟩ := List.mem_map.1 hx
    obtain ⟨B, hB, rfl⟩ := List.mem_map.1 hlabel
    have htail := hchild B (Option.mem_toList.1 hB)
    have hshown : t.isShown d (0, t.chart.size, t.called B) = !Tree.isHidden (t.called B) := by
      refine (isShown_named htail).trans ?_
      simp [view, View.below, htail]
    refine ⟨?_, fun _ => hshown⟩
    cases hhidden : Tree.isHidden (t.called B) with
    | true => exact .inr (.inl hhidden)
    | false =>
      rw [hhidden] at hshown
      exact .inl hshown
  · rcases List.mem_append.1 hx with hx | hx
    · refine ⟨hl.fair x hx, fun heq => ?_⟩
      have := (hl.within x hx).2
      rw [heq] at this
      exact absurd this (Nat.not_le.2 hmid.2)
    · refine ⟨hr.fair x hx, fun heq => ?_⟩
      have := (hr.within x hx).1
      rw [heq] at this
      exact absurd this (Nat.not_le.2 hmid.1)

/-- The tree of the whole sentence, without hidden constituents: if only the constituents of the derivation are
kept it is the tree of the derivation, and the others are those of idle entries. -/
theorem restrict_unfactor (htree : t.treeOf t.choices 0 t.chart.size = some tree) :
    tree.unfactor.restrict (fun x =>
        decide (x ∈ (d.tree t.called t.words 0).unfactor.constituents)) =
      (d.tree t.called t.words 0).unfactor ∧
    ∀ x ∈ tree.unfactor.constituents,
      x ∈ (d.tree t.called t.words 0).unfactor.constituents ∨
        Tree.isHidden x.2.2 = false ∧ ∃ A, t.Idle d x.1 x.2.1 A ∧ t.called A = x.2.2 := by
  by_cases hone : t.chart.size = 0 + 1
  · obtain ⟨cell, hcell, -⟩ := h.full_root
    have hword : t.wordTree 0 cell.label = some tree := by
      rw [hone] at htree hcell
      rwa [treeOf_word hcell] at htree
    rw [h.root_chosen hcell, ← h.derives.root_eq,
      h.wordTree_of_part .whole (h.width_eq.trans hone)] at hword
    obtain rfl := Option.some.inj hword
    exact ⟨Tree.restrict_eq_self fun x hx => decide_eq_true hx, fun x hx => .inl hx⟩
  obtain ⟨below, rfl, hprune, hbelow⟩ := h.exists_root hone htree
  rw [h.constituents_unfactor_tree]
  constructor
  · have hkeep : ∀ x ∈ Tree.constituentsOfAll below, (!Tree.isHidden x.2.2 &&
        decide (x ∈ (0, t.chart.size, t.called t.grammar.start) :: t.shown d)) =
          t.isShown d x := by
      intro x hx
      by_cases hroot : x = (0, t.chart.size, t.called t.grammar.start)
      · rw [(hbelow x hx).2 hroot, hroot]
        simp
      · cases hshown : t.isShown d x with
        | true =>
          rw [isHidden_eq_false_of_isShown hshown]
          simpa using .inr (of_decide_eq_true hshown)
        | false =>
          have hnot : x ∉ t.shown d := of_decide_eq_false hshown
          simp [hroot, hnot]
    rw [Tree.unfactor, Tree.spliceAll_eq_pruneAll, Tree.restrict, Tree.pruneAll_pruneAll,
      Tree.pruneAll_congr below hkeep, hprune,
      View.unfactor_tree t.called t.words h.straight.nodup_chain, Nat.zero_add, h.width_eq,
      h.derives.root_eq]
    rfl
  · intro x hx
    rw [Tree.constituents_unfactor] at hx
    rcases List.mem_append.1 hx with hx | hx
    · exact .inl (List.mem_cons.2 (.inl (Option.some.inj (Option.mem_toList.1 hx)).symm))
    · obtain ⟨hmem, hhidden⟩ := List.mem_filter.1 hx
      rw [Bool.not_eq_true'] at hhidden
      rcases (hbelow x hmem).1 with hshown | htrue | hidle
      · exact .inl (List.mem_cons_of_mem _ (of_decide_eq_true hshown))
      · rw [hhidden] at htrue
        cases htrue
      · exact .inr ⟨hhidden, hidle⟩

end Sole

end ConstituentTask

end Constituency
