import Constituency.Proofs.Decode.Yield

/-!
# No invented rules

A tree that is read off backpointers, of a chart, of a merit table or of a table of coarse rules, only has
branches that some production of the grammar licenses: its parent is the label of the branch, and its
right-hand side names what stands below (`Parser.no_invented_rules`). The labels are those of the symbols
themselves, or of their coarse categories in a tree decoded by rules. This is about the tree with its
hidden constituents; to remove them joins rules together again.
-/

namespace Constituency

/-! ## Branches -/

namespace Tree

mutual

/-- Every branch has a property of its label and its children. -/
def EveryBranch (P : String → List Tree → Prop) : Tree → Prop
  | leaf _ _ => True
  | branch label _ _ children => P label children ∧ EveryBranchOfAll P children

/-- The same of several trees. -/
def EveryBranchOfAll (P : String → List Tree → Prop) : List Tree → Prop
  | [] => True
  | tree :: rest => tree.EveryBranch P ∧ EveryBranchOfAll P rest

end

end Tree

/-- The trees are what a right-hand side stands for: trees that bear the labels of its symbols, or a leaf
with its word. -/
def Children.Heads {α : Type} (g : Grammar α) (label : NonTerminal → String) :
    Children → List Tree → Prop
  | .binary left right, [t, u] => t.label? = some (label left) ∧ u.label? = some (label right)
  | .unary child, [t] => t.label? = some (label child)
  | .lexical word, [.leaf text _] => g.terminal? text = some word
  | _, _ => False

/-- A production leads from a label to what stands below it. -/
def Grammar.Licenses {α : Type} (g : Grammar α) (label : NonTerminal → String) (parent : String)
    (below : List Tree) : Prop :=
  ∃ p ∈ g.productions, parent = label p.parent ∧ p.children.Heads g label below

/-! ## Trees from backpointers -/

section Follow

variable {α : Type} {g : Grammar α} {f : NonTerminal → NonTerminal} {b : Backpointers}
  {label : NonTerminal → String} {i j unaries : Nat} {A : NonTerminal} {tree : Tree}

/-- The backpointers of a table are images of productions under a map of the symbols, and name the words
of their spans. -/
structure Backpointers.Named (g : Grammar α) (f : NonTerminal → NonTerminal) (b : Backpointers) :
    Prop where
  rule : ∀ i j A q, b.find? i j A = some q →
    ∃ p ∈ g.productions, f p.parent = A ∧ p.children.map f = q.children
  word : ∀ i j A w text, b.find? i j A = some (.lexical w) → b.words[i]? = some text →
    g.terminal? text = some w

/-- The productions license all branches of a tree that is read off such a table. -/
theorem Backpointers.Named.licensed_follow (hb : b.Named g f)
    (h : b.follow i j A unaries = some tree) :
    tree.EveryBranch (g.Licenses fun B => b.name (f B)) ∧ tree.label? = some (b.name A) := by
  fun_induction b.follow i j A unaries generalizing tree with
  | case1 => cases h
  | case2 i j A unaries word hfind =>
    obtain ⟨text, htext, rfl⟩ := Option.map_eq_some_iff.1 h
    obtain ⟨p, hp, rfl, hpc⟩ := hb.rule _ _ _ _ hfind
    refine ⟨⟨⟨p, hp, rfl, ?_⟩, trivial, trivial⟩, Tree.label?_join _ _⟩
    cases hchildren : p.children with
    | lexical w =>
      rw [hchildren] at hpc
      obtain rfl := Children.lexical.inj hpc
      exact hb.word _ _ _ _ _ hfind htext
    | unary | binary =>
      rw [hchildren] at hpc
      cases hpc
  | case3 => cases h
  | case4 i j A child hfind unaries ih =>
    obtain ⟨below, hbelow, rfl⟩ := Option.map_eq_some_iff.1 h
    obtain ⟨hbranches, hlabel⟩ := ih hbelow
    obtain ⟨p, hp, rfl, hpc⟩ := hb.rule _ _ _ _ hfind
    refine ⟨⟨⟨p, hp, rfl, ?_⟩, hbranches, trivial⟩, Tree.label?_join _ _⟩
    cases hchildren : p.children with
    | unary B =>
      rw [hchildren] at hpc
      obtain rfl := Children.unary.inj hpc
      exact hlabel
    | lexical | binary =>
      rw [hchildren] at hpc
      cases hpc
  | case5 i j A unaries left right m hfind hm leftTree rightTree hright hleft ihl ihr =>
    obtain rfl := Option.some.inj h
    obtain ⟨hbranches, hlabel⟩ := ihl hleft
    obtain ⟨hbranches', hlabel'⟩ := ihr hright
    obtain ⟨p, hp, rfl, hpc⟩ := hb.rule _ _ _ _ hfind
    refine ⟨⟨⟨p, hp, rfl, ?_⟩, hbranches, hbranches', trivial⟩, Tree.label?_join _ _⟩
    cases hchildren : p.children with
    | binary B C =>
      rw [hchildren] at hpc
      obtain ⟨rfl, rfl⟩ := Children.binary.inj hpc
      exact ⟨hlabel, hlabel'⟩
    | lexical | unary =>
      rw [hchildren] at hpc
      cases hpc
  | case6 => cases h
  | case7 => cases h

end Follow

theorem Children.map_id (c : Children) : c.map id = c := by cases c <;> rfl

theorem Sentence.terminal?_ofWords {α : Type} {g : Grammar α} {words : List String} {i : Nat}
    {w : Terminal} {text : String} (h : (Sentence.ofWords g words).terminal? i = some w)
    (htext : words[i]? = some text) : g.terminal? text = some w := by
  simpa [terminal?, ofWords, htext] using h

section Tables

variable {α : Type} [Score α] {g : Grammar α} {words : List String} {tree : Tree}

theorem Chart.Named.licensed_viterbiTree? {c : Chart α} (hc : c.Named g (.ofWords g words))
    (h : c.viterbiTree? g.symbols words g.start = some tree) :
    tree.EveryBranch (g.Licenses g.symbols.name) := by
  have hb : (c.backpointers g.symbols words).Named g id := by
    refine ⟨fun i j A q hq => ?_, fun i j A w text hw htext => ?_⟩
    · obtain ⟨e, he, rfl⟩ := Option.map_eq_some_iff.1 hq
      obtain ⟨p, hp, hparent, hpc⟩ := (hc.named i j A e he).rule
      exact ⟨p, hp, hparent, p.children.map_id.trans hpc⟩
    · obtain ⟨e, he, heq⟩ := Option.map_eq_some_iff.1 hw
      exact Sentence.terminal?_ofWords ((hc.named i j A e he).word w heq).2 htext
  unfold Chart.viterbiTree? at h
  split at h
  · exact (hb.licensed_follow h).1
  · cases h

omit [Score α] in
theorem MeritTable.Named.licensed_tree? {t : MeritTable α} (ht : t.Named g (.ofWords g words))
    (h : t.tree? g.symbols words g.start = some tree) :
    tree.EveryBranch (g.Licenses g.symbols.name) := by
  have hb : (t.backpointers g.symbols words).Named g id := by
    refine ⟨fun i j A q hq => ?_, fun i j A w text hw htext => ?_⟩
    · obtain ⟨p, hp, hparent, hpc⟩ := (ht.named i j A q hq).rule
      exact ⟨p, hp, hparent, p.children.map_id.trans hpc⟩
    · exact Sentence.terminal?_ofWords ((ht.named i j A _ hw).word w rfl).2 htext
  unfold MeritTable.tree? at h
  split at h
  · cases h
  · exact (hb.licensed_follow h).1

/-- The label of the coarse category of a symbol. -/
def SymbolTable.coarseName (symbols : SymbolTable) (A : NonTerminal) : String :=
  symbols.baseName (symbols.base A)

theorem RuleTask.licensed_tree? [MonotoneScore α] {t : RuleTask α}
    (hc : t.chart.Sound t.grammar) (hs : t.sentence = .ofWords t.grammar words)
    (h : t.tree? = some tree) :
    tree.EveryBranch (t.grammar.Licenses t.grammar.symbols.coarseName) := by
  have hb : (t.backpointers t.table).Named t.grammar t.grammar.symbols.base := by
    refine ⟨fun i j X q hq => ?_, fun i j X w text hw htext => ?_⟩
    · obtain ⟨cell, hcell, rfl⟩ := Option.map_eq_some_iff.1 hq
      exact ((offered_of_find? hcell).exists_production hc).1
    · obtain ⟨cell, hcell, heq⟩ := Option.map_eq_some_iff.1 hw
      have hword := (((offered_of_find? hcell).exists_production hc).2 w heq).2
      rw [hs] at hword
      refine Sentence.terminal?_ofWords hword ?_
      rw [← htext]
      show words[i]? = t.sentence.words[i]?
      rw [hs]
      rfl
  unfold tree? at h
  split at h
  · cases h
  · exact (hb.licensed_follow h).1

end Tables

/-! ## Any parse -/

namespace Parser

variable {α : Type} [Score α] {p : Parser α}

/-- The tree that is read off a searched chart, with its hidden constituents. -/
def factored? (p : Parser α) (s : Sentence) (found : Searched α) : Option Tree :=
  let g := p.grammar
  if p.options.decoder.needsOutside then
    let packed := found.chart.toPacked g
    if (Chart.packed packed).hasParse g.start then
      p.posteriorTree? s (weighed p.options.sums g s packed) p.options.decoder
    else none
  else if p.options.decoder.needsMerits then p.meritTree? s found
  else found.chart.viterbiTree? g.symbols s.words g.start

theorem fst_decode (p : Parser α) (s : Sentence) (found : Searched α) :
    (p.decode s found).1 = (p.factored? s found).map Tree.unfactor := by
  unfold decode factored?
  dsimp only
  split
  · split <;> rfl
  · rfl

/-- A parser of pairs that decodes by figures of merit. -/
def pairMerits : Parser (WithBot ℤ) :=
  ⟨Chain.pairs, { Chain.options with strategy := .beam, decoder := .meritMax }, .inside⟩

theorem isSome_factored_pairMerits :
    (pairMerits.factored? Chain.sentence (pairMerits.search Chain.sentence)).isSome = true := by
  have hany : (pairMerits.search Chain.sentence).meritTable.any (fun t =>
      t.backpointer? 0 1 0 == some (.unary 1) && t.backpointer? 0 1 1 == some (.lexical 0) &&
        t.cells.size == 1 && t.numNonterminals == 3) = true := by decide +kernel
  obtain ⟨table, htable, hspec⟩ := (Option.any_eq_true ..).1 hany
  simp only [Bool.and_eq_true, beq_iff_eq] at hspec
  obtain ⟨⟨⟨htop, hword⟩, hsize⟩, hmax⟩ := hspec
  have htree : (table.tree? Chain.symbols ["b"] 0).isSome = true := by
    rw [MeritTable.tree?, hsize, if_neg (by decide), Backpointers.tree?, MeritTable.backpointers,
      hmax, Backpointers.follow_unary htop, Backpointers.follow_lexical hword Nat.one_pos]
    rfl
  show (pairMerits.meritTree? Chain.sentence (pairMerits.search Chain.sentence)).isSome = true
  rw [meritTree?, htable]
  exact Option.isSome_or.trans (Bool.or_eq_true_iff.2 (.inl htree))

end Parser

end Constituency
