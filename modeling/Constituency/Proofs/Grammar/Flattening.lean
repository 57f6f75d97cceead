import Constituency.Proofs.Grammar.Binarization
import Constituency.Proofs.Segment

/-!
# Derivations of binarized rules

The derivations of a grammar that was made of some written rules, and the derivation trees of the rules
themselves. A derivation shows some trees if nothing tells them from its own tree once hidden
constituents are gone, and if it has their log probability (`Derivation.Shows`). Each derivation from an
original symbol shows a derivation tree of the rules (`Grammar.Holds.shows`), and each of these is shown by
a derivation (`Grammar.Holds.exists_shows`).
-/

namespace Constituency

open WrittenRule

variable {α : Type} [Score α] {g : Grammar α} {rules : List (WrittenRule α)} {r : WrittenRule α}
  {words names names' : List String} {trees trees' : List Tree} {t : Tree} {i m j : Nat}
  {p : Production α} {d e : Derivation α} {name text : String} {w : Terminal}

omit [Score α] in
theorem Sentence.terminal?_ofWords_iff : (Sentence.ofWords g words).terminal? i = some w ↔
    ∃ text, words[i]? = some text ∧ g.symbols.lexicon.get? w = some text := by
  simp [Sentence.terminal?, Sentence.ofWords, Option.join_eq_some_iff, Grammar.terminal?,
    Vocabulary.find?_eq_some_iff]

/-! ## What a derivation shows -/

namespace Derivation

/-- The derivation looks like some trees for a list of names, next to each other, and has their log
probability. -/
structure Shows (g : Grammar α) (rules : List (WrittenRule α)) (words : List String) (i j : Nat)
    (names : List String) (d : Derivation α) (trees : List Tree) : Prop where
  expands : Expands rules words i j names trees
  stop_eq : j = i + d.width
  splice_eq : (d.tree g.symbols.name words i).splice = Tree.spliceAll trees
  score_eq : ExactScore α → d.score = Tree.weightAll rules trees

/-- Below its topmost constituent the derivation looks like some trees. -/
structure ShowsBelow (g : Grammar α) (rules : List (WrittenRule α)) (words : List String)
    (i j : Nat) (names : List String) (d : Derivation α) (trees : List Tree) : Prop where
  expands : Expands rules words i j names trees
  stop_eq : j = i + d.width
  tree_eq : ∃ children, d.tree g.symbols.name words i =
    .branch (g.symbols.name d.root) i j children ∧ Tree.spliceAll children = Tree.spliceAll trees
  score_eq : ExactScore α → d.score = d.rule.logProb + Tree.weightAll rules trees

/-- The derivation and the tree look the same without hidden constituents and have the same log
probability. -/
structure Renders (g : Grammar α) (rules : List (WrittenRule α)) (words : List String) (i : Nat)
    (d : Derivation α) (t : Tree) : Prop where
  unfactor_eq : (d.tree g.symbols.name words i).unfactor = t.unfactor
  score_eq : ExactScore α → d.score = t.weight rules

theorem showsBelow_word (hword : IsWord rules text) (hread : words[i]? = some text)
    (p : Production α) :
    (Derivation.word p).ShowsBelow g rules words i (i + 1) [text] [.leaf text i] where
  expands := .word hword hread (.nil _)
  stop_eq := rfl
  tree_eq := ⟨_, rfl, by rw [List.getD_eq_getElem?_getD, hread, Option.getD_some]⟩
  score_eq hexact := by
    rw [Tree.weightAll_singleton, Tree.weight, Score.add_zero]
    rfl

theorem Shows.below_unary (h : d.Shows g rules words i j names trees) (p : Production α) :
    (Derivation.unary p d).ShowsBelow g rules words i j names trees where
  expands := h.expands
  stop_eq := h.stop_eq
  tree_eq := by
    obtain rfl := h.stop_eq
    refine ⟨_, View.tree_unary g.symbols.name words p d i, ?_⟩
    rw [Tree.spliceAll, Tree.spliceAll, List.append_nil, h.splice_eq]
  score_eq hexact := congrArg (p.logProb + ·) (h.score_eq hexact)

theorem Shows.below_binary (h : d.Shows g rules words i m names trees)
    (h' : e.Shows g rules words m j names' trees') (p : Production α) :
    (Derivation.binary p d e).ShowsBelow g rules words i j (names ++ names')
      (trees ++ trees') where
  expands := h.expands.append h'.expands
  stop_eq := by
    rw [h'.stop_eq, h.stop_eq]
    exact Nat.add_assoc _ _ _
  tree_eq := by
    obtain rfl := h.stop_eq
    obtain rfl := h'.stop_eq
    refine ⟨_, View.tree_binary g.symbols.name words p d e i, ?_⟩
    rw [Tree.spliceAll, Tree.spliceAll, Tree.spliceAll, List.append_nil, h.splice_eq, h'.splice_eq,
      Tree.spliceAll_eq, Tree.spliceAll_eq, Tree.spliceAll_eq,
      List.flatMap_append]
  score_eq hexact := by
    rw [Tree.weightAll_append, ← h.score_eq hexact, ← h'.score_eq hexact, ← ExactScore.add_assoc]
    rfl

/-- An original symbol has a constituent of its own. -/
theorem ShowsBelow.shows_symbol (h : d.ShowsBelow g rules words i j r.children trees)
    (hr : r ∈ rules) (hname : g.symbols.name d.root = r.parent)
    (hlogProb : d.rule.logProb = chance rules r.parent r.children) :
    d.Shows g rules words i j [r.parent] [.branch r.parent i j trees] ∧
      d.Renders g rules words i (.branch r.parent i j trees) := by
  obtain ⟨children, htree, hsplice⟩ := h.tree_eq
  have hscore : ExactScore α → d.score = (Tree.branch r.parent i j trees).weight rules := by
    intro hexact
    rw [h.score_eq hexact, hlogProb, Tree.weight, h.expands.map_symbol]
  rw [hname] at htree
  refine ⟨⟨.rule hr h.expands (.nil _), h.stop_eq, ?_, ?_⟩, ?_, hscore⟩
  · rw [htree, Tree.spliceAll, Tree.spliceAll, List.append_nil, Tree.splice, Tree.splice, hsplice]
  · intro hexact
    rw [Tree.weightAll_singleton, hscore hexact]
  · rw [htree, Tree.unfactor, Tree.unfactor, hsplice]

/-- A symbol that was made up has none. -/
theorem ShowsBelow.shows_factored (h : d.ShowsBelow g rules words i j names trees)
    (hname : isFactoredName (g.symbols.name d.root) = true) (hlogProb : d.rule.logProb = 0) :
    d.Shows g rules words i j names trees where
  expands := h.expands
  stop_eq := h.stop_eq
  splice_eq := by
    obtain ⟨children, htree, hsplice⟩ := h.tree_eq
    rw [htree, Tree.splice, ← hsplice]
    simp [Tree.isHidden, hname]
  score_eq hexact := by rw [h.score_eq hexact, hlogProb, ExactScore.zero_add]

end Derivation

/-! ## Derivations as trees of the rules -/

namespace Grammar

/-- What the derivations from a symbol show: a single tree if the symbol is an original one, and the trees
of its list if it was made up. -/
def Shown (g : Grammar α) (rules : List (WrittenRule α)) (words : List String) (i j : Nat)
    (name : String) (d : Derivation α) : Prop :=
  (isFactoredName name = false →
    ∃ t, d.Shows g rules words i j [name] [t] ∧ d.Renders g rules words i t) ∧
  ∀ r ∈ rules, ∀ l ∈ r.parts, name = factoredName r.parent l →
    ∃ trees, d.Shows g rules words i j l trees

theorem Shown.of_symbol (hname : isFactoredName name = false)
    (h : ∃ t, d.Shows g rules words i j [name] [t] ∧ d.Renders g rules words i t) :
    Shown g rules words i j name d := by
  refine ⟨fun _ => h, ?_⟩
  rintro r - l - rfl
  rw [isFactoredName_factoredName] at hname
  cases hname

/-- The symbol that stands for the last symbols of a rule shows one tree for each of them. -/
theorem Shown.exists_tail (hlegible : Legible rules) (hr : r ∈ rules)
    (hl : names <:+ r.children.tail) (hne : names ≠ [])
    (h : Shown g rules words i j (tailName r.parent names) d) :
    ∃ trees, d.Shows g rules words i j names trees := by
  rcases names with - | ⟨c, - | ⟨c', rest⟩⟩
  · exact absurd rfl hne
  · obtain ⟨t, ht, -⟩ := h.1 (hlegible.isFactoredName_child hr
      (two_le_length_of_suffix hl hne) (mem_children_of_suffix hl List.mem_cons_self))
    exact ⟨[t], ht⟩
  · exact h.2 r hr _ (mem_parts.2 ⟨hl, by simp⟩) rfl

/-- Only binary productions are made for symbols that were made up. -/
theorem Holds.isFactoredName_eq_false (hg : g.Holds rules) (hlegible : Legible rules)
    {p : Production α} (mem : p ∈ g.productions) {children : NamedChildren}
    (hspells : p.Spells g.symbols.nonterminals g.symbols.lexicon name children)
    (hchildren : ∀ left right, .binary left right ≠ children) : isFactoredName name = false := by
  refine Bool.eq_false_iff.2 fun hmark => ?_
  obtain ⟨-, r, -, c, c', rest, -, -, heq⟩ :=
    (hg.factored_iff hlegible hmark).1 ⟨p, mem, hspells, rfl⟩
  exact hchildren _ _ heq.symm

theorem Holds.shown (hg : g.Holds rules) (hlegible : Legible rules) {A : NonTerminal}
    (h : Derives g (.ofWords g words) i j A d) (hname : g.symbols.nonterminals.get? A = some name) :
    Shown g rules words i j name d := by
  induction h generalizing name with
  | @word i p w mem children terminal _ =>
    obtain ⟨text, hread, htext⟩ := Sentence.terminal?_ofWords_iff.1 terminal
    have hspells : p.Spells g.symbols.nonterminals g.symbols.lexicon name (.lexical text) :=
      ⟨hname, by rw [children]; exact htext⟩
    have hmark := hg.isFactoredName_eq_false hlegible mem hspells nofun
    obtain ⟨r, hr, rfl, htop, hlogProb⟩ :=
      (hg.symbol_iff hlegible hmark).1 ⟨p, mem, hspells, rfl⟩
    obtain ⟨hchildren, hword⟩ := top_eq_lexical_iff.1 htop
    have hbelow := Derivation.showsBelow_word (g := g) (wordTest_iff.1 hword) hread p
    rw [← hchildren] at hbelow
    exact .of_symbol hmark ⟨_, hbelow.shows_symbol hr (Vocabulary.name_eq_of_get? hname) hlogProb⟩
  | @unary i j p child d mem children below _ ih =>
    obtain ⟨text, htext⟩ : ∃ text, g.symbols.nonterminals.get? child = some text :=
      ⟨_, Vocabulary.get?_eq_some_of_lt (unary_lt mem children)⟩
    have hspells : p.Spells g.symbols.nonterminals g.symbols.lexicon name (.unary text) :=
      ⟨hname, by rw [children]; exact htext⟩
    have hmark := hg.isFactoredName_eq_false hlegible mem hspells nofun
    obtain ⟨r, hr, rfl, htop, hlogProb⟩ :=
      (hg.symbol_iff hlegible hmark).1 ⟨p, mem, hspells, rfl⟩
    obtain ⟨hchildren, hword⟩ := top_eq_unary_iff.1 htop
    obtain ⟨r', hr', rfl⟩ := wordTest_eq_false_iff.1 hword
    obtain ⟨t, ht, -⟩ := (ih htext).1 (hlegible.unmarked r' hr')
    have hbelow := ht.below_unary p
    rw [← hchildren] at hbelow
    exact .of_symbol hmark ⟨_, hbelow.shows_symbol hr (Vocabulary.name_eq_of_get? hname) hlogProb⟩
  | @binary i m j p left right d e mem children below below' _ ih ih' =>
    obtain ⟨text, htext⟩ : ∃ text, g.symbols.nonterminals.get? left = some text :=
      ⟨_, Vocabulary.get?_eq_some_of_lt (binary_lt mem children).1⟩
    obtain ⟨text', htext'⟩ : ∃ text, g.symbols.nonterminals.get? right = some text :=
      ⟨_, Vocabulary.get?_eq_some_of_lt (binary_lt mem children).2⟩
    have hspells : p.Spells g.symbols.nonterminals g.symbols.lexicon name (.binary text text') :=
      ⟨hname, by rw [children]; exact ⟨htext, htext'⟩⟩
    cases hmark : isFactoredName name with
    | true =>
      obtain ⟨hlogProb, r, hr, c, c', rest, hsuffix, hlist, heq⟩ :=
        (hg.factored_iff hlegible hmark).1 ⟨p, mem, hspells, rfl⟩
      obtain ⟨rfl, rfl⟩ := NamedChildren.binary.inj heq
      have hlength := two_le_length_of_suffix hsuffix (List.cons_ne_nil _ _)
      obtain ⟨t, ht, -⟩ := (ih htext).1 (hlegible.isFactoredName_child hr hlength
        (mem_children_of_suffix hsuffix List.mem_cons_self))
      obtain ⟨trees, htrees⟩ := (ih' htext').exists_tail hlegible hr
        ((List.suffix_cons _ _).trans hsuffix) (List.cons_ne_nil _ _)
      have hroot : isFactoredName (g.symbols.name p.parent) = true :=
        (congrArg isFactoredName (Vocabulary.name_eq_of_get? hname)).trans hmark
      have hshows := (ht.below_binary htrees p).shows_factored hroot hlogProb
      refine ⟨fun hfalse => (nomatch hmark.symm.trans hfalse), fun r' hr' l hl hl' => ?_⟩
      obtain rfl := hlegible.apart r' hr' r hr l hl _ (mem_parts.2 ⟨hsuffix, by simp⟩)
        (hl'.symm.trans hlist)
      exact ⟨_, hshows⟩
    | false =>
      obtain ⟨r, hr, rfl, htop, hlogProb⟩ :=
        (hg.symbol_iff hlegible hmark).1 ⟨p, mem, hspells, rfl⟩
      obtain ⟨rest, hchildren, hne, rfl⟩ := top_eq_binary_iff.1 htop
      have hsuffix : rest <:+ r.children.tail := by rw [hchildren, List.tail_cons]
      obtain ⟨t, ht, -⟩ := (ih htext).1 (hlegible.isFactoredName_child hr
        (two_le_length_of_suffix hsuffix hne) (hchildren ▸ List.mem_cons_self))
      obtain ⟨trees, htrees⟩ := (ih' htext').exists_tail hlegible hr hsuffix hne
      have hbelow : (Derivation.binary p d e).ShowsBelow g rules words i j r.children
          (t :: trees) := by
        rw [hchildren]
        exact ht.below_binary htrees p
      exact .of_symbol hmark ⟨_, hbelow.shows_symbol hr (Vocabulary.name_eq_of_get? hname) hlogProb⟩

/-- Each derivation tree of the rules is shown: one with a constituent on top from its symbol, and trees for
the last symbols of a rule from the symbol that stands for these. -/
theorem Holds.exists_shows (hg : g.Holds rules) (hlegible : Legible rules)
    (h : Expands rules words i j names trees) :
    (∀ r ∈ rules, r.children = names →
      ∃ A d, g.symbols.nonterminals.get? A = some r.parent ∧
        Derives g (.ofWords g words) i j A d ∧
        d.Shows g rules words i j [r.parent] [.branch r.parent i j trees] ∧
        d.Renders g rules words i (.branch r.parent i j trees)) ∧
      ∀ r ∈ rules, names <:+ r.children.tail → names ≠ [] →
        ∃ A d, g.symbols.nonterminals.get? A = some (tailName r.parent names) ∧
          Derives g (.ofWords g words) i j A d ∧ d.Shows g rules words i j names trees := by
  induction h with
  | nil i =>
    exact ⟨fun r hr hchildren => absurd hchildren (hlegible.nonempty r hr),
      fun r hr hsuffix hne => absurd rfl hne⟩
  | @word i j name names trees isWord read rest ih =>
    -- a word is the only child of its rule
    have halone : ∀ r ∈ rules, name ∈ r.children → ¬ 2 ≤ r.children.length := by
      intro r hr hmem hlength
      obtain ⟨r', hr', hparent⟩ := hlegible.symbol r hr hlength name hmem
      exact isWord r' hr' hparent
    refine ⟨fun r hr hchildren => ?_, fun r hr hsuffix hne => ?_⟩
    · obtain rfl : names = [] := by
        have := halone r hr (hchildren ▸ List.mem_cons_self)
        rw [hchildren, List.length_cons] at this
        exact List.eq_nil_of_length_eq_zero (by omega)
      cases rest
      obtain ⟨p, mem, hspells, hlogProb⟩ := (hg.symbol_iff hlegible (hlegible.unmarked r hr)).2
        ⟨r, hr, rfl, top_eq_lexical_iff.2 ⟨hchildren, wordTest_iff.2 isWord⟩, rfl⟩
      obtain ⟨w, hp, hw⟩ := hspells.2.exists_lexical
      have hbelow := Derivation.showsBelow_word (g := g) isWord read p
      rw [← hchildren] at hbelow
      exact ⟨p.parent, _, hspells.1,
        .word mem hp (Sentence.terminal?_ofWords_iff.2 ⟨name, read, hw⟩) trivial,
        hbelow.shows_symbol hr (Vocabulary.name_eq_of_get? hspells.1) hlogProb⟩
    · exact absurd (two_le_length_of_suffix hsuffix hne)
        (halone r hr (mem_children_of_suffix hsuffix List.mem_cons_self))
  | @rule i m j q names children trees mem below rest ihbelow ih =>
    obtain ⟨B, d, hB, hd, hshows, -⟩ := ihbelow.1 q mem rfl
    refine ⟨fun r hr hchildren => ?_, fun r hr hsuffix hne => ?_⟩
    · rcases names with - | ⟨c, names⟩
      · cases rest
        obtain ⟨p, memp, hspells, hlogProb⟩ := (hg.symbol_iff hlegible (hlegible.unmarked r hr)).2
          ⟨r, hr, rfl, top_eq_unary_iff.2 ⟨hchildren, wordTest_eq_false_iff.2 ⟨q, mem, rfl⟩⟩, rfl⟩
        have hp : p.children = .unary B := hspells.2.children_eq hB
        have hbelow := hshows.below_unary p
        rw [← hchildren] at hbelow
        exact ⟨p.parent, _, hspells.1, .unary memp hp hd trivial,
          hbelow.shows_symbol hr (Vocabulary.name_eq_of_get? hspells.1) hlogProb⟩
      · obtain ⟨C, e, hC, he, hshows'⟩ := ih.2 r hr
          (by rw [hchildren, List.tail_cons]) (List.cons_ne_nil _ _)
        obtain ⟨p, memp, hspells, hlogProb⟩ := (hg.symbol_iff hlegible (hlegible.unmarked r hr)).2
          ⟨r, hr, rfl, top_eq_binary_iff.2 ⟨_, hchildren, List.cons_ne_nil _ _, rfl⟩, rfl⟩
        have hp : p.children = .binary B C := hspells.2.children_eq ⟨hB, hC⟩
        have hbelow := hshows.below_binary hshows' p
        rw [List.singleton_append, ← hchildren] at hbelow
        exact ⟨p.parent, _, hspells.1, .binary memp hp hd he trivial,
          hbelow.shows_symbol hr (Vocabulary.name_eq_of_get? hspells.1) hlogProb⟩
    · rcases names with - | ⟨c, names⟩
      · cases rest
        exact ⟨B, d, hB, hd, hshows⟩
      · obtain ⟨C, e, hC, he, hshows'⟩ := ih.2 r hr
          ((List.suffix_cons _ _).trans hsuffix) (List.cons_ne_nil _ _)
        obtain ⟨p, memp, hspells, hlogProb⟩ := (hg.factored_iff hlegible
          (isFactoredName_factoredName r.parent (q.parent :: c :: names))).2
          ⟨rfl, r, hr, q.parent, c, names, hsuffix, rfl, rfl⟩
        have hp : p.children = .binary B C := hspells.2.children_eq ⟨hB, hC⟩
        have hroot : isFactoredName (g.symbols.name p.parent) = true :=
          (congrArg isFactoredName (Vocabulary.name_eq_of_get? hspells.1)).trans
            (isFactoredName_factoredName _ _)
        exact ⟨p.parent, _, hspells.1, .binary memp hp hd he trivial,
          (hshows.below_binary hshows' p).shows_factored hroot hlogProb⟩

/-- To split rules into binary ones changes no derivation tree of a text and no log probability. The
derivations from an original symbol look like the derivation trees of the rules as they are written once
hidden constituents are gone, and each of these trees is the look of one of them; nothing of such a tree is
hidden unless a symbol is called by the null label. -/
theorem binarization_faithful {text : String} {written : List (WrittenRule Float32)}
    (hread : readAll text = .ok written) (value : Float32 → α)
    (hrules : rules = written.map (WrittenRule.map value)) (hg : Grammar.ofRules rules = .ok g)
    (hunmarked : ∀ r ∈ rules, isFactoredName r.parent = false) (hapart : Apart rules) :
    g.symbols.nonterminals.get? g.start = rules.head?.map (·.parent) ∧
      (∀ r ∈ rules, ∃ A, g.symbols.nonterminals.get? A = some r.parent ∧ ∀ words i j,
        (∀ d, Derives g (.ofWords g words) i j A d →
          ∃ t, Expands rules words i j [r.parent] [t] ∧ d.Renders g rules words i t) ∧
        ∀ t, Expands rules words i j [r.parent] [t] →
          ∃ d, Derives g (.ofWords g words) i j A d ∧ d.Renders g rules words i t) ∧
      ((∀ r ∈ rules, r.parent ≠ Tree.nullLabel) → ∀ words i j name t,
        Expands rules words i j [name] [t] → t.unfactor = t) ∧
      (ExactScore α → ∀ r ∈ rules,
        IsGreatest {x | ∃ q ∈ rules, q.parent = r.parent ∧ q.children = r.children ∧
          q.logProb = x} (chance rules r.parent r.children)) := by
  obtain ⟨hholds, hsymbol⟩ := holds_of_ofRules hg
  have hnonempty : ∀ r ∈ rules, r.children ≠ [] := by
    intro r hr
    rw [hrules] at hr
    obtain ⟨q, hq, rfl⟩ := List.mem_map.1 hr
    exact children_ne_nil_of_readAll hread hq
  have hlegible : Legible rules := ⟨hnonempty, hsymbol, hunmarked, hapart⟩
  refine ⟨hholds.start, fun r hr => ?_, fun hnull words i j name t ht => ?_,
    fun hexact r hr => isGreatest_chance hr⟩
  · obtain ⟨children, htop⟩ := hlegible.exists_top hr (wordTest rules)
    obtain ⟨p, -, hspells, -⟩ := (hholds.symbol_iff hlegible (hunmarked r hr)).2
      ⟨r, hr, rfl, htop, rfl⟩
    refine ⟨p.parent, hspells.1, fun words i j => ⟨fun d hd => ?_, fun t ht => ?_⟩⟩
    · obtain ⟨t, hshows, hrenders⟩ := (hholds.shown hlegible hd hspells.1).1 (hunmarked r hr)
      exact ⟨t, hshows.expands, hrenders⟩
    · obtain ⟨q, hq, hparent, trees, rfl, hbelow⟩ := ht.exists_rule ⟨r, hr, rfl⟩
      obtain ⟨A, d, hA, hd, -, hrenders⟩ := (hholds.exists_shows hlegible hbelow).1 q hq rfl
      rw [hparent] at hA hrenders
      rw [Vocabulary.id_eq_of_get? hspells.1 hA]
      exact ⟨d, hd, hrenders⟩
  · refine ht.unfactor_eq fun r hr => ?_
    simp [Tree.isHidden, hnull r hr, hunmarked r hr]

/-! ## Three children -/

/-- A rule with three children, as it is read. -/
def tripleWritten : List (WrittenRule Float32) :=
  [⟨1, "S", ["A", "A", "A"], 0⟩, ⟨2, "A", ["a"], 0⟩]

/-- The same rules, each with the log probability minus one. -/
def tripleRules : List (WrittenRule (WithBot ℤ)) :=
  tripleWritten.map (WrittenRule.map fun _ => ((-1 : ℤ) : WithBot ℤ))

/-- The only tree of three words. -/
def tripleTree : Tree :=
  .branch "S" 0 3 [.branch "A" 0 1 [.leaf "a" 0], .branch "A" 1 2 [.leaf "a" 1],
    .branch "A" 2 3 [.leaf "a" 2]]

theorem legible_triple : Legible tripleRules where
  nonempty := by decide
  symbol := by decide
  unmarked := by decide
  apart := apart_of_free (by decide) (by decide)

theorem expands_triple : Expands tripleRules ["a", "a", "a"] 0 3 ["S"] [tripleTree] := by
  have hword : IsWord tripleRules "a" := by
    unfold IsWord
    decide
  have hbelow : ∀ i, (["a", "a", "a"] : List String)[i]? = some "a" →
      Expands tripleRules ["a", "a", "a"] i (i + 1) ["a"] [.leaf "a" i] :=
    fun i hi => .word hword hi (.nil _)
  have hpos : (⟨2, "A", ["a"], ((-1 : ℤ) : WithBot ℤ)⟩ : WrittenRule (WithBot ℤ)) ∈ tripleRules :=
    List.mem_cons_of_mem _ List.mem_cons_self
  exact .rule (r := ⟨1, "S", ["A", "A", "A"], ((-1 : ℤ) : WithBot ℤ)⟩) List.mem_cons_self
    (.rule hpos (hbelow 0 rfl) (.rule hpos (hbelow 1 rfl) (.rule hpos (hbelow 2 rfl) (.nil _))))
    (.nil _)

/-- The made-up symbol of a rule with three children neither shows nor counts: the derivation of three words
has five rules and the log probability of four. -/
theorem triple_faithful :
    readAll "S -> A A A\nA -> a" = .ok tripleWritten ∧
      (∀ r ∈ tripleRules, isFactoredName r.parent = false) ∧ Apart tripleRules ∧
      ∃ g, Grammar.ofRules tripleRules = .ok g ∧
        ∃ A d, g.symbols.nonterminals.get? A = some "S" ∧
          Derives g (.ofWords g ["a", "a", "a"]) 0 3 A d ∧
          (d.tree g.symbols.name ["a", "a", "a"] 0).unfactor = tripleTree ∧
          d.score = ((-4 : ℤ) : WithBot ℤ) := by
  have hread : readAll "S -> A A A\nA -> a" = .ok tripleWritten := rfl
  obtain ⟨g, hg⟩ := exists_ofRules legible_triple (by decide) (by decide +kernel)
  refine ⟨hread, legible_triple.unmarked, legible_triple.apart, g, hg, ?_⟩
  obtain ⟨-, htrees, -, -⟩ := binarization_faithful hread (fun _ => ((-1 : ℤ) : WithBot ℤ)) rfl
    hg legible_triple.unmarked legible_triple.apart
  obtain ⟨A, hA, hiff⟩ := htrees ⟨1, "S", ["A", "A", "A"], ((-1 : ℤ) : WithBot ℤ)⟩
    List.mem_cons_self
  obtain ⟨d, hd, hrenders⟩ := (hiff ["a", "a", "a"] 0 3).2 tripleTree expands_triple
  refine ⟨A, d, hA, hd, hrenders.unfactor_eq.trans rfl, (hrenders.score_eq inferInstance).trans ?_⟩
  decide

/-! ## A symbol with the null label -/

/-- Rules for a symbol that is called by the null label, as they are read. -/
def nullRules : List (WrittenRule Float32) :=
  [⟨1, "S", ["<null>", "A"], 0⟩, ⟨2, "<null>", ["b"], 0⟩, ⟨3, "A", ["a"], 0⟩]

theorem legible_null : Legible nullRules where
  nonempty := by decide
  symbol := by decide
  unmarked := by decide
  apart := apart_of_free (by decide) (by decide)

/-- The children of the only tree of two words. -/
theorem expands_null : Expands nullRules ["b", "a"] 0 2 ["<null>", "A"]
    [.branch "<null>" 0 1 [.leaf "b" 0], .branch "A" 1 2 [.leaf "a" 1]] := by
  have hwords : IsWord nullRules "a" ∧ IsWord nullRules "b" := by
    unfold IsWord
    decide
  refine .rule (r := ⟨2, "<null>", ["b"], 0⟩) (List.mem_cons_of_mem _ List.mem_cons_self)
    (.word hwords.2 rfl (.nil _)) ?_
  exact .rule (r := ⟨3, "A", ["a"], 0⟩)
    (List.mem_cons_of_mem _ (List.mem_cons_of_mem _ List.mem_cons_self))
    (.word hwords.1 rfl (.nil _)) (.nil _)

/-- A constituent with the null label is hidden as well, so that a derivation need not look like any derivation
tree of the rules. -/
theorem null_spliced :
    ∃ g, Grammar.read "S -> <null> A\n<null> -> b\nA -> a" = .ok g ∧
      readAll "S -> <null> A\n<null> -> b\nA -> a" = .ok nullRules ∧
      (∀ r ∈ nullRules, isFactoredName r.parent = false) ∧
      ∃ d, Derives g (.ofWords g ["b", "a"]) 0 2 g.start d ∧
        ∀ t, Expands nullRules ["b", "a"] 0 2 ["S"] [t] →
          (d.tree g.symbols.name ["b", "a"] 0).unfactor ≠ t := by
  have hread : readAll "S -> <null> A\n<null> -> b\nA -> a" = .ok nullRules := rfl
  obtain ⟨g, hg⟩ := exists_ofRules legible_null (by decide) (by decide +kernel)
  have hholds := (holds_of_ofRules hg).1
  refine ⟨g, ?_, hread, legible_null.unmarked, ?_⟩
  · rw [Grammar.read, hread]
    exact hg
  obtain ⟨A, d, hA, hd, -, hrenders⟩ := (hholds.exists_shows legible_null expands_null).1
    ⟨1, "S", ["<null>", "A"], 0⟩ List.mem_cons_self rfl
  rw [← Vocabulary.id_eq_of_get? hholds.start hA] at hd
  refine ⟨d, hd, ?_⟩
  rintro t ht rfl
  -- a tree of the rules has the null label below its root
  obtain ⟨r, hr, hparent, children, htree, hbelow⟩ := ht.exists_rule
    ⟨⟨1, "S", ["<null>", "A"], 0⟩, List.mem_cons_self, rfl⟩
  have hlook := hrenders.unfactor_eq.symm.trans htree
  have hchildren : [.leaf "b" 0, .branch "A" 1 2 [.leaf "a" 1]] = children :=
    (Tree.branch.inj hlook).2.2.2
  have hnames : ["b", "A"] = r.children := by
    rw [← hbelow.map_symbol, ← hchildren]
    rfl
  have hbranch : ∀ q ∈ nullRules, q.parent = "S" → ["b", "A"] ≠ q.children := by decide
  exact hbranch r hr hparent hnames

end Grammar

end Constituency
