import Constituency.Proofs.Grammar.Written

/-!
# Binarization

A written rule with more than two children becomes a chain of binary rules, each of which takes one child
off and leaves the others to a symbol with their names in its own (`WrittenRule.steps`). The grammar of
some rules holds exactly these (`Grammar.Holds`). A production over an original symbol spells the beginning
of an original rule, with the log probability of that rule (`Grammar.Holds.symbol_iff`), and the productions
over the symbols made up on the way are free (`Grammar.Holds.factored_iff`).
-/

namespace Constituency

namespace WrittenRule

variable {α : Type} [Score α] {rules : List (WrittenRule α)} {r r' : WrittenRule α}
  {l l' : List String} {owner parent name : String} {children : NamedChildren} {x : α}
  {b b' : GrammarBuilder α} {isWord : String → Bool} {s : NamedRule α}

/-! ## The binary rules of a rule -/

/-- The symbol that stands for the last symbols of a rule: a single one for itself. -/
def tailName (owner : String) : List String → String
  | [c] => c
  | rest => factoredName owner rest

/-- What stands behind the parent once the other children are gathered into one symbol. -/
def top (isWord : String → Bool) (r : WrittenRule α) : Option NamedChildren :=
  match r.children with
  | [] => none
  | [c] => some (if isWord c then .lexical c else .unary c)
  | c :: rest => some (.binary c (tailName r.parent rest))

omit [Score α] in
theorem top_eq_lexical_iff : r.top isWord = some (.lexical name) ↔
    r.children = [name] ∧ isWord name = true := by
  unfold top
  split <;> grind

omit [Score α] in
theorem top_eq_unary_iff : r.top isWord = some (.unary name) ↔
    r.children = [name] ∧ isWord name = false := by
  unfold top
  split <;> grind

omit [Score α] in
theorem top_eq_binary_iff : r.top isWord = some (.binary name owner) ↔
    ∃ rest, r.children = name :: rest ∧ rest ≠ [] ∧ owner = tailName r.parent rest := by
  unfold top
  rcases r.children with - | ⟨c, - | ⟨d, rest⟩⟩
  · simp
  · by_cases hc : isWord c = true <;> simp [hc]
  · simp only [Option.some.injEq, NamedChildren.binary.injEq, List.cons.injEq]
    constructor
    · rintro ⟨rfl, rfl⟩
      exact ⟨_, ⟨rfl, rfl⟩, List.cons_ne_nil _ _, rfl⟩
    · rintro ⟨_, ⟨rfl, rfl⟩, -, rfl⟩
      exact ⟨rfl, rfl⟩

/-- The binary rules of the symbols that a list and its ends get. -/
def spine (owner : String) : List String → List (NamedRule α)
  | c :: d :: rest =>
    ⟨factoredName owner (c :: d :: rest), .binary c (tailName owner (d :: rest)), 0⟩ ::
      spine owner (d :: rest)
  | _ => []

/-- The rules in binary form that a written rule becomes. Only the first one costs something. -/
def steps (isWord : String → Bool) (r : WrittenRule α) : List (NamedRule α) :=
  ((r.top isWord).toList.map fun children => ⟨r.parent, children, r.logProb⟩) ++
    spine r.parent r.children.tail

theorem mem_spine : s ∈ spine owner l ↔ ∃ c d rest, c :: d :: rest <:+ l ∧
    s = ⟨factoredName owner (c :: d :: rest), .binary c (tailName owner (d :: rest)), 0⟩ := by
  induction l with
  | nil => simp [spine]
  | cons c l ih =>
    cases l with
    | nil =>
      simp only [spine, List.not_mem_nil, false_iff, not_exists, not_and]
      intro a d rest hsuffix
      have := hsuffix.length_le
      simp at this
    | cons d rest =>
      rw [spine, List.mem_cons, ih]
      constructor
      · rintro (rfl | ⟨a, e, more, hsuffix, rfl⟩)
        · exact ⟨c, d, rest, List.suffix_rfl, rfl⟩
        · exact ⟨a, e, more, hsuffix.trans (List.suffix_cons _ _), rfl⟩
      · rintro ⟨a, e, more, hsuffix, rfl⟩
        rcases List.suffix_cons_iff.1 hsuffix with heq | hsuffix
        · simp only [List.cons.injEq] at heq
          obtain ⟨rfl, rfl, rfl⟩ := heq
          exact .inl rfl
        · exact .inr ⟨a, e, more, hsuffix, rfl⟩

/-- A builder takes a rule with several children as its binary rules. -/
theorem binarize_eq (b : GrammarBuilder α) (owner parent c d : String) (x : α)
    (rest : List String) :
    binarize b owner parent x (c :: d :: rest) =
      (⟨parent, .binary c (tailName owner (d :: rest)), x⟩ :: spine owner (d :: rest)).foldl
        GrammarBuilder.add b := by
  induction rest generalizing b parent c d x with
  | nil => simp only [binarize, spine, tailName, List.foldl_cons, List.foldl_nil, GrammarBuilder.add]
  | cons e rest ih =>
    rw [binarize, ih]
    · simp only [spine, tailName, List.foldl_cons, GrammarBuilder.add]
    · intro h
      cases h
    · intro right h
      cases h

/-- A builder takes a rule as its binary rules, unless it has a word among several children. -/
theorem addTo_eq_ok_iff : r.addTo isWord b = .ok b' ↔
    b' = (r.steps isWord).foldl GrammarBuilder.add b ∧
      (2 ≤ r.children.length → ∀ c ∈ r.children, isWord c = false) := by
  unfold addTo steps top
  rcases hc : r.children with - | ⟨c, - | ⟨d, rest⟩⟩
  · have hlength : ¬ 2 ≤ ([] : List String).length := by simp
    exact ⟨fun h => ⟨(Except.ok.inj h).symm, fun h => absurd h hlength⟩,
      fun h => congrArg Except.ok h.1.symm⟩
  · have hlength : ¬ 2 ≤ [c].length := by simp
    have hadd : (if isWord c then b.lexical r.parent c r.logProb
        else b.unary r.parent c r.logProb) =
        b.add ⟨r.parent, if isWord c then .lexical c else .unary c, r.logProb⟩ := by
      cases hword : isWord c <;> rfl
    dsimp only
    rw [hadd]
    exact ⟨fun h => ⟨(Except.ok.inj h).symm, fun h => absurd h hlength⟩,
      fun h => congrArg Except.ok h.1.symm⟩
  · have hadd := binarize_eq b r.parent r.parent c d r.logProb rest
    dsimp only
    rw [hadd]
    split
    · next word hfound =>
      refine ⟨fun h => (by cases h), fun h => ?_⟩
      have hfree := h.2 (by simp) word (List.mem_of_find?_eq_some hfound)
      rw [List.find?_some hfound] at hfree
      cases hfree
    · next hnone =>
      have hfree : ∀ e ∈ c :: d :: rest, isWord e = false :=
        fun e he => Bool.eq_false_iff.2 (List.find?_eq_none.1 hnone e he)
      exact ⟨fun h => ⟨(Except.ok.inj h).symm, fun _ => hfree⟩,
        fun h => congrArg Except.ok h.1.symm⟩

theorem foldlM_addTo_eq_ok_iff : rules.foldlM (addTo isWord) b = .ok b' ↔
    b' = (rules.flatMap (steps isWord)).foldl GrammarBuilder.add b ∧
      ∀ r ∈ rules, 2 ≤ r.children.length → ∀ c ∈ r.children, isWord c = false := by
  induction rules generalizing b with
  | nil =>
    exact ⟨fun h => ⟨(Except.ok.inj h).symm, fun _ hr => nomatch hr⟩,
      fun h => congrArg Except.ok h.1.symm⟩
  | cons r rest ih =>
    rw [List.foldlM_cons, List.flatMap_cons, List.foldl_append, List.forall_mem_cons]
    cases hr : addTo isWord b r with
    | error e =>
      have hnot : ¬ (2 ≤ r.children.length → ∀ c ∈ r.children, isWord c = false) := by
        intro h
        rw [addTo_eq_ok_iff.2 ⟨rfl, h⟩] at hr
        cases hr
      exact ⟨fun h => (by cases h), fun h => absurd h.2.1 hnot⟩
    | ok b'' =>
      obtain ⟨rfl, hfree⟩ := addTo_eq_ok_iff.1 hr
      exact ih.trans ⟨fun h => ⟨h.1, hfree, h.2⟩, fun h => ⟨h.1, h.2.2⟩⟩

/-! ## The binary rules of all rules -/

/-- The test for words that a reader of the rules makes. -/
def wordTest (rules : List (WrittenRule α)) (name : String) : Bool :=
  rules.all (·.parent != name)

omit [Score α] in
theorem wordTest_iff : wordTest rules name = true ↔ IsWord rules name := by
  simp [wordTest, IsWord]

omit [Score α] in
theorem wordTest_eq_false_iff : wordTest rules name = false ↔ ∃ r ∈ rules, r.parent = name := by
  simp [wordTest]

/-- All rules in binary form. -/
def binaryRules (rules : List (WrittenRule α)) : List (NamedRule α) :=
  rules.flatMap (steps (wordTest rules))

/-- Rules that can be read off their binary form. -/
structure Legible (rules : List (WrittenRule α)) : Prop where
  nonempty : ∀ r ∈ rules, r.children ≠ []
  /-- Words stand alone. -/
  symbol : ∀ r ∈ rules, 2 ≤ r.children.length → ∀ c ∈ r.children, ∃ r' ∈ rules, r'.parent = c
  unmarked : ∀ r ∈ rules, isFactoredName r.parent = false
  apart : Apart rules

omit [Score α] in
theorem Legible.isFactoredName_child (h : Legible rules) (hr : r ∈ rules)
    (hlength : 2 ≤ r.children.length) (hname : name ∈ r.children) :
    isFactoredName name = false := by
  obtain ⟨r', hr', rfl⟩ := h.symbol r hr hlength name hname
  exact h.unmarked r' hr'

omit [Score α] in
theorem two_le_length_of_suffix (hl : l <:+ r.children.tail) (hne : l ≠ []) :
    2 ≤ r.children.length := by
  have hlength := hl.length_le
  have := List.length_pos_of_ne_nil hne
  rw [List.length_tail] at hlength
  omega

omit [Score α] in
theorem mem_children_of_suffix (hl : l <:+ r.children.tail) (hname : name ∈ l) :
    name ∈ r.children :=
  List.mem_of_mem_tail (hl.subset hname)

omit [Score α] in
/-- A symbol that stands for the last symbols of a rule stands for no others. -/
theorem Legible.eq_of_tailName (h : Legible rules) (hr : r ∈ rules) (hr' : r' ∈ rules)
    (hl : l <:+ r.children.tail) (hl' : l' <:+ r'.children.tail) (hne : l ≠ []) (hne' : l' ≠ [])
    (heq : tailName r.parent l = tailName r'.parent l') : l = l' := by
  have hmarked : ∀ {q q' : WrittenRule α} {c d e : String} {rest : List String}, q ∈ rules →
      [c] <:+ q.children.tail → c ≠ factoredName q'.parent (d :: e :: rest) := by
    rintro q q' c d e rest hq hc rfl
    have hfalse := h.isFactoredName_child hq (two_le_length_of_suffix hc (List.cons_ne_nil _ _))
      (mem_children_of_suffix hc List.mem_cons_self)
    rw [isFactoredName_factoredName] at hfalse
    cases hfalse
  rcases l with - | ⟨c, - | ⟨d, rest⟩⟩
  · exact absurd rfl hne
  · rcases l' with - | ⟨c', - | ⟨d', rest'⟩⟩
    · exact absurd rfl hne'
    · exact congrArg (fun c => [c]) heq
    · exact absurd heq (hmarked hr hl)
  · rcases l' with - | ⟨c', - | ⟨d', rest'⟩⟩
    · exact absurd rfl hne'
    · exact absurd heq.symm (hmarked hr' hl')
    · exact h.apart r hr r' hr' _ (mem_parts.2 ⟨hl, by simp⟩) _ (mem_parts.2 ⟨hl', by simp⟩) heq

omit [Score α] in
/-- Rules with different children begin differently. -/
theorem Legible.eq_of_top (h : Legible rules) (hr : r ∈ rules) (hr' : r' ∈ rules)
    (htop : r.top isWord = some children) (htop' : r'.top isWord = some children) :
    r.children = r'.children := by
  cases children with
  | lexical word =>
    rw [(top_eq_lexical_iff.1 htop).1, (top_eq_lexical_iff.1 htop').1]
  | unary child =>
    rw [(top_eq_unary_iff.1 htop).1, (top_eq_unary_iff.1 htop').1]
  | binary left right =>
    obtain ⟨rest, hrest, hne, rfl⟩ := top_eq_binary_iff.1 htop
    obtain ⟨rest', hrest', hne', heq⟩ := top_eq_binary_iff.1 htop'
    have htail : rest <:+ r.children.tail := by rw [hrest, List.tail_cons]
    have htail' : rest' <:+ r'.children.tail := by rw [hrest', List.tail_cons]
    rw [hrest, hrest', h.eq_of_tailName hr hr' htail htail' hne hne' heq]

/-- The log probabilities of the binary rules with an original parent. -/
theorem chances_binaryRules (hparent : isFactoredName parent = false) :
    NamedRule.chances (rules.flatMap (steps isWord)) parent children =
      (rules.filter fun r => r.parent == parent && r.top isWord == some children).map
        (·.logProb) := by
  have hspine : ∀ r : WrittenRule α,
      NamedRule.chances (spine r.parent r.children.tail : List (NamedRule α)) parent children =
        [] := by
    intro r
    apply List.eq_nil_iff_forall_not_mem.2
    intro x hx
    obtain ⟨s, hs, rfl, -⟩ := NamedRule.mem_chances.1 hx
    obtain ⟨c, d, rest, -, rfl⟩ := mem_spine.1 hs
    rw [isFactoredName_factoredName] at hparent
    cases hparent
  induction rules with
  | nil => rfl
  | cons r rest ih =>
    rw [List.flatMap_cons, NamedRule.chances_append, ih, steps, NamedRule.chances_append, hspine,
      List.append_nil, List.filter_cons]
    cases htop : r.top isWord with
    | none => simp [NamedRule.chances]
    | some c =>
      rw [Option.toList_some, List.map_singleton, NamedRule.chances_singleton]
      by_cases hsame : r.parent = parent ∧ c = children <;> simp [hsame]

theorem mem_steps : s ∈ r.steps isWord ↔
    (∃ children, r.top isWord = some children ∧ s = ⟨r.parent, children, r.logProb⟩) ∨
      s ∈ spine r.parent r.children.tail := by
  simp [steps, eq_comm]

/-- A symbol that was made up has the rules of the lists that it stands for, at no cost. -/
theorem mem_chances_binaryRules (hunmarked : ∀ r ∈ rules, isFactoredName r.parent = false)
    (hparent : isFactoredName parent = true) :
    x ∈ NamedRule.chances (binaryRules rules) parent children ↔
      x = 0 ∧ ∃ r ∈ rules, ∃ c d rest, c :: d :: rest <:+ r.children.tail ∧
        parent = factoredName r.parent (c :: d :: rest) ∧
        children = .binary c (tailName r.parent (d :: rest)) := by
  rw [NamedRule.mem_chances]
  constructor
  · rintro ⟨s, hs, rfl, rfl, rfl⟩
    obtain ⟨r, hr, hs⟩ := List.mem_flatMap.1 hs
    rcases mem_steps.1 hs with ⟨children, -, rfl⟩ | hs
    · rw [hunmarked r hr] at hparent
      cases hparent
    · obtain ⟨c, d, rest, hsuffix, rfl⟩ := mem_spine.1 hs
      exact ⟨rfl, r, hr, c, d, rest, hsuffix, rfl, rfl⟩
  · rintro ⟨rfl, r, hr, c, d, rest, hsuffix, rfl, rfl⟩
    exact ⟨_, List.mem_flatMap.2 ⟨r, hr, mem_steps.2 (.inr (mem_spine.2
      ⟨c, d, rest, hsuffix, rfl⟩))⟩, rfl, rfl, rfl⟩

omit [Score α] in
theorem exists_top (h : r.children ≠ []) (isWord : String → Bool) :
    ∃ children, r.top isWord = some children := by
  unfold top
  rcases hc : r.children with - | ⟨c, - | ⟨d, rest⟩⟩
  · exact absurd hc h
  · exact ⟨_, rfl⟩
  · exact ⟨_, rfl⟩

omit [Score α] in
theorem Legible.exists_top (h : Legible rules) (hr : r ∈ rules) (isWord : String → Bool) :
    ∃ children, r.top isWord = some children :=
  WrittenRule.exists_top (h.nonempty r hr) isWord

/-- The binary rule that a rule begins with has its log probability. -/
theorem Legible.merge_top (h : Legible rules) (hr : r ∈ rules)
    (htop : r.top (wordTest rules) = some children) :
    NamedRule.merge (NamedRule.chances (binaryRules rules) r.parent children) =
      some (chance rules r.parent r.children) := by
  have hfilter : (rules.filter fun q =>
        q.parent == r.parent && q.top (wordTest rules) == some children) =
      rules.filter fun q => q.parent == r.parent && q.children == r.children := by
    apply List.filter_congr
    intro q hq
    rw [Bool.eq_iff_iff, Bool.and_eq_true, Bool.and_eq_true, beq_iff_eq, beq_iff_eq, beq_iff_eq]
    refine and_congr_right fun hparent => ⟨fun h' => h.eq_of_top hq hr h' htop, fun hchildren => ?_⟩
    rw [← htop, top, top, hchildren, hparent]
  have hmem : r ∈ rules.filter fun q => q.parent == r.parent && q.children == r.children := by
    simp [hr]
  rw [binaryRules, chances_binaryRules (h.unmarked r hr), hfilter, chance]
  cases hq : rules.filter fun q => q.parent == r.parent && q.children == r.children with
  | nil =>
    rw [hq] at hmem
    cases hmem
  | cons q rest => rfl

end WrittenRule

/-! ## The grammar of some rules -/

namespace Grammar

open WrittenRule

variable {α : Type} [Score α] {g : Grammar α} {rules : List (WrittenRule α)} {r : WrittenRule α}
  {parent : String} {children : NamedChildren} {x : α}

/-- The productions are the rules in binary form, in numbers. -/
structure Holds (g : Grammar α) (rules : List (WrittenRule α)) : Prop where
  /-- The start symbol is the parent of the first rule. -/
  start : g.symbols.nonterminals.get? g.start = rules.head?.map (·.parent)
  productions : ∀ parent children x,
    NamedRule.merge (NamedRule.chances (binaryRules rules) parent children) = some x ↔
      ∃ p ∈ g.productions,
        p.Spells g.symbols.nonterminals g.symbols.lexicon parent children ∧ p.logProb = x

/-- What it takes for some rules to have a grammar: it holds them, and words stand alone. -/
theorem holds_of_ofRules (h : Grammar.ofRules rules = .ok g) :
    g.Holds rules ∧
      ∀ r ∈ rules, 2 ≤ r.children.length → ∀ c ∈ r.children, ∃ r' ∈ rules, r'.parent = c := by
  cases rules with
  | nil => cases h
  | cons first rest =>
    have hbuild : (first :: rest).foldlM (addTo (wordTest (first :: rest)))
        (GrammarBuilder.new first.parent) >>= GrammarBuilder.build = .ok g := h
    cases hfold : (first :: rest).foldlM (addTo (wordTest (first :: rest)))
        (GrammarBuilder.new first.parent) with
    | error e =>
      rw [hfold] at hbuild
      cases hbuild
    | ok b =>
      rw [hfold] at hbuild
      obtain ⟨hb, hsymbol⟩ := foldlM_addTo_eq_ok_iff.1 hfold
      obtain ⟨hstart, hnonterminals, hlexicon, hproductions⟩ := GrammarBuilder.of_build hbuild
      have hholds := (GrammarBuilder.holds_new (α := α) first.parent).foldl_add
        (binaryRules (first :: rest))
      have hzero := GrammarBuilder.get?_start (α := α) first.parent (binaryRules (first :: rest))
      rw [List.nil_append] at hholds
      rw [binaryRules, ← hb] at hholds hzero
      refine ⟨⟨?_, fun parent children x => ?_⟩, fun r hr hlength c hc => ?_⟩
      · rw [hnonterminals, hstart, hzero]
        rfl
      · rw [hnonterminals, hlexicon, hproductions]
        exact hholds parent children x
      · exact wordTest_eq_false_iff.1 (hsymbol r hr hlength c hc)

/-- Legible rules have a grammar if they are not too many. -/
theorem exists_ofRules (hlegible : Legible rules) (hne : rules ≠ [])
    (hfew : 1 + 3 * (binaryRules rules).length ≤ ChildCode.capacity) :
    ∃ g, Grammar.ofRules rules = .ok g := by
  cases rules with
  | nil => exact absurd rfl hne
  | cons first rest =>
    have hfold : (first :: rest).foldlM (addTo (wordTest (first :: rest)))
        (GrammarBuilder.new first.parent) = .ok _ :=
      foldlM_addTo_eq_ok_iff.2 ⟨rfl, fun r hr hlength c hc =>
        wordTest_eq_false_iff.2 (hlegible.symbol r hr hlength c hc)⟩
    have hholds := (GrammarBuilder.holds_new (α := α) first.parent).foldl_add
      (binaryRules (first :: rest))
    have hzero := GrammarBuilder.get?_start (α := α) first.parent (binaryRules (first :: rest))
    have hone : (GrammarBuilder.new first.parent : GrammarBuilder α).nonterminals.size ≤ 1 :=
      Vocabulary.size_intern_le .empty first.parent
    have hsize := GrammarBuilder.size_foldl_add_le
      (GrammarBuilder.new first.parent : GrammarBuilder α) (binaryRules (first :: rest))
    -- the first rule begins with a production over the start symbol
    obtain ⟨children, htop⟩ := hlegible.exists_top (r := first) List.mem_cons_self
      (wordTest (first :: rest))
    obtain ⟨p, hp, hspells, -⟩ := (hholds _ _ _).1 (hlegible.merge_top List.mem_cons_self htop)
    obtain ⟨g, hg⟩ := GrammarBuilder.exists_build hp (Vocabulary.id_eq_of_get? hspells.1 hzero)
      (by omega)
    refine ⟨g, ?_⟩
    rw [Grammar.ofRules]
    exact (congrArg (· >>= GrammarBuilder.build) hfold).trans hg

/-- The productions over an original symbol are the beginnings of its rules. -/
theorem Holds.symbol_iff (h : g.Holds rules) (hlegible : Legible rules)
    (hparent : isFactoredName parent = false) :
    (∃ p ∈ g.productions,
        p.Spells g.symbols.nonterminals g.symbols.lexicon parent children ∧ p.logProb = x) ↔
      ∃ r ∈ rules, r.parent = parent ∧ r.top (wordTest rules) = some children ∧
        x = chance rules r.parent r.children := by
  rw [← h.productions]
  constructor
  · intro hmerge
    have hne : NamedRule.chances (binaryRules rules) parent children ≠ [] := by
      intro hnil
      rw [hnil] at hmerge
      cases hmerge
    rw [binaryRules, chances_binaryRules hparent] at hne
    obtain ⟨r, hr⟩ := List.exists_mem_of_ne_nil _ (mt List.map_eq_nil_iff.2 hne)
    rw [List.mem_filter, Bool.and_eq_true, beq_iff_eq, beq_iff_eq] at hr
    obtain ⟨hr, rfl, htop⟩ := hr
    rw [hlegible.merge_top hr htop] at hmerge
    exact ⟨r, hr, rfl, htop, (Option.some.inj hmerge).symm⟩
  · rintro ⟨r, hr, rfl, htop, rfl⟩
    exact hlegible.merge_top hr htop

/-- The productions over a symbol that was made up take the first symbol off its list, for free. -/
theorem Holds.factored_iff (h : g.Holds rules) (hlegible : Legible rules)
    (hparent : isFactoredName parent = true) :
    (∃ p ∈ g.productions,
        p.Spells g.symbols.nonterminals g.symbols.lexicon parent children ∧ p.logProb = x) ↔
      x = 0 ∧ ∃ r ∈ rules, ∃ c d rest, c :: d :: rest <:+ r.children.tail ∧
        parent = factoredName r.parent (c :: d :: rest) ∧
        children = .binary c (tailName r.parent (d :: rest)) := by
  have hfree : ∀ z ∈ NamedRule.chances (binaryRules rules) parent children, z = 0 := fun z hz =>
    ((mem_chances_binaryRules hlegible.unmarked hparent).1 hz).1
  rw [← h.productions, NamedRule.merge_eq_some_iff_of_forall_eq hfree, and_comm]
  refine and_congr_right fun _ => ⟨fun hne => ?_, fun hlist hnil => ?_⟩
  · obtain ⟨z, hz⟩ := List.exists_mem_of_ne_nil _ hne
    exact ((mem_chances_binaryRules hlegible.unmarked hparent).1 hz).2
  · have hmem := (mem_chances_binaryRules hlegible.unmarked hparent).2 ⟨rfl, hlist⟩
    rw [hnil] at hmem
    cases hmem

end Grammar

end Constituency
