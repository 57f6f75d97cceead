import Constituency.Grammar.Basic
import Constituency.Proofs.ChildCode
import Mathlib.Data.List.Basic
import Mathlib.Data.List.Find

/-!
# What a grammar finds

Productions are filed one by one. Each file grows by the productions that belong there, in their order, so
that in the end the files of a grammar hold exactly those, each once. A search that looks productions up
under a symbol therefore misses none of them and meets none twice.
-/

namespace Constituency

/-! ## Orders of rules -/

section CompareRules

variable {κ : Type} [Ord κ]

instance [Std.TransOrd κ] : Std.TransCmp (@compareRules κ _) :=
  inferInstanceAs (Std.TransCmp (compareLex _ _))

theorem compareRules_eq_iff [Std.LawfulEqOrd κ] {a b : NonTerminal × κ} :
    compareRules a b = .eq ↔ a = b := by
  simp [compareRules, compareLex, compareOn, Ordering.then_eq_eq, Prod.ext_iff]

/-- A table answers for a rule with what was entered last for it. -/
theorem LogProbTable.getElem?_insert [Std.TransOrd κ] [Std.LawfulEqOrd κ] [DecidableEq κ] {α : Type}
    (t : LogProbTable κ α) (a b : NonTerminal × κ) (x : α) :
    (t.insert a x)[b]? = if a = b then some x else t[b]? := by
  simp only [Std.TreeMap.getElem?_insert, compareRules_eq_iff]

end CompareRules

/-! ## Kinds of productions -/

namespace Production

variable {α : Type} {p : Production α} {nt : NonTerminal}

/-- The symbol is the left child of a binary production. -/
def hasLeft (p : Production α) (nt : NonTerminal) : Bool :=
  match p.children with
  | .binary left _ => left == nt
  | _ => false

/-- The symbol is the right child of a binary production. -/
def hasRight (p : Production α) (nt : NonTerminal) : Bool :=
  match p.children with
  | .binary _ right => right == nt
  | _ => false

/-- The production yields a word from the symbol. -/
def isLexicalOf (p : Production α) (nt : NonTerminal) : Bool :=
  match p.children with
  | .lexical _ => p.parent == nt
  | _ => false

/-- The children of a binary production have this code. -/
def hasCode (code : ChildCode) (p : Production α) (packed : Int32) : Bool :=
  match p.children with
  | .binary left right => code.ofPair left right == packed
  | _ => false

theorem hasLeft_iff : p.hasLeft nt = true ↔ ∃ right, p.children = .binary nt right := by
  unfold hasLeft
  split <;> simp_all

theorem hasRight_iff : p.hasRight nt = true ↔ ∃ left, p.children = .binary left nt := by
  unfold hasRight
  split <;> simp_all

theorem isLexicalOf_iff :
    p.isLexicalOf nt = true ↔ p.parent = nt ∧ ∃ word, p.children = .lexical word := by
  unfold isLexicalOf
  split <;> simp_all

theorem hasCode_iff {code : ChildCode} {packed : Int32} : p.hasCode code packed = true ↔
    ∃ left right, p.children = .binary left right ∧ code.ofPair left right = packed := by
  unfold hasCode
  split <;> simp_all

end Production

/-! ## Filing -/

namespace ProductionIndex

variable {α : Type} {code : ChildCode}

/-- A file to which each production that belongs there is added has them all in the end. -/
theorem foldl_file (file : ProductionIndex α → Option (List (Production α)))
    {belongs : Production α → Bool}
    (hadd : ∀ index p, file (add code index p) = (file index).map (· ++ [p].filter belongs))
    (productions : List (Production α)) (index : ProductionIndex α) :
    file (productions.foldl (add code) index) =
      (file index).map (· ++ productions.filter belongs) := by
  induction productions generalizing index with
  | nil => simp
  | cons p rest ih =>
    rw [List.foldl_cons, ih, hadd, Option.map_map]
    congr 1
    funext held
    rw [Function.comp_apply, List.append_assoc, ← List.filter_append, List.singleton_append]

/-- A mark that some productions set is set in the end if one of them was there. -/
theorem foldl_mark (mark : ProductionIndex α → Option Bool) {sets : Production α → Bool}
    (hadd : ∀ index p, mark (add code index p) = (mark index).map (· || sets p))
    (productions : List (Production α)) (index : ProductionIndex α) :
    mark (productions.foldl (add code) index) =
      (mark index).map (· || productions.any sets) := by
  induction productions generalizing index with
  | nil => simp
  | cons p rest ih =>
    rw [List.foldl_cons, ih, hadd, Option.map_map]
    congr 1
    funext held
    rw [Function.comp_apply, List.any_cons, Bool.or_assoc]

/-- A table has the log probability of a rule from the last production of it. -/
theorem foldl_logProb (find : ProductionIndex α → Option α) {isRule : Production α → Bool}
    (hadd : ∀ index p, find (add code index p) = if isRule p then some p.logProb else find index)
    (productions : List (Production α)) (index : ProductionIndex α) :
    find (productions.foldl (add code) index) =
      ((productions.reverse.find? isRule).map (·.logProb)).or (find index) := by
  induction productions generalizing index with
  | nil => simp
  | cons p rest ih =>
    rw [List.foldl_cons, ih, hadd, List.reverse_cons, List.find?_append, List.find?_singleton]
    cases rest.reverse.find? isRule <;> cases isRule p <;> rfl

/-! ### What one production changes -/

section Add

variable (index : ProductionIndex α) (p : Production α)

theorem getElem?_modify_append {β : Type} (files : Array (List β)) (i j : Nat) (x : β) :
    (files.modify i (· ++ [x]))[j]? = files[j]?.map (· ++ if i = j then [x] else []) := by
  rw [Array.getElem?_modify]
  split
  · rfl
  · cases files[j]? <;> simp

theorem getElem?_setIfInBounds_true (marks : Array Bool) (i j : Nat) :
    (marks.setIfInBounds i true)[j]? = marks[j]?.map (· || i == j) := by
  rw [Array.getElem?_setIfInBounds]
  split
  · next heq =>
    subst heq
    split
    · next hlt => simp [Array.getElem?_eq_getElem hlt]
    · next hge => simp [Array.getElem?_eq_none (Nat.le_of_not_lt hge)]
  · next hne => cases marks[j]? <;> simp [hne]

theorem byChildPair_add (packed : Int32) :
    some ((add code index p).byChildPair.getD packed []) =
      (some (index.byChildPair.getD packed [])).map
        (· ++ [p].filter (·.hasCode code packed)) := by
  cases hc : p.children with
  | binary left right =>
    simp only [add, hc, Std.TreeMap.getD_insert, Option.map_some, Production.hasCode,
      List.filter_cons, List.filter_nil, Std.compare_eq_iff_eq, beq_iff_eq]
    split
    · next heq => rw [heq]
    · rw [List.append_nil]
  | unary child => simp [add, hc, Production.hasCode]
  | lexical word => simp [add, hc, Production.hasCode]

theorem byLeftChild_add (nt : NonTerminal) : (add code index p).byLeftChild[nt]? =
    index.byLeftChild[nt]?.map (· ++ [p].filter (·.hasLeft nt)) := by
  cases hc : p.children <;>
    simp [add, hc, Production.hasLeft, getElem?_modify_append, List.filter_cons]

theorem byRightChild_add (nt : NonTerminal) : (add code index p).byRightChild[nt]? =
    index.byRightChild[nt]?.map (· ++ [p].filter (·.hasRight nt)) := by
  cases hc : p.children <;>
    simp [add, hc, Production.hasRight, getElem?_modify_append, List.filter_cons]

theorem byUnaryChild_add (nt : NonTerminal) : (add code index p).byUnaryChild[nt]? =
    index.byUnaryChild[nt]?.map (· ++ [p].filter (·.children == .unary nt)) := by
  cases hc : p.children <;>
    simp [add, hc, getElem?_modify_append, List.filter_cons]

theorem byWord_add (word : Terminal) : (add code index p).byWord[word]? =
    index.byWord[word]?.map (· ++ [p].filter (·.children == .lexical word)) := by
  cases hc : p.children <;>
    simp [add, hc, getElem?_modify_append, List.filter_cons]

theorem left_add (nt : NonTerminal) : (add code index p).classes.left[nt]? =
    index.classes.left[nt]?.map (· || p.hasLeft nt) := by
  cases hc : p.children <;>
    simp [add, hc, Production.hasLeft, getElem?_setIfInBounds_true]

theorem right_add (nt : NonTerminal) : (add code index p).classes.right[nt]? =
    index.classes.right[nt]?.map (· || p.hasRight nt) := by
  cases hc : p.children <;>
    simp [add, hc, Production.hasRight, getElem?_setIfInBounds_true]

theorem pos_add (nt : NonTerminal) : (add code index p).classes.pos[nt]? =
    index.classes.pos[nt]?.map (· || p.isLexicalOf nt) := by
  cases hc : p.children <;>
    simp [add, hc, Production.isLexicalOf, getElem?_setIfInBounds_true]

theorem binaryLogProbs_add (parent : NonTerminal) (packed : Int32) :
    (add code index p).binaryLogProbs[(parent, packed)]? =
      if p.parent == parent && p.hasCode code packed then some p.logProb
      else index.binaryLogProbs[(parent, packed)]? := by
  cases hc : p.children <;>
    simp [add, hc, Production.hasCode, LogProbTable.getElem?_insert]

theorem unaryLogProbs_add (parent child : NonTerminal) :
    (add code index p).unaryLogProbs[(parent, child)]? =
      if p.parent == parent && p.children == .unary child then some p.logProb
      else index.unaryLogProbs[(parent, child)]? := by
  cases hc : p.children <;>
    simp [add, hc, LogProbTable.getElem?_insert]

theorem lexicalLogProbs_add (parent : NonTerminal) (word : Terminal) :
    (add code index p).lexicalLogProbs[(parent, word)]? =
      if p.parent == parent && p.children == .lexical word then some p.logProb
      else index.lexicalLogProbs[(parent, word)]? := by
  cases hc : p.children <;>
    simp [add, hc, LogProbTable.getElem?_insert]

end Add

/-- Under a code are the binary productions whose children have it. -/
theorem byChildPair_ofProductions (symbols : SymbolTable) (productions : List (Production α))
    (packed : Int32) : (ofProductions symbols code productions).byChildPair.getD packed [] =
      productions.filter (·.hasCode code packed) := by
  have hfile : some ((ofProductions symbols code productions).byChildPair.getD packed []) =
      some ([] ++ productions.filter (·.hasCode code packed)) :=
    foldl_file (fun index => some (index.byChildPair.getD packed []))
      (fun index p => index.byChildPair_add p packed) productions (empty symbols)
  exact Option.some.inj hfile

end ProductionIndex

namespace Grammar

variable {α : Type} {g : Grammar α} {p q : Production α} {nt : NonTerminal}

theorem parent_lt (h : p ∈ g.productions) : p.parent < g.numNonterminals :=
  (g.inRange p h).1

theorem unary_lt {child : NonTerminal} (h : p ∈ g.productions) (hc : p.children = .unary child) :
    child < g.numNonterminals := by
  have := (g.inRange p h).2
  rwa [hc] at this

theorem binary_lt {left right : NonTerminal} (h : p ∈ g.productions)
    (hc : p.children = .binary left right) :
    left < g.numNonterminals ∧ right < g.numNonterminals := by
  have := (g.inRange p h).2
  rwa [hc] at this

theorem lexical_lt {word : Terminal} (h : p ∈ g.productions) (hc : p.children = .lexical word) :
    word < g.symbols.lexicon.size := by
  have := (g.inRange p h).2
  rwa [hc] at this

theorem nodup_productions (g : Grammar α) : g.productions.Nodup := by
  refine g.distinct.imp fun {a b} hab heq => ?_
  rw [Production.sameRule_iff.2 ⟨congrArg _ heq, congrArg _ heq⟩] at hab
  exact Bool.noConfusion hab

/-- A rule is known by its symbols. -/
theorem eq_of_sameRule (hp : p ∈ g.productions) (hq : q ∈ g.productions)
    (hparent : p.parent = q.parent) (hchildren : p.children = q.children) : p = q := by
  have hforth : g.productions.Pairwise fun x y => x.sameRule y = true → x = y :=
    g.distinct.imp fun {a b} hab h => by simp [hab] at h
  have hback : g.productions.Pairwise (flip fun x y => x.sameRule y = true → x = y) := by
    refine g.distinct.imp fun {a b} hab h => ?_
    rw [Production.sameRule_iff.2 ⟨(Production.sameRule_iff.1 h).1.symm,
      (Production.sameRule_iff.1 h).2.symm⟩] at hab
    exact Bool.noConfusion hab
  exact hforth.forall_of_forall_of_flip (fun x _ _ => rfl) hback hp hq
    (Production.sameRule_iff.2 ⟨hparent, hchildren⟩)

/-! ## Files -/

theorem index_def (g : Grammar α) :
    g.index = ProductionIndex.ofProductions g.symbols g.code g.productions := g.index_eq

/-- The file of a symbol holds the productions that belong there, if these have symbols of the grammar. -/
theorem file_eq (files : ProductionIndex α → Array (List (Production α)))
    {belongs : Production α → Bool} {i n : Nat}
    (hadd : ∀ index p, (files (index.add g.code p))[i]? =
      (files index)[i]?.map (· ++ [p].filter belongs))
    (hempty : files (.empty g.symbols) = .replicate n [])
    (hbound : ∀ p ∈ g.productions, belongs p = true → i < n) :
    (files g.index).getD i [] = g.productions.filter belongs := by
  rw [index_def, ProductionIndex.ofProductions, Array.getD_eq_getD_getElem?,
    ProductionIndex.foldl_file (fun index => (files index)[i]?) hadd, hempty]
  by_cases hi : i < n
  · simp [hi]
  · rw [List.filter_eq_nil_iff.2 fun p hp hb => hi (hbound p hp hb)]
    simp [hi]

theorem byLeftChild_eq (g : Grammar α) (nt : NonTerminal) :
    g.byLeftChild nt = g.productions.filter (·.hasLeft nt) := by
  refine file_eq (·.byLeftChild) (fun index p => index.byLeftChild_add p nt) rfl fun p hp hl => ?_
  obtain ⟨right, hc⟩ := Production.hasLeft_iff.1 hl
  exact (binary_lt hp hc).1

theorem byRightChild_eq (g : Grammar α) (nt : NonTerminal) :
    g.byRightChild nt = g.productions.filter (·.hasRight nt) := by
  refine file_eq (·.byRightChild) (fun index p => index.byRightChild_add p nt) rfl fun p hp hr => ?_
  obtain ⟨left, hc⟩ := Production.hasRight_iff.1 hr
  exact (binary_lt hp hc).2

theorem byUnaryChild_eq (g : Grammar α) (nt : NonTerminal) :
    g.byUnaryChild nt = g.productions.filter (·.children == .unary nt) :=
  file_eq (·.byUnaryChild) (fun index p => index.byUnaryChild_add p nt) rfl fun _ hp hu =>
    unary_lt hp (beq_iff_eq.1 hu)

theorem byWord_eq (g : Grammar α) (word : Terminal) :
    g.byWord word = g.productions.filter (·.children == .lexical word) :=
  file_eq (·.byWord) (fun index p => index.byWord_add p word) rfl fun _ hp hw =>
    lexical_lt hp (beq_iff_eq.1 hw)

/-- Productions over two symbols of the grammar are those with the code of the two. -/
theorem hasCode_iff_of_mem {left right : NonTerminal} (h : p ∈ g.productions)
    (hleft : left < g.numNonterminals) (hright : right < g.numNonterminals) :
    p.hasCode g.code (g.code.ofPair left right) = true ↔ p.children = .binary left right := by
  rw [Production.hasCode_iff]
  constructor
  · rintro ⟨left', right', hc, hcode⟩
    obtain ⟨hleft', hright'⟩ := binary_lt h hc
    have hfits : ∀ nt, nt < g.numNonterminals → nt < 1 <<< g.code.shift :=
      fun nt hnt => Nat.lt_of_lt_of_le hnt g.fits
    obtain ⟨rfl, rfl⟩ := (ChildCode.ofPair_inj (hfits _ hleft') (hfits _ hright')
      (hfits _ hleft) (hfits _ hright)).1 hcode
    exact hc
  · intro hc
    exact ⟨left, right, hc, rfl⟩

theorem byChildPair_eq (g : Grammar α) (left right : NonTerminal) :
    g.byChildPair left right = g.productions.filter (·.children == .binary left right) := by
  rw [byChildPair]
  split
  · next hlt =>
    rw [index_def, ProductionIndex.byChildPair_ofProductions]
    refine List.filter_congr fun p hp => ?_
    rw [Bool.eq_iff_iff, hasCode_iff_of_mem hp hlt.1 hlt.2, beq_iff_eq]
  · next hnot =>
    rw [eq_comm, List.filter_eq_nil_iff]
    intro p hp hc
    exact hnot (binary_lt hp (beq_iff_eq.1 hc))

theorem mem_byLeftChild :
    p ∈ g.byLeftChild nt ↔ p ∈ g.productions ∧ ∃ right, p.children = .binary nt right := by
  rw [byLeftChild_eq, List.mem_filter, Production.hasLeft_iff]

theorem mem_byRightChild :
    p ∈ g.byRightChild nt ↔ p ∈ g.productions ∧ ∃ left, p.children = .binary left nt := by
  rw [byRightChild_eq, List.mem_filter, Production.hasRight_iff]

theorem mem_byUnaryChild :
    p ∈ g.byUnaryChild nt ↔ p ∈ g.productions ∧ p.children = .unary nt := by
  rw [byUnaryChild_eq, List.mem_filter, beq_iff_eq]

theorem mem_byWord {word : Terminal} :
    p ∈ g.byWord word ↔ p ∈ g.productions ∧ p.children = .lexical word := by
  rw [byWord_eq, List.mem_filter, beq_iff_eq]

theorem mem_byChildPair {left right : NonTerminal} :
    p ∈ g.byChildPair left right ↔ p ∈ g.productions ∧ p.children = .binary left right := by
  rw [byChildPair_eq, List.mem_filter, beq_iff_eq]

theorem nodup_byLeftChild (g : Grammar α) (nt : NonTerminal) : (g.byLeftChild nt).Nodup :=
  byLeftChild_eq g nt ▸ g.nodup_productions.filter _

theorem nodup_byUnaryChild (g : Grammar α) (nt : NonTerminal) : (g.byUnaryChild nt).Nodup :=
  byUnaryChild_eq g nt ▸ g.nodup_productions.filter _

theorem nodup_byWord (g : Grammar α) (word : Terminal) : (g.byWord word).Nodup :=
  byWord_eq g word ▸ g.nodup_productions.filter _

theorem nodup_byChildPair (g : Grammar α) (left right : NonTerminal) :
    (g.byChildPair left right).Nodup :=
  byChildPair_eq g left right ▸ g.nodup_productions.filter _

/-! ## Classes -/

/-- A mark of a symbol is set if some production sets it, and if these have symbols of the grammar. -/
theorem mark_eq (marks : ProductionIndex α → Array Bool) {sets : Production α → Bool} {i n : Nat}
    (hadd : ∀ index p, (marks (index.add g.code p))[i]? = (marks index)[i]?.map (· || sets p))
    (hempty : marks (.empty g.symbols) = .replicate n false)
    (hbound : ∀ p ∈ g.productions, sets p = true → i < n) :
    (marks g.index).getD i false = g.productions.any sets := by
  rw [index_def, ProductionIndex.ofProductions, Array.getD_eq_getD_getElem?,
    ProductionIndex.foldl_mark (fun index => (marks index)[i]?) hadd, hempty]
  by_cases hi : i < n
  · simp [hi]
  · rw [List.any_eq_false.2 fun p hp hs => hi (hbound p hp hs)]
    simp [hi]

/-- The left children are those of the binary productions. -/
theorem isLeft_iff :
    g.classes.isLeft nt = true ↔ ∃ p ∈ g.productions, ∃ right, p.children = .binary nt right := by
  have heq : g.classes.isLeft nt = g.productions.any (·.hasLeft nt) := by
    refine mark_eq ((·.classes.left)) (fun index p => index.left_add p nt) rfl
      fun p hp hl => ?_
    obtain ⟨right, hc⟩ := Production.hasLeft_iff.1 hl
    exact (binary_lt hp hc).1
  simp only [heq, List.any_eq_true, Production.hasLeft_iff]

/-- The right children are those of the binary productions. -/
theorem isRight_iff :
    g.classes.isRight nt = true ↔ ∃ p ∈ g.productions, ∃ left, p.children = .binary left nt := by
  have heq : g.classes.isRight nt = g.productions.any (·.hasRight nt) := by
    refine mark_eq ((·.classes.right)) (fun index p => index.right_add p nt) rfl
      fun p hp hr => ?_
    obtain ⟨left, hc⟩ := Production.hasRight_iff.1 hr
    exact (binary_lt hp hc).2
  simp only [heq, List.any_eq_true, Production.hasRight_iff]

/-- The parts of speech are the parents of the lexical productions. -/
theorem isPos_iff : g.classes.isPos nt = true ↔
    ∃ p ∈ g.productions, p.parent = nt ∧ ∃ word, p.children = .lexical word := by
  have heq : g.classes.isPos nt = g.productions.any (·.isLexicalOf nt) := by
    refine mark_eq ((·.classes.pos)) (fun index p => index.pos_add p nt) rfl
      fun p hp hw => ?_
    exact (Production.isLexicalOf_iff.1 hw).1 ▸ parent_lt hp
  simp only [heq, List.any_eq_true, Production.isLexicalOf_iff]

theorem isLeft_of_mem {left right : NonTerminal} (h : p ∈ g.productions)
    (hc : p.children = .binary left right) : g.classes.isLeft left = true :=
  isLeft_iff.2 ⟨p, h, right, hc⟩

theorem isRight_of_mem {left right : NonTerminal} (h : p ∈ g.productions)
    (hc : p.children = .binary left right) : g.classes.isRight right = true :=
  isRight_iff.2 ⟨p, h, left, hc⟩

theorem isPos_of_mem {word : Terminal} (h : p ∈ g.productions)
    (hc : p.children = .lexical word) : g.classes.isPos p.parent = true :=
  isPos_iff.2 ⟨p, h, rfl, word, hc⟩

theorem mem_posSymbols : nt ∈ g.posSymbols ↔
    ∃ p ∈ g.productions, p.parent = nt ∧ ∃ word, p.children = .lexical word := by
  rw [posSymbols, List.mem_filter, isPos_iff, List.mem_range]
  refine ⟨fun h => h.2, fun h => ⟨?_, h⟩⟩
  obtain ⟨p, hp, rfl, -⟩ := h
  exact parent_lt hp

/-! ## Log probabilities -/

section Score

variable [Score α]

/-- A rule whose pairs of children are told apart by their codes is looked up among the productions. -/
theorem logProb_eq_find? (g : Grammar α) (nt : NonTerminal) {c : Children}
    (hlt : ∀ left right, c = .binary left right →
      left < g.numNonterminals ∧ right < g.numNonterminals) :
    g.logProb nt c = ((g.productions.reverse.find? fun p => p.parent == nt && p.children == c).map
      (·.logProb)).getD Score.impossible := by
  cases c with
  | binary left right =>
    obtain ⟨hleft, hright⟩ := hlt left right rfl
    have hcode : (g.productions.reverse.find? fun p =>
          p.parent == nt && p.hasCode g.code (g.code.ofPair left right)) =
        g.productions.reverse.find? fun p => p.parent == nt && p.children == .binary left right := by
      refine List.find?_congr fun p hp => ?_
      rw [Bool.eq_iff_iff, Bool.and_eq_true, Bool.and_eq_true,
        hasCode_iff_of_mem (List.mem_reverse.1 hp) hleft hright, beq_iff_eq, beq_iff_eq]
    rw [← hcode, logProb, Std.TreeMap.getD_eq_getD_getElem?, index_def,
      ProductionIndex.ofProductions,
      ProductionIndex.foldl_logProb ((·.binaryLogProbs[(nt, g.code.ofPair left right)]?))
        fun index p => index.binaryLogProbs_add p nt _]
    simp [ProductionIndex.empty]
  | unary child =>
    rw [logProb, Std.TreeMap.getD_eq_getD_getElem?, index_def, ProductionIndex.ofProductions,
      ProductionIndex.foldl_logProb ((·.unaryLogProbs[(nt, child)]?)) fun index p =>
        index.unaryLogProbs_add p nt child]
    simp [ProductionIndex.empty]
  | lexical word =>
    rw [logProb, Std.TreeMap.getD_eq_getD_getElem?, index_def, ProductionIndex.ofProductions,
      ProductionIndex.foldl_logProb ((·.lexicalLogProbs[(nt, word)]?)) fun index p =>
        index.lexicalLogProbs_add p nt word]
    simp [ProductionIndex.empty]

/-- A rule of the grammar has its own log probability. -/
theorem logProb_of_mem (h : p ∈ g.productions) : g.logProb p.parent p.children = p.logProb := by
  have hfound : (g.productions.reverse.find? fun q =>
      q.parent == p.parent && q.children == p.children).isSome := by
    rw [List.find?_isSome]
    exact ⟨p, List.mem_reverse.2 h, by simp⟩
  obtain ⟨q, hq⟩ := Option.isSome_iff_exists.1 hfound
  have hcond := List.find?_some hq
  rw [Bool.and_eq_true, beq_iff_eq, beq_iff_eq] at hcond
  have hmem := List.mem_reverse.1 (List.mem_of_find?_eq_some hq)
  rw [logProb_eq_find? g _ fun left right hc => binary_lt h hc, hq,
    eq_of_sameRule hmem h hcond.1 hcond.2]
  rfl

/-- What is no rule of the grammar is impossible. -/
theorem logProb_of_not_rule {c : Children}
    (hlt : ∀ left right, c = .binary left right →
      left < g.numNonterminals ∧ right < g.numNonterminals)
    (h : ∀ p ∈ g.productions, p.parent = nt → p.children ≠ c) :
    g.logProb nt c = Score.impossible := by
  have hnone : (g.productions.reverse.find? fun q => q.parent == nt && q.children == c) = none := by
    rw [List.find?_eq_none]
    intro q hq hcond
    rw [Bool.and_eq_true, beq_iff_eq, beq_iff_eq] at hcond
    exact h q (List.mem_reverse.1 hq) hcond.1 hcond.2
  rw [logProb_eq_find? g nt hlt, hnone]
  rfl

/-- A word that no rule yields is impossible. -/
theorem logProb_of_not_mem {word : Terminal}
    (h : ∀ p ∈ g.productions, p.parent = nt → p.children ≠ .lexical word) :
    g.logProb nt (.lexical word) = Score.impossible :=
  logProb_of_not_rule (fun _ _ hc => nomatch hc) h

theorem exists_of_logProb_ne {word : Terminal}
    (h : g.logProb nt (.lexical word) ≠ Score.impossible) :
    ∃ p ∈ g.productions, p.parent = nt ∧ p.children = .lexical word := by
  by_contra hnone
  exact h (logProb_of_not_mem fun p hp hparent hc => hnone ⟨p, hp, hparent, hc⟩)

end Score

end Grammar

end Constituency
