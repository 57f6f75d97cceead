import Constituency.Proofs.Grammar.Builder
import Constituency.Proofs.Grammar.Index
import Constituency.Proofs.Score.Binary32

/-!
# From calls of a builder to the files of a grammar

A builder is called to number a name, to add a rule in names, or to add a production over numbers that it has
given. Whatever the calls, the grammar that is built has each rule once, in the order of the first calls for
them, and the greatest log probability that any call gave to the rule. Its files, marks and tables hold exactly
these productions (`Grammar.Indexed`).
-/

namespace Constituency

/-! ## Files, marks and tables -/

/-- Two children that share a code are symbols of the grammar. -/
def Children.Coded (numNonterminals : Nat) (c : Children) : Prop :=
  ∀ left right, c = .binary left right → left < numNonterminals ∧ right < numNonterminals

/-- The grammar finds exactly its productions, each file in their order, and knows the roles of all
symbols. -/
structure Grammar.Indexed {α : Type} [Score α] (g : Grammar α) : Prop where
  byChildPair : ∀ left right, left < g.numNonterminals → right < g.numNonterminals →
    g.byChildPair left right = g.productions.filter (·.children == .binary left right)
  byLeftChild : ∀ nt, g.byLeftChild nt = g.productions.filter (·.hasLeft nt)
  byRightChild : ∀ nt, g.byRightChild nt = g.productions.filter (·.hasRight nt)
  byUnaryChild : ∀ nt, g.byUnaryChild nt = g.productions.filter (·.children == .unary nt)
  byWord : ∀ word, g.byWord word = g.productions.filter (·.children == .lexical word)
  logProb_rule : ∀ p ∈ g.productions, g.logProb p.parent p.children = p.logProb
  logProb_else : ∀ parent c, c.Coded g.numNonterminals →
    (∀ p ∈ g.productions, p.parent = parent → p.children ≠ c) →
    g.logProb parent c = Score.impossible
  isLeft : ∀ nt, g.classes.isLeft nt = true ↔
    ∃ p ∈ g.productions, ∃ right, p.children = .binary nt right
  isRight : ∀ nt, g.classes.isRight nt = true ↔
    ∃ p ∈ g.productions, ∃ left, p.children = .binary left nt
  isPos : ∀ nt, g.classes.isPos nt = true ↔
    ∃ p ∈ g.productions, p.parent = nt ∧ ∃ word, p.children = .lexical word
  posSymbols : ∀ nt, nt ∈ g.posSymbols ↔
    ∃ p ∈ g.productions, p.parent = nt ∧ ∃ word, p.children = .lexical word
  posSymbols_ascending : g.posSymbols.Pairwise (· < ·)

theorem Grammar.indexed {α : Type} [Score α] (g : Grammar α) : g.Indexed where
  byChildPair left right _ _ := g.byChildPair_eq left right
  byLeftChild := g.byLeftChild_eq
  byRightChild := g.byRightChild_eq
  byUnaryChild := g.byUnaryChild_eq
  byWord := g.byWord_eq
  logProb_rule _ hp := logProb_of_mem hp
  logProb_else _ _ hc hnone := logProb_of_not_rule hc hnone
  isLeft _ := isLeft_iff
  isRight _ := isRight_iff
  isPos _ := isPos_iff
  posSymbols _ := mem_posSymbols
  posSymbols_ascending := List.pairwise_lt_range.filter _

/-! ## Merged productions -/

/-- An element is kept where it stands first. -/
theorem eraseDups_concat {β : Type} [BEq β] [LawfulBEq β] (xs : List β) (x : β) :
    (xs ++ [x]).eraseDups = if x ∈ xs then xs.eraseDups else xs.eraseDups ++ [x] := by
  rw [List.eraseDups_append]
  split
  · next hmem =>
    have hnone : [x].removeAll xs = [] := by
      rw [List.removeAll, List.filter_eq_nil_iff]
      simpa using hmem
    rw [hnone, List.eraseDups_nil, List.append_nil]
  · next hmem =>
    have hall : [x].removeAll xs = [x] := by
      rw [List.removeAll, List.filter_eq_self]
      simpa using hmem
    rw [hall]
    rfl

namespace Production

variable {α : Type} {p q : Production α} {given : List (Production α)}

/-- The rule of a production, without its log probability. -/
def rule (p : Production α) : NonTerminal × Children :=
  (p.parent, p.children)

theorem sameRule_iff_rule_eq : p.sameRule q = true ↔ p.rule = q.rule := by
  rw [sameRule_iff, rule, rule, Prod.mk.injEq]

theorem sameRule_eq_false_iff : p.sameRule q = false ↔ p.rule ≠ q.rule := by
  rw [← Bool.not_eq_true, sameRule_iff_rule_eq]

section Score

variable [Score α]

/-- The productions that are left of some that are inserted one after the other. -/
def merged (given : List (Production α)) : List (Production α) :=
  given.foldl (fun productions p => p.insert productions) []

theorem merged_append_singleton (given : List (Production α)) (p : Production α) :
    merged (given ++ [p]) = p.insert (merged given) := by
  rw [merged, List.foldl_append, List.foldl_cons, List.foldl_nil, merged]

/-- An insertion adds a rule at the end, unless the rule is there. -/
theorem map_rule_insert (p : Production α) (productions : List (Production α)) :
    (p.insert productions).map rule =
      if p.rule ∈ productions.map rule then productions.map rule
      else productions.map rule ++ [p.rule] := by
  have hany : (productions.any (·.sameRule p) = true) ↔ p.rule ∈ productions.map rule := by
    simp only [List.any_eq_true, List.mem_map, sameRule_iff_rule_eq]
  unfold insert
  simp only [hany]
  split
  · rw [List.map_map]
    refine List.map_congr_left fun q _ => ?_
    rw [Function.comp_apply]
    split
    · rfl
    · rfl
  · rw [List.map_append, List.map_singleton]

/-- The rules stand in the order in which they were first given. -/
theorem map_rule_merged (given : List (Production α)) :
    (merged given).map rule = (given.map rule).eraseDups := by
  induction given using List.reverseRecOn with
  | nil => rfl
  | append_singleton given p ih =>
    rw [merged_append_singleton, map_rule_insert, ih, List.map_append, List.map_singleton,
      eraseDups_concat]
    simp only [List.mem_eraseDups]

end Score

/-- The log probabilities that are given to a rule. -/
def chances (given : List (Production α)) (r : NonTerminal × Children) : Set α :=
  {x | ∃ q ∈ given, q.rule = r ∧ q.logProb = x}

theorem chances_append_of_ne {r : NonTerminal × Children} (hne : q.rule ≠ r) :
    chances (given ++ [q]) r = chances given r := by
  ext x
  simp [chances, or_and_right, exists_or, hne]

theorem chances_append_self (given : List (Production α)) (q : Production α) :
    chances (given ++ [q]) q.rule = Insert.insert q.logProb (chances given q.rule) := by
  ext x
  simp [chances, or_and_right, exists_or, eq_comm, or_comm]

theorem chances_eq_empty {r : NonTerminal × Children} (h : r ∉ given.map rule) :
    chances given r = ∅ := by
  ext x
  rw [Set.mem_empty_iff_false, iff_false]
  rintro ⟨q, hq, hrule, -⟩
  exact h (hrule ▸ List.mem_map_of_mem hq)

end Production

namespace Binary32

variable {a b c : Float32}

theorem le_refl_of_number (ha : a.isNaN = false) : a ≤ a := by
  rw [le_iff_signed_le ha ha]

theorem le_trans_of_number (hc : c.isNaN = false) (hab : a ≤ b) (hbc : b ≤ c) : a ≤ c := by
  have ha := isNaN_eq_false_of_le hab
  have hb := isNaN_eq_false_of_le hbc
  rw [le_iff_signed_le ha hb] at hab
  rw [le_iff_signed_le hb hc] at hbc
  rw [le_iff_signed_le ha hc]
  exact Int.le_trans hab hbc

/-- The better one of two numbers is one of them, and neither lies above it. -/
theorem best_of_numbers (ha : a.isNaN = false) (hb : b.isNaN = false) :
    (Score.best a b = a ∨ Score.best a b = b) ∧ a ≤ Score.best a b ∧ b ≤ Score.best a b := by
  have hbest : Score.best a b = if a < b then b else a := by
    rw [Score.best, if_neg]
    show ¬ a.isNaN = true
    rw [ha]
    exact Bool.false_ne_true
  rw [hbest]
  split
  · next hlt =>
    rw [lt_iff_signed_lt ha hb] at hlt
    exact ⟨.inr rfl, (le_iff_signed_le ha hb).2 (Int.le_of_lt hlt), le_refl_of_number hb⟩
  · next hnot =>
    rw [lt_iff_signed_lt ha hb, Int.not_lt] at hnot
    exact ⟨.inl rfl, le_refl_of_number ha, (le_iff_signed_le hb ha).2 hnot⟩

/-- The greatest of some numbers, or one more if that is better, is the greatest of them all. -/
theorem isGreatest_insert_best {numbers : Set Float32} (hnumbers : ∀ x ∈ numbers, x.isNaN = false)
    (hb : b.isNaN = false) (ha : IsGreatest numbers a) :
    IsGreatest (insert b numbers) (Score.best a b) := by
  obtain ⟨hmem, hupper⟩ := ha
  have hna := hnumbers a hmem
  obtain ⟨hchoice, hleft, hright⟩ := best_of_numbers hna hb
  have hbest : (Score.best a b).isNaN = false := by
    rcases hchoice with h | h
    · rwa [h]
    · rwa [h]
  constructor
  · rcases hchoice with h | h
    · rw [h]
      exact Set.mem_insert_of_mem b hmem
    · rw [h]
      exact Set.mem_insert b numbers
  · rintro x (rfl | hx)
    · exact hright
    · exact le_trans_of_number hbest (hupper hx) hleft

end Binary32

namespace Production

/-- Of the log probabilities given to a rule the greatest one is left, in whatever order they come. -/
theorem isGreatest_of_mem_merged {given : List (Production Float32)}
    (hnumbers : ∀ p ∈ given, p.logProb.isNaN = false) {p : Production Float32}
    (hp : p ∈ merged given) : IsGreatest (chances given p.rule) p.logProb := by
  induction given using List.reverseRecOn generalizing p with
  | nil => cases hp
  | append_singleton given q ih =>
    have hgiven : ∀ r ∈ given, r.logProb.isNaN = false := fun r hr =>
      hnumbers r (List.mem_append_left _ hr)
    have hq : q.logProb.isNaN = false := hnumbers q (by simp)
    rw [merged_append_singleton, mem_insert] at hp
    rcases hp with ⟨hp, hother⟩ | ⟨old, hold, hsame, rfl⟩ | ⟨hnone, rfl⟩
    · rw [chances_append_of_ne (Ne.symm (sameRule_eq_false_iff.1 hother))]
      exact ih hgiven hp
    · have hrule : old.rule = q.rule := sameRule_iff_rule_eq.1 hsame
      have hbefore := ih hgiven hold
      show IsGreatest (chances (given ++ [q]) old.rule) (Score.best old.logProb q.logProb)
      rw [hrule] at hbefore ⊢
      rw [chances_append_self]
      refine Binary32.isGreatest_insert_best ?_ hq hbefore
      rintro x ⟨r, hr, -, rfl⟩
      exact hgiven r hr
    · have hnew : p.rule ∉ given.map rule := by
        rw [← List.mem_eraseDups, ← map_rule_merged, List.mem_map]
        rintro ⟨old, hold, hrule⟩
        exact sameRule_eq_false_iff.1 (hnone old hold) hrule
      rw [chances_append_self, chances_eq_empty hnew]
      refine ⟨Set.mem_insert _ _, ?_⟩
      rintro x (rfl | hx)
      · exact Binary32.le_refl_of_number hq
      · cases hx

end Production

/-! ## Calls -/

namespace GrammarBuilder

/-- What a builder can be asked for. -/
inductive Call (α : Type) where
  | nonterminal (name : String)
  | terminal (word : String)
  | binary (parent left right : String) (logProb : α)
  | unary (parent child : String) (logProb : α)
  | lexical (parent word : String) (logProb : α)
  /-- The production speaks of numbers that the builder has given. -/
  | push (p : Production α)

variable {α : Type}

namespace Call

/-- The log probability that is given, if a rule is. -/
def logProb? : Call α → Option α
  | nonterminal _ | terminal _ => none
  | binary _ _ _ x | unary _ _ x | lexical _ _ x => some x
  | push p => some p.logProb

/-- The production that is given, over the numbers that names have in the end. -/
def production? (nonterminals lexicon : Vocabulary) : Call α → Option (Production α)
  | nonterminal _ | terminal _ => none
  | binary parent left right x => do
    return ⟨← nonterminals.find? parent,
      .binary (← nonterminals.find? left) (← nonterminals.find? right), x⟩
  | unary parent child x => do
    return ⟨← nonterminals.find? parent, .unary (← nonterminals.find? child), x⟩
  | lexical parent word x => do
    return ⟨← nonterminals.find? parent, .lexical (← lexicon.find? word), x⟩
  | push p => some p

end Call

variable [Score α]

/-- The builder after a call. There is none if a production is pushed over numbers that were not given. -/
def call? (b : GrammarBuilder α) : Call α → Option (GrammarBuilder α)
  | .nonterminal name => some (b.nonterminal name).2
  | .terminal word => some (b.terminal word).2
  | .binary parent left right x => some (b.binary parent left right x)
  | .unary parent child x => some (b.unary parent child x)
  | .lexical parent word x => some (b.lexical parent word x)
  | .push p =>
    if h : p.InRange b.nonterminals.size b.lexicon.size then some (b.push p h) else none

/-- The builder after some calls. -/
def callAll? (b : GrammarBuilder α) (calls : List (Call α)) : Option (GrammarBuilder α) :=
  calls.foldlM call? b

/-! ### What a builder has taken -/

variable {b b' : GrammarBuilder α} {calls : List (Call α)} {c : Call α} {p : Production α}
  {v v' w w' : Vocabulary}

theorem find?_of_extends {name : String} {id : Nat} (h : v.Extends v')
    (hname : v.find? name = some id) : v'.find? name = some id :=
  Vocabulary.find?_eq_some_iff.2 (h id name (Vocabulary.find?_eq_some_iff.1 hname))

theorem find?_intern (v : Vocabulary) (name : String) :
    (v.intern name).2.find? name = some (v.intern name).1 :=
  Vocabulary.find?_eq_some_iff.2 (v.get?_intern name)

omit [Score α] in
/-- What has been given stays the same when names are added. -/
theorem Call.production?_of_extends (hv : v.Extends v') (hw : w.Extends w')
    (h : c.production? v w = some p) : c.production? v' w' = some p := by
  cases c with
  | nonterminal name => cases h
  | terminal word => cases h
  | push q => exact h
  | binary parent left right x =>
    simp only [production?, Option.pure_def, Option.bind_eq_bind, Option.bind_eq_some_iff] at h ⊢
    obtain ⟨A, hA, B, hB, C, hC, hp⟩ := h
    exact ⟨A, find?_of_extends hv hA, B, find?_of_extends hv hB, C, find?_of_extends hv hC, hp⟩
  | unary parent child x =>
    simp only [production?, Option.pure_def, Option.bind_eq_bind, Option.bind_eq_some_iff] at h ⊢
    obtain ⟨A, hA, B, hB, hp⟩ := h
    exact ⟨A, find?_of_extends hv hA, B, find?_of_extends hv hB, hp⟩
  | lexical parent word x =>
    simp only [production?, Option.pure_def, Option.bind_eq_bind, Option.bind_eq_some_iff] at h ⊢
    obtain ⟨A, hA, t, ht, hp⟩ := h
    exact ⟨A, find?_of_extends hv hA, t, find?_of_extends hw ht, hp⟩

omit [Score α] in
/-- A production has the log probability that is given with it. -/
theorem Call.logProb?_of_production? (h : c.production? v w = some p) :
    c.logProb? = some p.logProb := by
  cases c with
  | nonterminal name => cases h
  | terminal word => cases h
  | push q =>
    obtain rfl := Option.some.inj h
    rfl
  | binary parent left right x =>
    simp only [production?, Option.pure_def, Option.bind_eq_bind, Option.bind_eq_some_iff] at h
    obtain ⟨A, -, B, -, C, -, hp⟩ := h
    obtain rfl := Option.some.inj hp
    rfl
  | unary parent child x =>
    simp only [production?, Option.pure_def, Option.bind_eq_bind, Option.bind_eq_some_iff] at h
    obtain ⟨A, -, B, -, hp⟩ := h
    obtain rfl := Option.some.inj hp
    rfl
  | lexical parent word x =>
    simp only [production?, Option.pure_def, Option.bind_eq_bind, Option.bind_eq_some_iff] at h
    obtain ⟨A, -, t, -, hp⟩ := h
    obtain rfl := Option.some.inj hp
    rfl

/-- The productions of the builder are merged from those that were given, and none was lost. -/
structure Took (b : GrammarBuilder α) (calls : List (Call α)) : Prop where
  named : ∀ call ∈ calls, call.logProb?.isSome = true →
    (call.production? b.nonterminals b.lexicon).isSome = true
  productions_eq : b.productions =
    Production.merged (calls.filterMap (·.production? b.nonterminals b.lexicon))

theorem took_new (start : String) : (new start : GrammarBuilder α).Took [] where
  named _ hcall := by cases hcall
  productions_eq := rfl

omit [Score α] in
theorem Call.production?_eq_none (h : c.logProb? = none) : c.production? v w = none := by
  cases c with
  | nonterminal name => rfl
  | terminal word => rfl
  | binary | unary | lexical | push => cases h

/-- A builder with more names has taken the same. -/
theorem Took.of_extends (h : b.Took calls) (hproductions : b'.productions = b.productions)
    (hnonterminals : b.nonterminals.Extends b'.nonterminals)
    (hlexicon : b.lexicon.Extends b'.lexicon) : b'.Took calls := by
  have hsame : ∀ call ∈ calls, call.production? b.nonterminals b.lexicon =
      call.production? b'.nonterminals b'.lexicon := by
    intro call hcall
    cases hrule : call.logProb? with
    | none => rw [Call.production?_eq_none hrule, Call.production?_eq_none hrule]
    | some x =>
      obtain ⟨p, hp⟩ := Option.isSome_iff_exists.1 (h.named call hcall (by rw [hrule]; rfl))
      rw [hp, Call.production?_of_extends hnonterminals hlexicon hp]
  constructor
  · intro call hcall hrule
    rw [← hsame call hcall]
    exact h.named call hcall hrule
  · rw [hproductions, h.productions_eq, List.filterMap_congr hsame]

/-- A production that is inserted has been taken by the call that gives it. -/
theorem Took.insert (h : b.Took calls) (hproductions : b'.productions = p.insert b.productions)
    (hnonterminals : b'.nonterminals = b.nonterminals) (hlexicon : b'.lexicon = b.lexicon)
    (hcall : c.production? b.nonterminals b.lexicon = some p) : b'.Took (calls ++ [c]) := by
  constructor
  · intro c' hc hrule
    rw [hnonterminals, hlexicon]
    rcases List.mem_append.1 hc with hc | hc
    · exact h.named c' hc hrule
    · obtain rfl := List.mem_singleton.1 hc
      rw [hcall]
      rfl
  · rw [hproductions, hnonterminals, hlexicon, List.filterMap_append, List.filterMap_cons, hcall,
      List.filterMap_nil, Production.merged_append_singleton, ← h.productions_eq]

/-- A call that gives no production takes none. -/
theorem Took.skip (h : b.Took calls) (hcall : c.logProb? = none) : b.Took (calls ++ [c]) := by
  constructor
  · intro c' hc hrule
    rcases List.mem_append.1 hc with hc | hc
    · exact h.named c' hc hrule
    · rw [List.mem_singleton.1 hc, hcall] at hrule
      cases hrule
  · rw [List.filterMap_append, List.filterMap_cons, Call.production?_eq_none hcall,
      List.filterMap_nil, List.append_nil, ← h.productions_eq]

theorem Took.nonterminal (h : b.Took calls) (name : String) : (b.nonterminal name).2.Took calls :=
  h.of_extends rfl (Vocabulary.extends_intern _ _) fun _ _ h => h

theorem Took.terminal (h : b.Took calls) (word : String) : (b.terminal word).2.Took calls :=
  h.of_extends rfl (fun _ _ h => h) (Vocabulary.extends_intern _ _)

/-- A call takes the production that it gives. -/
theorem Took.call (h : b.Took calls) (hcall : b.call? c = some b') : b'.Took (calls ++ [c]) := by
  cases c with
  | nonterminal name =>
    obtain rfl := Option.some.inj hcall
    exact (h.nonterminal name).skip rfl
  | terminal word =>
    obtain rfl := Option.some.inj hcall
    exact (h.terminal word).skip rfl
  | binary parent left right x =>
    obtain rfl := Option.some.inj hcall
    have hy := Vocabulary.extends_intern (b.nonterminal parent).2.nonterminals left
    have hz := Vocabulary.extends_intern
      ((b.nonterminal parent).2.nonterminal left).2.nonterminals right
    refine (((h.nonterminal parent).nonterminal left).nonterminal right).insert rfl rfl rfl ?_
    have hparent := find?_of_extends (hy.trans hz) (find?_intern b.nonterminals parent)
    have hleft := find?_of_extends hz (find?_intern _ left)
    have hright := find?_intern ((b.nonterminal parent).2.nonterminal left).2.nonterminals right
    simp only [Call.production?, GrammarBuilder.nonterminal] at hparent hleft hright ⊢
    rw [hparent, hleft, hright]
    rfl
  | unary parent child x =>
    obtain rfl := Option.some.inj hcall
    have hy := Vocabulary.extends_intern (b.nonterminal parent).2.nonterminals child
    refine ((h.nonterminal parent).nonterminal child).insert rfl rfl rfl ?_
    have hparent := find?_of_extends hy (find?_intern b.nonterminals parent)
    have hchild := find?_intern (b.nonterminal parent).2.nonterminals child
    simp only [Call.production?, GrammarBuilder.nonterminal] at hparent hchild ⊢
    rw [hparent, hchild]
    rfl
  | lexical parent word x =>
    obtain rfl := Option.some.inj hcall
    refine ((h.nonterminal parent).terminal word).insert rfl rfl rfl ?_
    have hparent := find?_intern b.nonterminals parent
    have hword := find?_intern b.lexicon word
    simp only [Call.production?, GrammarBuilder.nonterminal, GrammarBuilder.terminal]
    rw [hparent, hword]
    rfl
  | push p =>
    simp only [call?] at hcall
    split at hcall
    · obtain rfl := Option.some.inj hcall
      exact h.insert rfl rfl rfl rfl
    · cases hcall

theorem Took.callAll (h : b.Took calls) {more : List (Call α)}
    (hcalls : b.callAll? more = some b') : b'.Took (calls ++ more) := by
  induction more generalizing b calls with
  | nil =>
    obtain rfl := Option.some.inj hcalls
    rwa [List.append_nil]
  | cons c rest ih =>
    rw [callAll?, List.foldlM_cons, Option.bind_eq_bind, Option.bind_eq_some_iff] at hcalls
    obtain ⟨next, hnext, hrest⟩ := hcalls
    have htook := ih (h.call hnext) hrest
    rwa [List.append_assoc] at htook

/-- What a call gives has a production. -/
theorem Took.exists_rule_eq (h : b.Took calls) (hc : c ∈ calls)
    (hp : c.production? b.nonterminals b.lexicon = some p) : ∃ q ∈ b.productions, q.rule = p.rule := by
  rw [← List.mem_map, h.productions_eq, Production.map_rule_merged, List.mem_eraseDups]
  exact List.mem_map_of_mem (List.mem_filterMap.2 ⟨c, hc, hp⟩)

/-! ## Grammars from calls -/

/-- Whatever calls lead to a grammar, its productions are the rules that were given, each once and in the order
of the first calls for them, with the greatest of the numbers that were given to each as log
probabilities; and the grammar finds exactly these. -/
theorem build_indexed {start : String} {calls : List (Call Float32)} {b : GrammarBuilder Float32}
    {g : Grammar Float32} (hcalls : (new start).callAll? calls = some b) (hbuild : b.build = .ok g)
    (hnumbers : ∀ c ∈ calls, ∀ x, c.logProb? = some x → x.isNaN = false) :
    (∀ c ∈ calls, c.logProb?.isSome = true →
      (c.production? g.symbols.nonterminals g.symbols.lexicon).isSome = true) ∧
    (g.productions.map (·.rule)).Nodup ∧
    g.productions.map (·.rule) =
      ((calls.filterMap (·.production? g.symbols.nonterminals g.symbols.lexicon)).map
        (·.rule)).eraseDups ∧
    (∀ p ∈ g.productions, IsGreatest (Production.chances
      (calls.filterMap (·.production? g.symbols.nonterminals g.symbols.lexicon)) p.rule)
        p.logProb) ∧
    g.Indexed := by
  obtain ⟨-, hnonterminals, hlexicon, hproductions⟩ := of_build hbuild
  have htook := (took_new start).callAll hcalls
  rw [List.nil_append] at htook
  have hmerged := htook.productions_eq
  have hnamed := htook.named
  rw [← hnonterminals, ← hlexicon] at hmerged hnamed
  rw [← hproductions] at hmerged
  refine ⟨hnamed, ?_, ?_, ?_, g.indexed⟩
  · refine List.pairwise_map.2 (g.distinct.imp fun {p q} hne => ?_)
    exact Production.sameRule_eq_false_iff.1 hne
  · rw [hmerged, Production.map_rule_merged]
  · intro p hp
    rw [hmerged] at hp
    refine Production.isGreatest_of_mem_merged (fun q hq => ?_) hp
    obtain ⟨c, hc, hq⟩ := List.mem_filterMap.1 hq
    exact hnumbers c hc q.logProb (Call.logProb?_of_production? hq)

/-- One rule with two log probabilities. -/
theorem build_indexed_twice :
    let calls : List (Call Float32) := [.lexical "S" "a" (-2), .lexical "S" "a" (-1)]
    ∃ b g, (new "S").callAll? calls = some b ∧ b.build = .ok g ∧
      (∀ c ∈ calls, ∀ x, c.logProb? = some x → x.isNaN = false) ∧
      g.productions ≠ [] ∧
      (∀ p ∈ g.productions, IsGreatest (Production.chances
        (calls.filterMap (·.production? g.symbols.nonterminals g.symbols.lexicon)) p.rule)
          p.logProb) ∧
      g.Indexed := by
  intro calls
  let b : GrammarBuilder Float32 := ((new "S").lexical "S" "a" (-2)).lexical "S" "a" (-1)
  have hcalls : (new "S").callAll? calls = some b := rfl
  have htook := (took_new "S").callAll hcalls
  have hfirst : (Call.lexical "S" "a" (-2) : Call Float32) ∈ calls := List.mem_cons_self
  obtain ⟨p, hp⟩ := Option.isSome_iff_exists.1 (htook.named _ hfirst rfl)
  obtain ⟨q, hq, hrule⟩ := htook.exists_rule_eq hfirst hp
  -- the start symbol keeps the number that it got first
  have hstart : b.nonterminals.find? "S" = some 0 := by
    have hzero := find?_intern .empty "S"
    rw [Vocabulary.fst_intern_empty] at hzero
    exact find?_of_extends ((Vocabulary.extends_intern _ _).trans (Vocabulary.extends_intern _ _))
      hzero
  have hparent : q.parent = 0 := by
    simp only [Call.production?, hstart, Option.pure_def, Option.bind_eq_bind, Option.bind_some,
      Option.bind_eq_some_iff] at hp
    obtain ⟨t, -, hp⟩ := hp
    obtain rfl := Option.some.inj hp
    exact congrArg Prod.fst hrule
  have hfew : b.nonterminals.size ≤ ChildCode.capacity := by
    have hnew : (new "S" : GrammarBuilder Float32).nonterminals.size ≤ 1 :=
      Vocabulary.size_intern_le .empty "S"
    have hsecond := Vocabulary.size_intern_le (new "S" : GrammarBuilder Float32).nonterminals "S"
    have hthird := Vocabulary.size_intern_le
      ((new "S" : GrammarBuilder Float32).nonterminals.intern "S").2 "S"
    have hcapacity : 3 ≤ ChildCode.capacity := by decide
    exact Nat.le_trans hthird (Nat.le_trans (Nat.succ_le_succ (Nat.le_trans hsecond
      (Nat.succ_le_succ hnew))) hcapacity)
  obtain ⟨g, hg⟩ := exists_build hq hparent hfew
  have hnumbers : ∀ c ∈ calls, ∀ x, c.logProb? = some x → x.isNaN = false := by
    intro c hc x hx
    rcases List.mem_cons.1 hc with rfl | hc
    · obtain rfl := Option.some.inj hx
      decide
    · obtain rfl := List.mem_singleton.1 hc
      obtain rfl := Option.some.inj hx
      decide
  obtain ⟨-, -, -, hgreatest, hindexed⟩ := build_indexed hcalls hg hnumbers
  refine ⟨b, g, hcalls, hg, hnumbers, ?_, hgreatest, hindexed⟩
  rw [(of_build hg).2.2.2]
  exact List.ne_nil_of_mem hq

end GrammarBuilder

end Constituency
