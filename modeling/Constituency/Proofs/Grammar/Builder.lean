import Constituency.Grammar.Builder
import Mathlib.Data.List.Basic

/-!
# What a builder keeps of the rules it takes

A builder numbers the names of the rules that it is given. A name keeps its number, so that each production
spells one rule in names, and no two productions spell the same one. The productions are the
rules that were given, and a rule that was given more than once has its best log probability
(`GrammarBuilder.Holds`).
-/

namespace Constituency

/-! ## Numbers of names -/

namespace Vocabulary

variable {v w x : Vocabulary} {id : Nat} {name other : String}

/-- The names of one vocabulary have the same numbers in another one. -/
def Extends (v w : Vocabulary) : Prop :=
  ∀ id name, v.get? id = some name → w.get? id = some name

theorem Extends.trans (h : v.Extends w) (h' : w.Extends x) : v.Extends x :=
  fun id name hname => h' id name (h id name hname)

theorem get?_eq_some_of_lt (h : id < v.size) : v.get? id = some (v.name id) := by
  rw [get?, name, Array.getElem?_eq_getElem h, Array.getD_eq_getD_getElem?,
    Array.getElem?_eq_getElem h, Option.getD_some]

theorem name_eq_of_get? (h : v.get? id = some name) : v.name id = name := by
  rw [Vocabulary.name, Array.getD_eq_getD_getElem?, show v.names[id]? = some name from h,
    Option.getD_some]

theorem lt_size_of_get? (h : v.get? id = some name) : id < v.size :=
  lt_size_of_find? (find?_eq_some_iff.2 h)

/-- A name has one number. -/
theorem id_eq_of_get? {id' : Nat} (h : v.get? id = some name) (h' : v.get? id' = some name) :
    id = id' :=
  Option.some.inj ((find?_eq_some_iff.2 h).symm.trans (find?_eq_some_iff.2 h'))

/-- What is numbered keeps its number when a vocabulary grows, and nothing else gets it. -/
theorem Extends.get?_iff (h : v.Extends w) (hid : id < v.size) :
    w.get? id = some name ↔ v.get? id = some name := by
  refine ⟨fun hname => ?_, h id name⟩
  have hold := get?_eq_some_of_lt hid
  rw [hold, ← hname, h id _ hold]

theorem extends_intern (v : Vocabulary) (name : String) : v.Extends (v.intern name).2 := by
  intro id other hother
  unfold intern
  split
  · exact hother
  · show (v.names.push name)[id]? = some other
    rw [Array.getElem?_push_lt (lt_size_of_get? hother)]
    exact (Array.getElem?_eq_getElem (lt_size_of_get? hother)).symm.trans hother

theorem get?_intern (v : Vocabulary) (name : String) :
    (v.intern name).2.get? (v.intern name).1 = some name := by
  unfold intern
  split
  · next hfound => exact find?_eq_some_iff.1 hfound
  · show (v.names.push name)[v.names.size]? = some name
    rw [Array.getElem?_push_size]

theorem size_intern_le (v : Vocabulary) (name : String) : (v.intern name).2.size ≤ v.size + 1 := by
  unfold intern
  split
  · exact Nat.le_succ _
  · exact Nat.le_of_eq (Array.size_push _)

theorem fst_intern_empty (name : String) : (empty.intern name).1 = 0 := by
  unfold intern
  split
  · next hfound => exact absurd (lt_size_of_find? hfound) (Nat.not_lt_zero _)
  · rfl

end Vocabulary

/-! ## Rules in names -/

/-- The right-hand side of a rule in binary form, in names. -/
inductive NamedChildren where
  | binary (left right : String)
  | unary (child : String)
  | lexical (word : String)
deriving DecidableEq

/-- A rule in binary form, in names. -/
structure NamedRule (α : Type) where
  parent : String
  children : NamedChildren
  logProb : α

namespace NamedRule

variable {α : Type} [Score α]

/-- The log probability that is left of those of one rule: the best one. -/
def merge : List α → Option α
  | [] => none
  | x :: rest => some (rest.foldl Score.best x)

/-- The log probabilities that some rules give to a right-hand side. -/
def chances (rules : List (NamedRule α)) (parent : String) (children : NamedChildren) : List α :=
  (rules.filter fun r => r.parent == parent && r.children == children).map (·.logProb)

theorem merge_append_singleton (xs : List α) (y : α) :
    merge (xs ++ [y]) = some ((merge xs).elim y (Score.best · y)) := by
  cases xs with
  | nil => rfl
  | cons x rest => simp [merge]

/-- Equal log probabilities stay what they are. -/
theorem merge_eq_some_iff_of_forall_eq {xs : List α} {x y : α} (h : ∀ z ∈ xs, z = x) :
    merge xs = some y ↔ xs ≠ [] ∧ y = x := by
  have hbest : Score.best x x = x := by
    unfold Score.best
    split_ifs <;> rfl
  have hfoldl : ∀ rest : List α, (∀ z ∈ rest, z = x) → rest.foldl Score.best x = x := by
    intro rest hrest
    induction rest with
    | nil => rfl
    | cons z rest ih =>
      rw [List.foldl_cons, hrest z List.mem_cons_self, hbest]
      exact ih fun z hz => hrest z (List.mem_cons_of_mem _ hz)
  cases xs with
  | nil => simp [merge]
  | cons z rest =>
    obtain rfl := h z List.mem_cons_self
    rw [merge, hfoldl rest fun z hz => h z (List.mem_cons_of_mem _ hz), Option.some.injEq, eq_comm]
    exact (and_iff_right (List.cons_ne_nil _ _)).symm

omit [Score α]

theorem chances_append (rules more : List (NamedRule α)) (parent : String)
    (children : NamedChildren) :
    chances (rules ++ more) parent children =
      chances rules parent children ++ chances more parent children := by
  rw [chances, List.filter_append, List.map_append, chances, chances]

theorem chances_singleton (r : NamedRule α) (parent : String) (children : NamedChildren) :
    chances [r] parent children =
      if r.parent = parent ∧ r.children = children then [r.logProb] else [] := by
  rw [chances, List.filter_cons, List.filter_nil]
  split_ifs with hsame h h <;> simp_all

theorem mem_chances {rules : List (NamedRule α)} {parent : String} {children : NamedChildren}
    {x : α} : x ∈ chances rules parent children ↔
      ∃ r ∈ rules, r.parent = parent ∧ r.children = children ∧ r.logProb = x := by
  simp [chances, and_assoc]

end NamedRule

/-! ## Productions that spell rules -/

/-- The right-hand side, in numbers and in names. -/
def Children.Spells (nonterminals lexicon : Vocabulary) : Children → NamedChildren → Prop
  | .binary left right, .binary left' right' =>
    nonterminals.get? left = some left' ∧ nonterminals.get? right = some right'
  | .unary child, .unary child' => nonterminals.get? child = some child'
  | .lexical word, .lexical word' => lexicon.get? word = some word'
  | _, _ => False

/-- The production is the rule, in numbers. -/
def Production.Spells {α : Type} (nonterminals lexicon : Vocabulary) (p : Production α)
    (parent : String) (children : NamedChildren) : Prop :=
  nonterminals.get? p.parent = some parent ∧ p.children.Spells nonterminals lexicon children

section Spells

variable {α : Type} {v v' w w' : Vocabulary} {p q : Production α} {c c' : Children}
  {parent parent' : String} {children children' : NamedChildren}

theorem Children.Spells.children_eq (h : c.Spells v w children) (h' : c'.Spells v w children) :
    c = c' := by
  cases c <;> cases c' <;> cases children <;> first | exact h.elim | exact h'.elim | skip
  · rw [Vocabulary.id_eq_of_get? h.1 h'.1, Vocabulary.id_eq_of_get? h.2 h'.2]
  · rw [Vocabulary.id_eq_of_get? h h']
  · rw [Vocabulary.id_eq_of_get? h h']

theorem Children.Spells.exists_lexical {word : String} (h : c.Spells v w (.lexical word)) :
    ∃ t, c = .lexical t ∧ w.get? t = some word := by
  cases c with
  | lexical t => exact ⟨t, rfl, h⟩
  | binary | unary => exact h.elim

theorem Children.Spells.named_eq (h : c.Spells v w children) (h' : c.Spells v w children') :
    children = children' := by
  cases c <;> cases children <;> cases children' <;> first | exact h.elim | exact h'.elim | skip
  · rw [Option.some.inj (h.1.symm.trans h'.1), Option.some.inj (h.2.symm.trans h'.2)]
  · rw [Option.some.inj (h.symm.trans h')]
  · rw [Option.some.inj (h.symm.trans h')]

theorem Children.spells_iff_of_extends (hv : v.Extends v') (hw : w.Extends w')
    (hc : c.InRange v.size w.size) : c.Spells v' w' children ↔ c.Spells v w children := by
  cases c <;> cases children <;> try exact Iff.rfl
  · exact and_congr (hv.get?_iff hc.1) (hv.get?_iff hc.2)
  · exact hv.get?_iff hc
  · exact hw.get?_iff hc

theorem Production.Spells.sameRule (h : p.Spells v w parent children)
    (h' : q.Spells v w parent children) : p.sameRule q = true :=
  sameRule_iff.2 ⟨Vocabulary.id_eq_of_get? h.1 h'.1, h.2.children_eq h'.2⟩

theorem Production.Spells.of_sameRule (h : p.Spells v w parent children)
    (hq : q.sameRule p = true) : q.Spells v w parent children := by
  obtain ⟨hparent, hchildren⟩ := sameRule_iff.1 hq
  rw [Spells, hparent, hchildren]
  exact h

theorem Production.Spells.named_eq (h : p.Spells v w parent children)
    (h' : p.Spells v w parent' children') : parent = parent' ∧ children = children' :=
  ⟨Option.some.inj (h.1.symm.trans h'.1), h.2.named_eq h'.2⟩

theorem Production.Spells.inRange (h : p.Spells v w parent children) :
    p.InRange v.size w.size := by
  refine ⟨Vocabulary.lt_size_of_get? h.1, ?_⟩
  have hchildren := h.2
  cases hc : p.children <;> rw [hc] at hchildren <;> cases children <;>
    first | exact hchildren.elim | skip
  · exact ⟨Vocabulary.lt_size_of_get? hchildren.1, Vocabulary.lt_size_of_get? hchildren.2⟩
  · exact Vocabulary.lt_size_of_get? (show v.get? _ = some _ from hchildren)
  · exact Vocabulary.lt_size_of_get? (show w.get? _ = some _ from hchildren)

end Spells

/-- What a list has once a production is inserted: the productions of other rules, and the production,
with the best of its log probabilities if its rule was there. -/
theorem Production.mem_insert {α : Type} [Score α] {p q : Production α} {ps : List (Production α)} :
    q ∈ p.insert ps ↔ (q ∈ ps ∧ q.sameRule p = false) ∨
      (∃ old ∈ ps, old.sameRule p = true ∧
        q = { old with logProb := Score.best old.logProb p.logProb }) ∨
      (∀ old ∈ ps, old.sameRule p = false) ∧ q = p := by
  unfold Production.insert
  split_ifs with hany
  · have hnot : ¬ ∀ old ∈ ps, old.sameRule p = false := by
      obtain ⟨old, hold, hsame⟩ := List.any_eq_true.1 hany
      intro hnone
      rw [hnone old hold] at hsame
      cases hsame
    rw [List.mem_map]
    constructor
    · rintro ⟨old, hold, rfl⟩
      split_ifs with hsame
      · exact .inr (.inl ⟨old, hold, hsame, rfl⟩)
      · exact .inl ⟨hold, Bool.eq_false_iff.2 hsame⟩
    · rintro (⟨hq, hother⟩ | ⟨old, hold, hsame, rfl⟩ | ⟨hnone, -⟩)
      · exact ⟨q, hq, by rw [hother, if_neg Bool.false_ne_true]⟩
      · exact ⟨old, hold, if_pos hsame⟩
      · exact absurd hnone hnot
  · have hnone : ∀ old ∈ ps, old.sameRule p = false := by
      intro old hold
      apply Bool.eq_false_iff.2
      intro hsame
      exact hany (List.any_eq_true.2 ⟨old, hold, hsame⟩)
    rw [List.mem_append, List.mem_singleton]
    constructor
    · rintro (hq | rfl)
      · exact .inl ⟨hq, hnone q hq⟩
      · exact .inr (.inr ⟨hnone, rfl⟩)
    · rintro (⟨hq, -⟩ | ⟨old, hold, hsame, -⟩ | ⟨-, rfl⟩)
      · exact .inl hq
      · rw [hnone old hold] at hsame
        cases hsame
      · exact .inr rfl

section Insert

variable {α : Type} [Score α] {v w : Vocabulary} {p : Production α} {ps : List (Production α)}
  {parent parent' : String} {children children' : NamedChildren} {x : α}

/-- To insert a production changes nothing about other rules. -/
theorem Production.exists_insert_of_ne (hp : p.Spells v w parent' children')
    (hne : ¬ (parent' = parent ∧ children' = children)) :
    (∃ q ∈ p.insert ps, q.Spells v w parent children ∧ q.logProb = x) ↔
      ∃ q ∈ ps, q.Spells v w parent children ∧ q.logProb = x := by
  have hother : ∀ q : Production α, q.Spells v w parent children → q.sameRule p = false := by
    intro q hq
    apply Bool.eq_false_iff.2
    intro hrule
    exact hne ((hp.of_sameRule hrule).named_eq hq)
  constructor
  · rintro ⟨q, hq, hqs, rfl⟩
    rcases mem_insert.1 hq with ⟨hq, -⟩ | ⟨old, hold, hsame, rfl⟩ | ⟨-, rfl⟩
    · exact ⟨q, hq, hqs, rfl⟩
    · have hfalse := hother old hqs
      rw [hsame] at hfalse
      cases hfalse
    · exact absurd (hp.named_eq hqs) hne
  · rintro ⟨q, hq, hqs, rfl⟩
    exact ⟨q, mem_insert.2 (.inl ⟨hq, hother q hqs⟩), hqs, rfl⟩

/-- The rule of an inserted production has its log probability, or the better one of that and the one it
had. -/
theorem Production.exists_insert_self (hp : p.Spells v w parent children) {found : Option α}
    (hfound : ∀ y, found = some y ↔ ∃ q ∈ ps, q.Spells v w parent children ∧ q.logProb = y) :
    (∃ q ∈ p.insert ps, q.Spells v w parent children ∧ q.logProb = x) ↔
      found.elim p.logProb (Score.best · p.logProb) = x := by
  cases found with
  | none =>
    have hnone : ∀ q ∈ ps, ¬ q.Spells v w parent children := by
      intro q hq hqs
      cases (hfound _).2 ⟨q, hq, hqs, rfl⟩
    constructor
    · rintro ⟨q, hq, hqs, rfl⟩
      rcases mem_insert.1 hq with ⟨hq, -⟩ | ⟨old, hold, hsame, -⟩ | ⟨-, rfl⟩
      · exact absurd hqs (hnone q hq)
      · exact absurd (hp.of_sameRule hsame) (hnone old hold)
      · rfl
    · rintro rfl
      refine ⟨p, mem_insert.2 (.inr (.inr ⟨fun q hq => ?_, rfl⟩)), hp, rfl⟩
      apply Bool.eq_false_iff.2
      intro hsame
      exact hnone q hq (hp.of_sameRule hsame)
  | some y =>
    obtain ⟨old, hold, hspelled, rfl⟩ := (hfound y).1 rfl
    have hrule := hspelled.sameRule hp
    rw [Option.elim_some]
    constructor
    · rintro ⟨q, hq, hqs, rfl⟩
      rcases mem_insert.1 hq with ⟨-, hother⟩ | ⟨other, hother, hsame, rfl⟩ | ⟨hnone, -⟩
      · rw [hqs.sameRule hp] at hother
        cases hother
      · have heq := (hfound _).2 ⟨other, hother, hp.of_sameRule hsame, rfl⟩
        rw [Option.some.inj heq]
      · rw [hnone old hold] at hrule
        cases hrule
    · rintro rfl
      exact ⟨_, mem_insert.2 (.inr (.inl ⟨old, hold, hrule, rfl⟩)), hspelled, rfl⟩

end Insert

/-! ## Builders -/

namespace GrammarBuilder

variable {α : Type} [Score α] {b : GrammarBuilder α} {rules : List (NamedRule α)}
  {r : NamedRule α} {p : Production α} {g : Grammar α}

/-- The productions are some rules, each with the best of its log probabilities. -/
def Holds (b : GrammarBuilder α) (rules : List (NamedRule α)) : Prop :=
  ∀ parent children x, NamedRule.merge (NamedRule.chances rules parent children) = some x ↔
    ∃ p ∈ b.productions, p.Spells b.nonterminals b.lexicon parent children ∧ p.logProb = x

theorem holds_new (start : String) : (new start : GrammarBuilder α).Holds [] := by
  intro parent children x
  simp [new, NamedRule.chances, NamedRule.merge]

/-- A builder with more names holds the same rules. -/
theorem Holds.of_extends (h : b.Holds rules) (b' : GrammarBuilder α)
    (hproductions : b'.productions = b.productions)
    (hnonterminals : b.nonterminals.Extends b'.nonterminals)
    (hlexicon : b.lexicon.Extends b'.lexicon) : b'.Holds rules := by
  intro parent children x
  rw [h parent children x, hproductions]
  refine exists_congr fun q => and_congr_right fun hq => and_congr_left' ?_
  obtain ⟨hparent, hchildren⟩ := b.inRange q hq
  exact (and_congr (hnonterminals.get?_iff hparent)
    (Children.spells_iff_of_extends hnonterminals hlexicon hchildren)).symm

/-- To add a production adds the rule that it spells. -/
theorem Holds.push (h : b.Holds rules)
    (hspells : p.Spells b.nonterminals b.lexicon r.parent r.children)
    (hlogProb : p.logProb = r.logProb) : (b.push p hspells.inRange).Holds (rules ++ [r]) := by
  intro parent children x
  show _ ↔ ∃ q ∈ p.insert b.productions, q.Spells b.nonterminals b.lexicon parent children ∧
    q.logProb = x
  rw [NamedRule.chances_append, NamedRule.chances_singleton]
  by_cases hsame : r.parent = parent ∧ r.children = children
  · obtain ⟨rfl, rfl⟩ := hsame
    rw [if_pos ⟨rfl, rfl⟩, NamedRule.merge_append_singleton, Option.some.injEq, ← hlogProb,
      Production.exists_insert_self hspells (h r.parent r.children)]
  · rw [if_neg hsame, List.append_nil, h parent children x,
      Production.exists_insert_of_ne hspells hsame]

/-- Adds a rule in names. -/
def add (b : GrammarBuilder α) (r : NamedRule α) : GrammarBuilder α :=
  match r.children with
  | .binary left right => b.binary r.parent left right r.logProb
  | .unary child => b.unary r.parent child r.logProb
  | .lexical word => b.lexical r.parent word r.logProb

theorem nonterminals_add (b : GrammarBuilder α) (r : NamedRule α) :
    b.nonterminals.Extends (b.add r).nonterminals := by
  unfold add
  split
  · exact ((Vocabulary.extends_intern _ _).trans (Vocabulary.extends_intern _ _)).trans
      (Vocabulary.extends_intern _ _)
  · exact (Vocabulary.extends_intern _ _).trans (Vocabulary.extends_intern _ _)
  · exact Vocabulary.extends_intern _ _

theorem Holds.add (h : b.Holds rules) (r : NamedRule α) : (b.add r).Holds (rules ++ [r]) := by
  unfold GrammarBuilder.add
  split
  · next left right hchildren =>
    have hx := Vocabulary.extends_intern b.nonterminals r.parent
    have hy := Vocabulary.extends_intern (b.nonterminal r.parent).2.nonterminals left
    have hz := Vocabulary.extends_intern
      ((b.nonterminal r.parent).2.nonterminal left).2.nonterminals right
    refine (h.of_extends (((b.nonterminal r.parent).2.nonterminal left).2.nonterminal right).2
      rfl ((hx.trans hy).trans hz) fun _ _ h => h).push ⟨?_, ?_⟩ rfl
    · exact (hy.trans hz) _ _ (Vocabulary.get?_intern b.nonterminals r.parent)
    · rw [hchildren]
      exact ⟨hz _ _ (Vocabulary.get?_intern ..), Vocabulary.get?_intern ..⟩
  · next child hchildren =>
    have hx := Vocabulary.extends_intern b.nonterminals r.parent
    have hy := Vocabulary.extends_intern (b.nonterminal r.parent).2.nonterminals child
    refine (h.of_extends ((b.nonterminal r.parent).2.nonterminal child).2 rfl (hx.trans hy)
      fun _ _ h => h).push ⟨?_, ?_⟩ rfl
    · exact hy _ _ (Vocabulary.get?_intern b.nonterminals r.parent)
    · rw [hchildren]
      exact Vocabulary.get?_intern ..
  · next word hchildren =>
    refine (h.of_extends ((b.nonterminal r.parent).2.terminal word).2 rfl
      (Vocabulary.extends_intern _ _) (Vocabulary.extends_intern _ _)).push ⟨?_, ?_⟩ rfl
    · exact Vocabulary.get?_intern b.nonterminals r.parent
    · rw [hchildren]
      exact Vocabulary.get?_intern ..

theorem Holds.foldl_add (h : b.Holds rules) (more : List (NamedRule α)) :
    (more.foldl GrammarBuilder.add b).Holds (rules ++ more) := by
  induction more generalizing b rules with
  | nil => rwa [List.append_nil]
  | cons r rest ih =>
    have hrest := ih (h.add r)
    rwa [List.append_assoc] at hrest

theorem nonterminals_foldl_add (b : GrammarBuilder α) (rules : List (NamedRule α)) :
    b.nonterminals.Extends (rules.foldl add b).nonterminals := by
  induction rules generalizing b with
  | nil => exact fun _ _ h => h
  | cons r rest ih => exact (b.nonterminals_add r).trans (ih _)

/-- The start symbol has the first number. -/
theorem get?_start (start : String) (rules : List (NamedRule α)) :
    (rules.foldl add (new start : GrammarBuilder α)).nonterminals.get? 0 = some start := by
  have hfirst := Vocabulary.get?_intern .empty start
  rw [Vocabulary.fst_intern_empty] at hfirst
  exact nonterminals_foldl_add _ rules 0 start hfirst

/-! ## Grammars that are built -/

omit [Score α] in
theorem of_build (h : b.build = .ok g) :
    g.start = 0 ∧ g.symbols.nonterminals = b.nonterminals ∧ g.symbols.lexicon = b.lexicon ∧
      g.productions = b.productions := by
  unfold build at h
  split_ifs at h
  split at h
  · cases h
  · obtain rfl := Except.ok.inj h
    exact ⟨rfl, rfl, rfl, rfl⟩

omit [Score α] in
/-- A builder gives a grammar if the start symbol has a rule and the symbols are not too many. -/
theorem exists_build (hp : p ∈ b.productions) (hparent : p.parent = 0)
    (hsize : b.nonterminals.size ≤ ChildCode.capacity) : ∃ g, b.build = .ok g := by
  have hshift : ChildCode.shiftFor b.nonterminals.size ≤ ChildCode.maxShift := by
    unfold ChildCode.shiftFor
    split_ifs with hfew
    · decide
    · have hlog : (b.nonterminals.size - 1).log2 < ChildCode.maxShift := by
        rw [Nat.log2_lt (by omega)]
        have : ChildCode.capacity = 2 ^ ChildCode.maxShift := by decide
        omega
      exact hlog
  have hcode : ChildCode.forSymbols? b.nonterminals.size ≠ none := by
    simp [ChildCode.forSymbols?, hshift]
  unfold build
  rw [if_neg, if_neg]
  · split
    · next hnone => exact absurd hnone hcode
    · exact ⟨_, rfl⟩
  · intro hall
    have hne := List.all_eq_true.1 hall p hp
    rw [hparent] at hne
    cases hne
  · intro hnil
    rw [List.isEmpty_iff.1 hnil] at hp
    cases hp

theorem size_add_le (b : GrammarBuilder α) (r : NamedRule α) :
    (b.add r).nonterminals.size ≤ b.nonterminals.size + 3 := by
  have hparent := Vocabulary.size_intern_le b.nonterminals r.parent
  unfold add
  split
  · next left right _ =>
    have hleft := Vocabulary.size_intern_le (b.nonterminal r.parent).2.nonterminals left
    have hright := Vocabulary.size_intern_le
      ((b.nonterminal r.parent).2.nonterminal left).2.nonterminals right
    exact Nat.le_trans hright
      (Nat.succ_le_succ (Nat.le_trans hleft (Nat.succ_le_succ hparent)))
  · next child _ =>
    have hchild := Vocabulary.size_intern_le (b.nonterminal r.parent).2.nonterminals child
    exact Nat.le_succ_of_le (Nat.le_trans hchild (Nat.succ_le_succ hparent))
  · exact Nat.le_succ_of_le (Nat.le_succ_of_le hparent)

theorem size_foldl_add_le (b : GrammarBuilder α) (rules : List (NamedRule α)) :
    (rules.foldl add b).nonterminals.size ≤ b.nonterminals.size + 3 * rules.length := by
  induction rules generalizing b with
  | nil => exact Nat.le_refl _
  | cons r rest ih =>
    have hrest := ih (b.add r)
    have hadd := b.size_add_le r
    rw [List.foldl_cons, List.length_cons]
    omega

end GrammarBuilder

end Constituency
