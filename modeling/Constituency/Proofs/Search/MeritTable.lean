import Mathlib
import Constituency.Proofs.Decode.RuleTable
import Constituency.Proofs.Decode.UnknownWords
import Constituency.Proofs.Decode.Yield
import Constituency.Proofs.Grammar.Chain
import Constituency.Proofs.Score.Bottom

/-!
# Offers to a merit table

A merit table takes the derivations that it is offered in any order and with any merits. A unary
derivation is refused if its child is derived by a unary rule at that moment, but the child may come to be
derived by one later on, and then unary stands upon unary. Main statement: as long as no symbol is offered
as its own child, the unary backpointers of a span never run in circles all the same, the kept derivations
are those with a possible score, and each has a tree with the words of the sentence
(`offerAll_sound`). The last offer that was taken on a circle would have met a child that is derived by a
unary rule already (`RuleTable.acyclic_of_link`). The guard overlooks a symbol that is its own child, and
then there is no tree (`loop_has_no_tree`).

Of the scores only this much is asked that what lies above another score is possible, so that merits in
single precision may be anything, no numbers included.
-/

namespace Constituency

namespace MeritTable

variable {α : Type} {t t' : MeritTable α} {i j k l : Nat} {A B C : NonTerminal} {b : Backpointer}

/-- The derivation kept of the first symbol begins with a unary rule to the second one. -/
def Link (t : MeritTable α) (i j : Nat) (A B : NonTerminal) : Prop :=
  t.backpointer? i j A = some (.unary B)

/-- A derivation of a symbol is kept. -/
def Has (t : MeritTable α) (i j : Nat) (A : NonTerminal) : Prop :=
  (t.backpointer? i j A).isSome = true

/-- The children of a backpointer have derivations. -/
def Built (t : MeritTable α) (i j : Nat) : Backpointer → Prop
  | .lexical _ => j = i + 1
  | .unary child => t.Has i j child
  | .binary left right m => (i < m ∧ m < j) ∧ t.Has i m left ∧ t.Has m j right

theorem Built.mono (hkept : ∀ k l B, t.Has k l B → t'.Has k l B) (h : t.Built i j b) :
    t'.Built i j b := by
  cases b with
  | lexical => exact h
  | unary child => exact hkept i j child h
  | binary left right m => exact ⟨h.1, hkept _ _ _ h.2.1, hkept _ _ _ h.2.2⟩

theorem has_iff_exists_find? : t.Has i j A ↔ ∃ e, t.find? i j A = some e := by
  rw [Has, backpointer?, Option.isSome_map, Option.isSome_iff_exists]

theorem Has.bounds (h : t.Has i j A) : i < j ∧ j ≤ t.cells.size ∧ A < t.numNonterminals :=
  (has_iff_exists_find?.1 h).elim fun _ he => StrideTable.bounds he

/-! ## Offers -/

/-- An offer of a derivation. -/
structure Offer (α : Type) where
  start : Nat
  stop : Nat
  nonterminal : NonTerminal
  merit : α
  backpointer : Backpointer

/-- A word is offered over a span of one word, and parts that meet inside of the span. -/
def Offer.Placed (o : Offer α) : Prop :=
  match o.backpointer with
  | .lexical _ => o.stop = o.start + 1
  | .unary _ => True
  | .binary _ _ m => o.start < m ∧ m < o.stop

/-- The symbol is offered as its own child. -/
def Offer.Loops (o : Offer α) : Prop :=
  o.backpointer = .unary o.nonterminal

variable [Score α]

/-- The table after an offer. -/
def offer (t : MeritTable α) (o : Offer α) : MeritTable α :=
  (t.update o.start o.stop o.nonterminal o.merit o.backpointer).2

/-- The table after some offers. -/
def offerAll (t : MeritTable α) (offers : List (Offer α)) : MeritTable α :=
  offers.foldl offer t

variable {o : Offer α} {offers : List (Offer α)}

@[simp] theorem size_offer : (t.offer o).cells.size = t.cells.size := by
  unfold offer update
  split
  · rfl
  · split
    · exact StrideTable.size_set ..
    · rfl

/-- An offer that is taken is worth more than what was kept before. -/
theorem find?_offer (t : MeritTable α) (o : Offer α) (k l : Nat) (B : NonTerminal) :
    (t.offer o).find? k l B = t.find? k l B ∨
      ((k = o.start ∧ l = o.stop) ∧ B = o.nonterminal) ∧ ∃ x,
        t.worth? o.start o.stop o.merit o.backpointer = some x ∧
        t.score o.start o.stop o.nonterminal < x ∧
        (t.offer o).find? k l B = some ⟨x, o.backpointer⟩ := by
  unfold offer update
  split
  · exact .inl rfl
  · next x hworth =>
    split
    · next hlt =>
      simp only [find?]
      by_cases hcov : o.start < o.stop ∧ o.stop ≤ t.cells.size
      · rw [StrideTable.find?_set hcov.1 hcov.2]
        split
        · next hhere => exact .inr ⟨⟨hhere.1, hhere.2.1⟩, x, hworth, hlt, rfl⟩
        · exact .inl rfl
      · exact .inl (by rw [StrideTable.set_of_not_covers fun h => hcov h.1])
    · exact .inl rfl

theorem Has.offer (h : t.Has k l B) (o : Offer α) : (t.offer o).Has k l B := by
  rw [has_iff_exists_find?] at h ⊢
  rcases find?_offer t o k l B with heq | ⟨-, x, -, -, heq⟩
  · rwa [heq]
  · exact ⟨_, heq⟩

/-- A table whose derivations can be followed. -/
structure Sound (t : MeritTable α) : Prop where
  possible : ∀ i j A e, t.find? i j A = some e → Score.impossible < e.score
  built : ∀ i j A b, t.backpointer? i j A = some b → t.Built i j b
  acyclic : ∀ i j A, ¬ Relation.TransGen (t.Link i j) A A

theorem sound_empty (size n : Nat) (summing : Bool) :
    (empty size n summing : MeritTable α).Sound where
  possible _ _ _ _ he := by rw [find?_empty] at he; cases he
  built _ _ _ _ hb := by rw [backpointer?, find?_empty] at hb; cases hb
  acyclic _ _ _ hcircle := by
    obtain ⟨_, hlink, -⟩ := Relation.TransGen.head'_iff.1 hcircle
    rw [Link, backpointer?, find?_empty] at hlink
    cases hlink

namespace Sound

variable [RisingScore α]

/-- A symbol is worth something exactly if a derivation of it is kept. -/
theorem has_iff (h : t.Sound) : t.Has i j A ↔ Score.impossible < t.score i j A := by
  rw [has_iff_exists_find?, score]
  cases hfind : t.find? i j A with
  | none => simpa using BottomScore.not_impossible_lt
  | some e => simpa using h.possible i j A e hfind

/-- What is worth something has been built. -/
theorem built_of_worth? (hplaced : o.Placed) {x : α}
    (hx : t.worth? o.start o.stop o.merit o.backpointer = some x) :
    t.Built o.start o.stop o.backpointer := by
  have hscore : ∀ {k l B}, (t.score k l B == Score.impossible) = false → t.Has k l B := by
    intro k l B hB
    rw [has_iff_exists_find?]
    cases hfind : t.find? k l B with
    | none =>
      rw [score, hfind, RisingScore.impossible_beq] at hB
      cases hB
    | some e => exact ⟨e, rfl⟩
  unfold Offer.Placed at hplaced
  cases hb : o.backpointer with
  | lexical => rwa [hb] at hplaced
  | unary child =>
    rw [hb, worth?] at hx
    cases hfind : t.find? o.start o.stop child with
    | none => rw [hfind] at hx; cases hx
    | some e => exact has_iff_exists_find?.2 ⟨e, hfind⟩
  | binary left right m =>
    simp only [hb, worth?, Option.ite_none_left_eq_some, Bool.or_eq_true, not_or,
      Bool.not_eq_true] at hx hplaced
    exact ⟨hplaced, hscore hx.1.1, hscore hx.1.2⟩

omit [RisingScore α] in
/-- No unary derivation is worth anything whose child is derived by a unary rule. -/
theorem not_link_of_worth? {x : α}
    (hx : t.worth? o.start o.stop o.merit o.backpointer = some x) (hb : o.backpointer = .unary B) :
    ¬ t.Link o.start o.stop B C := by
  intro hlink
  obtain ⟨e, he, heb⟩ := Option.map_eq_some_iff.1 hlink
  simp [hb, worth?, he, heb, Backpointer.isUnary] at hx

/-- One offer keeps a table sound. -/
theorem offer (h : t.Sound) (hplaced : o.Placed) (hloops : ¬ o.Loops) : (t.offer o).Sound where
  possible k l B e he := by
    rcases find?_offer t o k l B with heq | ⟨-, x, -, hlt, heq⟩
    · exact h.possible k l B e (heq ▸ he)
    · obtain rfl := Option.some.inj (heq.symm.trans he)
      exact RisingScore.impossible_lt_of_lt hlt
  built k l B b hb := by
    refine Built.mono (fun _ _ _ hC => hC.offer o) ?_
    rcases find?_offer t o k l B with heq | ⟨⟨⟨rfl, rfl⟩, -⟩, x, hworth, -, heq⟩
    · refine h.built k l B b ?_
      rwa [backpointer?, heq] at hb
    · rw [backpointer?, heq] at hb
      obtain rfl := Option.some.inj hb
      exact built_of_worth? hplaced hworth
  acyclic k l A hcircle := by
    -- either the offer is not taken in this cell, or its child starts no unary rule yet
    by_cases hnew : ∃ x, t.worth? k l o.merit o.backpointer = some x ∧ k = o.start ∧ l = o.stop
    · obtain ⟨x, hworth, rfl, rfl⟩ := hnew
      refine RuleTable.acyclic_of_link (X := o.nonterminal) (b := o.backpointer)
        (h.acyclic o.start o.stop) (fun B C hlink => ?_) (fun C hb => ⟨?_, fun D => ?_⟩) A hcircle
      · rw [Link, backpointer?] at hlink
        rcases find?_offer t o o.start o.stop B with heq | ⟨⟨-, rfl⟩, x, -, -, heq⟩
        · rw [heq] at hlink
          exact .inl hlink
        · rw [heq] at hlink
          exact .inr ⟨rfl, Option.some.inj hlink⟩
      · rintro rfl
        exact hloops hb
      · exact not_link_of_worth? hworth hb
    · refine h.acyclic k l A (hcircle.lift id fun B C hlink => ?_)
      rw [Link, backpointer?] at hlink
      rcases find?_offer t o k l B with heq | ⟨⟨⟨rfl, rfl⟩, -⟩, x, hworth, -⟩
      · rwa [heq] at hlink
      · exact absurd ⟨x, hworth, rfl, rfl⟩ hnew

theorem offerAll (h : t.Sound) (hplaced : ∀ o ∈ offers, o.Placed)
    (hloops : ∀ o ∈ offers, ¬ o.Loops) : (t.offerAll offers).Sound := by
  induction offers generalizing t with
  | nil => exact h
  | cons o rest ih =>
    exact ih (h.offer (hplaced o List.mem_cons_self) (hloops o List.mem_cons_self))
      (fun o' ho' => hplaced o' (List.mem_cons_of_mem _ ho'))
      fun o' ho' => hloops o' (List.mem_cons_of_mem _ ho')

omit [RisingScore α] in
/-- Backpointers of a sound table lead downwards. -/
theorem ranked (h : t.Sound) (symbols : SymbolTable) {words : List String}
    (hwords : words.length = t.cells.size) :
    (t.backpointers symbols words).Ranked fun i j => depthBelow t.numNonterminals (t.Link i j) where
  rank_le _ _ _ := Nat.le_succ_of_le depthBelow_le
  lexical i j A word hb := by
    have hbounds := Has.bounds (A := A) (Option.isSome_iff_exists.2 ⟨_, hb⟩)
    refine ⟨h.built i j A _ hb, ?_⟩
    show i < words.length
    omega
  unary i j A child hb :=
    have hchild : t.Has i j child := h.built i j A _ hb
    ⟨hchild, depthBelow_lt_of_link (h.acyclic i j) hb hchild.bounds.2.2⟩
  binary i j A left right m hb := by
    obtain ⟨hm, hleft, hright⟩ := h.built i j A _ hb
    exact ⟨hm.1, hm.2, hleft, hright⟩

omit [RisingScore α] in
/-- A tree is read off exactly if a derivation of the whole sentence is kept. -/
theorem isSome_tree?_iff (h : t.Sound) (symbols : SymbolTable) {words : List String}
    (hwords : words.length = t.cells.size) (root : NonTerminal) :
    (t.tree? symbols words root).isSome = true ↔ t.Has 0 t.cells.size root := by
  constructor
  · intro hsome
    rw [Has, ← Option.not_isNone, Bool.not_eq_true', Option.isNone_eq_false_iff,
      Option.isSome_iff_ne_none]
    intro hnone
    rw [tree?_eq_none hnone] at hsome
    cases hsome
  · intro hroot
    have hsize : (t.cells.size == 0) = false := beq_eq_false_iff_ne.2 hroot.bounds.1.ne'
    have hranked := h.ranked symbols hwords
    rw [tree?, hsize]
    exact hranked.isSome_follow 0 _ root hroot _ (hranked.rank_le _ _ _)

omit [RisingScore α] in
/-- The leaves of a tree are the words in order. -/
theorem leaves_eq (h : t.Sound) (symbols : SymbolTable) {words : List String}
    (hwords : words.length = t.cells.size) {root : NonTerminal} {tree : Tree}
    (htree : t.tree? symbols words root = some tree) : tree.leaves = words := by
  unfold tree? at htree
  split at htree
  · cases htree
  · refine Tree.Covers.leaves_eq (hwords ▸ (Backpointers.covers_follow ?_ htree).1)
    intro i j A b hb
    have hbuilt := h.built i j A b hb
    cases b with
    | lexical => exact hbuilt
    | unary | binary => trivial

end Sound

variable [RisingScore α]

/-- Whatever derivations a table is offered, but for those of a symbol as its own child: a symbol has a
backpointer exactly if its score is possible, unary backpointers never lead back to a symbol, and a tree
is read off exactly if the symbol has a backpointer over the whole sentence, with the words as its
leaves. -/
theorem offerAll_sound (symbols : SymbolTable) (words : List String) (n : Nat) (summing : Bool)
    (hplaced : ∀ o ∈ offers, o.Placed) (hloops : ∀ o ∈ offers, ¬ o.Loops) :
    let t := (empty words.length n summing : MeritTable α).offerAll offers
    (∀ i j A, (t.backpointer? i j A).isSome = true ↔ Score.impossible < t.score i j A) ∧
      (∀ i j A, ¬ Relation.TransGen (t.Link i j) A A) ∧
      ∀ root, ((t.tree? symbols words root).isSome = true ↔
          (t.backpointer? 0 words.length root).isSome = true) ∧
        ∀ tree, t.tree? symbols words root = some tree → tree.leaves = words := by
  intro t
  have ht : t.Sound := (sound_empty words.length n summing).offerAll hplaced hloops
  have hsize : t.cells.size = words.length := by
    have hfold : ∀ (offers : List (Offer α)) (t : MeritTable α),
        (t.offerAll offers).cells.size = t.cells.size := by
      intro offers
      induction offers with
      | nil => exact fun _ => rfl
      | cons o rest ih => exact fun t => (ih (t.offer o)).trans size_offer
    exact hfold offers _
  refine ⟨fun i j A => ht.has_iff, ht.acyclic, fun root => ⟨?_, fun tree => ?_⟩⟩
  · rw [← hsize]
    exact ht.isSome_tree?_iff symbols hsize.symm root
  · exact ht.leaves_eq symbols hsize.symm

/-- `S` is built above `A` while that is a word, and then `A` is built above `B`. -/
def lateChain : List (Offer (WithBot ℤ)) :=
  [⟨0, 1, 1, (-3 : ℤ), .lexical 0⟩, ⟨0, 1, 0, (-1 : ℤ), .unary 1⟩,
    ⟨0, 1, 2, (-1 : ℤ), .lexical 0⟩, ⟨0, 1, 1, (-1 : ℤ), .unary 2⟩]

/-- Two unary derivations come to stand upon each other, and there is a tree. -/
theorem lateChain_sound :
    (∀ o ∈ lateChain, o.Placed) ∧ (∀ o ∈ lateChain, ¬ o.Loops) ∧
      let t := (empty ["b"].length 3 false : MeritTable (WithBot ℤ)).offerAll lateChain
      (t.Link 0 1 0 1 ∧ t.Link 0 1 1 2) ∧ ¬ Relation.TransGen (t.Link 0 1) 0 0 ∧
        ((t.backpointer? 0 1 0).isSome = true ↔ Score.impossible < t.score 0 1 0) ∧
        ∃ tree, t.tree? Chain.symbols ["b"] 0 = some tree ∧ tree.leaves = ["b"] := by
  have hplaced : ∀ o ∈ lateChain, o.Placed := by simp [lateChain, Offer.Placed]
  have hloops : ∀ o ∈ lateChain, ¬ o.Loops := by simp [lateChain, Offer.Loops]
  have hlinks : ((empty ["b"].length 3 false : MeritTable (WithBot ℤ)).offerAll
      lateChain).backpointer? 0 1 0 = some (.unary 1) ∧
      ((empty ["b"].length 3 false : MeritTable (WithBot ℤ)).offerAll
        lateChain).backpointer? 0 1 1 = some (.unary 2) := by decide +kernel
  obtain ⟨hscore, hacyclic, htree⟩ :=
    offerAll_sound Chain.symbols ["b"] 3 false hplaced hloops
  refine ⟨hplaced, hloops, hlinks, hacyclic 0 1 0, hscore 0 1 0, ?_⟩
  obtain ⟨tree, htree'⟩ := Option.isSome_iff_exists.1
    ((htree 0).1.2 (Option.isSome_iff_exists.2 ⟨_, hlinks.1⟩))
  exact ⟨tree, htree', (htree 0).2 tree htree'⟩

/-- `S` is a word, and then it is offered above itself with a merit that is a gain. -/
def loop : List (Offer (WithBot ℤ)) :=
  [⟨0, 1, 0, (-1 : ℤ), .lexical 0⟩, ⟨0, 1, 0, (2 : ℤ), .unary 0⟩]

/-- A symbol that has become its own child keeps its backpointer and loses its tree. -/
theorem loop_has_no_tree :
    (∀ o ∈ loop, o.Placed) ∧
      let t := (empty ["b"].length 3 false : MeritTable (WithBot ℤ)).offerAll loop
      (t.backpointer? 0 1 0).isSome = true ∧ Relation.TransGen (t.Link 0 1) 0 0 ∧
        t.tree? Chain.symbols ["b"] 0 = none := by
  have hlink : ((empty ["b"].length 3 false : MeritTable (WithBot ℤ)).offerAll
      loop).backpointer? 0 1 0 = some (.unary 0) := by decide +kernel
  refine ⟨by simp [loop, Offer.Placed], Option.isSome_iff_exists.2 ⟨_, hlink⟩, .single hlink, ?_⟩
  have hsize : ((empty ["b"].length 3 false : MeritTable (WithBot ℤ)).offerAll loop).cells.size = 1 := by
    decide +kernel
  rw [tree?, hsize]
  exact Backpointers.follow_eq_none_of_loop hlink _

end MeritTable

end Constituency
