import Constituency.Proofs.Chart.Backpointers
import Constituency.Proofs.Chart.Slots
import Constituency.Proofs.Grammar.Chain

/-!
# Trees from any table

Backpointers are followed to a tree in any table in which those of two children split their span, and to
follow them ends whatever else they say: each call is about a shorter span or has fewer unary steps left
(`wellFounded_calls`). There is a tree just if nothing that they lead to is missing and no chain of unary
ones runs in a circle (`isSome_tree?_iff`). A chain that does not is shorter than the number of symbols, and
so the bound on unary steps does not matter as soon as it is that high (`tree?_allowing`).
-/

namespace Constituency

namespace Backpointers

open Relation (ReflTransGen TransGen)

/-- A symbol over a span. -/
structure Place where
  start : Nat
  stop : Nat
  nt : NonTerminal

variable {b : Backpointers} {p q root : Place} {n k bound : Nat} {child left right : NonTerminal}
  {midpoint : Nat}

/-! ## Steps -/

/-- The backpointer at a place. -/
def at? (b : Backpointers) (p : Place) : Option Backpointer := b.find? p.start p.stop p.nt

/-- The tree below a place. -/
def below? (b : Backpointers) (p : Place) (n : Nat) : Option Tree := b.follow p.start p.stop p.nt n

/-- A unary backpointer leads to its child. -/
def Link (b : Backpointers) (p q : Place) : Prop :=
  ∃ child, b.at? p = some (.unary child) ∧ q = ⟨p.start, p.stop, child⟩

/-- The backpointer of two children leads to each of them. -/
def Branches (b : Backpointers) (p q : Place) : Prop :=
  ∃ left right midpoint, b.at? p = some (.binary left right midpoint) ∧
    (q = ⟨p.start, midpoint, left⟩ ∨ q = ⟨midpoint, p.stop, right⟩)

/-- A backpointer leads to its children. -/
def Leads (b : Backpointers) (p q : Place) : Prop := b.Link p q ∨ b.Branches p q

/-- To follow a backpointer with so many unary steps left is to follow those of its children: one unary
step less is left for a single child, and all of them are left for one of two. -/
def Calls (b : Backpointers) (caller callee : Place × Nat) : Prop :=
  (b.Link caller.1 callee.1 ∧ caller.2 = callee.2 + 1) ∨
    (b.Branches caller.1 callee.1 ∧ callee.2 = b.maxUnaries)

/-- Backpointers of two children split their span. -/
def Splits (b : Backpointers) : Prop :=
  ∀ p left right midpoint, b.at? p = some (.binary left right midpoint) →
    p.start < midpoint ∧ midpoint < p.stop

/-- Each call is about a shorter span, or about the same one with fewer unary steps left. -/
theorem wellFounded_calls (h : b.Splits) :
    WellFounded fun callee caller => b.Calls caller callee := by
  refine Subrelation.wf (r := InvImage (Prod.Lex (· < ·) (· < ·)) fun x : Place × Nat =>
    (x.1.stop - x.1.start, x.2)) ?_ (InvImage.wf _ (WellFoundedRelation.wf))
  rintro ⟨q, k⟩ ⟨p, n⟩ (⟨⟨child, -, hq⟩, hn⟩ | ⟨⟨left, right, midpoint, hp, hq⟩, -⟩)
  · dsimp only at hq hn
    subst hq hn
    exact Prod.Lex.right _ (Nat.lt_succ_self k)
  · obtain ⟨hl, hr⟩ := h p left right midpoint hp
    refine Prod.Lex.left _ _ ?_
    rcases hq with rfl | rfl
    · exact Nat.sub_lt_sub_right (Nat.le_of_lt hl) hr
    · exact Nat.sub_lt_sub_left (Nat.lt_trans hl hr) hl

/-- One step of following backpointers, which leaves the next ones to `recurse`. -/
def step (b : Backpointers) (recurse : Place → Nat → Option Tree) (p : Place) (n : Nat) :
    Option Tree :=
  match b.at? p with
  | none => none
  | some (.lexical _) => b.words[p.start]?.map fun word => .join (b.name p.nt) [.leaf word p.start]
  | some (.unary child) =>
    match n with
    | 0 => none
    | n + 1 => (recurse ⟨p.start, p.stop, child⟩ n).map fun tree => .join (b.name p.nt) [tree]
  | some (.binary left right midpoint) => do
    let leftTree ← recurse ⟨p.start, midpoint, left⟩ b.maxUnaries
    let rightTree ← recurse ⟨midpoint, p.stop, right⟩ b.maxUnaries
    return .join (b.name p.nt) [leftTree, rightTree]

/-- What is not called does not matter. -/
theorem step_congr {f g : Place → Nat → Option Tree}
    (h : ∀ q k, b.Calls (p, n) (q, k) → f q k = g q k) : b.step f p n = b.step g p n := by
  rw [step, step]
  split
  · rfl
  · rfl
  · next child hp =>
    cases n with
    | zero => rfl
    | succ n => simp only [h _ n (.inl ⟨⟨child, hp, rfl⟩, rfl⟩)]
  · next left right midpoint hp =>
    rw [h _ _ (.inr ⟨⟨left, right, midpoint, hp, .inl rfl⟩, rfl⟩),
      h _ _ (.inr ⟨⟨left, right, midpoint, hp, .inr rfl⟩, rfl⟩)]

/-- In a table that splits spans there is nothing to guard against. -/
theorem below?_eq_step (h : b.Splits) (p : Place) (n : Nat) :
    b.below? p n = b.step b.below? p n := by
  rw [below?, follow.eq_def, step]
  have hat : b.find? p.start p.stop p.nt = b.at? p := rfl
  rw [hat]
  cases hp : b.at? p with
  | none => rfl
  | some backpointer =>
    cases backpointer with
    | lexical word => rfl
    | unary child => cases n <;> rfl
    | binary left right midpoint =>
      dsimp only
      rw [dif_pos (h p left right midpoint hp)]
      simp only [below?]
      cases b.follow p.start midpoint left b.maxUnaries with
      | none => rfl
      | some leftTree => cases b.follow midpoint p.stop right b.maxUnaries <;> rfl

/-- There is one way only to follow backpointers. -/
theorem eq_below? (h : b.Splits) {f : Place → Nat → Option Tree}
    (hf : ∀ p n, f p n = b.step f p n) (p : Place) (n : Nat) : f p n = b.below? p n := by
  suffices ∀ x : Place × Nat, f x.1 x.2 = b.below? x.1 x.2 from this (p, n)
  intro x
  induction x using (wellFounded_calls h).induction with
  | _ x ih =>
    rw [hf, below?_eq_step h]
    exact step_congr fun q k hcall => ih (q, k) hcall

/-! ## What a tree needs -/

/-- Nothing is missing where backpointers lead to, and no unary ones run in a circle. -/
structure Intact (b : Backpointers) (root : Place) : Prop where
  entry : ∀ p, ReflTransGen b.Leads root p → (b.at? p).isSome = true
  word : ∀ p word, ReflTransGen b.Leads root p → b.at? p = some (.lexical word) →
    p.start < b.words.length
  acyclic : ∀ p, ReflTransGen b.Leads root p → ¬ TransGen b.Link p p

section Found

variable (h : b.Splits)

include h

theorem isSome_at?_of_isSome_below? (hp : (b.below? p n).isSome = true) :
    (b.at? p).isSome = true := by
  rw [below?_eq_step h, step] at hp
  cases hat : b.at? p with
  | none => simp [hat] at hp
  | some => rfl

theorem lt_length_of_isSome_below? {word : Terminal} (hat : b.at? p = some (.lexical word))
    (hp : (b.below? p n).isSome = true) : p.start < b.words.length := by
  rw [below?_eq_step h, step, hat, Option.isSome_map] at hp
  exact (List.getElem?_eq_some_iff.1 (Option.isSome_iff_exists.1 hp).choose_spec).1

/-- A single child has a tree with fewer unary steps. -/
theorem exists_of_link (hlink : b.Link p q) (hp : (b.below? p n).isSome = true) :
    ∃ k < n, (b.below? q k).isSome = true := by
  obtain ⟨child, hat, rfl⟩ := hlink
  rw [below?_eq_step h, step, hat] at hp
  cases n with
  | zero => cases hp
  | succ n => exact ⟨n, Nat.lt_succ_self n, by rwa [Option.isSome_map] at hp⟩

theorem exists_of_branches (hbranches : b.Branches p q) (hp : (b.below? p n).isSome = true) :
    ∃ k, (b.below? q k).isSome = true := by
  obtain ⟨left, right, midpoint, hat, hq⟩ := hbranches
  refine ⟨b.maxUnaries, ?_⟩
  rw [below?_eq_step h, step, hat] at hp
  obtain ⟨tree, htree⟩ := Option.isSome_iff_exists.1 hp
  simp only [Option.bind_eq_bind, Option.bind_eq_some_iff] at htree
  obtain ⟨leftTree, hleft, rightTree, hright, -⟩ := htree
  rcases hq with rfl | rfl
  · exact Option.isSome_iff_exists.2 ⟨leftTree, hleft⟩
  · exact Option.isSome_iff_exists.2 ⟨rightTree, hright⟩

theorem exists_of_reached (hq : ReflTransGen b.Leads p q) (hp : (b.below? p n).isSome = true) :
    ∃ k, (b.below? q k).isSome = true := by
  induction hq with
  | refl => exact ⟨n, hp⟩
  | tail _ hlast ih =>
    obtain ⟨k, hk⟩ := ih
    rcases hlast with hlink | hbranches
    · obtain ⟨l, -, hl⟩ := exists_of_link h hlink hk
      exact ⟨l, hl⟩
    · exact exists_of_branches h hbranches hk

theorem exists_of_links (hq : TransGen b.Link p q) (hp : (b.below? p n).isSome = true) :
    ∃ k < n, (b.below? q k).isSome = true := by
  induction hq with
  | single hlink => exact exists_of_link h hlink hp
  | tail _ hlink ih =>
    obtain ⟨k, hk, hmiddle⟩ := ih
    obtain ⟨l, hl, hlast⟩ := exists_of_link h hlink hmiddle
    exact ⟨l, Nat.lt_trans hl hk, hlast⟩

/-- A circle would use up unary steps without end. -/
theorem not_links_of_isSome_below? (hp : (b.below? p n).isSome = true) : ¬ TransGen b.Link p p := by
  intro hcircle
  induction n using Nat.strongRecOn with
  | _ n ih =>
    obtain ⟨k, hk, hagain⟩ := exists_of_links h hcircle hp
    exact ih k hk hagain

/-- Where there is a tree, nothing is missing. -/
theorem intact_of_isSome_below? (hroot : (b.below? root n).isSome = true) : b.Intact root where
  entry p hp := by
    obtain ⟨k, hk⟩ := exists_of_reached h hp hroot
    exact isSome_at?_of_isSome_below? h hk
  word p word hp hat := by
    obtain ⟨k, hk⟩ := exists_of_reached h hp hroot
    exact lt_length_of_isSome_below? h hat hk
  acyclic p hp := by
    obtain ⟨k, hk⟩ := exists_of_reached h hp hroot
    exact not_links_of_isSome_below? h hk

end Found

/-! ## What is enough for a tree -/

/-- The number of symbols that unary backpointers lead to from a place. -/
noncomputable def depth (b : Backpointers) (root : Place) (bound : Nat) (p : Place) : Nat :=
  depthBelow bound (fun A B => ReflTransGen b.Leads root ⟨p.start, p.stop, A⟩ ∧
    b.Link ⟨p.start, p.stop, A⟩ ⟨p.start, p.stop, B⟩) p.nt

theorem depth_lt_of_link (hintact : b.Intact root) (hp : ReflTransGen b.Leads root p)
    (hlink : b.Link p q) (hq : q.nt < bound) : b.depth root bound q < b.depth root bound p := by
  obtain ⟨child, hat, rfl⟩ := hlink
  refine depthBelow_lt_of_link (fun A hA => ?_) ⟨hp, child, hat, rfl⟩ hq
  have hreached := (Relation.TransGen.head'_iff.1 hA).choose_spec.1.1
  exact hintact.acyclic _ hreached 
    (TransGen.lift (Place.mk p.start p.stop) (fun _ _ h => h.2) A A hA)

/-- Nothing else is needed for a tree if enough unary steps are left. -/
theorem isSome_below?_of_intact (h : b.Splits) (hsymbols : ∀ p, (b.at? p).isSome = true → p.nt < bound)
    (hbound : bound ≤ b.maxUnaries) (hintact : b.Intact root) (hp : ReflTransGen b.Leads root p)
    (hn : b.depth root bound p ≤ n) : (b.below? p n).isSome = true := by
  suffices ∀ x : Place × Nat, ReflTransGen b.Leads root x.1 → b.depth root bound x.1 ≤ x.2 →
      (b.below? x.1 x.2).isSome = true from this (p, n) hp hn
  intro x
  induction x using (wellFounded_calls h).induction with
  | _ x ih =>
    obtain ⟨p, n⟩ := x
    intro hp hn
    obtain ⟨backpointer, hat⟩ := Option.isSome_iff_exists.1 (hintact.entry p hp)
    rw [below?_eq_step h, step, hat]
    cases backpointer with
    | lexical word =>
      rw [Option.isSome_map, List.getElem?_eq_getElem (hintact.word p word hp hat)]
      rfl
    | unary child =>
      have hlink : b.Link p ⟨p.start, p.stop, child⟩ := ⟨child, hat, rfl⟩
      have hchild := hp.tail (.inl hlink)
      have hlt := depth_lt_of_link hintact hp hlink (hsymbols _ (hintact.entry _ hchild))
      obtain ⟨n, rfl⟩ := Nat.exists_eq_add_one.2 (Nat.lt_of_le_of_lt (Nat.zero_le _) (Nat.lt_of_lt_of_le hlt hn))
      rw [Option.isSome_map]
      exact ih (_, n) (.inl ⟨hlink, rfl⟩) hchild (Nat.le_of_lt_succ (Nat.lt_of_lt_of_le hlt hn))
    | binary left right midpoint =>
      have hfound : ∀ q, b.Branches p q → (b.below? q b.maxUnaries).isSome = true := fun q hq =>
        ih (q, _) (.inr ⟨hq, rfl⟩) (hp.tail (.inr hq)) (Nat.le_trans depthBelow_le hbound)
      obtain ⟨leftTree, hleft⟩ :=
        Option.isSome_iff_exists.1 (hfound _ ⟨left, right, midpoint, hat, .inl rfl⟩)
      obtain ⟨rightTree, hright⟩ :=
        Option.isSome_iff_exists.1 (hfound _ ⟨left, right, midpoint, hat, .inr rfl⟩)
      simp only [hleft, hright]
      rfl

/-- A table whose symbols lie below the number of unary steps has a tree just where it is intact. -/
theorem isSome_below?_iff (h : b.Splits) (hsymbols : ∀ p, (b.at? p).isSome = true → p.nt < bound)
    (hbound : bound ≤ b.maxUnaries) (root : Place) :
    (b.below? root b.maxUnaries).isSome = true ↔ b.Intact root :=
  ⟨intact_of_isSome_below? h, fun hintact =>
    isSome_below?_of_intact h hsymbols hbound hintact .refl (Nat.le_trans depthBelow_le hbound)⟩

/-! ## More unary steps -/

/-- The table with another bound on unary steps. -/
def allowing (b : Backpointers) (maxUnaries : Nat) : Backpointers := { b with maxUnaries }

/-- A tree is found again with more steps. -/
theorem below?_allowing (h : b.Splits) (hk : b.maxUnaries ≤ k) {tree : Tree}
    (htree : b.below? p n = some tree) {l : Nat} (hl : n ≤ l) :
    (b.allowing k).below? p l = some tree := by
  suffices ∀ (x : Place × Nat) tree l, b.below? x.1 x.2 = some tree → x.2 ≤ l →
      (b.allowing k).below? x.1 l = some tree from this (p, n) tree l htree hl
  intro x
  induction x using (wellFounded_calls h).induction with
  | _ x ih =>
    obtain ⟨p, n⟩ := x
    intro tree l htree hl
    have hsame : (b.allowing k).at? p = b.at? p := rfl
    have h' : (b.allowing k).Splits := h
    rw [below?_eq_step h, step] at htree
    rw [below?_eq_step h', step, hsame]
    cases hat : b.at? p with
    | none =>
      rw [hat] at htree
      cases htree
    | some backpointer =>
      rw [hat] at htree
      cases backpointer with
      | lexical word => exact htree
      | unary child =>
        cases n with
        | zero => cases htree
        | succ n =>
          obtain ⟨l, rfl⟩ := Nat.exists_eq_add_one.2 (Nat.lt_of_lt_of_le n.succ_pos hl)
          obtain ⟨childTree, hchild, rfl⟩ := Option.map_eq_some_iff.1 htree
          have hmore := ih (_, n) (.inl ⟨⟨child, hat, rfl⟩, rfl⟩) childTree l hchild
            (Nat.le_of_succ_le_succ hl)
          exact Option.map_eq_some_iff.2 ⟨childTree, hmore, rfl⟩
      | binary left right midpoint =>
        simp only [Option.bind_eq_bind, Option.bind_eq_some_iff] at htree ⊢
        obtain ⟨leftTree, hleft, rightTree, hright, heq⟩ := htree
        exact ⟨leftTree,
          ih (_, _) (.inr ⟨⟨left, right, midpoint, hat, .inl rfl⟩, rfl⟩) leftTree k hleft hk,
          rightTree,
          ih (_, _) (.inr ⟨⟨left, right, midpoint, hat, .inr rfl⟩, rfl⟩) rightTree k hright hk, heq⟩

/-- A chain without repetition never needs more steps than there are symbols. -/
theorem below?_allowing_eq (h : b.Splits) (hsymbols : ∀ p, (b.at? p).isSome = true → p.nt < bound)
    (hbound : bound ≤ b.maxUnaries) (hk : b.maxUnaries ≤ k) (root : Place) :
    (b.allowing k).below? root k = b.below? root b.maxUnaries := by
  cases htree : b.below? root b.maxUnaries with
  | some tree => exact below?_allowing h hk htree hk
  | none =>
    have h' : (b.allowing k).Splits := h
    rw [← Option.isNone_iff_eq_none, ← Option.not_isSome, Bool.not_eq_true', Bool.eq_false_iff]
    intro hmore
    -- what a tree needs does not depend on the number of steps
    have hintact : b.Intact root :=
      have hintact' := intact_of_isSome_below? h' hmore
      ⟨hintact'.entry, hintact'.word, hintact'.acyclic⟩
    have hsome := (isSome_below?_iff h hsymbols hbound root).2 hintact
    rw [htree] at hsome
    cases hsome

end Backpointers

/-! ## Charts -/

namespace Chart

open Backpointers (Place)

variable {α : Type} [Score α] {c : Chart α} {symbols : SymbolTable} {words : List String}
  {root : NonTerminal}

/-- The backpointers of two children split their span. -/
def Splits (c : Chart α) : Prop :=
  ∀ i j A e left right midpoint, c.get? i j A = some e →
    e.backpointer = .binary left right midpoint → i < midpoint ∧ midpoint < j

omit [Score α] in
theorem Splits.backpointers (h : c.Splits) (symbols : SymbolTable) (words : List String) :
    (c.backpointers symbols words).Splits := by
  intro p left right midpoint hp
  obtain ⟨e, he, hback⟩ := Option.map_eq_some_iff.1 hp
  exact h _ _ _ e left right midpoint he hback

/-- To follow the backpointers of any chart ends, as long as those of two children split their span: no call
leads to others without end, and there is one way only to follow them. A tree of the whole sentence is found
just if the symbol has a score for it and nothing is missing or in a circle where its backpointers lead to.
With a higher bound on unary steps the same tree is found. -/
theorem viterbiTree?_spec (c : Chart α) (symbols : SymbolTable) (words : List String)
    (root : NonTerminal) (hsplits : c.Splits)
    (hsymbols : ∀ i j A, (c.get? i j A).isSome = true → A < c.numNonterminals) :
    (WellFounded fun callee caller => (c.backpointers symbols words).Calls caller callee) ∧
      (∀ f : Place → Nat → Option Tree,
        (∀ p n, f p n = (c.backpointers symbols words).step f p n) →
          f = (c.backpointers symbols words).below?) ∧
      ((c.viterbiTree? symbols words root).isSome = true ↔
        (0 < c.size ∧ Score.impossible < c.inside 0 c.size root) ∧
          (c.backpointers symbols words).Intact ⟨0, c.size, root⟩) ∧
      ∀ k, c.numNonterminals < k →
        ((c.backpointers symbols words).allowing k).tree? 0 c.size root =
          (c.backpointers symbols words).tree? 0 c.size root := by
  have h := hsplits.backpointers symbols words
  have hsymbols' : ∀ p, ((c.backpointers symbols words).at? p).isSome = true →
      p.nt < c.numNonterminals := by
    intro p hp
    rw [Backpointers.at?, Chart.backpointers, Option.isSome_map] at hp
    exact hsymbols _ _ _ hp
  have hbound : c.numNonterminals ≤ (c.backpointers symbols words).maxUnaries := Nat.le_succ _
  refine ⟨Backpointers.wellFounded_calls h, fun f hf => ?_, ?_, fun k hk => ?_⟩
  · funext p n
    exact Backpointers.eq_below? h hf p n
  · have hparse : c.hasParse root = true ↔
        0 < c.size ∧ Score.impossible < c.inside 0 c.size root := by
      rw [hasParse, Bool.and_eq_true, decide_eq_true_iff, decide_eq_true_iff]
    have htree : ((c.backpointers symbols words).tree? 0 c.size root).isSome = true ↔
        (c.backpointers symbols words).Intact ⟨0, c.size, root⟩ :=
      Backpointers.isSome_below?_iff h hsymbols' hbound ⟨0, c.size, root⟩
    rw [← hparse, ← htree, viterbiTree?]
    split
    · next hp => rw [hp, eq_self, true_and]
    · next hp => exact iff_of_false Bool.false_ne_true fun hboth => hp hboth.1
  · exact Backpointers.below?_allowing_eq h hsymbols' hbound hk ⟨0, c.size, root⟩

/-! ## A chart with loose ends -/

/-- Two words with a tree from `S`. Over both of them `A` lacks its left child, and the right child of `B`
is `S` over the second word, where `S` and `A` lead to each other. -/
def tangled : Chart (WithBot ℤ) :=
  [(0, 1, ⟨2, 0, .lexical 0⟩), (0, 1, ⟨1, 0, .unary 2⟩), (1, 2, ⟨2, 0, .lexical 0⟩),
    (1, 2, ⟨0, 0, .unary 1⟩), (1, 2, ⟨1, 0, .unary 0⟩), (0, 2, ⟨0, 0, .binary 1 2 1⟩),
    (0, 2, ⟨1, 0, .binary 0 2 1⟩), (0, 2, ⟨2, 0, .binary 2 0 1⟩)].foldl
    (fun c (start, stop, e) => (c.update start stop e).2) (slots (.empty 2 (Chain.grammar 0 0 0)))

/-- The table of `tangled`. -/
def tangledTable : Backpointers := tangled.backpointers Chain.symbols ["b", "b"]

omit [Score α] in
theorem covers_of_isSome_get? {c : SlotChart α} {i j : Nat} {A : NonTerminal}
    (h : ((slots c).get? i j A).isSome = true) : i < j ∧ j ≤ c.size ∧ A < c.numNonterminals := by
  rw [get?, SlotChart.get?, SlotChart.slot?] at h
  split at h
  · next hcov =>
    obtain ⟨⟨hij, hj⟩, hA⟩ := SlotChart.covers_iff.1 hcov
    exact ⟨hij, hj, hA⟩
  · cases h

theorem isSome_get?_tangled {i j : Nat} {A : NonTerminal} (h : (tangled.get? i j A).isSome = true) :
    i < j ∧ j ≤ 2 ∧ A < 3 := by
  obtain ⟨c, hc, hsize, hsymbols⟩ : ∃ c, tangled = slots c ∧ c.size = 2 ∧ c.numNonterminals = 3 :=
    ⟨_, rfl, by decide +kernel, by decide +kernel⟩
  rw [hc] at h
  exact hsize ▸ hsymbols ▸ covers_of_isSome_get? h

theorem splits_tangled : tangled.Splits := by
  have hall : ∀ i < 3, ∀ j < 3, ∀ A < 3, ((tangled.get? i j A).map (·.backpointer)).all fun
      | .binary _ _ midpoint => decide (i < midpoint ∧ midpoint < j)
      | _ => true := by decide +kernel
  intro i j A e left right midpoint he hback
  obtain ⟨hij, hj, hA⟩ := isSome_get?_tangled (Option.isSome_iff_exists.2 ⟨e, he⟩)
  have hsplit := hall i (by omega) j (by omega) A hA
  rw [he, Option.map_some, hback, Option.all_some] at hsplit
  exact of_decide_eq_true hsplit

/-- Only what the first symbol leads to is whole. -/
theorem tangled_spec :
    tangled.Splits ∧ (∀ i j A, (tangled.get? i j A).isSome = true → A < tangled.numNonterminals) ∧
      tangledTable.Intact ⟨0, 2, 0⟩ ∧ tangled.viterbiTree? Chain.symbols ["b", "b"] 1 = none ∧
      tangled.viterbiTree? Chain.symbols ["b", "b"] 2 = none := by
  have hsize : tangled.size = 2 ∧ tangled.numNonterminals = 3 := by decide +kernel
  have hsymbols : ∀ i j A, (tangled.get? i j A).isSome = true → A < tangled.numNonterminals :=
    fun i j A h => hsize.2 ▸ (isSome_get?_tangled h).2.2
  have hspec := fun root =>
    (viterbiTree?_spec tangled Chain.symbols ["b", "b"] root splits_tangled hsymbols).2.2.1
  rw [hsize.1] at hspec
  have hnone : ∀ root, ¬ tangledTable.Intact ⟨0, 2, root⟩ →
      tangled.viterbiTree? Chain.symbols ["b", "b"] root = none := fun root hbroken =>
    Option.not_isSome_iff_eq_none.1 fun hsome => hbroken ((hspec root).1 hsome).2
  obtain ⟨htop, hleft, hright, hword, hbroken, hcircle⟩ :
      tangledTable.at? ⟨0, 2, 0⟩ = some (.binary 1 2 1) ∧
        tangledTable.at? ⟨0, 1, 1⟩ = some (.unary 2) ∧
        tangledTable.at? ⟨1, 2, 2⟩ = some (.lexical 0) ∧
        tangledTable.at? ⟨0, 1, 2⟩ = some (.lexical 0) ∧
        (tangledTable.at? ⟨0, 2, 1⟩ = some (.binary 0 2 1) ∧ tangledTable.at? ⟨0, 1, 0⟩ = none) ∧
        tangledTable.at? ⟨0, 2, 2⟩ = some (.binary 2 0 1) ∧
        tangledTable.at? ⟨1, 2, 0⟩ = some (.unary 1) ∧
        tangledTable.at? ⟨1, 2, 1⟩ = some (.unary 0) := by decide +kernel
  refine ⟨splits_tangled, hsymbols, ?_, hnone 1 fun hintact => ?_, hnone 2 fun hintact => ?_⟩
  · refine ((hspec 0).1 ?_).2
    have hfollow : (tangledTable.follow 0 2 0 tangledTable.maxUnaries).isSome = true := by
      have hmax : tangledTable.maxUnaries = 3 + 1 := by decide +kernel
      have hunary := Backpointers.follow_unary hleft 3
      rw [Backpointers.follow_lexical hword (by decide), Option.map_some, ← hmax] at hunary
      rw [Backpointers.follow_binary htop Nat.one_pos (Nat.lt_succ_self 1) hunary
        (Backpointers.follow_lexical hright (by decide) _)]
      rfl
    rw [viterbiTree?, if_pos (by decide +kernel), hsize.1]
    exact hfollow
  · have hmissing := hintact.entry ⟨0, 1, 0⟩ (.single (.inr ⟨0, 2, 1, hbroken.1, .inl rfl⟩))
    rw [hbroken.2] at hmissing
    cases hmissing
  · exact hintact.acyclic ⟨1, 2, 0⟩ (.single (.inr ⟨2, 0, 1, hcircle.1, .inr rfl⟩))
      (.tail (.single ⟨1, hcircle.2.1, rfl⟩) ⟨0, hcircle.2.2, rfl⟩)

end Chart

end Constituency
