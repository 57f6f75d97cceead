import Constituency.Decode.Rules
import Constituency.Proofs.Chart.Backpointers
import Constituency.Proofs.Chart.Posterior

/-!
# The table of a decoder by rules

Derivations are only ever offered for categories whose children have derivations already, a unary rule
only above a child that is not derived by a unary rule at that moment. The child may come to be derived by
a unary rule later; the links between the categories of a cell still never run in circles
(`Sound.offer`), so that a tree can be read off the table wherever it has a derivation. What has a
derivation keeps having one, and a rule is missing only for the want of a child, or because its child is
the parent of another unary rule (`Filled`).
-/

namespace Constituency

namespace RuleTable

variable {α : Type} {t t' t'' : RuleTable α} {n i j k l : Nat} {X Y Z : NonTerminal}
  {b : Backpointer} {x : α} {P : NonTerminal → Prop} {chains : Prop}

/-- The table has a derivation of a category over a span. -/
def Has (t : RuleTable α) (i j : Nat) (X : NonTerminal) : Prop :=
  (RuleTable.find? t i j X).isSome = true

/-- The derivation of the first category begins with a unary rule to the second one. -/
def Link (t : RuleTable α) (i j : Nat) (X Y : NonTerminal) : Prop :=
  ∃ cell, RuleTable.find? t i j X = some cell ∧ cell.backpointer = .unary Y

/-- The children of a backpointer have derivations. -/
def Built (t : RuleTable α) (i j : Nat) : Backpointer → Prop
  | .lexical _ => j = i + 1
  | .unary child => t.Has i j child
  | .binary left right midpoint =>
    (i < midpoint ∧ midpoint < j) ∧ t.Has i midpoint left ∧ t.Has midpoint j right

/-- A table for a number of categories whose derivations can be followed. -/
structure Sound (n : Nat) (t : RuleTable α) : Prop where
  stride_eq : t.stride = n
  built : ∀ i j X cell, RuleTable.find? t i j X = some cell → t.Built i j cell.backpointer
  acyclic : ∀ i j X, ¬ Relation.TransGen (t.Link i j) X X

theorem Built.mono (hkept : ∀ k l Y, t.Has k l Y → t'.Has k l Y) (h : t.Built i j b) :
    t'.Built i j b := by
  cases b with
  | lexical => exact h
  | unary child => exact hkept i j child h
  | binary left right midpoint => exact ⟨h.1, hkept _ _ _ h.2.1, hkept _ _ _ h.2.2⟩

theorem Sound.bounds (h : t.Sound n) (hX : t.Has i j X) : i < j ∧ j ≤ t.size ∧ X < n := by
  obtain ⟨cell, hcell⟩ := Option.isSome_iff_exists.1 hX
  exact h.stride_eq ▸ StrideTable.bounds hcell

/-! ## Growing -/

/-- One table comes from another by offers of derivations of some categories over a span. The offers make
no chains, unless it says so. -/
structure Grows (n i j : Nat) (P : NonTerminal → Prop) (chains : Prop) (t t' : RuleTable α) :
    Prop where
  sound : t.Sound n → t'.Sound n
  size_eq : t'.size = t.size
  kept : ∀ k l Y, t.Has k l Y → t'.Has k l Y
  elsewhere : ∀ k l Y, ¬ ((k = i ∧ l = j) ∧ P Y) →
    RuleTable.find? t' k l Y = RuleTable.find? t k l Y
  linked : ∀ k l Y Z, t'.Link k l Y Z → t.Link k l Y Z ∨ chains

namespace Grows

theorem refl (n i j : Nat) (P : NonTerminal → Prop) (chains : Prop) (t : RuleTable α) :
    Grows n i j P chains t t :=
  ⟨id, rfl, fun _ _ _ => id, fun _ _ _ _ => rfl, fun _ _ _ _ => .inl⟩

theorem trans (h : Grows n i j P chains t t') (h' : Grows n i j P chains t' t'') :
    Grows n i j P chains t t'' where
  sound hs := h'.sound (h.sound hs)
  size_eq := h'.size_eq.trans h.size_eq
  kept k l Y hY := h'.kept k l Y (h.kept k l Y hY)
  elsewhere k l Y hne := (h'.elsewhere k l Y hne).trans (h.elsewhere k l Y hne)
  linked k l Y Z hlink := (h'.linked k l Y Z hlink).elim (h.linked k l Y Z) .inr

theorem mono {P' : NonTerminal → Prop} {chains' : Prop} (hP : ∀ Y, P Y → P' Y)
    (hchains : chains → chains') (h : Grows n i j P chains t t') :
    Grows n i j P' chains' t t' where
  sound := h.sound
  size_eq := h.size_eq
  kept := h.kept
  elsewhere k l Y hne := h.elsewhere k l Y fun hY => hne ⟨hY.1, hP Y hY.2⟩
  linked k l Y Z hlink := (h.linked k l Y Z hlink).imp_right hchains

variable {β : Type} {step : RuleTable α → β → RuleTable α} {items : List β}

/-- What each item of a list does to a table, the whole list does. -/
theorem foldl
    (hstep : ∀ a ∈ items, ∀ t', t'.size = t.size → Grows n i j P chains t' (step t' a)) :
    Grows n i j P chains t (items.foldl step t) := by
  refine foldl_prefix_induction (P := fun _ t' => Grows n i j P chains t t') items
    (fun visited a rest t' hsplit ht' => ?_) (refl n i j P chains t)
  refine ht'.trans (hstep a ?_ t' ht'.size_eq)
  rw [hsplit]
  simp

/-- What an item of a list finds whenever its turn comes is found in the end. -/
theorem has_foldl
    (hstep : ∀ a ∈ items, ∀ t', t'.size = t.size → Grows n i j P chains t' (step t' a)) {a : β}
    (ha : a ∈ items) (hfound : ∀ t', Grows n i j P chains t t' → (step t' a).Has k l X) :
    (items.foldl step t).Has k l X := by
  obtain ⟨before, after, rfl⟩ := List.append_of_mem ha
  have hbefore : Grows n i j P chains t (before.foldl step t) :=
    foldl fun a ha => hstep a (List.mem_append_left _ ha)
  have hhere := hstep a ha _ hbefore.size_eq
  have hafter : Grows n i j P chains (step (before.foldl step t) a)
      (after.foldl step (step (before.foldl step t) a)) :=
    foldl fun a ha t' ht' => hstep a (List.mem_append_right _ (List.mem_cons_of_mem _ ha)) t'
      (ht'.trans (hhere.size_eq.trans hbefore.size_eq))
  rw [List.foldl_append, List.foldl_cons]
  exact hafter.kept k l X (hfound _ hbefore)

end Grows

/-! ## Offering -/

/-- The children of a derivation that is offered have derivations, and the child of a unary rule is not
derived by one itself. -/
structure Offerable (t : RuleTable α) (i j : Nat) (X : NonTerminal) (b : Backpointer) : Prop where
  built : t.Built i j b
  unchained : ∀ Y, b = .unary Y → Y ≠ X ∧ ∀ Z, ¬ t.Link i j Y Z

/-- The table with another derivation of a category. -/
def enter (t : RuleTable α) (i j : Nat) (X : NonTerminal) (cell : RuleCell α) : RuleTable α :=
  t.set i j X cell

theorem find?_enter (hij : i < j) (hj : j ≤ t.size) (cell : RuleCell α) (k l : Nat)
    (Y : NonTerminal) :
    RuleTable.find? (t.enter i j X cell) k l Y =
      if (k = i ∧ l = j) ∧ Y = X ∧ X < t.stride then some cell else RuleTable.find? t k l Y :=
  StrideTable.find?_set hij hj cell k l Y

/-- No circle arises from a link to a category from which there is none. -/
theorem acyclic_of_link {old new : NonTerminal → NonTerminal → Prop}
    (hold : ∀ V, ¬ Relation.TransGen old V V)
    (hnew : ∀ V W, new V W → old V W ∨ (V = X ∧ b = .unary W))
    (hloose : ∀ Y, b = .unary Y → Y ≠ X ∧ ∀ Z, ¬ old Y Z) (V : NonTerminal) :
    ¬ Relation.TransGen new V V := by
  have hpath : ∀ W, Relation.TransGen new V W → Relation.TransGen old V W ∨ b = .unary W := by
    intro W hW
    induction hW with
    | single hlink => exact (hnew _ _ hlink).imp .single fun h => h.2
    | tail _ hlink ih =>
      rcases hnew _ _ hlink with hlink | ⟨-, hb⟩
      · exact .inl (ih.elim (fun h => h.tail hlink) fun hb => absurd hlink ((hloose _ hb).2 _))
      · exact .inr hb
  intro hcircle
  rcases hpath V hcircle with hV | hb
  · exact hold V hV
  · obtain ⟨W, hlink, -⟩ := (Relation.TransGen.head'_iff).1 hcircle
    rcases hnew _ _ hlink with hlink | ⟨hX, -⟩
    · exact (hloose V hb).2 W hlink
    · exact (hloose V hb).1 hX

theorem Grows.enter (hij : i < j) (hj : j ≤ t.size) (cell : RuleCell α)
    (hoff : t.Offerable i j X cell.backpointer) :
    Grows n i j (· = X) (cell.backpointer.isUnary = true) t (t.enter i j X cell) := by
  have hfind := find?_enter (X := X) hij hj cell
  have hsize : (t.enter i j X cell).size = t.size := StrideTable.size_set ..
  have hstride : (t.enter i j X cell).stride = t.stride := StrideTable.stride_set ..
  generalize t.enter i j X cell = t' at hfind hsize hstride ⊢
  have hkept : ∀ k l Y, t.Has k l Y → t'.Has k l Y := by
    intro k l Y hY
    rw [Has, hfind]
    split
    · rfl
    · exact hY
  have hlink : ∀ k l Y Z, t'.Link k l Y Z →
      t.Link k l Y Z ∨ (k = i ∧ l = j) ∧ Y = X ∧ cell.backpointer = .unary Z := by
    rintro k l Y Z ⟨held, hheld, hZ⟩
    rw [hfind] at hheld
    split at hheld
    · next hhere =>
      obtain rfl := Option.some.inj hheld
      exact .inr ⟨hhere.1, hhere.2.1, hZ⟩
    · exact .inl ⟨held, hheld, hZ⟩
  refine
    { sound := fun hs => ⟨hstride.trans hs.stride_eq, fun k l Y held hheld => ?_, fun k l V => ?_⟩
      size_eq := hsize
      kept := hkept
      elsewhere := fun k l Y hne => ?_
      linked := fun k l Y Z hZ => (hlink k l Y Z hZ).imp_right fun h => ?_ }
  · rw [hfind] at hheld
    split at hheld
    · next hhere =>
      obtain ⟨rfl, rfl⟩ := hhere.1
      obtain rfl := Option.some.inj hheld
      exact hoff.built.mono hkept
    · exact (hs.built k l Y held hheld).mono hkept
  · by_cases hspan : k = i ∧ l = j
    · obtain ⟨rfl, rfl⟩ := hspan
      exact acyclic_of_link (hs.acyclic k l)
        (fun V W hW => (hlink k l V W hW).imp_right fun h => h.2) hoff.unchained V
    · exact fun hV => hs.acyclic k l V (hV.lift id fun V W hW =>
        (hlink k l V W hW).resolve_right fun h => hspan h.1)
  · rw [hfind, if_neg fun h => hne ⟨h.1, h.2.1⟩]
  · rw [h.2.2]
    rfl

variable [Score α]

/-- A category that has a derivation may keep it, or takes the one that is offered. -/
theorem offer_cases (t : RuleTable α) (i j : Nat) (X : NonTerminal) (x : α) (b : Backpointer) :
    (t.Has i j X ∧ RuleTable.offer t i j X x b = t) ∨
      RuleTable.offer t i j X x b = t.enter i j X ⟨x, b⟩ := by
  unfold RuleTable.offer
  cases hfound : RuleTable.find? t i j X with
  | none => exact .inr rfl
  | some present =>
    by_cases hle : x ≤ present.score
    · exact .inl ⟨by rw [Has, hfound]; rfl, by simp [hle]⟩
    · exact .inr (by simp [hle, enter])

theorem has_offer (h : t.Sound n) (hij : i < j) (hj : j ≤ t.size) (hX : X < n) :
    (RuleTable.offer t i j X x b).Has i j X := by
  rcases offer_cases t i j X x b with ⟨hhas, heq⟩ | heq
  · rwa [heq]
  · rw [heq, Has, find?_enter hij hj, if_pos ⟨⟨rfl, rfl⟩, rfl, h.stride_eq.symm ▸ hX⟩]
    rfl

theorem Grows.offer (hij : i < j) (hj : j ≤ t.size) (hoff : t.Offerable i j X b) :
    Grows n i j (· = X) (b.isUnary = true) t (RuleTable.offer t i j X x b) := by
  rcases offer_cases t i j X x b with ⟨-, heq⟩ | heq
  · rw [heq]
    exact .refl ..
  · rw [heq]
    exact .enter hij hj ⟨x, b⟩ hoff

end RuleTable

end Constituency
