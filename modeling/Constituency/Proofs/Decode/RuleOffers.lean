import Constituency.Proofs.Decode.Rules

/-!
# A cell keeps the best of its offers

The visit of a cell offers derivations to its categories: those by a word or by binary rules, whose
children lie in other cells, and then those by unary rules, whose children lie in the cell itself
(`fillCell_eq_offerAll`). A category keeps one that no other offer to it is better than (`Kept`). If no
category is both the parent and the child of a unary rule, then the offers by unary rules do not touch
their own children, so that the finished table holds of every category the best that its rules make of
the finished table (`settled_table`).
-/

namespace Constituency

namespace RuleTable

variable {α : Type} [Score α] {table table' table'' : RuleTable α} {i j : Nat} {X Y : NonTerminal}
  {x : α} {b : Backpointer} {offers offers' : List (NonTerminal × RuleCell α)}
  {cell : RuleCell α}

/-- Offers derivations of categories over a span, one after the other. -/
def offerAll (table : RuleTable α) (start stop : Nat)
    (offers : List (NonTerminal × RuleCell α)) : RuleTable α :=
  offers.foldl (fun table x => RuleTable.offer table start stop x.1 x.2.score x.2.backpointer) table

theorem offerAll_append :
    table.offerAll i j (offers ++ offers') = (table.offerAll i j offers).offerAll i j offers' :=
  List.foldl_append

/-- The second table comes from the first one by some offers over a span, of which it keeps the best. -/
structure Kept (i j : Nat) (offers : List (NonTerminal × RuleCell α))
    (table table' : RuleTable α) : Prop where
  size_eq : table'.size = table.size
  stride_eq : table'.stride = table.stride
  elsewhere : ∀ k l Y, ¬ (k = i ∧ l = j) →
    RuleTable.find? table' k l Y = RuleTable.find? table k l Y
  offered : ∀ Y cell, RuleTable.find? table' i j Y = some cell →
    RuleTable.find? table i j Y = some cell ∨ (Y, cell) ∈ offers
  kept : ∀ Y cell, RuleTable.find? table i j Y = some cell →
    ∃ held, RuleTable.find? table' i j Y = some held ∧ cell.score ≤ held.score
  best : ∀ Y cell, (Y, cell) ∈ offers → Y < table.stride →
    ∃ held, RuleTable.find? table' i j Y = some held ∧ cell.score ≤ held.score

namespace Kept

variable [MonotoneScore α]

theorem refl (i j : Nat) (table : RuleTable α) : Kept i j [] table table where
  size_eq := rfl
  stride_eq := rfl
  elsewhere _ _ _ _ := rfl
  offered _ _ h := .inl h
  kept _ cell h := ⟨cell, h, Score.le_refl _⟩
  best _ _ h := by cases h

theorem trans (h : Kept i j offers table table') (h' : Kept i j offers' table' table'') :
    Kept i j (offers ++ offers') table table'' where
  size_eq := h'.size_eq.trans h.size_eq
  stride_eq := h'.stride_eq.trans h.stride_eq
  elsewhere k l Y hne := (h'.elsewhere k l Y hne).trans (h.elsewhere k l Y hne)
  offered Y cell hcell := by
    rcases h'.offered Y cell hcell with hcell | hmem
    · exact (h.offered Y cell hcell).imp_right (List.mem_append_left _)
    · exact .inr (List.mem_append_right _ hmem)
  kept Y cell hcell := by
    obtain ⟨middle, hmiddle, hle⟩ := h.kept Y cell hcell
    obtain ⟨held, hheld, hle'⟩ := h'.kept Y middle hmiddle
    exact ⟨held, hheld, Score.le_trans hle hle'⟩
  best Y cell hmem hY := by
    rcases List.mem_append.1 hmem with hmem | hmem
    · obtain ⟨middle, hmiddle, hle⟩ := h.best Y cell hmem hY
      obtain ⟨held, hheld, hle'⟩ := h'.kept Y middle hmiddle
      exact ⟨held, hheld, Score.le_trans hle hle'⟩
    · exact h'.best Y cell hmem (h.stride_eq ▸ hY)

omit [MonotoneScore α] in
/-- What has had no offer has not changed. -/
theorem find?_eq (h : Kept i j offers table table') (hY : ∀ cell, (Y, cell) ∉ offers) :
    RuleTable.find? table' i j Y = RuleTable.find? table i j Y := by
  cases hcell : RuleTable.find? table i j Y with
  | none =>
    refine Option.eq_none_iff_forall_ne_some.2 fun cell hnew => ?_
    rcases h.offered Y cell hnew with hold | hmem
    · rw [hcell] at hold
      cases hold
    · exact hY cell hmem
  | some cell =>
    obtain ⟨held, hheld, -⟩ := h.kept Y cell hcell
    rcases h.offered Y held hheld with hold | hmem
    · rw [hheld, ← hold, hcell]
    · exact absurd hmem (hY held)

theorem offer (hij : i < j) (hj : j ≤ table.size) :
    Kept i j [(X, ⟨x, b⟩)] table (RuleTable.offer table i j X x b) := by
  have hcases : (∃ present, RuleTable.find? table i j X = some present ∧ x ≤ present.score ∧
      RuleTable.offer table i j X x b = table) ∨
      (∀ present, RuleTable.find? table i j X = some present → present.score ≤ x) ∧
        RuleTable.offer table i j X x b = table.enter i j X ⟨x, b⟩ := by
    unfold RuleTable.offer
    cases hfound : RuleTable.find? table i j X with
    | none => exact .inr ⟨nofun, rfl⟩
    | some present =>
      by_cases hle : x ≤ present.score
      · exact .inl ⟨present, rfl, hle, by simp [hle]⟩
      · refine .inr ⟨fun present' hpresent => ?_, by simp [hle, enter]⟩
        obtain rfl := Option.some.inj hpresent
        exact Score.le_of_lt (Score.not_le.1 hle)
  rcases hcases with ⟨present, hpresent, hle, heq⟩ | ⟨hle, heq⟩
  · rw [heq]
    refine { refl i j table with offered := fun _ _ h => .inl h, best := fun Y cell hmem _ => ?_ }
    obtain ⟨rfl, rfl⟩ := Prod.mk.inj (List.mem_singleton.1 hmem)
    exact ⟨present, hpresent, hle⟩
  rw [heq]
  have hfind := find?_enter (X := X) hij hj (⟨x, b⟩ : RuleCell α)
  have hsize : (table.enter i j X ⟨x, b⟩).size = table.size := StrideTable.size_set ..
  have hstride : (table.enter i j X ⟨x, b⟩).stride = table.stride := StrideTable.stride_set ..
  generalize table.enter i j X ⟨x, b⟩ = entered at hfind hsize hstride ⊢
  refine ⟨hsize, hstride, fun k l Y hne => ?_, fun Y cell hcell => ?_, fun Y cell hcell => ?_,
    fun Y cell hmem hY => ?_⟩
  · rw [hfind, if_neg fun h => hne h.1]
  · rw [hfind] at hcell
    split at hcell
    · next hhere =>
      obtain rfl := Option.some.inj hcell
      obtain rfl := hhere.2.1
      exact .inr (List.mem_singleton_self _)
    · exact .inl hcell
  · rw [hfind]
    split
    · next hhere =>
      obtain rfl := hhere.2.1
      exact ⟨_, rfl, hle cell hcell⟩
    · exact ⟨cell, hcell, Score.le_refl _⟩
  · obtain ⟨rfl, rfl⟩ := Prod.mk.inj (List.mem_singleton.1 hmem)
    exact ⟨_, by rw [hfind, if_pos ⟨⟨rfl, rfl⟩, rfl, hY⟩], Score.le_refl _⟩

theorem offerAll (hij : i < j) (hj : j ≤ table.size)
    (offers : List (NonTerminal × RuleCell α)) :
    Kept i j offers table (table.offerAll i j offers) := by
  refine foldl_prefix_induction (P := fun visited table' => Kept i j visited table table') offers
    (fun visited x rest table' _ hv => ?_) (refl i j table)
  exact hv.trans (.offer hij (hv.size_eq.symm ▸ hj))

end Kept

/-- A pass over some items makes the offers of the items if these are the same before and after other
offers of the pass. -/
theorem foldl_eq_offerAll {β : Type} {step : RuleTable α → β → RuleTable α} {items : List β}
    {offer? : β → Option (NonTerminal × RuleCell α)} {P : RuleTable α → Prop} (htable : P table)
    (hstep : ∀ x ∈ items, ∀ table, P table →
      step table x = table.offerAll i j (offer? x).toList ∧ P (step table x)) :
    items.foldl step table = table.offerAll i j (items.filterMap offer?) := by
  induction items generalizing table with
  | nil => rfl
  | cons x rest ih =>
    obtain ⟨heq, hP⟩ := hstep x List.mem_cons_self table htable
    rw [List.foldl_cons, ih hP fun y hy => hstep y (List.mem_cons_of_mem _ hy), heq,
      ← offerAll_append]
    congr 1
    cases hx : offer? x with
    | none => rw [List.filterMap_cons_none hx]; rfl
    | some offer => rw [List.filterMap_cons_some hx]; rfl

end RuleTable

namespace RuleTask

open RuleTable (Kept)

variable {α : Type} [Score α] {t : RuleTask α} {table table' : RuleTable α} {i j m : Nat}
  {X Y Z : NonTerminal} {cell : RuleCell α} {x : CoarseRule × α}

/-! ## The offers of a cell -/

/-- The offer of a rule for a word. -/
def lexicalOffer (t : RuleTask α) (x : CoarseRule × α) : Option (NonTerminal × RuleCell α) :=
  match x.1.children with
  | .lexical word => some (x.1.parent, ⟨x.2 - t.sentenceScore, .lexical word⟩)
  | _ => none

/-- The offer of a binary rule at a midpoint. -/
def binaryOffer (t : RuleTask α) (table : RuleTable α) (start stop midpoint : Nat)
    (x : CoarseRule × α) : Option (NonTerminal × RuleCell α) :=
  match x.1.children with
  | .binary left right =>
    match RuleTable.find? table start midpoint left,
        RuleTable.find? table midpoint stop right with
    | some leftCell, some rightCell =>
      some (x.1.parent, ⟨x.2 - t.sentenceScore + t.weight leftCell + t.weight rightCell,
        .binary left right midpoint⟩)
    | _, _ => none
  | _ => none

/-- The offer of a unary rule. -/
def unaryOffer (t : RuleTask α) (table : RuleTable α) (start stop : Nat) (x : CoarseRule × α) :
    Option (NonTerminal × RuleCell α) :=
  match x.1.children with
  | .unary child =>
    match RuleTable.find? table start stop child with
    | none => none
    | some cell =>
      if cell.backpointer.isUnary then none
      else some (x.1.parent, ⟨x.2 - t.sentenceScore + t.weight cell, .unary child⟩)
  | _ => none

/-- The offers over a span without those of unary rules. -/
def offersBelow (t : RuleTask α) (table : RuleTable α) (start stop : Nat) :
    List (NonTerminal × RuleCell α) :=
  if stop == start + 1 then (t.summed (t.lexicalInstances start)).filterMap t.lexicalOffer
  else (midpoints start stop).flatMap fun midpoint =>
    (t.summed (t.binaryInstances start stop midpoint)).filterMap
      (t.binaryOffer table start stop midpoint)

/-- The offers of the unary rules over a span. -/
def unaryOffers (t : RuleTask α) (table : RuleTable α) (start stop : Nat) :
    List (NonTerminal × RuleCell α) :=
  ((t.summed (t.unaryInstances start stop)).mergeSort unaryBefore).filterMap
    (t.unaryOffer table start stop)

theorem mem_lexicalOffers :
    (X, cell) ∈ (t.summed (t.lexicalInstances i)).filterMap t.lexicalOffer ↔
      ∃ word y, (⟨X, .lexical word⟩, y) ∈ t.summed (t.lexicalInstances i) ∧
        cell = ⟨y - t.sentenceScore, .lexical word⟩ := by
  rw [List.mem_filterMap]
  constructor
  · rintro ⟨⟨⟨parent, children⟩, y⟩, hy, hoffer⟩
    cases children with
    | binary | unary => cases hoffer
    | lexical word =>
      obtain ⟨rfl, rfl⟩ := Prod.mk.inj (Option.some.inj hoffer)
      exact ⟨word, y, hy, rfl⟩
  · rintro ⟨word, y, hy, rfl⟩
    exact ⟨_, hy, rfl⟩

theorem mem_binaryOffers :
    (X, cell) ∈ (t.summed (t.binaryInstances i j m)).filterMap (t.binaryOffer table i j m) ↔
      ∃ Y Z y left right, (⟨X, .binary Y Z⟩, y) ∈ t.summed (t.binaryInstances i j m) ∧
        RuleTable.find? table i m Y = some left ∧ RuleTable.find? table m j Z = some right ∧
        cell = ⟨y - t.sentenceScore + t.weight left + t.weight right, .binary Y Z m⟩ := by
  rw [List.mem_filterMap]
  constructor
  · rintro ⟨⟨⟨parent, children⟩, y⟩, hy, hoffer⟩
    cases children with
    | lexical | unary => cases hoffer
    | binary Y Z =>
      simp only [binaryOffer] at hoffer
      split at hoffer
      · next left right hleft hright =>
        obtain ⟨rfl, rfl⟩ := Prod.mk.inj (Option.some.inj hoffer)
        exact ⟨Y, Z, y, left, right, hy, hleft, hright, rfl⟩
      · cases hoffer
  · rintro ⟨Y, Z, y, left, right, hy, hleft, hright, rfl⟩
    exact ⟨_, hy, by simp only [binaryOffer, hleft, hright]⟩

theorem unaryStep_eq_offerAll :
    t.unaryStep i j table x = table.offerAll i j (t.unaryOffer table i j x).toList := by
  obtain ⟨⟨parent, children⟩, y⟩ := x
  unfold unaryStep unaryOffer
  cases children with
  | lexical | binary => rfl
  | unary child =>
    dsimp only
    cases RuleTable.find? table i j child with
    | none => rfl
    | some below =>
      dsimp only
      split <;> rfl

theorem mem_unaryOffers :
    (X, cell) ∈ t.unaryOffers table i j ↔
      ∃ Y y below, (⟨X, .unary Y⟩, y) ∈ t.summed (t.unaryInstances i j) ∧
        RuleTable.find? table i j Y = some below ∧ below.backpointer.isUnary = false ∧
        cell = ⟨y - t.sentenceScore + t.weight below, .unary Y⟩ := by
  rw [unaryOffers, List.mem_filterMap]
  constructor
  · rintro ⟨⟨⟨parent, children⟩, y⟩, hy, hoffer⟩
    cases children with
    | lexical | binary => cases hoffer
    | unary Y =>
      simp only [unaryOffer] at hoffer
      split at hoffer
      · cases hoffer
      · next below hbelow =>
        split at hoffer
        · cases hoffer
        · next hunary =>
          obtain ⟨rfl, rfl⟩ := Prod.mk.inj (Option.some.inj hoffer)
          exact ⟨Y, y, below, List.mem_mergeSort.1 hy, hbelow, Bool.eq_false_iff.2 hunary, rfl⟩
  · rintro ⟨Y, y, below, hy, hbelow, hunary, rfl⟩
    refine ⟨_, List.mem_mergeSort.2 hy, ?_⟩
    simp only [unaryOffer, hbelow]
    exact if_neg (Bool.eq_false_iff.1 hunary)

/-! ## The visit of a cell -/

variable [MonotoneScore α]

omit [MonotoneScore α] in
theorem offerLexical_eq_offerAll (i : Nat) (table : RuleTable α) :
    t.offerLexical i table = table.offerAll i (i + 1)
      ((t.summed (t.lexicalInstances i)).filterMap t.lexicalOffer) := by
  rw [offerLexical_eq]
  refine RuleTable.foldl_eq_offerAll (P := fun _ => True) trivial fun x _ table' _ => ⟨?_, trivial⟩
  obtain ⟨⟨parent, children⟩, y⟩ := x
  cases children <;> rfl

theorem offerBinary_eq_offerAll (hm : i < m ∧ m < j) (hj : j ≤ table.size) :
    t.offerBinary i j table m = table.offerAll i j
      ((t.summed (t.binaryInstances i j m)).filterMap (t.binaryOffer table i j m)) := by
  rw [offerBinary_eq]
  refine RuleTable.foldl_eq_offerAll
    (P := fun table' => ∃ offers, Kept i j offers table table') ⟨[], .refl i j table⟩
    fun x _ table' htable' => ?_
  obtain ⟨offers, hkept⟩ := htable'
  have heq : t.binaryStep i j m table' x =
      table'.offerAll i j (t.binaryOffer table i j m x).toList := by
    obtain ⟨⟨parent, children⟩, y⟩ := x
    unfold binaryStep binaryOffer
    cases children with
    | lexical | unary => rfl
    | binary left right =>
      dsimp only
      rw [hkept.elsewhere _ _ _ (by omega), hkept.elsewhere _ _ _ (by omega)]
      cases RuleTable.find? table i m left <;> cases RuleTable.find? table m j right <;> rfl
  refine ⟨heq, offers ++ (t.binaryOffer table i j m x).toList, ?_⟩
  rw [heq]
  exact hkept.trans (.offerAll (by omega) (hkept.size_eq.symm ▸ hj) _)

theorem withoutUnaries_eq_offerAll (hij : i < j) (hj : j ≤ table.size) :
    t.withoutUnaries i j table = table.offerAll i j (t.offersBelow table i j) := by
  unfold withoutUnaries offersBelow
  split
  · next hone =>
    obtain rfl := beq_iff_eq.1 hone
    exact offerLexical_eq_offerAll i table
  · -- the offers at a midpoint leave the halves at the next one as they are
    refine foldl_prefix_induction (P := fun visited table' => table' = table.offerAll i j
      (visited.flatMap fun m => (t.summed (t.binaryInstances i j m)).filterMap
        (t.binaryOffer table i j m))) (midpoints i j)
      (fun visited m rest table' hsplit htable' => ?_) rfl
    have hm : i < m ∧ m < j := mem_midpoints.1 (hsplit ▸ by simp)
    have hkept : Kept i j (visited.flatMap fun m =>
        (t.summed (t.binaryInstances i j m)).filterMap (t.binaryOffer table i j m)) table table' := by
      rw [htable']
      exact .offerAll hij hj _
    have hsame : t.binaryOffer table' i j m = t.binaryOffer table i j m := by
      funext x
      unfold binaryOffer
      split
      · rw [hkept.elsewhere _ _ _ (by omega), hkept.elsewhere _ _ _ (by omega)]
      · rfl
    rw [offerBinary_eq_offerAll hm (hkept.size_eq.symm ▸ hj), hsame, List.flatMap_append,
      List.flatMap_singleton, RuleTable.offerAll_append, ← htable']

theorem kept_withoutUnaries (hij : i < j) (hj : j ≤ table.size) :
    Kept i j (t.offersBelow table i j) table (t.withoutUnaries i j table) := by
  rw [withoutUnaries_eq_offerAll hij hj]
  exact .offerAll hij hj _

/-- No category is the parent of a unary rule over a span and the child of another one. -/
def Unchained (t : RuleTask α) : Prop :=
  ∀ i j X Y, ⟨X, .unary Y⟩ ∈ rules (t.unaryInstances i j) → ¬ t.Topped i j Y

omit [MonotoneScore α] in
theorem topped_of_mem_unaryOffers (h : (X, cell) ∈ t.unaryOffers table i j) : t.Topped i j X := by
  obtain ⟨Y, y, -, hy, -⟩ := mem_unaryOffers.1 h
  exact ⟨Y, mem_rules_summed.1 (mem_rules.2 ⟨_, hy, rfl⟩)⟩

theorem offerUnary_eq_offerAll (ht : t.Unchained) (hij : i < j) (hj : j ≤ table.size) :
    t.offerUnary i j table = table.offerAll i j (t.unaryOffers table i j) := by
  rw [offerUnary_eq]
  refine RuleTable.foldl_eq_offerAll (P := fun table' => ∃ offers, Kept i j offers table table' ∧
    ∀ X cell, (X, cell) ∈ offers → t.Topped i j X) ⟨[], .refl i j table, nofun⟩
    fun x hx table' htable' => ?_
  obtain ⟨offers, hkept, htopped⟩ := htable'
  have hr : x.1 ∈ rules (t.unaryInstances i j) :=
    mem_rules_summed.1 (mem_rules.2 ⟨x, List.mem_mergeSort.1 hx, rfl⟩)
  -- the offers before this one have left its child as it is
  have hsame : t.unaryOffer table' i j x = t.unaryOffer table i j x := by
    obtain ⟨⟨parent, children⟩, y⟩ := x
    cases children with
    | lexical | binary => rfl
    | unary child =>
      have hloose : ∀ cell, (child, cell) ∉ offers := fun cell hmem =>
        ht i j parent child hr (htopped child cell hmem)
      simp only [unaryOffer, hkept.find?_eq hloose]
  have heq : t.unaryStep i j table' x =
      table'.offerAll i j (t.unaryOffer table i j x).toList := by
    rw [unaryStep_eq_offerAll, hsame]
  refine ⟨heq, offers ++ (t.unaryOffer table i j x).toList, ?_, fun X cell hmem => ?_⟩
  · rw [heq]
    exact hkept.trans (.offerAll hij (hkept.size_eq.symm ▸ hj) _)
  · rcases List.mem_append.1 hmem with hmem | hmem
    · exact htopped X cell hmem
    · have hoffer : (X, cell) ∈ t.unaryOffers table i j :=
        List.mem_filterMap.2 ⟨x, hx, Option.mem_toList.1 hmem⟩
      exact topped_of_mem_unaryOffers hoffer

/-- The visit of a cell makes two rounds of offers. -/
theorem fillCell_eq_offerAll (ht : t.Unchained) (hij : i < j) (hj : j ≤ table.size) :
    ∃ middle, Kept i j (t.offersBelow table i j) table middle ∧
      Kept i j (t.unaryOffers middle i j) middle (t.fillCell table (i, j)) := by
  have hbelow := kept_withoutUnaries (t := t) hij hj
  have hj' : j ≤ (t.withoutUnaries i j table).size := hbelow.size_eq.symm ▸ hj
  refine ⟨_, hbelow, ?_⟩
  rw [fillCell_eq, offerUnary_eq_offerAll ht hij hj']
  exact .offerAll hij hj' _

/-! ## The finished table -/

omit [MonotoneScore α] in
/-- A rule makes a derivation of what the table holds of its children. -/
inductive Makes (t : RuleTask α) (table : RuleTable α) :
    Nat → Nat → NonTerminal → RuleCell α → Prop
  | word {i : Nat} {X : NonTerminal} {word : Terminal} {y : α}
      (rule : (⟨X, .lexical word⟩, y) ∈ t.summed (t.lexicalInstances i)) :
      Makes t table i (i + 1) X ⟨y - t.sentenceScore, .lexical word⟩
  | binary {i m j : Nat} {X Y Z : NonTerminal} {y : α} {left right : RuleCell α}
      (mid : i < m ∧ m < j)
      (rule : (⟨X, .binary Y Z⟩, y) ∈ t.summed (t.binaryInstances i j m))
      (left_eq : RuleTable.find? table i m Y = some left)
      (right_eq : RuleTable.find? table m j Z = some right) :
      Makes t table i j X
        ⟨y - t.sentenceScore + t.weight left + t.weight right, .binary Y Z m⟩
  | unary {i j : Nat} {X Y : NonTerminal} {y : α} {below : RuleCell α}
      (rule : (⟨X, .unary Y⟩, y) ∈ t.summed (t.unaryInstances i j))
      (below_eq : RuleTable.find? table i j Y = some below) :
      Makes t table i j X ⟨y - t.sentenceScore + t.weight below, .unary Y⟩

omit [MonotoneScore α] in
theorem Makes.congr (h : t.Makes table i j X cell)
    (hsame : ∀ k l Y, i ≤ k → l ≤ j → RuleTable.find? table' k l Y = RuleTable.find? table k l Y) :
    t.Makes table' i j X cell := by
  cases h with
  | word rule => exact .word rule
  | binary mid rule left_eq right_eq =>
    refine .binary mid rule ?_ ?_
    · rw [hsame _ _ _ (Nat.le_refl _) (Nat.le_of_lt mid.2), left_eq]
    · rw [hsame _ _ _ (Nat.le_of_lt mid.1) (Nat.le_refl _), right_eq]
  | unary rule below_eq =>
    refine .unary rule ?_
    rw [hsame _ _ _ (Nat.le_refl _) (Nat.le_refl _), below_eq]

theorem Makes.parent_lt (hc : t.chart.Sound t.grammar) (h : t.Makes table i j X cell) :
    X < t.grammar.symbols.numBases := by
  have hmem : ∀ {instances : List (CoarseRule × α)} {rule : CoarseRule} {y : α},
      (rule, y) ∈ t.summed instances → rule ∈ rules instances := fun hy =>
    mem_rules_summed.1 (mem_rules.2 ⟨_, hy, rfl⟩)
  cases h with
  | word rule =>
    obtain ⟨_, A, -, hA, -, -, heq⟩ := (mem_rules_lexical hc).1 (hmem rule)
    obtain ⟨e, he, rfl⟩ := List.mem_map.1 hA
    obtain rfl := congrArg CoarseRule.parent heq
    exact SymbolTable.base_lt ((hc.rows _ _).nonterminal_lt e he)
  | binary mid rule left_eq right_eq =>
    obtain ⟨p, hp, B, C, -, -, -, -, heq⟩ := (mem_rules_binary hc).1 (hmem rule)
    obtain rfl := congrArg CoarseRule.parent heq
    exact SymbolTable.base_lt (Grammar.parent_lt hp)
  | unary rule below_eq =>
    obtain ⟨p, hp, B, -, -, -, -, heq⟩ := mem_rules_unary.1 (hmem rule)
    obtain rfl := congrArg CoarseRule.parent heq
    exact SymbolTable.base_lt (Grammar.parent_lt hp)

/-- Over some spans the table holds of every category the best that the rules make of the table. -/
structure Settled (t : RuleTask α) (visited : List (Nat × Nat)) (table : RuleTable α) : Prop where
  made : ∀ i j X cell, (i, j) ∈ visited → RuleTable.find? table i j X = some cell →
    t.Makes table i j X cell
  best : ∀ i j X cell, (i, j) ∈ visited → t.Makes table i j X cell →
    ∃ held, RuleTable.find? table i j X = some held ∧ cell.score ≤ held.score

omit [MonotoneScore α] in
theorem makes_of_mem_offersBelow
    (h : ∀ k l Y, ¬ (k = i ∧ l = j) → RuleTable.find? table' k l Y = RuleTable.find? table k l Y)
    (hcell : (X, cell) ∈ t.offersBelow table i j) :
    t.Makes table' i j X cell ∧ cell.backpointer.isUnary = false := by
  unfold offersBelow at hcell
  split at hcell
  · next hone =>
    obtain rfl := beq_iff_eq.1 hone
    obtain ⟨word, y, hy, rfl⟩ := mem_lexicalOffers.1 hcell
    exact ⟨.word hy, rfl⟩
  · obtain ⟨m, hm, hcell⟩ := List.mem_flatMap.1 hcell
    rw [mem_midpoints] at hm
    obtain ⟨Y, Z, y, left, right, hy, hleft, hright, rfl⟩ := mem_binaryOffers.1 hcell
    refine ⟨.binary hm hy ?_ ?_, rfl⟩
    · rw [h _ _ _ (by omega), hleft]
    · rw [h _ _ _ (by omega), hright]

theorem Settled.fillCell (hc : t.chart.Sound t.grammar) (ht : t.Unchained)
    {visited : List (Nat × Nat)} (hfilled : t.Filled visited table) (h : t.Settled visited table)
    (hij : i < j) (hj : j ≤ t.chart.size) (hnew : (i, j) ∉ visited)
    (hlonger : ∀ k l, (k, l) ∈ visited → l - k ≤ j - i) :
    t.Settled (visited ++ [(i, j)]) (t.fillCell table (i, j)) := by
  have hj' : j ≤ table.size := hfilled.size_eq ▸ hj
  obtain ⟨middle, hbelow, hunary⟩ := fillCell_eq_offerAll ht hij hj'
  have hboth := hbelow.trans hunary
  generalize t.fillCell table (i, j) = filled at hunary hboth
  have hblank : ∀ X cell, RuleTable.find? table i j X ≠ some cell := fun X cell hX =>
    hfilled.blank i j X hnew (Option.isSome_iff_exists.2 ⟨cell, hX⟩)
  -- a span visited before depends on no category of this one
  have hold : ∀ k l, (k, l) ∈ visited → ∀ k' l' Y, k ≤ k' → l' ≤ l →
      RuleTable.find? filled k' l' Y = RuleTable.find? table k' l' Y := by
    intro k l hkl k' l' Y hk hl
    refine hboth.elsewhere k' l' Y ?_
    rintro ⟨rfl, rfl⟩
    have hlen := hlonger k l hkl
    obtain ⟨rfl, rfl⟩ : k = k' ∧ l = l' := by omega
    exact hnew hkl
  have hmiddle : ∀ X cell, RuleTable.find? middle i j X = some cell →
      t.Makes filled i j X cell ∧ cell.backpointer.isUnary = false := by
    intro X cell hX
    refine makes_of_mem_offersBelow hboth.elsewhere ?_
    exact (hbelow.offered X cell hX).resolve_left (hblank X cell)
  have hloose : ∀ X Y y, (⟨X, .unary Y⟩, y) ∈ t.summed (t.unaryInstances i j) →
      RuleTable.find? filled i j Y = RuleTable.find? middle i j Y := by
    intro X Y y hy
    refine hunary.find?_eq fun cell hmem => ?_
    exact ht i j X Y (mem_rules_summed.1 (mem_rules.2 ⟨_, hy, rfl⟩)) (topped_of_mem_unaryOffers hmem)
  have hstride : middle.stride = t.grammar.symbols.numBases :=
    hbelow.stride_eq.trans hfilled.sound.stride_eq
  constructor
  · intro k l X cell hkl hcell
    rcases List.mem_append.1 hkl with hkl | hkl
    · rw [hold k l hkl k l X (Nat.le_refl k) (Nat.le_refl l)] at hcell
      exact (h.made k l X cell hkl hcell).congr (hold k l hkl)
    · obtain ⟨rfl, rfl⟩ := Prod.mk.inj (List.mem_singleton.1 hkl)
      rcases hunary.offered X cell hcell with hcell | hcell
      · exact (hmiddle X cell hcell).1
      · obtain ⟨Y, y, below, hy, hY, -, rfl⟩ := mem_unaryOffers.1 hcell
        exact .unary hy ((hloose X Y y hy).trans hY)
  · intro k l X cell hkl hcell
    have hX := hcell.parent_lt hc
    rcases List.mem_append.1 hkl with hkl | hkl
    · rw [hold k l hkl k l X (Nat.le_refl k) (Nat.le_refl l)]
      exact h.best k l X cell hkl (hcell.congr fun k' l' Y hk hl => (hold k l hkl k' l' Y hk hl).symm)
    · obtain ⟨rfl, rfl⟩ := Prod.mk.inj (List.mem_singleton.1 hkl)
      have hoffer : (X, cell) ∈ t.offersBelow table k l → ∃ held,
          RuleTable.find? filled k l X = some held ∧ cell.score ≤ held.score := fun hmem =>
        hboth.best X cell (List.mem_append_left _ hmem)
          (hfilled.sound.stride_eq.symm ▸ hX)
      cases hcell with
      | word rule =>
        refine hoffer ?_
        rw [offersBelow, if_pos (beq_self_eq_true _)]
        exact mem_lexicalOffers.2 ⟨_, _, rule, rfl⟩
      | binary mid rule left_eq right_eq =>
        refine hoffer ?_
        rw [offersBelow, if_neg (by rw [beq_iff_eq]; omega)]
        refine List.mem_flatMap.2 ⟨_, mem_midpoints.2 mid, mem_binaryOffers.2 ⟨_, _, _, _, _, rule, ?_,
          ?_, rfl⟩⟩
        · rw [← left_eq, hboth.elsewhere _ _ _ (by omega)]
        · rw [← right_eq, hboth.elsewhere _ _ _ (by omega)]
      | unary rule below_eq =>
        rw [hloose _ _ _ rule] at below_eq
        refine hunary.best X _ (mem_unaryOffers.2 ⟨_, _, _, rule, below_eq, ?_, rfl⟩) (hstride ▸ hX)
        exact (hmiddle _ _ below_eq).2

/-- In the finished table every cell holds the best that the rules make of the table. -/
theorem settled_table (hc : t.chart.Sound t.grammar) (ht : t.Unchained) :
    t.Settled (spansUp t.chart.size) t.table :=
  (spansUp_induction (P := fun visited table => t.Filled visited table ∧ t.Settled visited table)
    ⟨t.filled_make, ⟨nofun, nofun⟩⟩ fun _ _ _ _ hij hj hnew _ hlonger hv =>
      ⟨hv.1.fillCell hij hj hnew hlonger, hv.2.fillCell hc ht hv.1 hij hj hnew hlonger⟩).2

end RuleTask

end Constituency
