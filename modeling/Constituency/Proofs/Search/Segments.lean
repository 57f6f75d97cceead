import Constituency.Proofs.Search.Exhaustive

/-!
# Segments of left children

A search may cross the left children of a span in several segments. All segments together offer what is
offered without them, sorted by segment (`flatten_segments`).
-/

namespace Constituency

/-! ## Lists sorted by number -/

/-- A list sorted by numbers below a bound; what has the same number stays in its order. -/
def sortedBy {β : Type} (key : β → Nat) (bound : Nat) (xs : List β) : List β :=
  (List.range bound).flatMap fun k => xs.filter (key · == k)

/-- What is made of the members that pass a test is what passes a test of what is made of all. -/
theorem flatMap_filter {β γ : Type} {test : β → Bool} {keep : γ → Bool} {f : β → List γ}
    (h : ∀ x, ∀ y ∈ f x, keep y = test x) (xs : List β) :
    (xs.filter test).flatMap f = (xs.flatMap f).filter keep := by
  induction xs with
  | nil => rfl
  | cons x rest ih =>
    rw [List.flatMap_cons, List.filter_append, ← ih]
    by_cases htest : test x = true
    · have hall : (f x).filter keep = f x :=
        List.filter_eq_self.2 fun y hy => (h x y hy).trans htest
      rw [List.filter_cons_of_pos htest, List.flatMap_cons, hall]
    · have hnone : (f x).filter keep = [] :=
        List.filter_eq_nil_iff.2 fun y hy => (h x y hy).symm ▸ htest
      rw [List.filter_cons_of_neg htest, hnone, List.nil_append]

section SortedBy

variable {β : Type} {key : β → Nat} {bound : Nat} {xs : List β} {x y : β} {p : β → Bool}

theorem sortedBy_perm (h : ∀ x ∈ xs, key x < bound) : (sortedBy key bound xs).Perm xs := by
  suffices hbelow : ∀ n, (sortedBy key n xs).Perm (xs.filter fun x => decide (key x < n)) by
    have hall := hbelow bound
    rwa [List.filter_eq_self.2 fun x hx => decide_eq_true (h x hx)] at hall
  intro n
  induction n with
  | zero => simp [sortedBy]
  | succ n ih =>
    have hsplit := List.filter_append_perm (fun x => decide (key x < n))
      (xs.filter fun x => decide (key x < n + 1))
    have hlow : (xs.filter fun x => decide (key x < n + 1)).filter (fun x => decide (key x < n)) =
        xs.filter fun x => decide (key x < n) := by
      rw [List.filter_filter]
      refine List.filter_congr fun x _ => ?_
      rw [Bool.eq_iff_iff]
      simp only [Bool.and_eq_true, decide_eq_true_eq]
      omega
    have hlast : (xs.filter fun x => decide (key x < n + 1)).filter
        (fun x => !decide (key x < n)) = xs.filter (key · == n) := by
      rw [List.filter_filter]
      refine List.filter_congr fun x _ => ?_
      rw [Bool.eq_iff_iff]
      simp only [Bool.and_eq_true, Bool.not_eq_true', decide_eq_false_iff_not, decide_eq_true_eq,
        beq_iff_eq]
      omega
    rw [hlow, hlast] at hsplit
    rw [sortedBy, List.range_succ, List.flatMap_append, List.flatMap_singleton]
    exact (ih.append_right _).trans hsplit

/-- Lower numbers come before in a range. -/
theorem mem_of_range_eq {n k l : Nat} {before after : List Nat}
    (hrange : List.range n = before ++ k :: after) (hl : l < k) : l ∈ before := by
  have hsorted : (before ++ k :: after).Pairwise (· < ·) := hrange ▸ List.pairwise_lt_range
  have hk : k < n := List.mem_range.1 (hrange ▸ List.mem_append_right before List.mem_cons_self)
  have hlist : l ∈ before ++ k :: after := hrange ▸ List.mem_range.2 (Nat.lt_trans hl hk)
  rcases List.mem_append.1 hlist with hmem | hmem
  · exact hmem
  · rcases List.mem_cons.1 hmem with rfl | hafter
    · exact absurd hl (Nat.lt_irrefl _)
    · have hgt := List.rel_of_pairwise_cons (List.pairwise_append.1 hsorted).2.1 hafter
      exact absurd hl (Nat.lt_asymm hgt)

/-- What is found first among the sorted has the lowest number, and is the first with that number. -/
theorem find?_sortedBy (hy : (sortedBy key bound xs).find? p = some y) :
    (∀ z ∈ xs, p z = true → key y ≤ key z) ∧
      xs.find? (fun z => key z == key y && p z) = some y := by
  rw [sortedBy, List.find?_flatMap, List.findSome?_eq_some_iff] at hy
  obtain ⟨before, k, after, hrange, hk, hbefore⟩ := hy
  have hkey : key y = k := beq_iff_eq.1 (List.mem_filter.1 (List.mem_of_find?_eq_some hk)).2
  subst hkey
  refine ⟨fun z hz hpz => Nat.not_lt.1 fun hlt => ?_, ?_⟩
  · have hmem : key z ∈ before := mem_of_range_eq hrange hlt
    exact List.find?_eq_none.1 (hbefore _ hmem) z (List.mem_filter.2 ⟨hz, beq_self_eq_true _⟩) hpz
  · rw [List.find?_filter] at hk
    rw [← hk]
    congr 1
    funext z
    rw [Bool.eq_iff_iff]
    simp

/-- What is found first stays so in the sorted list unless something with a lower number is found. -/
theorem eq_iff_of_find?_sortedBy (hx : xs.find? p = some x)
    (hy : (sortedBy key bound xs).find? p = some y) :
    y = x ↔ ∀ z ∈ xs, p z = true → key x ≤ key z := by
  obtain ⟨hlowest, hfirst⟩ := find?_sortedBy hy
  have hxmem := List.mem_of_find?_eq_some hx
  have hymem := List.mem_of_find?_eq_some hfirst
  constructor
  · rintro rfl z hz hpz
    exact hlowest z hz hpz
  · intro hmin
    have hkey : key x = key y := Nat.le_antisymm (hmin y hymem (List.find?_some hy))
      (hlowest x hxmem (List.find?_some hx))
    obtain ⟨hpx, before, after, hxs, hbefore⟩ := List.find?_eq_some_iff_append.1 hx
    have hagain : xs.find? (fun z => key z == key y && p z) = some x := by
      refine List.find?_eq_some_iff_append.2 ⟨by simp [hkey, hpx], before, after, hxs, ?_⟩
      intro z hz
      rw [Bool.not_and, hbefore z hz, Bool.or_true]
    exact Option.some.inj (hfirst.symm.trans hagain)

end SortedBy

namespace Exhaustive

variable {α : Type} {g : Grammar α} {c : Chart α} {i j count : Nat} {e : Entry α}

/-! ## Segments -/

/-- The number of left children in a segment. -/
def segmentLength (g : Grammar α) (count : Nat) : Nat :=
  (g.numNonterminals + count - 1) / count

/-- Every non-terminal lies within the segments. -/
theorem div_segmentLength_lt (hcount : 0 < count) {nt : NonTerminal}
    (hnt : nt < g.numNonterminals) :
    0 < segmentLength g count ∧ nt / segmentLength g count < min count g.numNonterminals := by
  have hpos : count ≤ g.numNonterminals + count - 1 := by
    have := Nat.zero_lt_of_lt hnt
    omega
  have hlong : 0 < segmentLength g count := Nat.div_pos hpos hcount
  have hceil : g.numNonterminals ≤ count * segmentLength g count := by
    have hdiv := Nat.div_add_mod (g.numNonterminals + count - 1) count
    have hmod := Nat.mod_lt (g.numNonterminals + count - 1) hcount
    rw [← segmentLength] at hdiv
    omega
  have hfew : nt / segmentLength g count < count :=
    (Nat.div_lt_iff_lt_mul hlong).2 (Nat.lt_of_lt_of_le hnt hceil)
  exact ⟨hlong, Nat.lt_min.2 ⟨hfew, Nat.lt_of_le_of_lt (Nat.div_le_self _ _) hnt⟩⟩

/-- The segment in which an entry has its left child. -/
def segmentOf (g : Grammar α) (count : Nat) (e : Entry α) : Nat :=
  match e.backpointer with
  | .binary left _ _ => left / segmentLength g count
  | .lexical _ | .unary _ => 0

variable [Score α]

/-- The entries whose left children are in a segment are found among those over all left children. -/
theorem binaryEntries_eq_filter (g : Grammar α) (c : Chart α) (i j : Nat)
    {inSegment : NonTerminal → Bool} {keep : Entry α → Bool}
    (hkeep : ∀ e left right m, e.backpointer = .binary left right m → left < g.numNonterminals →
      keep e = inSegment left) :
    binaryEntries g c i j inSegment = (binaryEntries g c i j fun _ => true).filter keep := by
  rw [binaryEntries, binaryEntries, List.filter_flatMap]
  refine List.flatMap_congr fun m _ => ?_
  dsimp only
  rw [List.filter_true]
  refine flatMap_filter (fun l e he => ?_) _
  simp only [List.mem_flatMap, List.mem_map, Grammar.mem_byChildPair] at he
  obtain ⟨r, -, p, ⟨hp, hc⟩, rfl⟩ := he
  exact hkeep _ _ _ _ rfl (Grammar.binary_lt hp hc).1

/-- The left child of an entry lies within the segments. -/
theorem segmentOf_lt (hcount : 0 < count) {inSegment : NonTerminal → Bool}
    (he : e ∈ binaryEntries g c i j inSegment) :
    segmentOf g count e < min count g.numNonterminals := by
  obtain ⟨p, hp, left, right, m, hc, -, hb⟩ := exists_rule_of_mem_binaryEntries he
  rw [segmentOf, hb]
  exact (div_segmentLength_lt hcount (Grammar.binary_lt hp hc).1).2

/-- The segments offer the entries sorted by segment. -/
theorem map_segments (g : Grammar α) (c : Chart α) (i j : Nat) (hcount : 0 < count) :
    (segments g count).map (binaryEntries g c i j) =
      (List.range (min count g.numNonterminals)).map fun k =>
        (binaryEntries g c i j fun _ => true).filter (segmentOf g count · == k) := by
  rw [segments, List.map_map]
  refine List.map_congr_left fun k _ =>
    binaryEntries_eq_filter g c i j fun e left right m hb hleft => ?_
  have hlong := (div_segmentLength_lt hcount hleft).1
  rw [segmentOf, hb, ← segmentLength, Bool.eq_iff_iff, beq_iff_eq, Bool.and_eq_true,
    decide_eq_true_iff, decide_eq_true_iff]
  constructor
  · rintro rfl
    exact ⟨Nat.div_mul_le_self _ _, Nat.lt_mul_of_div_lt (Nat.lt_succ_self _) hlong⟩
  · rintro ⟨hlow, hhigh⟩
    exact Nat.div_eq_of_lt_le hlow hhigh

/-- The entries that binary rules give over a span, sorted by segment. -/
def crossOrder (g : Grammar α) (c : Chart α) (count i j : Nat) : List (Entry α) :=
  sortedBy (segmentOf g count) (min count g.numNonterminals) (binaryEntries g c i j fun _ => true)

theorem flatten_segments (g : Grammar α) (c : Chart α) (i j : Nat) (hcount : 0 < count) :
    ((segments g count).map (binaryEntries g c i j)).flatten = crossOrder g c count i j := by
  rw [map_segments g c i j hcount, crossOrder, sortedBy, List.flatMap_def]

theorem crossOrder_perm (hcount : 0 < count) :
    (crossOrder g c count i j).Perm (binaryEntries g c i j fun _ => true) :=
  sortedBy_perm fun _ he => segmentOf_lt hcount he

/-- A single segment keeps the order. -/
theorem crossOrder_one (g : Grammar α) (c : Chart α) (i j : Nat) :
    crossOrder g c 1 i j = binaryEntries g c i j fun _ => true := by
  cases hnone : binaryEntries g c i j fun _ => true with
  | nil => simp [crossOrder, sortedBy, hnone]
  | cons e rest =>
    have hlt : ∀ e' ∈ e :: rest, segmentOf g 1 e' < min 1 g.numNonterminals := fun e' he' =>
      segmentOf_lt Nat.one_pos (hnone ▸ he')
    have hone : min 1 g.numNonterminals = 1 := by
      have := hlt e List.mem_cons_self
      omega
    rw [hone] at hlt
    rw [crossOrder, hone, hnone, sortedBy, List.range_one, List.flatMap_singleton]
    exact List.filter_eq_self.2 fun e' he' => beq_iff_eq.2 (Nat.lt_one_iff.1 (hlt e' he'))

end Exhaustive

end Constituency
