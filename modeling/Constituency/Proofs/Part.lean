import Constituency.Proofs.Context

/-!
# Parts of derivations

The derivations of the parts of a sentence inside a larger one (`Part`), and the constituents that a
derivation has over a span. Those over all of a span form a chain of unary rules (`exists_part`), and
no constituent overlaps a part without one containing the other (`Part.beside`).
-/

namespace Constituency

/-- Those of some places that have exactly one span. -/
def spanning (lo hi : Nat) (places : List Place) : List Place :=
  places.filter fun v => v.1 == lo && v.2.1 == hi

theorem mem_spanning {lo hi : Nat} {places : List Place} {v : Place} :
    v ∈ spanning lo hi places ↔ v ∈ places ∧ v.1 = lo ∧ v.2.1 = hi := by
  simp [spanning]

namespace Derivation

variable {α : Type} {d e f : Derivation α} {i k lo m hi : Nat} {v : Place} {A : NonTerminal}
  {p : Production α}

/-! ## Places of a derivation -/

theorem within_of_mem_nodes (h : v ∈ d.nodes i) :
    i ≤ v.1 ∧ v.1 < v.2.1 ∧ v.2.1 ≤ i + d.width := by
  induction d generalizing i with
  | word p =>
    obtain rfl := List.mem_singleton.1 h
    simp [width]
  | unary p c ih =>
    rcases List.mem_cons.1 h with rfl | h
    · have := c.width_pos
      simp only [width]
      omega
    · exact ih h
  | binary p l r ihl ihr =>
    have := l.width_pos
    rcases List.mem_cons.1 h with rfl | h
    · simp only [width]
      omega
    · rcases List.mem_append.1 h with h | h
      · have := ihl h
        simp only [width]
        omega
      · have := ihr h
        simp only [width]
        omega

/-- The constituents over exactly one span, from the top down. -/
def atSpan (lo hi start : Nat) (d : Derivation α) : List Place :=
  spanning lo hi (d.nodes start)

theorem mem_atSpan : v ∈ d.atSpan lo hi i ↔ v ∈ d.nodes i ∧ v.1 = lo ∧ v.2.1 = hi := mem_spanning

theorem atSpan_eq_nil (h : ¬ (i ≤ lo ∧ hi ≤ i + d.width)) : d.atSpan lo hi i = [] := by
  apply List.eq_nil_iff_forall_not_mem.2
  intro v hv
  obtain ⟨hmem, rfl, rfl⟩ := mem_atSpan.1 hv
  obtain ⟨hl, -, hr⟩ := within_of_mem_nodes hmem
  exact h ⟨hl, hr⟩

theorem atSpan_unary_self (p : Production α) (c : Derivation α) (i : Nat) :
    (unary p c).atSpan i (i + c.width) i = (i, i + c.width, p.parent) :: c.atSpan i (i + c.width) i := by
  simp [atSpan, spanning, nodes]

theorem atSpan_unary_of_ne (h : ¬ (i = lo ∧ i + d.width = hi)) :
    (unary p d).atSpan lo hi i = d.atSpan lo hi i := by
  rw [atSpan, nodes, spanning, List.filter_cons, if_neg (by simpa using h), atSpan, spanning]

theorem atSpan_binary_of_ne (h : ¬ (i = lo ∧ i + d.width + e.width = hi)) :
    (binary p d e).atSpan lo hi i = d.atSpan lo hi i ++ e.atSpan lo hi (i + d.width) := by
  rw [atSpan, nodes, spanning, List.filter_cons, if_neg (by simpa using h), List.filter_append]
  rfl

/-- Over its whole span a derivation has the chain of unary rules on top. -/
theorem atSpan_self (d : Derivation α) (i : Nat) :
    d.atSpan i (i + d.width) i = d.chain.map fun A => (i, i + d.width, A) := by
  induction d with
  | word p => simp [atSpan, spanning, nodes, chain, width]
  | unary p c ih =>
    rw [width, atSpan_unary_self, ih]
    rfl
  | binary p l r =>
    have := l.width_pos
    have := r.width_pos
    have hl : l.atSpan i (i + (l.width + r.width)) i = [] := atSpan_eq_nil (by omega)
    have hr : r.atSpan i (i + (l.width + r.width)) (i + l.width) = [] := atSpan_eq_nil (by omega)
    rw [atSpan, spanning] at hl hr
    simp [atSpan, spanning, nodes, chain, width, hl, hr, Nat.add_assoc]

/-- The symbol below that on top, if the rule on top is a unary one. -/
def onlyChild? : Derivation α → Option NonTerminal
  | unary _ child => some child.root
  | word _ | binary _ _ _ => none

theorem chain_of_not_isUnary (hd : d.isUnary = false) : d.chain = [d.root] := by
  cases d with
  | word | binary => rfl
  | unary => cases hd

theorem chain_eq (hd : d.SingleUnaries) : d.chain = d.root :: d.onlyChild?.toList := by
  cases d with
  | word | binary => rfl
  | unary p c =>
    rw [chain, chain_of_not_isUnary hd.1]
    rfl

theorem SingleUnaries.unaryHeight_le (hd : d.SingleUnaries) : d.unaryHeight ≤ 1 := by
  cases d with
  | word | binary => exact Nat.zero_le 1
  | unary p c => exact Nat.succ_le_succ (Nat.le_of_eq (isUnary_eq_false_iff.1 hd.1))

/-! ## Parts -/

/-- The derivation of a part of the sentence from one of the constituents, and where it begins. -/
inductive Part (start : Nat) (d : Derivation α) : Nat → Derivation α → Prop
  | whole : Part start d start d
  | child {k : Nat} {p : Production α} {e : Derivation α} (above : Part start d k (.unary p e)) :
      Part start d k e
  | left {k : Nat} {p : Production α} {e f : Derivation α}
      (above : Part start d k (.binary p e f)) : Part start d k e
  | right {k : Nat} {p : Production α} {e f : Derivation α}
      (above : Part start d k (.binary p e f)) : Part start d (k + e.width) f

namespace Part

theorem trans (h : Part i d k e) (h' : Part k e m f) : Part i d m f := by
  induction h' with
  | whole => exact h
  | child _ ih => exact ih.child
  | left _ ih => exact ih.left
  | right _ ih => exact ih.right

theorem singleUnaries (h : Part i d k e) (hd : d.SingleUnaries) : e.SingleUnaries := by
  induction h with
  | whole => exact hd
  | child _ ih => exact ih.2
  | left _ ih => exact ih.1
  | right _ ih => exact ih.2

theorem mem_nodes (h : Part i d k e) (hv : v ∈ e.nodes k) : v ∈ d.nodes i := by
  induction h with
  | whole => exact hv
  | child _ ih => exact ih (List.mem_cons_of_mem _ hv)
  | left _ ih => exact ih (List.mem_cons_of_mem _ (List.mem_append_left _ hv))
  | right _ ih => exact ih (List.mem_cons_of_mem _ (List.mem_append_right _ hv))

theorem within (h : Part i d k e) : i ≤ k ∧ k + e.width ≤ i + d.width := by
  obtain ⟨hl, -, hr⟩ := within_of_mem_nodes (h.mem_nodes (e.mem_nodes_self k))
  exact ⟨hl, hr⟩

/-- A part of a derivation of the grammar is surrounded by the rest of it. -/
theorem exists_surrounds {g : Grammar α} {s : Sentence} {live : Nat → Nat → NonTerminal → Prop}
    {j : Nat} (h : Part i d k e) (hd : DerivesIn g s live i j A d) :
    ∃ fs, Surrounds g s live (i, j, A) (k, k + e.width, e.root) fs ∧
      DerivesIn g s live k (k + e.width) e.root e ∧ plug fs e = d := by
  induction h with
  | whole =>
    rw [← hd.stop_eq, hd.root_eq]
    exact ⟨[], .nil hd.alive, hd, rfl⟩
  | @child k p e _ ih =>
    obtain ⟨fs, hfs, he, rfl⟩ := ih
    obtain ⟨mem, hpc, he⟩ := he.of_unary
    exact ⟨.unary p :: fs, .cons (.unary mem hpc) hfs he.alive, he, rfl⟩
  | @left k p e f _ ih =>
    obtain ⟨fs, hfs, he, rfl⟩ := ih
    obtain ⟨mem, hpc, he, hf⟩ := he.of_binary
    exact ⟨.left p f :: fs, .cons (.left mem hpc he.start_lt hf) hfs he.alive, he, rfl⟩
  | @right k p e f _ ih =>
    obtain ⟨fs, hfs, he, rfl⟩ := ih
    obtain ⟨mem, hpc, he, hf⟩ := he.of_binary
    rw [width, ← Nat.add_assoc] at hf hfs
    exact ⟨.right p e :: fs, .cons (.right mem hpc hf.start_lt he) hfs hf.alive, hf, rfl⟩

/-- What is put into a context is a part of what becomes of it. -/
theorem of_surrounds {g : Grammar α} {s : Sentence} {live : Nat → Nat → NonTerminal → Prop}
    {u : Place} {fs : List (Frame α)} (h : Surrounds g s live u v fs)
    (he : DerivesAt g s live v e) : Part u.1 (plug fs e) v.1 e := by
  induction h generalizing e with
  | nil => exact .whole
  | cons joins above _ ih =>
    have hfill := ih (joins.derives above.alive he)
    cases joins with
    | unary => exact hfill.child
    | left => exact hfill.left
    | right _ _ _ sister =>
      rw [sister.stop_eq]
      exact hfill.right

/-- A constituent is one of a part, or contains the part, or lies to one side of it. -/
theorem beside (h : Part i d k e) (hv : v ∈ d.nodes i) :
    v ∈ e.nodes k ∨ (v.1 ≤ k ∧ k + e.width ≤ v.2.1) ∨ v.2.1 ≤ k ∨ k + e.width ≤ v.1 := by
  induction h with
  | whole => exact .inl hv
  | @child k p e _ ih =>
    rw [nodes, width, List.mem_cons] at ih
    rcases ih with (rfl | hmem) | hsides
    · exact .inr (.inl ⟨Nat.le_refl _, Nat.le_refl _⟩)
    · exact .inl hmem
    · exact .inr hsides
  | @left k p e f _ ih =>
    rw [nodes, width, List.mem_cons, List.mem_append] at ih
    rcases ih with (rfl | hmem | hmem) | hsides
    · exact .inr (.inl ⟨Nat.le_refl _, Nat.le_add_right _ _⟩)
    · exact .inl hmem
    · exact .inr (.inr (.inr (within_of_mem_nodes hmem).1))
    · omega
  | @right k p e f _ ih =>
    rw [nodes, width, List.mem_cons, List.mem_append] at ih
    rcases ih with (rfl | hmem | hmem) | hsides
    · exact .inr (.inl ⟨Nat.le_add_right _ _, Nat.le_refl _⟩)
    · exact .inr (.inr (.inl (within_of_mem_nodes hmem).2.2))
    · exact .inl hmem
    · omega

/-- Within the span of a binary rule no constituent but those over all of it lies across the place
where the rule divides the span. -/
theorem not_across (h : Part i d k (.binary p e f)) (hv : v ∈ d.nodes i) (hl : k ≤ v.1)
    (hr : v.2.1 ≤ k + e.width + f.width) (hlm : v.1 < k + e.width) (hmr : k + e.width < v.2.1) :
    v.1 = k ∧ v.2.1 = k + e.width + f.width := by
  rcases h.left.beside hv with hmem | hleft
  · have := (within_of_mem_nodes hmem).2.2
    omega
  · rcases h.right.beside hv with hmem | hright
    · have := (within_of_mem_nodes hmem).1
      omega
    · omega

end Part

/-- What a derivation has over the span of one of its constituents is the chain on top of a part. -/
theorem exists_part (h : (lo, hi, A) ∈ d.nodes i) :
    ∃ e, Part i d lo e ∧ lo + e.width = hi ∧ d.atSpan lo hi i = e.chain.map fun B => (lo, hi, B) := by
  induction d generalizing i with
  | word p =>
    obtain ⟨rfl, rfl, rfl⟩ : lo = i ∧ hi = i + 1 ∧ A = p.parent := by simpa [nodes] using h
    exact ⟨_, .whole, rfl, atSpan_self (.word p) lo⟩
  | unary p c ih =>
    by_cases hspan : i = lo ∧ i + c.width = hi
    · obtain ⟨rfl, rfl⟩ := hspan
      exact ⟨_, .whole, rfl, atSpan_self (.unary p c) i⟩
    · rcases List.mem_cons.1 h with heq | h
      · cases heq
        exact absurd ⟨rfl, rfl⟩ hspan
      · obtain ⟨e, he, hwidth, hover⟩ := ih h
        exact ⟨e, .trans (.child .whole) he, hwidth, (atSpan_unary_of_ne hspan).trans hover⟩
  | binary p l r ihl ihr =>
    by_cases hspan : i = lo ∧ i + l.width + r.width = hi
    · obtain ⟨rfl, rfl⟩ := hspan
      refine ⟨_, .whole, (Nat.add_assoc _ _ _).symm, ?_⟩
      rw [Nat.add_assoc]
      exact atSpan_self (.binary p l r) i
    · rcases List.mem_cons.1 h with heq | h
      · cases heq
        exact absurd ⟨rfl, rfl⟩ hspan
      · rw [atSpan_binary_of_ne hspan]
        rcases List.mem_append.1 h with h | h
        · obtain ⟨e, he, hwidth, hover⟩ := ihl h
          obtain ⟨-, hlt, hr⟩ := within_of_mem_nodes h
          have hnil : r.atSpan lo hi (i + l.width) = [] := atSpan_eq_nil (by simp at hlt hr; omega)
          exact ⟨e, .trans (.left .whole) he, hwidth, by rw [hnil, List.append_nil, hover]⟩
        · obtain ⟨e, he, hwidth, hover⟩ := ihr h
          obtain ⟨hl, hlt, -⟩ := within_of_mem_nodes h
          have hnil : l.atSpan lo hi i = [] := atSpan_eq_nil (by simp at hl hlt; omega)
          exact ⟨e, .trans (.right .whole) he, hwidth, by rw [hnil, List.nil_append, hover]⟩

/-- In a derivation without detours the constituent on top occurs once. -/
theorem root_not_mem_tail (hd : d.chain.Nodup) (i : Nat) :
    (i, i + d.width, d.root) ∉ (d.nodes i).tail := by
  cases d with
  | word p => exact List.not_mem_nil
  | unary p c =>
    intro h
    have hover := mem_atSpan.2 ⟨h, rfl, rfl⟩
    rw [width, atSpan_self] at hover
    obtain ⟨A, hA, heq⟩ := List.mem_map.1 hover
    cases heq
    exact (List.nodup_cons.1 hd).1 hA
  | binary p l r =>
    intro h
    have := l.width_pos
    have := r.width_pos
    rcases List.mem_append.1 h with h | h
    · have := (within_of_mem_nodes h).2.2
      simp only [width] at this
      omega
    · have := (within_of_mem_nodes h).1
      simp only at this
      omega

end Derivation

end Constituency
