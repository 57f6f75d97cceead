import Constituency.Proofs.Part
import Constituency.Proofs.Prune

/-!
# Segments of derivations

What a tree shows of a span is a list of trees: the words of the span with the constituents within it
(`View.segment`). A segment splits wherever no constituent that is shown lies across the midpoint
(`View.segment_split`), although the derivation may divide the span elsewhere. The tree of a
derivation, without hidden constituents, is a segment below its root (`View.unfactor_tree`).
-/

namespace Constituency

/-- How a derivation is shown as a tree. -/
structure View where
  name : NonTerminal → String
  words : List String
  /-- The constituents that the tree shows. -/
  shown : Place → Bool

namespace View

variable {α : Type} {view : View} {d e : Derivation α} {i lo m hi : Nat} {v : Place}
  {trees more : List Tree}

/-- A constituent around some trees, if it is shown. -/
def enclose (view : View) (v : Place) (trees : List Tree) : List Tree :=
  if view.shown v then [.branch (view.name v.2.2) v.1 v.2.1 trees] else trees

/-- The view that shows no constituent beyond a span. -/
def confined (view : View) (lo hi : Nat) : View :=
  { view with shown := fun v => view.shown v && decide (lo ≤ v.1 ∧ v.2.1 ≤ hi) }

/-- The words of a span with the constituents shown within it. -/
def segment (view : View) (lo hi start : Nat) : Derivation α → List Tree
  | .word p => (view.confined lo hi).enclose (start, start + 1, p.parent)
      (if lo ≤ start ∧ start < hi then [.leaf (view.words.getD start "") start] else [])
  | .unary p child => (view.confined lo hi).enclose (start, start + child.width, p.parent)
      (view.segment lo hi start child)
  | .binary p left right =>
      (view.confined lo hi).enclose (start, start + left.width + right.width, p.parent)
        (view.segment lo hi start left ++ view.segment lo hi (start + left.width) right)

/-- The constituents of a list, the first one outermost, around some trees. -/
def encloseAll (view : View) (places : List Place) (trees : List Tree) : List Tree :=
  places.foldr view.enclose trees

theorem enclose_of_not_shown (h : view.shown v = false) (trees : List Tree) :
    view.enclose v trees = trees := if_neg (by simp [h])

theorem confined_of_within (hl : lo ≤ v.1) (hr : v.2.1 ≤ hi) (trees : List Tree) :
    (view.confined lo hi).enclose v trees = view.enclose v trees := by
  simp [enclose, confined, hl, hr]

theorem confined_of_not_within (h : ¬ (lo ≤ v.1 ∧ v.2.1 ≤ hi)) (trees : List Tree) :
    (view.confined lo hi).enclose v trees = trees :=
  enclose_of_not_shown (by simp only [confined, h, decide_false, Bool.and_false]) trees

/-- The labels shown of some constituents. -/
def labels (view : View) (places : List Place) : List String :=
  (places.filter view.shown).map fun v => view.name v.2.2

theorem labels_append (places more : List Place) :
    view.labels (places ++ more) = view.labels places ++ view.labels more := by
  simp [labels]

/-- Constituents over the same span stand on top of each other. -/
theorem encloseAll_spanning (places : List Place) (trees : List Tree) :
    view.encloseAll (spanning lo hi places) trees =
      Tree.stack lo hi (view.labels (spanning lo hi places)) trees := by
  induction places with
  | nil => rfl
  | cons v rest ih =>
    rw [spanning, List.filter_cons]
    split
    · next hspan =>
      simp only [Bool.and_eq_true, beq_iff_eq] at hspan
      obtain ⟨rfl, rfl⟩ := hspan
      rw [spanning] at ih
      rw [encloseAll, List.foldr_cons, labels, List.filter_cons, enclose]
      split
      · exact congrArg (fun below => [Tree.branch (view.name v.2.2) v.1 v.2.1 below]) ih
      · exact ih
    · exact ih

/-- A derivation has nothing to show of a span beside its own one. -/
theorem segment_beside (h : hi ≤ i ∨ i + d.width ≤ lo) : view.segment lo hi i d = [] := by
  induction d generalizing i with
  | word p =>
    simp only [Derivation.width] at h
    rw [segment, if_neg (by omega)]
    exact confined_of_not_within (by simp only; omega) _
  | unary p c ih =>
    have := c.width_pos
    rw [segment, ih h]
    exact confined_of_not_within (by simp only [Derivation.width] at h ⊢; omega) _
  | binary p l r ihl ihr =>
    have := l.width_pos
    have := r.width_pos
    simp only [Derivation.width] at h
    rw [segment, ihl (by omega), ihr (by omega)]
    exact confined_of_not_within (by simp only; omega) _

/-- The segment of a single word: it is enclosed by the constituents over it. -/
theorem segment_word (hl : i ≤ m) (hr : m < i + d.width) :
    view.segment m (m + 1) i d =
      view.encloseAll (d.atSpan m (m + 1) i) [.leaf (view.words.getD m "") m] := by
  induction d generalizing i with
  | word p =>
    obtain rfl : i = m := by
      simp only [Derivation.width] at hr
      omega
    rw [segment, if_pos (by omega),
      confined_of_within (v := (i, i + 1, p.parent)) (Nat.le_refl _) (Nat.le_refl _)]
    simp [Derivation.atSpan, spanning, Derivation.nodes, encloseAll]
  | unary p c ih =>
    rw [segment, ih hl hr]
    by_cases hspan : i = m ∧ i + c.width = m + 1
    · obtain ⟨rfl, hwidth⟩ := hspan
      rw [← hwidth, Derivation.atSpan_unary_self, encloseAll, encloseAll, List.foldr_cons]
      exact confined_of_within (Nat.le_refl _) (Nat.le_refl _) _
    · have hr' : m < i + c.width := hr
      rw [Derivation.atSpan_unary_of_ne hspan]
      exact confined_of_not_within (by simp only; omega) _
  | binary p l r ihl ihr =>
    have := l.width_pos
    have := r.width_pos
    simp only [Derivation.width] at hr
    rw [Derivation.atSpan_binary_of_ne (by omega), segment,
      confined_of_not_within (by simp only; omega)]
    rcases Nat.lt_or_ge m (i + l.width) with hm | hm
    · rw [ihl hl hm, segment_beside (.inl hm), Derivation.atSpan_eq_nil (d := r) (by omega),
        List.append_nil, List.append_nil]
    · rw [ihr hm (by omega), segment_beside (d := l) (.inr hm),
        Derivation.atSpan_eq_nil (d := l) (by omega), List.nil_append, List.nil_append]

/-! ## Midpoints -/

/-- What a span shows is what it shows on both sides of a midpoint, enclosed by the places with exactly
this span. -/
def Splits (view : View) (lo m hi : Nat) (places : List Place) (trees : Nat → Nat → List Tree) :
    Prop :=
  trees lo hi = view.encloseAll (spanning lo hi places) (trees lo m ++ trees m hi)

theorem spanning_eq_nil {places : List Place} (h : ∀ u ∈ places, u.1 = lo → u.2.1 ≠ hi) :
    spanning lo hi places = [] := by
  apply List.eq_nil_iff_forall_not_mem.2
  intro u hu
  obtain ⟨hmem, hlo, hhi⟩ := mem_spanning.1 hu
  exact h u hmem hlo hhi

/-- One more constituent on top. It is shown on one side of the midpoint only, unless it has exactly the span
that is split. -/
theorem Splits.enclose {places : List Place} {trees : Nat → Nat → List Tree} (hlm : lo < m)
    (hmh : m < hi) (hv : v.1 < v.2.1) (h : view.Splits lo m hi places trees)
    (hwithin : ∀ u ∈ places, v.1 ≤ u.1 ∧ u.2.1 ≤ v.2.1)
    (hbeside : ∀ k l, l ≤ v.1 ∨ v.2.1 ≤ k → trees k l = [])
    (hacross : view.shown v = true → lo ≤ v.1 → v.2.1 ≤ hi → v.1 < m → m < v.2.1 →
      v.1 = lo ∧ v.2.1 = hi) :
    view.Splits lo m hi (v :: places) fun k l => (view.confined k l).enclose v (trees k l) := by
  unfold Splits at h ⊢
  dsimp only
  by_cases hspan : v.1 = lo ∧ v.2.1 = hi
  · obtain ⟨rfl, rfl⟩ := hspan
    rw [confined_of_within (Nat.le_refl _) (Nat.le_refl _), h,
      confined_of_not_within (by omega), confined_of_not_within (by omega)]
    simp [spanning, encloseAll]
  have hspanning : spanning lo hi (v :: places) = spanning lo hi places := by
    rw [spanning, List.filter_cons, if_neg (by simpa using hspan), spanning]
  rw [hspanning]
  by_cases hin : lo ≤ v.1 ∧ v.2.1 ≤ hi
  · by_cases hshown : view.shown v = true
    · have hnil : spanning lo hi places = [] := by
        apply spanning_eq_nil
        intro u hu
        have := hwithin u hu
        omega
      rw [hnil] at h ⊢
      rw [confined_of_within hin.1 hin.2, h]
      rcases Nat.lt_or_ge v.1 m with hm | hm
      · have hside : v.2.1 ≤ m := by
          by_contra hnot
          exact hspan (hacross hshown hin.1 hin.2 hm (by omega))
        rw [hbeside m hi (.inr hside), confined_of_within hin.1 hside,
          confined_of_not_within (by omega)]
        simp [encloseAll]
      · rw [hbeside lo m (.inl hm), confined_of_within hm hin.2,
          confined_of_not_within (by omega)]
        simp [encloseAll]
    · have hhidden : ∀ k l, (view.confined k l).shown v = false := by
        intro k l
        simp [confined, hshown]
      rw [enclose_of_not_shown (hhidden _ _), enclose_of_not_shown (hhidden _ _),
        enclose_of_not_shown (hhidden _ _), h]
  · rw [confined_of_not_within hin, confined_of_not_within (by omega),
      confined_of_not_within (by omega), h]

/-- Two neighbours: at most one of them has something on both sides of the midpoint. -/
theorem Splits.append {places places' : List Place} {trees trees' : Nat → Nat → List Tree} {b : Nat}
    (hlm : lo < m) (hmh : m < hi) (h : view.Splits lo m hi places trees)
    (h' : view.Splits lo m hi places' trees') (hleft : ∀ u ∈ places, u.2.1 ≤ b)
    (hright : ∀ u ∈ places', b ≤ u.1) (hbeside : ∀ k l, b ≤ k → trees k l = [])
    (hbeside' : ∀ k l, l ≤ b → trees' k l = []) :
    view.Splits lo m hi (places ++ places') fun k l => trees k l ++ trees' k l := by
  unfold Splits at h h' ⊢
  dsimp only
  have hspanning : spanning lo hi (places ++ places') =
      spanning lo hi places ++ spanning lo hi places' := List.filter_append ..
  have hnil : b < hi → spanning lo hi places = [] := by
    intro hb
    apply spanning_eq_nil
    intro u hu
    have := hleft u hu
    omega
  have hnil' : lo < b → spanning lo hi places' = [] := by
    intro hb
    apply spanning_eq_nil
    intro u hu
    have := hright u hu
    omega
  rw [hspanning]
  rcases Nat.lt_or_ge b hi with hb | hb
  · rw [hnil hb] at h ⊢
    rcases Nat.lt_or_ge lo b with hb' | hb'
    · rw [hnil' hb'] at h' ⊢
      rw [h, h']
      rcases Nat.lt_or_ge m b with hm | hm
      · rw [hbeside' lo m (Nat.le_of_lt hm)]
        simp [encloseAll]
      · rw [hbeside m hi hm]
        simp [encloseAll]
    · rw [hbeside lo hi hb', hbeside lo m hb', hbeside m hi (by omega), h']
      rfl
  · rw [hnil' (by omega), hbeside' lo hi hb, hbeside' lo m (by omega), hbeside' m hi hb, h]
    simp

/-- A segment splits at a midpoint that no constituent shown lies across. -/
theorem segment_splits (hlm : lo < m) (hmh : m < hi)
    (hacross : ∀ v ∈ d.nodes i, view.shown v = true → lo ≤ v.1 → v.2.1 ≤ hi → v.1 < m →
      m < v.2.1 → v.1 = lo ∧ v.2.1 = hi) :
    view.Splits lo m hi (d.nodes i) fun k l => view.segment k l i d := by
  induction d generalizing i with
  | word p =>
    refine Splits.enclose hlm hmh (Nat.lt_succ_self i) ?_ (fun _ hu => nomatch hu) ?_
      (hacross _ List.mem_cons_self)
    · show (if lo ≤ i ∧ i < hi then [Tree.leaf (view.words.getD i "") i] else []) = _ ++ _
      grind
    · intro k l hkl
      exact if_neg (by simp only at hkl; omega)
  | unary p c ih =>
    refine Splits.enclose hlm hmh ?_ (ih fun v hv => hacross v (List.mem_cons_of_mem _ hv)) ?_ ?_
      (hacross _ List.mem_cons_self)
    · have := c.width_pos
      simp only
      omega
    · intro u hu
      obtain ⟨hl, -, hr⟩ := Derivation.within_of_mem_nodes hu
      exact ⟨hl, hr⟩
    · intro k l hkl
      exact segment_beside hkl
  | binary p l r ihl ihr =>
    have := l.width_pos
    have hl := ihl fun v hv =>
      hacross v (List.mem_cons_of_mem _ (List.mem_append_left _ hv))
    have hr := ihr fun v hv =>
      hacross v (List.mem_cons_of_mem _ (List.mem_append_right _ hv))
    refine Splits.enclose hlm hmh ?_
      (Splits.append (b := i + l.width) hlm hmh hl hr ?_ ?_ ?_ ?_) ?_ ?_
      (hacross _ List.mem_cons_self)
    · simp only
      omega
    · intro u hu
      exact (Derivation.within_of_mem_nodes hu).2.2
    · intro u hu
      exact (Derivation.within_of_mem_nodes hu).1
    · intro k m hk
      exact segment_beside (.inr hk)
    · intro k m hm
      exact segment_beside (.inl hm)
    · intro u hu
      simp only
      rcases List.mem_append.1 hu with hu | hu
      · have := Derivation.within_of_mem_nodes hu
        omega
      · have := Derivation.within_of_mem_nodes hu
        omega
    · intro k m hkm
      simp only at hkm
      rw [segment_beside (by omega), segment_beside (by omega)]
      rfl

theorem segment_split (hlm : lo < m) (hmh : m < hi)
    (hacross : ∀ v ∈ d.nodes i, view.shown v = true → lo ≤ v.1 → v.2.1 ≤ hi → v.1 < m →
      m < v.2.1 → v.1 = lo ∧ v.2.1 = hi) :
    view.segment lo hi i d =
      view.encloseAll (d.atSpan lo hi i) (view.segment lo m i d ++ view.segment m hi i d) :=
  segment_splits hlm hmh hacross

/-! ## The tree of a derivation -/

theorem start_tree (name : NonTerminal → String) (words : List String) (d : Derivation α) (i : Nat) :
    (d.tree name words i).start = i := by
  induction d generalizing i with
  | word p => rfl
  | unary p c ih => exact ih i
  | binary p l r ihl _ => exact ihl i

theorem stop_tree (name : NonTerminal → String) (words : List String) (d : Derivation α) (i : Nat) :
    (d.tree name words i).stop = i + d.width := by
  induction d generalizing i with
  | word p => rfl
  | unary p c ih => exact ih i
  | binary p l r _ ihr => exact (ihr (i + l.width)).trans (Nat.add_assoc _ _ _)

theorem tree_unary (name : NonTerminal → String) (words : List String) (p : Production α)
    (c : Derivation α) (i : Nat) :
    (Derivation.unary p c).tree name words i =
      .branch (name p.parent) i (i + c.width) [c.tree name words i] := by
  simp [Derivation.tree, Tree.join, start_tree, stop_tree]

theorem tree_binary (name : NonTerminal → String) (words : List String) (p : Production α)
    (l r : Derivation α) (i : Nat) :
    (Derivation.binary p l r).tree name words i =
      .branch (name p.parent) i (i + l.width + r.width)
        [l.tree name words i, r.tree name words (i + l.width)] := by
  simp [Derivation.tree, Tree.join, start_tree, stop_tree]

/-- The tree over a single word: the chain of unary rules on top of each other. -/
theorem tree_eq_stack (name : NonTerminal → String) (words : List String) (hd : d.width = 1)
    (i : Nat) :
    [d.tree name words i] =
      Tree.stack i (i + 1) (d.chain.map name) [.leaf (words.getD i "") i] := by
  induction d with
  | word p => rfl
  | unary p c ih =>
    have hc : c.width = 1 := hd
    rw [tree_unary, Derivation.chain, List.map_cons, hc]
    exact congrArg (fun below => [Tree.branch (name p.parent) i (i + 1) below]) (ih hc)
  | binary p l r =>
    have := l.width_pos
    have := r.width_pos
    simp only [Derivation.width] at hd
    omega

/-- A constituent with its name. -/
def named (name : NonTerminal → String) (v : Place) : Nat × Nat × String := (v.1, v.2.1, name v.2.2)

theorem constituents_eq_map_nodes (name : NonTerminal → String) (words : List String) (d : Derivation α)
    (i : Nat) : (d.tree name words i).constituents = (d.nodes i).map (named name) := by
  induction d generalizing i with
  | word p => rfl
  | unary p c ih =>
    rw [tree_unary, Tree.constituents, Tree.constituentsOfAll, Tree.constituentsOfAll,
      List.append_nil, ih]
    rfl
  | binary p l r ihl ihr =>
    rw [tree_binary, Tree.constituents, Tree.constituentsOfAll, Tree.constituentsOfAll,
      Tree.constituentsOfAll, List.append_nil, ihl, ihr, Derivation.nodes, List.map_cons,
      List.map_append]
    rfl

/-- A tree whose constituents are left out unless they are shown is a segment. -/
theorem prune_tree {keep : Nat × Nat × String → Bool}
    (hkeep : ∀ v ∈ d.nodes i, keep (named view.name v) = view.shown v) (hl : lo ≤ i)
    (hr : i + d.width ≤ hi) :
    (d.tree view.name view.words i).prune keep = view.segment lo hi i d := by
  -- a constituent on top of what is shown of its children
  have hbranch : ∀ {v : Place} {children : List Tree}, keep (named view.name v) = view.shown v →
      lo ≤ v.1 → v.2.1 ≤ hi →
      (Tree.branch (view.name v.2.2) v.1 v.2.1 children).prune keep =
        (view.confined lo hi).enclose v (Tree.pruneAll keep children) := by
    intro v children hv hvl hvr
    rw [confined_of_within hvl hvr, enclose, ← hv]
    rfl
  induction d generalizing i with
  | word p =>
    rw [segment, if_pos ⟨hl, hr⟩]
    exact hbranch (v := (i, i + 1, p.parent)) (hkeep _ List.mem_cons_self) hl hr
  | unary p c ih =>
    rw [segment, ← ih (fun v hv => hkeep v (List.mem_cons_of_mem _ hv)) hl hr, tree_unary,
      ← Tree.pruneAll_singleton keep (c.tree ..)]
    exact hbranch (v := (i, i + c.width, p.parent)) (hkeep _ List.mem_cons_self) hl hr
  | binary p l r ihl ihr =>
    have hr' : i + l.width + r.width ≤ hi := by
      rw [Nat.add_assoc]
      exact hr
    have hleft := ihl (fun v hv => hkeep v (List.mem_cons_of_mem _ (List.mem_append_left _ hv))) hl
      (by omega)
    have hright := ihr (fun v hv => hkeep v (List.mem_cons_of_mem _ (List.mem_append_right _ hv)))
      (by omega) hr'
    rw [segment, ← hleft, ← hright, tree_binary, ← Tree.pruneAll_singleton keep (l.tree ..),
      ← Tree.pruneAll_singleton keep (r.tree ..), ← Tree.pruneAll_append]
    exact hbranch (v := (i, i + l.width + r.width, p.parent)) (hkeep _ List.mem_cons_self) hl hr'

/-- The view of a derivation below its topmost constituent, without hidden constituents. -/
def below (name : NonTerminal → String) (words : List String) (start : Nat) (d : Derivation α) :
    View where
  name
  words
  shown v := !Tree.isHidden (name v.2.2) && decide (v ∈ (d.nodes start).tail)

theorem shown_below {name : NonTerminal → String} {words : List String} :
    (below name words i d).shown v = true ↔
      Tree.isHidden (name v.2.2) = false ∧ v ∈ (d.nodes i).tail := by
  simp [below]

/-- Beneath the topmost constituent a view hides what is hidden from a reader. -/
theorem prune_below {name : NonTerminal → String} {words : List String} {k : Nat}
    (he : ∀ v ∈ e.nodes k, v ∈ (d.nodes i).tail) (hl : lo ≤ k) (hr : k + e.width ≤ hi) :
    (e.tree name words k).prune (fun c => !Tree.isHidden c.2.2) =
      (below name words i d).segment lo hi k e := by
  let keep := fun c : Nat × Nat × String => !Tree.isHidden c.2.2
  have hkeep : ∀ v ∈ e.nodes k, keep (named (below name words i d).name v) =
      (below name words i d).shown v := by
    intro v hv
    simp [keep, below, named, he v hv]
  exact prune_tree hkeep hl hr

/-- The tree of a derivation without hidden constituents: its root, which always stays, and a
segment. -/
theorem unfactor_tree (name : NonTerminal → String) (words : List String) (hd : d.chain.Nodup)
    (i : Nat) :
    (d.tree name words i).unfactor =
      .branch (name d.root) i (i + d.width)
        ((below name words i d).segment i (i + d.width) i d) := by
  have htop : ∀ trees : List Tree, ((below name words i d).confined i (i + d.width)).enclose
      (i, i + d.width, d.root) trees = trees := by
    intro trees
    apply enclose_of_not_shown
    simp [confined, below, Derivation.root_not_mem_tail hd i]
  cases d with
  | word p =>
    rw [segment, if_pos ⟨Nat.le_refl i, Nat.lt_succ_self i⟩]
    exact congrArg (Tree.branch _ _ _) (htop _).symm
  | unary p c =>
    rw [tree_unary, Tree.unfactor, Tree.spliceAll_eq_pruneAll, Tree.pruneAll_singleton,
      prune_below (d := .unary p c) (fun v hv => hv) (Nat.le_refl i) (Nat.le_refl (i + c.width))]
    exact congrArg (Tree.branch _ _ _) (htop _).symm
  | binary p l r =>
    have hl : i + l.width ≤ i + (l.width + r.width) := by omega
    have hr : i + l.width + r.width ≤ i + (l.width + r.width) := by omega
    rw [tree_binary, Tree.unfactor, Tree.spliceAll_eq_pruneAll, Tree.pruneAll, Tree.pruneAll,
      Tree.pruneAll, List.append_nil,
      prune_below (d := .binary p l r) (fun v hv => List.mem_append_left _ hv) (Nat.le_refl i) hl,
      prune_below (d := .binary p l r) (fun v hv => List.mem_append_right _ hv)
        (Nat.le_add_right i l.width) hr, Nat.add_assoc i]
    refine congrArg (Tree.branch _ _ _) ?_
    rw [segment, Nat.add_assoc]
    exact (htop _).symm

end View

end Constituency
