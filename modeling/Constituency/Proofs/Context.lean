import Constituency.Proofs.Derivation
import Mathlib.Data.List.Induction
import Mathlib.Data.List.Perm.Subperm
import Mathlib.Logic.Relation

/-!
# Contexts

A derivation that contains a constituent is made up of the derivation of the constituent and of what
surrounds it, a path of frames from the constituent up to the top. If unary rules form no cycle, no
constituent occurs twice in a derivation, so that it comes apart in one way only
(`Surrounds.plug_inj`). Chains of unary rules are then no longer than the list of symbols to choose
from (`length_le_of_chain`).
-/

namespace Constituency

/-! ## Unary chains -/

/-- A unary rule leads from the first symbol down to the second. -/
def Grammar.UnaryStep {α : Type} (g : Grammar α) (parent child : NonTerminal) : Prop :=
  ∃ p ∈ g.productions, p.parent = parent ∧ p.children = .unary child

/-- No chain of unary rules leads from a symbol back to itself. -/
def Grammar.UnaryAcyclic {α : Type} (g : Grammar α) : Prop :=
  ∀ nt, ¬ Relation.TransGen g.UnaryStep nt nt

/-- Unary rules that only lead to later symbols form no circle. -/
theorem Grammar.unaryAcyclic_of_parent_lt {α : Type} {g : Grammar α}
    (h : ∀ p ∈ g.productions, ∀ child, p.children = .unary child → p.parent < child) :
    g.UnaryAcyclic := by
  have hlt : ∀ {A B}, Relation.TransGen g.UnaryStep A B → A < B := by
    intro A B hAB
    induction hAB with
    | single hstep =>
      obtain ⟨p, hp, rfl, hpc⟩ := hstep
      exact h p hp _ hpc
    | tail _ hstep ih =>
      obtain ⟨p, hp, rfl, hpc⟩ := hstep
      exact Nat.lt_trans ih (h p hp _ hpc)
  exact fun A hA => Nat.lt_irrefl A (hlt hA)

/-- A chain of distinct symbols is no longer than the list they come from. -/
theorem length_le_of_chain {R : NonTerminal → NonTerminal → Prop} (hirrefl : ∀ A, ¬ R A A)
    {chain symbols : List NonTerminal} (hchain : chain.Pairwise R)
    (hsub : ∀ A ∈ chain, A ∈ symbols) : chain.length ≤ symbols.length := by
  have hnodup : chain.Nodup := hchain.imp fun {A B} hR heq => by
    subst heq
    exact hirrefl A hR
  exact (hnodup.subperm hsub).length_le

namespace Derivation

variable {α : Type}

/-- The number of unary rules on top. -/
def unaryHeight : Derivation α → Nat
  | word _ | binary _ _ _ => 0
  | unary _ child => child.unaryHeight + 1

/-- The symbols of the chain of unary rules on top, and the one below. -/
def chain : Derivation α → List NonTerminal
  | word p | binary p _ _ => [p.parent]
  | unary p child => p.parent :: child.chain

theorem length_chain (d : Derivation α) : d.chain.length = d.unaryHeight + 1 := by
  induction d with
  | word | binary => rfl
  | unary _ _ ih => rw [chain, List.length_cons, ih, unaryHeight]

theorem isUnary_eq_false_iff {d : Derivation α} : d.isUnary = false ↔ d.unaryHeight = 0 := by
  cases d <;> simp [isUnary, unaryHeight]

end Derivation

section

variable {α : Type} {g : Grammar α} {s : Sentence} {live : Nat → Nat → NonTerminal → Prop}
  {i j : Nat} {A : NonTerminal} {d : Derivation α}

theorem DerivesIn.chain_pairwise (h : DerivesIn g s live i j A d) :
    d.chain.Pairwise (Relation.TransGen g.UnaryStep) ∧
      (∀ B ∈ d.chain, B = A ∨ Relation.TransGen g.UnaryStep A B) ∧ ∀ B ∈ d.chain, live i j B := by
  induction h with
  | word _ _ _ alive | binary _ _ _ _ alive =>
    refine ⟨List.pairwise_singleton _ _, fun B hB => ?_, fun B hB => ?_⟩
    · exact .inl (List.mem_singleton.1 hB)
    · rwa [List.mem_singleton.1 hB]
  | @unary i j p C d mem children below alive ih =>
    obtain ⟨hpair, htop, hlive⟩ := ih
    have hbelow : ∀ B ∈ d.chain, Relation.TransGen g.UnaryStep p.parent B := by
      intro B hB
      have hstep : g.UnaryStep p.parent C := ⟨p, mem, rfl, children⟩
      rcases htop B hB with rfl | htrans
      · exact .single hstep
      · exact .head hstep htrans
    refine ⟨List.pairwise_cons.2 ⟨hbelow, hpair⟩, fun B hB => ?_, fun B hB => ?_⟩
    · exact (List.mem_cons.1 hB).imp_right (hbelow B)
    · rcases List.mem_cons.1 hB with rfl | hB
      · exact alive
      · exact hlive B hB

theorem DerivesIn.unaryHeight_lt (hg : g.UnaryAcyclic) (h : DerivesIn g s live i j A d)
    {symbols : List NonTerminal} (hsymbols : ∀ B, live i j B → B ∈ symbols) :
    d.unaryHeight < symbols.length := by
  obtain ⟨hpair, -, hlive⟩ := h.chain_pairwise
  have hle := length_le_of_chain hg hpair fun B hB => hsymbols B (hlive B hB)
  rw [d.length_chain] at hle
  exact hle

end

/-! ## Frames -/

/-- A span and a symbol over it. -/
abbrev Place := Nat × Nat × NonTerminal

/-- One step of what surrounds a constituent: the rule above it and, below that, its sister. -/
inductive Frame (α : Type) where
  | unary (rule : Production α)
  | left (rule : Production α) (sister : Derivation α)
  | right (rule : Production α) (sister : Derivation α)

namespace Frame

variable {α : Type}

/-- The frame is that of a unary rule. -/
def isUnary : Frame α → Bool
  | unary _ => true
  | left _ _ | right _ _ => false

/-- The derivation in its frame. -/
def fill : Frame α → Derivation α → Derivation α
  | unary p, d => .unary p d
  | left p sister, d => .binary p d sister
  | right p sister, d => .binary p sister d

/-- The frame leads from a place to one right below it. -/
inductive Joins (g : Grammar α) (s : Sentence) (live : Nat → Nat → NonTerminal → Prop) :
    Frame α → Place → Place → Prop
  | unary {i j : Nat} {p : Production α} {B : NonTerminal} (mem : p ∈ g.productions)
      (children : p.children = .unary B) :
      Joins g s live (.unary p) (i, j, p.parent) (i, j, B)
  | left {i m j : Nat} {p : Production α} {B C : NonTerminal} {d : Derivation α}
      (mem : p ∈ g.productions) (children : p.children = .binary B C) (lt : i < m)
      (sister : DerivesIn g s live m j C d) :
      Joins g s live (.left p d) (i, j, p.parent) (i, m, B)
  | right {i m j : Nat} {p : Production α} {B C : NonTerminal} {d : Derivation α}
      (mem : p ∈ g.productions) (children : p.children = .binary B C) (lt : m < j)
      (sister : DerivesIn g s live i m B d) :
      Joins g s live (.right p d) (i, j, p.parent) (m, j, C)

end Frame

/-- A path of frames leads from a place up to another one, by way of live places alone. It begins
with the frame around the lower place. -/
inductive Surrounds {α : Type} (g : Grammar α) (s : Sentence)
    (live : Nat → Nat → NonTerminal → Prop) : Place → Place → List (Frame α) → Prop
  | nil {u : Place} (alive : live u.1 u.2.1 u.2.2) : Surrounds g s live u u []
  | cons {u v w : Place} {f : Frame α} {fs : List (Frame α)} (joins : f.Joins g s live v w)
      (above : Surrounds g s live u v fs) (alive : live w.1 w.2.1 w.2.2) :
      Surrounds g s live u w (f :: fs)

/-- The derivation in all its frames. -/
def plug {α : Type} (fs : List (Frame α)) (d : Derivation α) : Derivation α :=
  fs.foldl (fun d f => f.fill d) d

/-- The place has a derivation. -/
abbrev DerivesAt {α : Type} (g : Grammar α) (s : Sentence) (live : Nat → Nat → NonTerminal → Prop)
    (u : Place) (d : Derivation α) : Prop :=
  DerivesIn g s live u.1 u.2.1 u.2.2 d

variable {α : Type} {g : Grammar α} {s : Sentence} {live : Nat → Nat → NonTerminal → Prop}
  {u v w : Place} {f : Frame α} {fs fs' : List (Frame α)} {d d' : Derivation α}

theorem Frame.Joins.derives (h : f.Joins g s live u v) (alive : live u.1 u.2.1 u.2.2)
    (hd : DerivesAt g s live v d) : DerivesAt g s live u (f.fill d) := by
  cases h with
  | unary mem children => exact .unary mem children hd alive
  | left mem children _ sister => exact .binary mem children hd sister alive
  | right mem children _ sister => exact .binary mem children sister hd alive

/-- A frame leads to a smaller span, or along a unary rule. -/
theorem Frame.Joins.descends (h : f.Joins g s live u v) :
    (u.1 ≤ v.1 ∧ v.2.1 ≤ u.2.1) ∧
      (v.2.1 - v.1 < u.2.1 - u.1 ∨ (u.1 = v.1 ∧ u.2.1 = v.2.1) ∧ g.UnaryStep u.2.2 v.2.2) := by
  cases h with
  | unary mem children => exact ⟨⟨Nat.le_refl _, Nat.le_refl _⟩, .inr ⟨⟨rfl, rfl⟩, _, mem, rfl, children⟩⟩
  | left _ _ lt sister | right _ _ lt sister =>
    have := sister.start_lt
    dsimp only
    omega

theorem Frame.fill_injective (f : Frame α) : Function.Injective f.fill := by
  intro d d' heq
  cases f with
  | unary p => exact (Derivation.unary.inj heq).2
  | left p sister => exact (Derivation.binary.inj heq).2.1
  | right p sister => exact (Derivation.binary.inj heq).2.2

theorem plug_injective (fs : List (Frame α)) : Function.Injective (plug fs) := by
  induction fs with
  | nil => exact fun _ _ heq => heq
  | cons f fs ih => exact ih.comp f.fill_injective

theorem Frame.joins_unary_iff {p : Production α} :
    (Frame.unary p).Joins g s live u v ↔
      p ∈ g.productions ∧ u = (v.1, v.2.1, p.parent) ∧ p.children = .unary v.2.2 := by
  constructor
  · rintro ⟨mem, children⟩
    exact ⟨mem, rfl, children⟩
  · rintro ⟨mem, rfl, children⟩
    exact .unary mem children

theorem Frame.joins_left_iff {p : Production α} :
    (Frame.left p d).Joins g s live u v ↔
      p ∈ g.productions ∧ (u.1 = v.1 ∧ u.2.2 = p.parent) ∧ v.1 < v.2.1 ∧
        ∃ C, p.children = .binary v.2.2 C ∧ DerivesIn g s live v.2.1 u.2.1 C d := by
  obtain ⟨i, j, A⟩ := u
  constructor
  · intro h
    cases h with
    | left mem children lt sister => exact ⟨mem, ⟨rfl, rfl⟩, lt, _, children, sister⟩
  · rintro ⟨mem, ⟨rfl, rfl⟩, lt, C, children, sister⟩
    exact .left mem children lt sister

theorem Frame.joins_right_iff {p : Production α} :
    (Frame.right p d).Joins g s live u v ↔
      p ∈ g.productions ∧ (u.2.1 = v.2.1 ∧ u.2.2 = p.parent) ∧ v.1 < v.2.1 ∧
        ∃ B, p.children = .binary B v.2.2 ∧ DerivesIn g s live u.1 v.1 B d := by
  obtain ⟨i, j, A⟩ := u
  constructor
  · intro h
    cases h with
    | right mem children lt sister => exact ⟨mem, ⟨rfl, rfl⟩, lt, _, children, sister⟩
  · rintro ⟨mem, ⟨rfl, rfl⟩, lt, B, children, sister⟩
    exact .right mem children lt sister

/-- Two parts right below the top of one derivation are the same, or lie side by side. -/
theorem Frame.Joins.eq_or_beside {f' : Frame α} {v' : Place} (h : f.Joins g s live u v)
    (h' : f'.Joins g s live u v') (hd : DerivesAt g s live v d) (hd' : DerivesAt g s live v' d')
    (heq : f.fill d = f'.fill d') :
    (f = f' ∧ v = v' ∧ d = d') ∨ v.2.1 ≤ v'.1 ∨ v'.2.1 ≤ v.1 := by
  obtain ⟨k, l, B⟩ := v
  obtain ⟨k', l', B'⟩ := v'
  have hwidth := hd.stop_eq
  have hwidth' := hd'.stop_eq
  dsimp only at hwidth hwidth'
  cases f with
  | unary p =>
    cases f' with
    | unary p' =>
      obtain ⟨rfl, rfl⟩ := Derivation.unary.inj heq
      obtain ⟨-, hu, hc⟩ := joins_unary_iff.1 h
      obtain ⟨-, hu', hc'⟩ := joins_unary_iff.1 h'
      rw [hu] at hu'
      obtain ⟨rfl, rfl, -⟩ := hu'
      cases hc.symm.trans hc'
      exact .inl ⟨rfl, rfl, rfl⟩
    | left | right => cases heq
  | left p sister =>
    obtain ⟨-, ⟨hstart, -⟩, -, C, hc, hsister⟩ := joins_left_iff.1 h
    cases f' with
    | unary => cases heq
    | left p' sister' =>
      obtain ⟨rfl, rfl, rfl⟩ := Derivation.binary.inj heq
      obtain ⟨-, ⟨hstart', -⟩, -, C', hc', -⟩ := joins_left_iff.1 h'
      dsimp only at hstart hstart' hc hc'
      cases hc.symm.trans hc'
      obtain rfl : k = k' := hstart.symm.trans hstart'
      obtain rfl : l = l' := hwidth.trans hwidth'.symm
      exact .inl ⟨rfl, rfl, rfl⟩
    | right p' sister' =>
      obtain ⟨rfl, rfl, rfl⟩ := Derivation.binary.inj heq
      obtain ⟨-, -, -, B', -, hsister'⟩ := joins_right_iff.1 h'
      have hstop := hsister'.stop_eq
      dsimp only at hstart hstop ⊢
      omega
  | right p sister =>
    obtain ⟨-, ⟨hstop, -⟩, -, C, hc, hsister⟩ := joins_right_iff.1 h
    have hstart := hsister.stop_eq
    cases f' with
    | unary => cases heq
    | left p' sister' =>
      obtain ⟨rfl, rfl, rfl⟩ := Derivation.binary.inj heq
      obtain ⟨-, ⟨hstart', -⟩, -⟩ := joins_left_iff.1 h'
      dsimp only at hstart hstart' ⊢
      omega
    | right p' sister' =>
      obtain ⟨rfl, rfl, rfl⟩ := Derivation.binary.inj heq
      obtain ⟨-, ⟨hstop', -⟩, -, C', hc', hsister'⟩ := joins_right_iff.1 h'
      have hstart' := hsister'.stop_eq
      dsimp only at hstart hstart' hstop hstop' hc hc'
      cases hc.symm.trans hc'
      obtain rfl : k = k' := hstart.trans hstart'.symm
      obtain rfl : l = l' := hstop.symm.trans hstop'
      exact .inl ⟨rfl, rfl, rfl⟩

namespace Surrounds

theorem alive (h : Surrounds g s live u v fs) : live v.1 v.2.1 v.2.2 := by
  cases h <;> assumption

theorem derives (h : Surrounds g s live u v fs) (hd : DerivesAt g s live v d) :
    DerivesAt g s live u (plug fs d) := by
  induction h generalizing d with
  | nil => exact hd
  | cons joins above _ ih => exact ih (joins.derives above.alive hd)

theorem within (h : Surrounds g s live u v fs) : u.1 ≤ v.1 ∧ v.2.1 ≤ u.2.1 := by
  induction h with
  | nil => exact ⟨Nat.le_refl _, Nat.le_refl _⟩
  | cons joins _ _ ih =>
    have := joins.descends.1
    omega

/-- A path leads to a smaller span, or along a chain of unary rules. -/
theorem descends (h : Surrounds g s live u v (f :: fs)) :
    v.2.1 - v.1 < u.2.1 - u.1 ∨
      (u.1 = v.1 ∧ u.2.1 = v.2.1) ∧ Relation.TransGen g.UnaryStep u.2.2 v.2.2 := by
  generalize hpath : f :: fs = path at h
  induction h generalizing f fs with
  | nil => cases hpath
  | @cons v w f' fs' joins above _ ih =>
    have hjoin := joins.descends
    cases fs' with
    | nil =>
      cases above
      exact hjoin.2.imp_right fun h => ⟨h.1, .single h.2⟩
    | cons f'' fs'' =>
      have habove := above.within
      rcases ih rfl with hlt | ⟨hspan, htrans⟩
      · left
        omega
      · rcases hjoin.2 with hlt | ⟨hspan', hstep⟩
        · left
          omega
        · exact .inr ⟨⟨hspan.1.trans hspan'.1, hspan.2.trans hspan'.2⟩, htrans.tail hstep⟩

theorem not_cons_self (hg : g.UnaryAcyclic) : ¬ Surrounds g s live u u (f :: fs) := by
  intro h
  rcases h.descends with hlt | ⟨-, htrans⟩
  · omega
  · exact hg _ htrans

/-- The topmost frame of a path. -/
theorem exists_top (h : Surrounds g s live u w (fs ++ [f])) :
    ∃ v, f.Joins g s live u v ∧ Surrounds g s live v w fs := by
  induction fs generalizing w with
  | nil =>
    cases h with
    | cons joins above alive =>
      cases above
      exact ⟨w, joins, .nil alive⟩
  | cons f' fs ih =>
    cases h with
    | cons joins above alive =>
      obtain ⟨v, htop, hbelow⟩ := ih above
      exact ⟨v, htop, .cons joins hbelow alive⟩

theorem plug_concat (fs : List (Frame α)) (f : Frame α) (d : Derivation α) :
    plug (fs ++ [f]) d = f.fill (plug fs d) := by
  rw [plug, List.foldl_append]
  rfl

/-- Two paths to the same place in one derivation have the same topmost frame. -/
theorem eq_top (h : Surrounds g s live u w (fs ++ [f])) (h' : Surrounds g s live u w (fs' ++ [f']))
    (hd : DerivesAt g s live w d) (hd' : DerivesAt g s live w d')
    (heq : plug (fs ++ [f]) d = plug (fs' ++ [f']) d') :
    f = f' ∧ ∃ v, Surrounds g s live v w fs ∧ Surrounds g s live v w fs' ∧
      plug fs d = plug fs' d' := by
  obtain ⟨v, hv, hbelow⟩ := h.exists_top
  obtain ⟨v', hv', hbelow'⟩ := h'.exists_top
  rw [plug_concat, plug_concat] at heq
  have hin := hbelow.within
  have hin' := hbelow'.within
  have hlt := hd.start_lt
  rcases hv.eq_or_beside hv' (hbelow.derives hd) (hbelow'.derives hd') heq with
    ⟨rfl, rfl, heq⟩ | hbeside
  · exact ⟨rfl, v, hbelow, hbelow', heq⟩
  · omega

/-- If unary rules form no cycle, a derivation comes apart at a place in one way only. -/
theorem plug_inj (hg : g.UnaryAcyclic) (h : Surrounds g s live u w fs)
    (h' : Surrounds g s live u w fs') (hd : DerivesAt g s live w d) (hd' : DerivesAt g s live w d')
    (heq : plug fs d = plug fs' d') : fs = fs' ∧ d = d' := by
  induction fs using List.reverseRecOn generalizing u fs' with
  | nil =>
    cases h
    cases fs' with
    | nil => exact ⟨rfl, heq⟩
    | cons f fs' => exact absurd h' (not_cons_self hg)
  | append_singleton fs f ih =>
    rcases List.eq_nil_or_concat fs' with rfl | ⟨fs', f', rfl⟩
    · cases h'
      obtain ⟨f', fs', hcons⟩ := List.exists_cons_of_ne_nil (show fs ++ [f] ≠ [] by simp)
      rw [hcons] at h
      exact absurd h (not_cons_self hg)
    · rw [List.concat_eq_append] at h' heq ⊢
      obtain ⟨rfl, v, hbelow, hbelow', heq⟩ := h.eq_top h' hd hd' heq
      obtain ⟨rfl, rfl⟩ := ih hbelow hbelow' heq
      exact ⟨rfl, rfl⟩

theorem size_add_length_le (fs : List (Frame α)) (d : Derivation α) :
    d.size + fs.length ≤ (plug fs d).size := by
  induction fs generalizing d with
  | nil => exact Nat.le_refl _
  | cons f fs ih =>
    have hfill : d.size + 1 ≤ (f.fill d).size := by
      cases f <;> simp only [Frame.fill, Derivation.size] <;> omega
    have := ih (f.fill d)
    rw [List.length_cons, plug, List.foldl_cons]
    rw [plug] at this
    omega

/-- A part of a derivation has one context in it only, wherever unary rules lead. -/
theorem plug_left_inj (h : Surrounds g s live u w fs) (h' : Surrounds g s live u w fs')
    (hd : DerivesAt g s live w d) (heq : plug fs d = plug fs' d) : fs = fs' := by
  induction fs using List.reverseRecOn generalizing u fs' with
  | nil =>
    have hsize := size_add_length_le fs' d
    rw [← heq, plug, List.foldl_nil] at hsize
    exact (List.length_eq_zero_iff.1 (by omega)).symm
  | append_singleton fs f ih =>
    rcases List.eq_nil_or_concat fs' with rfl | ⟨fs', f', rfl⟩
    · have hsize := size_add_length_le (fs ++ [f]) d
      rw [heq, plug, List.foldl_nil, List.length_append, List.length_singleton] at hsize
      omega
    · rw [List.concat_eq_append] at h' heq ⊢
      obtain ⟨rfl, v, hbelow, hbelow', heq⟩ := h.eq_top h' hd hd heq
      rw [ih hbelow hbelow' heq]

theorem exists_of_mem_nodes {e : Derivation α} {i j : Nat} {A : NonTerminal}
    (h : DerivesIn g s live i j A e) (hfs : Surrounds g s live u (i, j, A) fs)
    (hw : w ∈ e.nodes i) :
    ∃ fs' e', Surrounds g s live u w fs' ∧ DerivesAt g s live w e' ∧ plug fs' e' = plug fs e := by
  induction h generalizing fs with
  | word mem children terminal alive =>
    obtain rfl := List.mem_singleton.1 hw
    exact ⟨fs, _, hfs, .word mem children terminal alive, rfl⟩
  | @unary i j p B e mem children below alive ih =>
    rcases List.mem_cons.1 hw with rfl | hw
    · rw [← below.stop_eq]
      exact ⟨fs, _, hfs, .unary mem children below alive, rfl⟩
    · exact ih (.cons (.unary mem children) hfs below.alive) hw
  | @binary i m j p B C e e' mem children leftBelow rightBelow alive ihl ihr =>
    rcases List.mem_cons.1 hw with rfl | hw
    · rw [← leftBelow.stop_eq, ← rightBelow.stop_eq]
      exact ⟨fs, _, hfs, .binary mem children leftBelow rightBelow alive, rfl⟩
    · rcases List.mem_append.1 hw with hw | hw
      · exact ihl (.cons (.left mem children leftBelow.start_lt rightBelow) hfs leftBelow.alive) hw
      · rw [← leftBelow.stop_eq] at hw
        exact ihr (.cons (.right mem children rightBelow.start_lt leftBelow) hfs
          rightBelow.alive) hw

theorem mem_nodes_plug (h : Surrounds g s live u v fs) (hd : DerivesAt g s live v d)
    (hw : w ∈ d.nodes v.1) : w ∈ (plug fs d).nodes u.1 := by
  induction h generalizing d with
  | nil => exact hw
  | cons joins above _ ih =>
    refine ih (joins.derives above.alive hd) ?_
    cases joins with
    | unary => exact List.mem_cons_of_mem _ hw
    | left => exact List.mem_cons_of_mem _ (List.mem_append_left _ hw)
    | right _ _ _ sister =>
      refine List.mem_cons_of_mem _ (List.mem_append_right _ ?_)
      rw [← sister.stop_eq]
      exact hw

/-- The constituents of a derivation are those it comes apart at. -/
theorem mem_nodes_iff (h : DerivesAt g s live u d) :
    w ∈ d.nodes u.1 ↔
      ∃ fs e, Surrounds g s live u w fs ∧ DerivesAt g s live w e ∧ plug fs e = d := by
  constructor
  · exact exists_of_mem_nodes h (.nil h.alive)
  · rintro ⟨fs, e, hfs, he, rfl⟩
    refine mem_nodes_plug hfs he ?_
    have hself := e.mem_nodes_self w.1
    rwa [← he.stop_eq, he.root_eq] at hself

end Surrounds

/-- The parents of the unary rules right above a place. -/
def rungs : List (Frame α) → List NonTerminal
  | .unary p :: fs => p.parent :: rungs fs
  | _ => []

theorem Surrounds.rungs_pairwise (h : Surrounds g s live u w fs) :
    (w.2.2 :: rungs fs).Pairwise (fun A B => Relation.TransGen g.UnaryStep B A) ∧
      ∀ B ∈ w.2.2 :: rungs fs, live w.1 w.2.1 B := by
  induction h with
  | nil alive => exact ⟨List.pairwise_singleton _ _, fun B hB => by rwa [List.mem_singleton.1 hB]⟩
  | cons joins above alive ih =>
    cases joins with
    | left | right =>
      exact ⟨List.pairwise_singleton _ _, fun B hB => by rwa [List.mem_singleton.1 hB]⟩
    | @unary i j p B mem children =>
      obtain ⟨hpair, hlive⟩ := ih
      refine ⟨List.pairwise_cons.2 ⟨fun C hC => ?_, hpair⟩, fun C hC => ?_⟩
      · have hstep : g.UnaryStep p.parent B := ⟨p, mem, rfl, children⟩
        rcases List.mem_cons.1 hC with rfl | hC'
        · exact .single hstep
        · exact .tail ((List.pairwise_cons.1 hpair).1 C hC') hstep
      · rcases List.mem_cons.1 hC with rfl | hC
        · exact alive
        · exact hlive C hC

/-- The places of the chain right above a place have contexts further up. -/
theorem Surrounds.exists_of_mem_rungs {i j : Nat} {A B : NonTerminal}
    (h : Surrounds g s live u (i, j, A) fs) (hB : B ∈ rungs fs) :
    ∃ f gs fs', fs = f :: gs ++ fs' ∧ Surrounds g s live u (i, j, B) fs' := by
  induction fs generalizing A with
  | nil => cases hB
  | cons f fs ih =>
    cases h with
    | cons joins above alive =>
      cases joins with
      | left | right => cases hB
      | @unary _ _ p _ mem children =>
        rcases List.mem_cons.1 hB with rfl | hB
        · exact ⟨.unary p, [], fs, rfl, above⟩
        · obtain ⟨f', gs, fs', rfl, hfs'⟩ := ih above hB
          exact ⟨.unary p, f' :: gs, fs', rfl, hfs'⟩

theorem Surrounds.length_rungs_lt (hg : g.UnaryAcyclic) (h : Surrounds g s live u w fs)
    {symbols : List NonTerminal} (hsymbols : ∀ B, live w.1 w.2.1 B → B ∈ symbols) :
    (rungs fs).length < symbols.length := by
  obtain ⟨hpair, hlive⟩ := h.rungs_pairwise
  exact length_le_of_chain (R := fun A B => Relation.TransGen g.UnaryStep B A) hg hpair
    fun B hB => hsymbols B (hlive B hB)

end Constituency
