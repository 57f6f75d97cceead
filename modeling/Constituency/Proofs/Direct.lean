import Constituency.Proofs.Context

/-!
# Derivations without detours

A chain of unary rules that comes back to a symbol makes a detour, which can be left out. Whatever has a
possible derivation has one without detours (`exists_direct`), which is no worse if no rule is a gain
(`exists_straight_ge`). In such a derivation no chain of unary rules is longer than the list of the
symbols it leads through, even if the unary rules of the grammar run in circles.
-/

namespace Constituency

namespace Derivation

variable {α : Type}

/-- No symbol occurs twice in a chain of unary rules. -/
def Straight : Derivation α → Prop
  | word _ => True
  | unary p child => p.parent ∉ child.chain ∧ child.Straight
  | binary _ left right => left.Straight ∧ right.Straight

/-- The unary rules have a property at the spans they are applied to. -/
def UnariesSatisfy (P : Nat → Nat → Production α → Prop) (start : Nat) : Derivation α → Prop
  | word _ => True
  | unary p child => P start (start + child.width) p ∧ child.UnariesSatisfy P start
  | binary _ left right =>
    left.UnariesSatisfy P start ∧ right.UnariesSatisfy P (start + left.width)

theorem Straight.nodup_chain {d : Derivation α} (h : d.Straight) : d.chain.Nodup := by
  induction d with
  | word | binary => exact List.pairwise_singleton _ _
  | unary p child ih => exact List.nodup_cons.2 ⟨h.1, ih h.2⟩

variable [Score α]

/-- A possible derivation without detours, whose unary rules have a property. -/
structure Direct (P : Nat → Nat → Production α → Prop) (start : Nat) (d : Derivation α) :
    Prop where
  possible : Score.impossible < d.score
  straight : d.Straight
  unaries : d.UnariesSatisfy P start

variable [MonotoneScore α] {P : Nat → Nat → Production α → Prop} {start : Nat}
  {p : Production α} {d e : Derivation α}

theorem Direct.of_unary (h : (unary p d).Direct P start) :
    Score.impossible < p.logProb ∧ P start (start + d.width) p ∧ d.Direct P start := by
  obtain ⟨hrule, hpos⟩ := Score.impossible_lt_of_add h.possible
  exact ⟨hrule, h.unaries.1, hpos, h.straight.2, h.unaries.2⟩

theorem Direct.of_binary (h : (binary p d e).Direct P start) :
    Score.impossible < p.logProb ∧ d.Direct P start ∧ e.Direct P (start + d.width) := by
  obtain ⟨hleft, hright⟩ := Score.impossible_lt_of_add h.possible
  obtain ⟨hrule, hleft⟩ := Score.impossible_lt_of_add hleft
  exact ⟨hrule, ⟨hleft, h.straight.1, h.unaries.1⟩, hright, h.straight.2, h.unaries.2⟩

end Derivation

variable {α : Type} [Score α] {g : Grammar α} {s : Sentence}
  {live : Nat → Nat → NonTerminal → Prop} {P : Nat → Nat → Production α → Prop} {i j : Nat}
  {A B : NonTerminal} {d : Derivation α}

omit [Score α] in
/-- What holds of all rules of a grammar holds of the unary rules of its derivations. -/
theorem DerivesIn.unariesSatisfy (hP : ∀ i j, ∀ p ∈ g.productions, P i j p)
    (hd : DerivesIn g s live i j A d) : d.UnariesSatisfy P i := by
  induction hd with
  | word mem children terminal alive => trivial
  | unary mem children below alive ih => exact ⟨hP _ _ _ mem, ih⟩
  | binary mem children leftBelow rightBelow alive ihl ihr =>
    rw [leftBelow.stop_eq] at ihr
    exact ⟨ihl, ihr⟩

omit [Score α] in
/-- In a derivation without detours the chain on top is no longer than a list of the symbols of its
cell. -/
theorem DerivesIn.unaryHeight_lt_of_straight (h : DerivesIn g s live i j A d) (hd : d.Straight)
    {symbols : List NonTerminal} (hsymbols : ∀ B, live i j B → B ∈ symbols) :
    d.unaryHeight < symbols.length := by
  have hle := length_le_of_chain (R := (· ≠ ·)) (fun _ hne => hne rfl) hd.nodup_chain
    fun B hB => hsymbols B (h.chain_pairwise.2.2 B hB)
  rwa [d.length_chain] at hle

/-- The symbols of the chain on top have derivations of their own. -/
theorem DerivesIn.exists_direct_of_mem_chain [MonotoneScore α] (h : DerivesIn g s live i j A d)
    (hd : d.Direct P i) (hB : B ∈ d.chain) :
    ∃ e, DerivesIn g s live i j B e ∧ e.Direct P i := by
  induction h with
  | word mem children terminal alive =>
    obtain rfl := List.mem_singleton.1 hB
    exact ⟨_, .word mem children terminal alive, hd⟩
  | binary mem children leftBelow rightBelow alive =>
    obtain rfl := List.mem_singleton.1 hB
    exact ⟨_, .binary mem children leftBelow rightBelow alive, hd⟩
  | unary mem children below alive ih =>
    rcases List.mem_cons.1 hB with rfl | hB
    · exact ⟨_, .unary mem children below alive, hd⟩
    · exact ih hd.of_unary.2.2 hB

/-- What has a possible derivation has one without detours. -/
theorem DerivesIn.exists_direct [LosslessScore α] (h : DerivesIn g s live i j A d)
    (hpos : Score.impossible < d.score) (hP : d.UnariesSatisfy P i) :
    ∃ e, DerivesIn g s live i j A e ∧ e.Direct P i := by
  induction h with
  | word mem children terminal alive =>
    exact ⟨_, .word mem children terminal alive, hpos, trivial, trivial⟩
  | @unary i j p C d mem children below alive ih =>
    obtain ⟨hrule, hbelow⟩ := Score.impossible_lt_of_add hpos
    obtain ⟨e, he, hdirect⟩ := ih hbelow hP.2
    by_cases hmem : p.parent ∈ e.chain
    · exact he.exists_direct_of_mem_chain hdirect hmem
    · have hwidth : P i (i + e.width) p := by
        rw [← he.stop_eq, below.stop_eq]
        exact hP.1
      exact ⟨.unary p e, .unary mem children he alive,
        LosslessScore.impossible_lt_add hrule hdirect.possible, ⟨hmem, hdirect.straight⟩,
        hwidth, hdirect.unaries⟩
  | @binary i m j p B C d e mem children leftBelow rightBelow alive ihl ihr =>
    obtain ⟨hleft, hright⟩ := Score.impossible_lt_of_add hpos
    obtain ⟨hrule, hleft⟩ := Score.impossible_lt_of_add hleft
    obtain ⟨hPl, hPr⟩ := hP
    rw [← leftBelow.stop_eq] at hPr
    obtain ⟨d', hd', hdirect⟩ := ihl hleft hPl
    obtain ⟨e', he', hdirect'⟩ := ihr hright hPr
    have hwidth : e'.UnariesSatisfy P (i + d'.width) := by
      rw [← hd'.stop_eq]
      exact hdirect'.unaries
    exact ⟨.binary p d' e', .binary mem children hd' he' alive,
      LosslessScore.impossible_lt_add (LosslessScore.impossible_lt_add hrule hdirect.possible)
        hdirect'.possible,
      ⟨hdirect.straight, hdirect'.straight⟩, hdirect.unaries, hwidth⟩

/-! ## Detours that are no gain -/

section NoGain

variable [MonotoneScore α] (hnonpos : ∀ p ∈ g.productions, p.logProb ≤ 0)
include hnonpos

/-- The symbols of the chain on top have derivations of their own, which are no worse. -/
theorem DerivesIn.exists_ge_of_mem_chain (h : DerivesIn g s live i j A d) (hd : d.Straight)
    (hB : B ∈ d.chain) :
    ∃ e, DerivesIn g s live i j B e ∧ e.Straight ∧ d.score ≤ e.score := by
  induction h with
  | word mem children terminal alive =>
    obtain rfl := List.mem_singleton.1 hB
    exact ⟨_, .word mem children terminal alive, hd, Score.le_refl _⟩
  | binary mem children leftBelow rightBelow alive =>
    obtain rfl := List.mem_singleton.1 hB
    exact ⟨_, .binary mem children leftBelow rightBelow alive, hd, Score.le_refl _⟩
  | unary mem children below alive ih =>
    rcases List.mem_cons.1 hB with rfl | hB
    · exact ⟨_, .unary mem children below alive, hd, Score.le_refl _⟩
    · obtain ⟨e, he, hstraight, hle⟩ := ih hd.2 hB
      exact ⟨e, he, hstraight, Score.le_trans (Score.add_le_of_nonpos (hnonpos _ mem) _) hle⟩

/-- Of every derivation there is one without detours that is no worse. -/
theorem DerivesIn.exists_straight_ge (h : DerivesIn g s live i j A d) :
    ∃ e, DerivesIn g s live i j A e ∧ e.Straight ∧ d.score ≤ e.score := by
  induction h with
  | word mem children terminal alive =>
    exact ⟨_, .word mem children terminal alive, trivial, Score.le_refl _⟩
  | @unary i j p B d mem children below alive ih =>
    obtain ⟨e, he, hstraight, hle⟩ := ih
    by_cases hmem : p.parent ∈ e.chain
    · obtain ⟨f, hf, hstraight', hle'⟩ := he.exists_ge_of_mem_chain hnonpos hstraight hmem
      have hgain : p.logProb + d.score ≤ d.score := Score.add_le_of_nonpos (hnonpos p mem) _
      exact ⟨f, hf, hstraight', Score.le_trans hgain (Score.le_trans hle hle')⟩
    · exact ⟨.unary p e, .unary mem children he alive, ⟨hmem, hstraight⟩,
        Score.add_le_add_left hle _⟩
  | @binary i m j p B C d e mem children leftBelow rightBelow alive ihl ihr =>
    obtain ⟨d', hd', hstraight, hle⟩ := ihl
    obtain ⟨e', he', hstraight', hle'⟩ := ihr
    exact ⟨.binary p d' e', .binary mem children hd' he' alive, ⟨hstraight, hstraight'⟩,
      MonotoneScore.add_le_add (Score.add_le_add_left hle _) hle'⟩

end NoGain

end Constituency
