import Constituency.Proofs.Chart.Backpointers
import Constituency.Proofs.Chart.Unambiguous
import Constituency.Proofs.Direct
import Constituency.Proofs.Part

/-!
# Backpointers along a derivation

If a chart has only one derivation of the sentence, the backpointers of its constituents can lead nowhere but
along it: any other backpointer would make another derivation (`traced_of_only`). To follow them is to
read off the tree of the derivation (`Traced.follow`).
-/

namespace Constituency

namespace Derivation

variable {α : Type} {g : Grammar α} {s : Sentence} {live : Nat → Nat → NonTerminal → Prop}
  {find? : Nat → Nat → NonTerminal → Option Backpointer} {d e : Derivation α} {i j k : Nat}
  {A : NonTerminal} {p : Production α}

/-- Each constituent has the backpointer that leads along the derivation. -/
def Traced (find? : Nat → Nat → NonTerminal → Option Backpointer) (start : Nat)
    (d : Derivation α) : Prop :=
  ∀ k e, Part start d k e → find? k (k + e.width) e.root = some (e.backpointer k)

theorem Traced.part (h : d.Traced find? i) (he : Part i d k e) : e.Traced find? k :=
  fun m f hf => h m f (he.trans hf)

theorem Traced.find?_eq (h : d.Traced find? i) :
    find? i (i + d.width) d.root = some (d.backpointer i) :=
  h i d .whole

/-- The backpointer of a unary rule tells its child. -/
theorem unaryChild?_backpointer (hd : DerivesIn g s live i j A d) :
    (d.backpointer i).unaryChild? = d.onlyChild? := by
  cases hd with
  | word mem children => rw [backpointer_word children]; rfl
  | unary mem children below => rw [backpointer_unary children, onlyChild?, below.root_eq]; rfl
  | binary mem children => rw [backpointer_binary children]; rfl

theorem isUnary_backpointer (hd : DerivesIn g s live i j A d) :
    (d.backpointer i).isUnary = d.isUnary := by
  cases hd with
  | word mem children => rw [backpointer_word children]; rfl
  | unary mem children => rw [backpointer_unary children]; rfl
  | binary mem children => rw [backpointer_binary children]; rfl

/-- To follow the backpointers along a derivation is to read off its tree. -/
theorem Traced.follow {b : Backpointers} (hd : DerivesIn g s live i j A d)
    (h : d.Traced b.find? i) (hsingle : d.SingleUnaries) (hwords : j ≤ b.words.length)
    (hmax : 1 ≤ b.maxUnaries) {unaries : Nat} (hunaries : d.unaryHeight ≤ unaries) :
    b.follow i j A unaries = some (d.tree b.name b.words i) := by
  have hheight : ∀ e : Derivation α, e.SingleUnaries → e.unaryHeight ≤ b.maxUnaries :=
    fun e he => Nat.le_trans he.unaryHeight_le hmax
  induction hd generalizing unaries with
  | @word i p word mem children terminal alive =>
    have hfind : b.find? i (i + 1) p.parent = some (.lexical word) := by
      rw [← backpointer_word children i]
      exact h.find?_eq
    exact Backpointers.follow_lexical hfind hwords unaries
  | @unary i j p child d mem children below alive ih =>
    have hfind : b.find? i j p.parent = some (.unary child) := by
      rw [below.stop_eq, ← backpointer_unary children d i]
      exact h.find?_eq
    obtain ⟨unaries, rfl⟩ := Nat.exists_eq_add_of_le' (Nat.le_trans (Nat.le_add_left 1 _) hunaries)
    rw [Backpointers.follow_unary hfind,
      ih (h.part (.child .whole)) hsingle.2 hwords (Nat.le_of_succ_le_succ hunaries)]
    rfl
  | @binary i m j p left right d e mem children leftBelow rightBelow alive ihl ihr =>
    have hm := leftBelow.stop_eq
    have hj := rightBelow.stop_eq
    have hfind : b.find? i j p.parent = some (.binary left right m) := by
      have hwidth : j = i + (binary p d e).width := by
        simp only [width]
        omega
      rw [hwidth, hm, ← backpointer_binary children d e i]
      exact h.find?_eq
    have hleft := ihl (h.part (.left .whole)) hsingle.1
      (Nat.le_trans (Nat.le_of_lt rightBelow.start_lt) hwords) (hheight d hsingle.1)
    have hright : b.follow m j right b.maxUnaries = some (e.tree b.name b.words m) := by
      refine ihr ?_ hsingle.2 hwords (hheight e hsingle.2)
      rw [hm]
      exact h.part (.right .whole)
    rw [Backpointers.follow_binary hfind leftBelow.start_lt rightBelow.start_lt hleft hright,
      tree, ← hm]

end Derivation

section

variable {α : Type} [Score α] {g : Grammar α} {s : Sentence}
  {live : Nat → Nat → NonTerminal → Prop}
  {find? : Nat → Nat → NonTerminal → Option Backpointer} {d : Derivation α} {i j : Nat}
  {A : NonTerminal} {b : Backpointer} [LosslessScore α]

/-- A backpointer over places with derivations is that of a derivation. -/
theorem Records.exists_derivation (h : Records g s live b i j A)
    (hlive : Supported g s live) (hA : live i j A) :
    ∃ d, DerivesIn g s live i j A d ∧ Score.impossible < d.score ∧ d.backpointer i = b := by
  cases h with
  | @word _ p word mem children possible terminal =>
    exact ⟨.word p, .word mem children terminal hA, possible, Derivation.backpointer_word children _⟩
  | @unary _ _ p B mem children possible below =>
    obtain ⟨d, hd, hpos⟩ := hlive _ _ _ below
    exact ⟨.unary p d, .unary mem children hd hA, LosslessScore.impossible_lt_add possible hpos,
      Derivation.backpointer_unary children d _⟩
  | @binary _ m _ p B C mem children possible _ left right =>
    obtain ⟨d, hd, hpos⟩ := hlive _ _ _ left
    obtain ⟨e, he, hpos'⟩ := hlive _ _ _ right
    refine ⟨.binary p d e, .binary mem children hd he hA,
      LosslessScore.impossible_lt_add (LosslessScore.impossible_lt_add possible hpos) hpos', ?_⟩
    rw [Derivation.backpointer_binary children, hd.stop_eq]

/-- A part of the only derivation is the only derivation of its place: another one in the same
surroundings would make another derivation. -/
theorem Only.part {k : Nat} {e : Derivation α}
    (hd : Only (PackedChart.below g s live i j A) Derivation.score d)
    (he : Derivation.Part i d k e) :
    Only (PackedChart.below g s live k (k + e.width) e.root) Derivation.score e := by
  obtain ⟨fs, hfs, hderives, rfl⟩ := he.exists_surrounds hd.mem
  obtain ⟨hpos, hframes⟩ := possible_plug_iff.1 hd.possible
  exact hd.of_map (plug_injective fs) hderives hpos fun f hf hposf =>
    ⟨hfs.derives hf, possible_plug_iff.2 ⟨hposf, hframes⟩⟩

/-- In the only derivation no symbol stands above itself: the part in between could be left out. -/
theorem Only.straight (hd : Only (PackedChart.below g s live i j A) Derivation.score d) :
    d.Straight := by
  have hunaries : d.UnariesSatisfy (fun _ _ _ => True) i :=
    DerivesIn.unariesSatisfy (fun _ _ _ _ => trivial) hd.mem
  obtain ⟨e, he, hdirect⟩ := DerivesIn.exists_direct hd.mem hd.possible hunaries
  exact hd.unique e he hdirect.possible ▸ hdirect.straight

/-- The backpointers of a chart lead along its only derivation of the sentence. -/
theorem traced_of_only (hd : Only (PackedChart.below g s live i j A) Derivation.score d)
    (hlive : Supported g s live)
    (hfind : ∀ k l B, live k l B → ∃ b, find? k l B = some b ∧ Records g s live b k l B) :
    d.Traced find? i := by
  intro k e hpart
  have honly := hd.part hpart
  obtain ⟨b, hb, hrecords⟩ := hfind _ _ _ (DerivesIn.alive honly.mem)
  obtain ⟨f, hf, hpos, rfl⟩ := hrecords.exists_derivation hlive (DerivesIn.alive honly.mem)
  rw [hb, honly.unique f hf hpos]

end

end Constituency
