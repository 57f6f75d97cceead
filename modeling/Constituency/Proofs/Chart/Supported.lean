import Constituency.Proofs.Chart.Recorded

/-!
# Entries with derivations

A set of live places is supported if each of them has a derivation by way of live places alone. It
stays so when places are added by rules over those before, and this is all that a search ever does: what
is cut off or refused is not missed by what has been entered already. Only here does it matter that
possible scores do not add up to an impossible one; the rest of what is said of an upheld cell or chart,
that its entries record rules, holds without.
-/

namespace Constituency

variable {α : Type} [Score α] {g : Grammar α} {s : Sentence}
  {live live' : Nat → Nat → NonTerminal → Prop} {i j : Nat} {A : NonTerminal} {b : Backpointer}

/-! ## Live places -/

/-- The symbol has a derivation by way of live places, and it is possible. -/
def Grounded (g : Grammar α) (s : Sentence) (live : Nat → Nat → NonTerminal → Prop)
    (i j : Nat) (A : NonTerminal) : Prop :=
  ∃ d, DerivesIn g s live i j A d ∧ Score.impossible < d.score

/-- Every live place has a possible derivation by way of live places. -/
def Supported (g : Grammar α) (s : Sentence) (live : Nat → Nat → NonTerminal → Prop) : Prop :=
  ∀ i j A, live i j A → Grounded g s live i j A

theorem Grounded.mono (hle : ∀ i j A, live i j A → live' i j A) (h : Grounded g s live i j A) :
    Grounded g s live' i j A := by
  obtain ⟨d, hd, hpos⟩ := h
  exact ⟨d, hd.mono hle, hpos⟩

theorem Supported.congr (h : Supported g s live) (heq : ∀ i j A, live' i j A ↔ live i j A) :
    Supported g s live' :=
  fun i j A hA => (h i j A ((heq i j A).1 hA)).mono fun i j A => (heq i j A).2

section Lossless

variable [LosslessScore α]

theorem Grounded.unary {p : Production α} {B : NonTerminal} (h : Grounded g s live i j B)
    (hp : p ∈ g.productions) (hpc : p.children = .unary B) (hrule : Score.impossible < p.logProb)
    (alive : live i j p.parent) : Grounded g s live i j p.parent := by
  obtain ⟨d, hd, hpos⟩ := h
  exact ⟨.unary p d, .unary hp hpc hd alive, LosslessScore.impossible_lt_add hrule hpos⟩

theorem Grounded.binary {p : Production α} {B C : NonTerminal} {m : Nat}
    (h : Grounded g s live i m B) (h' : Grounded g s live m j C) (hp : p ∈ g.productions)
    (hpc : p.children = .binary B C) (hrule : Score.impossible < p.logProb)
    (alive : live i j p.parent) : Grounded g s live i j p.parent := by
  obtain ⟨d, hd, hpos⟩ := h
  obtain ⟨e, he, hpos'⟩ := h'
  exact ⟨.binary p d e, .binary hp hpc hd he alive,
    LosslessScore.impossible_lt_add (LosslessScore.impossible_lt_add hrule hpos) hpos'⟩

/-- A rule over places with derivations makes a derivation. -/
theorem Records.grounded (h : Records g s live b i j A) (hsupported : Supported g s live)
    (hle : ∀ i j A, live i j A → live' i j A) (hA : live' i j A) : Grounded g s live' i j A := by
  cases h with
  | word mem children possible terminal => exact ⟨_, .word mem children terminal hA, possible⟩
  | unary mem children possible below =>
    exact ((hsupported _ _ _ below).mono hle).unary mem children possible hA
  | binary mem children possible _ left right =>
    exact ((hsupported _ _ _ left).mono hle).binary ((hsupported _ _ _ right).mono hle) mem children
      possible hA

/-- Places that rules lead to may be added. -/
theorem Supported.extend (h : Supported g s live) (hle : ∀ i j A, live i j A → live' i j A)
    (hnew : ∀ i j A, live' i j A → live i j A ∨ ∃ b, Records g s live b i j A) :
    Supported g s live' := by
  intro i j A hA
  rcases hnew i j A hA with hold | ⟨b, hb⟩
  · exact (h i j A hold).mono hle
  · exact hb.grounded h hle hA

end Lossless

/-! ## Scratch cells -/

namespace Scratch

variable {acc : Accumulator α} {cell : Scratch α} {e : Entry α} {entries : List (Entry α)}

/-- A cell for a span whose entries record rules over live places and its own, and have derivations if the
live places do. -/
structure Upheld (g : Grammar α) (s : Sentence) (live : Nat → Nat → NonTerminal → Prop) (i j : Nat)
    (cell : Scratch α) : Prop extends cell.Recorded g s (cell.among live) i j where
  supported : LosslessScore α → Supported g s live → Supported g s (cell.among live)

/-- The entries of a cell may all be made from live places. -/
theorem Recorded.upheld (h : cell.Recorded g s live i j) : cell.Upheld g s live i j where
  toRecorded := h.mono fun k l B hB => .inl hB
  supported _ hlive := by
    refine hlive.extend (fun k l B hB => .inl hB) fun k l B hB => hB.imp_right ?_
    rintro ⟨⟨rfl, rfl⟩, hfound⟩
    obtain ⟨b, hb⟩ := h.records hfound
    rw [← h.start_eq, ← h.stop_eq] at hb
    exact ⟨b, hb⟩

theorem Upheld.add [MonotoneScore α] (h : cell.Upheld g s live i j) (hacc : acc.KeepsPossible)
    (hnt : e.nonterminal < g.numNonterminals)
    (he : Score.impossible < e.inside →
      Records g s (cell.among live) e.backpointer i j e.nonterminal) :
    (cell.add acc e).Upheld g s live i j := by
  have hgrown : ∀ k l B, cell.among live k l B → (cell.add acc e).among live k l B :=
    among_add h.toShaped hnt
  refine ⟨(h.mono hgrown).add hacc hnt fun hpos => (he hpos).mono hgrown, fun _ hlive => ?_⟩
  refine (h.supported ‹_› hlive).extend hgrown fun k l B hB => ?_
  rcases hB with hB | ⟨hspan, hfound⟩
  · exact .inl (.inl hB)
  · rw [start_add, stop_add] at hspan
    rcases (isSome_find?_add (h.size_eq ▸ hnt)).1 hfound with ⟨rfl, hadm⟩ | hfound
    · obtain ⟨rfl, rfl⟩ := hspan
      rw [h.start_eq, h.stop_eq]
      exact .inr ⟨_, he (Score.admissible_iff.1 hadm)⟩
    · exact .inl (.inr ⟨hspan, hfound⟩)

theorem Upheld.foldl_add [MonotoneScore α] (h : cell.Upheld g s live i j)
    (hacc : acc.KeepsPossible) (hnt : ∀ e ∈ entries, e.nonterminal < g.numNonterminals)
    (he : ∀ e ∈ entries, Score.impossible < e.inside →
      Records g s (cell.among live) e.backpointer i j e.nonterminal) :
    (entries.foldl (Scratch.add acc) cell).Upheld g s live i j := by
  induction entries generalizing cell with
  | nil => exact h
  | cons e rest ih =>
    have hhead := hnt e List.mem_cons_self
    refine ih (h.add hacc hhead (he e List.mem_cons_self)) ?_ fun e' he' hpos => ?_
    · exact fun e' he' => hnt e' (List.mem_cons_of_mem _ he')
    · exact (he e' (List.mem_cons_of_mem _ he') hpos).mono (among_add h.toShaped hhead)

end Scratch

/-! ## Charts -/

namespace Chart

variable {c : Chart α} {cell : Scratch α}

/-- A sound chart for a sentence. Unless its arena has run out of numbers, its entries record rules over
its entries, and have derivations from them. -/
structure Upheld (g : Grammar α) (s : Sentence) (c : Chart α) : Prop extends c.Recorded g s where
  supported : LosslessScore α → c.Fits → Supported g s c.Live

/-- To commit a cell that is upheld by a chart upholds the chart. -/
theorem Upheld.commit [MonotoneScore α] (h : c.Upheld g s) (hcell : cell.Upheld g s c.Live i j)
    (hij : i < j) (hj : j ≤ s.size) : (c.commit cell).Upheld g s := by
  refine ⟨h.toRecorded.commit hcell.toRecorded hij hj, fun _ hfits => ?_⟩
  exact (hcell.supported ‹_› (h.supported ‹_› (fits_of_fits_commit hfits))).congr
    (live_commit h.sound hcell.toProper hij (h.size_eq ▸ hj) hfits)

/-- An upheld chart with possible scores alone. -/
structure Sustained (g : Grammar α) (s : Sentence) (c : Chart α) : Prop extends c.Upheld g s where
  possible : c.Possible

theorem Sustained.commit [MonotoneScore α] (h : c.Sustained g s)
    (hcell : cell.Upheld g s c.Live i j) (hij : i < j) (hj : j ≤ s.size) :
    (c.commit cell).Sustained g s where
  toUpheld := h.toUpheld.commit hcell hij hj
  possible := h.possible.commit h.sound hcell.toProper hij (h.size_eq ▸ hj)

end Chart

end Constituency
