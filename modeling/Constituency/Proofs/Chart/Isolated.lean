import Constituency.Proofs.Chart.Downward
import Constituency.Proofs.Chart.Traced

/-!
# A weighed chart singles out its only derivation

Whichever way alternatives are combined, an entry of a weighed chart has a possible inside score if
something possible is below it, and a possible outside score only if something possible surrounds it
(`framed_surround`). If the chart has one possible derivation of the sentence, all its constituents are
possible outside (`possible_outside_of_only`), and a possible derivation of an entry that is possible
outside is a part of it (`Isolates.part`): put into the surroundings of the entry it makes a derivation of
the sentence. Entries aside of the derivation may have possible scores, but not both of them.
-/

namespace Constituency

namespace PackedChart

variable {α : Type} [Score α] [LosslessScore α] {acc : Accumulator α} {g : Grammar α}
  {s : Sentence} {c c' : PackedChart α} {live : Nat → Nat → NonTerminal → Prop} {root u v : Place}
  {i j k : Nat} {A B : NonTerminal} {d e f : Derivation α}

/-! ## Outside -/

/-- Something possible surrounds a place. -/
def Framed (g : Grammar α) (s : Sentence) (live : Nat → Nat → NonTerminal → Prop)
    (root v : Place) : Prop :=
  ∃ fs, Surrounds g s live root v fs ∧ ∀ f ∈ fs, Score.impossible < f.score

omit [LosslessScore α] in
theorem Framed.cons {f : Frame α} (h : Framed g s live root u) (joins : f.Joins g s live u v)
    (possible : Score.impossible < f.score) (alive : live v.1 v.2.1 v.2.2) :
    Framed g s live root v := by
  obtain ⟨fs, hfs, hpos⟩ := h
  exact ⟨f :: fs, .cons joins hfs alive, List.forall_mem_cons.2 ⟨possible, hpos⟩⟩

/-- Something possible surrounds whatever is possible outside. -/
structure Enclosed (g : Grammar α) (s : Sentence) (c c' : PackedChart α) : Prop where
  same : SameInside c c'
  framed : ∀ v : Place, Score.impossible < c'.outside v.1 v.2.1 v.2.2 →
    Framed g s c.Live (0, c.size, g.start) v

theorem enclosed_unsurrounded (hc : c.Sound g) (s : Sentence) :
    Enclosed g s c (c.unsurrounded g) := by
  obtain ⟨hsame, hout⟩ := unsurrounded_spec hc
  refine ⟨hsame, fun v hpos => ?_⟩
  have hv : v.2.2 ∈ c.symbols v.1 v.2.1 := by
    rw [← hsame.symbols_eq]
    exact mem_symbols_of_outside (hsame.sound hc) hpos
  rw [hout _ _ _ hv] at hpos
  split at hpos
  · next hroot =>
    obtain ⟨i, j, A⟩ := v
    obtain ⟨⟨rfl, rfl⟩, rfl⟩ := hroot
    exact ⟨[], .nil ((mem_symbols hc).1 hv), nofun⟩
  · exact absurd hpos Score.not_impossible_lt_impossible

theorem Enclosed.complete (hc : c.Sound g) (h : Enclosed g s c c') (i j : Nat) :
    Enclosed g s c (complete acc g c' i j) := by
  have hsame := sameInside_complete acc (h.same.sound hc) i j
  refine ⟨h.same.trans hsame, fun v hpos => ?_⟩
  obtain ⟨k, l, A⟩ := v
  have hA : A ∈ c'.symbols k l := by
    rw [← hsame.symbols_eq]
    exact mem_symbols_of_outside (hsame.sound (h.same.sound hc)) hpos
  dsimp only at hpos
  rw [outside_complete (h.same.sound hc) i j hA] at hpos
  split at hpos
  · next hspan =>
    obtain ⟨rfl, rfl⟩ := hspan
    obtain ⟨top, -, htop, hway⟩ := (possible_completed_iff (h.same.sound hc) hA).1 hpos
    clear hpos hA
    -- along the chain of unary rules from what has been possible before
    induction hway with
    | refl => exact h.framed (k, l, top) htop
    | tail _ hdown ih =>
      obtain ⟨-, hB, p, hp, rfl, hpc, hrule⟩ := hdown
      refine ih.cons (.unary hp hpc) hrule ((mem_symbols hc).1 ?_)
      rwa [← h.same.symbols_eq]
  · exact h.framed (k, l, A) hpos

theorem Enclosed.passDown (hc : c.Sound g)
    (hinside : ∀ i j A, Score.impossible < c.inside i j A → Grounded g s c.Live i j A)
    (h : Enclosed g s c c') (i j : Nat) : Enclosed g s c (passDown acc g c' (i, j)) := by
  classical
  have hcell : Enclosed g s c (PackedChart.complete acc g c' i j) := h.complete hc i j
  have hsound := hcell.same.sound hc
  obtain ⟨hsame, hout⟩ := passDown_spec acc (h.same.sound hc) i j
  refine ⟨h.same.trans hsame, fun v hpos => ?_⟩
  have hv : v.2.2 ∈ c'.symbols v.1 v.2.1 := by
    rw [← hsame.symbols_eq]
    exact mem_symbols_of_outside (hsame.sound (h.same.sound hc)) hpos
  have halive : c.Live v.1 v.2.1 v.2.2 := by
    rw [h.same.symbols_eq] at hv
    exact (mem_symbols hc).1 hv
  have hsister : ∀ {k l B}, Score.impossible < (PackedChart.complete acc g c' i j).inside k l B →
      Grounded g s c.Live k l B := fun hpos => hinside _ _ _ (hcell.same.inside_eq _ _ _ ▸ hpos)
  rw [hout _ _ _ hv, foldl_receive_eq, binaryOutside_eq hsound, List.filter_map] at hpos
  rcases possible_of_foldl_combine hpos with hpos | ⟨y, hy, hpos⟩
  · exact hcell.framed v hpos
  · obtain ⟨x, hx, rfl⟩ := List.mem_map.1 hy
    obtain ⟨⟨⟨m, p⟩, side⟩, hmem, rfl⟩ := List.mem_map.1 hx
    rw [List.mem_filter, Function.comp_apply, decide_eq_true_iff] at hmem
    obtain ⟨hm, hp, -⟩ := (mem_handouts hsound).1 hmem.1
    obtain ⟨B, C, hpc, ⟨-, rfl, hsum⟩ | ⟨-, rfl, hsum⟩⟩ :=
      (reaches_handout_iff hsound hmem.1).1 hmem.2
    all_goals
      obtain ⟨hsum, hbelow⟩ := Score.impossible_lt_of_add hsum
      obtain ⟨habove, hrule⟩ := Score.impossible_lt_of_add hsum
      obtain ⟨d, hd, hposd⟩ := hsister hbelow
    · exact (hcell.framed (i, j, p.parent) habove).cons (.left hp hpc hm.1 hd)
        (LosslessScore.impossible_lt_add hrule hposd) halive
    · exact (hcell.framed (i, j, p.parent) habove).cons (.right hp hpc hm.2 hd)
        (LosslessScore.impossible_lt_add hrule hposd) halive

/-- Something possible surrounds whatever is possible outside in the end. -/
theorem framed_surround (acc : Accumulator α) (hc : c.Sound g)
    (hinside : ∀ i j A, Score.impossible < c.inside i j A → Grounded g s c.Live i j A)
    (hpos : Score.impossible < (c.surround acc g).outside v.1 v.2.1 v.2.2) :
    Framed g s c.Live (0, c.size, g.start) v := by
  have hpass : Enclosed g s c (c.surround acc g) :=
    foldl_prefix_induction (P := fun _ c' => Enclosed g s c c') (spansDown c.size)
      (fun _ span _ _ _ hv => hv.passDown hc hinside span.1 span.2) (enclosed_unsurrounded hc s)
  exact hpass.framed v hpos

/-- In a chart with inside scores the only derivation of the sentence is possible outside. -/
theorem possible_outside_of_only (acc : Accumulator α) (hc : c.Sound g)
    (hinside : ∀ i j A, Grounded g s c.Live i j A → Score.impossible < c.inside i j A)
    (hd : Only (below g s c.Live 0 c.size g.start) Derivation.score d)
    (he : Derivation.Part 0 d k e) :
    Score.impossible < (c.surround acc g).outside k (k + e.width) e.root := by
  have hpass := passedDown_surround acc hc
  have hspan : ∀ {k e}, Derivation.Part 0 d k e → (k, k + e.width) ∈ spansDown c.size := fun he =>
    mem_spansDown.2 (hc.bounds_of_live (DerivesIn.alive (hd.part he).mem))
  have hgrounded : ∀ {k e}, Derivation.Part 0 d k e →
      Score.impossible < c.inside k (k + e.width) e.root := fun he =>
    hinside _ _ _ ⟨_, (hd.part he).mem, (hd.part he).possible⟩
  have hrules : ∀ {k p e f}, Derivation.Part 0 d k (.binary p e f) → p ∈ g.productions ∧
      p.children = .binary e.root f.root ∧ Score.impossible < p.logProb ∧
        k < k + e.width ∧ k + e.width < k + e.width + f.width := by
    intro k p e f above
    have honly := hd.part above
    obtain ⟨hp, hpc, -, -⟩ := DerivesIn.of_binary honly.mem
    have hrule := (Score.impossible_lt_of_add (Score.impossible_lt_of_add honly.possible).1).1
    exact ⟨hp, hpc, hrule, Nat.lt_add_of_pos_right e.width_pos, Nat.lt_add_of_pos_right f.width_pos⟩
  induction he with
  | whole =>
    have hstop : 0 + d.width = c.size := (DerivesIn.stop_eq hd.mem).symm
    have hroot : d.root = g.start := DerivesIn.root_eq hd.mem
    rw [hstop, hroot]
    refine possible_surround hc (.root ?_) (Nat.zero_le _)
    rw [← hstop, ← hroot]
    exact hgrounded .whole
  | @child k p e above ih =>
    have honly := hd.part above
    obtain ⟨hp, hpc, he⟩ := DerivesIn.of_unary honly.mem
    refine hpass.unary k (k + e.width) p.parent e.root (hspan (e := .unary p e) above) ?_ ih
    exact ⟨(mem_symbols hc).2 (DerivesIn.alive honly.mem), (mem_symbols hc).2 he.alive, p, hp, rfl,
      hpc, (Score.impossible_lt_of_add honly.possible).1⟩
  | @left k p e f above ih =>
    obtain ⟨hp, hpc, hrule, hm⟩ := hrules above
    refine hpass.hands (k, k + (e.width + f.width), p.parent) (k, k + e.width, e.root)
      (hspan above) ?_ ih
    rw [← Nat.add_assoc]
    exact .left hp hpc hrule hm (hgrounded above.left) (hgrounded above.right)
  | @right k p e f above ih =>
    obtain ⟨hp, hpc, hrule, hm⟩ := hrules above
    refine hpass.hands (k, k + (e.width + f.width), p.parent)
      (k + e.width, k + e.width + f.width, f.root) (hspan above) ?_ ih
    rw [← Nat.add_assoc]
    exact .right hp hpc hrule hm (hgrounded above.left) (hgrounded above.right)

/-! ## Both passes -/

/-- A chart whose scores single out the only possible derivation of the sentence. -/
structure Isolates (g : Grammar α) (s : Sentence) (c : PackedChart α) (d : Derivation α) :
    Prop where
  only : Only (below g s c.Live 0 c.size g.start) Derivation.score d
  inside_iff : ∀ i j A, Score.impossible < c.inside i j A ↔ Grounded g s c.Live i j A
  outside : ∀ k e, Derivation.Part 0 d k e →
    Score.impossible < c.outside k (k + e.width) e.root
  framed : ∀ v : Place, Score.impossible < c.outside v.1 v.2.1 v.2.2 →
    Framed g s c.Live (0, c.size, g.start) v

theorem isolates_weighed (acc : Accumulator α) (hc : c.Sound g)
    (hd : Only (below g s c.Live 0 c.size g.start) Derivation.score d) :
    (c.weighed acc g s).Isolates g s d := by
  have hup := reweighed_resum acc hc s.terminals
  have hr := hup.sound hc
  have hsame := sameInside_surround acc hr
  have hlive : (c.resum acc g s.terminals).Live = c.Live := by
    funext i j A
    rw [Live, Live, hup.isSome_get? hc]
  have hlive' : (c.weighed acc g s).Live = c.Live := by
    funext i j A
    rw [← hlive, weighed, Live, Live, hsame.isSome_get? hr]
  have hsize : (c.weighed acc g s).size = c.size := hsame.size_eq.trans hup.size_eq
  have hsummed := summed_resum acc hc s
  have hinside : ∀ i j A, Score.impossible < (c.resum acc g s.terminals).inside i j A ↔
      Grounded g s c.Live i j A := fun i j A =>
    ⟨(hsummed.tracks i j A).sound, hsummed.possible i j A⟩
  have hroot : Only (below g s (c.resum acc g s.terminals).Live 0
      (c.resum acc g s.terminals).size g.start) Derivation.score d := by
    rwa [hlive, hup.size_eq]
  refine ⟨?_, fun i j A => ?_, fun k e he => ?_, fun v hpos => ?_⟩
  · rwa [hlive', hsize]
  · rw [hlive', weighed, hsame.inside_eq]
    exact hinside i j A
  · refine possible_outside_of_only acc hr (fun i j A hA => ?_) hroot he
    rw [hlive] at hA
    exact (hinside i j A).2 hA
  · have hframed := framed_surround (s := s) acc hr (fun i j A hA => hlive ▸ (hinside i j A).1 hA) hpos
    rwa [hlive, hup.size_eq, ← hlive', ← hsize] at hframed

namespace Isolates

variable (h : c.Isolates g s d)
include h

theorem derives (he : Derivation.Part 0 d k e) :
    DerivesIn g s c.Live k (k + e.width) e.root e := (h.only.part he).mem

theorem possible (he : Derivation.Part 0 d k e) : Score.impossible < e.score :=
  (h.only.part he).possible

/-- A place has one part of the derivation at most. -/
theorem part_unique (he : Derivation.Part 0 d k e) (hf : Derivation.Part 0 d k f)
    (hwidth : f.width = e.width) (hroot : f.root = e.root) : f = e := by
  refine (h.only.part he).unique f ?_ (h.possible hf)
  rw [← hwidth, ← hroot]
  exact h.derives hf

/-- What is possible below and around an entry belongs to the derivation. -/
theorem part (he : DerivesIn g s c.Live i j A e) (hpos : Score.impossible < e.score)
    (hout : Score.impossible < c.outside i j A) : Derivation.Part 0 d i e := by
  obtain ⟨fs, hfs, hframes⟩ := h.framed (i, j, A) hout
  have hplug : plug fs e = d := h.only.unique (plug fs e) (hfs.derives he)
    (possible_plug_iff.2 ⟨hpos, hframes⟩)
  rw [← hplug]
  exact Derivation.Part.of_surrounds hfs he

end Isolates

end PackedChart

end Constituency
