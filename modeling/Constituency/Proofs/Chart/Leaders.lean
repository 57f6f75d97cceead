import Constituency.Proofs.Chart.Offers

/-!
# The first of the best offers

Whatever has been offered to a chart, it holds for a symbol over a span the first one of the best entries
that have been offered for it (`Holds`), as long as it takes an offer exactly where it is better than what is
there (`Takes`). Which scores are better is left open: rows compare scores, and slots compare ranks.
-/

namespace Constituency

namespace Chart

variable {α : Type} [Score α] {g : Grammar α} {c : Chart α} {o : Offer α} {offers : List (Offer α)}
  {better : α → α → Bool} {size i j : Nat} {A : NonTerminal} {e e' : Entry α}

/-- Scores that derivations can have are ordered, up to ties. -/
structure Orders (better : α → α → Bool) : Prop where
  asymm : ∀ {x y : α}, Score.admissible x = true → Score.admissible y = true →
    better x y = true → better y x = false
  /-- What is better than one score is better than any other that is not better than that one. -/
  better_of_not : ∀ {x y z : α}, Score.admissible x = true → Score.admissible y = true →
    Score.admissible z = true → better y x = false → better z x = true → better z y = true

/-- The offer is one for the symbol over the span, with a score that a derivation can have. -/
structure Competes (o : Offer α) (start stop : Nat) (nt : NonTerminal) : Prop where
  start_eq : o.start = start
  stop_eq : o.stop = stop
  nonterminal_eq : o.nonterminal = nt
  admissible : Score.admissible o.inside = true

/-- The entry is the first of the best that have been offered for a symbol over a span. -/
def Leads (better : α → α → Bool) (offers : List (Offer α)) (start stop : Nat) (nt : NonTerminal)
    (e : Entry α) : Prop :=
  ∃ before o after, offers = before ++ o :: after ∧ Competes o start stop nt ∧ o.toEntry = e ∧
    (∀ o' ∈ before, Competes o' start stop nt → better o.inside o'.inside = true) ∧
    ∀ o' ∈ after, Competes o' start stop nt → better o'.inside o.inside = false

namespace Leads

theorem admissible (h : Leads better offers i j A e) : Score.admissible e.inside = true := by
  obtain ⟨_, o, _, -, ho, rfl, -⟩ := h
  exact ho.admissible

/-- Only one entry is the first of the best. -/
theorem unique (h : Leads better offers i j A e) (h' : Leads better offers i j A e') : e = e' := by
  obtain ⟨before, o, after, rfl, ho, rfl, hbefore, hafter⟩ := h
  obtain ⟨before', o', after', hsplit, ho', rfl, hbefore', hafter'⟩ := h'
  rw [List.append_eq_append_iff] at hsplit
  rcases hsplit with ⟨between, rfl, hrest⟩ | ⟨between, rfl, hrest⟩
  · cases between with
    | nil => rw [(List.cons.inj hrest).1]
    | cons x between =>
      obtain ⟨rfl, rfl⟩ := List.cons.inj hrest
      have hworse := hafter o' (by simp) ho'
      rw [hbefore' o (by simp) ho] at hworse
      cases hworse
  · cases between with
    | nil => rw [(List.cons.inj hrest).1]
    | cons x between =>
      obtain ⟨rfl, rfl⟩ := List.cons.inj hrest
      have hworse := hafter' o (by simp) ho
      rw [hbefore o' (by simp) ho'] at hworse
      cases hworse

theorem iff_eq (h : Leads better offers i j A e) : Leads better offers i j A e' ↔ e = e' :=
  ⟨h.unique, fun heq => heq ▸ h⟩

/-- No offer is better than the first of the best. -/
theorem not_better (hb : Orders better) (h : Leads better offers i j A e) (ho : o ∈ offers)
    (hcompetes : Competes o i j A) : better o.inside e.inside = false := by
  obtain ⟨before, x, after, rfl, hx, rfl, hbefore, hafter⟩ := h
  have hirrefl : ∀ {y : α}, Score.admissible y = true → better y y = false := fun {y} hy =>
    Bool.eq_false_iff.2 fun hyy => Bool.eq_false_iff.1 (hb.asymm hy hy hyy) hyy
  rcases List.mem_append.1 ho with ho | ho
  · exact hb.asymm hx.admissible hcompetes.admissible (hbefore o ho hcompetes)
  · rcases List.mem_cons.1 ho with rfl | ho
    · exact hirrefl hx.admissible
    · exact hafter o ho hcompetes

/-- What is better than the first of the best is better than all that compete with it. -/
theorem better_of_better (hb : Orders better) (h : Leads better offers i j A e)
    (hadm : Score.admissible o.inside = true) (hbetter : better o.inside e.inside = true) :
    ∀ o' ∈ offers, Competes o' i j A → better o.inside o'.inside = true := fun _ ho' hcompetes =>
  hb.better_of_not h.admissible hcompetes.admissible hadm (h.not_better hb ho' hcompetes) hbetter

/-- What leads after one more offer: that one if it is better than all before, and what has led before if
it is not. -/
theorem snoc_iff : Leads better (offers ++ [o]) i j A e ↔
    (Competes o i j A ∧ o.toEntry = e ∧
      ∀ o' ∈ offers, Competes o' i j A → better o.inside o'.inside = true) ∨
    Leads better offers i j A e ∧ (Competes o i j A → better o.inside e.inside = false) := by
  constructor
  · rintro ⟨before, x, after, hsplit, hx, rfl, hbefore, hafter⟩
    rcases List.eq_nil_or_concat after with rfl | ⟨after, y, rfl⟩
    · obtain ⟨rfl, heq⟩ := List.append_inj' hsplit rfl
      obtain rfl := List.singleton_inj.1 heq
      exact .inl ⟨hx, rfl, hbefore⟩
    · rw [List.concat_eq_append, ← List.cons_append, ← List.append_assoc] at hsplit
      obtain ⟨rfl, heq⟩ := List.append_inj' hsplit rfl
      obtain rfl := List.singleton_inj.1 heq
      refine .inr ⟨⟨before, x, after, rfl, hx, rfl, hbefore, fun o' ho' => hafter o' ?_⟩, hafter o ?_⟩
      all_goals simp [*]
  · rintro (⟨ho, rfl, hall⟩ | ⟨⟨before, x, after, rfl, hx, rfl, hbefore, hafter⟩, hnot⟩)
    · exact ⟨offers, o, [], rfl, ho, rfl, hall, fun o' ho' => absurd ho' List.not_mem_nil⟩
    · refine ⟨before, x, after ++ [o], by simp, hx, rfl, hbefore, fun o' ho' hcompetes => ?_⟩
      rcases List.mem_append.1 ho' with ho' | ho'
      · exact hafter o' ho' hcompetes
      · obtain rfl := List.mem_singleton.1 ho'
        exact hnot hcompetes

end Leads

/-- An offer that does not compete changes nothing. -/
theorem Takes.get?_of_not_competes (h : c.Takes g better o) (ho : ¬ Competes o i j A) :
    (c.offer o).2.get? i j A = c.get? i j A := by
  rw [h.get?_eq, if_neg]
  rintro ⟨hdone, rfl, rfl, rfl⟩
  rw [h.answer_eq, Bool.and_eq_true] at hdone
  exact ho ⟨rfl, rfl, rfl, hdone.1⟩

/-- The number of entries of a chart is the number of symbols over spans that have one. -/
def Counted (c : Chart α) : Prop :=
  ∃ keys : List (Nat × Nat × NonTerminal), keys.Nodup ∧
    (∀ i j A, (i, j, A) ∈ keys ↔ (c.get? i j A).isSome = true) ∧ keys.length = c.numEntries

theorem Counted.offer (h : c.Counted) (ht : c.Takes g better o) : (c.offer o).2.Counted := by
  obtain ⟨keys, hnodup, hmem, hlength⟩ := h
  by_cases hnew : (c.offer o).1 = true ∧ (c.get? o.start o.stop o.nonterminal).isNone = true
  · refine ⟨(o.start, o.stop, o.nonterminal) :: keys, List.nodup_cons.2 ⟨?_, hnodup⟩,
      fun i j A => ?_, ?_⟩
    · rw [hmem, ← Option.isNone_eq_false_iff, hnew.2]
      exact Bool.noConfusion
    · rw [List.mem_cons, hmem, ht.get?_eq, Prod.mk.injEq, Prod.mk.injEq]
      by_cases hkey : i = o.start ∧ j = o.stop ∧ A = o.nonterminal
      · rw [if_pos ⟨hnew.1, hkey⟩]
        simp [hkey]
      · rw [if_neg fun h => hkey h.2]
        simp [hkey]
    · rw [List.length_cons, ht.numEntries_eq, if_pos hnew, hlength]
  · refine ⟨keys, hnodup, fun i j A => ?_, by rw [ht.numEntries_eq, if_neg hnew, hlength, Nat.add_zero]⟩
    rw [hmem, ht.get?_eq]
    split
    · next hkey =>
      obtain ⟨hanswer, rfl, rfl, rfl⟩ := hkey
      rw [not_and, Bool.not_eq_true, ← Option.not_isSome, Bool.not_eq_false'] at hnew
      simp [hnew hanswer]
    · rfl

/-- The chart holds the first of the best of the entries that have been offered, and as many as it says. -/
structure Holds (g : Grammar α) (better : α → α → Bool) (offers : List (Offer α)) (c : Chart α) :
    Prop where
  sound : c.Sound g
  get?_iff : ∀ i j A e, c.get? i j A = some e ↔ Leads better offers i j A e
  none_iff : ∀ i j A, c.get? i j A = none ↔ ∀ o ∈ offers, ¬ Competes o i j A
  counted : c.Counted

theorem Holds.initial (h : c.Sound g) (hnone : ∀ i j A, c.get? i j A = none)
    (hcount : c.numEntries = 0) : Holds g better [] c where
  sound := h
  get?_iff i j A e := by
    rw [hnone]
    refine ⟨nofun, fun ⟨before, o, after, hsplit, _⟩ => ?_⟩
    simp at hsplit
  none_iff i j A := iff_of_true (hnone i j A) fun o ho => absurd ho List.not_mem_nil
  counted := ⟨[], List.nodup_nil, fun i j A => by simp [hnone], hcount.symm⟩

/-- One more offer is taken if it is better than what has been offered before. -/
theorem Holds.offer (hb : Orders better) (h : Holds g better offers c) (ht : c.Takes g better o) :
    Holds g better (offers ++ [o]) (c.offer o).2 := by
  have hanswer := ht.answer_eq
  refine ⟨ht.sound, fun i j A e => ?_, fun i j A => ?_, h.counted.offer ht⟩
  · by_cases ho : Competes o i j A
    · obtain ⟨rfl, rfl, rfl, hadm⟩ := id ho
      rw [hadm, Bool.true_and] at hanswer
      rw [ht.get?_eq]
      cases hget : c.get? o.start o.stop o.nonterminal with
      | none =>
        have hnone := (h.none_iff ..).1 hget
        rw [hget, Option.all_none] at hanswer
        rw [if_pos ⟨hanswer, rfl, rfl, rfl⟩, Option.some.injEq]
        exact (Leads.snoc_iff.2 (.inl ⟨ho, rfl, fun o' ho' hcompetes =>
          absurd hcompetes (hnone o' ho')⟩)).iff_eq.symm
      | some old =>
        have hold := (h.get?_iff ..).1 hget
        rw [hget, Option.all_some] at hanswer
        cases hbetter : better o.inside old.inside with
        | true =>
          rw [if_pos ⟨hanswer.trans hbetter, rfl, rfl, rfl⟩, Option.some.injEq]
          exact (Leads.snoc_iff.2
            (.inl ⟨ho, rfl, hold.better_of_better hb hadm hbetter⟩)).iff_eq.symm
        | false =>
          have hkept : (c.offer o).1 = false := hanswer.trans hbetter
          rw [if_neg (by rw [hkept]; exact fun h => Bool.noConfusion h.1), Option.some.injEq]
          exact (Leads.snoc_iff.2 (.inr ⟨hold, fun _ => hbetter⟩)).iff_eq.symm
    · rw [ht.get?_of_not_competes ho, h.get?_iff, Leads.snoc_iff]
      exact ⟨fun hlead => .inr ⟨hlead, fun h => absurd h ho⟩,
        fun hlead => hlead.elim (fun h => absurd h.1 ho) And.left⟩
  · rw [List.forall_mem_append, List.forall_mem_singleton, ← h.none_iff]
    by_cases ho : Competes o i j A
    · obtain ⟨rfl, rfl, rfl, hadm⟩ := id ho
      rw [hadm, Bool.true_and] at hanswer
      rw [ht.get?_eq]
      refine iff_of_false (fun hnone => ?_) fun hnone => hnone.2 ho
      split at hnone
      · cases hnone
      · next hkept =>
        rw [hnone, Option.all_none] at hanswer
        exact hkept ⟨hanswer, rfl, rfl, rfl⟩
    · rw [ht.get?_of_not_competes ho]
      exact ⟨fun hnone => ⟨hnone, ho⟩, And.left⟩

end Chart

end Constituency
