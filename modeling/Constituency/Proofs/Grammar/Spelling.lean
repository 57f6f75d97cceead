import Constituency.Proofs.Grammar.Layout
import Constituency.Proofs.Grammar.Mention
import Constituency.Proofs.Grammar.Binarization

/-!
# What a reader lets pass

A symbol that is read has characters, all of them fit for symbols, and no comment mark among them
(`WrittenRule.writable_of_readAll`). The symbols that binarization makes up join such symbols, and can be
written as well (`WrittenRule.writable_binaryRules`). A rule that is read has a probability of at most one
(`WrittenRule.le_zero_of_readAll`).
-/

namespace Constituency

/-! ## Parts of a text -/

namespace Text

variable {mark text piece word : List Char} {separator : Char → Bool}

theorem prefix_cutAt (mark text : List Char) : (cutAt mark text).1 <+: text := by
  induction text with
  | nil => exact List.prefix_rfl
  | cons c text ih =>
    rw [cutAt]
    split
    · exact List.nil_prefix
    · exact (List.prefix_cons_inj c).2 ih

/-- No mark is left before the first one. -/
theorem not_infix_cutAt (hne : mark ≠ []) (text : List Char) : ¬ mark <:+: (cutAt mark text).1 := by
  have hnil : ¬ mark <:+: [] := fun h => hne (List.infix_nil.1 h)
  induction text with
  | nil => exact hnil
  | cons c text ih =>
    rw [cutAt]
    split
    · exact hnil
    · next hstart =>
      intro h
      rcases List.infix_cons_iff.1 h with hbegin | hpart
      · exact hstart (List.isPrefixOf_iff_prefix.2
          (hbegin.trans ((List.prefix_cons_inj c).2 (prefix_cutAt mark text))))
      · exact ih hpart

/-- The first piece begins the text, and the pieces are parts of it without separators. -/
theorem pieces_parts (separator : Char → Bool) (text : List Char) :
    (∀ piece ∈ (pieces separator text).head?, piece <+: text) ∧
      ∀ piece ∈ pieces separator text, piece <:+: text ∧ ∀ c ∈ piece, separator c = false := by
  induction text with
  | nil => simp [pieces]
  | cons c text ih =>
    obtain ⟨hhead, hparts⟩ := ih
    have hlater : ∀ piece ∈ pieces separator text,
        piece <:+: c :: text ∧ ∀ d ∈ piece, separator d = false := fun piece hpiece =>
      ⟨(hparts piece hpiece).1.trans (List.suffix_cons c text).isInfix, (hparts piece hpiece).2⟩
    rw [pieces]
    split
    · refine ⟨?_, List.forall_mem_cons.2 ⟨⟨List.nil_infix, fun d hd => absurd hd List.not_mem_nil⟩, hlater⟩⟩
      rintro piece ⟨⟩
      exact List.nil_prefix
    · next hc =>
      have hfree := Bool.eq_false_iff.2 hc
      split
      · refine ⟨?_, ?_⟩
        · rintro piece ⟨⟩
          exact (List.prefix_cons_inj c).2 List.nil_prefix
        · rw [List.forall_mem_singleton]
          exact ⟨⟨[], text, rfl⟩, List.forall_mem_singleton.2 hfree⟩
      · next piece later heq =>
        rw [heq] at hhead hparts hlater
        have hbegin : c :: piece <+: c :: text := (List.prefix_cons_inj c).2 (hhead piece rfl)
        refine ⟨?_, List.forall_mem_cons.2 ⟨⟨hbegin.isInfix, ?_⟩, fun other hother =>
          hlater other (List.mem_cons_of_mem _ hother)⟩⟩
        · rintro _ ⟨⟩
          exact hbegin
        · exact List.forall_mem_cons.2 ⟨hfree, (hparts piece List.mem_cons_self).2⟩

theorem infix_of_mem_pieces (h : piece ∈ pieces separator text) :
    piece <:+: text ∧ ∀ c ∈ piece, separator c = false :=
  (pieces_parts separator text).2 piece h

/-- A word is a part of the text that has characters, and no blanks. -/
theorem infix_of_mem_words (h : word ∈ words text) :
    word <:+: text ∧ word ≠ [] ∧ ∀ c ∈ word, isBlank c = false := by
  obtain ⟨hpiece, hne⟩ := List.mem_filter.1 h
  obtain ⟨hpart, hblank⟩ := infix_of_mem_pieces hpiece
  exact ⟨hpart, by simpa using hne, hblank⟩

end Text

namespace WrittenRule

open Text Layout

variable {rules : List (WrittenRule Float32)} {r : WrittenRule Float32} {line : Nat} {text : List Char}

/-- Nothing in a statement ends it. -/
theorem not_ended_of_mem_statements {code : List Char} (h : text ∈ statements code) :
    ¬ commentMark <:+: text ∧ ';' ∉ text := by
  obtain ⟨hmem, -⟩ := List.mem_filter.1 h
  obtain ⟨piece, hpiece, rfl⟩ := List.mem_map.1 hmem
  obtain ⟨hpart, hfree⟩ := infix_of_mem_pieces hpiece
  have hsuffix : skipBlanks piece <:+: piece := (List.dropWhile_suffix _).isInfix
  constructor
  · intro hmark
    exact not_infix_cutAt (by decide) code (hmark.trans (hsuffix.trans hpart))
  · intro hmark
    cases hfree _ (hsuffix.subset hmark)

theorem writable_of_infix {name : List Char} (htext : ¬ commentMark <:+: text ∧ ';' ∉ text)
    (hpart : name <:+: text) (hne : name ≠ [])
    (hname : ∀ c ∈ name, isBlank c = false ∧ c ≠ '[' ∧ c ≠ ']') :
    Writable (String.ofList name) := by
  constructor
  · rwa [String.toList_ofList]
  · rw [String.toList_ofList]
    intro c hc
    obtain ⟨hblank, hopen, hclose⟩ := hname c hc
    have hend : c ≠ ';' := by
      rintro rfl
      exact htext.2 (hpart.subset hc)
    simp [isNameChar, hblank, hopen, hclose, hend]
  · rw [String.toList_ofList]
    exact fun hmark => htext.1 (hmark.trans hpart)

/-- The symbols of a rule that is read can be written. -/
theorem writable_of_read (htext : ¬ commentMark <:+: text ∧ ';' ∉ text) (h : read line text = .ok r) :
    ∀ name ∈ r.parent :: r.children, Writable name := by
  obtain ⟨hparent, hne, body, hbody, hchildren, -, -⟩ := of_read h
  rw [hparent, hchildren, List.forall_mem_cons, List.forall_mem_map]
  constructor
  · refine writable_of_infix htext (List.takeWhile_prefix _).isInfix hne fun c hc => ?_
    have hname := List.all_eq_true.1 List.all_takeWhile c hc
    simp only [isNameChar, Bool.not_eq_true', Bool.or_eq_false_iff, beq_eq_false_iff_ne] at hname
    exact ⟨hname.1.1.1, hname.1.1.2, hname.1.2⟩
  · intro word hword
    obtain ⟨hpart, hsome, hblank⟩ := infix_of_mem_words hword
    refine writable_of_infix htext (hpart.trans ((List.takeWhile_prefix _).isInfix.trans hbody.isInfix))
      hsome fun c hc => ⟨hblank c hc, ?_⟩
    have hbracket := List.all_eq_true.1 List.all_takeWhile c (hpart.subset hc)
    simp only [Bool.not_eq_true', Bool.or_eq_false_iff, beq_eq_false_iff_ne] at hbracket
    exact hbracket

/-- The symbols of rules that are read can be written. -/
theorem writable_of_readAll {text : String} (h : readAll text = .ok rules) (hr : r ∈ rules) :
    ∀ name ∈ r.parent :: r.children, Writable name := by
  obtain ⟨⟨line, statement⟩, hmem, hread⟩ := exists_of_mem_mapM h hr
  obtain ⟨⟨code, number⟩, -, hstatement⟩ := List.mem_flatMap.1 hmem
  obtain ⟨statement', hin, heq⟩ := List.mem_map.1 hstatement
  obtain ⟨rfl, rfl⟩ := Prod.mk.inj heq
  exact writable_of_read (not_ended_of_mem_statements hin) hread

/-! ## Symbols that are made up -/

/-- To join texts by separators brings neither foreign characters nor comment marks. -/
theorem forall_mem_intercalate {parts : List (List Char)}
    (h : ∀ part ∈ parts, (∀ c ∈ part, isNameChar c = true) ∧ ¬ commentMark <:+: part) :
    (∀ c ∈ ['|'].intercalate parts, isNameChar c = true) ∧
      ¬ commentMark <:+: ['|'].intercalate parts := by
  have hseparator : isNameChar '|' = true := by decide
  have hforeign : ∀ c ∈ ['|'], c ∉ commentMark := by simp [commentMark]
  induction parts with
  | nil => exact ⟨fun c hc => absurd hc List.not_mem_nil, by decide⟩
  | cons part parts ih =>
    obtain ⟨hpart, hparts⟩ := List.forall_mem_cons.1 h
    obtain ⟨hname, hmark⟩ := ih hparts
    cases parts with
    | nil => simpa [List.intercalate] using hpart
    | cons next parts =>
      rw [List.intercalate_cons_cons, List.append_assoc]
      refine ⟨?_, not_infix_join hpart.2 hmark hforeign (List.cons_ne_nil _ _)⟩
      rw [List.forall_mem_append, List.forall_mem_append, List.forall_mem_singleton]
      exact ⟨hpart.1, hseparator, hname⟩

/-- A symbol that stands for others can be written if they can. -/
theorem writable_factoredName {parent : String} {l : List String} (hne : l ≠ [])
    (hparent : Writable parent) (hl : ∀ name ∈ l, Writable name) :
    Writable (factoredName parent l) := by
  have hmarked : (∀ c ∈ factoredMark :: parent.toList, isNameChar c = true) ∧
      ¬ commentMark <:+: factoredMark :: parent.toList := by
    refine ⟨List.forall_mem_cons.2 ⟨by decide, hparent.nameChar⟩, fun h => ?_⟩
    rcases List.infix_cons_iff.1 h with hbegin | hpart
    · exact absurd (List.cons_prefix_cons.1 hbegin).1 (by decide)
    · exact hparent.uncommented hpart
  have hjoined := forall_mem_intercalate (List.forall_mem_cons.2 ⟨hmarked,
    List.forall_mem_map.2 fun name hname => ⟨(hl name hname).nameChar, (hl name hname).uncommented⟩⟩)
  rw [← toList_factoredName parent hne] at hjoined
  refine ⟨?_, hjoined.1, hjoined.2⟩
  rw [toList_factoredName parent hne]
  cases l with
  | nil => exact absurd rfl hne
  | cons name l => simp [List.intercalate_cons_cons]

theorem writable_tailName {parent : String} {l : List String} (hne : l ≠ [])
    (hparent : Writable parent) (hl : ∀ name ∈ l, Writable name) : Writable (tailName parent l) := by
  unfold tailName
  split
  · exact hl _ List.mem_cons_self
  · exact writable_factoredName hne hparent hl

/-- All symbols of the rules in binary form can be written. -/
theorem writable_binaryRules (h : ∀ r ∈ rules, ∀ name ∈ r.parent :: r.children, Writable name) :
    ∀ s ∈ binaryRules rules, ∀ name ∈ s.names, Writable name := by
  intro s hs
  obtain ⟨r, hr, hs⟩ := List.mem_flatMap.1 hs
  obtain ⟨hparent, hchildren⟩ := List.forall_mem_cons.1 (h r hr)
  rcases mem_steps.1 hs with ⟨children, htop, rfl⟩ | hs
  · refine List.forall_mem_cons.2 ⟨hparent, ?_⟩
    cases children with
    | lexical word =>
      have hmem : word ∈ r.children := by simp [(top_eq_lexical_iff.1 htop).1]
      exact List.forall_mem_singleton.2 (hchildren word hmem)
    | unary child =>
      have hmem : child ∈ r.children := by simp [(top_eq_unary_iff.1 htop).1]
      exact List.forall_mem_singleton.2 (hchildren child hmem)
    | binary left right =>
      obtain ⟨rest, hrest, hne, rfl⟩ := top_eq_binary_iff.1 htop
      rw [hrest, List.forall_mem_cons] at hchildren
      exact List.forall_mem_cons.2 ⟨hchildren.1,
        List.forall_mem_singleton.2 (writable_tailName hne hparent hchildren.2)⟩
  · obtain ⟨c, d, rest, hsuffix, rfl⟩ := mem_spine.1 hs
    have hlist : ∀ name ∈ c :: d :: rest, Writable name := fun name hname =>
      hchildren name (mem_children_of_suffix hsuffix hname)
    have htail : ∀ name ∈ d :: rest, Writable name := (List.forall_mem_cons.1 hlist).2
    exact List.forall_mem_cons.2 ⟨writable_factoredName (List.cons_ne_nil _ _) hparent hlist,
      List.forall_mem_cons.2 ⟨hlist c List.mem_cons_self,
        List.forall_mem_singleton.2 (writable_tailName (List.cons_ne_nil _ _) hparent htail)⟩⟩

/-! ## Log probabilities -/

variable {rest : List Char} {x : Float32}

theorem le_zero_of_not_lt (hx : x.isNaN = false) (h : ¬ 0 < x) : x ≤ 0 := by
  rw [Binary32.lt_iff_signed_lt Binary32.isNaN_zero hx, Int.not_lt] at h
  exact (Binary32.le_iff_signed_le hx Binary32.isNaN_zero).2 h

/-- What passes the check of a probability is at most zero. -/
theorem le_zero_of_checked {y : Float32} {after : List Char} {unsigned : Bool} {e : GrammarError}
    (h : (if y.isNaN || 0 < y || unsigned then Except.error e else .ok (y, after)) = .ok (x, rest)) :
    x ≤ 0 := by
  split at h
  · cases h
  · next hvalid =>
    obtain ⟨rfl, -⟩ := Prod.mk.inj (Except.ok.inj h)
    rw [Bool.not_eq_true, Bool.or_eq_false_iff, Bool.or_eq_false_iff, decide_eq_false_iff_not] at hvalid
    exact le_zero_of_not_lt hvalid.1.1 hvalid.1.2

theorem le_zero_of_probability (h : probability line text = .ok (x, rest)) : x ≤ 0 := by
  unfold probability at h
  dsimp only at h
  split at h
  · split at h
    · split at h
      · cases h
      · exact le_zero_of_checked h
    · cases h
  · cases h

theorem le_zero_of_finalProbability (h : finalProbability line text = .ok x) : x ≤ 0 := by
  unfold finalProbability at h
  split at h
  · obtain rfl := Except.ok.inj h
    decide
  · next text' =>
    cases hprobability : probability line ('[' :: text') with
    | error e =>
      rw [hprobability] at h
      cases h
    | ok pair =>
      rw [hprobability] at h
      simp only [bind, Except.bind] at h
      split at h
      · obtain rfl := Except.ok.inj h
        exact le_zero_of_probability hprobability
      · cases h
  · cases h

/-- A rule that is read has a probability of at most one. -/
theorem le_zero_of_read (h : read line text = .ok r) : r.logProb ≤ 0 := by
  obtain ⟨-, -, body, -, -, -, hlogProb⟩ := of_read h
  exact le_zero_of_finalProbability hlogProb

theorem le_zero_of_readAll {text : String} {rules : List (WrittenRule Float32)}
    (h : readAll text = .ok rules) (hr : r ∈ rules) : r.logProb ≤ 0 := by
  obtain ⟨⟨line, statement⟩, -, hread⟩ := exists_of_mem_mapM h hr
  exact le_zero_of_read hread

end WrittenRule

end Constituency
