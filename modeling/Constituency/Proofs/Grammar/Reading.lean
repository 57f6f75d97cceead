import Constituency.Proofs.Grammar.Layout
import Constituency.Proofs.Score.Binary32

/-!
# Reading a layout

The reader finds in the text of a layout the rules that were laid out, with the numbers of their lines
(`Layout.readAll`). A probability, a rule and a line are each read by a lemma of their own
(`Layout.Chance.read`, `Layout.Rule.read`, `Layout.Line.statements`).
-/

namespace Constituency

namespace Layout

open Text WrittenRule

/-! ## Probabilities -/

namespace Chance

theorem raw_ne_nil (x : Chance) : x.raw ≠ [] := ne_nil_of_number? x.number

theorem mem_raw (x : Chance) : ∀ c ∈ x.raw, c ∈ numeralAlphabet :=
  fun _ => mem_alphabet_of_number? x.number

/-- A number begins with a character of numerals. -/
theorem mem_head?_raw (x : Chance) (rest : List Char) :
    ∀ c ∈ (x.raw ++ rest).head?, c ∈ numeralAlphabet :=
  forall_head?_append x.raw_ne_nil x.mem_raw

/-- What the reader finds behind the bracket and its blanks. -/
theorem isBlank_head?_mark (x : Chance) (rest : List Char) :
    ∀ c ∈ (x.mark ++ (x.raw ++ rest)).head?, isBlank c = false := by
  rw [mark]
  split
  · exact fun c hc => (plain_of_mem_alphabet (x.mem_head?_raw rest c hc)).1
  · rintro c ⟨⟩
    decide

/-- A logarithm is told from a number by its announcement. -/
theorem afterLog?_mark (x : Chance) (rest : List Char) :
    afterLog? (x.mark ++ (x.raw ++ rest)) = if x.log.isSome then some (x.raw ++ rest) else none := by
  have hblank : ∀ c ∈ (x.raw ++ rest).head?, isBlank c = false :=
    fun c hc => (plain_of_mem_alphabet (x.mem_head?_raw rest c hc)).1
  rw [mark]
  split
  · next hlog =>
    rw [hlog, List.nil_append, afterLog?, if_neg]
    · rfl
    · intro hstart
      obtain ⟨more, hmore⟩ := List.isPrefixOf_iff_prefix.1 hstart
      have hmem := x.mem_head?_raw rest 'l' (by rw [← hmore]; rfl)
      exact (plain_of_mem_alphabet hmem).2 (by decide)
  · next before behind hlog =>
    rw [hlog, List.append_assoc, List.append_assoc, List.cons_append, afterLog?,
      if_pos (List.isPrefixOf_iff_prefix.2 (List.prefix_append _ _)), List.drop_left,
      skipBlanks_append before.blank (by rintro c ⟨⟩; decide), Option.isSome_some, if_pos rfl]
    exact congrArg some (skipBlanks_append behind.blank hblank)

/-- The checks of a probability pass. -/
theorem valid (x : Chance) :
    (x.logProb.isNaN || decide (0 < x.logProb) || (!x.log.isSome && decide (x.value ≤ 0))) =
      false := by
  have hle : x.logProb ≤ 0 := x.atMostOne
  rw [Bool.or_eq_false_iff, Bool.or_eq_false_iff, Bool.and_eq_false_imp]
  refine ⟨⟨Binary32.isNaN_eq_false_of_le hle, decide_eq_false (Binary32.not_lt_of_le hle
    Binary32.isNaN_zero)⟩, fun hlog => decide_eq_false fun hzero => ?_⟩
  have hpositive := x.positive (by simpa using hlog)
  exact Binary32.not_lt_of_le hzero Binary32.isNaN_zero hpositive

/-- A probability is read, up to its bracket. -/
theorem read (x : Chance) (line : Nat) (rest : List Char) :
    probability line (x.text ++ rest) = .ok (x.logProb, rest) := by
  have hraw : ∀ c ∈ x.raw, (!(c == ']' || isBlank c)) = true := by
    intro c hc
    obtain ⟨hblank, hplain⟩ := plain_of_mem_alphabet (x.mem_raw c hc)
    rw [hblank, beq_eq_false_iff_ne.2 fun heq => hplain (by rw [heq]; decide)]
    rfl
  have hstop : ∀ c ∈ (x.closing.text ++ ']' :: rest).head?, (!(c == ']' || isBlank c)) = false := by
    intro c hc
    cases hclosing : x.closing.text with
    | nil =>
      rw [hclosing] at hc
      cases hc
      rfl
    | cons d more =>
      rw [hclosing] at hc
      cases hc
      rw [x.closing.blank c (by rw [hclosing]; exact List.mem_cons_self), Bool.or_true]
      rfl
  have hbracket : ∀ c ∈ (']' :: rest).head?, isBlank c = false := by
    rintro c ⟨⟩
    decide
  have htext : x.text ++ rest =
      '[' :: (x.opening.text ++ (x.mark ++ (x.raw ++ (x.closing.text ++ ']' :: rest)))) := by
    simp [text]
  have hvalid := x.valid
  rw [logProb] at hvalid
  rw [htext, probability]
  dsimp only
  rw [skipBlanks_append x.opening.blank (x.isBlank_head?_mark _), x.afterLog?_mark, logProb]
  -- with and without a logarithm the number is the rest of the text
  cases hlog : x.log <;>
    simp only [mark, hlog, Option.isSome_none, Option.isSome_some, if_true, Bool.false_eq_true, if_false,
      List.nil_append, takeWhile_append_of_stop hraw hstop, dropWhile_append_of_stop hraw hstop,
      skipBlanks_append x.closing.blank hbracket, x.number] at hvalid ⊢ <;>
    rw [if_neg (Bool.eq_false_iff.1 hvalid)]

end Chance

/-! ## Rules -/

namespace Rule

variable {gap : List Char}

/-- The symbols of a row are its words. -/
theorem words_rowText (name : Name) (others : List (Break × Name)) (hgap : ∀ c ∈ gap, isBlank c = true) :
    words (rowText name others ++ gap) = (name :: others.map (·.2)).map Name.text := by
  induction others generalizing name with
  | nil =>
    rw [rowText, words_append_word name.nonempty name.isBlank_eq_false
      fun c hc => hgap c (List.mem_of_mem_head? hc), words_of_blank hgap]
    rfl
  | cons other others ih =>
    rw [rowText, List.append_assoc, List.append_assoc, words_append_word name.nonempty
      name.isBlank_eq_false (forall_head?_append other.1.nonempty other.1.blank),
      words_append_blanks other.1.blank, ih other.2]
    rfl

theorem not_bracket_of_isBlank {c : Char} (h : isBlank c = true) : (c == '[' || c == ']') = false := by
  rw [Bool.or_eq_false_iff, beq_eq_false_iff_ne, beq_eq_false_iff_ne]
  exact ⟨ne_of_isBlank h (by decide), ne_of_isBlank h (by decide)⟩

theorem not_bracket_rowText (name : Name) (others : List (Break × Name)) :
    ∀ c ∈ rowText name others, (c == '[' || c == ']') = false := by
  have hname : ∀ name : Name, ∀ c ∈ name.text, (c == '[' || c == ']') = false := by
    intro name c hc
    have hnameChar := name.nameChar c hc
    simp only [isNameChar, Bool.not_eq_true', Bool.or_eq_false_iff] at hnameChar
    rw [hnameChar.1.1.2, hnameChar.1.2, Bool.or_false]
  induction others generalizing name with
  | nil => exact hname name
  | cons other others ih =>
    rw [rowText, List.forall_mem_append, List.forall_mem_append]
    exact ⟨hname name, fun c hc => not_bracket_of_isBlank (other.1.blank c hc), ih other.2⟩

theorem text_ne_nil (r : Rule) : r.text ≠ [] :=
  List.append_ne_nil_of_left_ne_nil r.parent.nonempty _

/-- Behind the children there are blanks, and then the probability or nothing. -/
theorem exists_finalProbability (r : Rule) (trailing : Gap) (line : Nat) :
    ∃ gap more, r.chanceText ++ trailing.text = gap ++ more ∧ (∀ c ∈ gap, isBlank c = true) ∧
      (∀ c ∈ more.head?, (!(c == '[' || c == ']')) = false) ∧
      finalProbability line more = .ok (r.written line).logProb := by
  rw [chanceText, written]
  cases r.chance with
  | none =>
    exact ⟨trailing.text, [], (List.append_nil _).symm, trailing.blank,
      fun c hc => absurd hc (Option.not_mem_none c), rfl⟩
  | some chance =>
    obtain ⟨gap, x⟩ := chance
    refine ⟨gap.text, x.text ++ trailing.text, List.append_assoc .., gap.blank, ?_, ?_⟩
    · rintro c ⟨⟩
      rfl
    · have hread := x.read line trailing.text
      have hcons : x.text ++ trailing.text = '[' :: (x.text ++ trailing.text).tail := rfl
      rw [hcons] at hread ⊢
      rw [finalProbability, hread]
      show (if (skipBlanks trailing.text).isEmpty then _ else _) = _
      rw [skipBlanks_of_blank trailing.blank]
      rfl

/-- A rule is read from its first symbol on. -/
theorem read (r : Rule) (trailing : Gap) (line : Nat) :
    WrittenRule.read line (r.text ++ trailing.text) = .ok (r.written line) := by
  obtain ⟨gap, more, hchance, hgap, hmore, hprobability⟩ := r.exists_finalProbability trailing line
  have htext : r.text ++ trailing.text = r.parent.text ++ (r.beforeArrow.text ++ (arrow ++
      ((r.behindArrow.text ++ (rowText r.first r.others ++ gap)) ++ more))) := by
    simp only [text, List.append_assoc, hchance]
  have hparent : ∀ rest : List Char,
      ∀ c ∈ (r.beforeArrow.text ++ rest).head?, isNameChar c = false := by
    refine fun rest => forall_head?_append r.beforeArrow.nonempty fun c hc => ?_
    rw [isNameChar, r.beforeArrow.blank c hc]
    rfl
  have hbracket : ∀ c ∈ r.behindArrow.text ++ (rowText r.first r.others ++ gap),
      (!(c == '[' || c == ']')) = true := by
    rw [List.forall_mem_append, List.forall_mem_append]
    exact ⟨fun c hc => congrArg not (not_bracket_of_isBlank (r.behindArrow.blank c hc)),
      fun c hc => congrArg not (not_bracket_rowText r.first r.others c hc),
      fun c hc => congrArg not (not_bracket_of_isBlank (hgap c hc))⟩
  have hchildren : ((r.first :: r.others.map (·.2)).map Name.text).map String.ofList =
      (r.written line).children := List.map_map
  rw [htext, WrittenRule.read, takeWhile_append_of_stop r.parent.nameChar (hparent _),
    dropWhile_append_of_stop r.parent.nameChar (hparent _),
    if_neg (by simpa using r.parent.nonempty)]
  dsimp only
  rw [skipBlanks_append r.beforeArrow.blank (by rintro c ⟨⟩; decide),
    if_pos (List.isPrefixOf_iff_prefix.2 (List.prefix_append _ _)), List.drop_left,
    takeWhile_append_of_stop hbracket hmore, dropWhile_append_of_stop hbracket hmore,
    words_append_blanks r.behindArrow.blank, words_rowText r.first r.others hgap, hprobability, hchildren]
  rfl

end Rule

/-! ## Lines -/

theorem Statement.skipBlanks_text (s : Statement) : skipBlanks s.text = s.body := by
  rw [text, body]
  split
  · rw [List.append_nil, skipBlanks_of_blank s.leading.blank]
  · next rule trailing _ =>
    rw [Rule.text, List.append_assoc]
    exact skipBlanks_append s.leading.blank
      (forall_head?_append rule.parent.nonempty rule.parent.isBlank_eq_false)

/-- The statements that are not empty are the rules with the blanks behind them. -/
theorem filter_body (ss : List Statement) : (ss.map Statement.body).filter (!·.isEmpty) =
    (ss.filterMap Statement.rule).map fun placed => placed.1.text ++ placed.2.text := by
  induction ss with
  | nil => rfl
  | cons s ss ih =>
    obtain ⟨leading, - | ⟨rule, trailing⟩⟩ := s
    · exact ih
    · have hne : (rule.text ++ trailing.text).isEmpty = false :=
        List.isEmpty_eq_false_iff.2 (List.append_ne_nil_of_left_ne_nil rule.text_ne_nil _)
      rw [List.map_cons, List.filter_cons, Statement.body, hne, ih]
      rfl

/-- The reader takes the rules of a line for its statements. -/
theorem Line.statements (line : Line) : WrittenRule.statements line.text =
    line.code.placed.map fun placed => placed.1.text ++ placed.2.text := by
  have hcut := line.cutAt
  rw [commentMark] at hcut
  rw [WrittenRule.statements, hcut, line.code.pieces, List.map_map,
    List.map_congr_left fun s _ => s.skipBlanks_text, filter_body]
  rfl

/-! ## Texts -/

theorem mapM_map_eq_ok {α β γ ε : Type} {f : β → Except ε γ} {g : α → β} {value : α → γ}
    (xs : List α) (h : ∀ x, f (g x) = .ok (value x)) : (xs.map g).mapM f = .ok (xs.map value) := by
  induction xs with
  | nil => rfl
  | cons x xs ih =>
    rw [List.map_cons, List.mapM_cons, h, ih]
    rfl

theorem rulesFrom_chomp (first : Nat) (lines : List Line) :
    rulesFrom first (lines.map Line.chomp) = rulesFrom first lines := by
  rw [rulesFrom, List.zipIdx_map, List.flatMap_map, rulesFrom]
  simp only [Prod.map, Line.rules_chomp, id]

/-- All rules of some lines are read. -/
theorem mapM_read (first : Nat) (lines : List Line) :
    ((((lines.map Line.text).zipIdx first).flatMap fun entry =>
      (WrittenRule.statements entry.1).map (entry.2, ·)).mapM fun entry =>
        WrittenRule.read entry.1 entry.2) = .ok (rulesFrom first lines) := by
  have hentries : (((lines.map Line.text).zipIdx first).flatMap fun entry =>
      (WrittenRule.statements entry.1).map (entry.2, ·)) =
      (((lines.zipIdx first).flatMap fun entry => entry.1.code.placed.map (entry.2, ·)).map
        fun entry => (entry.1, entry.2.1.text ++ entry.2.2.text)) := by
    rw [List.zipIdx_map, List.flatMap_map, List.map_flatMap]
    simp only [Prod.map, Line.statements, List.map_map, id]
    rfl
  rw [hentries, mapM_map_eq_ok _ fun entry => entry.2.1.read entry.2.2 entry.1, List.map_flatMap,
    rulesFrom]
  simp only [Code.rules, List.map_map]
  rfl

/-- Nothing is written on a line without text. -/
theorem Line.rules_eq_nil (line : Line) (h : line.text = []) : line.code.rules = [] := by
  obtain ⟨hcode, -⟩ := List.append_eq_nil_iff.1 h
  obtain ⟨hparts, hlast⟩ := List.append_eq_nil_iff.1 hcode
  have hended : line.code.ended = [] := by
    rw [List.eq_nil_iff_forall_not_mem]
    intro s hs
    have hnil := List.flatMap_eq_nil_iff.1 hparts s.text (List.mem_map_of_mem hs)
    cases (List.append_eq_nil_iff.1 hnil).2
  have hnone : line.code.last.rule = none := by
    obtain ⟨-, hbody⟩ := List.append_eq_nil_iff.1 hlast
    rw [Statement.body] at hbody
    split at hbody
    · assumption
    · next rule trailing _ => exact absurd (List.append_eq_nil_iff.1 hbody).1 rule.text_ne_nil
  rw [Code.rules, Code.placed, hended, List.nil_append, List.filterMap_cons_none hnone]
  rfl

/-- Reading a layout gives the rules that were laid out. -/
theorem readAll (l : Layout) : WrittenRule.readAll (String.ofList l.text) = .ok l.rules := by
  have hended : ∀ part ∈ l.ended.map Line.text, '\n' ∉ part :=
    List.forall_mem_map.2 fun line _ => line.inline
  have hlines : lines l.text =
      (l.ended.map Line.chomp ++ if l.last.text.isEmpty then [] else [l.last]).map Line.text := by
    rw [text, lines_flatMap hended l.last.inline, List.map_append, List.map_map, List.map_map,
      List.map_congr_left fun line _ => line.text_chomp.symm]
    split <;> rfl
  -- without text the last line is none, and no rules are missed
  have hlast : rulesFrom (1 + l.ended.length) (if l.last.text.isEmpty then [] else [l.last]) =
      rulesFrom (1 + l.ended.length) [l.last] := by
    split
    · next hempty =>
      show [] = (l.last.code.rules.map (·.written (1 + l.ended.length))) ++ []
      rw [l.last.rules_eq_nil (List.isEmpty_iff.1 hempty)]
      rfl
    · rfl
  have hread : WrittenRule.readAll (String.ofList l.text) = .ok (rulesFrom 1
      (l.ended.map Line.chomp ++ if l.last.text.isEmpty then [] else [l.last])) := by
    rw [WrittenRule.readAll, String.toList_ofList, hlines]
    exact mapM_read 1 _
  rw [hread, rulesFrom_append, rulesFrom_chomp, List.length_map, hlast, ← rulesFrom_append]
  rfl

end Layout

end Constituency
