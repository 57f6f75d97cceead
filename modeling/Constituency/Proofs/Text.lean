import Constituency.Text.Blank
import Constituency.Text.Numeral
import Mathlib

/-!
# The cutting of text

What comes out when text is cut at a mark, at separators, at line ends or at blanks, for a text that was
put together from such parts; and the characters that numerals are made of.
-/

namespace Constituency.Text

variable {separator p : Char → Bool} {mark piece word last text rest a b m : List Char}
  {parts : List (List Char)} {c : Char}

/-! ## Marks -/

/-- A mark does not reach over a character that it does not contain. -/
theorem infix_of_infix_append_cons (hc : c ∉ mark) (h : mark <:+: a ++ c :: b) :
    mark <:+: a ∨ mark <:+: b := by
  induction a with
  | nil =>
    rcases List.infix_cons_iff.1 h with hstart | hwithin
    · cases mark with
      | nil => exact .inl List.infix_rfl
      | cons d mark =>
        rw [List.cons_prefix_cons] at hstart
        exact absurd (hstart.1 ▸ List.mem_cons_self) hc
    · exact .inr hwithin
  | cons d a ih =>
    rw [List.cons_append] at h
    rcases List.infix_cons_iff.1 h with hstart | hwithin
    · rcases Nat.lt_or_ge (d :: a).length mark.length with hlong | hshort
      · -- the mark begins before the character and goes on behind it
        have hreach : (d :: a) ++ [c] <+: mark := by
          refine List.prefix_of_prefix_length_le ⟨b, ?_⟩ hstart ?_
          · simp
          · rw [List.length_append]
            exact hlong
        exact absurd (hreach.subset (by simp)) hc
      · exact .inl (List.prefix_of_prefix_length_le hstart
          (List.prefix_append (d :: a) (c :: b)) hshort).isInfix
    · exact (ih hwithin).imp_left fun hwithin => hwithin.trans (List.suffix_cons d a).isInfix

/-- Two texts without a mark can be joined by characters that are not in it. -/
theorem not_infix_join (ha : ¬ mark <:+: a) (hb : ¬ mark <:+: b) (hm : ∀ c ∈ m, c ∉ mark)
    (hne : m ≠ []) : ¬ mark <:+: a ++ (m ++ b) := by
  induction m generalizing a with
  | nil => exact absurd rfl hne
  | cons c m ih =>
    obtain ⟨hc, hm⟩ := List.forall_mem_cons.1 hm
    intro h
    rcases infix_of_infix_append_cons hc h with h | h
    · exact ha h
    · cases m with
      | nil => exact hb h
      | cons d m =>
        have hnil : ¬ mark <:+: [] := fun h => ha (h.trans (List.nil_infix))
        exact ih hnil hm (List.cons_ne_nil d m) h

theorem not_infix_append (ha : ¬ mark <:+: a) (hm : ∀ c ∈ m, c ∉ mark) : ¬ mark <:+: a ++ m := by
  have hnil : ¬ mark <:+: [] := fun h => ha (h.trans (List.nil_infix))
  rcases List.eq_nil_or_concat m with rfl | ⟨m, c, rfl⟩
  · rwa [List.append_nil]
  · have hjoin := not_infix_join ha hnil hm (by simp)
    rwa [List.append_nil] at hjoin

theorem cutAt_of_not_infix (h : ¬ mark <:+: text) : cutAt mark text = (text, none) := by
  induction text with
  | nil => rfl
  | cons c text ih =>
    rw [List.infix_cons_iff, not_or] at h
    rw [cutAt, if_neg (mt List.isPrefixOf_iff_prefix.1 h.1), ih h.2]

/-- A text is cut where the mark first appears. -/
theorem cutAt_append (h : ¬ mark <:+: text ++ mark.dropLast) :
    cutAt mark (text ++ (mark ++ rest)) = (text, some rest) := by
  induction text with
  | nil =>
    cases mark with
    | nil => exact absurd List.infix_rfl h
    | cons c mark =>
      rw [List.nil_append, List.cons_append, cutAt, if_pos, ← List.cons_append, List.drop_left]
      exact List.isPrefixOf_iff_prefix.2 (List.prefix_append (c :: mark) rest)
  | cons c text ih =>
    rw [List.cons_append, List.infix_cons_iff, not_or] at h
    have hlonger : c :: (text ++ mark.dropLast) <+: c :: (text ++ (mark ++ rest)) := by
      rw [List.cons_prefix_cons]
      exact ⟨rfl, (List.prefix_append_right_inj text).2
        ((List.dropLast_prefix mark).trans (List.prefix_append mark rest))⟩
    have hlength : mark.length ≤ (c :: (text ++ mark.dropLast)).length := by
      rw [List.length_cons, List.length_append, List.length_dropLast]
      omega
    rw [List.cons_append, cutAt, if_neg, ih h.2]
    intro hstart
    exact h.1 (List.prefix_of_prefix_length_le (List.isPrefixOf_iff_prefix.1 hstart) hlonger hlength)

/-! ## Separators -/

theorem pieces_of_free (h : ∀ c ∈ piece, separator c = false) : pieces separator piece = [piece] := by
  induction piece with
  | nil => rfl
  | cons c piece ih =>
    obtain ⟨hc, hpiece⟩ := List.forall_mem_cons.1 h
    rw [pieces, hc, ih hpiece]
    rfl

theorem pieces_append_cons (h : ∀ c ∈ piece, separator c = false) (hc : separator c = true) :
    pieces separator (piece ++ c :: rest) = piece :: pieces separator rest := by
  induction piece with
  | nil => rw [List.nil_append, pieces, if_pos hc]
  | cons d piece ih =>
    obtain ⟨hd, hpiece⟩ := List.forall_mem_cons.1 h
    rw [List.cons_append, pieces, hd, ih hpiece]
    rfl

/-- Parts that end in a separator, and a last one that does not, are the pieces of their text. -/
theorem pieces_flatMap (hparts : ∀ part ∈ parts, ∀ d ∈ part, separator d = false)
    (hlast : ∀ d ∈ last, separator d = false) (hc : separator c = true) :
    pieces separator (parts.flatMap (· ++ [c]) ++ last) = parts ++ [last] := by
  induction parts with
  | nil => exact pieces_of_free hlast
  | cons part parts ih =>
    obtain ⟨hpart, hparts⟩ := List.forall_mem_cons.1 hparts
    rw [List.flatMap_cons, List.append_assoc, List.append_assoc, List.singleton_append,
      pieces_append_cons hpart hc, ih hparts, List.cons_append]

/-- Parts with a separator between them are the pieces of their text. -/
theorem pieces_intercalate (hparts : ∀ part ∈ parts, ∀ d ∈ part, separator d = false)
    (hne : parts ≠ []) (hc : separator c = true) : pieces separator ([c].intercalate parts) = parts := by
  induction parts with
  | nil => exact absurd rfl hne
  | cons part parts ih =>
    obtain ⟨hpart, hparts⟩ := List.forall_mem_cons.1 hparts
    cases parts with
    | nil => rw [List.intercalate_singleton, pieces_of_free hpart]
    | cons next parts =>
      rw [List.intercalate_cons_cons, List.append_assoc, List.singleton_append,
        pieces_append_cons hpart hc, ih hparts (List.cons_ne_nil next parts)]

/-! ## Lines -/

/-- A line without the carriage return at its end. -/
def chomp (line : List Char) : List Char :=
  if line.getLast? == some '\r' then line.dropLast else line

theorem chomp_subset (line : List Char) : chomp line ⊆ line := by
  unfold chomp
  split
  · exact List.dropLast_subset line
  · exact List.Subset.refl line

theorem chomp_append (h : a.getLast? ≠ some '\r') : chomp (a ++ b) = a ++ chomp b := by
  unfold chomp
  cases b with
  | nil => simp [h]
  | cons c b =>
    rw [List.getLast?_append_cons, List.dropLast_append_cons]
    split <;> rfl

/-- The lines of a text that was put together from lines. -/
theorem lines_flatMap (hparts : ∀ part ∈ parts, '\n' ∉ part) (hlast : '\n' ∉ last) :
    lines (parts.flatMap (· ++ ['\n']) ++ last) =
      parts.map chomp ++ if last.isEmpty then [] else [last] := by
  have hfree : ∀ part : List Char, '\n' ∉ part → ∀ d ∈ part, (d == '\n') = false := by
    intro part hpart d hd
    rw [beq_eq_false_iff_ne]
    rintro rfl
    exact hpart hd
  have hcut : pieces (· == '\n') (parts.flatMap (· ++ ['\n']) ++ last) = parts ++ [last] :=
    pieces_flatMap (fun part hpart => hfree part (hparts part hpart)) (hfree last hlast) rfl
  rw [lines, hcut, List.dropLast_concat, List.getLast?_concat]
  cases last with
  | nil => exact (List.append_nil _).symm
  | cons c last => rfl

/-! ## Runs of characters -/

/-- A run ends where a character of another kind follows. -/
theorem takeWhile_append_of_stop (h : ∀ c ∈ a, p c = true) (hstop : ∀ c ∈ b.head?, p c = false) :
    (a ++ b).takeWhile p = a := by
  rw [List.takeWhile_append_of_pos h]
  cases b with
  | nil => exact List.append_nil a
  | cons c b =>
    rw [List.takeWhile_cons_of_neg (Bool.eq_false_iff.1 (hstop c rfl)), List.append_nil]

theorem dropWhile_append_of_stop (h : ∀ c ∈ a, p c = true) (hstop : ∀ c ∈ b.head?, p c = false) :
    (a ++ b).dropWhile p = b := by
  rw [List.dropWhile_append_of_pos h]
  cases b with
  | nil => rfl
  | cons c b => exact List.dropWhile_cons_of_neg (Bool.eq_false_iff.1 (hstop c rfl))

theorem forall_head?_append {P : Char → Prop} (hne : a ≠ []) (h : ∀ c ∈ a, P c) :
    ∀ c ∈ (a ++ b).head?, P c := by
  intro c hc
  rw [List.head?_append_of_ne_nil _ hne] at hc
  exact h c (List.mem_of_mem_head? hc)

theorem ne_of_isBlank {d : Char} (hc : isBlank c = true) (hd : isBlank d = false) : c ≠ d := by
  rintro rfl
  rw [hc] at hd
  cases hd

theorem skipBlanks_append (h : ∀ c ∈ a, isBlank c = true)
    (hstop : ∀ c ∈ b.head?, isBlank c = false) : skipBlanks (a ++ b) = b :=
  dropWhile_append_of_stop h hstop

theorem skipBlanks_of_blank (h : ∀ c ∈ a, isBlank c = true) : skipBlanks a = [] := by
  have hskip := skipBlanks_append h (b := []) (fun _ hc => nomatch hc)
  rwa [List.append_nil] at hskip

/-! ## Words -/

theorem words_append_blanks (h : ∀ c ∈ a, isBlank c = true) : words (a ++ text) = words text := by
  induction a with
  | nil => rfl
  | cons c a ih =>
    obtain ⟨hc, ha⟩ := List.forall_mem_cons.1 h
    rw [← ih ha, words, List.cons_append, pieces, if_pos hc]
    rfl

theorem words_of_blank (h : ∀ c ∈ a, isBlank c = true) : words a = [] := by
  have hwords : words (a ++ []) = words [] := words_append_blanks h
  rwa [List.append_nil] at hwords

/-- A word ends at a blank or with the text. -/
theorem words_append_word (hne : word ≠ []) (h : ∀ c ∈ word, isBlank c = false)
    (hstop : ∀ c ∈ text.head?, isBlank c = true) : words (word ++ text) = word :: words text := by
  have hkept : ∀ later, (word :: later).filter (!·.isEmpty) = word :: later.filter (!·.isEmpty) :=
    fun later => List.filter_cons_of_pos (by simpa using hne)
  cases text with
  | nil => rw [List.append_nil, words, pieces_of_free h, hkept]; rfl
  | cons c text =>
    rw [words, pieces_append_cons h (hstop c rfl), hkept, words, pieces, if_pos (hstop c rfl)]
    rfl

/-! ## Numerals -/

/-- The characters of numerals. -/
def numeralAlphabet : List Char := "+-.0123456789eEinftyaINFTYA".toList

theorem mem_alphabet_of_isDigit (h : c.isDigit = true) : c ∈ numeralAlphabet := by
  have hrange : 48 ≤ c.toNat ∧ c.toNat ≤ 57 := by
    simpa [Char.isDigit, UInt32.le_iff_toNat_le] using h
  rw [← Char.ofNat_toNat c]
  generalize c.toNat = code at hrange
  obtain ⟨hlow, hhigh⟩ := hrange
  interval_cases code <;> decide

theorem mem_alphabet_of_toLower (h : c.toLower ∈ "infinitynan".toList) : c ∈ numeralAlphabet := by
  by_cases hupper : c.isUpper = true
  · have hrange : 65 ≤ c.toNat ∧ c.toNat ≤ 90 := by
      simpa [Char.isUpper, UInt32.le_iff_toNat_le] using hupper
    rw [← Char.ofNat_toNat c] at h ⊢
    generalize c.toNat = code at hrange h
    obtain ⟨hlow, hhigh⟩ := hrange
    revert h
    interval_cases code <;> decide
  · have hlower : c.toLower = c := by
      rw [Char.toLower, dif_neg]
      simpa [Char.isUpper] using hupper
    rw [hlower] at h
    have hsubset : "infinitynan".toList ⊆ numeralAlphabet := by decide
    exact hsubset h

theorem mem_alphabet_of_map_toLower {name : List Char} (hname : name ⊆ "infinitynan".toList)
    (h : text.map Char.toLower = name) (hc : c ∈ text) : c ∈ numeralAlphabet :=
  mem_alphabet_of_toLower (hname (h ▸ List.mem_map_of_mem hc))

theorem mem_signed (hc : c ∈ text) : c ∈ numeralAlphabet ∨ c ∈ (signed text).2 := by
  have hsign : '-' ∈ numeralAlphabet ∧ '+' ∈ numeralAlphabet := by decide
  unfold signed
  split
  · rcases List.mem_cons.1 hc with rfl | hc
    · exact .inl hsign.1
    · exact .inr hc
  · rcases List.mem_cons.1 hc with rfl | hc
    · exact .inl hsign.2
    · exact .inr hc
  · exact .inr hc

theorem mem_alphabet_of_exponent? {x : Int} (h : exponent? text = some x) (hc : c ∈ text) :
    c ∈ numeralAlphabet := by
  cases text with
  | nil => cases hc
  | cons e rest =>
    rw [exponent?] at h
    dsimp only at h
    split at h
    · next hform =>
      simp only [Bool.and_eq_true, Bool.or_eq_true, beq_iff_eq] at hform
      rcases List.mem_cons.1 hc with rfl | hc
      · rcases hform.1.1 with rfl | rfl <;> decide
      · exact (mem_signed hc).elim id fun hc =>
          mem_alphabet_of_isDigit (List.all_eq_true.1 hform.2 c hc)
    · cases h

theorem mem_alphabet_of_numeral? {x : Numeral} (h : numeral? text = some x) (hc : c ∈ text) :
    c ∈ numeralAlphabet := by
  have hdigit : ∀ l : List Char, ∀ d ∈ l.takeWhile Char.isDigit, d ∈ numeralAlphabet :=
    fun l d hd => mem_alphabet_of_isDigit (List.all_eq_true.1 List.all_takeWhile d hd)
  have hpoint : '.' ∈ numeralAlphabet := by decide
  rw [← List.takeWhile_append_dropWhile (p := Char.isDigit) (l := text), List.mem_append] at hc
  refine hc.elim (hdigit text c) fun hc => ?_
  rw [numeral?] at h
  dsimp only at h
  split at h
  · next rest hrest =>
    split_ifs at h
    obtain ⟨e, hexponent, -⟩ := Option.map_eq_some_iff.1 h
    rw [hrest, List.mem_cons, ← List.takeWhile_append_dropWhile (p := Char.isDigit) (l := rest),
      List.mem_append] at hc
    rcases hc with rfl | hc | hc
    · exact hpoint
    · exact hdigit rest c hc
    · exact mem_alphabet_of_exponent? hexponent hc
  · split_ifs at h
    obtain ⟨e, hexponent, -⟩ := Option.map_eq_some_iff.1 h
    exact mem_alphabet_of_exponent? hexponent hc

/-- A text that is read as a number has no other characters than those of numerals. -/
theorem mem_alphabet_of_number? {x : Float32} (h : number? text = some x) (hc : c ∈ text) :
    c ∈ numeralAlphabet := by
  refine (mem_signed hc).elim id fun hc => ?_
  obtain ⟨y, hmagnitude, -⟩ := Option.map_eq_some_iff.1 h
  rw [magnitude?] at hmagnitude
  split_ifs at hmagnitude with hinfinite hnan
  · rw [Bool.or_eq_true, beq_iff_eq, beq_iff_eq] at hinfinite
    rcases hinfinite with hname | hname
    · exact mem_alphabet_of_map_toLower (by decide) hname hc
    · exact mem_alphabet_of_map_toLower (by decide) hname hc
  · exact mem_alphabet_of_map_toLower (by decide) (beq_iff_eq.1 hnan) hc
  · obtain ⟨z, hnumeral, -⟩ := Option.map_eq_some_iff.1 hmagnitude
    exact mem_alphabet_of_numeral? hnumeral hc

/-- Characters that end a number, or cannot begin one. -/
def foreignMarks : List Char := [']', ';', '/', 'l']

theorem plain_of_mem_alphabet (h : c ∈ numeralAlphabet) : isBlank c = false ∧ c ∉ foreignMarks := by
  have hall : (numeralAlphabet.all fun c => !(isBlank c || foreignMarks.contains c)) = true := by
    decide
  have hplain := List.all_eq_true.1 hall c h
  rw [Bool.not_eq_true', Bool.or_eq_false_iff] at hplain
  exact ⟨hplain.1, fun hmem => by rw [List.contains_iff_mem.2 hmem] at hplain; cases hplain.2⟩

theorem ne_nil_of_number? {x : Float32} (h : number? text = some x) : text ≠ [] := by
  rintro rfl
  have hnone : number? [] = none := by decide
  rw [hnone] at h
  cases h

end Constituency.Text
