import Constituency.Options
import Constituency.Proofs.Score.Binary32
import Constituency.Proofs.Text

/-!
# Reading options

A written option either is refused, whatever the options are so far, or it overrides the field that its key
stands for with a value that the field may have (`readPair_cases`). To override two fields makes no difference
in which order it is done, and a field that is overridden twice forgets the first value. So what is read from a
text only has valid values, does not depend on the order of options with different keys, and for a repeated key
only on its last option (`read_lawful`).
-/

namespace Constituency

namespace Options

variable {o o' s s' : Options Float32} {key key' value : String} {p q : List Char}
  {ps : List (List Char)}

/-! ## Fields -/

/-- The values are those that options may have. -/
structure Valid (o : Options Float32) : Prop where
  beamWidth_pos : 1 ≤ o.beamWidth
  segments_pos : 1 ≤ o.segments
  agendaWorkers_pos : 1 ≤ o.agendaWorkers
  agendaBatch_pos : 1 ≤ o.agendaBatch
  beamDelta_pos : 0 < o.beamDelta ∧ o.beamDelta.isNaN = false
  sumCutoff_pos : 0 < o.sumCutoff ∧ o.sumCutoff.isNaN = false
  one_le_overParse : 1 ≤ o.overParse
  isFinite_lambda : o.lambda.isFinite = true

/-- The options with the field of a key taken from other options. -/
def override (key : String) (source o : Options Float32) : Options Float32 where
  strategy := if key = "strategy" then source.strategy else o.strategy
  storage := if key = "storage" then source.storage else o.storage
  decoder := if key = "decode" then source.decoder else o.decoder
  semiring := if key = "semiring" then source.semiring else o.semiring
  beamWidth := if key = "beam_width" then source.beamWidth else o.beamWidth
  beamDelta := if key = "beam_delta" then source.beamDelta else o.beamDelta
  overParse := if key = "over_parse_tune" then source.overParse else o.overParse
  lambda := if key = "lambda" then source.lambda else o.lambda
  sumCutoff := if key = "log_sum_delta" then source.sumCutoff else o.sumCutoff
  sumByTable := if key = "approximate_sum" then source.sumByTable else o.sumByTable
  localMaxRule := if key = "local_max_rule" then source.localMaxRule else o.localMaxRule
  segments := if key = "segments" then source.segments else o.segments
  agendaWorkers := if key = "agenda_workers" then source.agendaWorkers else o.agendaWorkers
  agendaBatch := if key = "agenda_batch" then source.agendaBatch else o.agendaBatch

theorem ite_ite_swap {β : Type} (hne : key ≠ key') (name : String) (x y z : β) :
    (if key = name then x else if key' = name then y else z) =
      if key' = name then y else if key = name then x else z := by
  by_cases hkey : key = name
  · rw [if_pos hkey, if_pos hkey, if_neg fun h => hne (hkey.trans h.symm)]
  · rw [if_neg hkey, if_neg hkey]

/-- Different fields are overridden in either order. -/
theorem override_comm (hne : key ≠ key') (s s' o : Options Float32) :
    override key s (override key' s' o) = override key' s' (override key s o) := by
  unfold override
  simp only [mk.injEq]
  exact ⟨ite_ite_swap hne .., ite_ite_swap hne .., ite_ite_swap hne .., ite_ite_swap hne ..,
    ite_ite_swap hne .., ite_ite_swap hne .., ite_ite_swap hne .., ite_ite_swap hne ..,
    ite_ite_swap hne .., ite_ite_swap hne .., ite_ite_swap hne .., ite_ite_swap hne ..,
    ite_ite_swap hne .., ite_ite_swap hne ..⟩

/-- Only the last value of a field counts. -/
theorem override_override (key : String) (s s' o : Options Float32) :
    override key s (override key s' o) = override key s o := by
  unfold override
  simp only [mk.injEq]
  refine ⟨?_, ?_, ?_, ?_, ?_, ?_, ?_, ?_, ?_, ?_, ?_, ?_, ?_, ?_⟩ <;> split <;> rfl

theorem Valid.override (hs : s.Valid) (ho : o.Valid) (key : String) : (override key s o).Valid where
  beamWidth_pos := iteInduction (motive := (1 ≤ ·)) (fun _ => hs.beamWidth_pos) fun _ => ho.beamWidth_pos
  segments_pos := iteInduction (motive := (1 ≤ ·)) (fun _ => hs.segments_pos) fun _ => ho.segments_pos
  agendaWorkers_pos :=
    iteInduction (motive := (1 ≤ ·)) (fun _ => hs.agendaWorkers_pos) fun _ => ho.agendaWorkers_pos
  agendaBatch_pos :=
    iteInduction (motive := (1 ≤ ·)) (fun _ => hs.agendaBatch_pos) fun _ => ho.agendaBatch_pos
  beamDelta_pos := iteInduction (motive := fun x : Float32 => 0 < x ∧ x.isNaN = false)
    (fun _ => hs.beamDelta_pos) fun _ => ho.beamDelta_pos
  sumCutoff_pos := iteInduction (motive := fun x : Float32 => 0 < x ∧ x.isNaN = false)
    (fun _ => hs.sumCutoff_pos) fun _ => ho.sumCutoff_pos
  one_le_overParse := iteInduction (motive := fun x : Float32 => 1 ≤ x)
    (fun _ => hs.one_le_overParse) fun _ => ho.one_le_overParse
  isFinite_lambda := iteInduction (motive := fun x : Float32 => x.isFinite = true)
    (fun _ => hs.isFinite_lambda) fun _ => ho.isFinite_lambda

theorem valid_standard : standard.Valid where
  beamWidth_pos := by decide
  segments_pos := by decide
  agendaWorkers_pos := by decide
  agendaBatch_pos := by decide
  beamDelta_pos := by decide
  sumCutoff_pos := by decide
  one_le_overParse := by decide
  isFinite_lambda := by decide

/-! ## Settings -/

theorem readCount_pos {n : Nat} (h : readCount value = some n) : 1 ≤ n :=
  of_decide_eq_true (Option.filter_eq_some_iff.1 h).2

theorem readNumber_valid {valid : Float32 → Bool} {x : Float32} (h : readNumber valid value = some x) :
    valid x = true :=
  (Option.filter_eq_some_iff.1 h).2

theorem pos_of_readNumber {x : Float32} (h : readNumber (0 < ·) value = some x) :
    0 < x ∧ x.isNaN = false := by
  have hpos : 0 < x := of_decide_eq_true (readNumber_valid h)
  exact ⟨hpos, (Binary32.isNaN_eq_false_of_lt hpos).2⟩

/-- A setting overrides the field of its key, with a value that the field may have. -/
theorem setting_spec {setting : String → Option (Options Float32 → Options Float32)}
    {change : Options Float32 → Options Float32} (h : setting? key = some setting)
    (hchange : setting value = some change) :
    (∀ o, change o = override key (change standard) o) ∧ (change standard).Valid := by
  unfold setting? at h
  split at h
  case h_15 => cases h
  all_goals
    obtain rfl := Option.some.inj h
    obtain ⟨x, hx, rfl⟩ := Option.map_eq_some_iff.1 hchange
    refine ⟨fun o => rfl, ?_⟩
  case h_1 | h_2 | h_3 | h_4 | h_10 | h_11 => exact { valid_standard with }
  case h_5 => exact { valid_standard with beamWidth_pos := readCount_pos hx }
  case h_6 => exact { valid_standard with beamDelta_pos := pos_of_readNumber hx }
  case h_7 =>
    exact { valid_standard with one_le_overParse := of_decide_eq_true (readNumber_valid hx) }
  case h_8 => exact { valid_standard with isFinite_lambda := readNumber_valid hx }
  case h_9 => exact { valid_standard with sumCutoff_pos := pos_of_readNumber hx }
  case h_12 => exact { valid_standard with segments_pos := readCount_pos hx }
  case h_13 => exact { valid_standard with agendaWorkers_pos := readCount_pos hx }
  case h_14 => exact { valid_standard with agendaBatch_pos := readCount_pos hx }

/-! ## Written options -/

/-- The key of a written option, if it has one. -/
def keyOf? (option : List Char) : Option String :=
  match Text.cutAt ['='] option with
  | (_, none) => none
  | (key, some _) => some (String.ofList (Text.trim key))

/-- A written option is refused whatever the options are, or overrides the field of its key. -/
theorem readPair_cases (p : List Char) :
    (∃ key s, keyOf? p = some key ∧ s.Valid ∧ ∀ o, readPair o p = .ok (override key s o)) ∨
      ∃ e, ∀ o, readPair o p = .error e := by
  cases hcut : Text.cutAt ['='] p with
  | mk key behind =>
    simp only [readPair, keyOf?, hcut]
    cases behind with
    | none => exact .inr ⟨_, fun o => rfl⟩
    | some value =>
      simp only [set]
      cases hsetting : setting? (String.ofList (Text.trim key)) with
      | none => exact .inr ⟨_, fun o => rfl⟩
      | some setting =>
        cases hchange : setting (String.ofList (Text.trim value)) with
        | none => exact .inr ⟨_, fun o => by simp only [hchange]; rfl⟩
        | some change =>
          obtain ⟨heq, hvalid⟩ := setting_spec hsetting hchange
          exact .inl ⟨_, change standard, rfl, hvalid, fun o => by simp only [hchange, heq o]⟩

/-- The option is not refused. -/
def Accepted (p : List Char) : Prop :=
  ∃ o, readPair standard p = .ok o

/-- The options after one more written option; one that is refused leaves them as they are. -/
def applied (o : Options Float32) (p : List Char) : Options Float32 :=
  match readPair o p with
  | .ok o' => o'
  | .error _ => o

theorem applied_of_ok (h : readPair o p = .ok o') : applied o p = o' := by
  rw [applied, h]

theorem readPair_valid (ho : o.Valid) (h : readPair o p = .ok o') : o'.Valid := by
  rcases readPair_cases p with ⟨key, s, -, hs, hok⟩ | ⟨e, herror⟩
  · rw [hok, Except.ok.injEq] at h
    exact h ▸ hs.override ho key
  · rw [herror] at h
    cases h

theorem foldlM_readPair_valid (ho : o.Valid) (h : ps.foldlM readPair o = .ok o') : o'.Valid := by
  induction ps generalizing o with
  | nil => exact Except.ok.inj h ▸ ho
  | cons p ps ih =>
    rw [List.foldlM_cons] at h
    cases hp : readPair o p with
    | error e => rw [hp] at h; cases h
    | ok o'' =>
      rw [hp] at h
      exact ih (readPair_valid ho hp) h

/-- Several options are read if none of them is refused. -/
theorem foldlM_readPair_eq_ok_iff : ps.foldlM readPair o = .ok o' ↔
    (∀ p ∈ ps, Accepted p) ∧ ps.foldl applied o = o' := by
  induction ps generalizing o with
  | nil =>
    rw [List.foldlM_nil, List.foldl_nil]
    exact ⟨fun h => ⟨nofun, Except.ok.inj h⟩, fun h => h.2 ▸ rfl⟩
  | cons p ps ih =>
    rw [List.foldlM_cons, List.foldl_cons, List.forall_mem_cons]
    rcases readPair_cases p with ⟨key, s, -, -, hok⟩ | ⟨e, herror⟩
    · rw [hok o, applied_of_ok (hok o), and_assoc, and_iff_right ⟨_, hok standard⟩]
      exact ih
    · rw [herror o]
      refine iff_of_false nofun fun h => ?_
      obtain ⟨o', hok⟩ := h.1.1
      rw [herror] at hok
      cases hok

theorem applied_cases (p : List Char) :
    (∃ key s, keyOf? p = some key ∧ ∀ o, applied o p = override key s o) ∨ ∀ o, applied o p = o := by
  rcases readPair_cases p with ⟨key, s, hkey, -, hok⟩ | ⟨e, herror⟩
  · exact .inl ⟨key, s, hkey, fun o => applied_of_ok (hok o)⟩
  · exact .inr fun o => by rw [applied, herror]

/-- The options have different keys. -/
def Apart (p q : List Char) : Prop :=
  ∀ key ∈ keyOf? p, ∀ key' ∈ keyOf? q, key ≠ key'

instance : Std.Symm Apart where
  symm _ _ h key hkey key' hkey' := (h key' hkey' key hkey).symm

/-- Options with different keys may be written in either order. -/
theorem applied_comm (hne : Apart p q) (o : Options Float32) :
    applied (applied o p) q = applied (applied o q) p := by
  rcases applied_cases p with ⟨key, s, hkey, hp⟩ | hp
  · rcases applied_cases q with ⟨key', s', hkey', hq⟩ | hq
    · rw [hp, hq, hp, hq, override_comm (hne key hkey key' hkey')]
    · rw [hq, hq]
  · rw [hp, hp]

/-- No key is given twice. -/
def DistinctKeys (ps : List (List Char)) : Prop :=
  (ps.filterMap keyOf?).Nodup

/-- The order of options with different keys does not matter. -/
theorem foldlM_readPair_perm {qs : List (List Char)} (hkeys : DistinctKeys ps) (hperm : ps.Perm qs)
    (o o' : Options Float32) : ps.foldlM readPair o = .ok o' ↔ qs.foldlM readPair o = .ok o' := by
  have hapart : ps.Pairwise Apart := List.pairwise_filterMap.1 hkeys
  have hcomm : ∀ p ∈ ps, ∀ q ∈ ps, ∀ o, applied (applied o p) q = applied (applied o q) p := by
    intro p hp q hq o
    by_cases heq : p = q
    · rw [heq]
    · exact applied_comm (hapart.forall hp hq heq) o
  have hall : (∀ p ∈ ps, Accepted p) ↔ ∀ p ∈ qs, Accepted p :=
    forall_congr' fun p => imp_congr_left hperm.mem_iff
  rw [foldlM_readPair_eq_ok_iff, foldlM_readPair_eq_ok_iff, hall, hperm.foldl_eq' hcomm]

/-! ## Repeated keys -/

/-- What a field has been overridden with does not matter if it is overridden again. -/
theorem foldlM_override (h : ∃ p ∈ ps, keyOf? p = some key) (s o : Options Float32) :
    ps.foldlM readPair (override key s o) = ps.foldlM readPair o := by
  induction ps generalizing o with
  | nil => simp at h
  | cons p ps ih =>
    rw [List.foldlM_cons, List.foldlM_cons]
    rcases readPair_cases p with ⟨key', s', hkey', -, hok⟩ | ⟨e, herror⟩
    · rw [hok, hok]
      by_cases heq : key' = key
      · rw [heq, override_override]
      · rw [override_comm heq]
        refine ih ?_ _
        obtain ⟨q, hq, hkey⟩ := h
        rcases List.mem_cons.1 hq with rfl | hq
        · exact absurd (Option.some.inj (hkey'.symm.trans hkey)) heq
        · exact ⟨q, hq, hkey⟩
    · rw [herror, herror]

/-- Options that are not refused may be left out in front of another one with their key. -/
theorem foldlM_filter {before after : List (List Char)} {last : List Char}
    (hlast : keyOf? last = some key) (hbefore : ∀ p ∈ before, keyOf? p = some key → Accepted p)
    (o : Options Float32) :
    (before ++ last :: after).foldlM readPair o =
      (before.filter (keyOf? · != some key) ++ last :: after).foldlM readPair o := by
  induction before generalizing o with
  | nil => rfl
  | cons p before ih =>
    obtain ⟨hp, hbefore⟩ := List.forall_mem_cons.1 hbefore
    rw [List.cons_append, List.foldlM_cons, List.filter_cons]
    by_cases hkey : keyOf? p = some key
    · rw [if_neg (by simp [hkey]), ← ih hbefore]
      rcases readPair_cases p with ⟨key', s, hkey', -, hok⟩ | ⟨e, herror⟩
      · obtain rfl := Option.some.inj (hkey'.symm.trans hkey)
        rw [hok]
        exact foldlM_override ⟨last, by simp, hlast⟩ s o
      · obtain ⟨o', hok⟩ := hp hkey
        rw [herror] at hok
        cases hok
    · rw [if_pos (by simpa using hkey), List.cons_append, List.foldlM_cons]
      cases readPair o p with
      | error e => rfl
      | ok o' => exact ih hbefore o'

/-! ## Texts -/

/-- The key of an option as it stands between commas. -/
def key? (option : String) : Option String :=
  keyOf? (Text.trim option.toList)

/-- What is read of options between commas: blank ones are passed over. -/
def pairs (options : List String) : List (List Char) :=
  (options.map fun option => Text.trim option.toList).filter (!·.isEmpty)

/-- The text of some options, with commas between them. -/
def joined (options : List String) : String :=
  ",".intercalate options

variable {options : List String}

theorem read_joined (hcomma : ∀ option ∈ options, ',' ∉ option.toList) :
    read (joined options) = (pairs options).foldlM readPair standard >>= check := by
  have hpieces : ((Text.pieces (· == ',') (joined options).toList).map Text.trim).filter
      (!·.isEmpty) = pairs options := by
    rw [joined, String.toList_intercalate]
    cases options with
    | nil => rfl
    | cons option rest =>
      rw [show ",".toList = [','] from rfl, Text.pieces_intercalate _ (by simp) rfl, pairs,
        List.map_map]
      · rfl
      · intro part hpart d hd
        obtain ⟨option', hmem, rfl⟩ := List.mem_map.1 hpart
        rw [beq_eq_false_iff_ne]
        rintro rfl
        exact hcomma option' hmem hd
  rw [read, hpieces]

/-- What is passed over has no key. -/
theorem isEmpty_eq_false_of_keyOf? (h : keyOf? p = some key) : p.isEmpty = false := by
  cases p with
  | nil => cases h
  | cons c p => rfl

theorem filterMap_pairs (options : List String) :
    (pairs options).filterMap keyOf? = options.filterMap key? := by
  rw [pairs, List.filterMap_filter, List.filterMap_map]
  refine List.filterMap_congr fun option _ => ?_
  show (if (!(Text.trim option.toList).isEmpty) = true then keyOf? (Text.trim option.toList)
    else none) = keyOf? (Text.trim option.toList)
  cases hkey : keyOf? (Text.trim option.toList) with
  | none => exact ite_self none
  | some key => rw [isEmpty_eq_false_of_keyOf? hkey]; rfl

theorem pairs_append (options more : List String) :
    pairs (options ++ more) = pairs options ++ pairs more := by
  rw [pairs, List.map_append, List.filter_append]
  rfl

theorem pairs_cons_of_key? {option : String} (h : key? option = some key) (rest : List String) :
    pairs (option :: rest) = Text.trim option.toList :: pairs rest := by
  rw [pairs, List.map_cons, List.filter_cons_of_pos]
  · rfl
  · rw [isEmpty_eq_false_of_keyOf? h]
    rfl

theorem pairs_filter (key : String) (options : List String) :
    pairs (options.filter (key? · != some key)) =
      (pairs options).filter (keyOf? · != some key) := by
  rw [pairs, pairs, List.filter_filter, List.filter_map, List.filter_map, List.filter_filter]
  exact congrArg _ (List.filter_congr fun option _ => Bool.and_comm _ _)

theorem bind_eq_ok_iff {x : Except OptionError (Options Float32)}
    {f : Options Float32 → Except OptionError (Options Float32)} :
    x >>= f = .ok o ↔ ∃ o', x = .ok o' ∧ f o' = .ok o := by
  cases x with
  | error e => exact iff_of_false nofun fun ⟨_, h, _⟩ => nomatch h
  | ok o' => exact ⟨fun h => ⟨o', rfl, h⟩, fun ⟨_, h, hf⟩ => Except.ok.inj h ▸ hf⟩

theorem check_eq_ok_iff : check o = .ok o' ↔
    o = o' ∧ (o.decoder.needsMerits = true → o.strategy = .beam) := by
  unfold check
  split
  · next h =>
    rw [Bool.and_eq_true, bne_iff_ne] at h
    exact iff_of_false nofun fun hboth => h.2 (hboth.2 h.1)
  · next h =>
    rw [Bool.and_eq_true, bne_iff_ne, not_and, Classical.not_not] at h
    rw [Except.ok.injEq]
    exact (and_iff_left h).symm

/-- Whatever text options are read from, they have valid values, and a decoder that follows figures of merit
goes with the beam search. Options with different keys may be written in any order. Of several options with
one key, none of which is refused, those in front of the last one may be left out. -/
theorem read_lawful :
    (∀ text o, read text = .ok o →
      o.Valid ∧ (o.decoder.needsMerits = true → o.strategy = .beam)) ∧
    (∀ options options' : List String, (∀ option ∈ options, ',' ∉ option.toList) →
      (options.filterMap key?).Nodup → options.Perm options' →
      ∀ o, read (joined options) = .ok o ↔ read (joined options') = .ok o) ∧
    ∀ before last after key, (∀ option ∈ before ++ last :: after, ',' ∉ option.toList) →
      key? last = some key →
      (∀ option ∈ before, key? option = some key → Accepted (Text.trim option.toList)) →
      read (joined (before ++ last :: after)) =
        read (joined (before.filter (key? · != some key) ++ last :: after)) := by
  refine ⟨fun text o h => ?_, fun options options' hcomma hkeys hperm o => ?_,
    fun before last after key hcomma hlast hbefore => ?_⟩
  · rw [read, bind_eq_ok_iff] at h
    obtain ⟨o', hread, hcheck⟩ := h
    obtain ⟨rfl, hmerits⟩ := check_eq_ok_iff.1 hcheck
    exact ⟨foldlM_readPair_valid valid_standard hread, hmerits⟩
  · have hcomma' : ∀ option ∈ options', ',' ∉ option.toList := fun option hoption =>
      hcomma option (hperm.mem_iff.2 hoption)
    have hpairs : (pairs options).Perm (pairs options') := (hperm.map _).filter _
    have hdistinct : DistinctKeys (pairs options) := by
      rw [DistinctKeys, filterMap_pairs]
      exact hkeys
    rw [read_joined hcomma, read_joined hcomma', bind_eq_ok_iff, bind_eq_ok_iff]
    exact exists_congr fun o' => and_congr_left' (foldlM_readPair_perm hdistinct hpairs standard o')
  · have hcomma' : ∀ option ∈ before.filter (key? · != some key) ++ last :: after,
        ',' ∉ option.toList := fun option hoption =>
      hcomma option ((List.filter_sublist.append_right _).subset hoption)
    have haccepted : ∀ p ∈ pairs before, keyOf? p = some key → Accepted p := by
      intro p hp hkey
      obtain ⟨option, hoption, rfl⟩ := List.mem_map.1 (List.mem_of_mem_filter hp)
      exact hbefore option hoption hkey
    rw [read_joined hcomma, read_joined hcomma', pairs_append, pairs_append, pairs_filter,
      pairs_cons_of_key? hlast, foldlM_filter hlast haccepted]

/-- A beam of three for a decoder that follows figures of merit, in either order and after another width. -/
theorem beam_read_lawful :
    ({ standard with strategy := .beam, decoder := .meritSum, beamWidth := 3 } :
      Options Float32).Valid ∧
    (∀ o, read (joined ["decode=fomsum", " strategy = beam"]) = .ok o ↔
      read (joined [" strategy = beam", "decode=fomsum"]) = .ok o) ∧
    read (joined ["beam_width=7", "segments=2", "beam_width=3"]) =
      read (joined ["segments=2", "beam_width=3"]) := by
  obtain ⟨hvalid, hperm, hlast⟩ := read_lawful
  refine ⟨(hvalid "strategy=beam, decode=fomsum, beam_width=3" _ rfl).1,
    hperm _ _ (by decide) (by decide) (.swap ..),
    hlast ["beam_width=7", "segments=2"] "beam_width=3" [] "beam_width" (by decide) (by decide) ?_⟩
  intro option hoption hkey
  rcases List.mem_cons.1 hoption with rfl | hoption
  · exact ⟨{ standard with beamWidth := 7 }, rfl⟩
  · rw [List.mem_singleton.1 hoption] at hkey
    exact absurd hkey (by decide)

end Options

end Constituency
