import Constituency.Chart.Posterior
import Constituency.Proofs.Chart.Packed
import Constituency.Proofs.Grammar.Index

/-!
# What the posterior passes do to a chart

Both passes keep the entries of a chart and how they were first derived (`PackedChart.Reweighed`). Each
visit of a cell replaces its inside scores, or completes its outside scores and adds to those of the
cells below; what it reads and what it writes is said here by functions of the symbols of a cell in place
of lists beside its row.
-/

namespace Constituency

namespace PackedChart

variable {α : Type} [Score α] {acc : Accumulator α} {g : Grammar α} {c c' c'' : PackedChart α}
  {i j k l : Nat} {A : NonTerminal} {x : PackedEntry α}

/-! ## Cells as functions of symbols -/

/-- The symbols of a cell. -/
def symbols (c : PackedChart α) (start stop : Nat) : List NonTerminal :=
  (c.row start stop).map (·.nonterminal)

theorem mem_symbols (h : c.Sound g) : A ∈ c.symbols i j ↔ (c.get? i j A).isSome = true := by
  rw [symbols, List.mem_map, Option.isSome_iff_exists]
  constructor
  · rintro ⟨x, hx, rfl⟩
    exact ⟨x.toEntry, (get?_eq_some_iff h).2 ⟨x, hx, rfl, rfl⟩⟩
  · rintro ⟨e, he⟩
    obtain ⟨x, hx, hnt, -⟩ := (get?_eq_some_iff h).1 he
    exact ⟨x, hx, hnt⟩

theorem nodup_symbols (h : c.Sound g) (i j : Nat) : (c.symbols i j).Nodup :=
  (List.pairwise_map.2 (h.rows i j).ascending).imp Nat.ne_of_lt

theorem inside_of_mem (h : c.Sound g) (hx : x ∈ c.row i j) :
    c.inside i j x.nonterminal = x.inside := by
  rw [inside, lookup_eq h, (find?_eq_some_iff (h.rows i j)).2 ⟨hx, rfl⟩]

theorem outside_of_mem (h : c.Sound g) (hx : x ∈ c.row i j) :
    c.outside i j x.nonterminal = x.outside := by
  rw [outside, lookup_eq h, (find?_eq_some_iff (h.rows i j)).2 ⟨hx, rfl⟩]

omit [Score α] in
theorem find?_eq_none (hA : A ∉ c.symbols i j) : find? (c.row i j) A = none := by
  rw [find?, List.find?_eq_none]
  intro x hx hnt
  exact hA (List.mem_map.2 ⟨x, hx, beq_iff_eq.1 hnt⟩)

theorem inside_of_not_mem (h : c.Sound g) (hA : A ∉ c.symbols i j) :
    c.inside i j A = Score.impossible := by
  rw [inside, lookup_eq h, find?_eq_none hA]

theorem outside_of_not_mem (h : c.Sound g) (hA : A ∉ c.symbols i j) :
    c.outside i j A = Score.impossible := by
  rw [outside, lookup_eq h, find?_eq_none hA]

theorem scored_eq (h : c.Sound g) (keep : NonTerminal → Bool) (i j : Nat) :
    c.scored keep i j = ((c.symbols i j).filter keep).map fun A => (A, c.inside i j A) := by
  rw [scored, symbols, List.filter_map, List.map_map]
  refine List.map_congr_left fun x hx => ?_
  rw [Function.comp_apply, inside_of_mem h (List.mem_of_mem_filter hx)]

/-! ## The same entries -/

/-- What the passes keep of an entry. -/
def kept (x : PackedEntry α) : NonTerminal × Backpointer := (x.nonterminal, x.backpointer)

/-- The second chart has the entries of the first one, with weights of its own. -/
structure Reweighed (c c' : PackedChart α) : Prop where
  kept_eq : ∀ i j, (c'.row i j).map kept = (c.row i j).map kept
  size_eq : c'.size = c.size
  numNonterminals_eq : c'.numNonterminals = c.numNonterminals
  classes_eq : c'.classes = c.classes
  stride_eq : c'.rows.stride = c.rows.stride
  tidy : c.rows.Tidy → c'.rows.Tidy
  numEntries_eq : c'.numEntries = c.numEntries

namespace Reweighed

theorem refl (c : PackedChart α) : Reweighed c c := ⟨fun _ _ => rfl, rfl, rfl, rfl, rfl, id, rfl⟩

theorem trans (h : Reweighed c c') (h' : Reweighed c' c'') : Reweighed c c'' where
  kept_eq i j := (h'.kept_eq i j).trans (h.kept_eq i j)
  size_eq := h'.size_eq.trans h.size_eq
  numNonterminals_eq := h'.numNonterminals_eq.trans h.numNonterminals_eq
  classes_eq := h'.classes_eq.trans h.classes_eq
  stride_eq := h'.stride_eq.trans h.stride_eq
  tidy := h'.tidy ∘ h.tidy
  numEntries_eq := h'.numEntries_eq.trans h.numEntries_eq

theorem symbols_eq (h : Reweighed c c') (i j : Nat) : c'.symbols i j = c.symbols i j := by
  have := congrArg (List.map Prod.fst) (h.kept_eq i j)
  rwa [List.map_map, List.map_map] at this

theorem sound (h : Reweighed c c') (hc : c.Sound g) : c'.Sound g where
  numNonterminals_eq := h.numNonterminals_eq.trans hc.numNonterminals_eq
  classes_eq := h.classes_eq.trans hc.classes_eq
  stride_eq := h.stride_eq.trans hc.stride_eq
  tidy := h.tidy hc.tidy
  rows i j := by
    have hrow := h.symbols_eq i j
    have hasc : (c'.symbols i j).Pairwise (· < ·) := by
      rw [hrow]
      exact List.pairwise_map.2 (hc.rows i j).ascending
    refine ⟨List.pairwise_map.1 hasc, fun x hx => ?_⟩
    have hmem : x.nonterminal ∈ c.symbols i j := hrow ▸ List.mem_map_of_mem hx
    obtain ⟨y, hy, hnt⟩ := List.mem_map.1 hmem
    exact hnt ▸ (hc.rows i j).nonterminal_lt y hy

theorem isSome_get? (h : Reweighed c c') (hc : c.Sound g) :
    (c'.get? i j A).isSome = (c.get? i j A).isSome := by
  rw [Bool.eq_iff_iff, ← mem_symbols hc, ← mem_symbols (h.sound hc), h.symbols_eq]

/-- The entries keep their backpointers. -/
theorem exists_get? (h : Reweighed c c') (hc : c.Sound g) {e' : Entry α}
    (he' : c'.get? i j A = some e') :
    ∃ e, c.get? i j A = some e ∧ e.backpointer = e'.backpointer := by
  obtain ⟨x, hx, rfl, rfl⟩ := (get?_eq_some_iff (h.sound hc)).1 he'
  have hmem : kept x ∈ (c.row i j).map kept := h.kept_eq i j ▸ List.mem_map_of_mem hx
  obtain ⟨y, hy, heq⟩ := List.mem_map.1 hmem
  obtain ⟨hnt, hb⟩ := Prod.mk.inj heq
  exact ⟨y.toEntry, (get?_eq_some_iff hc).2 ⟨y, hy, hnt, rfl⟩, hb⟩

end Reweighed

/-- A row that keeps its entries when it is replaced leaves a chart reweighed. -/
theorem reweighed_of_replaces {rows : RowTable α} {row : List (PackedEntry α)}
    (hrows : c.rows.Replaces rows i j row) (hkept : row.map kept = (c.row i j).map kept) :
    Reweighed c { c with rows } where
  kept_eq k l := by
    rw [row_of_replaces hrows]
    split
    · next heq =>
      obtain ⟨rfl, rfl⟩ := heq
      exact hkept
    · rfl
  size_eq := hrows.size_eq
  numNonterminals_eq := rfl
  classes_eq := rfl
  stride_eq := hrows.stride_eq
  tidy _ := hrows.tidy
  numEntries_eq := by
    have hlength := congrArg List.length hkept
    rw [List.length_map, List.length_map] at hlength
    have htotal : rows.total + (c.row i j).length = c.rows.total + row.length := hrows.total_eq
    show rows.total = c.rows.total
    omega

omit [Score α] in
theorem find?_map (change : PackedEntry α → PackedEntry α)
    (hchange : ∀ e, (change e).nonterminal = e.nonterminal) (row : List (PackedEntry α)) :
    find? (row.map change) A = (find? row A).map change := by
  rw [find?, find?, List.find?_map]
  congr 1
  exact congrArg (List.find? · row) (funext fun e => by rw [Function.comp_apply, hchange])

/-! ## Levels -/

/-- The score an entry collects from its unary children. -/
def upScore (acc : Accumulator α) (g : Grammar α) (symbols : List NonTerminal)
    (level : NonTerminal → α) (parent : NonTerminal) : α :=
  total acc <| symbols.flatMap fun child =>
    if level child == Score.impossible then []
    else ((g.byUnaryChild child).filter (·.parent == parent)).map (·.logProb + level child)

/-- The score an entry collects from its unary parents. -/
def downScore (acc : Accumulator α) (g : Grammar α) (symbols : List NonTerminal)
    (level : NonTerminal → α) (child : NonTerminal) : α :=
  total acc <| (g.byUnaryChild child).filterMap fun p =>
    if p.parent ∈ symbols ∧ Score.impossible < level p.parent then
      some (level p.parent + p.logProb)
    else none

/-- The scores of the levels from the next one on, added up. -/
def addScores (acc : Accumulator α) (next : (NonTerminal → α) → NonTerminal → α)
    (symbols : List NonTerminal) : Nat → (NonTerminal → α) → (NonTerminal → α) → NonTerminal → α
  | 0, _, sums => sums
  | steps + 1, level, sums =>
    if symbols.all (next level · == Score.impossible) then sums
    else addScores acc next symbols steps (next level) fun nt => acc.combine (sums nt) (next level nt)

omit [Score α] in
theorem leveled_map (symbols : List NonTerminal) (level : NonTerminal → α) :
    leveled symbols (symbols.map level) = symbols.map fun nt => (nt, level nt) := by
  rw [leveled, List.zip_map_right, List.zip, List.zipWith_self, List.map_map]
  rfl

theorem levelUp_map (acc : Accumulator α) (g : Grammar α) (symbols : List NonTerminal)
    (level : NonTerminal → α) :
    levelUp acc g symbols (symbols.map level) = symbols.map (upScore acc g symbols level) := by
  unfold levelUp upScore
  rw [leveled_map]
  simp only [List.flatMap_map]

omit [Score α] in
theorem lookup_leveled (symbols : List NonTerminal) (level : NonTerminal → α) (nt : NonTerminal) :
    (leveled symbols (symbols.map level)).lookup nt =
      if nt ∈ symbols then some (level nt) else none := by
  rw [leveled_map]
  induction symbols with
  | nil => rfl
  | cons A rest ih =>
    rw [List.map_cons, List.lookup_cons, ih]
    by_cases heq : nt = A
    · simp [heq]
    · rw [beq_eq_false_iff_ne.2 heq]
      simp [heq]

theorem levelDown_map (acc : Accumulator α) (g : Grammar α) (symbols : List NonTerminal)
    (level : NonTerminal → α) :
    levelDown acc g symbols (symbols.map level) = symbols.map (downScore acc g symbols level) := by
  unfold levelDown downScore
  refine List.map_congr_left fun child _ => congrArg (total acc) ?_
  refine List.filterMap_congr fun p _ => ?_
  rw [lookup_leveled]
  by_cases hmem : p.parent ∈ symbols
  · simp [hmem]
  · simp [hmem]

theorem addLevels_map {next : List α → List α} {next' : (NonTerminal → α) → NonTerminal → α}
    {symbols : List NonTerminal}
    (hnext : ∀ level, next (symbols.map level) = symbols.map (next' level)) (steps : Nat)
    (level sums : NonTerminal → α) :
    addLevels acc next steps (symbols.map level) (symbols.map sums) =
      symbols.map (addScores acc next' symbols steps level sums) := by
  induction steps generalizing level sums with
  | zero => rfl
  | succ steps ih =>
    have hall : (symbols.map (next' level)).all (· == Score.impossible) =
        symbols.all (next' level · == Score.impossible) := by rw [List.all_map]; rfl
    have hzip : (symbols.map sums).zipWith acc.combine (symbols.map (next' level)) =
        symbols.map fun nt => acc.combine (sums nt) (next' level nt) := by
      rw [List.zipWith_map, List.zipWith_self]
    rw [addLevels, addScores, hnext, hall, hzip, ih]
    split <;> rfl

/-! ## The visit of a cell upwards -/

/-- The score of an entry without unary rules. -/
def baseScore (acc : Accumulator α) (c : PackedChart α) (g : Grammar α)
    (terminals : List (Option Terminal)) (start stop : Nat) (nt : NonTerminal) : α :=
  if stop = start + 1 then
    match terminals[start]?.join with
    | some word => g.logProb nt (.lexical word)
    | none => Score.impossible
  else total acc (c.binaryInside g start stop nt)

/-- The score of an entry with unary rules. -/
def resummed (acc : Accumulator α) (c : PackedChart α) (g : Grammar α)
    (terminals : List (Option Terminal)) (start stop : Nat) : NonTerminal → α :=
  let symbols := c.symbols start stop
  let base := baseScore acc c g terminals start stop
  addScores acc (upScore acc g symbols) symbols symbols.length base base

theorem baseInside_eq (acc : Accumulator α) (c : PackedChart α) (g : Grammar α)
    (terminals : List (Option Terminal)) (i j : Nat) (symbols : List NonTerminal) :
    baseInside acc c g terminals i j symbols =
      symbols.map (baseScore acc c g terminals i j) := by
  unfold baseInside baseScore
  by_cases hone : j = i + 1
  · rw [if_pos (beq_iff_eq.2 hone)]
    simp only [if_pos hone]
    cases terminals[i]?.join <;> rfl
  · rw [if_neg (beq_iff_eq.not.2 hone)]
    simp only [if_neg hone]

/-- The visit of a cell upwards sets the inside scores of the row. -/
theorem resumCell_replaces (acc : Accumulator α) (hc : c.Sound g) (hij : i < j) (hj : j ≤ c.size)
    (terminals : List (Option Terminal)) :
    c.rows.Replaces (resumCell acc g terminals c (i, j)).rows i j <| (c.row i j).map fun e =>
      { e with inside := resummed acc c g terminals i j e.nonterminal } := by
  have hsums : addLevels acc (levelUp acc g (c.symbols i j)) (c.symbols i j).length
      (baseInside acc c g terminals i j (c.symbols i j))
      (baseInside acc c g terminals i j (c.symbols i j)) =
        (c.row i j).map fun e => resummed acc c g terminals i j e.nonterminal := by
    rw [baseInside_eq, addLevels_map (levelUp_map acc g _)]
    simp only [resummed, symbols, List.map_map]
    rfl
  have hlength : ((c.row i j).map fun e => resummed acc c g terminals i j e.nonterminal).length =
      (c.rows.get i j).length := List.length_map _
  have hrows := RowTable.copyInside_spec hc.tidy hij hj hlength
  rw [List.zipWith_map_right, ← row, List.zipWith_self] at hrows
  rw [resumCell]
  dsimp only
  rw [← symbols, hsums]
  exact hrows

/-- The visit of a cell upwards sets the inside scores of the cell and nothing else. -/
theorem resumCell_spec (acc : Accumulator α) (hc : c.Sound g) (hij : i < j) (hj : j ≤ c.size)
    (terminals : List (Option Terminal)) :
    Reweighed c (resumCell acc g terminals c (i, j)) ∧
      (∀ A ∈ c.symbols i j, (resumCell acc g terminals c (i, j)).inside i j A =
        resummed acc c g terminals i j A) ∧
      ∀ k l A, ¬ (k = i ∧ l = j) →
        (resumCell acc g terminals c (i, j)).inside k l A = c.inside k l A := by
  have hrows := resumCell_replaces acc hc hij hj terminals
  have hsame : Reweighed c (resumCell acc g terminals c (i, j)) :=
    reweighed_of_replaces hrows (by rw [List.map_map]; rfl)
  have hrow : ∀ k l, (resumCell acc g terminals c (i, j)).row k l = _ := row_of_replaces hrows
  have hsound := hsame.sound hc
  refine ⟨hsame, fun A hA => ?_, fun k l A hne => ?_⟩
  · obtain ⟨x, hx, rfl⟩ := List.mem_map.1 hA
    refine inside_of_mem hsound (x := { x with inside := resummed acc c g terminals i j x.nonterminal })
      ?_
    rw [hrow, if_pos ⟨rfl, rfl⟩]
    exact List.mem_map_of_mem hx
  · rw [inside, lookup_eq hsound, hrow, if_neg hne, inside, lookup_eq hc]

/-! ## The visit of a cell downwards -/

/-- The second chart has the entries of the first one and their inside scores. -/
structure SameInside (c c' : PackedChart α) : Prop extends Reweighed c c' where
  inside_eq : ∀ i j A, c'.inside i j A = c.inside i j A

theorem SameInside.refl (c : PackedChart α) : SameInside c c := ⟨.refl c, fun _ _ _ => rfl⟩

theorem SameInside.trans (h : SameInside c c') (h' : SameInside c' c'') : SameInside c c'' :=
  ⟨h.toReweighed.trans h'.toReweighed,
    fun i j A => (h'.inside_eq i j A).trans (h.inside_eq i j A)⟩

/-- The entry with another outside score. -/
def withOutside (change : NonTerminal → α → α) (e : PackedEntry α) : PackedEntry α :=
  { e with outside := change e.nonterminal e.outside }

/-- The second chart has other outside scores over one span. -/
structure Adjusts (c c' : PackedChart α) (start stop : Nat) (change : NonTerminal → α → α) : Prop
    extends SameInside c c' where
  outside_eq : ∀ k l, ∀ A ∈ c.symbols k l, c'.outside k l A =
    if k = start ∧ l = stop then change A (c.outside k l A) else c.outside k l A

/-- A row in which outside scores alone change. -/
theorem adjusts_of_replaces (hc : c.Sound g) {rows : RowTable α} {change : NonTerminal → α → α}
    (hrows : c.rows.Replaces rows i j ((c.row i j).map (withOutside change))) :
    Adjusts c { c with rows } i j change := by
  have hsame : Reweighed c { c with rows } :=
    reweighed_of_replaces hrows (by rw [List.map_map]; rfl)
  have hsound := hsame.sound hc
  refine ⟨⟨hsame, fun k l A => ?_⟩, fun k l A hA => ?_⟩
  · rw [inside, inside, lookup_eq hsound, lookup_eq hc, row_of_replaces hrows]
    by_cases heq : k = i ∧ l = j
    · obtain ⟨rfl, rfl⟩ := heq
      rw [if_pos ⟨rfl, rfl⟩, find?_map (withOutside change) fun _ => rfl]
      cases find? (c.row k l) A <;> rfl
    · rw [if_neg heq]
  · obtain ⟨x, hx, rfl⟩ := List.mem_map.1 hA
    rw [outside_of_mem hc hx, outside, lookup_eq hsound, row_of_replaces hrows]
    have hfind := (find?_eq_some_iff (hc.rows k l)).2 ⟨hx, rfl⟩
    by_cases heq : k = i ∧ l = j
    · obtain ⟨rfl, rfl⟩ := heq
      rw [if_pos ⟨rfl, rfl⟩, if_pos ⟨rfl, rfl⟩, find?_map (withOutside change) (fun _ => rfl), hfind]
      rfl
    · rw [if_neg heq, if_neg heq, hfind]

/-- Where there is no cell there is nothing to change. -/
theorem adjusts_of_not_covers (hcov : ¬ (i < j ∧ j ≤ c.size)) (change : NonTerminal → α → α) :
    Adjusts c c i j change := by
  refine ⟨.refl c, fun k l A hA => ?_⟩
  rw [if_neg]
  rintro ⟨rfl, rfl⟩
  rw [symbols, row_of_not_covers hcov] at hA
  cases hA

theorem adjustOutside_adjusts (hc : c.Sound g) (i j : Nat) (nt : NonTerminal) (change : α → α) :
    Adjusts c { c with rows := c.rows.adjustOutside i j nt change } i j fun A outside =>
      if A = nt then change outside else outside := by
  by_cases hcov : i < j ∧ j ≤ c.size
  · have hrows := RowTable.adjustOutside_spec hc.tidy hcov.1 hcov.2 (hc.rows i j).ascending nt change
    have hmap : RowTable.adjusted nt change =
        withOutside fun A outside => if A = nt then change outside else outside := by
      funext y
      rw [withOutside, RowTable.adjusted]
      split <;> rfl
    rw [hmap] at hrows
    exact adjusts_of_replaces hc hrows
  · rw [RowTable.adjustOutside_of_not_covers hcov]
    exact adjusts_of_not_covers hcov _

/-- The outside score of an entry with unary rules, given those without. -/
def completed (acc : Accumulator α) (c : PackedChart α) (g : Grammar α) (start stop : Nat) :
    NonTerminal → α :=
  let symbols := c.symbols start stop
  let base := c.outside start stop
  addScores acc (downScore acc g symbols) symbols symbols.length base base

theorem unaryOutside_eq (hc : c.Sound g) (i j : Nat) :
    unaryOutside acc g (c.row i j) =
      (c.row i j).map fun e => completed acc c g i j e.nonterminal := by
  have hbase : (c.row i j).map (·.outside) = (c.symbols i j).map (c.outside i j) := by
    rw [symbols, List.map_map]
    exact List.map_congr_left fun x hx => (outside_of_mem hc hx).symm
  unfold unaryOutside
  dsimp only
  rw [hbase, ← symbols, addLevels_map (levelDown_map acc g _), symbols, List.map_map]
  rfl

/-- What a contribution makes of the outside score of an entry. -/
def receive (acc : Accumulator α) (start stop : Nat) (nt : NonTerminal) (outside : α)
    (x : Contribution α) : α :=
  if (start = x.start ∧ stop = x.stop ∧ nt = x.nonterminal) ∧
      (x.score == Score.impossible) = false then acc.combine outside x.score
  else outside

theorem contribute_spec (acc : Accumulator α) (hc : c.Sound g) (x : Contribution α) :
    SameInside c (contribute acc c x) ∧
      ∀ k l, ∀ A ∈ c.symbols k l,
        (contribute acc c x).outside k l A = receive acc k l A (c.outside k l A) x := by
  unfold contribute
  split
  · next himp => exact ⟨.refl c, fun k l A _ => by simp [receive, himp]⟩
  · next hne =>
    have hadjusts := adjustOutside_adjusts hc x.start x.stop x.nonterminal (acc.combine · x.score)
    refine ⟨hadjusts.toSameInside, fun k l A hA => ?_⟩
    rw [Bool.not_eq_true] at hne
    rw [hadjusts.outside_eq k l A hA, receive, hne]
    by_cases hspan : k = x.start ∧ l = x.stop
    · by_cases hnt : A = x.nonterminal <;> simp [hspan, hnt]
    · rw [if_neg hspan, if_neg]
      rintro ⟨⟨hk, hl, -⟩, -⟩
      exact hspan ⟨hk, hl⟩

theorem foldl_contribute_spec (acc : Accumulator α) (hc : c.Sound g) (xs : List (Contribution α)) :
    SameInside c (xs.foldl (contribute acc) c) ∧
      ∀ k l, ∀ A ∈ c.symbols k l,
        (xs.foldl (contribute acc) c).outside k l A =
          xs.foldl (receive acc k l A) (c.outside k l A) := by
  induction xs generalizing c with
  | nil => exact ⟨.refl c, fun _ _ _ _ => rfl⟩
  | cons x rest ih =>
    obtain ⟨hsame, hout⟩ := contribute_spec acc hc x
    obtain ⟨hsame', hout'⟩ := ih (hsame.sound hc)
    refine ⟨hsame.trans hsame', fun k l A hA => ?_⟩
    rw [List.foldl_cons, List.foldl_cons, hout' k l A (by rwa [hsame.symbols_eq]), hout k l A hA]

/-- The chart with the outside scores of a cell completed. -/
def complete (acc : Accumulator α) (g : Grammar α) (c : PackedChart α) (start stop : Nat) :
    PackedChart α :=
  { c with rows := c.rows.copyOutside start stop (unaryOutside acc g (c.row start stop)) }

theorem passDown_eq (acc : Accumulator α) (g : Grammar α) (c : PackedChart α) (i j : Nat) :
    passDown acc g c (i, j) =
      ((complete acc g c i j).binaryOutside g i j).foldl (contribute acc)
        (complete acc g c i j) := rfl

theorem complete_adjusts (acc : Accumulator α) (hc : c.Sound g) (i j : Nat) :
    Adjusts c (complete acc g c i j) i j fun A _ => completed acc c g i j A := by
  rw [complete, unaryOutside_eq hc]
  by_cases hcov : i < j ∧ j ≤ c.size
  · have hlength : ((c.row i j).map fun e => completed acc c g i j e.nonterminal).length =
        (c.rows.get i j).length := List.length_map _
    have hrows := RowTable.copyOutside_spec hc.tidy hcov.1 hcov.2 hlength
    rw [List.zipWith_map_right, ← row, List.zipWith_self] at hrows
    exact adjusts_of_replaces hc hrows
  · rw [RowTable.copyOutside_of_not_covers hcov]
    exact adjusts_of_not_covers hcov _

theorem sameInside_complete (acc : Accumulator α) (hc : c.Sound g) (i j : Nat) :
    SameInside c (complete acc g c i j) :=
  (complete_adjusts acc hc i j).toSameInside

theorem outside_complete (hc : c.Sound g) (i j : Nat) (hA : A ∈ c.symbols k l) :
    (complete acc g c i j).outside k l A =
      if k = i ∧ l = j then completed acc c g i j A else c.outside k l A :=
  (complete_adjusts acc hc i j).outside_eq k l A hA

/-- The visit of a cell downwards completes the outside scores of the cell, and adds to others what the
binary rules over its span contribute. -/
theorem passDown_spec (acc : Accumulator α) (hc : c.Sound g) (i j : Nat) :
    SameInside c (passDown acc g c (i, j)) ∧
      ∀ k l, ∀ A ∈ c.symbols k l, (passDown acc g c (i, j)).outside k l A =
        ((complete acc g c i j).binaryOutside g i j).foldl (receive acc k l A)
          ((complete acc g c i j).outside k l A) := by
  have hsame := sameInside_complete acc hc i j
  obtain ⟨hsame', hout⟩ := foldl_contribute_spec acc (hsame.sound hc)
    ((complete acc g c i j).binaryOutside g i j)
  rw [passDown_eq]
  exact ⟨hsame.trans hsame', fun k l A hA => hout k l A (by rwa [hsame.symbols_eq])⟩

/-- The chart with nothing known of the surroundings of its entries. -/
def cleared (c : PackedChart α) : PackedChart α :=
  { c with
    rows := c.rows.clearOutside
    hasOutside := true }

theorem row_cleared (c : PackedChart α) (k l : Nat) :
    c.cleared.row k l = (c.row k l).map (withOutside fun _ _ => Score.impossible) :=
  RowTable.get_clearOutside c.rows k l

theorem reweighed_cleared (c : PackedChart α) : Reweighed c c.cleared where
  kept_eq k l := by
    rw [row_cleared, List.map_map]
    rfl
  size_eq := rfl
  numNonterminals_eq := rfl
  classes_eq := rfl
  stride_eq := rfl
  tidy := RowTable.tidy_clearOutside
  numEntries_eq := rfl

theorem sameInside_cleared (hc : c.Sound g) : SameInside c c.cleared where
  toReweighed := reweighed_cleared c
  inside_eq k l A := by
    rw [inside, inside, lookup_eq ((reweighed_cleared c).sound hc), lookup_eq hc, row_cleared,
      find?_map (withOutside fun _ _ => Score.impossible) fun _ => rfl]
    cases find? (c.row k l) A <;> rfl

theorem outside_cleared (hc : c.Sound g) (k l : Nat) (A : NonTerminal) :
    c.cleared.outside k l A = Score.impossible := by
  rw [outside, lookup_eq ((reweighed_cleared c).sound hc), row_cleared,
    find?_map (withOutside fun _ _ => Score.impossible) fun _ => rfl]
  cases find? (c.row k l) A <;> rfl

/-- Before the outside pass nothing surrounds any entry but the start symbol over the sentence. -/
theorem unsurrounded_spec (hc : c.Sound g) :
    SameInside c (c.unsurrounded g) ∧
      ∀ k l, ∀ A ∈ c.symbols k l, (c.unsurrounded g).outside k l A =
        if (k = 0 ∧ l = c.size) ∧ A = g.start then 0 else Score.impossible := by
  have hsame := sameInside_cleared hc
  have hadjusts : Adjusts c.cleared (c.unsurrounded g) 0 c.size fun A outside =>
      if A = g.start then 0 else outside :=
    adjustOutside_adjusts (hsame.sound hc) 0 c.size g.start fun _ => 0
  refine ⟨hsame.trans hadjusts.toSameInside, fun k l A hA => ?_⟩
  rw [hadjusts.outside_eq k l A (by rwa [hsame.symbols_eq]), outside_cleared hc]
  by_cases hspan : k = 0 ∧ l = c.size <;> simp [hspan]

/-! ## Whole passes -/

theorem reweighed_resum (acc : Accumulator α) (hc : c.Sound g) (terminals : List (Option Terminal)) :
    Reweighed c (c.resum acc g terminals) :=
  spansUp_induction (P := fun _ c' => Reweighed c c') (.refl c)
    fun _ _ _ _ hij hj _ _ _ hv =>
      hv.trans (resumCell_spec acc (hv.sound hc) hij (hv.size_eq ▸ hj) terminals).1

/-- What holds of all inside scores after a pass: it holds where there is no entry, and the visit of a cell
brings it about for the cell once it holds of all shorter ones. -/
theorem resum_induction {P : Nat → Nat → NonTerminal → α → Prop} (acc : Accumulator α)
    (hc : c.Sound g) (terminals : List (Option Terminal))
    (hnone : ∀ i j A, A ∉ c.symbols i j → P i j A Score.impossible)
    (hvisit : ∀ c' i j A, Reweighed c c' → i < j → A ∈ c.symbols i j →
      (∀ k l B, k < l → l - k < j - i → P k l B (c'.inside k l B)) →
        P i j A (resummed acc c' g terminals i j A))
    (i j : Nat) (A : NonTerminal) : P i j A ((c.resum acc g terminals).inside i j A) := by
  have hdead : ∀ {c' i j A}, Reweighed c c' → A ∉ c.symbols i j → P i j A (c'.inside i j A) := by
    intro c' i j A hsame hA
    rw [inside_of_not_mem (hsame.sound hc) (by rwa [hsame.symbols_eq])]
    exact hnone i j A hA
  have hbounds : ∀ {i j A}, A ∈ c.symbols i j → i < j ∧ j ≤ c.size := by
    intro i j A hA
    obtain ⟨e, he⟩ := Option.isSome_iff_exists.1 ((mem_symbols hc).1 hA)
    exact ⟨(hc.bounds he).1, (hc.bounds he).2.1⟩
  have hpass : Reweighed c (c.resum acc g terminals) ∧ ∀ i j A, (i, j) ∈ spansUp c.size →
      P i j A ((c.resum acc g terminals).inside i j A) := by
    refine spansUp_induction (P := fun visited c' => Reweighed c c' ∧
        ∀ i j A, (i, j) ∈ visited → P i j A (c'.inside i j A))
      ⟨.refl c, fun i j A hmem => absurd hmem List.not_mem_nil⟩
      fun visited i j c' hij hj _ hshorter _ hv => ?_
    obtain ⟨hsame, hvisited⟩ := hv
    obtain ⟨hstep, hcell, hother⟩ :=
      resumCell_spec acc (hsame.sound hc) hij (hsame.size_eq ▸ hj) terminals
    refine ⟨hsame.trans hstep, fun k l A hkl => ?_⟩
    by_cases hA : A ∈ c.symbols k l
    · rw [List.mem_append, List.mem_singleton, Prod.mk.injEq] at hkl
      by_cases heq : k = i ∧ l = j
      · obtain ⟨rfl, rfl⟩ := heq
        rw [hcell A (by rwa [hsame.symbols_eq])]
        refine hvisit c' k l A hsame hij hA fun k' l' B hlt hshort => ?_
        by_cases hl' : l' ≤ c.size
        · exact hvisited k' l' B (hshorter k' l' hlt hl' hshort)
        · exact hdead hsame fun hB => hl' (hbounds hB).2
      · rw [hother k l A heq]
        exact hvisited k l A (hkl.resolve_right heq)
    · exact hdead (hsame.trans hstep) hA
  by_cases hA : A ∈ c.symbols i j
  · exact hpass.2 i j A (mem_spansUp.2 (hbounds hA))
  · exact hdead hpass.1 hA

theorem sameInside_surround (acc : Accumulator α) (hc : c.Sound g) :
    SameInside c (c.surround acc g) :=
  spansDown_induction (P := fun _ c' => SameInside c c') (unsurrounded_spec hc).1
    fun _ _ _ _ _ _ _ _ _ hv => hv.trans (passDown_spec acc (hv.sound hc) _ _).1

/-- Both passes, one after the other. -/
theorem reweighed_surround_resum (inner outer : Accumulator α) (hc : c.Sound g)
    (terminals : List (Option Terminal)) :
    Reweighed c ((c.resum inner g terminals).surround outer g) := by
  have hsummed := reweighed_resum inner hc terminals
  exact hsummed.trans (sameInside_surround outer (hsummed.sound hc)).toReweighed

end PackedChart

end Constituency
