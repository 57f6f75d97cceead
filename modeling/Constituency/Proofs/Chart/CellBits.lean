import Constituency.Chart.CellBits
import Constituency.Proofs.Span
import Mathlib.Data.Nat.Factorization.Basic

/-!
# Sets in machine words are sets

The bits of a word are taken off from the lowest one up (`mem_bitsOf`, `bitsOf_pairwise`), so that a set lists
its members in ascending order, across the boundaries of words and of cells (`members_pairwise`), and to
enter a symbol changes the set of one span by that symbol (`mem_members_insert`).
-/

namespace Constituency

namespace CellBits

/-! ## The lowest bit -/

/-- The lowest bit of a number that is not zero splits it in two. -/
theorem exists_lowest {n : Nat} (h : n ≠ 0) : ∃ k q, n = 2 ^ (k + 1) * q + 2 ^ k := by
  obtain ⟨k, m, ⟨q, rfl⟩, rfl⟩ := Nat.exists_eq_two_pow_mul_odd h
  exact ⟨k, q, by ring⟩

section Lowest

variable {k q : Nat}

theorem testBit_of_lowest (i : Nat) : (2 ^ (k + 1) * q + 2 ^ k).testBit i =
    if i < k + 1 then decide (k = i) else q.testBit (i - (k + 1)) := by
  rw [Nat.testBit_two_pow_mul_add q (Nat.pow_lt_pow_right (by decide) (Nat.lt_succ_self k)),
    Nat.testBit_two_pow]

/-- To take one away borrows from the lowest bit. -/
theorem testBit_pred_of_lowest (i : Nat) : (2 ^ (k + 1) * q + 2 ^ k - 1).testBit i =
    if i < k + 1 then decide (i < k) else q.testBit (i - (k + 1)) := by
  have hpos := Nat.two_pow_pos k
  have hlt : 2 ^ k < 2 ^ (k + 1) := Nat.pow_lt_pow_right (by decide) (Nat.lt_succ_self k)
  rw [Nat.add_sub_assoc hpos, Nat.testBit_two_pow_mul_add q (by omega), Nat.testBit_two_pow_sub_one]

/-- The lowest bit is the highest one in which a number differs from the one before it. -/
theorem log2_xor_pred_of_lowest :
    ((2 ^ (k + 1) * q + 2 ^ k) ^^^ (2 ^ (k + 1) * q + 2 ^ k - 1)).log2 = k := by
  have hmask : (2 ^ (k + 1) * q + 2 ^ k) ^^^ (2 ^ (k + 1) * q + 2 ^ k - 1) = 2 ^ (k + 1) - 1 := by
    refine Nat.eq_of_testBit_eq fun i => ?_
    rw [Nat.testBit_xor, testBit_of_lowest, testBit_pred_of_lowest, Nat.testBit_two_pow_sub_one]
    rcases Nat.lt_trichotomy i k with hlt | rfl | hgt
    · simp [hlt, hlt.ne', Nat.lt_succ_of_lt hlt]
    · simp
    · simp [Nat.not_lt.2 (Nat.succ_le_of_lt hgt)]
  have hpos := Nat.two_pow_pos k
  have hsucc := Nat.pow_succ 2 k
  rw [hmask, Nat.log2_eq_iff (by omega)]
  omega

end Lowest

variable {word : UInt64} {i : Nat}

theorem toNat_pred (h : word ≠ 0) : (word - 1).toNat = word.toNat - 1 := by
  have hpos : 0 < word.toNat := Nat.pos_of_ne_zero fun hzero => h (UInt64.toNat_inj.1 hzero)
  exact UInt64.toNat_sub_of_le _ _ (UInt64.le_iff_toNat_le.2 hpos)

/-- The bit found as the lowest one is set, none below it is, and it is the one that is taken off. -/
theorem lowest_spec (h : word ≠ 0) :
    word.toNat.testBit (lowest word) = true ∧
      (∀ i, word.toNat.testBit i = true → lowest word ≤ i) ∧
      ∀ i, (word &&& (word - 1)).toNat.testBit i =
        (word.toNat.testBit i && decide (lowest word ≠ i)) := by
  obtain ⟨k, q, hword⟩ := exists_lowest fun hzero => h (UInt64.toNat_inj.1 hzero)
  have hlowest : lowest word = k := by
    show (word ^^^ (word - 1)).toNat.log2 = k
    rw [UInt64.toNat_xor, toNat_pred h, hword, log2_xor_pred_of_lowest]
  rw [UInt64.toNat_and, toNat_pred h, hword, hlowest]
  refine ⟨?_, fun i hi => ?_, fun i => ?_⟩
  · simp [testBit_of_lowest]
  · rw [testBit_of_lowest] at hi
    split at hi
    · exact (decide_eq_true_iff.1 hi).le
    · omega
  · rw [Nat.testBit_and, testBit_of_lowest, testBit_pred_of_lowest]
    rcases Nat.lt_trichotomy i k with hlt | rfl | hgt
    · simp [hlt.ne', Nat.lt_succ_of_lt hlt]
    · simp
    · simp [Nat.not_lt.2 (Nat.succ_le_of_lt hgt), hgt.ne]

/-! ## The bits of a word -/

theorem mem_bitsOf : i ∈ bitsOf word ↔ word.toNat.testBit i = true := by
  fun_induction bitsOf word with
  | case1 word h =>
    rw [beq_iff_eq.1 h]
    simp
  | case2 word h ih =>
    obtain ⟨hset, -, hrest⟩ := lowest_spec fun hzero => h (beq_iff_eq.2 hzero)
    rw [List.mem_cons, ih, hrest, Bool.and_eq_true, decide_eq_true_eq]
    constructor
    · rintro (rfl | ⟨hi, -⟩)
      · exact hset
      · exact hi
    · intro hi
      exact (Decidable.em (lowest word = i)).imp Eq.symm fun hne => ⟨hi, hne⟩

theorem bitsOf_pairwise (word : UInt64) : (bitsOf word).Pairwise (· < ·) := by
  fun_induction bitsOf word with
  | case1 word h => exact .nil
  | case2 word h ih =>
    obtain ⟨-, hleast, hrest⟩ := lowest_spec fun hzero => h (beq_iff_eq.2 hzero)
    refine List.pairwise_cons.2 ⟨fun i hi => ?_, ih⟩
    rw [mem_bitsOf, hrest, Bool.and_eq_true, decide_eq_true_eq] at hi
    exact Nat.lt_of_le_of_ne (hleast i hi.1) hi.2

theorem lt_of_mem_bitsOf (h : i ∈ bitsOf word) : i < 64 := by
  by_contra hge
  rw [mem_bitsOf, Nat.testBit_lt_two_pow (Nat.lt_of_lt_of_le word.toNat_lt
    (Nat.pow_le_pow_right (by decide) (Nat.not_lt.1 hge)))] at h
  cases h

/-- To enter a bit adds it to those that are set. -/
theorem mem_bitsOf_or {bit : Nat} (hbit : bit < 64) :
    i ∈ bitsOf (word ||| 1 <<< UInt64.ofNat bit) ↔ i ∈ bitsOf word ∨ i = bit := by
  have hlt : 2 ^ bit < 2 ^ 64 := Nat.pow_lt_pow_right (by decide) hbit
  have hshift : ((1 : UInt64) <<< UInt64.ofNat bit).toNat = 2 ^ bit := by
    rw [UInt64.toNat_shiftLeft, UInt64.toNat_ofNat_of_lt' (Nat.lt_trans hbit (by decide)), Nat.mod_eq_of_lt hbit,
      UInt64.toNat_one, Nat.one_shiftLeft, Nat.mod_eq_of_lt hlt]
  rw [mem_bitsOf, mem_bitsOf, UInt64.toNat_or, hshift, Nat.testBit_or, Nat.testBit_two_pow,
    Bool.or_eq_true, decide_eq_true_eq, eq_comm (a := i)]

/-! ## Members -/

variable {b : CellBits} {start stop j k l : Nat} {nt A : NonTerminal}

theorem lt_wordsFor {nt n : Nat} (h : nt < n) : nt / 64 < wordsFor n :=
  Nat.div_lt_of_lt_mul (by rw [wordsFor]; omega)

theorem covers_iff : b.covers i j = true ↔ i < j ∧ j ≤ b.size := by
  rw [covers, Bool.and_eq_true, decide_eq_true_eq, decide_eq_true_eq]

theorem mem_members : A ∈ b.members i j ↔
    (i < j ∧ j ≤ b.size) ∧ A / 64 < b.stride ∧
      A % 64 ∈ bitsOf (b.word i j (A / 64)) := by
  rw [members]
  split
  · next hcov =>
    rw [List.mem_flatMap, and_iff_right (covers_iff.1 hcov)]
    constructor
    · rintro ⟨w, hw, hA⟩
      obtain ⟨bit, hbit, rfl⟩ := List.mem_map.1 hA
      have hlt := lt_of_mem_bitsOf hbit
      have hdiv : (w * 64 + bit) / 64 = w := by omega
      have hmod : (w * 64 + bit) % 64 = bit := by omega
      rw [hdiv, hmod]
      exact ⟨List.mem_range.1 hw, hbit⟩
    · rintro ⟨hw, hbit⟩
      exact ⟨A / 64, List.mem_range.2 hw, List.mem_map.2 ⟨A % 64, hbit, Nat.div_add_mod' A 64⟩⟩
  · next hcov => exact iff_of_false List.not_mem_nil fun h => hcov (covers_iff.2 h.1)

/-- The members are listed in ascending order. -/
theorem members_pairwise (b : CellBits) (i j : Nat) : (b.members i j).Pairwise (· < ·) := by
  rw [members]
  split
  · refine List.pairwise_flatMap.2 ⟨fun w _ => ?_, List.pairwise_lt_range.imp fun {v w} hvw x hx y hy => ?_⟩
    · exact List.pairwise_map.2 ((bitsOf_pairwise _).imp fun h => Nat.add_lt_add_left h _)
    · obtain ⟨bit, hbit, rfl⟩ := List.mem_map.1 hx
      obtain ⟨bit', -, rfl⟩ := List.mem_map.1 hy
      have hlt := lt_of_mem_bitsOf hbit
      show v * 64 + bit < w * 64 + bit'
      omega
  · exact .nil

theorem word_make (size n i j w : Nat) : (make size n).word i j w = 0 := by
  rw [word, make, Vector.getElem?_replicate]
  split <;> rfl

theorem not_mem_members_make (size n : Nat) : A ∉ (make size n).members i j := by
  intro h
  obtain ⟨-, -, hbit⟩ := mem_members.1 h
  rw [word_make, mem_bitsOf] at hbit
  simp at hbit

@[simp] theorem size_insert (b : CellBits) (i j : Nat) (nt : NonTerminal) :
    (b.insert i j nt).size = b.size := by
  rw [insert]
  split <;> rfl

@[simp] theorem stride_insert (b : CellBits) (i j : Nat) (nt : NonTerminal) :
    (b.insert i j nt).stride = b.stride := by
  rw [insert]
  split <;> rfl

/-- A word of another span, and another word of the same span, is not touched. -/
theorem word_insert (hij : start < stop) (hj : stop ≤ b.size) (hnt : nt / 64 < b.stride)
    (hkl : k < l) (hl : l ≤ b.size) {w : Nat} (hw : w < b.stride) :
    (b.insert start stop nt).word k l w =
      if (k = start ∧ l = stop) ∧ w = nt / 64 then
        b.word start stop (nt / 64) ||| 1 <<< UInt64.ofNat (nt % 64)
      else b.word k l w := by
  have hplace : b.place start stop (nt / 64) < numCells b.size * b.stride :=
    cellIndex_mul_add_lt hij hj hnt
  have hinsert : (b.insert start stop nt).word k l w =
      ((b.words.setIfInBounds (b.place start stop (nt / 64))
        (b.word start stop (nt / 64) ||| 1 <<< UInt64.ofNat (nt % 64)))[b.place k l w]?).getD 0 := by
    rw [insert, if_pos (covers_iff.2 ⟨hij, hj⟩)]
    rfl
  rw [hinsert, Vector.getElem?_setIfInBounds, if_pos hplace]
  by_cases hsame : b.place start stop (nt / 64) = b.place k l w
  · obtain ⟨⟨rfl, rfl⟩, rfl⟩ := cellIndex_mul_add_inj hij hj hkl hl hnt hw hsame
    rw [if_pos rfl, if_pos ⟨⟨rfl, rfl⟩, rfl⟩, Option.getD_some]
  · rw [if_neg hsame, if_neg, word]
    rintro ⟨⟨rfl, rfl⟩, rfl⟩
    exact hsame rfl

/-- The set of one span has one more member, and all else stays. -/
theorem mem_members_insert (hij : start < stop) (hj : stop ≤ b.size) (hnt : nt / 64 < b.stride)
    (k l : Nat) (A : NonTerminal) :
    A ∈ (b.insert start stop nt).members k l ↔
      A ∈ b.members k l ∨ k = start ∧ l = stop ∧ A = nt := by
  have hword : (b.insert start stop nt).size = b.size ∧ (b.insert start stop nt).stride = b.stride :=
    ⟨size_insert .., stride_insert ..⟩
  simp only [mem_members, hword]
  by_cases hin : (k < l ∧ l ≤ b.size) ∧ A / 64 < b.stride
  · rw [and_iff_right hin.1, and_iff_right hin.1, and_iff_right hin.2, and_iff_right hin.2,
      word_insert hij hj hnt hin.1.1 hin.1.2 hin.2]
    split
    · next hhere =>
      obtain ⟨⟨rfl, rfl⟩, hw⟩ := hhere
      rw [mem_bitsOf_or (Nat.mod_lt nt (by decide)), hw]
      refine or_congr_right ⟨fun hbit => ⟨rfl, rfl, ?_⟩, fun h => congrArg (· % 64) h.2.2⟩
      rw [← Nat.div_add_mod A 64, hw, hbit, Nat.div_add_mod]
    · next hnot =>
      refine (or_iff_left ?_).symm
      rintro ⟨rfl, rfl, rfl⟩
      exact hnot ⟨⟨rfl, rfl⟩, rfl⟩
  · refine iff_of_false (fun h => hin ⟨h.1, h.2.1⟩) (not_or.2 ⟨fun h => hin ⟨h.1, h.2.1⟩, ?_⟩)
    rintro ⟨rfl, rfl, rfl⟩
    exact hin ⟨⟨hij, hj⟩, hnt⟩

end CellBits

end Constituency
