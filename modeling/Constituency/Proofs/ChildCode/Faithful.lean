import Constituency.Chart.Entry
import Constituency.Proofs.ChildCode
import Mathlib

/-!
# Codes are faithful

Between the integers that are codes and the children of rules, coding and decoding undo each other: the
code of a pair is a number in base `2 ^ shift`, and below zero a child or a word stands behind every odd or
even number (`decode_encode`, `encode_decode`). Nothing overflows on the way. To say so, coding and decoding
are done once more in unbounded integers, with a check that each step stays a signed number of thirty-two
bits (`encodeExactly?_eq`, `decodeExactly?_eq`). The least of these numbers is no code: it has no opposite.
-/

namespace Constituency

namespace ChildCode

variable {c : ChildCode} {left right child word : Nat} {code : Int32}

/-! ## The size of a code -/

theorem shiftFor_le_iff {count : Nat} : shiftFor count ≤ maxShift ↔ count ≤ 2 ^ 15 := by
  rw [maxShift, shiftFor]
  split
  · next hfew => exact iff_of_true (by decide) (Nat.le_trans hfew (by decide))
  · have hlog : (count - 1).log2 < 15 ↔ count - 1 < 2 ^ 15 := Nat.log2_lt (by omega)
    omega

/-- There is a code for as many non-terminals as take fifteen bits. -/
theorem isSome_forSymbols? (count : Nat) :
    (forSymbols? count).isSome = true ↔ count ≤ 2 ^ 15 := by
  rw [← shiftFor_le_iff, forSymbols?]
  split
  · next hle => exact iff_of_true rfl hle
  · next hgt => exact iff_of_false Bool.false_ne_true hgt

theorem two_pow_shift_le (c : ChildCode) : 2 ^ c.shift ≤ 2 ^ 15 :=
  Nat.pow_le_pow_right Nat.two_pos c.shift_le

/-! ## Codes as integers -/

theorem toInt_one_shiftLeft {n : Nat} (h : n ≤ 30) :
    ((1 : Int32) <<< Int32.ofNat n).toInt = (2 ^ n : Nat) := by
  have hsmall : ∀ k : Fin 31, ((1 : Int32) <<< Int32.ofNat k).toInt = (2 ^ (k : Nat) : Nat) := by
    decide
  exact hsmall ⟨n, Nat.lt_succ_of_le h⟩

theorem toInt_binaryLimit (c : ChildCode) : c.binaryLimit.toInt = (2 ^ (2 * c.shift) : Nat) :=
  toInt_one_shiftLeft (Nat.mul_le_mul_left 2 c.shift_le)

theorem toInt_mask (c : ChildCode) : c.mask.toInt = (2 ^ c.shift - 1 : Nat) := by
  have hbits := c.two_pow_shift_le
  have hpos := Nat.two_pow_pos c.shift
  have hone : (1 : Int32).toInt = 1 := by decide
  rw [mask, Int32.toInt_sub, toInt_one_shiftLeft (Nat.le_trans c.shift_le (by decide)), hone,
    Int.bmod_eq_of_le (by omega) (by omega)]
  omega

theorem toInt_ofPair (hleft : left < 2 ^ c.shift) (hright : right < 2 ^ c.shift) :
    (c.ofPair left right).toInt = (left * 2 ^ c.shift + right : Nat) := by
  have hbits := c.two_pow_shift_le
  have hpair : left * 2 ^ c.shift + right < 2 ^ 15 * 2 ^ 15 :=
    calc left * 2 ^ c.shift + right < (left + 1) * 2 ^ c.shift := by
          rw [Nat.succ_mul]
          omega
      _ ≤ 2 ^ 15 * 2 ^ 15 := Nat.mul_le_mul (by omega) hbits
  have hcode := toNat_ofPair (c := c) (Nat.one_shiftLeft _ ▸ hleft) (Nat.one_shiftLeft _ ▸ hright)
  rw [Nat.shiftLeft_eq] at hcode
  rw [← Int32.toInt_toBitVec, BitVec.toInt_eq_toNat_of_lt (by rw [hcode]; omega), hcode]

theorem toInt_double {n : Nat} (h : n < 2 ^ 30) : (-2 * Int32.ofNat n).toInt = -2 * n := by
  have htwo : (-2 : Int32).toInt = -2 := by decide
  rw [Int32.toInt_mul, htwo, Int32.toInt_ofNat_of_lt (by omega)]
  exact Int.bmod_eq_of_le (by omega) (by omega)

theorem toInt_ofUnary (h : child < 2 ^ 30) : (ofUnary child).toInt = -2 * child - 1 := by
  have hone : (1 : Int32).toInt = 1 := by decide
  rw [ofUnary, Int32.toInt_sub, toInt_double h, hone]
  exact Int.bmod_eq_of_le (by omega) (by omega)

theorem toInt_ofLexical (h : word < 2 ^ 30) : (ofLexical word).toInt = -2 * word - 2 := by
  have htwo : (2 : Int32).toInt = 2 := by decide
  rw [ofLexical, Int32.toInt_sub, toInt_double h, htwo]
  exact Int.bmod_eq_of_le (by omega) (by omega)

/-! ## What a code stands for -/

theorem toNat_toUInt32 {x : Int32} (h : 0 ≤ x.toInt) : x.toUInt32.toNat = x.toInt.toNat := by
  have hcond := BitVec.toInt_eq_toNat_cond x.toBitVec
  have hlt := x.toBitVec.isLt
  rw [Int32.toInt_toBitVec] at hcond
  rw [← UInt32.toNat_toBitVec, Int32.toBitVec_toUInt32]
  split at hcond <;> omega

theorem toNat_toBitVec {x : Int32} (h : 0 ≤ x.toInt) : x.toBitVec.toNat = x.toInt.toNat := by
  rw [← toNat_toUInt32 h, ← UInt32.toNat_toBitVec, Int32.toBitVec_toUInt32]

theorem zero_le_iff : 0 ≤ code ↔ 0 ≤ code.toInt := Int32.le_iff_toInt_le

/-- The lowest bit of a code tells whether it is odd. -/
theorem and_one_ne_zero_iff : (code &&& 1 != 0) = true ↔ code.toInt % 2 = 1 := by
  have hcond := BitVec.toInt_eq_toNat_cond code.toBitVec
  have hbit : (code &&& 1).toBitVec.toNat = code.toBitVec.toNat % 2 := by
    rw [Int32.toBitVec_and, BitVec.toNat_and]
    exact Nat.and_two_pow_sub_one_eq_mod _ 1
  have hzero : code &&& 1 = 0 ↔ code.toBitVec.toNat % 2 = 0 := by
    rw [← hbit, ← Int32.toBitVec_inj, ← BitVec.toNat_inj]
    rfl
  rw [bne_iff_ne, ne_eq, hzero, ← Int32.toInt_toBitVec]
  split at hcond <;> omega

theorem toInt_shiftRight (c : ChildCode) (code : Int32) :
    (code >>> Int32.ofNat c.shift).toInt = code.toInt / (2 ^ c.shift : Nat) := by
  rw [← Int32.toInt_toBitVec, Int32.toBitVec_shiftRight, BitVec.sshiftRight',
    BitVec.toInt_sshiftRight, toNat_smod_of_le c.shift_le, Int.shiftRight_eq_div_pow,
    Int32.toInt_toBitVec]

theorem toInt_and_mask (h : 0 ≤ code.toInt) :
    (code &&& c.mask).toInt = code.toInt % (2 ^ c.shift : Nat) := by
  have hbits := c.two_pow_shift_le
  have hpos := Nat.two_pow_pos c.shift
  have hmask : c.mask.toBitVec.toNat = 2 ^ c.shift - 1 := by
    rw [toNat_toBitVec (c.toInt_mask ▸ Int.natCast_nonneg _), c.toInt_mask, Int.toNat_natCast]
  have hcode : (code &&& c.mask).toBitVec.toNat = code.toInt.toNat % 2 ^ c.shift := by
    rw [Int32.toBitVec_and, BitVec.toNat_and, hmask, Nat.and_two_pow_sub_one_eq_mod,
      toNat_toBitVec h]
  have hlt : code.toInt.toNat % 2 ^ c.shift < 2 ^ c.shift := Nat.mod_lt _ hpos
  rw [← Int32.toInt_toBitVec, BitVec.toInt_eq_toNat_of_lt (by omega), hcode, Int.natCast_emod,
    Int.toNat_of_nonneg h]

theorem decode_binary (h : 0 ≤ code.toInt) :
    c.decode code = .binary (code >>> Int32.ofNat c.shift).toUInt32.toNat
      (code &&& c.mask).toUInt32.toNat := by
  have hright := toInt_and_mask (c := c) h
  have hmod : 0 ≤ code.toInt % (2 ^ c.shift : Nat) :=
    Int.emod_nonneg _ (Int.natCast_ne_zero.2 (Nat.pos_iff_ne_zero.1 (Nat.two_pow_pos _)))
  have hmarks : unaryMark.toInt = -1 ∧ lexicalMark.toInt = -2 := by decide
  have hunary : code &&& c.mask ≠ unaryMark := by
    intro heq
    rw [heq] at hright
    omega
  have hlexical : code &&& c.mask ≠ lexicalMark := by
    intro heq
    rw [heq] at hright
    omega
  rw [decode, ChildCode.left, ChildCode.right, if_pos (zero_le_iff.2 h), if_pos (zero_le_iff.2 h)]
  simp only [beq_eq_false_iff_ne.2 hunary, beq_eq_false_iff_ne.2 hlexical, Bool.false_eq_true,
    if_false]

/-- A code that is not negative is that of a pair. -/
theorem decode_of_nonneg (h : 0 ≤ code.toInt) :
    c.decode code = .binary (code.toInt.toNat / 2 ^ c.shift) (code.toInt.toNat % 2 ^ c.shift) := by
  obtain ⟨n, hn⟩ := Int.eq_ofNat_of_zero_le h
  have hleft : (code >>> Int32.ofNat c.shift).toInt = (n / 2 ^ c.shift : Nat) := by
    rw [toInt_shiftRight, hn, ← Int.natCast_ediv]
  have hright : (code &&& c.mask).toInt = (n % 2 ^ c.shift : Nat) := by
    rw [toInt_and_mask h, hn, ← Int.natCast_emod]
  rw [decode_binary h, toNat_toUInt32 (hleft ▸ Int.natCast_nonneg _),
    toNat_toUInt32 (hright ▸ Int.natCast_nonneg _), hleft, hright, hn, Int.toNat_natCast,
    Int.toNat_natCast]
  rfl

section Negative

variable (hlow : -2 ^ 31 < code.toInt)

include hlow

theorem toInt_neg_code : (-code).toInt = -code.toInt := by
  have hlt := code.toInt_lt
  rw [Int32.toInt_neg]
  exact Int.bmod_eq_of_le (by omega) (by omega)

/-- What is left of a negative code without the number that tells its kind. -/
theorem toInt_neg_sub {kind : Int32} (hkind : kind.toInt = 1 ∨ kind.toInt = 2)
    (hle : code.toInt + kind.toInt ≤ 0) : (-code - kind).toInt = -code.toInt - kind.toInt := by
  rw [Int32.toInt_sub, toInt_neg_code hlow]
  exact Int.bmod_eq_of_le (by omega) (by omega)

theorem toInt_half {kind : Int32} (hkind : kind.toInt = 1 ∨ kind.toInt = 2)
    (hle : code.toInt + kind.toInt ≤ 0) :
    ((-code - kind) / 2).toInt = (-code.toInt - kind.toInt) / 2 := by
  have htwo : (2 : Int32).toInt = 2 := by decide
  rw [Int32.toInt_div, toInt_neg_sub hlow hkind hle, htwo, Int.tdiv_eq_ediv_of_nonneg (by omega)]
  exact Int.bmod_eq_of_le (by omega) (by omega)

omit hlow in
theorem decode_unary (hneg : code.toInt < 0) (hodd : code.toInt % 2 = 1) :
    c.decode code = .unary ((-code - 1) / 2).toUInt32.toNat := by
  have hnot : ¬ 0 ≤ code := by
    rw [zero_le_iff]
    omega
  rw [decode, ChildCode.left, ChildCode.right, if_neg hnot, if_neg hnot,
    if_pos (and_one_ne_zero_iff.2 hodd), if_pos (and_one_ne_zero_iff.2 hodd)]
  rfl

omit hlow in
theorem decode_lexical (hneg : code.toInt < 0) (heven : code.toInt % 2 = 0) :
    c.decode code = .lexical ((-code - 2) / 2).toUInt32.toNat := by
  have hnot : ¬ 0 ≤ code := by
    rw [zero_le_iff]
    omega
  have hbit : ¬ (code &&& 1 != 0) = true := by
    rw [and_one_ne_zero_iff]
    omega
  rw [decode, ChildCode.left, ChildCode.right, if_neg hnot, if_neg hnot, if_neg hbit, if_neg hbit]
  rfl

/-- A negative code that is odd is that of a single child. -/
theorem decode_of_odd (hneg : code.toInt < 0) (hodd : code.toInt % 2 = 1) :
    c.decode code = .unary ((-code.toInt - 1) / 2).toNat := by
  have hkind : (1 : Int32).toInt = 1 := by decide
  have hhalf : ((-code - 1) / 2).toInt = (-code.toInt - (1 : Int32).toInt) / 2 :=
    toInt_half hlow (.inl hkind) (by omega)
  rw [hkind] at hhalf
  rw [decode_unary hneg hodd, toNat_toUInt32 (by omega), hhalf]

/-- A negative code that is even is that of a word. -/
theorem decode_of_even (hneg : code.toInt < 0) (heven : code.toInt % 2 = 0) :
    c.decode code = .lexical ((-code.toInt - 2) / 2).toNat := by
  have hkind : (2 : Int32).toInt = 2 := by decide
  have hhalf : ((-code - 2) / 2).toInt = (-code.toInt - (2 : Int32).toInt) / 2 :=
    toInt_half hlow (.inr hkind) (by omega)
  rw [hkind] at hhalf
  rw [decode_lexical hneg heven, toNat_toUInt32 (by omega), hhalf]

end Negative

/-! ## Codes and children -/

/-- The number of words that have a code. -/
def maxWords : Nat := 2 ^ 30 - 1

/-- A non-terminal that the bits of a code hold has room where words have. -/
theorem lt_maxWords (h : child < 2 ^ c.shift) : child < maxWords := by
  have hbits := c.two_pow_shift_le
  rw [maxWords]
  omega

/-- The integers that are codes: those of pairs from zero up to the limit, and those of single children
and words below zero, but for the least integer. -/
def IsCode (c : ChildCode) (code : Int32) : Prop :=
  (0 ≤ code ∧ code < c.binaryLimit) ∨ (Int32.minValue < code ∧ code < 0)

theorem isCode_iff : c.IsCode code ↔
    (0 ≤ code.toInt ∧ code.toInt < (2 ^ (2 * c.shift) : Nat)) ∨
      (-2 ^ 31 < code.toInt ∧ code.toInt < 0) := by
  rw [IsCode, Int32.le_iff_toInt_le, Int32.lt_iff_toInt_lt, Int32.lt_iff_toInt_lt,
    Int32.lt_iff_toInt_lt, toInt_binaryLimit]
  rfl

theorem mul_add_lt (hleft : left < 2 ^ c.shift) (hright : right < 2 ^ c.shift) :
    left * 2 ^ c.shift + right < 2 ^ (2 * c.shift) :=
  calc left * 2 ^ c.shift + right < (left + 1) * 2 ^ c.shift := by
        rw [Nat.succ_mul]
        omega
    _ ≤ 2 ^ c.shift * 2 ^ c.shift := Nat.mul_le_mul_right _ hleft
    _ = 2 ^ (2 * c.shift) := by rw [← Nat.pow_add, Nat.two_mul]

theorem decode_ofPair (hleft : left < 2 ^ c.shift) (hright : right < 2 ^ c.shift) :
    c.decode (c.ofPair left right) = .binary left right := by
  have hpair := toInt_ofPair hleft hright
  rw [decode_of_nonneg (hpair ▸ Int.natCast_nonneg _), hpair, Int.toNat_natCast,
    Nat.mul_comm left, Nat.mul_add_div (Nat.two_pow_pos _), Nat.div_eq_of_lt hright,
    Nat.mul_add_mod, Nat.mod_eq_of_lt hright, Nat.add_zero]

theorem decode_ofUnary (h : child < maxWords) : c.decode (ofUnary child) = .unary child := by
  rw [maxWords] at h
  have hcode : (ofUnary child).toInt = -2 * child - 1 := toInt_ofUnary (by omega)
  have hhalf : ((-(ofUnary child).toInt - 1) / 2).toNat = child := by omega
  rw [decode_of_odd (by omega) (by omega) (by omega), hhalf]

theorem decode_ofLexical (h : word < maxWords) : c.decode (ofLexical word) = .lexical word := by
  rw [maxWords] at h
  have hcode : (ofLexical word).toInt = -2 * word - 2 := toInt_ofLexical (by omega)
  have hhalf : ((-(ofLexical word).toInt - 2) / 2).toNat = word := by omega
  rw [decode_of_even (by omega) (by omega) (by omega), hhalf]

/-- The children of a rule are read back from their code, which is that of nothing else. -/
theorem decode_encode {children : Children} (h : children.InRange (2 ^ c.shift) maxWords) :
    c.decode (c.encode children) = children := by
  cases children with
  | binary left right => exact decode_ofPair h.1 h.2
  | unary child => exact decode_ofUnary (lt_maxWords h)
  | lexical word => exact decode_ofLexical h

/-- Every code is that of the children that are read from it. -/
theorem encode_decode (h : c.IsCode code) : c.encode (c.decode code) = code := by
  rw [isCode_iff] at h
  have hpos := Nat.two_pow_pos c.shift
  rcases h with ⟨hnonneg, hlimit⟩ | ⟨hlow, hneg⟩
  · obtain ⟨n, hn⟩ := Int.eq_ofNat_of_zero_le hnonneg
    rw [hn, Int.ofNat_lt, Nat.two_mul, Nat.pow_add] at hlimit
    rw [decode_of_nonneg hnonneg, encode, ← Int32.toInt_inj, hn, Int.toNat_natCast,
      toInt_ofPair (Nat.div_lt_of_lt_mul hlimit) (Nat.mod_lt _ hpos), Nat.div_add_mod']
  · rcases Int.emod_two_eq code.toInt with heven | hodd
    · rw [decode_of_even hlow hneg heven, encode, ← Int32.toInt_inj, toInt_ofLexical (by omega)]
      omega
    · rw [decode_of_odd hlow hneg hodd, encode, ← Int32.toInt_inj, toInt_ofUnary (by omega)]
      omega

/-! ## Exact steps -/

/-- The signed number of thirty-two bits that has a value, if there is one. -/
def asInt32? (value : Int) : Option Int32 :=
  if -2 ^ 31 ≤ value ∧ value < 2 ^ 31 then some (.ofInt value) else none

theorem asInt32?_eq {x : Int32} {value : Int} (h : x.toInt = value) : asInt32? value = some x := by
  have hlow := x.le_toInt
  have hhigh := x.toInt_lt
  rw [asInt32?, ← h, if_pos ⟨hlow, hhigh⟩, Int32.ofInt_toInt]

/-- The code of some children as long as each step of its computation has its exact value. -/
def encodeExactly? (c : ChildCode) : Children → Option Int32
  | .binary left right => do
    let left ← asInt32? left
    let right ← asInt32? right
    let above ← asInt32? (left.toInt * (2 ^ c.shift : Nat))
    return above ||| right
  | .unary child => do
    let child ← asInt32? child
    let double ← asInt32? (-2 * child.toInt)
    asInt32? (double.toInt - 1)
  | .lexical word => do
    let word ← asInt32? word
    let double ← asInt32? (-2 * word.toInt)
    asInt32? (double.toInt - 2)

/-- The children behind a code as long as each step of the computation has its exact value. -/
def decodeExactly? (c : ChildCode) (code : Int32) : Option Children :=
  if 0 ≤ code then do
    let left ← asInt32? (code.toInt / (2 ^ c.shift : Nat))
    return .binary left.toUInt32.toNat (code &&& c.mask).toUInt32.toNat
  else do
    let opposite ← asInt32? (-code.toInt)
    if code &&& 1 != 0 then
      let double ← asInt32? (opposite.toInt - 1)
      let child ← asInt32? (double.toInt.tdiv 2)
      return .unary child.toUInt32.toNat
    else
      let double ← asInt32? (opposite.toInt - 2)
      let word ← asInt32? (double.toInt.tdiv 2)
      return .lexical word.toUInt32.toNat

theorem asInt32?_ofNat {n : Nat} (h : n < 2 ^ 30) : asInt32? n = some (Int32.ofNat n) :=
  asInt32?_eq (Int32.toInt_ofNat_of_lt (by omega))

theorem asInt32?_double {n : Nat} (h : n < 2 ^ 30) :
    asInt32? (-2 * (Int32.ofNat n).toInt) = some (-2 * Int32.ofNat n) := by
  refine asInt32?_eq ?_
  rw [toInt_double h, Int32.toInt_ofNat_of_lt (by omega)]

theorem asInt32?_above (h : left < 2 ^ c.shift) :
    asInt32? ((Int32.ofNat left).toInt * (2 ^ c.shift : Nat)) =
      some (Int32.ofNat left <<< Int32.ofNat c.shift) := by
  have hbits := c.two_pow_shift_le
  have hpair : (c.ofPair left 0).toInt = (left * 2 ^ c.shift + 0 : Nat) :=
    toInt_ofPair h (Nat.two_pow_pos _)
  have hor : c.ofPair left 0 = Int32.ofNat left <<< Int32.ofNat c.shift := Int32.or_zero
  refine asInt32?_eq ?_
  rw [← hor, hpair, Int32.toInt_ofNat_of_lt (by omega), Nat.add_zero, Int.natCast_mul]

theorem encodeExactly?_binary (hleft : left < 2 ^ c.shift) (hright : right < 2 ^ c.shift) :
    c.encodeExactly? (.binary left right) = some (c.ofPair left right) := by
  have hbits := c.two_pow_shift_le
  simp only [encodeExactly?, asInt32?_ofNat (n := left) (by omega), asInt32?_ofNat (n := right) (by omega),
    asInt32?_above hleft, Option.bind_eq_bind, Option.bind_some, Option.pure_def, ofPair]

theorem encodeExactly?_unary (h : child < 2 ^ 30) :
    c.encodeExactly? (.unary child) = some (ofUnary child) := by
  have hcode : asInt32? ((-2 * Int32.ofNat child).toInt - 1) = some (ofUnary child) :=
    asInt32?_eq (by rw [toInt_ofUnary h, toInt_double h])
  simp only [encodeExactly?, asInt32?_ofNat h, asInt32?_double h, hcode, Option.bind_eq_bind,
    Option.bind_some]

theorem encodeExactly?_lexical (h : word < 2 ^ 30) :
    c.encodeExactly? (.lexical word) = some (ofLexical word) := by
  have hcode : asInt32? ((-2 * Int32.ofNat word).toInt - 2) = some (ofLexical word) :=
    asInt32?_eq (by rw [toInt_ofLexical h, toInt_double h])
  simp only [encodeExactly?, asInt32?_ofNat h, asInt32?_double h, hcode, Option.bind_eq_bind,
    Option.bind_some]

/-- No step of coding overflows. -/
theorem encodeExactly?_eq {children : Children} (h : children.InRange (2 ^ c.shift) maxWords) :
    c.encodeExactly? children = some (c.encode children) := by
  cases children with
  | binary left right => exact encodeExactly?_binary h.1 h.2
  | unary child =>
    exact encodeExactly?_unary
      (Nat.lt_of_lt_of_le h (Nat.le_trans c.two_pow_shift_le (by decide)))
  | lexical word => exact encodeExactly?_lexical (Nat.lt_trans h (by decide))

/-- The steps from a negative code to the child or word behind it. -/
theorem asInt32?_half (hlow : -2 ^ 31 < code.toInt) {kind : Int32}
    (hkind : kind.toInt = 1 ∨ kind.toInt = 2) (hle : code.toInt + kind.toInt ≤ 0) :
    asInt32? ((-code).toInt - kind.toInt) = some (-code - kind) ∧
      asInt32? ((-code - kind).toInt.tdiv 2) = some ((-code - kind) / 2) := by
  have hdouble := toInt_neg_sub hlow hkind hle
  refine ⟨asInt32?_eq (by rw [hdouble, toInt_neg_code hlow]), asInt32?_eq ?_⟩
  rw [toInt_half hlow hkind hle, hdouble, Int.tdiv_eq_ediv_of_nonneg (by omega)]

/-- No step of decoding overflows. -/
theorem decodeExactly?_eq (h : c.IsCode code) : c.decodeExactly? code = some (c.decode code) := by
  rw [isCode_iff] at h
  rcases h with ⟨hnonneg, -⟩ | ⟨hlow, hneg⟩
  · have hleft : asInt32? (code.toInt / (2 ^ c.shift : Nat)) =
        some (code >>> Int32.ofNat c.shift) := asInt32?_eq (toInt_shiftRight c code)
    rw [decodeExactly?, if_pos (zero_le_iff.2 hnonneg), hleft, decode_binary hnonneg]
    rfl
  · have hnot : ¬ 0 ≤ code := by
      rw [zero_le_iff]
      omega
    have hopposite : asInt32? (-code.toInt) = some (-code) := asInt32?_eq (toInt_neg_code hlow)
    rw [decodeExactly?, if_neg hnot, hopposite, Option.bind_eq_bind, Option.bind_some]
    rcases Int.emod_two_eq code.toInt with heven | hodd
    · have hkind : (2 : Int32).toInt = 2 := by decide
      obtain ⟨hdouble, hword⟩ := asInt32?_half hlow (.inr hkind) (by omega)
      rw [hkind] at hdouble
      have hbit : ¬ (code &&& 1 != 0) = true := by
        rw [and_one_ne_zero_iff]
        omega
      rw [if_neg hbit, hdouble, Option.bind_some, hword, decode_lexical hneg heven]
      rfl
    · have hkind : (1 : Int32).toInt = 1 := by decide
      obtain ⟨hdouble, hchild⟩ := asInt32?_half hlow (.inl hkind) (by omega)
      rw [hkind] at hdouble
      rw [if_pos (and_one_ne_zero_iff.2 hodd), hdouble, Option.bind_some, hchild,
        decode_unary hneg hodd]
      rfl

theorem isCode_ofPair (hleft : left < 2 ^ c.shift) (hright : right < 2 ^ c.shift) :
    0 ≤ c.ofPair left right ∧ c.ofPair left right < c.binaryLimit := by
  have hpair := toInt_ofPair hleft hright
  rw [Int32.le_iff_toInt_le, Int32.lt_iff_toInt_lt, toInt_binaryLimit, hpair]
  exact ⟨Int.natCast_nonneg _, Int.ofNat_lt.2 (mul_add_lt hleft hright)⟩

theorem isCode_ofUnary (h : child < maxWords) : c.IsCode (ofUnary child) := by
  rw [maxWords] at h
  rw [isCode_iff, toInt_ofUnary (by omega)]
  omega

theorem isCode_ofLexical (h : word < maxWords) : c.IsCode (ofLexical word) := by
  rw [maxWords] at h
  rw [isCode_iff, toInt_ofLexical (by omega)]
  omega

theorem isCode_encode {children : Children} (h : children.InRange (2 ^ c.shift) maxWords) :
    c.IsCode (c.encode children) := by
  cases children with
  | binary left right => exact .inl (isCode_ofPair h.1 h.2)
  | unary child =>
    exact isCode_ofUnary (lt_maxWords h)
  | lexical word => exact isCode_ofLexical h

end ChildCode

/-! ## Backpointers -/

/-- A backpointer is read back from what is stored of it. -/
theorem Backpointer.decode_encode {c : ChildCode} {b : Backpointer}
    (hb : b.children.InRange (2 ^ c.shift) ChildCode.maxWords)
    (hmidpoint : ∀ left right (m : Nat), b = .binary left right m → m < 2 ^ 32) (stop : Nat) :
    decode c (b.encode c stop).1 (b.encode c stop).2 = b := by
  rw [decode, encode, ChildCode.decode_encode hb]
  cases b with
  | lexical word => rfl
  | unary child => rfl
  | binary left right m =>
    have hm : (UInt32.ofNat m).toNat = m := UInt32.toNat_ofNat_of_lt' (hmidpoint left right m rfl)
    simp only [midpoint, children, ofChildren, hm]

namespace ChildCode

/-- What a code is good for, if it is one for `count` non-terminals. -/
structure Faithful (c : ChildCode) (count : Nat) : Prop where
  /-- Pairs are coded from zero up to the limit. -/
  pair : ∀ left right : Nat, left < count → right < count →
    (0 ≤ c.ofPair left right ∧ c.ofPair left right < c.binaryLimit) ∧
      c.decode (c.ofPair left right) = .binary left right
  unary : ∀ child : Nat, child < count → c.decode (ofUnary child) = .unary child
  lexical : ∀ word : Nat, word ≤ 2 ^ 30 - 2 → c.decode (ofLexical word) = .lexical word
  /-- The two numbers that belong to the code itself have their exact values. -/
  constants : c.mask.toInt = (2 ^ c.shift - 1 : Nat) ∧ c.binaryLimit.toInt = (2 ^ (2 * c.shift) : Nat)
  /-- No step overflows, neither of coding nor of decoding. -/
  exact_children : ∀ children : Children, children.InRange count maxWords →
    c.encodeExactly? children = some (c.encode children) ∧
      c.decodeExactly? (c.encode children) = some children
  /-- Every code is that of the children behind it, and no step on the way to them overflows. -/
  exact_code : ∀ code, c.IsCode code →
    c.encode (c.decode code) = code ∧ c.decodeExactly? code = some (c.decode code)
  /-- Different children have different codes, whatever their kinds. -/
  injective : ∀ first second : Children, first.InRange count maxWords →
    second.InRange count maxWords → c.encode first = c.encode second → first = second
  /-- Backpointers are read back from what is stored of them. -/
  backpointer : ∀ (b : Backpointer) (stop : Nat), b.children.InRange count maxWords →
    (∀ left right (midpoint : Nat), b = .binary left right midpoint → midpoint < 2 ^ 32) →
    Backpointer.decode c (b.encode c stop).1 (b.encode c stop).2 = b

/-- There is a code for up to `2 ^ 15` non-terminals and for no more, and it is faithful. -/
theorem forSymbols?_faithful :
    (∀ count, (forSymbols? count).isSome = true ↔ count ≤ 2 ^ 15) ∧
      ∀ count c, forSymbols? count = some c → c.Faithful count := by
  refine ⟨isSome_forSymbols?, fun count c hc => ?_⟩
  have hcount : count ≤ 2 ^ c.shift := Nat.one_shiftLeft _ ▸ le_of_forSymbols? hc
  have hrange : ∀ children : Children, children.InRange count maxWords →
      children.InRange (2 ^ c.shift) maxWords := fun _ h => h.mono hcount (Nat.le_refl _)
  exact
    { pair := fun left right hleft hright =>
        ⟨isCode_ofPair (Nat.lt_of_lt_of_le hleft hcount) (Nat.lt_of_lt_of_le hright hcount),
          decode_ofPair (Nat.lt_of_lt_of_le hleft hcount) (Nat.lt_of_lt_of_le hright hcount)⟩
      unary := fun child hchild =>
        decode_ofUnary (lt_maxWords (Nat.lt_of_lt_of_le hchild hcount))
      lexical := fun word hword => decode_ofLexical (by
          rw [maxWords]
          omega)
      constants := ⟨c.toInt_mask, c.toInt_binaryLimit⟩
      exact_children := fun children h =>
        ⟨encodeExactly?_eq (hrange children h), by
          rw [decodeExactly?_eq (isCode_encode (hrange children h)), decode_encode (hrange children h)]⟩
      exact_code := fun code h => ⟨encode_decode h, decodeExactly?_eq h⟩
      injective := fun first second hfirst hsecond heq => by
        rw [← decode_encode (hrange first hfirst), heq, decode_encode (hrange second hsecond)]
      backpointer := fun b stop hb hmidpoint =>
        Backpointer.decode_encode (hrange b.children hb) hmidpoint stop }

/-- The code with the most bits. -/
def widest : ChildCode := ⟨maxShift, Nat.le_refl _⟩

/-- The last pair, the last word and the last code of as many non-terminals as possible. -/
theorem widest_faithful :
    forSymbols? 32768 = some widest ∧ widest.Faithful 32768 ∧
      widest.decode (widest.ofPair 32767 32767) = .binary 32767 32767 ∧
      widest.decode (ofLexical 1073741822) = .lexical 1073741822 ∧
      widest.encode (widest.decode (-2147483647)) = -2147483647 := by
  have hsome : forSymbols? 32768 = some widest := rfl
  have hfaithful := forSymbols?_faithful.2 32768 widest hsome
  exact ⟨hsome, hfaithful, (hfaithful.pair _ _ (by decide) (by decide)).2,
    hfaithful.lexical _ (by decide), (hfaithful.exact_code _ (.inr (by decide))).1⟩

end ChildCode

end Constituency
