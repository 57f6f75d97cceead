import Mathlib
import Constituency.Chart.Arena

/-!
# Values stay in an arena

Numbers of thirty-two bits have places of their own, so that the place of the next number is always free
(`isFree_locate_next`), and a value is found under its number from the time it is stored, whatever is
stored after it (`get?_push`, `get?_pushAll`).
-/

namespace Constituency

namespace Arena

variable {β : Type}

/-! ## Places -/

theorem bucketSize_eq (bucket : Nat) : bucketSize bucket = 2 ^ (bucket + firstBucketBits) := by
  rw [bucketSize, Nat.one_shiftLeft]

theorem bucketSize_pos (bucket : Nat) : 0 < bucketSize bucket :=
  bucketSize_eq bucket ▸ Nat.two_pow_pos _

theorem biased_ne_zero (id : Nat) : id + bucketSize 0 ≠ 0 := by
  have := bucketSize_pos 0
  omega

theorem locate_fst_add (id : Nat) :
    (locate id).1 + firstBucketBits = (id + bucketSize 0).log2 := by
  have hle : firstBucketBits ≤ (id + bucketSize 0).log2 := by
    rw [Nat.le_log2 (biased_ne_zero id), bucketSize_eq, Nat.zero_add]
    omega
  simp only [locate]
  omega

theorem bucketSize_locate_le (id : Nat) : bucketSize (locate id).1 ≤ id + bucketSize 0 := by
  rw [bucketSize_eq, locate_fst_add]
  exact Nat.log2_self_le (biased_ne_zero id)

theorem locate_add (id : Nat) :
    (locate id).2 + bucketSize (locate id).1 = id + bucketSize 0 := by
  have h := bucketSize_locate_le id
  have hdef : (locate id).2 = id + bucketSize 0 - bucketSize (locate id).1 := rfl
  omega

theorem locate_snd_lt (id : Nat) : (locate id).2 < bucketSize (locate id).1 := by
  have h := locate_add id
  have hlt : id + bucketSize 0 < 2 * bucketSize (locate id).1 := by
    rw [bucketSize_eq (locate id).1, locate_fst_add, ← Nat.pow_succ']
    exact Nat.lt_log2_self
  omega

/-- No two numbers share a place. -/
theorem locate_injective : Function.Injective locate := by
  intro a b h
  have ha := locate_add a
  have hb := locate_add b
  rw [h] at ha
  omega

theorem locate_fst_lt {id : Nat} (h : id < UInt32.size) : (locate id).1 < numBuckets := by
  have hlog : (id + bucketSize 0).log2 < 33 := by
    rw [Nat.log2_lt (biased_ne_zero id), bucketSize_eq]
    simp only [UInt32.size, firstBucketBits] at *
    omega
  rw [← locate_fst_add] at hlog
  simp only [firstBucketBits, numBuckets] at *
  omega

/-- The numbers of thirty-two bits have places of their own in the buckets. -/
theorem locate_toNat_injective : Function.Injective fun id : UInt32 => locate id.toNat :=
  locate_injective.comp fun _ _ => UInt32.toNat_inj.1

/-! ## Storing -/

variable {a : Arena β} {value : β} {place : Nat × Nat}

/-- A place is found in a bucket that has been allocated. -/
theorem exists_place?_allocate (hb : place.1 < numBuckets) (ho : place.2 < bucketSize place.1) :
    ∃ content, place? (a.allocate place.1).buckets place = some content := by
  have hsize : place.1 < a.buckets.size := a.buckets_size ▸ hb
  have hplaces := size_allocated (a.places_size place.1 hsize)
  refine ⟨(allocated place.1 a.buckets[place.1])[place.2], ?_⟩
  rw [allocate, place?_modify, if_pos rfl, Array.getElem?_eq_getElem hsize, Option.bind_some,
    Array.getElem?_eq_getElem (hplaces ▸ ho)]

theorem stored?_allocate (a : Arena β) (bucket : Nat) :
    stored? (a.allocate bucket).buckets place = stored? a.buckets place :=
  stored?_allocated a.buckets bucket place

/-- What is stored at the place of a number that has not been used up yet. -/
theorem stored?_locate_of_le {id : Nat} (h : a.next ≤ id) : stored? a.buckets (locate id) = none := by
  rw [← Option.not_isSome_iff_eq_none]
  intro hstored
  obtain ⟨id', hlt, hplace⟩ := a.exists_lt_next _ hstored
  have := locate_injective hplace
  omega

/-- The place of the next number is free once its bucket has been allocated. -/
theorem isFree_locate_next (h : a.next < UInt32.size) :
    (a.allocate (locate a.next).1).isFree (locate a.next) = true := by
  obtain ⟨content, hcontent⟩ :=
    exists_place?_allocate (a := a) (locate_fst_lt h) (locate_snd_lt a.next)
  have hnone : stored? (a.allocate (locate a.next).1).buckets (locate a.next) = none :=
    stored?_locate_of_le (Nat.le_refl a.next)
  rw [stored?, hcontent, Option.join_some] at hnone
  rw [isFree, hcontent, hnone]

/-- A number that fits is given out, and its place is found free. -/
theorem push_of_lt (h : a.next < UInt32.size) :
    a.push value =
      (some (UInt32.ofNat a.next), (a.allocate (locate a.next).1).put value) := by
  rw [push, if_pos h]
  exact if_pos (isFree_locate_next h)

theorem push_of_not_lt (h : ¬ a.next < UInt32.size) : a.push value = (none, a.skip) := by
  rw [push, if_neg h]

theorem push_eq_some (value : β) (h : a.next < UInt32.size) :
    a.push value = (some (UInt32.ofNat a.next), (a.push value).2) := by
  rw [push_of_lt h]

@[simp] theorem next_push : (a.push value).2.next = a.next + 1 := by
  by_cases h : a.next < UInt32.size
  · rw [push_of_lt h]
    rfl
  · rw [push_of_not_lt h]
    rfl

theorem toNat_ofNat_next (h : a.next < UInt32.size) : (UInt32.ofNat a.next).toNat = a.next :=
  UInt32.toNat_ofNat_of_lt h

theorem stored?_put {content : Option β} (h : place? a.buckets (locate a.next) = some content) :
    stored? (a.put value).buckets place =
      if locate a.next = place then some value else stored? a.buckets place := by
  rw [stored?, put, place?_modify]
  obtain ⟨places, hplaces, hcontent⟩ := Option.bind_eq_some_iff.1 h
  by_cases hbucket : (locate a.next).1 = place.1
  · rw [if_pos hbucket, hplaces, Option.bind_some]
    by_cases hoffset : (locate a.next).2 = place.2
    · have hlt := (Array.getElem?_eq_some_iff.1 hcontent).1
      rw [if_pos (Prod.ext hbucket hoffset), ← hoffset, Array.getElem?_setIfInBounds_self_of_lt hlt,
        Option.join_some]
    · rw [if_neg fun heq => hoffset (congrArg Prod.snd heq),
        Array.getElem?_setIfInBounds_ne hoffset, stored?, place?, ← hbucket, hplaces,
        Option.bind_some]
  · rw [if_neg hbucket, if_neg fun heq => hbucket (congrArg Prod.fst heq), stored?]

/-- What is found after a value has been stored: the value under its number, and what has been found
before under all others. -/
theorem get?_push (h : a.next < UInt32.size) (id : UInt32) :
    (a.push value).2.get? id = if id.toNat = a.next then some value else a.get? id := by
  obtain ⟨content, hcontent⟩ :=
    exists_place?_allocate (a := a) (locate_fst_lt h) (locate_snd_lt a.next)
  rw [push_of_lt h, get?, stored?_put hcontent, stored?_allocate]
  exact if_congr (locate_injective.eq_iff.trans eq_comm) rfl rfl

/-- A value is found under the number that it is given. -/
theorem get?_push_self (h : a.next < UInt32.size) :
    (a.push value).2.get? (UInt32.ofNat a.next) = some value := by
  rw [get?_push h, if_pos (toNat_ofNat_next h)]

/-- To store a value does not touch the others. -/
theorem get?_push_of_lt {id : UInt32} (h : id.toNat < a.next) :
    (a.push value).2.get? id = a.get? id := by
  by_cases hlt : a.next < UInt32.size
  · rw [get?_push hlt, if_neg (Nat.ne_of_lt h)]
  · rw [push_of_not_lt hlt]
    rfl

/-- Nothing is found under a number that has not been used up yet. -/
theorem get?_of_next_le {id : UInt32} (h : a.next ≤ id.toNat) : a.get? id = none :=
  stored?_locate_of_le h

/-! ## Storing many values -/

/-- Stores values one after the other. The answers are the numbers that they are given. -/
def pushAll (a : Arena β) : List β → List (Option UInt32) × Arena β
  | [] => ([], a)
  | value :: rest =>
    let run := (a.push value).2.pushAll rest
    ((a.push value).1 :: run.1, run.2)

variable {values : List β}

/-- The numbers are given in turn as long as they fit. -/
theorem pushAll_ids (h : a.next + values.length ≤ UInt32.size) :
    (a.pushAll values).1 =
      (List.range' a.next values.length).map fun n => some (UInt32.ofNat n) := by
  induction values generalizing a with
  | nil => rfl
  | cons value rest ih =>
    rw [List.length_cons] at h
    have hrest := ih (a := (a.push value).2) (by rw [next_push]; omega)
    rw [next_push] at hrest
    rw [pushAll, hrest, push_eq_some value (by omega), List.length_cons, List.range'_succ,
      List.map_cons]

/-- What is found after some values have been stored: those that had been stored before them, and then each of
them under its number. -/
theorem get?_pushAll (a : Arena β) (values : List β) (id : UInt32) :
    (a.pushAll values).2.get? id =
      if id.toNat < a.next then a.get? id else values[id.toNat - a.next]? := by
  induction values generalizing a with
  | nil =>
    split
    · rfl
    · next h => exact get?_of_next_le (Nat.not_lt.1 h)
  | cons value rest ih =>
    rw [pushAll, ih, next_push]
    rcases Nat.lt_trichotomy id.toNat a.next with hlt | heq | hgt
    · rw [if_pos (Nat.lt_succ_of_lt hlt), if_pos hlt, get?_push_of_lt hlt]
    · have hfits : a.next < UInt32.size := heq ▸ id.toNat_lt
      rw [if_pos (by omega), if_neg (by omega), get?_push hfits, if_pos heq, heq, Nat.sub_self,
        List.getElem?_cons_zero]
    · rw [if_neg (by omega), if_neg (by omega),
        show id.toNat - a.next = id.toNat - (a.next + 1) + 1 by omega, List.getElem?_cons_succ]

/-- Every number of thirty-two bits has a place of its own in one of the buckets. Values that are stored one
after the other get the numbers from zero on, up to the last one of thirty-two bits, and under each number the
value is found that has been stored under it, and nothing if there has been none yet. -/
theorem pushAll_addressed (values : List β) :
    (∀ id : UInt32, (locate id.toNat).1 < numBuckets ∧
      (locate id.toNat).2 < bucketSize (locate id.toNat).1) ∧
    (Function.Injective fun id : UInt32 => locate id.toNat) ∧
    (values.length ≤ UInt32.size →
      ((empty : Arena β).pushAll values).1 =
        (List.range values.length).map fun n => some (UInt32.ofNat n)) ∧
    ∀ id : UInt32, ((empty : Arena β).pushAll values).2.get? id = values[id.toNat]? := by
  refine ⟨fun id => ⟨locate_fst_lt id.toNat_lt, locate_snd_lt id.toNat⟩, locate_toNat_injective,
    fun h => ?_, fun id => ?_⟩
  · rw [List.range_eq_range']
    exact pushAll_ids ((Nat.zero_add _).trans_le h)
  · have hall : ¬ id.toNat < (empty : Arena β).next := Nat.not_lt_zero _
    rw [get?_pushAll, if_neg hall]
    rfl

/-- Thirty-three values fill the first bucket and begin the second one. The last number of thirty-two bits has a
place in the last bucket. -/
theorem pushAll_addressed_two_buckets :
    (List.range 33).length ≤ UInt32.size ∧
      ((empty : Arena Nat).pushAll (List.range 33)).1[32]? = some (some 32) ∧
      (locate 31 = (0, 31) ∧ locate 32 = (1, 0)) ∧
      (((empty : Arena Nat).pushAll (List.range 33)).2.get? 31 = some 31 ∧
        ((empty : Arena Nat).pushAll (List.range 33)).2.get? 32 = some 32) ∧
      ((empty : Arena Nat).pushAll (List.range 33)).2.get? 33 = none ∧
      locate 4294967295 = (27, 31) ∧ 27 < numBuckets ∧ 31 < bucketSize 27 := by
  obtain ⟨hplace, -, hids, hget⟩ := pushAll_addressed (List.range 33)
  have hfits : (List.range 33).length ≤ UInt32.size := by decide
  have hlast : locate 4294967295 = (27, 31) := by decide
  have hbounds := hplace 4294967295
  rw [show (4294967295 : UInt32).toNat = 4294967295 from rfl, hlast] at hbounds
  refine ⟨hfits, ?_, ⟨by decide, by decide⟩, ⟨(hget 31).trans (by decide), (hget 32).trans (by decide)⟩,
    (hget 33).trans (by decide), hlast, hbounds⟩
  rw [hids hfits]
  decide

end Arena

end Constituency
