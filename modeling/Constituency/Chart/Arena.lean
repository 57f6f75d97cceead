/-!
# Arenas

An append-only store that numbers its values in turn. The values stand in buckets, each twice as
long as the one before it, so that a value never moves once it is stored.
-/

namespace Constituency

namespace Arena

/-- The first bucket has two to this power many places. -/
def firstBucketBits : Nat := 5

/-- The number of buckets, enough for all 32-bit numbers. -/
def numBuckets : Nat := 28

/-- The number of places in a bucket. -/
def bucketSize (bucket : Nat) : Nat :=
  1 <<< (bucket + firstBucketBits)

/-- The bucket of a number and the place in it. -/
def locate (id : Nat) : Nat × Nat :=
  let biased := id + bucketSize 0
  let bucket := biased.log2 - firstBucketBits
  (bucket, biased - bucketSize bucket)

variable {β : Type}

/-- What a place of some buckets holds, if there is such a place. -/
def place? (buckets : Array (Array (Option β))) (place : Nat × Nat) : Option (Option β) :=
  buckets[place.1]?.bind (·[place.2]?)

/-- The value stored at a place of some buckets. -/
def stored? (buckets : Array (Array (Option β))) (place : Nat × Nat) : Option β :=
  (place? buckets place).join

end Arena

/-- Numbered values in buckets. A bucket is allocated when its first value comes. -/
structure Arena (β : Type) where
  /-- The number of the next value. -/
  next : Nat
  buckets : Array (Array (Option β))
  buckets_size : buckets.size = Arena.numBuckets
  /-- A bucket has no places yet, or all. -/
  places_size : ∀ bucket, (_ : bucket < buckets.size) →
    buckets[bucket].size = 0 ∨ buckets[bucket].size = Arena.bucketSize bucket
  /-- What is stored stands at the place of a number that has been used up. -/
  exists_lt_next : ∀ place, (Arena.stored? buckets place).isSome = true →
    ∃ id, id < next ∧ Arena.locate id = place

namespace Arena

variable {β : Type}

theorem place?_modify (buckets : Array (Array (Option β))) (bucket : Nat)
    (change : Array (Option β) → Array (Option β)) (place : Nat × Nat) :
    place? (buckets.modify bucket change) place =
      if bucket = place.1 then buckets[bucket]?.bind fun places => (change places)[place.2]?
      else place? buckets place := by
  rw [place?, Array.getElem?_modify]
  split
  · next h => rw [Option.bind_map, h]; rfl
  · rfl

/-- The arena without values. -/
def empty : Arena β where
  next := 0
  buckets := Array.replicate numBuckets #[]
  buckets_size := Array.size_replicate
  places_size _ _ := .inl (by rw [Array.getElem_replicate]; rfl)
  exists_lt_next place h := by
    have hnone : stored? (Array.replicate numBuckets (#[] : Array (Option β))) place = none := by
      rw [stored?, place?, Array.getElem?_replicate]
      split <;> rfl
    rw [hnone] at h
    cases h

/-- The value with a number. -/
def get? (a : Arena β) (id : UInt32) : Option β :=
  stored? a.buckets (locate id.toNat)

/-- The bucket with its places allocated. -/
def allocated (bucket : Nat) (places : Array (Option β)) : Array (Option β) :=
  if places.isEmpty then Array.replicate (bucketSize bucket) none else places

theorem size_allocated {bucket : Nat} {places : Array (Option β)}
    (h : places.size = 0 ∨ places.size = bucketSize bucket) :
    (allocated bucket places).size = bucketSize bucket := by
  unfold allocated
  split
  · exact Array.size_replicate
  · next hne =>
    rw [Array.isEmpty_iff_size_eq_zero] at hne
    exact h.resolve_left hne

theorem join_getElem?_allocated (bucket : Nat) (places : Array (Option β)) (offset : Nat) :
    (allocated bucket places)[offset]?.join = places[offset]?.join := by
  unfold allocated
  split
  · next he =>
    rw [Array.isEmpty_iff_size_eq_zero] at he
    rw [Array.getElem?_replicate, Array.getElem?_eq_none (by omega)]
    split <;> rfl
  · rfl

theorem stored?_allocated (buckets : Array (Array (Option β))) (bucket : Nat) (place : Nat × Nat) :
    stored? (buckets.modify bucket (allocated bucket)) place = stored? buckets place := by
  rw [stored?, place?_modify]
  split
  · next h =>
    rw [stored?, place?, ← h]
    cases buckets[bucket]? with
    | none => rfl
    | some places => exact join_getElem?_allocated bucket places place.2
  · rfl

/-- The arena with the places of a bucket allocated. -/
def allocate (a : Arena β) (bucket : Nat) : Arena β where
  next := a.next
  buckets := a.buckets.modify bucket (allocated bucket)
  buckets_size := by rw [Array.size_modify, a.buckets_size]
  places_size b hb := by
    rw [Array.size_modify] at hb
    rw [Array.getElem_modify]
    split
    · next h =>
      subst h
      exact .inr (size_allocated (a.places_size bucket hb))
    · exact a.places_size b hb
  exists_lt_next place h := a.exists_lt_next place (by rwa [stored?_allocated] at h)

/-- The place has been allocated, and nothing is stored there. -/
def isFree (a : Arena β) (place : Nat × Nat) : Bool :=
  match place? a.buckets place with
  | some none => true
  | _ => false

/-- The arena with its next number used up. -/
def skip (a : Arena β) : Arena β where
  next := a.next + 1
  buckets := a.buckets
  buckets_size := a.buckets_size
  places_size := a.places_size
  exists_lt_next place h :=
    (a.exists_lt_next place h).imp fun _ hid => ⟨Nat.lt_succ_of_lt hid.1, hid.2⟩

/-- The arena with a value stored at the place of its next number. -/
def put (a : Arena β) (value : β) : Arena β where
  next := a.next + 1
  buckets := a.buckets.modify (locate a.next).1 (·.setIfInBounds (locate a.next).2 (some value))
  buckets_size := by rw [Array.size_modify, a.buckets_size]
  places_size b hb := by
    rw [Array.size_modify] at hb
    rw [Array.getElem_modify]
    split
    · rw [Array.size_setIfInBounds]
      exact a.places_size b hb
    · exact a.places_size b hb
  exists_lt_next place h := by
    by_cases hplace : locate a.next = place
    · exact ⟨a.next, Nat.lt_succ_self _, hplace⟩
    · refine (a.exists_lt_next place ?_).imp fun _ hid => ⟨Nat.lt_succ_of_lt hid.1, hid.2⟩
      rw [stored?, place?_modify] at h
      split at h
      · next hbucket =>
        have hoffset : (locate a.next).2 ≠ place.2 := fun ho => hplace (Prod.ext hbucket ho)
        simp only [Array.getElem?_setIfInBounds_ne hoffset, hbucket] at h
        exact h
      · exact h

/-- Stores a value under the next number. The number is used up even if it does not fit into
thirty-two bits any more, or if its place is not free. -/
def push (a : Arena β) (value : β) : Option UInt32 × Arena β :=
  if a.next < UInt32.size then
    let place := locate a.next
    let room := a.allocate place.1
    if room.isFree place then (some (UInt32.ofNat a.next), room.put value) else (none, room.skip)
  else (none, a.skip)

end Arena

end Constituency
