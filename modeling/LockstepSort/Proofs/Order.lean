import LockstepSort.Proofs.Sort

/-!
# Sorts put the keys in order

The keys in the window of a sort end up in order, unless pairs are sorted by digits that do
not follow their keys.  The plain sorts read the digits of the lowest 32 bits; these follow
the keys of 32 bits that are not negative, and the keys of 64 bits that are neither negative
nor larger than those.
-/

namespace LockstepSort

/-- Keys stand in the order of a direction. -/
def Direction.Orders {K : Type} [Ord K] (direction : Direction) (keys : List K) : Prop :=
  match direction with
  | ascending => keys.Pairwise fun a b => (compare a b).isLE
  | descending => keys.Pairwise fun a b => (compare b a).isLE

/-- A sort has been carried out, has left the columns as long as they were, and has put the keys
in the window in order. -/
structure Ending.Orders {K V : Type} [Ord K] (ending : Ending K V) (keys : Array K)
    (values : Array V) (direction : Direction) (offset length : Nat) : Prop where
  result : ending.result = .ok ()
  keys_size : ending.keys.size = keys.size
  values_size : ending.values.size = values.size
  ordered : direction.Orders (stretch ending.keys offset length)

theorem Direction.orders_iff {K : Type} [Ord K] [Std.OrientedOrd K] {direction : Direction}
    {keys : List K} :
  direction.Orders keys ↔ keys.Pairwise fun a b => direction.admits a b
  := by
  cases direction <;> simp only [Orders, admits_eq_isLE]

/-- A strategy that sorts only single pairs by digits, or only ranges that it sorts by
insertion, does not sort by digits at all. -/
theorem Strategy.action_ne_radix {strategy : Strategy}
    (h : strategy.radixLimit ≤ 1
      ∨ ∃ limit, strategy.insertionLimit = some limit ∧ strategy.radixLimit ≤ limit)
    (length : Nat) :
  strategy.action length ≠ .radix
  := by
  intro haction
  obtain ⟨hlength, hlimit, hinserts⟩ := action_eq_radix_iff.mp haction
  obtain h | ⟨limit, hsome, h⟩ := h
  · omega
  · apply hinserts
    apply insertsAt_iff.mpr
    exact ⟨limit, hsome, by omega⟩

section

variable {K V : Type} [DigitKey K] {strategy : Strategy} {scratch : Option (Scratch K V)}
  {keys : Array K} {values : Array V} {offset length : Nat}

theorem Passes.stretch_of_sorts
    (h : Passes strategy scratch keys values offset length) {run : Run K V keys.size}
    (hrun : Run.Sorts strategy 0 h.window (Run.start h.pairs scratch) run) :
  stretch run.pairs.keys.toArray offset length
    = ((h.pairs.slice h.window).arranged strategy).map Prod.fst
  := by
  have hslice : (run.pairs.slice h.window).toList
      = (h.pairs.slice h.window).arranged strategy := hrun.arranges.toList_slice
  rw [← hslice, Pairs.map_fst_toList, toList_keys_slice]
  rfl

/-- A sort that does not fail leaves the keys in its window in order, if no pairs are sorted by
digits that do not follow their keys. -/
theorem orders_of_result [Std.TransOrd K]
    (hresult : (sortWindowWith strategy scratch keys values offset length).result = .ok ())
    (hdigits : ∀ length', strategy.action length' = .radix →
      strategy.span.Follows (stretch keys offset length)) :
  strategy.direction.Orders
    (stretch (sortWindowWith strategy scratch keys values offset length).keys offset length)
  := by
  obtain ⟨hpasses, run, hrun, hending⟩ := exists_sorts_of_result hresult
  rw [hending]
  apply Direction.orders_iff.mpr
  rw [hpasses.stretch_of_sorts hrun]
  apply List.pairwise_map.mpr
  apply Pairs.pairwise_arranged
  intro length' haction
  rw [Pairs.map_fst_toList, toList_keys_slice]
  apply hdigits length' haction

/-- A sort that is carried out puts the keys in its window in order, if no pairs are sorted by
digits that do not follow their keys. -/
theorem sortWindowWith_orders [LawfulDigitKey K] [Std.TransOrd K]
    (hlimit : keys.size < sizeLimit) (h : Passes strategy scratch keys values offset length)
    (hdigits : ∀ length', strategy.action length' = .radix →
      strategy.span.Follows (stretch keys offset length)) :
  (sortWindowWith strategy scratch keys values offset length).Orders keys values
    strategy.direction offset length
  := by
  have hresult := result_of_passes hlimit h
  obtain ⟨hkeys, hvalues⟩ := sizes_of_result hresult
  exact ⟨hresult, hkeys, hvalues, orders_of_result hresult hdigits⟩

end

/-! ### Plain sorts -/

/-- The plain sorts put all columns of keys with property `P` in order. -/
structure PlainSortsOrder (K : Type) [DigitKey K] (P : K → Prop) : Prop where
  sort {V : Type} (keys : Array K) (values : Array V) :
    keys.size < sizeLimit → keys.size = values.size → (∀ key ∈ keys, P key) →
    (LockstepSort.sort keys values).Orders keys values .ascending 0 keys.size
  sortWindow {V : Type} (keys : Array K) (values : Array V) (offset length : Nat) :
    keys.size < sizeLimit → keys.size = values.size → (∀ key ∈ keys, P key) →
    offset + length ≤ keys.size →
    (LockstepSort.sortWindow keys values offset length).Orders keys values .ascending offset
      length
  sortDescending {V : Type} (keys : Array K) (values : Array V) :
    keys.size < sizeLimit → keys.size = values.size → (∀ key ∈ keys, P key) →
    (LockstepSort.sortDescending keys values).Orders keys values .descending 0 keys.size
  sortDescendingWith {V : Type} (scratch : Scratch K V) (keys : Array K) (values : Array V) :
    keys.size < sizeLimit → keys.size = values.size → (∀ key ∈ keys, P key) →
    (Strategy.forKeys K .descending).scratchRequired keys.size ≤ scratch.capacity →
    (LockstepSort.sortDescendingWith scratch keys values).Orders keys values .descending 0
      keys.size

section

variable {K V : Type} [DigitKey K] {P : K → Prop}

theorem mem_of_mem_stretch {α : Type} {column : Array α} {offset length : Nat} {a : α}
    (h : a ∈ stretch column offset length) :
  a ∈ column
  := by
  apply Array.mem_toList_iff.mp
  apply List.mem_of_mem_drop
  apply List.mem_of_mem_take h

section

variable [LawfulDigitKey K] [Std.TransOrd K]

/-- A sort under the strategy of the plain sorts puts keys in order that are not negative and
that the digits of the lowest 32 bits follow. -/
theorem forKeys_orders
    (hsigns : ∀ key, P key → ¬ DigitKey.isNegative key)
    (hdigits : ∀ keys : List K, (∀ key ∈ keys, P key) → DigitSpan.low32.Follows keys)
    {direction : Direction} {scratch : Option (Scratch K V)} {keys : Array K}
    {values : Array V} {offset length : Nat} (hlimit : keys.size < sizeLimit)
    (hpaired : keys.size = values.size) (hkeys : ∀ key ∈ keys, P key)
    (hfits : offset + length ≤ keys.size)
    (hserved : (Strategy.forKeys K direction).ServedBy length scratch) :
  (sortWindowWith (.forKeys K direction) scratch keys values offset length).Orders keys values
    direction offset length
  := by
  apply sortWindowWith_orders hlimit
  · refine ⟨hpaired, hfits, hserved, ?_⟩
    rintro ⟨key, hkey, hnegative⟩
    apply hsigns key (hkeys key (mem_of_mem_stretch hkey)) hnegative
  · intro _ _
    apply hdigits
    intro key hkey
    apply hkeys key (mem_of_mem_stretch hkey)

/-- The plain sorts put keys in order that are not negative and that the digits of the lowest
32 bits follow. -/
theorem plainSortsOrder
    (hsigns : ∀ key, P key → ¬ DigitKey.isNegative key)
    (hdigits : ∀ keys : List K, (∀ key ∈ keys, P key) → DigitSpan.low32.Follows keys) :
  PlainSortsOrder K P
  where
  sort keys values hlimit hpaired hkeys := by
    apply forKeys_orders hsigns hdigits hlimit hpaired hkeys (by omega)
    rintro s ⟨⟩
  sortWindow keys values offset length hlimit hpaired hkeys hfits := by
    apply forKeys_orders hsigns hdigits hlimit hpaired hkeys hfits
    rintro s ⟨⟩
  sortDescending keys values hlimit hpaired hkeys := by
    apply forKeys_orders hsigns hdigits hlimit hpaired hkeys (by omega)
    rintro s ⟨⟩
  sortDescendingWith scratch keys values hlimit hpaired hkeys hcapacity := by
    apply forKeys_orders hsigns hdigits hlimit hpaired hkeys (by omega)
    rintro s ⟨⟩
    apply hcapacity

end

end

/-- A sort puts the keys in its window in order, and keeps the sizes of the columns, unless it
reads digits that do not follow the keys.  The plain sorts do so with all keys of 32 bits that are not negative, and with all
such keys of 64 bits that 32 bits can hold. -/
theorem sorts_put_keys_in_order :
  (∀ {K V : Type} [DigitKey K] [LawfulDigitKey K] [Std.TransOrd K] (strategy : Strategy)
    (scratch : Option (Scratch K V)) (keys : Array K) (values : Array V) (offset length : Nat),
    keys.size < sizeLimit → Passes strategy scratch keys values offset length →
    ((strategy.radixLimit ≤ 1
        ∨ ∃ limit, strategy.insertionLimit = some limit ∧ strategy.radixLimit ≤ limit)
      ∨ strategy.span.Follows (stretch keys offset length)) →
    (sortWindowWith strategy scratch keys values offset length).Orders keys values
      strategy.direction offset length)
  ∧ PlainSortsOrder Int32 (fun key => 0 ≤ key)
  ∧ PlainSortsOrder UInt32 (fun _ => True)
  ∧ PlainSortsOrder Int64 (fun key => 0 ≤ key ∧ key < 4294967296)
  ∧ PlainSortsOrder UInt64 (fun key => key < 4294967296)
  := by
  refine ⟨?_, ?_, ?_, ?_, ?_⟩
  · intro K V _ _ _ strategy scratch keys values offset length hlimit hpasses hdigits
    apply sortWindowWith_orders hlimit hpasses
    intro length' haction
    obtain hnever | hfollows := hdigits
    · apply absurd haction
      apply Strategy.action_ne_radix hnever
    · apply hfollows
  · apply plainSortsOrder
    · intro key hkey
      simpa [DigitKey.isNegative] using hkey
    · intro keys hkeys
      apply DigitSpan.follows_int32 hkeys
  · apply plainSortsOrder
    · rintro key - ⟨⟩
    · intro keys _
      apply DigitSpan.follows_uint32
  · apply plainSortsOrder
    · intro key hkey
      simpa [DigitKey.isNegative] using hkey.1
    · intro keys hkeys
      apply DigitSpan.follows_int64 hkeys
  · apply plainSortsOrder
    · rintro key - ⟨⟩
    · intro keys hkeys
      apply DigitSpan.follows_uint64 hkeys

/-- The keys in the middle of a column are sorted by digits after a split, and those of
another column at once. -/
theorem keys_in_order_split_and_plain :
  let strategy : Strategy := ⟨.descending, 2, none, .low32⟩
  let keys : Array UInt32 := #[7, 3, 9, 4, 2, 8]
  let values := #["a", "b", "c", "d", "e", "f"]
  let signed : Array Int32 := #[5, 3, 5]
  (sortWindowWith strategy none keys values 1 4).Orders keys values .descending 1 4
    ∧ (sort signed #["a", "b", "c"]).Orders signed #["a", "b", "c"] .ascending 0 3
  := by
  intro strategy keys values signed
  obtain ⟨hgeneral, hint32, -⟩ := sorts_put_keys_in_order
  constructor
  · have hpasses : Passes strategy none keys values 1 4 :=
      ⟨rfl, by decide, by rintro s ⟨⟩, by decide⟩
    apply hgeneral strategy none keys values 1 4 (by decide) hpasses
    right
    apply DigitSpan.follows_uint32
  · have hkeys : ∀ key ∈ signed, 0 ≤ key := by simp [signed]
    apply hint32.sort signed #["a", "b", "c"] (by decide) rfl hkeys

end LockstepSort
