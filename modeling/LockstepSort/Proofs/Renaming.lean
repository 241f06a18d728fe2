import LockstepSort.Proofs.Call
import LockstepSort.Proofs.Likeness.Sort

/-!
# Renamed keys and values

A sort does not look at values, and looks at keys only to compare them, to read their digits and
to ask for their sign.  So a map of the keys that keeps all this, and any map of the values,
commutes with every call of a sort: the columns are left renamed, and nothing else changes.
A map of the keys that is strictly increasing keeps how they compare where only equal keys tie,
and need not where it takes keys that tie apart.
-/

namespace LockstepSort

/-! ### Renamed pairs -/

section

variable {K K' V V' : Type} {e : K → K'} {f : V → V'} {keys : Array K} {n : Nat}

/-- A pair with a key of the column, and its image. -/
def Renames (e : K → K') (f : V → V') (keys : Array K) (a : K × V) (a' : K' × V') : Prop :=
  a.1 ∈ keys ∧ a' = (e a.1, f a.2)

theorem eq_map_of_renames {list : List (K × V)} {list' : List (K' × V')}
    (h : List.Forall₂ (Renames e f keys) list list') :
  list' = list.map (Prod.map e f)
  := by
  induction h with
  | nil => rfl
  | cons hhead _ ih =>
      rw [List.map_cons, ← ih, hhead.2]
      rfl

/-- The pairs of two columns are renamed by renaming the columns. -/
theorem Pairs.like_map (e : K → K') (f : V → V') (pairs : Pairs K V n) :
  pairs.Like (Renames e f pairs.keys.toArray) ⟨pairs.keys.map e, pairs.values.map f⟩
  := by
  intro i
  constructor
  · apply Array.getElem_mem
  · apply Prod.ext
    · apply Vector.getElem_map
    · apply Vector.getElem_map

theorem ColumnsLike.eq_map {columns : Array K × Array V} {columns' : Array K' × Array V'}
    (h : ColumnsLike (Renames e f keys) columns columns') :
  columns'.1 = columns.1.map e ∧ columns'.2 = columns.2.map f
  := by
  obtain @⟨n, pairs, pairs', hlike⟩ := h
  have hkeys : pairs'.keys = pairs.keys.map e := by
    ext i hi
    rw [Vector.getElem_map]
    apply congrArg Prod.fst (hlike ⟨i, hi⟩).2
  have hvalues : pairs'.values = pairs.values.map f := by
    ext i hi
    rw [Vector.getElem_map]
    apply congrArg Prod.snd (hlike ⟨i, hi⟩).2
  rw [hkeys, hvalues]
  constructor <;> rfl

end

/-! ### Maps that keep keys -/

section

variable {K K' V V' : Type} [DigitKey K] [DigitKey K'] {e : K → K'} {f : V → V'}
  {keys : Array K}

/-- A map between types of keys of the same width that keeps how the keys of a column compare,
the digits that they have, and their signs. -/
structure KeepsKeys (e : K → K') (keys : Array K) : Prop where
  bits : DigitKey.bits K' = DigitKey.bits K
  compare {a b : K} : a ∈ keys → b ∈ keys → compare (e a) (e b) = compare a b
  digit {a : K} : a ∈ keys → ∀ place < DigitKey.places K,
    DigitKey.digit (e a) place = DigitKey.digit a place
  isNegative {a : K} : a ∈ keys → DigitKey.isNegative (e a) = DigitKey.isNegative a

omit [DigitKey K'] in
theorem KeepsKeys.id (keys : Array K) :
  KeepsKeys id keys
  := ⟨rfl, fun _ _ => rfl, fun _ _ _ => rfl, fun _ => rfl⟩

theorem KeepsKeys.likeness (h : KeepsKeys e keys) :
  Likeness (Renames e f keys)
  where
  bits := h.bits
  compare := by
    rintro a b _ _ ⟨ha, rfl⟩ ⟨hb, rfl⟩
    apply h.compare ha hb
  digit := by
    rintro a _ ⟨ha, rfl⟩
    apply h.digit ha
  isNegative := by
    rintro a _ ⟨ha, rfl⟩
    apply h.isNegative ha

/-- Where only equal keys tie, a map that is strictly increasing keeps how keys compare. -/
theorem compare_of_increasing [Std.OrientedOrd K] [Std.LawfulEqOrd K] [Std.OrientedOrd K']
    (hincreasing : ∀ a ∈ keys, ∀ b ∈ keys, compare a b = .lt → compare (e a) (e b) = .lt)
    {a b : K} (ha : a ∈ keys) (hb : b ∈ keys) :
  compare (e a) (e b) = compare a b
  := by
  cases h : compare a b with
  | lt => apply hincreasing a ha b hb h
  | eq =>
      obtain rfl := Std.LawfulEqCmp.eq_of_compare h
      apply Std.ReflCmp.compare_self
  | gt =>
      apply Std.OrientedCmp.gt_of_lt
      apply hincreasing b hb a ha (Std.OrientedCmp.lt_of_gt h)

/-- The plain sorts choose the same strategy for all keys of one width. -/
theorem Strategy.forKeys_congr (hbits : DigitKey.bits K' = DigitKey.bits K)
    (direction : Direction) :
  forKeys K' direction = forKeys K direction
  := by
  unfold forKeys
  rw [hbits]

end

/-! ### Renamed calls -/

section

variable {K K' V V' : Type} {e : K → K'} {f : V → V'}

/-- An ending is another one with its columns renamed, and with scratch of the same capacity. -/
structure Ending.Renamed (e : K → K') (f : V → V') (ending : Ending K V)
    (ending' : Ending K' V') : Prop where
  keys : ending'.keys = ending.keys.map e
  values : ending'.values = ending.values.map f
  capacity : ending'.scratch.map Scratch.capacity = ending.scratch.map Scratch.capacity
  log : ending'.log = ending.log
  result : ending'.result = ending.result

/-- Two calls of the same sort, with scratch of the same capacity, whatever lies in it. -/
inductive Call.SameSort : Call K V → Call K' V' → Prop where
  | sort : SameSort .sort .sort
  | sortDescending : SameSort .sortDescending .sortDescending
  | sortDescendingWith {scratch : Scratch K V} {scratch' : Scratch K' V'}
      (h : scratch'.capacity = scratch.capacity) :
    SameSort (.sortDescendingWith scratch) (.sortDescendingWith scratch')
  | sortWindow (offset length : Nat) :
    SameSort (.sortWindow offset length) (.sortWindow offset length)
  | sortWindowWith (strategy : Strategy) {scratch : Option (Scratch K V)}
      {scratch' : Option (Scratch K' V')}
      (h : scratch'.map Scratch.capacity = scratch.map Scratch.capacity) (offset length : Nat) :
    SameSort (.sortWindowWith strategy scratch offset length)
      (.sortWindowWith strategy scratch' offset length)
  | radixSort (direction : Direction) (span : DigitSpan) {scratchKeys : Array K}
      {scratchKeys' : Array K'} {scratchValues : Array V} {scratchValues' : Array V'}
      (hkeys : scratchKeys'.size = scratchKeys.size)
      (hvalues : scratchValues'.size = scratchValues.size) :
    SameSort (.radixSort direction span scratchKeys scratchValues)
      (.radixSort direction span scratchKeys' scratchValues')

variable [DigitKey K] [DigitKey K'] {keys : Array K}

theorem KeepsKeys.sortWindowWith_renamed (he : KeepsKeys e keys) (f : V → V')
    (values : Array V) (strategy : Strategy) {scratch : Option (Scratch K V)}
    {scratch' : Option (Scratch K' V')}
    (hcapacity : scratch'.map Scratch.capacity = scratch.map Scratch.capacity)
    (offset length : Nat) :
  (sortWindowWith strategy scratch keys values offset length).Renamed e f
    (sortWindowWith strategy scratch' (keys.map e) (values.map f) offset length)
  := by
  by_cases hpaired : keys.size = values.size
  · have hlike := Pairs.like_map e f (.ofArrays keys values hpaired.symm)
    have hending : (sortWindowWith strategy scratch keys values offset length).Like
        (Renames e f keys)
        (sortWindowWith strategy scratch' (keys.map e) (values.map f) offset length) :=
      hlike.sortWindowWith he.likeness hcapacity
    obtain ⟨hkeys, hvalues⟩ := hending.columns.eq_map
    refine ⟨hkeys, hvalues, ?_, hending.log, hending.result⟩
    rw [sortWindowWith_capacity, sortWindowWith_capacity, hcapacity]
  · have hpaired' : ¬ (keys.map e).size = (values.map f).size := by simpa using hpaired
    rw [sortWindowWith_of_error (checked_of_unpaired hpaired),
      sortWindowWith_of_error (checked_of_unpaired hpaired')]
    refine ⟨rfl, rfl, hcapacity, rfl, ?_⟩
    simp

theorem KeepsKeys.radixSort_renamed (he : KeepsKeys e keys) (f : V → V') (values : Array V)
    (direction : Direction) (span : DigitSpan) {scratchKeys : Array K} {scratchKeys' : Array K'}
    {scratchValues : Array V} {scratchValues' : Array V'}
    (hkeys : scratchKeys'.size = scratchKeys.size)
    (hvalues : scratchValues'.size = scratchValues.size) :
  ((Call.radixSort direction span scratchKeys scratchValues).ending keys values).Renamed e f
    ((Call.radixSort direction span scratchKeys' scratchValues').ending (keys.map e)
      (values.map f))
  := by
  by_cases hpaired : keys.size = values.size
  · have hlike := Pairs.like_map e f (.ofArrays keys values hpaired.symm)
    have hboth := hlike.radixSort he.likeness direction span hkeys hvalues
    obtain ⟨hkeys, hvalues⟩ := hboth.state.eq_map
    refine ⟨hkeys, hvalues, rfl, rfl, ?_⟩
    apply congrArg (Except.mapError Failure.faulted) hboth.result.symm
  · have hpaired' : ¬ (values.map f).size = (keys.map e).size := by simpa using Ne.symm hpaired
    simp only [Call.ending, radixSort, Pairs.ofArrays?_eq_none (Ne.symm hpaired),
      Pairs.ofArrays?_eq_none hpaired']
    refine ⟨rfl, rfl, rfl, rfl, ?_⟩
    simp [Attempt.result]

/-- A call of the same sort on renamed columns ends with what the call ends with, renamed. -/
theorem Call.SameSort.renamed {call : Call K V} {call' : Call K' V'} (h : call.SameSort call')
    (he : KeepsKeys e keys) (f : V → V') (values : Array V) :
  (call.ending keys values).Renamed e f (call'.ending (keys.map e) (values.map f))
  := by
  have hnone : (none : Option (Scratch K' V')).map Scratch.capacity
      = (none : Option (Scratch K V)).map Scratch.capacity := rfl
  cases h with
  | sort =>
      simp only [ending, LockstepSort.sort, LockstepSort.sortWindow, Array.size_map,
        Strategy.forKeys_congr he.bits]
      apply he.sortWindowWith_renamed f values _ hnone
  | sortDescending =>
      simp only [ending, LockstepSort.sortDescending, Array.size_map,
        Strategy.forKeys_congr he.bits]
      apply he.sortWindowWith_renamed f values _ hnone
  | @sortDescendingWith scratch scratch' h =>
      have hsome : (some scratch').map Scratch.capacity = (some scratch).map Scratch.capacity :=
        congrArg some h
      simp only [ending, LockstepSort.sortDescendingWith, Array.size_map,
        Strategy.forKeys_congr he.bits]
      apply he.sortWindowWith_renamed f values _ hsome
  | sortWindow offset length =>
      simp only [ending, LockstepSort.sortWindow, Strategy.forKeys_congr he.bits]
      apply he.sortWindowWith_renamed f values _ hnone
  | sortWindowWith strategy h offset length =>
      apply he.sortWindowWith_renamed f values strategy h
  | radixSort direction span hkeys hvalues =>
      apply he.radixSort_renamed f values direction span hkeys hvalues

end

/-! ### Values -/

section

variable {K : Type} [DigitKey K]

/-- Where a pair of an arrangement comes from depends on the keys only. -/
theorem Pairs.exists_equiv_arranged {n : Nat} (strategy : Strategy) (column : Vector K n) :
  ∃ s : Equiv.Perm (Fin n), ∀ {V : Type} (pairs : Pairs K V n), pairs.keys = column →
    ∀ i : Fin n, (pairs.arranged strategy)[i.val]? = pairs.toList[(s i).val]?
  := by
  -- The positions, as values beside the keys, tell where each pair comes from.
  let positions : Pairs K (Fin n) n := ⟨column, Vector.ofFn id⟩
  obtain ⟨s, hs⟩ := exists_equiv_of_perm (arranged_perm strategy positions) (length_toList _)
  use s
  intro V pairs hkeys i
  have hpairs : pairs = ⟨positions.keys.map id, positions.values.map pairs.values.get⟩ := by
    apply ext_getElem
    intro k hk
    simp only [Vector.getElem_map, positions, Vector.getElem_ofFn, hkeys]
    exact ⟨rfl, rfl⟩
  have hlike := like_map id pairs.values.get positions
  rw [← hpairs] at hlike
  have harranged := hlike.arranged (KeepsKeys.id positions.keys.toArray).likeness strategy
  rw [eq_map_of_renames harranged, eq_map_of_renames (like_iff_forall₂.mp hlike),
    List.getElem?_map, List.getElem?_map, hs]

/-- No call of a sort looks at the values: any map of the values commutes with it.  So a sort that
does not fail permutes the pairs in its window, wherever that lies, by a permutation that the
strategy and the keys there decide. -/
theorem values_never_matter :
  (∀ {V V' : Type} (f : V → V') (keys : Array K) (values : Array V) (call : Call K V)
    (call' : Call K V'), call.SameSort call' →
    (call.ending keys values).Renamed id f (call'.ending keys (values.map f)))
  ∧ ∀ (strategy : Strategy) (range : List K), ∃ s : Equiv.Perm (Fin range.length),
    ∀ {V : Type} (scratch : Option (Scratch K V)) (keys : Array K) (values : Array V)
      (offset : Nat),
    let ending := sortWindowWith strategy scratch keys values offset range.length
    stretch keys offset range.length = range → ending.result = .ok () →
    ∀ i : Fin range.length,
      (stretchPairs ending.keys ending.values offset range.length)[i.val]?
        = (stretchPairs keys values offset range.length)[(s i).val]?
  := by
  constructor
  · intro V V' f keys values call call' h
    have hrenamed := h.renamed (KeepsKeys.id keys) f values
    rwa [Array.map_id] at hrenamed
  · intro strategy range
    obtain ⟨s, hs⟩ := Pairs.exists_equiv_arranged (K := K) strategy ⟨range.toArray, rfl⟩
    use s
    intro V scratch keys values offset ending hrange hresult i
    obtain ⟨hpasses, harranged⟩ := stretchPairs_of_result hresult
    rw [show stretchPairs ending.keys ending.values offset range.length = _ from harranged,
      ← hpasses.toList_range]
    apply hs
    apply Vector.toList_inj.mp
    rw [hpasses.toList_keys_range, hrange]
    rfl

end

/-- The values may be exchanged for their lengths, and the window may lie elsewhere, with other
scratch: four pairs that are split around a pivot are permuted alike. -/
theorem values_replaced_by_lengths :
  let strategy : Strategy := ⟨.ascending, 2, none, .low32⟩
  let keys : Array UInt32 := #[7, 3, 1, 2, 1]
  let names := #["x", "a", "bb", "ccc", "bbbb"]
  let ending := sortWindowWith strategy (some ⟨#[0, 0], #["", ""]⟩) keys names 1 4
  let lengths := sortWindowWith strategy (some ⟨#[9, 9, 9], #[5, 6]⟩) keys
    (names.map String.length) 1 4
  let moved := sortWindowWith strategy none (#[3, 1, 2, 1] : Array UInt32) #['a', 'b', 'c', 'd']
    0 4
  lengths.values = ending.values.map String.length
    ∧ ∃ s : Equiv.Perm (Fin 4), ∀ i : Fin 4,
      (stretchPairs ending.keys ending.values 1 4)[i.val]?
        = (stretchPairs keys names 1 4)[(s i).val]?
      ∧ (stretchPairs moved.keys moved.values 0 4)[i.val]?
        = (stretchPairs #[3, 1, 2, 1] #['a', 'b', 'c', 'd'] 0 4)[(s i).val]?
  := by
  intro strategy keys names ending lengths moved
  obtain ⟨hmap, hpermuted⟩ := values_never_matter (K := UInt32)
  constructor
  · apply (hmap String.length keys names _ _ (.sortWindowWith strategy _ 1 4)).values
    rfl
  · obtain ⟨s, hs⟩ := hpermuted strategy [3, 1, 2, 1]
    use s
    intro i
    constructor
    · apply hs (some ⟨#[0, 0], #["", ""]⟩) keys names 1 (by decide)
      apply result_of_passes (by decide)
      exact ⟨rfl, by decide, by rintro s ⟨⟩; decide, by decide⟩
    · apply hs none #[3, 1, 2, 1] #['a', 'b', 'c', 'd'] 0 (by decide)
      apply result_of_passes (by decide)
      exact ⟨rfl, by decide, by rintro s ⟨⟩, by decide⟩

/-! ### Keys -/

/-- No call of a sort looks at keys other than by comparing them, reading their digits and asking
for their sign: a map of the keys that keeps how they compare, their digits and their signs
commutes with it, the choice of a strategy by the plain sorts included.  A map that increases
strictly keeps how keys compare if only equal keys tie. -/
theorem keys_matter_by_order_and_digits {K K' V : Type} [DigitKey K] [DigitKey K'] {e : K → K'}
    {keys : Array K} (hbits : DigitKey.bits K' = DigitKey.bits K)
    (hdigit : ∀ a ∈ keys, ∀ place < DigitKey.places K,
      DigitKey.digit (e a) place = DigitKey.digit a place)
    (hsign : ∀ a ∈ keys, DigitKey.isNegative (e a) = DigitKey.isNegative a)
    (values : Array V) :
  let commutes := (∀ direction, Strategy.forKeys K' direction = Strategy.forKeys K direction)
    ∧ ∀ (call : Call K V) (call' : Call K' V), call.SameSort call' →
      (call.ending keys values).Renamed e id (call'.ending (keys.map e) values)
  ((∀ a ∈ keys, ∀ b ∈ keys, compare (e a) (e b) = compare a b) → commutes)
  ∧ ∀ [Std.OrientedOrd K] [Std.LawfulEqOrd K] [Std.OrientedOrd K'],
    (∀ a ∈ keys, ∀ b ∈ keys, compare a b = .lt → compare (e a) (e b) = .lt) → commutes
  := by
  intro commutes
  have hkept (hcompare : ∀ a ∈ keys, ∀ b ∈ keys, compare (e a) (e b) = compare a b) :
      commutes := by
    have he : KeepsKeys e keys := ⟨hbits, fun ha hb => hcompare _ ha _ hb, @hdigit, @hsign⟩
    constructor
    · apply Strategy.forKeys_congr hbits
    · intro call call' h
      have hrenamed := h.renamed he id values
      rwa [Array.map_id] at hrenamed
  constructor
  · apply hkept
  · intro _ _ _ hincreasing
    apply hkept
    intro a ha b hb
    apply compare_of_increasing hincreasing ha hb

/-- Signed words that are not negative compare as unsigned ones do. -/
theorem compare_toUInt32_of_lt {a b : Int32} (ha : 0 ≤ a) (hb : 0 ≤ b) (h : compare a b = .lt) :
  compare a.toUInt32 b.toUInt32 = .lt
  := by
  have hlt := Int32.lt_iff_toInt_lt.mp (Std.compare_eq_lt.mp h)
  apply Std.compare_eq_lt.mpr
  rw [UInt32.lt_iff_toNat_lt, Int32.toNat_toUInt32_of_le ha, Int32.toNat_toUInt32_of_le hb]
  have := Int32.cast_toNatClampNeg a ha
  have := Int32.cast_toNatClampNeg b hb
  omega

/-- Signed keys that are not negative are sorted as the unsigned keys of the same words. -/
theorem signed_keys_sorted_as_unsigned :
  let strategy : Strategy := ⟨.descending, 2, none, .low32⟩
  let keys : Array Int32 := #[5, 300, 2, 300, 7]
  let values := #["a", "b", "c", "d", "e"]
  let signed := sortWindowWith strategy none keys values 0 5
  let unsigned := sortWindowWith strategy none (keys.map Int32.toUInt32) values 0 5
  unsigned.keys = signed.keys.map Int32.toUInt32 ∧ unsigned.log = signed.log
    ∧ (sort (keys.map Int32.toUInt32) values).result = (sort keys values).result
  := by
  intro strategy keys values signed unsigned
  have hsign : ∀ key ∈ keys, 0 ≤ key := by simp [keys]
  have hnegative (key : Int32) (hkey : key ∈ keys) :
      DigitKey.isNegative key.toUInt32 = DigitKey.isNegative key := by
    symm
    simpa [DigitKey.isNegative] using hsign key hkey
  have hbits : DigitKey.bits UInt32 = DigitKey.bits Int32 := rfl
  have hincreasing : ∀ a ∈ keys, ∀ b ∈ keys, compare a b = .lt →
      compare a.toUInt32 b.toUInt32 = .lt :=
    fun a ha b hb => compare_toUInt32_of_lt (hsign a ha) (hsign b hb)
  obtain ⟨hkept, hincreased⟩ := keys_matter_by_order_and_digits hbits (fun _ _ _ _ => rfl)
    hnegative values
  obtain ⟨-, hcalls⟩ := hkept fun a ha b hb => compare_of_increasing hincreasing ha hb
  have hsame : (Call.sortWindowWith (K := Int32) (V := String) strategy none 0 5).SameSort
      (Call.sortWindowWith (K := UInt32) (V := String) strategy none 0 5) := by
    apply Call.SameSort.sortWindowWith
    rfl
  have hwindow := hcalls _ _ hsame
  exact ⟨hwindow.keys, hwindow.log, ((hincreased hincreasing).2 .sort .sort .sort).result⟩

/-- The word of a key that is compared by its upper half keeps its digits and increases strictly
with it, and takes keys that tie apart: their words are sorted where the keys stay. -/
theorem words_sorted_where_coarse_keys_tie :
  let strategy : Strategy := ⟨.ascending, 5000000, some 12, .low32⟩
  let keys : Array CoarseKey := #[⟨0x70002⟩, ⟨0x70001⟩]
  let coarse := sortWindowWith strategy none keys #["a", "b"] 0 2
  let words := sortWindowWith strategy none (keys.map CoarseKey.word) #["a", "b"] 0 2
  DigitKey.bits UInt32 = DigitKey.bits CoarseKey
    ∧ (∀ a b : CoarseKey, compare a b = .lt → compare a.word b.word = .lt)
    ∧ (∀ (a : CoarseKey) (place : Nat), DigitKey.digit a.word place = DigitKey.digit a place)
    ∧ (∀ a : CoarseKey, DigitKey.isNegative a.word = DigitKey.isNegative a)
    ∧ coarse.result = .ok () ∧ coarse.keys = keys ∧ coarse.values = #["a", "b"]
    ∧ words.result = .ok () ∧ words.keys = #[0x70001, 0x70002] ∧ words.values = #["b", "a"]
  := by
  intro strategy keys coarse words
  refine ⟨rfl, ?_, fun _ _ => rfl, fun _ => rfl, ?_⟩
  · intro a b hab
    apply Std.compare_eq_lt.mpr (CoarseKey.word_lt hab)
  · decide +kernel

end LockstepSort
