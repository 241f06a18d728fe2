import LockstepSort.Failure
import LockstepSort.Pairs.Basic

/-!
# Scratch

A column of keys and a column of values that a sort may write over.  Scratch outlives the
sorts that use it and only ever grows.  The columns grow separately; a range can be served
when it fits in both.
-/

namespace LockstepSort

/-- Columns to write over. -/
structure Scratch (K V : Type) where
  keys : Array K
  values : Array V
  deriving DecidableEq

namespace Scratch

variable {K V : Type}

/-- Scratch that serves no range but the empty one. -/
def empty : Scratch K V := ⟨#[], #[]⟩

instance : Inhabited (Scratch K V) := ⟨empty⟩

/-- Scratch for ranges of up to `length` elements. -/
def ofLength [Inhabited K] [Inhabited V] (length : Nat) : Scratch K V where
  keys := Array.replicate length default
  values := Array.replicate length default

/-- A column made at least `length` elements long. -/
def growColumn {α : Type} [Inhabited α] (column : Array α) (length : Nat) : Array α :=
  if column.size < length then
    column ++ Array.replicate (length - column.size) default
  else
    column

/-- The scratch made to serve ranges of up to `length` elements. -/
def reserve [Inhabited K] [Inhabited V] (scratch : Scratch K V) (length : Nat) :
    Scratch K V where
  keys := growColumn scratch.keys length
  values := growColumn scratch.values length

/-- The length of the longest range that can be served. -/
def capacity (scratch : Scratch K V) : Nat :=
  min scratch.keys.size scratch.values.size

/-- The lengths of both columns. -/
def sizes (scratch : Scratch K V) : Nat × Nat :=
  (scratch.keys.size, scratch.values.size)

/-- The first `length` elements of a column. -/
def frontColumn {α : Type} (column : Array α) (length : Nat) :
    Except Fault (Vector α length) :=
  if h : length ≤ column.size then
    .ok ⟨column.extract 0 length, by rw [Array.size_extract]; omega⟩
  else
    .error (.stopOutOfBounds length column.size)

/-- The first `length` pairs. -/
def front (scratch : Scratch K V) (length : Nat) : Except Fault (Pairs K V length) := do
  let keys ← frontColumn scratch.keys length
  let values ← frontColumn scratch.values length
  return ⟨keys, values⟩

/-- A column with its first elements replaced by those of `front`. -/
def restoreColumn {α : Type} (column : Array α) {length : Nat} (front : Vector α length) :
    Array α :=
  length.fold (fun i _ column => column.setIfInBounds i front[i]) column

/-- The scratch with its first pairs replaced by those of `front`. -/
def restore (scratch : Scratch K V) {length : Nat} (front : Pairs K V length) :
    Scratch K V where
  keys := restoreColumn scratch.keys front.keys
  values := restoreColumn scratch.values front.values

/-! ### Sizes -/

@[simp]
theorem size_growColumn {α : Type} [Inhabited α] (column : Array α) (length : Nat) :
  (growColumn column length).size = max column.size length
  := by
  unfold growColumn
  split
  · rw [Array.size_append, Array.size_replicate]
    omega
  · omega

@[simp]
theorem size_restoreColumn {α : Type} (column : Array α) {length : Nat}
    (front : Vector α length) :
  (restoreColumn column front).size = column.size
  := by
  have aux (k : Nat) (hk : k ≤ length) :
    (k.fold (fun i h column => column.setIfInBounds i front[i]) column).size = column.size
    := by
    induction k with
    | zero => rfl
    | succ k ih => rw [Nat.fold_succ, Array.size_setIfInBounds, ih (by omega)]
  apply aux length (Nat.le_refl length)

theorem sizes_ofLength [Inhabited K] [Inhabited V] (length : Nat) :
  (ofLength length : Scratch K V).sizes = (length, length)
  := by
  simp [ofLength, sizes]

theorem sizes_reserve [Inhabited K] [Inhabited V] (scratch : Scratch K V) (length : Nat) :
  (scratch.reserve length).sizes = (max scratch.sizes.1 length, max scratch.sizes.2 length)
  := by
  simp [reserve, sizes]

theorem capacity_reserve [Inhabited K] [Inhabited V] (scratch : Scratch K V) (length : Nat) :
  (scratch.reserve length).capacity = max scratch.capacity length
  := by
  simp only [reserve, capacity, size_growColumn]
  omega

theorem sizes_restore (scratch : Scratch K V) {length : Nat} (front : Pairs K V length) :
  (scratch.restore front).sizes = scratch.sizes
  := by
  simp [restore, sizes]

theorem capacity_restore (scratch : Scratch K V) {length : Nat} (front : Pairs K V length) :
  (scratch.restore front).capacity = scratch.capacity
  := by
  simp [restore, capacity]

/-- Columns that are as long as before serve as much as before. -/
theorem map_capacity_of_sizes {scratch scratch' : Option (Scratch K V)}
    (h : scratch'.map sizes = scratch.map sizes) :
  scratch'.map capacity = scratch.map capacity
  := by
  have hmin := congrArg (Option.map fun lengths => min lengths.1 lengths.2) h
  simp only [Option.map_map] at hmin
  exact hmin

/-- Where lent scratch measures as much when it comes back, so does what the lender has then. -/
theorem measure_getD {β : Type} (measure : Scratch K V → β)
    {lent left : Option (Scratch K V)} {scratch : Scratch K V} (hlent : ∀ s ∈ lent, s = scratch)
    (hleft : left.map measure = lent.map measure) :
  measure (left.getD scratch) = measure scratch
  := by
  cases left with
  | none => rfl
  | some s =>
      obtain ⟨s', rfl, hs⟩ := Option.map_eq_some_iff.mp hleft.symm
      obtain rfl := hlent s' rfl
      apply hs.symm

theorem exists_frontColumn {α : Type} {column : Array α} {length : Nat}
    (h : length ≤ column.size) :
  ∃ front, frontColumn column length = .ok front
  := by
  unfold frontColumn
  rw [dif_pos h]
  exact ⟨_, rfl⟩

/-- Scratch serves every range up to its capacity. -/
theorem exists_front {scratch : Scratch K V} {length : Nat} (h : length ≤ scratch.capacity) :
  ∃ front, scratch.front length = .ok front
  := by
  obtain ⟨hkeys, hvalues⟩ := Nat.le_min.mp h
  obtain ⟨keys, hkeys⟩ := exists_frontColumn hkeys
  obtain ⟨values, hvalues⟩ := exists_frontColumn hvalues
  refine ⟨⟨keys, values⟩, ?_⟩
  unfold front
  rw [hkeys, hvalues]
  rfl

end Scratch

end LockstepSort
