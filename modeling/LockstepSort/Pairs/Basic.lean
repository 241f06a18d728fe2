import LockstepSort.Window

/-!
# Pairs in two columns

Pairs of a key and a value, kept in two columns of one length.  Every operation moves both
columns alike, so a value stays with its key; `Pairs.toList` is the list of the pairs.
-/

namespace LockstepSort

/-- A column of `n` keys beside a column of `n` values. -/
structure Pairs (K V : Type) (n : Nat) where
  keys : Vector K n
  values : Vector V n
  deriving DecidableEq

/-- The column `xs` with the elements from `offset` on replaced by those of `ys`. -/
def overwrite {α : Type} {m n : Nat} (xs : Vector α n) (offset : Nat) (ys : Vector α m)
    (fits : offset + m ≤ n) : Vector α n :=
  m.fold (fun i h column => column.set (offset + i) ys[i] (by omega)) xs

namespace Pairs

variable {K V : Type} {n : Nat}

/-- The pairs in order. -/
def toList (pairs : Pairs K V n) : List (K × V) :=
  pairs.keys.toList.zip pairs.values.toList

/-- The pairs of two columns that are equally long. -/
def ofArrays (keys : Array K) (values : Array V) (h : values.size = keys.size) :
    Pairs K V keys.size :=
  ⟨⟨keys, rfl⟩, ⟨values, h⟩⟩

/-- The pairs of two columns, if these are equally long. -/
def ofArrays? (keys : Array K) (values : Array V) : Option (Pairs K V keys.size) :=
  if h : values.size = keys.size then some (ofArrays keys values h) else none

/-- The pairs with those at positions `i` and `j` exchanged. -/
def swap (pairs : Pairs K V n) (i j : Fin n) : Pairs K V n where
  keys := pairs.keys.swap i j i.isLt j.isLt
  values := pairs.values.swap i j i.isLt j.isLt

/-- The pairs with the one at position `i` replaced. -/
def set (pairs : Pairs K V n) (i : Fin n) (key : K) (value : V) : Pairs K V n where
  keys := pairs.keys.set i key i.isLt
  values := pairs.values.set i value i.isLt

/-- The pairs at the positions of a window. -/
def slice (pairs : Pairs K V n) (w : Window n) : Pairs K V w.length where
  keys := (pairs.keys.extract w.offset (w.offset + w.length)).cast (by have := w.fits; omega)
  values :=
    (pairs.values.extract w.offset (w.offset + w.length)).cast (by have := w.fits; omega)

/-- The pairs with those at the positions of a window replaced. -/
def replace (pairs : Pairs K V n) (w : Window n) (range : Pairs K V w.length) :
    Pairs K V n where
  keys := overwrite pairs.keys w.offset range.keys w.fits
  values := overwrite pairs.values w.offset range.values w.fits

end Pairs

end LockstepSort
