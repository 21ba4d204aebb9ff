import Mathlib.Data.List.TakeDrop
import Mathlib.Data.List.Basic

/-!
# Checked slice expressions

A slice expression of Go either yields a value or stops the program with an
index-out-of-range panic.  The operands are signed, so a negative index is
possible and is a panic too.  This file models a slice as a list and each
slice expression as an `Option`: `none` is the panic.

Go bounds the upper end of `s[i:j]` by the capacity, not by the length.  The
capacity is at least the length, so the length check here is the stricter
one: an expression that succeeds in this model never panics in Go.

Nothing here depends on what the slices hold.
-/

namespace KvRaft.GoSlice

variable {α : Type}

/-- `s[i]`. -/
def index (s : List α) (i : Int) : Option α :=
  if i < 0 then none else s[i.toNat]?

/-- `s[i:]`. -/
def dropFrom (s : List α) (i : Int) : Option (List α) :=
  if 0 ≤ i ∧ i ≤ s.length then some (s.drop i.toNat) else none

/-- `s[:j]`. -/
def takeTo (s : List α) (j : Int) : Option (List α) :=
  if 0 ≤ j ∧ j ≤ s.length then some (s.take j.toNat) else none

/-- `s[i:j]`. -/
def slice (s : List α) (i j : Int) : Option (List α) :=
  if 0 ≤ i ∧ i ≤ j ∧ j ≤ s.length then some ((s.drop i.toNat).take (j - i).toNat)
  else none

/-- An index that is not negative is a list lookup. -/
theorem index_eq_getElem? (s : List α) {i : Int} {k : Nat} (h : i = k) :
    index s i = s[k]? := by
  subst h
  rw [index, if_neg (by omega), Int.toNat_natCast]

theorem dropFrom_eq_some (s : List α) {i : Int} {k : Nat} (h : i = k)
    (hk : k ≤ s.length) : dropFrom s i = some (s.drop k) := by
  subst h
  simp [dropFrom, hk]

/-- The elements of `s[i:]` are the elements of `s` from `i` on. -/
theorem getElem?_of_dropFrom {s t : List α} {i : Int} (h : dropFrom s i = some t) (k : Nat) :
    t[k]? = index s (i + k) := by
  unfold dropFrom at h
  split_ifs at h with hi
  cases h
  rw [index_eq_getElem? s (k := i.toNat + k) (by omega), List.getElem?_drop]

theorem takeTo_eq_some (s : List α) {j : Int} {k : Nat} (h : j = k)
    (hk : k ≤ s.length) : takeTo s j = some (s.take k) := by
  subst h
  simp [takeTo, hk]

theorem slice_eq_some (s : List α) {i j : Int} {k l : Nat} (hi : i = k)
    (hj : j = k + l) (hl : k + l ≤ s.length) :
    slice s i j = some ((s.drop k).take l) := by
  subst hi hj
  rw [slice, if_pos ⟨by omega, by omega, by omega⟩, Int.toNat_natCast,
    show ((k : Int) + l - k).toNat = l by omega]

end KvRaft.GoSlice
