import Mathlib.Data.Int.Notation

/-!
# Decimal numbers

Reading back what was printed.  `Decimal.parse` reads a list of digits with an
optional sign, as library functions of many languages do, and `Decimal.parse_repr`
says that it reads every integer that `Int.repr` has printed.
-/

namespace KvRaft.Decimal

/-- The number that a list of digits stands for. -/
def parseDigits (digits : List Char) : Option Nat :=
  if digits ≠ [] ∧ digits.all Char.isDigit = true then some (Nat.ofDigitChars 10 digits 0) else none

/-- A number with its sign. -/
def parse : List Char → Option Int
  | '-' :: digits => (parseDigits digits).map fun k => -Int.ofNat k
  | '+' :: digits => (parseDigits digits).map Int.ofNat
  | digits => (parseDigits digits).map Int.ofNat

theorem isDigit_toDigits {k : Nat} {c : Char} (h : c ∈ Nat.toDigits 10 k) : c.isDigit = true :=
  Nat.isDigit_of_mem_toDigits (by decide) (by decide) h

theorem parseDigits_toDigits (k : Nat) : parseDigits (Nat.toDigits 10 k) = some k := by
  have hdigits : (Nat.toDigits 10 k).all Char.isDigit = true :=
    List.all_eq_true.mpr fun _ => isDigit_toDigits
  rw [parseDigits, if_pos ⟨Nat.toDigits_ne_nil, hdigits⟩, Nat.ofDigitChars_ten_toDigits]

theorem parse_toDigits (k : Nat) : parse (Nat.toDigits 10 k) = some (Int.ofNat k) := by
  -- A digit is not a sign.
  have hsign : ∀ {c : Char} {digits : List Char}, Nat.toDigits 10 k = c :: digits →
      c.isDigit = true := by
    intro c digits heq
    exact isDigit_toDigits (k := k) (by rw [heq]; exact List.mem_cons_self)
  unfold parse
  split
  · rename_i heq
    exact absurd (hsign heq) (by decide)
  · rename_i heq
    exact absurd (hsign heq) (by decide)
  · rw [parseDigits_toDigits, Option.map_some]

theorem toList_repr_ofNat (k : Nat) : (Int.ofNat k).repr.toList = Nat.toDigits 10 k := by
  rw [show (Int.ofNat k).repr = k.repr from rfl, Nat.repr_eq_ofList_toDigits, String.toList_ofList]

theorem toList_repr_negSucc (k : Nat) :
    (Int.negSucc k).repr.toList = '-' :: Nat.toDigits 10 (k + 1) := by
  have hrepr : (Int.negSucc k).repr = "-" ++ (k + 1).repr := rfl
  simp [hrepr, Nat.repr_eq_ofList_toDigits]

/-- Every number that was printed is read back. -/
theorem parse_repr (k : Int) : parse k.repr.toList = some k := by
  cases k with
  | ofNat k => rw [toList_repr_ofNat, parse_toDigits]
  | negSucc k =>
    rw [toList_repr_negSucc, parse, parseDigits_toDigits]
    rfl

theorem repr_injective {k l : Int} (h : k.repr.toList = l.repr.toList) : k = l := by
  have hparse := parse_repr k
  rw [h, parse_repr] at hparse
  exact (Option.some.inj hparse).symm

/-- A printed number has digits and a minus sign only. -/
theorem repr_not_mem (k : Int) {c : Char} (hdigit : c.isDigit = false) (hminus : c ≠ '-') :
    c ∉ k.repr.toList := by
  have hdigits : ∀ k, c ∉ Nat.toDigits 10 k := fun k hmem => by
    rw [isDigit_toDigits hmem] at hdigit
    cases hdigit
  cases k with
  | ofNat k =>
    rw [toList_repr_ofNat]
    exact hdigits k
  | negSucc k =>
    rw [toList_repr_negSucc, List.mem_cons]
    exact not_or.mpr ⟨hminus, hdigits _⟩

theorem repr_ne_nil (k : Int) : k.repr.toList ≠ [] := by
  cases k with
  | ofNat k =>
    rw [toList_repr_ofNat]
    exact Nat.toDigits_ne_nil
  | negSucc k =>
    rw [toList_repr_negSucc]
    exact List.cons_ne_nil _ _

end KvRaft.Decimal
