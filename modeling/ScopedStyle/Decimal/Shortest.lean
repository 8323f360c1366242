import ScopedStyle.Text.Basic

/-!
# Shortest decimals

The fewest decimal digits that read back as a given binary number, and among
those the nearest. Everything is exact arithmetic on natural numbers: a window
holds the number and the ends of the interval that rounds to it over a common
denominator, and a decimal reads back if it lies in the window.
-/

namespace ScopedStyle.Decimal
open Text

structure Dyadic where
  mantissa : Nat
  exponent : Int
  /-- The next number below is half as far away as the next one above. -/
  narrow : Bool

structure Window where
  unit : Nat
  low : Nat
  mid : Nat
  high : Nat
  closed : Bool

/-- The interval of all reals that are nearest to `x`. Ties go to the even mantissa. -/
def Window.of (x : Dyadic) : Window :=
  let up := Nat.pow 2 (x.exponent - 2).toNat
  let m := 4 * x.mantissa
  ⟨Nat.pow 2 (2 - x.exponent).toNat, (m - if x.narrow then 1 else 2) * up, m * up, (m + 2) * up,
    x.mantissa % 2 == 0⟩

def Window.inUnits (w : Window) (e : Int) : Window :=
  let up := Nat.pow 10 (-e).toNat
  ⟨w.unit * Nat.pow 10 e.toNat, w.low * up, w.mid * up, w.high * up, w.closed⟩

def Window.holds (w : Window) (c : Nat) : Bool :=
  if w.closed then w.low ≤ c * w.unit && c * w.unit ≤ w.high
  else w.low < c * w.unit && c * w.unit < w.high

def Window.nearest? (w : Window) : Option Nat :=
  let c := w.mid / w.unit
  match w.holds c, w.holds (c + 1) with
  | true, true => if 2 * (w.mid % w.unit) < w.unit then some c else some (c + 1)
  | true, false => some c
  | false, true => some (c + 1)
  | false, false => none

def Window.magnitude (w : Window) : Int :=
  if w.unit ≤ w.mid then (Nat.toDigits 10 (w.mid / w.unit)).length - 1
  else -((Nat.toDigits 10 ((w.unit - 1) / w.mid)).length : Int)

structure Numeral where
  digits : Text
  exponent : Int

def Numeral.trimmed (n : Numeral) : Numeral :=
  let kept := (n.digits.reverse.dropWhile (· == '0')).reverse
  ⟨kept, n.exponent + (n.digits.length - kept.length : Nat)⟩

/-- The numeral of a positive number, on the first grid of 1, 2, ... 17 digits that has one. -/
def shortest (x : Dyadic) : Numeral :=
  let w := Window.of x
  let grid := fun n : Nat => w.magnitude - n
  let hit := (List.range 17).findSome? fun n =>
    ((w.inUnits (grid n)).nearest?).map fun c => (⟨ofNat c, grid n⟩ : Numeral)
  (hit.getD ⟨['0'], 0⟩).trimmed

def Numeral.positional (n : Numeral) : Text :=
  let whole := n.digits.length + n.exponent
  if 0 ≤ n.exponent then n.digits ++ List.replicate n.exponent.toNat '0'
  else if 0 < whole then n.digits.take whole.toNat ++ '.' :: n.digits.drop whole.toNat
  else '0' :: '.' :: List.replicate (-whole).toNat '0' ++ n.digits

end ScopedStyle.Decimal
