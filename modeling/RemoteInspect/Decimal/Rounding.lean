namespace RemoteInspect.Decimal

/-- The integer nearest to `num / den`; a half goes to the even neighbour. -/
def roundQuotient (num den : Nat) : Nat :=
  let q := num / den
  let r := num % den
  if 2 * r < den ∨ (2 * r = den ∧ q % 2 = 0) then q else q + 1

def powerOfTen (n : Nat) : Nat := Nat.pow 10 n

/-- `num / den` rounded at `places` decimals, in units of the last one. Negative `places` round
to the left of the point. -/
def atPlaces (num den : Nat) (places : Int) : Nat :=
  roundQuotient (num * powerOfTen places.toNat) (den * powerOfTen (-places).toNat)

def digitCount (n : Nat) : Nat :=
  (Nat.toDigits 10 n).length

/-- The `e` with `10 ^ e ≤ num / den < 10 ^ (e + 1)`, for a positive ratio. -/
def leadingExponent (num den : Nat) : Int :=
  if den ≤ num then (digitCount (num / den) : Int) - 1
  else -(digitCount ((den - 1) / num) : Int)

structure Scientific where
  digits : Nat
  exponent : Int
deriving DecidableEq, Repr

def toScientific (num den precision : Nat) : Scientific :=
  if num = 0 then ⟨0, 0⟩ else
    let e := leadingExponent num den
    let d := atPlaces num den (precision - 1 - e)
    -- A carry out of the leading digit raises the exponent.
    if d = powerOfTen precision then ⟨powerOfTen (precision - 1), e + 1⟩ else ⟨d, e⟩

end RemoteInspect.Decimal
