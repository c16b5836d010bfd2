import RemoteInspect.Decimal.Rounding

namespace RemoteInspect.Decimal

def dropTrailingZeros (cs : List Char) : List Char :=
  (cs.reverse.dropWhile (· = '0')).reverse

/-- Digits around a point; a fraction of zeros goes, and the point with it. -/
def joinFraction (whole fraction : List Char) : List Char :=
  match dropTrailingZeros fraction with
  | [] => whole
  | kept => whole ++ '.' :: kept

def padLeft (width : Nat) (cs : List Char) : List Char :=
  List.replicate (width - cs.length) '0' ++ cs

def fixedForm (num den places : Nat) : List Char :=
  let cs := padLeft (places + 1) (Nat.toDigits 10 (atPlaces num den places))
  joinFraction (cs.take (cs.length - places)) (cs.drop (cs.length - places))

def exponentForm (s : Scientific) : List Char :=
  let cs := Nat.toDigits 10 s.digits
  joinFraction (cs.take 1) (cs.drop 1) ++
    'e' :: (if s.exponent < 0 then '-' else '+') ::
      padLeft 2 (Nat.toDigits 10 s.exponent.natAbs)

def leastFixedExponent : Int := -4

/-- The exponent after rounding to `precision` digits decides the form. -/
def generalForm (num den precision : Nat) : List Char :=
  let s := toScientific num den precision
  if leastFixedExponent ≤ s.exponent ∧ s.exponent < precision then
    fixedForm num den (precision - 1 - s.exponent).toNat
  else exponentForm s

end RemoteInspect.Decimal
