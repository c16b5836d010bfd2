import RemoteInspect.Decimal.General

namespace RemoteInspect

/-- An IEEE 754 binary64 number by its bit pattern, so that the NaNs stay apart. -/
structure Binary64 where
  bits : UInt64
deriving DecidableEq, Repr

namespace Binary64

def isNegative (x : Binary64) : Bool :=
  1 <<< 63 ≤ x.bits.toNat

def exponentField (x : Binary64) : Nat :=
  x.bits.toNat >>> 52 % 1 <<< 11

def fractionField (x : Binary64) : Nat :=
  x.bits.toNat % 1 <<< 52

def isFinite (x : Binary64) : Bool :=
  x.exponentField ≠ 2047

def isNaN (x : Binary64) : Bool :=
  x.exponentField = 2047 ∧ x.fractionField ≠ 0

def isZero (x : Binary64) : Bool :=
  x.exponentField = 0 ∧ x.fractionField = 0

def significand (x : Binary64) : Nat :=
  if x.exponentField = 0 then x.fractionField else 1 <<< 52 + x.fractionField

/-- The exponent of the last bit of the significand, plus 1075. -/
def scale (x : Binary64) : Nat :=
  max x.exponentField 1

/-- A finite number has magnitude `numerator / denominator`. -/
def numerator (x : Binary64) : Nat :=
  x.significand <<< (x.scale - 1075)

def denominator (x : Binary64) : Nat :=
  1 <<< (1075 - x.scale)

def numEq (x y : Binary64) : Bool :=
  !x.isNaN && !y.isNaN && (x == y || (x.isZero && y.isZero))

def toInteger? (x : Binary64) : Option Int64 :=
  if x.isFinite ∧ x.numerator % x.denominator = 0 then
    let n : Int := x.numerator / x.denominator
    let i := if x.isNegative then -n else n
    if Int64.minValue.toInt ≤ i ∧ i ≤ Int64.maxValue.toInt then some (Int64.ofInt i) else none
  else none

/-- The nearest number to a positive integer below `2 ^ 1024`. A carry out of the significand
runs into the exponent field, which is the next power of two. -/
def ofNat (n : Nat) : Binary64 :=
  let top := n.log2
  let m := if top ≤ 52 then n <<< (52 - top) else Decimal.roundQuotient n (1 <<< (top - 52))
  ⟨UInt64.ofNat ((top + 1022) <<< 52 + m)⟩

def ofInteger (i : Int64) : Binary64 :=
  if i = 0 then ⟨0⟩
  else if i < 0 then ⟨(ofNat i.toInt.natAbs).bits ||| 0x8000000000000000⟩
  else ofNat i.toInt.natAbs

def precision : Nat := 14

/-- A text of digits alone gets a fraction, so that it does not read as an integer. -/
def markFraction (cs : List Char) : List Char :=
  if cs.all fun c => c = '-' ∨ c.isDigit then cs ++ ['.', '0'] else cs

def magnitudeText (x : Binary64) : List Char :=
  if x.isFinite then Decimal.generalForm x.numerator x.denominator precision
  else if x.isNaN then ['n', 'a', 'n'] else ['i', 'n', 'f']

def text (x : Binary64) : String :=
  let signed := if x.isNegative then '-' :: x.magnitudeText else x.magnitudeText
  String.ofList (if x.isFinite then markFraction signed else signed)

end Binary64

end RemoteInspect
