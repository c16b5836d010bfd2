/-!
Reading octets as UTF-8. Octets that form no character are shown by one replacement character
for each longest run that could still have begun one.
-/
namespace RemoteInspect.Text

/-- A character begun: its bits so far, the range of its next octet, and how many octets follow
that one. -/
structure Partial where
  value : Nat
  low : UInt8
  high : UInt8
  later : Nat
deriving DecidableEq, Repr

def replacement : Char := '\ufffd'

def begin? (b : UInt8) : Option Partial :=
  if 0xc2 ≤ b ∧ b ≤ 0xdf then some ⟨b.toNat - 0xc0, 0x80, 0xbf, 0⟩
  else if b = 0xe0 then some ⟨0, 0xa0, 0xbf, 1⟩
  else if b = 0xed then some ⟨0xd, 0x80, 0x9f, 1⟩
  else if 0xe1 ≤ b ∧ b ≤ 0xef then some ⟨b.toNat - 0xe0, 0x80, 0xbf, 1⟩
  else if b = 0xf0 then some ⟨0, 0x90, 0xbf, 2⟩
  else if 0xf1 ≤ b ∧ b ≤ 0xf3 then some ⟨b.toNat - 0xf0, 0x80, 0xbf, 2⟩
  else if b = 0xf4 then some ⟨4, 0x80, 0x8f, 2⟩
  else none

def start (b : UInt8) : List Char × Option Partial :=
  if b < 0x80 then ([Char.ofNat b.toNat], none)
  else match begin? b with
    | some p => ([], some p)
    | none => ([replacement], none)

/-- An octet that cannot continue the character begun is read again as the first of another. -/
def feed : Option Partial → UInt8 → List Char × Option Partial
  | none, b => start b
  | some p, b =>
    if p.low ≤ b ∧ b ≤ p.high then
      let value := p.value * 64 + b.toNat % 64
      match p.later with
      | 0 => ([Char.ofNat value], none)
      | later + 1 => ([], some ⟨value, 0x80, 0xbf, later⟩)
    else
      let (cs, next) := start b
      (replacement :: cs, next)

def decodeFrom : Option Partial → List UInt8 → List Char
  | none, [] => []
  | some _, [] => [replacement]
  | state, b :: rest =>
    let (cs, next) := feed state b
    cs ++ decodeFrom next rest

def decode (bytes : List UInt8) : List Char :=
  decodeFrom none bytes

end RemoteInspect.Text
