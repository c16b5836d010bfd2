import RemoteInspect.Text.Graphic

namespace RemoteInspect.Text

def hexDigits (n : Nat) : List Char :=
  Nat.toDigits 16 n

def escape (c : Char) : List Char :=
  if c = '"' then ['\\', '"']
  else if c = '\\' then ['\\', '\\']
  else if c = '\n' then ['\\', 'n']
  else if c = '\r' then ['\\', 'r']
  else if c = '\t' then ['\\', 't']
  else if c = '\x00' then ['\\', '0']
  else if isGraphic c then [c]
  else ['\\', 'u', '{'] ++ hexDigits c.toNat ++ ['}']

def quote (cs : List Char) : List Char :=
  '"' :: cs.flatMap escape ++ ['"']

def address (n : Nat) : String :=
  String.ofList ('0' :: 'x' :: hexDigits n)

end RemoteInspect.Text
