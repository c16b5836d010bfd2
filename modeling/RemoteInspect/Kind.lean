namespace RemoteInspect

inductive Kind
  | nil | boolean | pointer | number | string | table | function | userdata | thread
deriving DecidableEq, Repr

namespace Kind

def all : List Kind :=
  [nil, boolean, pointer, number, string, table, function, userdata, thread]

def name : Kind → String
  | nil => "nil"
  | boolean => "boolean"
  | pointer => "lightuserdata"
  | number => "number"
  | string => "string"
  | table => "table"
  | function => "function"
  | userdata => "userdata"
  | thread => "thread"

def code : Kind → UInt32
  | nil => 0
  | boolean => 1
  | pointer => 2
  | number => 3
  | string => 4
  | table => 5
  | function => 6
  | userdata => 7
  | thread => 8

def ofCode? (code : UInt32) : Option Kind :=
  all[code.toNat]?

theorem ofCode?_code (k : Kind) : ofCode? k.code = some k := by
  cases k <;> rfl

def isCopyable : Kind → Bool
  | nil | boolean | pointer | number | string => true
  | table | function | userdata | thread => false

/-- Values of every other kind share one metatable. -/
def hasOwnMetatable : Kind → Bool
  | table | userdata => true
  | nil | boolean | pointer | number | string | function | thread => false

/-- What stands for the kind of a value that cannot be found. -/
def noValue : String := "no value"

end Kind

end RemoteInspect
