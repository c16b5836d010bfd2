import RemoteInspect.Target.Key

namespace RemoteInspect

structure Table where
  entries : List (Key × Live)
  metatable : Option ObjectId
deriving DecidableEq, Repr

inductive Successor
  | entry (key value : Live)
  | finished
  | unknownKey
deriving DecidableEq, Repr

namespace Table

def empty : Table := ⟨[], none⟩

def find? (entries : List (Key × Live)) (k : Key) : Option Live :=
  entries.lookup k

/-- A known key keeps its place, a new one comes last. -/
def insert : List (Key × Live) → Key → Live → List (Key × Live)
  | [], k, v => [(k, v)]
  | (k', v') :: rest, k, v => if k' = k then (k', v) :: rest else (k', v') :: insert rest k v

def erase (entries : List (Key × Live)) (k : Key) : List (Key × Live) :=
  entries.filter fun entry => entry.1 ≠ k

def set (t : Table) (k : Key) (v : Live) : Table :=
  if v = .nil then { t with entries := erase t.entries k }
  else { t with entries := insert t.entries k v }

def get (t : Table) (k : Key) : Live :=
  (find? t.entries k).getD .nil

def first : List (Key × Live) → Successor
  | [] => .finished
  | (k, v) :: _ => .entry k.live v

def after : List (Key × Live) → Key → Successor
  | [], _ => .unknownKey
  | (k', _) :: rest, k => if k' = k then first rest else after rest k

/-- Nil comes before the first key. -/
def next (t : Table) (last : Live) : Successor :=
  if last = .nil then first t.entries
  else match Key.ofLive? last with
    | some k => after t.entries k
    | none => .unknownKey

end Table

end RemoteInspect
