import RemoteInspect.Proofs.Target.InPlace

namespace RemoteInspect

inductive Object.Refers (id : ObjectId) : Object → Prop
  | key {contents : Table} {e : Key × Live} (entry : e ∈ contents.entries)
      (key : e.1.live = .object id) : Refers id (.table contents)
  | value {contents : Table} {e : Key × Live} (entry : e ∈ contents.entries)
      (value : e.2 = .object id) : Refers id (.table contents)
  | tableMetatable {contents : Table} (own : contents.metatable = some id) :
      Refers id (.table contents)
  | capture {code : Code} {upvalues : List Binding} {b : Binding} (capture : b ∈ upvalues)
      (value : b.2 = .object id) : Refers id (.function code upvalues)
  | payload {metatable : Option ObjectId} : Refers id (.userdata (some (.object id)) metatable)
  | userdataMetatable {payload : Option Live} : Refers id (.userdata payload (some id))

namespace Target

inductive Stores (t : Target) (id : ObjectId) : Prop
  | object {o : Object} (allocated : o ∈ t.heap) (part : o.Refers id)
  | shared {kind : Kind} (sharing : t.shared kind = some id)
  | function {f : Frame} (running : f ∈ t.frames) (function : f.function = id)
  | binding {f : Frame} {b : Binding} (running : f ∈ t.frames) (held : b ∈ f.locals)
      (value : b.2 = .object id)
  | root (r : Root) (root : r.object = id)

def ownMetatable? : Object → Option ObjectId
  | .table contents => contents.metatable
  | .userdata _ metatable => metatable
  | .function .. | .thread => none

end Target

/-- No value is nil, and no key nil or NaN. No two keys have one normal form. -/
structure Table.InOrder (contents : Table) : Prop where
  present : ∀ e ∈ contents.entries, e.2 ≠ .nil
  keys : ∀ e ∈ contents.entries, e.1.live ≠ .nil ∧
    ∀ x, e.1.live = .scalar (.float x) → x.isNaN = false
  distinct : (contents.entries.map fun e => Key.ofLive? e.1.live).Nodup

structure Target.WellFormed (t : Target) : Prop where
  stored : ∀ id, t.Stores id → id < t.heap.size
  metatable : ∀ o ∈ t.heap, ∀ id, ownMetatable? o = some id → t.kind? (.object id) = some .table
  shared : ∀ kind id, t.shared kind = some id →
    kind.hasOwnMetatable = false ∧ t.kind? (.object id) = some .table
  tables : ∀ contents, .table contents ∈ t.heap → contents.InOrder
  roots : ∀ r, t.kind? (root r) = some r.kind

theorem Table.Sound.inOrder {contents : Table} {t : Target} (h : contents.Sound t) :
    contents.InOrder where
  present := h.present
  keys e he := ⟨(h.canonical e he).live_ne_nil, fun _ => (h.canonical e he).not_nan⟩
  distinct := by
    have hkeys : (contents.entries.map fun e => Key.ofLive? e.1.live) =
        (contents.entries.map Prod.fst).map some := by
      rw [List.map_map]
      exact List.map_congr_left h.canonical
    rw [hkeys]
    exact List.Pairwise.map some (fun _ _ hne he => hne (Option.some.inj he)) h.distinct

namespace Target

variable {t u : Target}

theorem lt_size_of_owns {id : ObjectId} (h : t.Owns (.object id)) : id < t.heap.size := by
  obtain ⟨kind, hk⟩ := h
  obtain ⟨o, ho, -⟩ := Option.map_eq_some_iff.mp hk
  exact (Array.getElem?_eq_some_iff.mp ho).1

theorem Sound.mem {o : Object} (ht : t.Sound) (ho : o ∈ t.heap) : o.Sound t := by
  obtain ⟨id, hid⟩ := Array.mem_iff_getElem?.mp ho
  exact ht.objects id o hid

theorem Object.Sound.owns_of_refers {o : Object} {id : ObjectId} (ho : o.Sound t)
    (h : o.Refers id) : t.Owns (.object id) := by
  cases h with
  | key entry key => exact key ▸ Table.Sound.ownsKey ho _ entry
  | value entry value => exact value ▸ Table.Sound.ownsValue ho _ entry
  | tableMetatable own => exact ⟨_, Table.Sound.metatable ho id own⟩
  | capture capture value => exact value ▸ ho _ capture
  | payload => exact ho.1 _ rfl
  | userdataMetatable => exact ⟨_, ho.2 id rfl⟩

theorem Sound.owns_of_stores (ht : t.Sound) {id : ObjectId} (h : t.Stores id) :
    t.Owns (.object id) := by
  cases h with
  | object allocated part => exact Object.Sound.owns_of_refers (ht.mem allocated) part
  | shared sharing => exact ⟨_, (ht.shared _ id sharing).2⟩
  | function running function => exact function ▸ ht.functions _ running
  | binding running held value => exact value ▸ ht.locals _ running _ held
  | root r root => exact root ▸ ⟨_, ht.roots r⟩

theorem Sound.wellFormed (ht : t.Sound) : t.WellFormed where
  stored id h := lt_size_of_owns (ht.owns_of_stores h)
  metatable o ho id hid := by
    have hs := ht.mem ho
    cases o with
    | table contents => exact Table.Sound.metatable hs id hid
    | userdata payload metatable => exact hs.2 id hid
    | function | thread => cases hid
  shared := ht.shared
  tables contents hc := Table.Sound.inOrder (ht.mem hc)
  roots := ht.roots

end Target

end RemoteInspect
