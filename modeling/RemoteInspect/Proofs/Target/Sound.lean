import RemoteInspect.Target.WorkingArea
import RemoteInspect.Target.Mutation

namespace RemoteInspect

namespace Key

/-- The key is the normal form of the values it stands for. -/
def Canonical (k : Key) : Prop := ofLive? k.live = some k

theorem canonical_of_ofLive? {v : Live} {k : Key} (h : ofLive? v = some k) : k.Canonical := by
  cases v with
  | object id => cases h; rfl
  | scalar s =>
    cases s with
    | nil => cases h
    | boolean | integer | string | pointer => cases h; rfl
    | float x =>
      by_cases hnan : x.isNaN
      · simp [ofLive?, hnan] at h
      · cases hint : x.toInteger? with
        | some i => simp [ofLive?, hnan, hint] at h; subst h; rfl
        | none =>
          simp [ofLive?, hnan, hint] at h
          subst h
          simp [Canonical, live, ofLive?, hnan, hint]

theorem eq_live_of_ofLive? {v : Live} {k : Key} (h : ofLive? v = some k) :
    v = k.live ∨ ∃ i, k = .integer i := by
  cases v with
  | object id => cases h; exact .inl rfl
  | scalar s =>
    cases s with
    | nil => cases h
    | boolean | integer | string | pointer => cases h; exact .inl rfl
    | float x =>
      simp only [ofLive?] at h
      split at h
      · cases h
      · split at h <;> cases h
        · exact .inr ⟨_, rfl⟩
        · exact .inl rfl

theorem live_eq_of_ofLive?_object {id : ObjectId} {v : Live}
    (h : ofLive? v = some (.object id)) : v = .object id :=
  (eq_live_of_ofLive? h).resolve_right fun ⟨_, hi⟩ => by cases hi

theorem Canonical.not_nan {k : Key} (h : k.Canonical) {x : Binary64}
    (hx : k.live = .scalar (.float x)) : x.isNaN = false := by
  rw [Canonical, hx] at h
  cases hnan : x.isNaN with
  | false => rfl
  | true => simp [ofLive?, hnan] at h

theorem Canonical.live_ne_nil {k : Key} (h : k.Canonical) : k.live ≠ .nil := by
  intro hn
  rw [Canonical, hn] at h
  cases h

end Key

namespace Table

theorem mem_insert {entries : List (Key × Live)} {k : Key} {v : Live} {e : Key × Live}
    (h : e ∈ insert entries k v) : e = (k, v) ∨ e ∈ entries := by
  induction entries with
  | nil => simpa [insert] using h
  | cons e' rest ih =>
    obtain ⟨k', v'⟩ := e'
    by_cases hk : k' = k
    · simp only [insert, hk, ↓reduceIte, List.mem_cons] at h
      exact h.imp_right (List.mem_cons_of_mem _)
    · simp only [insert, hk, ↓reduceIte, List.mem_cons] at h
      obtain rfl | h := h
      · exact .inr List.mem_cons_self
      · exact (ih h).imp_right (List.mem_cons_of_mem _)

theorem keys_insert (entries : List (Key × Live)) (k : Key) (v : Live) :
    (insert entries k v).map Prod.fst =
      if k ∈ entries.map Prod.fst then entries.map Prod.fst else entries.map Prod.fst ++ [k] := by
  induction entries with
  | nil => rfl
  | cons e rest ih =>
    obtain ⟨k', v'⟩ := e
    by_cases hk : k' = k
    · simp [insert, hk]
    · have hk' : k ≠ k' := fun he => hk he.symm
      by_cases hm : k ∈ rest.map Prod.fst
      · simp only [insert, hk, ↓reduceIte, List.map_cons, ih, hm, List.mem_cons, or_true]
      · simp only [insert, hk, ↓reduceIte, List.map_cons, ih, hm, List.mem_cons, hk', or_self,
          List.cons_append]

theorem nodup_keys_insert {entries : List (Key × Live)} (h : (entries.map Prod.fst).Nodup)
    (k : Key) (v : Live) : ((insert entries k v).map Prod.fst).Nodup := by
  rw [keys_insert]
  split
  · exact h
  · rename_i hm
    refine List.nodup_append.mpr ⟨h, List.pairwise_singleton .., fun a ha b hb he => hm ?_⟩
    rwa [← List.mem_singleton.mp hb, ← he]

theorem mem_of_mem_erase {entries : List (Key × Live)} {k : Key} {e : Key × Live}
    (h : e ∈ erase entries k) : e ∈ entries :=
  (List.mem_filter.mp h).1

theorem nodup_keys_erase {entries : List (Key × Live)} (h : (entries.map Prod.fst).Nodup)
    (k : Key) : ((erase entries k).map Prod.fst).Nodup :=
  h.sublist ((List.filter_sublist).map Prod.fst)

structure Normal (contents : Table) : Prop where
  canonical : ∀ e ∈ contents.entries, e.1.Canonical
  distinct : (contents.entries.map Prod.fst).Nodup
  present : ∀ e ∈ contents.entries, e.2 ≠ .nil

theorem mem_set {contents : Table} {k : Key} {v : Live} {e : Key × Live}
    (h : e ∈ (contents.set k v).entries) : (e = (k, v) ∧ v ≠ .nil) ∨ e ∈ contents.entries := by
  rw [set] at h
  split at h
  · exact .inr (mem_of_mem_erase h)
  · rename_i hv
    exact (mem_insert h).imp_left (⟨·, hv⟩)

theorem Normal.set {contents : Table} (h : contents.Normal) {k : Key} (hk : k.Canonical)
    (v : Live) : (contents.set k v).Normal where
  canonical e he := by
    obtain ⟨rfl, -⟩ | he := mem_set he
    · exact hk
    · exact h.canonical e he
  distinct := by
    rw [Table.set]
    split
    · exact nodup_keys_erase h.distinct k
    · exact nodup_keys_insert h.distinct k v
  present e he := by
    obtain ⟨rfl, hv⟩ | he := mem_set he
    · exact hv
    · exact h.present e he

end Table

namespace Target

/-- `v` is a value of `t`: a scalar, or one of its objects. -/
def Owns (t : Target) (v : Live) : Prop :=
  ∃ kind, t.kind? v = some kind

/-- Each value of `t` is a value of `u`, of the same kind. -/
def Extends (u t : Target) : Prop :=
  ∀ v kind, t.kind? v = some kind → u.kind? v = some kind

theorem owns_scalar (t : Target) (s : Scalar) : t.Owns (.scalar s) := ⟨s.kind, rfl⟩

theorem Extends.owns {t u : Target} (h : u.Extends t) {v : Live} (hv : t.Owns v) : u.Owns v :=
  hv.imp (h v)

theorem Extends.of_heap_eq {t u : Target} (h : u.heap = t.heap) : u.Extends t := by
  intro v kind hk
  cases v with
  | scalar s => exact hk
  | object id => simpa only [kind?, h] using hk

end Target

structure Table.Sound (table : Table) (t : Target) : Prop where
  canonical : ∀ e ∈ table.entries, e.1.Canonical
  distinct : (table.entries.map Prod.fst).Nodup
  ownsKey : ∀ e ∈ table.entries, t.Owns e.1.live
  ownsValue : ∀ e ∈ table.entries, t.Owns e.2
  present : ∀ e ∈ table.entries, e.2 ≠ .nil
  metatable : ∀ id, table.metatable = some id → t.kind? (.object id) = some .table

def Object.Sound (t : Target) : Object → Prop
  | .table contents => contents.Sound t
  | .function _ upvalues => ∀ b ∈ upvalues, t.Owns b.2
  | .userdata payload metatable => (∀ v, payload = some v → t.Owns v) ∧
      ∀ id, metatable = some id → t.kind? (.object id) = some .table
  | .thread => True

def Root.kind : Root → Kind
  | globals | registry => .table
  | mainThread => .thread

/-- Only kinds whose values have no metatables of their own share one. -/
structure Target.Sound (t : Target) : Prop where
  roots : ∀ r, t.kind? (Target.root r) = some r.kind
  objects : ∀ (id : ObjectId) (o : Object), t.heap[id]? = some o → o.Sound t
  shared : ∀ kind id, t.shared kind = some id →
    kind.hasOwnMetatable = false ∧ t.kind? (.object id) = some .table
  functions : ∀ f ∈ t.frames, t.Owns (.object f.function)
  locals : ∀ f ∈ t.frames, ∀ b ∈ f.locals, t.Owns b.2

theorem Table.sound_empty (t : Target) : Table.empty.Sound t := by
  constructor <;> simp [Table.empty]

theorem Table.Sound.mono {t u : Target} (h : u.Extends t) {table : Table} (ht : table.Sound t) :
    table.Sound u where
  canonical := ht.canonical
  distinct := ht.distinct
  ownsKey e he := h.owns (ht.ownsKey e he)
  ownsValue e he := h.owns (ht.ownsValue e he)
  present := ht.present
  metatable id hid := h _ _ (ht.metatable id hid)

theorem Object.Sound.mono {t u : Target} (h : u.Extends t) {o : Object} (ho : o.Sound t) :
    o.Sound u := by
  cases o with
  | table contents => exact Table.Sound.mono h ho
  | function code upvalues => exact fun b hb => h.owns (ho b hb)
  | userdata payload metatable =>
    exact ⟨fun v hv => h.owns (ho.1 v hv), fun id hid => h _ _ (ho.2 id hid)⟩
  | thread => trivial

theorem Table.Sound.normal {contents : Table} {t : Target} (h : contents.Sound t) :
    contents.Normal :=
  ⟨h.canonical, h.distinct, h.present⟩

theorem Table.Sound.set {t : Target} {table : Table} (ht : table.Sound t) {key value : Live}
    {k : Key} (hk : Key.ofLive? key = some k) (hkey : t.Owns key) (hvalue : t.Owns value) :
    (table.set k value).Sound t := by
  have hlive : t.Owns k.live := by
    cases k with
    | object id => rwa [Key.live_eq_of_ofLive?_object hk] at hkey
    | boolean | integer | float | string | pointer => exact Target.owns_scalar t _
  have hnormal := ht.normal.set (Key.canonical_of_ofLive? hk) value
  exact
    { canonical := hnormal.canonical
      distinct := hnormal.distinct
      present := hnormal.present
      ownsKey := fun e he => by
        obtain ⟨rfl, -⟩ | he := Table.mem_set he
        · exact hlive
        · exact ht.ownsKey e he
      ownsValue := fun e he => by
        obtain ⟨rfl, -⟩ | he := Table.mem_set he
        · exact hvalue
        · exact ht.ownsValue e he
      metatable := by
        rw [Table.set]
        split <;> exact ht.metatable }

end RemoteInspect
