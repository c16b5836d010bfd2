import RemoteInspect.Proofs.Except
import RemoteInspect.Proofs.Target.Sound

namespace RemoteInspect.Target

variable {t u : Target}

/-- One operation of the owner of a target, with values of that target only. Values can be pinned
and released at any time. -/
inductive Step (t : Target) : Target → Prop
  | newTable : Step t t.newTable.2
  | newThread : Step t t.newThread.2
  | newNative (address : UInt64) : Step t (t.newNative address).2
  | newClosure (source : String) (firstLine lastLine : Int64) (upvalues : List Binding)
      (owned : ∀ b ∈ upvalues, t.Owns b.2) :
      Step t (t.newClosure source firstLine lastLine upvalues).2
  | newUserdata (payload : Option Live) (owned : ∀ v, payload = some v → t.Owns v) :
      Step t (t.newUserdata payload).2
  | set {table key value : Live} {u : Target} (ownsKey : t.Owns key) (ownsValue : t.Owns value)
      (done : t.set table key value = .ok u) : Step t u
  | setGlobal {name : String} {value : Live} {u : Target} (owned : t.Owns value)
      (done : t.setGlobal name value = .ok u) : Step t u
  | setUpvalue {function value : Live} {index : UInt32} {u : Target} (owned : t.Owns value)
      (done : t.setUpvalue function index value = .ok u) : Step t u
  | setMetatable {value : Live} {metatable : Option Live} {u : Target}
      (done : t.setMetatable value metatable = .ok u) : Step t u
  | pushFrame {function : Live} {locals : List Binding} {u : Target}
      (ownsFunction : t.Owns function) (ownsLocals : ∀ b ∈ locals, t.Owns b.2)
      (done : t.pushFrame function locals = .ok u) : Step t u
  | popFrame {u : Target} (done : t.popFrame = .ok u) : Step t u
  | setLocal {level : UInt16} {slot : UInt32} {value : Live} {u : Target} (owned : t.Owns value)
      (done : t.setLocal level slot value = .ok u) : Step t u
  | setStatus (status : Int32) : Step t { t with status }
  | setCapacity (capacity : Nat) : Step t { t with capacity }
  | pin : Step t t.pin
  | release (held : 0 < t.pinned) : Step t t.release

inductive Reachable : Target → Prop
  | initial (capacity : Nat) : Reachable { initial with capacity }
  | step {t u : Target} (before : Reachable t) (step : Step t u) : Reachable u

theorem Sound.of_heap_eq (ht : t.Sound) (hheap : u.heap = t.heap) (hshared : u.shared = t.shared)
    (hframes : ∀ f ∈ u.frames, u.Owns (.object f.function) ∧ ∀ b ∈ f.locals, u.Owns b.2) :
    u.Sound :=
  have hext : u.Extends t := .of_heap_eq hheap
  { roots := fun r => hext _ _ (ht.roots r)
    objects := fun id o ho => (ht.objects id o (hheap ▸ ho)).mono hext
    shared := fun kind id hid => (ht.shared kind id (hshared ▸ hid)).imp_right (hext _ _)
    functions := fun f hf => (hframes f hf).1
    locals := fun f hf => (hframes f hf).2 }

theorem extends_allocate (t : Target) (o : Object) : (t.allocate o).2.Extends t := by
  intro v kind hk
  cases v with
  | scalar s => exact hk
  | object id =>
    simp only [kind?, Option.map_eq_some_iff] at hk ⊢
    obtain ⟨old, hold, hkind⟩ := hk
    have hlt : id < t.heap.size := (Array.getElem?_eq_some_iff.mp hold).1
    exact ⟨old, by simp [allocate, Array.getElem?_push_lt hlt, hold.symm, hlt], hkind⟩

theorem Sound.allocate (ht : t.Sound) {o : Object} (ho : o.Sound t) : (t.allocate o).2.Sound where
  roots r := extends_allocate t o _ _ (ht.roots r)
  objects id o' ho' := by
    refine Object.Sound.mono (extends_allocate t o) ?_
    simp only [Target.allocate, Array.getElem?_push] at ho'
    split at ho'
    · cases ho'; exact ho
    · exact ht.objects id o' ho'
  shared kind id hid := (ht.shared kind id hid).imp_right (extends_allocate t o _ _)
  functions f hf := (extends_allocate t o).owns (ht.functions f hf)
  locals f hf b hb := (extends_allocate t o).owns (ht.locals f hf b hb)

theorem extends_replace {id : ObjectId} {o old : Object} (hold : t.heap[id]? = some old)
    (hkind : o.kind = old.kind) : (t.replace id o).Extends t := by
  intro v kind hk
  cases v with
  | scalar s => exact hk
  | object id' =>
    by_cases hid : id = id'
    · subst hid
      have hlt : id < t.heap.size := (Array.getElem?_eq_some_iff.mp hold).1
      simp only [kind?, hold, Option.map_some, Option.some.injEq] at hk
      simp [kind?, replace, hlt, hkind, hk]
    · simpa [kind?, replace, Array.getElem?_setIfInBounds_ne hid] using hk

theorem Sound.replace (ht : t.Sound) {id : ObjectId} {o old : Object}
    (hold : t.heap[id]? = some old) (hkind : o.kind = old.kind) (ho : o.Sound t) :
    (t.replace id o).Sound where
  roots r := extends_replace hold hkind _ _ (ht.roots r)
  objects id' o' ho' := by
    refine Object.Sound.mono (extends_replace hold hkind) ?_
    simp only [Target.replace, Array.getElem?_setIfInBounds] at ho'
    split at ho'
    · split at ho'
      · cases ho'; exact ho
      · cases ho'
    · exact ht.objects id' o' ho'
  shared kind id' hid := (ht.shared kind id' hid).imp_right (extends_replace hold hkind _ _)
  functions f hf := (extends_replace hold hkind).owns (ht.functions f hf)
  locals f hf b hb := (extends_replace hold hkind).owns (ht.locals f hf b hb)

theorem table?_eq_some_iff {v : Live} {table : Table} :
    t.table? v = some table ↔ ∃ id, v = .object id ∧ t.heap[id]? = some (.table table) := by
  rw [table?]
  cases v with
  | scalar s => simp [object?]
  | object id =>
    cases h : t.heap[id]? with
    | none => simp [object?, h]
    | some o => cases o <;> simp [object?, h]

theorem set_eq_ok_iff {table key value : Live} :
    t.set table key value = .ok u ↔ ∃ id contents k, table = .object id ∧
      t.heap[id]? = some (.table contents) ∧ Key.ofLive? key = some k ∧
      u = t.replace id (.table (contents.set k value)) := by
  cases hk : Key.ofLive? key with
  | none => simp [set, hk]
  | some k =>
    cases hc : t.table? table with
    | none =>
      have hno : ∀ id contents, table = .object id → t.heap[id]? ≠ some (.table contents) :=
        fun id contents ht he => by simp [table?_eq_some_iff.mpr ⟨id, ht, he⟩] at hc
      simp only [set, hk, hc, reduceCtorEq, false_iff, not_exists, not_and]
      exact fun id contents _ ht he => absurd he (hno id contents ht)
    | some contents =>
      obtain ⟨id, rfl, hid⟩ := table?_eq_some_iff.mp hc
      simp [set, hk, hc, hid, eq_comm]

theorem Sound.set (ht : t.Sound) {table key value : Live} (hkey : t.Owns key)
    (hvalue : t.Owns value) (h : t.set table key value = .ok u) : u.Sound := by
  obtain ⟨id, contents, k, -, hid, hk, rfl⟩ := set_eq_ok_iff.mp h
  exact ht.replace hid rfl (Table.Sound.set (ht.objects id _ hid) hk hkey hvalue)

theorem mem_of_rebind {bindings bindings' : List Binding} {index : UInt32} {value : Live}
    (h : rebind bindings index value = .ok bindings') {b : Binding} (hb : b ∈ bindings') :
    b ∈ bindings ∨ b.2 = value := by
  rw [rebind] at h
  split at h
  · cases h
    exact (List.mem_or_eq_of_mem_set hb).imp_right (congrArg Prod.snd)
  · cases h

theorem Sound.setUpvalue (ht : t.Sound) {function value : Live} {index : UInt32}
    (hvalue : t.Owns value) (h : t.setUpvalue function index value = .ok u) : u.Sound := by
  cases function with
  | scalar s => cases h
  | object id =>
    cases hid : t.heap[id]? with
    | none => simp [Target.setUpvalue, hid] at h
    | some o =>
      cases o with
      | function code upvalues =>
        simp only [Target.setUpvalue, hid, Except.bind_eq_ok_iff] at h
        obtain ⟨upvalues', hr, h⟩ := h
        cases h
        refine ht.replace hid rfl fun b hb => ?_
        obtain hb | hb := mem_of_rebind hr hb
        · exact ht.objects id _ hid b hb
        · exact hb ▸ hvalue
      | table | userdata | thread => simp [Target.setUpvalue, hid] at h

theorem kind?_of_tableId {v : Live} {id : ObjectId} (h : t.tableId v = .ok id) :
    t.kind? (.object id) = some .table := by
  cases v with
  | scalar s => cases h
  | object id' =>
    cases hid : t.heap[id']? with
    | none => simp [tableId, hid] at h
    | some o =>
      cases o with
      | table contents =>
        simp only [tableId, hid, Except.ok.injEq] at h
        subst h
        simp [kind?, hid, Object.kind]
      | function | userdata | thread => simp [tableId, hid] at h

theorem Sound.share (ht : t.Sound) {kind : Kind} (hkind : kind.hasOwnMetatable = false)
    {metatable : Option ObjectId}
    (hm : ∀ id, metatable = some id → t.kind? (.object id) = some .table) :
    (t.share kind metatable).Sound :=
  have hext : (t.share kind metatable).Extends t := .of_heap_eq rfl
  { roots := ht.roots
    objects := fun id o ho => (ht.objects id o ho).mono hext
    shared := fun kind' id hid => by
      by_cases hk : kind' = kind
      · subst hk
        exact ⟨hkind, hm id (by simpa [Target.share] using hid)⟩
      · exact ht.shared kind' id (by simpa [Target.share, hk] using hid)
    functions := ht.functions
    locals := ht.locals }

theorem kind_hasOwnMetatable (s : Scalar) : s.kind.hasOwnMetatable = false := by
  cases s <;> rfl

theorem Sound.setMetatable (ht : t.Sound) {value : Live} {metatable : Option Live}
    (h : t.setMetatable value metatable = .ok u) : u.Sound := by
  simp only [Target.setMetatable, Except.bind_eq_ok_iff] at h
  obtain ⟨m, hm, h⟩ := h
  have hid : ∀ id, m = some id → t.kind? (.object id) = some .table := by
    rintro id rfl
    cases metatable with
    | none => cases hm
    | some v =>
      obtain ⟨id', hv, he⟩ := Except.bind_eq_ok_iff.mp hm
      cases he
      exact kind?_of_tableId hv
  cases value with
  | scalar s =>
    cases h
    exact ht.share (kind_hasOwnMetatable s) hid
  | object id =>
    cases ho : t.heap[id]? with
    | none => simp [ho] at h
    | some o =>
      have hso := ht.objects id o ho
      cases o with
      | table contents =>
        simp only [ho, Except.pure_eq_ok, Except.ok.injEq] at h
        subst h
        exact ht.replace ho rfl { hso with metatable := hid }
      | userdata payload metatable' =>
        simp only [ho, Except.pure_eq_ok, Except.ok.injEq] at h
        subst h
        exact ht.replace ho rfl ⟨hso.1, hid⟩
      | function | thread =>
        simp only [ho, Except.pure_eq_ok, Except.ok.injEq] at h
        subst h
        exact ht.share rfl hid

theorem Sound.pushFrame (ht : t.Sound) {function : Live} {locals : List Binding}
    (hfunction : t.Owns function) (hlocals : ∀ b ∈ locals, t.Owns b.2)
    (h : t.pushFrame function locals = .ok u) : u.Sound := by
  cases function with
  | scalar s => cases h
  | object id =>
    cases h
    exact ht.of_heap_eq rfl rfl <| List.forall_mem_cons.mpr
      ⟨⟨hfunction, hlocals⟩, fun f hf => ⟨ht.functions f hf, ht.locals f hf⟩⟩

theorem Sound.popFrame (ht : t.Sound) (h : t.popFrame = .ok u) : u.Sound := by
  rw [Target.popFrame] at h
  split at h
  · cases h
  · rename_i f frames hf
    cases h
    refine ht.of_heap_eq rfl rfl fun g hg => ?_
    have hmem : g ∈ t.frames := hf ▸ List.mem_cons_of_mem f hg
    exact ⟨ht.functions g hmem, ht.locals g hmem⟩

theorem Sound.setLocal (ht : t.Sound) {level : UInt16} {slot : UInt32} {value : Live}
    (hvalue : t.Owns value) (h : t.setLocal level slot value = .ok u) : u.Sound := by
  cases hf : t.frame? level with
  | none => simp [Target.setLocal, hf] at h
  | some frame =>
    simp only [Target.setLocal, hf, Except.bind_eq_ok_iff] at h
    obtain ⟨locals, hr, h⟩ := h
    cases h
    have hmem : frame ∈ t.frames := List.mem_of_getElem? hf
    refine ht.of_heap_eq rfl rfl fun g hg => ?_
    obtain hg | rfl := List.mem_or_eq_of_mem_set hg
    · exact ⟨ht.functions g hg, ht.locals g hg⟩
    · refine ⟨ht.functions frame hmem, fun b hb => ?_⟩
      obtain hb | hb := mem_of_rebind hr hb
      · exact ht.locals frame hmem b hb
      · exact hb ▸ hvalue

theorem sound_initialRegistry (hthread : t.kind? (root .mainThread) = some .thread)
    (hglobals : t.kind? (root .globals) = some .table) : initialRegistry.Sound t where
  canonical := by simp [initialRegistry, Key.Canonical, Key.live, Key.ofLive?]
  distinct := by decide
  ownsKey := by simp [initialRegistry, Key.live, owns_scalar]
  ownsValue := by simpa [initialRegistry] using ⟨⟨_, hthread⟩, ⟨_, hglobals⟩⟩
  present := by decide
  metatable := by simp [initialRegistry]

theorem sound_initial (capacity : Nat) : Sound { initial with capacity } where
  roots r := by cases r <;> rfl
  objects id o ho := by
    obtain _ | _ | _ | id := id
    · cases ho
      exact sound_initialRegistry rfl rfl
    · cases ho
      exact Table.sound_empty _
    · cases ho
      trivial
    · simp [initial] at ho
  shared kind id hid := by cases hid
  functions f hf := by cases hf
  locals f hf := by cases hf

theorem Sound.step (ht : t.Sound) (h : Step t u) : u.Sound := by
  have hframes : ∀ f ∈ t.frames, t.Owns (.object f.function) ∧ ∀ b ∈ f.locals, t.Owns b.2 :=
    fun f hf => ⟨ht.functions f hf, ht.locals f hf⟩
  cases h with
  | newTable => exact ht.allocate (Table.sound_empty t)
  | newThread => exact ht.allocate (o := .thread) trivial
  | newNative address =>
    exact ht.allocate (o := .function (.native address) []) (by simp [Object.Sound])
  | newClosure source firstLine lastLine upvalues owned =>
    exact ht.allocate (o := .function (.script source firstLine lastLine) upvalues) owned
  | newUserdata payload owned =>
    exact ht.allocate (o := .userdata payload none) ⟨owned, by simp⟩
  | set ownsKey ownsValue done => exact ht.set ownsKey ownsValue done
  | setGlobal owned done => exact ht.set (owns_scalar t _) owned done
  | setUpvalue owned done => exact ht.setUpvalue owned done
  | setMetatable done => exact ht.setMetatable done
  | pushFrame ownsFunction ownsLocals done => exact ht.pushFrame ownsFunction ownsLocals done
  | popFrame done => exact ht.popFrame done
  | setLocal owned done => exact ht.setLocal owned done
  | setStatus status => exact ht.of_heap_eq rfl rfl hframes
  | setCapacity capacity => exact ht.of_heap_eq rfl rfl hframes
  | pin => exact ht.of_heap_eq rfl rfl hframes
  | release held => exact ht.of_heap_eq rfl rfl hframes

theorem Reachable.sound (h : t.Reachable) : t.Sound := by
  induction h with
  | initial capacity => exact sound_initial capacity
  | step _ step ih => exact ih.step step

/-- The global `k` is a table, and a userdata both its first value and its second key. -/
def linked : Target :=
  { initial with heap := #[.table initialRegistry,
      .table ⟨[(.string [107], .object 3)], none⟩, .thread,
      .table ⟨[(.integer 1, .object 4), (.object 4, .object 3)], none⟩,
      .userdata (some (.object 3)) none] }

theorem reachable_linked : linked.Reachable := by
  let table : Target := initial.newTable.2
  let userdata : Target := (table.newUserdata (some (.object 3))).2
  have htable : table.Reachable := .step (.initial defaultCapacity) .newTable
  have howned : ∀ v, some (Live.object 3) = some v → table.Owns v := by
    rintro v ⟨⟩
    exact ⟨.table, rfl⟩
  have huserdata : userdata.Reachable := .step htable (.newUserdata _ howned)
  let named : Target := userdata.replace 1 (.table ⟨[(.string [107], .object 3)], none⟩)
  have hnamed : userdata.set (root .globals) (.scalar (.string [107])) (.object 3) =
    .ok named := rfl
  have hn : named.Reachable := .step huserdata (.set (owns_scalar _ _) ⟨.table, rfl⟩ hnamed)
  let first : Target := named.replace 3 (.table ⟨[(.integer 1, .object 4)], none⟩)
  have hfirst : named.set (.object 3) (.scalar (.integer 1)) (.object 4) = .ok first := rfl
  have hf : first.Reachable := .step hn (.set (owns_scalar _ _) ⟨.userdata, rfl⟩ hfirst)
  have hlast : first.set (.object 3) (.object 4) (.object 3) = .ok linked := rfl
  exact .step hf (.set ⟨.userdata, rfl⟩ ⟨.table, rfl⟩ hlast)

end RemoteInspect.Target
