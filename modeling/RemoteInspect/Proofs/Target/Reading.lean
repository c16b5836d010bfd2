import RemoteInspect.Proofs.Target.Reachable
import RemoteInspect.Tree.Evaluation

namespace RemoteInspect

namespace Table

variable {table : Table} {t : Target}

theorem get_of_mem (hd : (table.entries.map Prod.fst).Nodup) {k : Key} {v : Live}
    (h : (k, v) ∈ table.entries) : table.get k = v := by
  obtain ⟨before, after, he⟩ := List.append_of_mem h
  rw [he, List.map_append, List.map_cons, List.nodup_append] at hd
  have hlookup : table.entries.lookup k = some v := by
    refine List.lookup_eq_some_iff.mpr ⟨before, after, he, fun e hm => ?_⟩
    have hne := hd.2.2 e.1 (List.mem_map_of_mem hm) k List.mem_cons_self
    simpa using fun hk => hne hk.symm
  rw [get, find?, hlookup, Option.getD_some]

theorem mem_of_get {k : Key} (h : table.get k ≠ .nil) : (k, table.get k) ∈ table.entries := by
  cases hl : table.entries.lookup k with
  | none => simp [get, find?, hl] at h
  | some v =>
    obtain ⟨before, after, he, -⟩ := List.lookup_eq_some_iff.mp hl
    rw [get, find?, hl, Option.getD_some, he]
    exact List.mem_append_right _ List.mem_cons_self

theorem Sound.owns_get (ht : table.Sound t) (k : Key) : t.Owns (table.get k) := by
  by_cases h : table.get k = .nil
  · rw [h]; exact Target.owns_scalar t .nil
  · exact ht.ownsValue _ (mem_of_get h)

theorem mem_of_first {entries : List (Key × Live)} {k v : Live} (h : first entries = .entry k v) :
    ∃ key, (key, v) ∈ entries ∧ k = key.live := by
  cases entries with
  | nil => cases h
  | cons e rest => cases h; exact ⟨e.1, List.mem_cons_self, rfl⟩

theorem mem_of_after {entries : List (Key × Live)} {last : Key} {k v : Live}
    (h : after entries last = .entry k v) : ∃ key, (key, v) ∈ entries ∧ k = key.live := by
  induction entries with
  | nil => cases h
  | cons e rest ih =>
    have hrest : ∃ key, (key, v) ∈ rest ∧ k = key.live := by
      by_cases hk : e.1 = last
      · rw [after, if_pos hk] at h
        exact mem_of_first h
      · rw [after, if_neg hk] at h
        exact ih h
    obtain ⟨key, hm, hlive⟩ := hrest
    exact ⟨key, List.mem_cons_of_mem e hm, hlive⟩

theorem mem_of_next {last k v : Live} (h : table.next last = .entry k v) :
    ∃ key, (key, v) ∈ table.entries ∧ k = key.live := by
  rw [next] at h
  split at h
  · exact mem_of_first h
  · split at h
    · exact mem_of_after h
    · cases h

end Table

namespace Target

variable {t : Target}

theorem kind?_eq_nil_iff {v : Live} : t.kind? v = some .nil ↔ v = .nil := by
  cases v with
  | scalar s => cases s <;> simp [kind?, Scalar.kind, Live.nil]
  | object id =>
    cases hid : t.heap[id]? with
    | none => simp [kind?, hid, Live.nil]
    | some o => cases o <;> simp [kind?, hid, Object.kind, Live.nil]

/-- Copying needs no more of a value than its kind and the readers for it. -/
theorem readAs_kind {v : Live} {kind : Kind} (h : t.kind? v = some kind) :
    v.readAs kind = v.copy? := by
  cases v with
  | scalar s =>
    cases h
    cases s with
    | pointer p => exact congrArg (some ∘ Scalar.pointer) (UInt64.ofNat_toNat (x := p))
    | boolean b => cases b <;> rfl
    | nil | integer | float | string => rfl
  | object id =>
    obtain ⟨o, -, rfl⟩ := Option.map_eq_some_iff.mp h
    cases o <;> rfl

theorem mem_of_nth? {bindings : List Binding} {index : UInt32} {b : Binding}
    (h : nth? bindings index = some b) : b ∈ bindings := by
  rw [nth?] at h
  split at h
  · cases h
  · exact List.mem_of_getElem? h

theorem Sound.table (ht : t.Sound) {v : Live} {contents : Table}
    (h : t.table? v = some contents) : contents.Sound t := by
  obtain ⟨id, -, hid⟩ := table?_eq_some_iff.mp h
  exact ht.objects id _ hid

theorem rawGet_eq {v key : Live} {contents : Table} {k : Key} (h : t.table? v = some contents)
    (hk : Key.ofLive? key = some k) : t.rawGet v key = contents.get k := by
  simp [rawGet, h, hk]

theorem Sound.owns_rawGet (ht : t.Sound) (v key : Live) : t.Owns (t.rawGet v key) := by
  rw [rawGet]
  split
  · rename_i contents k hc hk
    exact (ht.table hc).owns_get k
  · exact owns_scalar t .nil

/-- A next entry is one of the table: looking its key up gives its value. -/
theorem Sound.rawNext (ht : t.Sound) {v last k value : Live}
    (h : t.rawNext v last = .entry k value) :
    t.Owns k ∧ t.Owns value ∧ k ≠ .nil ∧ value ≠ .nil ∧ t.rawGet v k = value := by
  cases hc : t.table? v with
  | none => simp [Target.rawNext, hc] at h
  | some contents =>
    simp only [Target.rawNext, hc] at h
    obtain ⟨key, hm, rfl⟩ := Table.mem_of_next h
    have hs := ht.table hc
    have hcanonical := hs.canonical _ hm
    refine ⟨hs.ownsKey _ hm, hs.ownsValue _ hm, hcanonical.live_ne_nil, hs.present _ hm, ?_⟩
    rw [rawGet_eq hc hcanonical, Table.get_of_mem hs.distinct hm]

theorem Sound.owns_upvalue (ht : t.Sound) {function : Live} {index : UInt32} {b : Binding}
    (h : t.upvalue? function index = some b) : t.Owns b.2 := by
  obtain ⟨⟨code, upvalues⟩, hf, hn⟩ := Option.bind_eq_some_iff.mp h
  cases function with
  | scalar s => cases hf
  | object id =>
    cases hid : t.heap[id]? with
    | none => simp [function?, object?, hid] at hf
    | some o =>
      cases o with
      | function code' upvalues' =>
        simp only [function?, object?, hid, Option.some.injEq, Prod.mk.injEq] at hf
        exact ht.objects id _ hid b (hf.2 ▸ mem_of_nth? hn)
      | table | userdata | thread => simp [function?, object?, hid] at hf

theorem Sound.owns_payload (ht : t.Sound) {v payload : Live} (h : t.payload? v = some payload) :
    t.Owns payload := by
  cases v with
  | scalar s => cases h
  | object id =>
    cases hid : t.heap[id]? with
    | none => simp [payload?, object?, hid] at h
    | some o =>
      cases o with
      | userdata payload' metatable =>
        simp only [payload?, object?, hid] at h
        exact (ht.objects id _ hid).1 payload h
      | table | function | thread => simp [payload?, object?, hid] at h

theorem Sound.owns_frameLocal (ht : t.Sound) {level : UInt16} {slot : UInt32} {b : Binding}
    (h : t.frameLocal? level slot = some b) : t.Owns b.2 := by
  obtain ⟨f, hf, hn⟩ := Option.bind_eq_some_iff.mp h
  exact ht.locals f (List.mem_of_getElem? hf) b (mem_of_nth? hn)

theorem Sound.frameFunction (ht : t.Sound) {level : UInt16} {v : Live}
    (h : t.frameFunction? level = some v) : t.Owns v ∧ ∃ id, v = .object id := by
  obtain ⟨f, hf, rfl⟩ := Option.map_eq_some_iff.mp h
  exact ⟨ht.functions f (List.mem_of_getElem? hf), f.function, rfl⟩

theorem metatable?_of_shared {v : Live} {kind : Kind} (hk : t.kind? v = some kind)
    (hs : kind.hasOwnMetatable = false) : t.metatable? v = (t.shared kind).map .object := by
  cases v with
  | scalar s => cases hk; rfl
  | object id =>
    cases hid : t.heap[id]? with
    | none => simp [kind?, hid] at hk
    | some o =>
      simp only [kind?, hid, Option.map_some, Option.some.injEq] at hk
      subst hk
      cases o with
      | table | userdata => cases hs
      | function | thread => simp [metatable?, object?, kind?, hid]

theorem Sound.metatable (ht : t.Sound) {v m : Live} (h : t.metatable? v = some m) :
    t.kind? m = some .table ∧ ∃ id, m = .object id := by
  have hshared : ∀ kind, (t.shared kind).map Live.object = some m →
      t.kind? m = some .table ∧ ∃ id, m = .object id := by
    intro kind hs
    obtain ⟨id, hid, rfl⟩ := Option.map_eq_some_iff.mp hs
    exact ⟨(ht.shared kind id hid).2, id, rfl⟩
  cases v with
  | scalar s => exact hshared s.kind h
  | object id =>
    cases hid : t.heap[id]? with
    | none => simp [metatable?, object?, kind?, hid] at h
    | some o =>
      have ho := ht.objects id o hid
      cases o with
      | table contents =>
        simp only [metatable?, object?, hid] at h
        obtain ⟨m', hm, rfl⟩ := Option.map_eq_some_iff.mp h
        exact ⟨Table.Sound.metatable ho m' hm, m', rfl⟩
      | userdata payload metatable =>
        simp only [metatable?, object?, hid] at h
        obtain ⟨m', hm, rfl⟩ := Option.map_eq_some_iff.mp h
        exact ⟨ho.2 m' hm, m', rfl⟩
      | function | thread =>
        exact hshared _ (by simpa [metatable?, object?, kind?, hid] using h)

theorem Sound.owns_metatable (ht : t.Sound) {v m : Live} (h : t.metatable? v = some m) :
    t.Owns m :=
  ⟨.table, (ht.metatable h).1⟩

theorem Sound.owns_root (ht : t.Sound) (r : Root) : t.Owns (Target.root r) :=
  ⟨r.kind, ht.roots r⟩

end Target

end RemoteInspect
