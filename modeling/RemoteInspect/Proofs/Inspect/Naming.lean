import RemoteInspect.Proofs.Inspect.Settled

namespace RemoteInspect

open Inspect (record)
open RemoteInspect.Tree (checkKind lookUp ofOption)

variable {t : Target}

namespace Value

def Resolves (t : Target) (value : Value) (v : Live) : Prop :=
  ∃ m, value.Denotes m ∧ m.value t = .ok v

/-- `value` is the copy of `v` or, as `v` is an object, a handle of it. -/
def Names (t : Target) (value : Value) (v : Live) : Prop :=
  value.Resolves t v ∧ ∀ h, value = .handle h → ∃ id, v = .object id

theorem exists_resolves_iff {value : Value} {m : Meaning} (hm : value.Denotes m) :
    (∃ v, value.Resolves t v) ↔ ∃ v, m.value t = .ok v := by
  constructor
  · rintro ⟨v, m', hm', hv⟩
    exact ⟨v, hm.eq hm' ▸ hv⟩
  · rintro ⟨v, hv⟩
    exact ⟨v, m, hm, hv⟩

theorem resolves_scalar (s : Scalar) : (scalar s).Resolves t (.scalar s) :=
  ⟨.scalar s, rfl, rfl⟩

theorem eq_of_resolves_scalar {s : Scalar} {v : Live} (h : (scalar s).Resolves t v) :
    v = .scalar s := by
  obtain ⟨m, hm, hv⟩ := h
  cases m with
  | tree u => cases hm
  | scalar s' => cases hm; cases hv; rfl

theorem resolves_handle_iff {h : Handle} {v : Live} :
    (handle h).Resolves t v ↔ ∃ tree, h.Denotes tree ∧ tree.value t = .ok v := by
  constructor
  · rintro ⟨m, hm, hv⟩
    cases m with
    | scalar s => cases hm
    | tree u => exact ⟨u, hm, hv⟩
  · rintro ⟨tree, hh, hv⟩
    exact ⟨.tree tree, hh, hv⟩

theorem names_scalar (s : Scalar) : (scalar s).Names t (.scalar s) :=
  ⟨resolves_scalar s, fun _ h => by cases h⟩

theorem names_object {h : Handle} {tree : Tree Scalar} {id : ObjectId} (hh : h.Denotes tree)
    (hv : tree.value t = .ok (.object id)) : (handle h).Names t (.object id) :=
  ⟨resolves_handle_iff.mpr ⟨tree, hh, hv⟩, fun _ _ => ⟨id, rfl⟩⟩

end Value

theorem Tree.checkKind_table {table : Live} {contents : Table}
    (hc : t.table? table = some contents) : checkKind t .table table = .ok table := by
  obtain ⟨id, rfl, hid⟩ := Target.table?_eq_some_iff.mp hc
  simp [checkKind, Target.kind?, hid, Object.kind, Expectation.accepts]

namespace Answer

theorem names_of_published {v : Live} {lazy : Except Fault Handle} {value : Value}
    (hlazy : ∀ h, lazy = .ok h → ∃ tree, h.Denotes tree ∧ tree.value t = .ok v)
    (h : published v lazy = .ok value) : value.Names t v := by
  cases v with
  | scalar s => cases h; exact Value.names_scalar s
  | object id =>
    obtain ⟨h', hmade, rfl⟩ := Except.map_eq_ok_iff.mp (Except.mapError_eq_ok_iff.mp h)
    obtain ⟨tree, htree, hv⟩ := hlazy h' hmade
    exact Value.names_object htree hv

theorem exists_base {base : Value} {b : Meaning} {expected : Expectation} {v : Live} {h : Handle}
    (hb : base.Denotes b) (hv : b.value t = .ok v)
    (hh : baseHandle t base expected v = .ok h) :
    ∃ tb, h.Denotes tb ∧ tb.value t = .ok v ∧ checkKind t expected v = .ok v := by
  cases base with
  | scalar s => cases hh
  | handle h' =>
    obtain ⟨v', hc, rfl⟩ := Except.map_eq_ok_iff.mp hh
    cases Tree.eq_of_checkKind hc
    obtain ⟨tb, htb, hvalue⟩ := Value.resolves_handle_iff.mp ⟨b, hb, hv⟩
    exact ⟨tb, htb, hvalue, hc⟩

theorem lookup_record {key : Value} {k table : Live} {b h : Handle} {tb : Tree Scalar}
    {lookup : Lookup} (hk : key.Resolves t k) (hb : b.Denotes tb) (hv : tb.value t = .ok table)
    (hc : checkKind t .table table = .ok table)
    (made : (record key k).lookup b lookup = .ok h) :
    ∃ tree, h.Denotes tree ∧ tree.value t = lookUp t lookup table k := by
  have hconstant : ∀ s, k = .scalar s → (Inspect.Recorded.constant s).lookup b lookup = .ok h →
      ∃ tree, h.Denotes tree ∧ tree.value t = lookUp t lookup table k := by
    rintro s rfl made
    refine ⟨.index lookup tb s, ?_, by simp [Tree.value, hv, hc]⟩
    cases lookup with
    | get => exact hb.index made
    | next => exact hb.nextKey made
  cases key with
  | scalar s => exact hconstant s (Value.eq_of_resolves_scalar hk) made
  | handle kh =>
    obtain ⟨tk, htk, hvalue⟩ := Value.resolves_handle_iff.mp hk
    cases k with
    | scalar s => exact hconstant s rfl made
    | object id =>
      have made' : b.indexObject lookup kh = .ok h := by cases lookup <;> exact made
      refine ⟨.indexObject lookup tb tk, hb.indexObject htk made', ?_⟩
      simp [Tree.value, hv, hc, hvalue]

theorem entryHandle_eq_lookup {h : Handle} {key : Value} {k : Live} (hk : key.Names t k) :
    entryHandle h key = (record key k).lookup h .get := by
  cases key with
  | scalar s => rfl
  | handle kh =>
    obtain ⟨id, rfl⟩ := hk.2 kh rfl
    rfl

theorem query_names {h : Handle} {tree : Tree Scalar} (hh : h.Denotes tree) {r : Reading}
    (hr : query t h ((tree.value t).mapError Stop.failure) = .ok r) :
    ∃ v, tree.value t = .ok v ∧ r.value.Names t v := by
  obtain ⟨v, hv, hr⟩ := Except.bind_eq_ok_iff.mp hr
  rw [Except.mapError_eq_ok_iff] at hv
  cases hk : t.kind? v with
  | none => simp [hk] at hr
  | some kind =>
    simp only [hk] at hr
    obtain ⟨value, hp, rfl⟩ := Except.map_eq_ok_iff.mp hr
    refine ⟨v, hv, names_of_published (fun h' made => ?_) hp⟩
    cases made
    exact ⟨tree, hh, hv⟩

variable {base key last : Value} {b k : Meaning}

theorem index_names (hb : base.Denotes b) (hk : key.Denotes k) {value : Value}
    (h : index t base key (b.unlimited t) (k.unlimited t) (.ok ()) = .ok value) :
    ∃ table k', b.value t = .ok table ∧ k.value t = .ok k' ∧
      value.Names t (t.rawGet table k') := by
  rw [index] at h
  split at h
  · cases h
  simp only [Meaning.unlimited, Except.bind_eq_ok_iff, Except.mapError_eq_ok_iff] at h
  obtain ⟨table, hv, hb', hbase, k', hkey, h⟩ := h
  split at h
  · cases h
  simp only [Except.bind_eq_ok_iff, Except.mapError_eq_ok_iff] at h
  obtain ⟨-, -, v, hlookup, h⟩ := h
  obtain ⟨tb, htb, hvalue, hc⟩ := exists_base hb hv hbase
  have hv' : v = t.rawGet table k' := by
    simp only [lookUp] at hlookup
    split at hlookup <;> cases hlookup
    rfl
  refine ⟨table, k', hv, hkey, hv' ▸ names_of_published (fun h' made => ?_) h⟩
  obtain ⟨tree, htree, heq⟩ := lookup_record ⟨k, hk, hkey⟩ htb hvalue hc made
  exact ⟨tree, htree, heq.trans hlookup⟩

/-- The value of an entry is found again under its key, whatever the key is given as. -/
theorem next_names (ht : t.Sound) (hb : base.Denotes b) (hk : last.Denotes k)
    {r : Option (Value × Value)}
    (h : next t base last (b.unlimited t) (k.unlimited t) (.ok ()) = .ok r) :
    ∃ table k', b.value t = .ok table ∧ k.value t = .ok k' ∧
      match r with
      | none => t.rawNext table k' = .finished
      | some (key, value) => ∃ key' value', t.rawNext table k' = .entry key' value' ∧
          key.Names t key' ∧ value.Names t value' := by
  rw [next] at h
  simp only [Meaning.unlimited, Except.bind_eq_ok_iff, Except.mapError_eq_ok_iff] at h
  obtain ⟨table, hv, hb', hbase, k', hlast, -, -, h⟩ := h
  obtain ⟨tb, htb, hvalue, hc⟩ := exists_base hb hv hbase
  refine ⟨table, k', hv, hlast, ?_⟩
  cases hn : t.rawNext table k' with
  | unknownKey => simp [hn] at h
  | finished =>
    simp only [hn] at h
    cases h
    rfl
  | entry key' value' =>
    simp only [hn, Except.bind_eq_ok_iff] at h
    obtain ⟨key, hpkey, value, hpvalue, h⟩ := h
    cases h
    obtain ⟨-, -, -, hpresent, hget⟩ := ht.rawNext hn
    have hkey : key.Names t key' := by
      refine names_of_published (fun h' made => ?_) hpkey
      obtain ⟨tree, htree, heq⟩ := lookup_record ⟨k, hk, hlast⟩ htb hvalue hc made
      exact ⟨tree, htree, by rw [heq, lookUp, hn]⟩
    refine ⟨key', value', rfl, hkey, names_of_published (fun h' made => ?_) hpvalue⟩
    rw [entryHandle_eq_lookup hkey] at made
    obtain ⟨tree, htree, heq⟩ := lookup_record hkey.1 htb hvalue hc made
    exact ⟨tree, htree, by simp [heq, lookUp, hget, hpresent]⟩

theorem upvalue_names {i : UInt32} (hb : base.Denotes b) {name : String} {value : Value}
    (h : upvalue t base i (b.unlimited t) (.ok ()) = .ok (name, value)) :
    ∃ function v, b.value t = .ok function ∧ t.upvalue? function i = some (name, v) ∧
      value.Names t v := by
  rw [upvalue] at h
  simp only [Meaning.unlimited, Except.bind_eq_ok_iff, Except.mapError_eq_ok_iff] at h
  obtain ⟨function, hv, hb', hbase, -, -, h⟩ := h
  obtain ⟨tb, htb, hvalue, hc⟩ := exists_base hb hv hbase
  cases hu : t.upvalue? function i with
  | none => simp [hu] at h
  | some binding =>
    simp only [hu] at h
    obtain ⟨value', hp, heq⟩ := Except.map_eq_ok_iff.mp h
    cases heq
    refine ⟨function, binding.2, hv, hu, names_of_published (fun h' made => ?_) hp⟩
    cases made
    exact ⟨.upvalue tb i, htb.upvalue i, by simp [Tree.value, hvalue, hc, hu, ofOption]⟩

theorem ofOption_eq_ok_iff {what : Missing} {v? : Option Live} {v : Live} :
    ofOption what v? = .ok v ↔ v? = some v := by
  cases v? <;> simp [ofOption]

theorem userPayload_names (hb : base.Denotes b) {value : Value}
    (h : userPayload t base (b.unlimited t) (.ok ()) = .ok value) :
    ∃ v payload, b.value t = .ok v ∧ t.payload? v = some payload ∧ value.Names t payload := by
  rw [userPayload] at h
  simp only [Meaning.unlimited, Except.bind_eq_ok_iff, Except.mapError_eq_ok_iff,
    ofOption_eq_ok_iff] at h
  obtain ⟨v, hv, hb', hbase, -, -, payload, hpayload, h⟩ := h
  obtain ⟨tb, htb, hvalue, hc⟩ := exists_base hb hv hbase
  refine ⟨v, payload, hv, hpayload, names_of_published (fun h' made => ?_) h⟩
  cases made
  exact ⟨.userPayload tb, htb.userPayload, by simp [Tree.value, hvalue, hc, hpayload, ofOption]⟩

theorem metatable_names (ht : t.Sound) (hb : base.Denotes b) {h : Handle}
    (hh : metatable t base (b.unlimited t) (.ok ()) = .ok h) :
    ∃ v m, b.value t = .ok v ∧ t.metatable? v = some m ∧ (Value.handle h).Names t m := by
  rw [metatable] at hh
  simp only [Meaning.unlimited, Except.bind_eq_ok_iff, Except.mapError_eq_ok_iff] at hh
  obtain ⟨v, hv, hh⟩ := hh
  obtain ⟨kind, hk⟩ := Meaning.owns_value ht hv
  simp only [hk, Except.bind_eq_ok_iff, Except.mapError_eq_ok_iff, ofOption_eq_ok_iff] at hh
  obtain ⟨h', hhandle, -, -, m, hm, heq⟩ := hh
  cases heq
  obtain ⟨-, id, rfl⟩ := ht.metatable hm
  refine ⟨v, .object id, hv, hm, ?_⟩
  unfold metatableHandle at hhandle
  by_cases hown : kind.hasOwnMetatable
  · rw [if_pos hown] at hhandle
    cases base with
    | scalar s => cases hhandle
    | handle h' =>
      cases hhandle
      obtain ⟨tb, htb, hvalue⟩ := Value.resolves_handle_iff.mp ⟨b, hb, hv⟩
      have hc : checkKind t .ownMetatable v = .ok v := by
        simp [checkKind, hk, Expectation.accepts, hown]
      exact Value.names_object htb.metatable (by simp [Tree.value, hvalue, hc, hm, ofOption])
  · rw [if_neg hown] at hhandle
    cases hr : Inspect.representative? kind with
    | none => simp [hr] at hhandle
    | some r =>
      simp only [hr, Option.isSome_some, ↓reduceIte, Except.ok.injEq] at hhandle
      subst hhandle
      have hshared := Target.metatable?_of_shared hk (by simpa using hown)
      exact Value.names_object (Handle.denotes_kindMetatable kind)
        (by rw [Tree.value_kindMetatable, hr, ← hshared, hm]; rfl)

theorem frameLocal_names {frame : UInt16} {slot : UInt32} {name : String} {value : Value}
    (h : frameLocal t frame slot (.ok ()) = .ok (name, value)) :
    ∃ v, t.frameLocal? frame slot = some (name, v) ∧ value.Names t v := by
  rw [frameLocal] at h
  split at h
  · rename_i hframe
    rw [Except.ok_bind] at h
    cases hl : t.frameLocal? frame slot with
    | none => simp [hl] at h
    | some binding =>
      simp only [hl] at h
      obtain ⟨value', hp, heq⟩ := Except.map_eq_ok_iff.mp h
      cases heq
      refine ⟨binding.2, rfl, names_of_published (fun h' made => ?_) hp⟩
      cases made
      exact ⟨_, Handle.denotes_frameLocal frame slot, by simp [Tree.value, hframe, hl, ofOption]⟩
  · cases h

theorem frameFunction_names (ht : t.Sound) {frame : UInt16} {h : Handle}
    (hh : frameFunction t frame (.ok ()) = .ok h) :
    ∃ v, t.frameFunction? frame = some v ∧ (Value.handle h).Names t v := by
  rw [frameFunction] at hh
  simp only [Except.bind_eq_ok_iff, Except.mapError_eq_ok_iff, ofOption_eq_ok_iff] at hh
  obtain ⟨-, -, v, hv, heq⟩ := hh
  cases heq
  obtain ⟨-, id, rfl⟩ := ht.frameFunction hv
  refine ⟨.object id, hv, Value.names_object (Handle.denotes_frameFunction frame) ?_⟩
  rw [Tree.value, hv, ofOption]

end Answer

end RemoteInspect
