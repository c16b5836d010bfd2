import RemoteInspect.Proofs.Inspect.Naming
import RemoteInspect.Proofs.Inspect.Refinement

namespace RemoteInspect

open Inspect (record Settles Refused)
open RemoteInspect.Tree (checkKind lookUp ofOption)

variable {t : Target} {limits : Limits}

namespace Answer

/-- What a query of `h` gives as the value. -/
def looked (h : Handle) (v : Except Failure Live) : Except Stop Value := do
  published (← v.mapError Stop.failure) (.ok h)

theorem query_map_value (ht : t.Sound) {h : Handle} (tree : Tree Scalar) :
    (query t h ((tree.value t).mapError Stop.failure)).map Reading.value =
      looked h (tree.value t) := by
  cases hv : tree.value t with
  | error f => rfl
  | ok v =>
    obtain ⟨kind, hk⟩ := Tree.owns_value ht hv
    cases v <;> simp [query, looked, published, Live.copy?, hk]

variable {b h : Handle} {tb : Tree Scalar}

theorem index_eq_looked (tb : Tree Scalar) {key : Value} {k : Except Failure Live}
    (hkey : key ≠ .scalar .nil) (hrecord : ∀ v, k = .ok v →
      record key v ≠ .constant .nil ∧ (record key v).lookup b .get = .ok h) :
    index t (.handle b) key ((tb.value t).mapError Stop.failure) (k.mapError Stop.failure)
        (.ok ()) =
      looked h (do
        let table ← checkKind t .table (← tb.value t)
        lookUp t .get table (← k)) := by
  rw [index, if_neg hkey]
  cases hb : tb.value t with
  | error f => rfl
  | ok table =>
    cases hc : checkKind t .table table with
    | error f => simp [looked, baseHandle, hc]
    | ok table' =>
      cases Tree.eq_of_checkKind hc
      cases k with
      | error f => simp [looked, baseHandle, hc]
      | ok v =>
        obtain ⟨hpresent, hlookup⟩ := hrecord v rfl
        simp only [looked, baseHandle, hc, hpresent, hlookup, Except.mapError_ok, Except.map_ok,
          Except.ok_bind, ↓reduceIte]

theorem published_eq_error {v : Live} {lazy : Except Fault Handle} {e : Stop}
    (h : published v lazy = .error e) : ∃ f, lazy = .error f ∧ e = .fault f := by
  cases v with
  | scalar s => cases h
  | object id =>
    cases lazy with
    | ok h' => cases h
    | error f => exact ⟨f, rfl, (Except.error.inj h).symm⟩

/-- The words that count the entries of the pools and the records of the base are too small for a
lookup in `b` under the value of `h`. -/
def TooLarge (b h : Handle) : Prop :=
  Handle.wordLimit ≤ b.pool.size + h.pool.size + 1 ∨ Handle.wordLimit ≤ b.path.size

theorem tooLarge_of_entryHandle {tree : Tree Scalar} {v : Live} {key : Value} {f : Fault}
    (hh : h.Denotes tree) (hv : v ≠ .nil) (hkey : published v (.ok h) = .ok key)
    (hf : entryHandle b key = .error f) : TooLarge b h := by
  apply Classical.byContradiction
  intro hsmall
  simp only [TooLarge, not_or, Nat.not_le] at hsmall
  cases v with
  | scalar s =>
    cases hkey
    have hs : s ≠ .nil := fun he => hv (by rw [he, Live.nil])
    obtain ⟨h', made⟩ := Handle.exists_constantLookup (b := b) (by omega) .get s
    rw [entryHandle, Handle.index, if_neg hs, made] at hf
    cases hf
  | object id =>
    cases hkey
    obtain ⟨h', made⟩ := Handle.exists_indexObject (b := b) hh (by omega) hsmall.2 .get
    rw [entryHandle, made] at hf
    cases hf

/-- After the last entry the key is not found. That alone ends an iteration: when the base or the
last key is not found, there is no answer. -/
theorem next_cases (ht : t.Sound) {last : Value} {k : Except Failure Live} {tree : Tree Scalar}
    (hh : h.Denotes tree)
    (hrecord : ∀ v, k = .ok v → (record last v).lookup b .next = .ok h)
    (htree : tree.value t = do
      let table ← checkKind t .table (← tb.value t)
      lookUp t .next table (← k)) {r : Except Stop (Option (Value × Value))}
    (hr : next t (.handle b) last ((tb.value t).mapError Stop.failure)
      (k.mapError Stop.failure) (.ok ()) = r) :
    (∃ key value, r = .ok (some (key, value)) ∧ looked h (tree.value t) = .ok key) ∨
    (r = .ok none ∧ looked h (tree.value t) = .error (.failure (.notFound .nextKey)) ∧
      (∃ v, tb.value t = .ok v) ∧ ∃ v, k = .ok v) ∨
    (∃ f, r = .error (.failure f) ∧ looked h (tree.value t) = .error (.failure f) ∧
      ¬ (f = .notFound .nextKey ∧ (∃ v, tb.value t = .ok v) ∧ ∃ v, k = .ok v)) ∨
    ∃ f, r = .error (.fault f) ∧ TooLarge b h := by
  subst hr
  rw [htree, next]
  cases hb : tb.value t with
  | error f => exact .inr (.inr (.inl ⟨f, rfl, rfl, by simp⟩))
  | ok table =>
    cases hc : checkKind t .table table with
    | error f =>
      refine .inr (.inr (.inl ⟨f, by simp [baseHandle, hc], by simp [looked, hc], ?_⟩))
      rintro ⟨rfl, -⟩
      obtain ⟨kind, hkind⟩ := Tree.checkKind_error hc
      cases hkind
    | ok table' =>
      cases Tree.eq_of_checkKind hc
      cases k with
      | error f =>
        exact .inr (.inr (.inl ⟨f, by simp [baseHandle, hc], by simp [looked, hc], by simp⟩))
      | ok v =>
        have hlookup := hrecord v rfl
        cases hn : t.rawNext table v with
        | finished =>
          refine .inr (.inl ⟨by simp [baseHandle, hc, hn], ?_, ⟨table, rfl⟩, v, rfl⟩)
          simp [looked, hc, lookUp, hn]
        | unknownKey =>
          refine .inr (.inr (.inl ⟨.notFound .key, by simp [baseHandle, hc, hn], ?_, by simp⟩))
          simp [looked, hc, lookUp, hn]
        | entry key' value' =>
          obtain ⟨-, -, hpresent, -, -⟩ := ht.rawNext hn
          obtain ⟨key, hkey⟩ : ∃ key, published key' (.ok h) = .ok key := by
            cases key' <;> exact ⟨_, rfl⟩
          have hlooked : looked h (lookUp t .next table v) = .ok key := by
            simp [looked, lookUp, hn, hkey]
          -- The handle of the key is made already; that of the value may still be too large.
          cases hvalue : published value' (entryHandle b key) with
          | ok value =>
            refine .inl ⟨key, value, ?_, by simpa [hc] using hlooked⟩
            simp [baseHandle, hc, hn, hlookup, hkey, hvalue]
          | error e =>
            refine .inr (.inr (.inr ?_))
            obtain ⟨f, hf, rfl⟩ := published_eq_error hvalue
            refine ⟨f, ?_, tooLarge_of_entryHandle hh hpresent hkey hf⟩
            simp [baseHandle, hc, hn, hlookup, hkey, hvalue]

theorem upvalue_eq_looked (i : UInt32) :
    (upvalue t (.handle b) i ((tb.value t).mapError Stop.failure) (.ok ())).map Prod.snd =
      looked (b.upvalue i) ((Tree.upvalue tb i).value t) := by
  rw [upvalue, Tree.value]
  cases hb : tb.value t with
  | error f => rfl
  | ok function =>
    cases hc : checkKind t .function function with
    | error f => simp [looked, baseHandle, hc]
    | ok function' =>
      cases Tree.eq_of_checkKind hc
      cases hu : t.upvalue? function i with
      | none => simp [looked, baseHandle, hc, hu, ofOption]
      | some binding =>
        cases hv : binding.2 <;>
          simp [looked, baseHandle, hc, hu, hv, ofOption, published, Live.copy?]

theorem userPayload_eq_looked :
    userPayload t (.handle b) ((tb.value t).mapError Stop.failure) (.ok ()) =
      looked b.userPayload ((Tree.userPayload tb).value t) := by
  rw [userPayload, Tree.value]
  cases hb : tb.value t with
  | error f => rfl
  | ok v =>
    cases hc : checkKind t .userdata v with
    | error f => simp [looked, baseHandle, hc]
    | ok v' =>
      cases Tree.eq_of_checkKind hc
      simp [looked, baseHandle, hc]

theorem metatable_eq_looked (ht : t.Sound) {v : Live} {kind : Kind} (hv : tb.value t = .ok v)
    (hk : t.kind? v = some kind) (hown : kind.hasOwnMetatable) :
    (metatable t (.handle b) ((tb.value t).mapError Stop.failure) (.ok ())).map Value.handle =
      looked b.metatable ((Tree.metatable tb).value t) := by
  have hc : checkKind t .ownMetatable v = .ok v := by
    simp [checkKind, hk, Expectation.accepts, hown]
  rw [metatable, Tree.value]
  cases hm : t.metatable? v with
  | none => simp [looked, hv, hk, hc, hm, hown, metatableHandle, ofOption]
  | some m =>
    obtain ⟨-, id, rfl⟩ := ht.metatable hm
    simp [looked, hv, hk, hc, hm, hown, metatableHandle, ofOption, published, Live.copy?]

theorem frameLocal_eq_looked (frame : UInt16) (slot : UInt32) :
    (frameLocal t frame slot (.ok ())).map Prod.snd =
      looked (.frameLocal frame slot) ((Tree.frameLocal frame slot).value t) := by
  rw [frameLocal, Tree.value]
  by_cases hframe : t.hasFrame frame
  · cases hl : t.frameLocal? frame slot with
    | none => simp [looked, hframe, ofOption]
    | some binding =>
      cases hv : binding.2 <;> simp [looked, hframe, hv, ofOption, published, Live.copy?]
  · simp [looked, hframe]

theorem frameFunction_eq_looked (ht : t.Sound) (frame : UInt16) :
    (frameFunction t frame (.ok ())).map Value.handle =
      looked (.frameFunction frame) ((Tree.frameFunction frame).value t) := by
  rw [frameFunction, Tree.value]
  cases hf : t.frameFunction? frame with
  | none => rfl
  | some v =>
    obtain ⟨-, id, rfl⟩ := ht.frameFunction hf
    rfl

end Answer

namespace Inspect

/-- `eager` is the value, or the failure, of a query of `h`, unless one of them is refused. -/
def Agrees (limits : Limits) (t : Target) (eager : Except Stop Value) (h : Handle) : Prop :=
  eager = ((query (.handle h)).outcome limits t).result.map Reading.value ∨
    Refused limits (t.pinned + h.path.size + 2) eager ∨
    Refused limits (t.pinned + h.path.size + 2) ((query (.handle h)).outcome limits t).result

theorem agrees_of_settles (ht : t.Sound) {h : Handle} {tree : Tree Scalar} (hh : h.Denotes tree)
    {eager : Except Stop Value}
    (heager : Settles limits (t.pinned + h.path.size + 2) (Answer.looked h (tree.value t)) eager) :
    Agrees limits t eager h := by
  have hlazy : Settles limits (t.pinned + h.path.size + 2) _
      ((query (.handle h)).outcome limits t).result :=
    query_settles ht hh (by rw [hh.size]; omega)
  obtain heager | heager := heager
  · obtain hlazy | hlazy := hlazy
    · exact .inl (by rw [heager, hlazy, Answer.query_map_value ht])
    · exact .inr (.inr hlazy)
  · exact .inr (.inl heager)

/-- `eager` is the entry whose key a query of `h` gives, or the failure of the query. It is the end
of the iteration when the query finds no next key, while the base `b` and the key `last` resolve. -/
def NextAgrees (limits : Limits) (t : Target) (b : Handle) (last : Value)
    (eager : Except Stop (Option (Value × Value))) (h : Handle) : Prop :=
  let lazy := ((query (.handle h)).outcome limits t).result
  let resolved := (∃ v, (Value.handle b).Resolves t v) ∧ ∃ v, last.Resolves t v
  (∃ key value, eager = .ok (some (key, value)) ∧ lazy.map Reading.value = .ok key) ∨
  (eager = .ok none ∧ lazy = .error (.failure (.notFound .nextKey)) ∧ resolved) ∨
  (∃ f, eager = .error (.failure f) ∧ lazy = .error (.failure f) ∧
    ¬ (f = .notFound .nextKey ∧ resolved)) ∨
  (∃ f, eager = .error (.fault f) ∧ Answer.TooLarge b h) ∨
  Refused limits (t.pinned + h.path.size + 2) eager ∨
  Refused limits (t.pinned + h.path.size + 2) lazy

theorem nextAgrees (ht : t.Sound) {b h : Handle} {tb tree : Tree Scalar} {last : Option Value}
    {k : Meaning} (hb : b.Denotes tb) (hk : (last.getD (.scalar .nil)).Denotes k)
    (hh : h.Denotes tree) (hsize : tb.size + k.size ≤ tree.size)
    (hrecord : ∀ v, k.value t = .ok v →
      (record (last.getD (.scalar .nil)) v).lookup b .next = .ok h)
    (htree : tree.value t = do
      let table ← checkKind t .table (← tb.value t)
      lookUp t .next table (← k.value t)) :
    NextAgrees limits t b (last.getD (.scalar .nil))
      ((next (.handle b) last).outcome limits t).result h := by
  have hlazy : Settles limits (t.pinned + h.path.size + 2) _
      ((query (.handle h)).outcome limits t).result :=
    query_settles ht hh (by rw [hh.size]; omega)
  have heager : Settles limits (t.pinned + h.path.size + 2) _
      ((next (.handle b) last).outcome limits t).result :=
    next_settles ht (b := .tree tb) hb hk (by
      change t.pinned + tb.size + k.size + 2 ≤ _
      rw [← hh.size]
      omega)
  have hresolved : (∃ v, (Value.handle b).Resolves t v) ∧
      (∃ v, (last.getD (.scalar .nil)).Resolves t v) ↔
      (∃ v, tb.value t = .ok v) ∧ ∃ v, k.value t = .ok v :=
    and_congr (Value.exists_resolves_iff (m := .tree tb) hb) (Value.exists_resolves_iff hk)
  obtain hlazy | hlazy := hlazy
  · obtain heager | heager := heager
    · have hvalue := Answer.query_map_value ht (h := h) tree
      rw [← hlazy] at hvalue
      obtain ⟨key, value, hr, hlooked⟩ | ⟨hr, hlooked, hres⟩ | ⟨f, hr, hlooked, hres⟩ |
        ⟨f, hr, hlarge⟩ := Answer.next_cases ht hh hrecord htree heager.symm
      · exact .inl ⟨key, value, hr, hvalue.trans hlooked⟩
      · have herror := Except.map_eq_error_iff.mp (hvalue.trans hlooked)
        exact .inr (.inl ⟨hr, herror, hresolved.mpr hres⟩)
      · have herror := Except.map_eq_error_iff.mp (hvalue.trans hlooked)
        refine .inr (.inr (.inl ⟨f, hr, herror, ?_⟩))
        exact fun ⟨hf, hres'⟩ => hres ⟨hf, hresolved.mp hres'⟩
      · exact .inr (.inr (.inr (.inl ⟨f, hr, hlarge⟩)))
    · exact .inr (.inr (.inr (.inr (.inl heager))))
  · exact .inr (.inr (.inr (.inr (.inr hlazy))))

variable {b h : Handle} {tb tk : Tree Scalar}

theorem denotes_handle (hh : h.Denotes tb) : (Value.handle h).Denotes (.tree tb) := hh

theorem index_scalar_agrees (ht : t.Sound) (hb : b.Denotes tb) {s : Scalar}
    (made : b.index s = .ok h) :
    Agrees limits t ((index (.handle b) (.scalar s)).outcome limits t).result h := by
  have hs : s ≠ .nil := by
    rintro rfl
    cases made
  have hh := hb.index made
  have hsettles : Settles limits (t.pinned + h.path.size + 2) _
      ((index (.handle b) (.scalar s)).outcome limits t).result :=
    index_settles ht (denotes_handle hb) (k := .scalar s) rfl (by
      rw [← hh.size]
      simp only [Meaning.size, Tree.size]
      omega)
  have hrecord : ∀ v, Except.ok (ε := Failure) (.scalar s) = .ok v →
      record (.scalar s) v ≠ .constant .nil ∧ (record (.scalar s) v).lookup b .get = .ok h := by
    rintro v ⟨⟩
    exact ⟨by simpa [record] using hs, made⟩
  have hlooked := Answer.index_eq_looked (t := t) tb (by simpa using hs) hrecord
  exact agrees_of_settles ht hh (hlooked ▸ hsettles)

theorem record_of_not_scalar {k : Handle} (hk : k.Denotes tk)
    (hscalar : ¬ ∃ s, (Value.handle k).Resolves t (.scalar s)) {v : Live}
    (hv : tk.value t = .ok v) : record (.handle k) v = .object k := by
  cases v with
  | scalar s => exact absurd ⟨s, Value.resolves_handle_iff.mpr ⟨tk, hk, hv⟩⟩ hscalar
  | object id => rfl

theorem index_handle_agrees (ht : t.Sound) {k : Handle} (hb : b.Denotes tb) (hk : k.Denotes tk)
    (hscalar : ¬ ∃ s, (Value.handle k).Resolves t (.scalar s))
    (made : b.indexObject .get k = .ok h) :
    Agrees limits t ((index (.handle b) (.handle k)).outcome limits t).result h := by
  have hh := hb.indexObject hk made
  have hsettles : Settles limits (t.pinned + h.path.size + 2) _
      ((index (.handle b) (.handle k)).outcome limits t).result :=
    index_settles ht (denotes_handle hb) (denotes_handle hk) (by
      rw [← hh.size]
      simp only [Meaning.size, Tree.size]
      omega)
  have hrecord : ∀ v, tk.value t = .ok v →
      record (.handle k) v ≠ .constant .nil ∧ (record (.handle k) v).lookup b .get = .ok h := by
    intro v hv
    rw [record_of_not_scalar hk hscalar hv]
    exact ⟨by simp, made⟩
  have hlooked := Answer.index_eq_looked (t := t) tb (by simp) hrecord
  exact agrees_of_settles ht hh (hlooked ▸ hsettles)

theorem next_scalar_agrees (ht : t.Sound) (hb : b.Denotes tb) {last : Option Value} {s : Scalar}
    (hlast : last.getD (.scalar .nil) = .scalar s) (made : b.nextKey s = .ok h) :
    NextAgrees limits t b (.scalar s) ((next (.handle b) last).outcome limits t).result h := by
  have hagrees : NextAgrees limits t b (last.getD (.scalar .nil)) _ h :=
    nextAgrees (k := .scalar s) ht hb (by rw [hlast]; rfl) (hb.nextKey made)
      (by simp only [Meaning.size, Tree.size]; omega)
      (by rw [hlast]; rintro v ⟨⟩; exact made) rfl
  rwa [hlast] at hagrees

theorem next_handle_agrees (ht : t.Sound) {k : Handle} (hb : b.Denotes tb) (hk : k.Denotes tk)
    (hscalar : ¬ ∃ s, (Value.handle k).Resolves t (.scalar s))
    (made : b.indexObject .next k = .ok h) :
    NextAgrees limits t b (.handle k)
      ((next (.handle b) (some (.handle k))).outcome limits t).result h := by
  refine nextAgrees (k := .tree tk) ht hb hk (hb.indexObject hk made)
    (by simp only [Meaning.size, Tree.size]; omega) (fun v hv => ?_) rfl
  rw [Option.getD_some, record_of_not_scalar hk hscalar hv]
  exact made

theorem upvalue_agrees (ht : t.Sound) (hb : b.Denotes tb) (i : UInt32) :
    Agrees limits t (((upvalue (.handle b) i).outcome limits t).result.map Prod.snd)
      (b.upvalue i) := by
  have hh := hb.upvalue i
  have hsettles : Settles limits (t.pinned + (b.upvalue i).path.size + 2) _
      ((upvalue (.handle b) i).outcome limits t).result :=
    upvalue_settles ht (denotes_handle hb) i (by
      rw [← hh.size]
      simp only [Meaning.size, Tree.size]
      omega)
  exact agrees_of_settles ht hh (Answer.upvalue_eq_looked i ▸ hsettles.map Prod.snd)

theorem userPayload_agrees (ht : t.Sound) (hb : b.Denotes tb) :
    Agrees limits t ((userPayload (.handle b)).outcome limits t).result b.userPayload := by
  have hh := hb.userPayload
  have hsettles : Settles limits (t.pinned + b.userPayload.path.size + 2) _
      ((userPayload (.handle b)).outcome limits t).result :=
    userPayload_settles ht (denotes_handle hb) (by
      rw [← hh.size]
      simp only [Meaning.size, Tree.size]
      omega)
  exact agrees_of_settles ht hh (Answer.userPayload_eq_looked ▸ hsettles)

theorem metatable_agrees (ht : t.Sound) (hb : b.Denotes tb) {v : Live} {kind : Kind}
    (hv : (Value.handle b).Resolves t v) (hk : t.kind? v = some kind)
    (hown : kind.hasOwnMetatable) :
    Agrees limits t (((metatable (.handle b)).outcome limits t).result.map .handle)
      b.metatable := by
  obtain ⟨tb', hb', hv'⟩ := Value.resolves_handle_iff.mp hv
  cases hb.eq hb'
  have hh := hb.metatable
  have hsettles : Settles limits (t.pinned + b.metatable.path.size + 2) _
      ((metatable (.handle b)).outcome limits t).result :=
    metatable_settles ht (denotes_handle hb) (by
      rw [← hh.size]
      simp only [Meaning.size, Tree.size]
      omega)
  have hlooked := Answer.metatable_eq_looked (b := b) ht hv' hk hown
  exact agrees_of_settles ht hh (hlooked ▸ hsettles.map Value.handle)

theorem frameLocal_agrees (ht : t.Sound) (frame : UInt16) (slot : UInt32) :
    Agrees limits t (((frameLocal frame slot).outcome limits t).result.map Prod.snd)
      (.frameLocal frame slot) :=
  agrees_of_settles ht (Handle.denotes_frameLocal frame slot)
    (Answer.frameLocal_eq_looked frame slot ▸
      (frameLocal_settles frame slot (by omega)).map Prod.snd)

theorem frameFunction_agrees (ht : t.Sound) (frame : UInt16) :
    Agrees limits t (((frameFunction frame).outcome limits t).result.map .handle)
      (.frameFunction frame) :=
  agrees_of_settles ht (Handle.denotes_frameFunction frame)
    (Answer.frameFunction_eq_looked ht frame ▸
      (frameFunction_settles frame (by omega)).map Value.handle)

/-- For each operation on a handle, going on at once agrees with a query of the handle that goes on
later, in what it gives and in how it fails. -/
theorem eager_agrees (hb : b.Built) (ht : t.Reachable) (limits : Limits) :
    (∀ s h, b.index s = .ok h →
      Agrees limits t ((index (.handle b) (.scalar s)).outcome limits t).result h) ∧
    (∀ k h, k.Built → (¬ ∃ s, (Value.handle k).Resolves t (.scalar s)) →
      b.indexObject .get k = .ok h →
      Agrees limits t ((index (.handle b) (.handle k)).outcome limits t).result h) ∧
    (∀ s h, b.nextKey s = .ok h → NextAgrees limits t b (.scalar s)
      ((next (.handle b) (some (.scalar s))).outcome limits t).result h) ∧
    (∀ h, b.nextKey .nil = .ok h → NextAgrees limits t b (.scalar .nil)
      ((next (.handle b) none).outcome limits t).result h) ∧
    (∀ k h, k.Built → (¬ ∃ s, (Value.handle k).Resolves t (.scalar s)) →
      b.indexObject .next k = .ok h → NextAgrees limits t b (.handle k)
        ((next (.handle b) (some (.handle k))).outcome limits t).result h) ∧
    (∀ i, Agrees limits t (((upvalue (.handle b) i).outcome limits t).result.map Prod.snd)
      (b.upvalue i)) ∧
    Agrees limits t ((userPayload (.handle b)).outcome limits t).result b.userPayload ∧
    (∀ v kind, (Value.handle b).Resolves t v → t.kind? v = some kind → kind.hasOwnMetatable →
      Agrees limits t (((metatable (.handle b)).outcome limits t).result.map .handle)
        b.metatable) ∧
    (∀ frame slot, Agrees limits t
      (((frameLocal frame slot).outcome limits t).result.map Prod.snd) (.frameLocal frame slot)) ∧
    ∀ frame, Agrees limits t (((frameFunction frame).outcome limits t).result.map .handle)
      (.frameFunction frame) := by
  obtain ⟨tb, htb⟩ := hb.denotes
  have hs := ht.sound
  refine ⟨fun s h => index_scalar_agrees hs htb, ?_, fun s h => next_scalar_agrees hs htb rfl,
    fun h => next_scalar_agrees hs htb rfl, ?_, upvalue_agrees hs htb, userPayload_agrees hs htb,
    fun v kind => metatable_agrees hs htb, frameLocal_agrees hs, frameFunction_agrees hs⟩
  · intro k h hk hscalar made
    obtain ⟨tk, htk⟩ := hk.denotes
    exact index_handle_agrees hs htb htk hscalar made
  · intro k h hk hscalar made
    obtain ⟨tk, htk⟩ := hk.denotes
    exact next_handle_agrees hs htb htk hscalar made

/-- The userdata is the last key of the table that it is found in. -/
theorem eager_agrees_linked :
    let table : Handle := ⟨⟨[.index .get 1, .root .globals]⟩, ⟨[.string [107]]⟩⟩
    let one : Scalar := .float ⟨0x3FF0000000000000⟩
    let key : Handle := ⟨⟨[.index .get 2, .index .get 1, .root .globals]⟩, ⟨[.string [107], one]⟩⟩
    ∃ value last, table.index one = .ok key ∧ table.indexObject .get key = .ok value ∧
      table.indexObject .next key = .ok last ∧
      Agrees .standard Target.linked (.ok (.handle key)) key ∧
      Agrees .standard Target.linked (.ok (.handle value)) value ∧
      NextAgrees .standard Target.linked table (.handle key) (.ok none) last := by
  intro table one key
  have htable : table.Built := @Handle.Built.index _ _ (.string [107]) (.root .globals) rfl
  have hkey : key.Built := @Handle.Built.index _ _ one htable rfl
  have htableDenotes : table.Denotes (.index .get (.root .globals) (.string [107])) :=
    (Handle.denotes_root .globals).index rfl
  have hkeyDenotes : key.Denotes (.index .get (.index .get (.root .globals) (.string [107])) one) :=
    htableDenotes.index rfl
  have hobject : ¬ ∃ s, (Value.handle key).Resolves Target.linked (.scalar s) := by
    rintro ⟨s, hs⟩
    obtain ⟨tree, htree, hv⟩ := Value.resolves_handle_iff.mp hs
    cases htree.eq hkeyDenotes
    cases hv
  obtain ⟨hscalar, hhandle, -, -, hnext, -⟩ :=
    eager_agrees htable Target.reachable_linked .standard
  exact ⟨_, _, rfl, rfl, rfl, hscalar one key rfl, hhandle key _ hkey hobject rfl,
    hnext key _ hkey hobject rfl⟩

/-- When the base is not found, nor is what comes first in it; but this is no end of an
iteration. -/
theorem next_of_missing_base :
    let b : Handle := ⟨⟨[.index .next 0, .root .globals]⟩, .empty⟩
    let h : Handle := ⟨⟨[.index .next 0, .index .next 0, .root .globals]⟩, .empty⟩
    b.Built ∧ Target.initial.Reachable ∧ b.nextKey .nil = .ok h ∧
      ((query (.handle h)).outcome .standard .initial).result =
        .error (.failure (.notFound .nextKey)) ∧
      ((next (.handle b) none).outcome .standard .initial).result =
        .error (.failure (.notFound .nextKey)) :=
  ⟨@Handle.Built.nextKey _ _ .nil (.root .globals) rfl, .initial Target.defaultCapacity,
    rfl, rfl, rfl⟩

end Inspect

end RemoteInspect
