import RemoteInspect.Proofs.Inspect.Faultless

namespace RemoteInspect

open Inspect (record)
open RemoteInspect.Tree (checkKind)

variable {t : Target} {limits : Limits}

theorem Value.Denotes.size {value : Value} {m : Meaning} (h : value.Denotes m) :
    m.size = value.steps := by
  cases value with
  | scalar s => cases m <;> cases h; rfl
  | handle h' =>
    cases m with
    | scalar s => cases h
    | tree u => exact Handle.Denotes.size h

/-- Why nothing can be looked up in a base: it is not there, or it is no table. -/
inductive Value.Bars (t : Target) : Value → Failure → Prop
  | missing {h : Handle} {tree : Tree Scalar} {f : Failure} (denotes : h.HasTree tree)
      (fails : tree.value t = .error f) : Bars t (.handle h) f
  | kind {base : Value} {v : Live} {kind : Kind} (resolves : base.Resolves t v)
      (found : t.kind? v = some kind) (other : kind ≠ .table) :
      Bars t base (.wrongKind .table kind)

namespace Answer

variable {base : Value} {k : Handle} {b : Except Stop Live} {s : Scalar} {room : Except Stop Unit}

theorem next_copied : next t base (.handle k) b (.ok (.scalar s)) room =
    next t base (.scalar s) b (.ok (.scalar s)) room := rfl

theorem index_copied (hs : s ≠ .nil) : index t base (.handle k) b (.ok (.scalar s)) room =
    index t base (.scalar s) b (.ok (.scalar s)) room := by
  have hkey : Value.scalar s ≠ .scalar .nil := by simpa using hs
  rw [index, index, if_neg (by simp), if_neg hkey]
  rfl

theorem index_nil (ht : t.Sound) {m : Meaning} (hm : base.Denotes m) :
    (∃ f, base.Bars t f ∧ index t base (.handle k) (m.unlimited t) (.ok .nil) room =
      .error (.failure f)) ∨
    (∃ table, base.Resolves t table ∧ t.kind? table = some .table) ∧
      index t base (.handle k) (m.unlimited t) (.ok .nil) room =
        .error (.failure (.unsupported .nilKey)) := by
  rw [index, if_neg (by simp), Meaning.unlimited]
  cases hv : m.value t with
  | error f =>
    cases m with
    | scalar s => cases hv
    | tree u =>
      cases base with
      | scalar s => cases hm
      | handle h => exact .inl ⟨f, .missing (Handle.Denotes.hasTree hm) hv, rfl⟩
  | ok v =>
    obtain ⟨kind, hkind⟩ := Meaning.owns_value ht hv
    have hresolves : base.Resolves t v := ⟨m, hm, hv⟩
    cases base with
    | scalar s =>
      cases Value.eq_of_resolves_scalar hresolves
      have hs : s.kind ≠ .table := by cases s <;> simp [Scalar.kind]
      exact .inl ⟨_, .kind hresolves rfl hs, rfl⟩
    | handle h =>
      by_cases htable : kind = .table
      · subst htable
        have hc : checkKind t .table v = .ok v := by simp [checkKind, hkind, Expectation.accepts]
        refine .inr ⟨⟨v, hresolves, hkind⟩, ?_⟩
        simp [baseHandle, hc, record, Live.copy?, Live.nil]
      · have hc : checkKind t .table v = .error (.wrongKind .table kind) := by
          simp [checkKind, hkind, Expectation.accepts, htable]
        exact .inl ⟨_, .kind hresolves hkind htable, by simp [baseHandle, hc]⟩

end Answer

namespace Inspect

/-- The same, unless one of the two is refused with at most `top` values pinned. -/
def Alike {α : Type} (limits : Limits) (top : Nat) (r r' : Except Stop α) : Prop :=
  r = r' ∨ Refused limits top r ∨ Refused limits top r'

theorem Settles.alike {α : Type} {top : Nat} {ideal r r' : Except Stop α}
    (h : Settles limits top ideal r) (h' : Settles limits top ideal r') :
    Alike limits top r r' := by
  obtain rfl | h := h
  · obtain rfl | h' := h'
    · exact .inl (Eq.refl _)
    · exact .inr (.inr h')
  · exact .inr (.inl h)

/-- Whatever a query of the key gives as a copy, under some limits, the key stands for: it leads on
from any base, under any limits, to what the copy leads to, in value and in failure, unless one of
the two is refused. Without such a refusal, a key that stands for nil is no key, if the base is a
table; if it is none, it is the base that fails. -/
theorem key_copied (ht : t.Reachable) {base : Value} {k : Handle} (hbase : base.Built)
    (hk : k.Built) {kind : Kind} {s : Scalar}
    (hq : ((query (.handle k)).outcome limits t).result = .ok ⟨kind, .scalar s⟩)
    (limits' : Limits) :
    let top := t.pinned + base.steps + k.path.size + 2
    let byKey := ((index base (.handle k)).outcome limits' t).result
    Alike limits' top ((next base (some (.handle k))).outcome limits' t).result
        ((next base (some (.scalar s))).outcome limits' t).result ∧
      (s ≠ .nil → Alike limits' top byKey ((index base (.scalar s)).outcome limits' t).result) ∧
      (s = .nil → (∃ f, base.Bars t f ∧ byKey = .error (.failure f)) ∨
        (∃ table, base.Resolves t table ∧ t.kind? table = some .table) ∧
          byKey = .error (.failure (.unsupported .nilKey)) ∨
        Refused limits' top byKey) := by
  intro top byKey
  have hs := ht.sound
  obtain ⟨b, hb⟩ := hbase.denotes
  obtain ⟨tk, htk⟩ := hk.denotes
  have hkey : (Value.handle k).Denotes (.tree tk) := htk
  have hscalar : (Value.scalar s).Denotes (.scalar s) := rfl
  obtain ⟨v, hv, hnames⟩ :=
    Answer.query_names htk ((query_settles hs htk (Nat.le_refl _)).eq_of_ok hq)
  cases Value.eq_of_resolves_scalar hnames.1
  have hvalue : (Meaning.tree tk).unlimited t = .ok (.scalar s) := by
    rw [Meaning.unlimited, Meaning.value, hv, Except.mapError_ok]
  have htop : t.pinned + b.size + (Meaning.tree tk).size + 2 ≤ top := by
    rw [hb.size, hkey.size]
    exact Nat.le_refl _
  have htop' : t.pinned + b.size + (Meaning.scalar s).size + 2 ≤ top := by
    simp only [Meaning.size] at htop ⊢
    omega
  have hindex : Settles limits' top _ byKey := index_settles hs hb hkey htop
  rw [hvalue] at hindex
  refine ⟨?_, fun hnil => ?_, ?_⟩
  · have hnext : Settles limits' top _ ((next base (some (.handle k))).outcome limits' t).result :=
      next_settles hs hb hkey htop
    have hnext' : Settles limits' top _ ((next base (some (.scalar s))).outcome limits' t).result :=
      next_settles hs hb hscalar htop'
    rw [hvalue, Option.getD_some, Answer.next_copied] at hnext
    exact hnext.alike hnext'
  · have hindex' : Settles limits' top _ ((index base (.scalar s)).outcome limits' t).result :=
      index_settles hs hb hscalar htop'
    rw [Answer.index_copied hnil] at hindex
    exact hindex.alike hindex'
  · rintro rfl
    obtain hideal | hrefused := hindex
    · obtain ⟨f, hbars, hf⟩ | ⟨htable, hf⟩ := @Answer.index_nil t base k (.ok ()) hs b hb
      · exact .inl ⟨f, hbars, hideal.trans hf⟩
      · exact .inr (.inl ⟨htable, hideal.trans hf⟩)
    · exact .inr (.inr hrefused)

/-- The first key of the globals is the name of a table. -/
theorem key_copied_linked :
    let globals : Value := .handle (.root .globals)
    let k : Handle := ⟨⟨[.index .next 0, .root .globals]⟩, .empty⟩
    let table : Handle := ⟨⟨[.index .get 1, .root .globals]⟩, ⟨[.string [107]]⟩⟩
    ((query (.handle k)).outcome .standard Target.linked).result =
        .ok ⟨.string, .scalar (.string [107])⟩ ∧
      ((index globals (.scalar (.string [107]))).outcome .standard Target.linked).result =
        .ok (.handle table) ∧
      ((index globals (.handle k)).outcome .standard Target.linked).result =
        .ok (.handle table) := by
  intro globals k table
  have hk : k.Built := @Handle.Built.nextKey _ _ .nil (.root .globals) rfl
  have hq : ((query (.handle k)).outcome .standard Target.linked).result =
    .ok ⟨.string, .scalar (.string [107])⟩ := rfl
  have hindex : ((index globals (.scalar (.string [107]))).outcome .standard Target.linked).result =
    .ok (.handle table) := rfl
  have hglobals : globals.Built := Handle.Built.root .globals
  obtain ⟨-, hcopied, -⟩ := key_copied Target.reachable_linked hglobals hk hq .standard
  refine ⟨hq, hindex, ?_⟩
  obtain hsame | hrefused | hrefused := hcopied (by decide)
  · exact hsame.trans hindex
  · exact absurd rfl (hrefused.ne_ok (.handle table))
  · exact absurd hindex (hrefused.ne_ok (.handle table))

/-- A key within keys that is the number 5. On the way to it three values are pinned under the
base, and a word does not hold the slots asked for then; under the number itself they fit. -/
theorem key_overflows_copy :
    let t : Target := { Target.initial with
      capacity := UInt64.size - 1
      heap := #[.table Target.initialRegistry, .table ⟨[(.object 2, .object 0),
        (.object 0, .scalar (.integer 5)), (.integer 5, .scalar (.boolean true))], none⟩,
        .thread] }
    let globals : Value := .handle (.root .globals)
    let k : Handle := ⟨⟨[.indexObject .get 1, .root .globals, .indexObject .get 1, .root .globals,
      .root .mainThread]⟩, .empty⟩
    let limits : Limits := ⟨200, UInt64.size - 3⟩
    t.Reachable ∧ k.Built ∧
      ((query (.handle k)).outcome limits t).result = .ok ⟨.number, .scalar (.integer 5)⟩ ∧
      ((index globals (.scalar (.integer 5))).outcome limits t).result =
        .ok (.scalar (.boolean true)) ∧
      ((index globals (.handle k)).outcome limits t).result = .error (.fault .outOfRange) := by
  intro t globals k limits
  let first : Target := { t with heap := #[.table Target.initialRegistry,
    .table ⟨[(.object 2, .object 0)], none⟩, .thread] }
  let second : Target := { t with heap := #[.table Target.initialRegistry,
    .table ⟨[(.object 2, .object 0), (.object 0, .scalar (.integer 5))], none⟩, .thread] }
  have hempty : Target.Reachable { Target.initial with capacity := UInt64.size - 1 } := .initial _
  have hfirst : first.Reachable := .step hempty
    (@Target.Step.set _ (.object 1) (.object 2) (.object 0) _ ⟨.thread, rfl⟩ ⟨.table, rfl⟩ rfl)
  have hsecond : second.Reachable := .step hfirst
    (@Target.Step.set _ (.object 1) (.object 0) (.scalar (.integer 5)) _ ⟨.table, rfl⟩
      (Target.owns_scalar _ _) rfl)
  have ht : t.Reachable := .step hsecond
    (@Target.Step.set _ (.object 1) (.scalar (.integer 5)) (.scalar (.boolean true)) _
      (Target.owns_scalar _ _) (Target.owns_scalar _ _) rfl)
  have hinner : Handle.Built ⟨⟨[.indexObject .get 1, .root .globals, .root .mainThread]⟩, .empty⟩ :=
    @Handle.Built.indexObject _ _ _ .get (.root .globals) (.root .mainThread) rfl
  have hk : k.Built := @Handle.Built.indexObject _ _ _ .get (.root .globals) hinner rfl
  exact ⟨ht, hk, by decide +kernel, by decide +kernel, by decide +kernel⟩

end Inspect

end RemoteInspect
