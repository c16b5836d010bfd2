import RemoteInspect.Proofs.Inspect.KeyCopies
import RemoteInspect.Proofs.Inspect.Rederivation
import RemoteInspect.Proofs.Target.Metatables

namespace RemoteInspect

variable {t : Target} {limits : Limits} {base : Value} {b : Meaning} {v : Live} {kind : Kind}

namespace Answer

theorem metatableHandle_of_resolves (hb : base.Resolves t v) (hk : t.kind? v = some kind) :
    kind = .function ∧
        metatableHandle base kind = .error (.unsupported .noSharedMetatable) ∨
      kind ≠ .function ∧ ∃ h, metatableHandle base kind = .ok h := by
  cases base with
  | scalar s =>
    cases Value.eq_of_resolves_scalar hb
    cases hk
    cases s <;> exact .inr ⟨Kind.noConfusion, _, rfl⟩
  | handle h =>
    cases kind with
    | function => exact .inl ⟨rfl, rfl⟩
    | nil | boolean | pointer | number | string | table | userdata | thread =>
      exact .inr ⟨Kind.noConfusion, _, rfl⟩

end Answer

namespace Inspect

/-- What `metatable` tells of `v` when it is not refused. -/
inductive ShowsMetatable (t : Target) (v : Live) : Except Stop Handle → Prop
  | unsupported (function : t.kind? v = some .function) :
      ShowsMetatable t v (.error (.failure (.unsupported .noSharedMetatable)))
  | absent (other : t.kind? v ≠ some .function) (none : t.metatable? v = none) :
      ShowsMetatable t v (.error (.failure (.notFound .metatable)))
  | found {m : Live} {h : Handle} (other : t.kind? v ≠ some .function)
      (some : t.metatable? v = some m) (refers : h.Refers t m) : ShowsMetatable t v (.ok h)

theorem shows_metatable (ht : t.Sound) (hb : base.Denotes b) (hv : b.value t = .ok v) :
    ShowsMetatable t v (Answer.metatable t base (b.unlimited t) (.ok ())) := by
  obtain ⟨kind, hk⟩ := Meaning.owns_value ht hv
  have hunlimited : b.unlimited t = .ok v := by rw [Meaning.unlimited, hv, Except.mapError_ok]
  have hother : kind ≠ .function → t.kind? v ≠ some .function := fun hne he =>
    hne (Option.some.inj (hk.symm.trans he))
  cases hr : Answer.metatable t base (b.unlimited t) (.ok ()) with
  | ok h =>
    obtain ⟨v', m, hv', hm, hnames⟩ := Answer.metatable_names ht hb hr
    cases hv.symm.trans hv'
    refine .found ?_ hm (hnames.rederives ht).2
    obtain ⟨rfl, hunsupported⟩ | ⟨hne, -⟩ := Answer.metatableHandle_of_resolves ⟨b, hb, hv⟩ hk
    · simp [Answer.metatable, hunlimited, hk, hunsupported] at hr
    · exact hother hne
  | error e =>
    rw [Answer.metatable, hunlimited] at hr
    obtain ⟨rfl, hunsupported⟩ | ⟨hne, h, hh⟩ := Answer.metatableHandle_of_resolves ⟨b, hb, hv⟩ hk
    · simp only [Except.ok_bind, hk, hunsupported] at hr
      cases hr
      exact .unsupported hk
    · cases hm : t.metatable? v with
      | none =>
        simp only [Except.ok_bind, hk, hh, hm] at hr
        cases hr
        exact .absent (hother hne) hm
      | some m =>
        simp only [Except.ok_bind, hk, hh, hm] at hr
        cases hr

theorem metatable_shows (ht : t.Sound) {value : Value} (hv : value.Resolves t v)
    (limits : Limits) :
    let r := ((metatable value).outcome limits t).result
    ShowsMetatable t v r ∨ Refused limits (t.pinned + value.steps + 1) r := by
  intro r
  obtain ⟨b, hb, hvalue⟩ := hv
  have hsize : t.pinned + b.size + 1 ≤ t.pinned + value.steps + 1 := by simp [hb.size]
  obtain hr | hrefused := metatable_settles ht hb hsize
  · have hshown := shows_metatable ht hb hvalue
    rw [← hr] at hshown
    exact .inl hshown
  · exact .inr hrefused

/-- An assigned metatable is found under the value that it is assigned to, or under all values of
its kind when they share one, and nothing else of the target changes. So `metatable` leads to it
from there and tells of other values what it told before, unless a resource is exhausted or no word
counts the slots asked for. -/
theorem metatable_assigned (ht : t.Reachable) (hv : t.Owns v) {m : Option Live}
    (hm : ∀ x, m = some x → t.kind? x = some .table) :
    ∃ u, t.setMetatable v m = .ok u ∧ t.Assigned v m u ∧
      ∀ (w : Live) (value : Value), value.Resolves u w → ∀ limits : Limits,
        let r := ((metatable value).outcome limits u).result
        ShowsMetatable u w r ∨ Refused limits (u.pinned + value.steps + 1) r := by
  obtain ⟨u, hu, hassigned⟩ := Target.exists_setMetatable hv hm
  have hsound : u.Sound := ht.sound.setMetatable hu
  exact ⟨u, hu, hassigned, fun w value hw limits => metatable_shows hsound hw limits⟩

/-- A userdata that is assigned a table leads to it, and its own table, which is no userdata, has
none yet. -/
theorem metatable_assigned_linked :
    let table : Handle := ⟨⟨[.index .get 1, .root .globals]⟩, ⟨[.string [107]]⟩⟩
    let userdata : Handle := ⟨⟨[.index .get 2, .index .get 1, .root .globals]⟩,
      ⟨[.string [107], .integer 1]⟩⟩
    ∃ u, Target.linked.setMetatable (.object 4) (some (.object 3)) = .ok u ∧
      u.metatable? (.object 4) = some (.object 3) ∧ u.metatable? (.object 3) = none ∧
      ((metatable (.handle userdata)).outcome .standard u).result = .ok userdata.metatable ∧
      userdata.metatable.Refers u (.object 3) ∧
      ((metatable (.handle table)).outcome .standard u).result =
        .error (.failure (.notFound .metatable)) := by
  intro table userdata
  have howned : Target.linked.Owns (.object 4) := ⟨.userdata, rfl⟩
  let u : Target := Target.linked.replace 4 (.userdata (some (.object 3)) (some 3))
  have hdone : Target.linked.setMetatable (.object 4) (some (.object 3)) = .ok u := rfl
  have htable : ∀ x, some (Live.object 3) = some x → Target.linked.kind? x = some .table := by
    rintro x ⟨⟩
    rfl
  obtain ⟨u', hu, hassigned, hshows⟩ := metatable_assigned Target.reachable_linked howned htable
  obtain rfl : u = u' := Except.ok.inj (hdone.symm.trans hu)
  have hresult : ((metatable (.handle userdata)).outcome .standard u).result =
    .ok userdata.metatable := rfl
  refine ⟨u, hu, hassigned.inScope _ ⟨.userdata, rfl, rfl⟩, ?_, hresult, ?_, rfl⟩
  · refine hassigned.elsewhere (.object 3) ?_
    rintro ⟨kind, hkind, hscope⟩
    cases hkind
    cases hscope
  · have htable : table.Denotes (.index .get (.root .globals) (.string [107])) :=
      (Handle.denotes_root .globals).index rfl
    have hdenotes : userdata.Denotes (.index .get _ (.integer 1)) := htable.index rfl
    have huserdata : (Value.handle userdata).Resolves u (.object 4) :=
      Value.resolves_handle_iff.mpr ⟨_, hdenotes, rfl⟩
    obtain hfound | hrefused := hshows _ _ huserdata .standard
    · rw [hresult] at hfound
      cases hfound with
      | found other hm hrefers =>
        cases hm
        exact hrefers
    · exact absurd hresult (hrefused.ne_ok _)

/-- Numbers share the globals as a metatable, and there is a slot for the number that is asked
about. No word counts that slot together with those that its metatable takes. -/
theorem metatable_overflows_shared :
    let t : Target := { Target.initial with capacity := UInt64.size - 1 }
    let u : Target := t.share .number (some 1)
    let limits : Limits := ⟨200, UInt64.size - 1⟩
    let seven : Value := .scalar (.integer 7)
    u.Reachable ∧ t.setMetatable (.scalar (.integer 5)) (some (.object 1)) = .ok u ∧
      u.metatable? (.scalar (.integer 7)) = some (.object 1) ∧
      ((typeOf seven).outcome limits u).result = .ok .number ∧
      ((metatable seven).outcome limits u).result = .error (.fault .outOfRange) := by
  intro t u limits seven
  have hdone : t.setMetatable (.scalar (.integer 5)) (some (.object 1)) = .ok u := rfl
  exact ⟨.step (.initial _) (.setMetatable hdone), hdone, rfl, by decide +kernel,
    by decide +kernel⟩

end Inspect

end RemoteInspect
