import RemoteInspect.Proofs.Inspect.Readers

namespace RemoteInspect

variable {t : Target} {limits : Limits}

theorem Scalar.isCopyable_kind (s : Scalar) : s.kind.isCopyable = true := by
  cases s <;> rfl

theorem Target.isCopyable_of_kind? {id : ObjectId} {kind : Kind}
    (h : t.kind? (.object id) = some kind) : kind.isCopyable = false := by
  obtain ⟨o, -, rfl⟩ := Option.map_eq_some_iff.mp h
  cases o <;> rfl

namespace Inspect

/-- What `query`, `typeOf`, `display` and `typeName` answer together of what a handle `h` leads
to. -/
inductive Told (t : Target) (h : Handle) :
    Except Stop Live → Except Stop Reading → Except Stop Kind → Except Stop Scalar →
      Except Stop String → Prop
  | copied (s : Scalar) (copyable : s.kind.isCopyable = true) :
      Told t h (.ok (.scalar s)) (.ok ⟨s.kind, .scalar s⟩) (.ok s.kind) (.ok s) (.ok s.kind.name)
  | referred {id : ObjectId} {kind : Kind} (found : t.kind? (.object id) = some kind)
      (lasting : kind.isCopyable = false) :
      Told t h (.ok (.object id)) (.ok ⟨kind, .handle h⟩) (.ok kind)
        (.ok (.string ("[" ++ kind.name ++ ": " ++ Text.address id.address ++ "]").toUTF8.toList))
        (.ok kind.name)
  | failed (f : Failure) :
      Told t h (.error (.failure f)) (.error (.failure f)) (.error (.failure f))
        (.error (.failure f)) (.ok "no value")
  | faulted (f : Fault) :
      Told t h (.error (.fault f)) (.error (.fault f)) (.error (.fault f)) (.error (.fault f))
        (.error (.fault f))

theorem Told.of_object {h : Handle} {id : ObjectId} {q : Except Stop Reading}
    {k : Except Stop Kind} {shown : Except Stop Scalar} {name : Except Stop String}
    (told : Told t h (.ok (.object id)) q k shown name) :
    ∃ kind, t.kind? (.object id) = some kind ∧ q = .ok ⟨kind, .handle h⟩ ∧
      shown = .ok (.string
        ("[" ++ kind.name ++ ": " ++ Text.address id.address ++ "]").toUTF8.toList) := by
  cases told with
  | referred found lasting => exact ⟨_, found, rfl, rfl⟩

theorem told_answers {h : Handle} {r : Except Stop Live} (howns : ∀ v, r = .ok v → t.Owns v) :
    Told t h r (Answer.query t h r) (Answer.typeOf t r) (Answer.display t r)
      (Answer.typeName (Answer.typeOf t r)) := by
  obtain (f | f) | (s | id) := r
  · exact .failed f
  · exact .faulted f
  · exact .copied s s.isCopyable_kind
  · obtain ⟨kind, hkind⟩ := howns _ rfl
    simp only [Answer.query, Answer.typeOf, Answer.display, Answer.kindOf, Answer.published,
      Except.ok_bind, hkind]
    exact .referred hkind (Target.isCopyable_of_kind? hkind)

theorem handle_told (ht : t.Sound) {h : Handle} {tree : Tree Scalar} (hh : h.Denotes tree)
    (limits : Limits) :
    let found := ((evaluate h).outcome limits t).result
    Told t h found ((query (.handle h)).outcome limits t).result
      ((typeOf (.handle h)).outcome limits t).result
      ((display (.handle h)).outcome limits t).result
      ((typeName (.handle h)).outcome limits t).result ∧
    ∀ f, found = .error (.fault f) ↔ f = .outOfRange ∧ tree.Overflows limits t t.pinned := by
  have hvalue : (Value.handle h).Denotes (.tree tree) := hh
  have hfound : Runs limits t t.pinned 1 (evaluate h) _ := evaluate_runs ht hh t.pinned
  have hquery : Runs limits t t.pinned 0 (query (.handle h)) _ := query_runs ht hh
  have htype : Runs limits t t.pinned 0 (typeOf (.handle h)) _ := typeOf_runs ht hvalue
  have hdisplay : Runs limits t t.pinned 0 (display (.handle h)) _ := display_runs ht hvalue
  have hname : Runs limits t t.pinned 0 (typeName (.handle h)) _ := typeName_runs ht hvalue
  simp only [hfound.outcome, hquery.outcome, htype.outcome, hdisplay.outcome, hname.outcome]
  exact ⟨told_answers fun v => Tree.owns_limited ht, fun f => Tree.limited_eq_fault_iff⟩

theorem scalar_told (ht : t.Sound) (s : Scalar) {r : Except Stop Unit}
    (hr : reservation limits t.capacity t.pinned = r) :
    ((typeOf (.scalar s)).outcome limits t).result = r.map (fun _ => s.kind) ∧
      ((display (.scalar s)).outcome limits t).result = r.map (fun _ => s) ∧
      ((typeName (.scalar s)).outcome limits t).result =
        Answer.typeName (r.map fun _ => s.kind) := by
  have hvalue : (Value.scalar s).Denotes (.scalar s) := rfl
  have htype : Runs limits t t.pinned 0 (typeOf (.scalar s)) _ := typeOf_runs ht hvalue
  have hdisplay : Runs limits t t.pinned 0 (display (.scalar s)) _ := display_runs ht hvalue
  have hname : Runs limits t t.pinned 0 (typeName (.scalar s)) _ := typeName_runs ht hvalue
  rw [htype.outcome, hdisplay.outcome, hname.outcome, Meaning.limited, hr]
  cases r <;> exact ⟨rfl, rfl, rfl⟩

/-- The readers of a handle fail alike, or all tell of the value that the handle leads to; they
fault only together with its evaluation. A scalar is what it is read as, if there is room for it,
and `query` asks for no room. Only where no word counts the slots that are asked for, the other
readers of a scalar fault. -/
theorem readers_agree (ht : t.Reachable) (limits : Limits) :
    (∀ h : Handle, h.Built → ∃ tree, h.HasTree tree ∧
      let found := ((evaluate h).outcome limits t).result
      Told t h found ((query (.handle h)).outcome limits t).result
        ((typeOf (.handle h)).outcome limits t).result
        ((display (.handle h)).outcome limits t).result
        ((typeName (.handle h)).outcome limits t).result ∧
      ∀ f, found = .error (.fault f) ↔ f = .outOfRange ∧ tree.Overflows limits t t.pinned) ∧
    ∀ s : Scalar,
      let kind := ((typeOf (.scalar s)).outcome limits t).result
      let shown := ((display (.scalar s)).outcome limits t).result
      let name := ((typeName (.scalar s)).outcome limits t).result
      let slots := t.pinned + limits.reserve
      ((query (.scalar s)).outcome limits t).result = .ok ⟨s.kind, .scalar s⟩ ∧
      (slots < Target.sizeLimit → slots ≤ t.capacity →
        kind = .ok s.kind ∧ shown = .ok s ∧ name = .ok s.kind.name) ∧
      (slots < Target.sizeLimit → t.capacity < slots →
        kind = .error (.failure (.exhausted .workingArea)) ∧
          shown = .error (.failure (.exhausted .workingArea)) ∧ name = .ok "no value") ∧
      (Target.sizeLimit ≤ slots → kind = .error (.fault .outOfRange) ∧
        shown = .error (.fault .outOfRange) ∧ name = .error (.fault .outOfRange)) := by
  refine ⟨fun h hh => ?_, fun s => ?_⟩
  · obtain ⟨tree, htree⟩ := hh.denotes
    exact ⟨tree, htree.hasTree, handle_told ht.sound htree limits⟩
  intro kind shown name slots
  refine ⟨rfl, ?_, ?_, ?_⟩
  · intro hfits hroom
    have hr : reservation limits t.capacity t.pinned = .ok () := by
      rw [reservation, if_neg (Nat.not_le.mpr hfits), if_pos hroom]
    exact scalar_told ht.sound s hr
  · intro hfits hroom
    have hr : reservation limits t.capacity t.pinned =
        .error (.failure (.exhausted .workingArea)) := by
      rw [reservation, if_neg (Nat.not_le.mpr hfits), if_neg (Nat.not_le.mpr hroom)]
    exact scalar_told ht.sound s hr
  · intro hlimit
    have hr : reservation limits t.capacity t.pinned = .error (.fault .outOfRange) := by
      rw [reservation, if_pos hlimit]
    exact scalar_told ht.sound s hr

/-- A userdata is shown by its kind and its place, and the text of that is shown as it is. -/
theorem readers_agree_linked :
    let userdata : Handle := ⟨⟨[.index .get 2, .index .get 1, .root .globals]⟩,
      ⟨[.string [107], .integer 1]⟩⟩
    let text : Scalar := .string "[userdata: 0x100100]".toUTF8.toList
    ((query (.handle userdata)).outcome .standard Target.linked).result =
        .ok ⟨.userdata, .handle userdata⟩ ∧
      ((display (.handle userdata)).outcome .standard Target.linked).result = .ok text ∧
      ((display (.scalar text)).outcome .standard Target.linked).result = .ok text := by
  intro userdata text
  have htable : Handle.Built ⟨⟨[.index .get 1, .root .globals]⟩, ⟨[.string [107]]⟩⟩ :=
    @Handle.Built.index _ _ (.string [107]) (.root .globals) rfl
  have huserdata : userdata.Built := @Handle.Built.index _ _ (.integer 1) htable rfl
  have hfound : ((evaluate userdata).outcome .standard Target.linked).result =
    .ok (.object 4) := rfl
  obtain ⟨hhandle, hscalar⟩ := readers_agree Target.reachable_linked .standard
  obtain ⟨-, -, htold, -⟩ := hhandle userdata huserdata
  rw [hfound] at htold
  obtain ⟨kind, hkind, hquery, hshown⟩ := htold.of_object
  cases hkind
  obtain ⟨-, hroom, -⟩ := hscalar text
  have htext : Scalar.string
    ("[" ++ Kind.userdata.name ++ ": " ++ Text.address (ObjectId.address 4) ++ "]").toUTF8.toList =
      text := by decide +kernel
  exact ⟨hquery, hshown.trans (congrArg Except.ok htext), (hroom (by decide) (by decide)).2.1⟩

/-- With one value pinned a word cannot count all slots that it can ask for, so that a number has
no kind. -/
theorem typeOf_overflows_pinned :
    let t : Target := Target.initial.pin
    let limits : Limits := ⟨200, UInt64.size - 1⟩
    let five : Value := .scalar (.integer 5)
    t.Reachable ∧
      ((query five).outcome limits t).result = .ok ⟨.number, five⟩ ∧
      ((typeOf five).outcome limits t).result = .error (.fault .outOfRange) ∧
      ((display five).outcome limits t).result = .error (.fault .outOfRange) :=
  ⟨.step (.initial Target.defaultCapacity) .pin, rfl, rfl, rfl⟩

end Inspect

end RemoteInspect
