import RemoteInspect.Proofs.Handle.Numbering
import RemoteInspect.Proofs.Inspect.Inheritance

namespace RemoteInspect

theorem Handle.Composed.inherited : Handle.Inherited Handle.Composed where
  frameLocal := .frameLocal
  frameFunction := .frameFunction
  kindMetatable := .kindMetatable
  index := .index
  nextKey := .nextKey
  indexObject := .indexObject
  upvalue := .upvalue
  metatable := .metatable
  userPayload := .userPayload

namespace Inspect

/-- In handles that constructors and operations make, each entry of the pool is the key of one step
and none is nil; the references are all different and go from 1 to the size of the pool. -/
theorem pools_economical :
    (∀ h : Handle, h.Composed → h.Economical) ∧
    ∀ request : Request, request.All Handle.Composed → ∀ limits s values,
      (request.answers.run limits s).1 = .ok values → ∀ h, .handle h ∈ values →
        h.Composed ∧ h.Economical := by
  have hcomposed : ∀ h : Handle, h.Composed → h.Economical := fun h hh => hh.numbered.economical
  refine ⟨hcomposed, ?_⟩
  intro request hrequest limits s values hanswers h hmem
  have hh := answers_inherit Handle.Composed.inherited hrequest limits s hanswers _ hmem
  exact ⟨hh, hcomposed h hh⟩

/-- The value of an entry keeps the key of its table twice, and three times under that table. -/
theorem pools_economical_linked :
    let k : Scalar := .string [107]
    let table : Handle := ⟨⟨[.index .get 1, .root .globals]⟩, ⟨[k]⟩⟩
    let value : Handle := ⟨⟨[.indexObject .get 2, .index .get 1, .root .globals,
      .index .next 3, .index .get 2, .root .globals]⟩, ⟨[k, k, .integer 1]⟩⟩
    let nested : Handle := ⟨⟨[.indexObject .next 2, .index .get 1, .root .globals,
      .indexObject .get 2, .index .get 2, .root .globals,
      .index .next 4, .index .get 3, .root .globals]⟩, ⟨[k, k, k, .integer 1]⟩⟩
    let request : Request := .next (.handle table) (some (.scalar (.integer 1)))
    (∃ key, (request.answers.run .standard (.start Target.linked)).1 =
      .ok [.handle key, .handle value]) ∧ value.references = [1, 3, 2] ∧ value.Economical ∧
      table.indexObject .next value = .ok nested ∧ nested.references = [1, 2, 4, 3] ∧
      nested.Economical := by
  intro k table value nested request
  obtain ⟨hmade, hgiven⟩ := pools_economical
  have htable : table.Composed := @Handle.Composed.index _ _ k (.root .globals) rfl
  have hrequest : request.All Handle.Composed := ⟨htable, trivial⟩
  have hresult : (request.answers.run .standard (.start Target.linked)).1 =
      .ok [.handle ⟨⟨[.index .next 2, .index .get 1, .root .globals]⟩, ⟨[k, .integer 1]⟩⟩,
        .handle value] := rfl
  obtain ⟨hvalue, heconomical⟩ := hgiven request hrequest _ _ _ hresult value (by simp)
  have hnested : table.indexObject .next value = .ok nested := rfl
  exact ⟨⟨_, hresult⟩, rfl, heconomical, hnested, rfl,
    hmade nested (.indexObject htable hvalue hnested)⟩

end Inspect

end RemoteInspect
