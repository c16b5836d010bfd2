import RemoteInspect.Proofs.Handle.Restoring
import RemoteInspect.Proofs.Inspect.Balance

namespace RemoteInspect.Inspect

/-- A handle has the path of a tree, and a pool that has all that the path refers to; so it comes
back from the records of its path and its pool. The handles that operations give are like those
that they are given, on any target. Only a dangling reference keeps a path from a pool, and the
first one is to blame. -/
theorem handles_restored :
    (∀ h : Handle, h.Built → h.WellFormed ∧
      (do Handle.ofParts (← Path.decode h.path.encode) h.pool) = .ok h) ∧
    (∀ request : Request, request.Built → ∀ limits s values,
      (request.answers.run limits s).1 = .ok values → ∀ h, .handle h ∈ values → h.Built) ∧
    ∀ (path : Path) (pool : Pool) (e : Path.Defect), Handle.ofParts path pool = .error e ↔
      ∃ before lookup reference after,
        path.steps = before ++ .index lookup reference :: after ∧ pool.Covers before ∧
          pool.size < reference.toNat ∧
          e = .poolReference before.length reference pool.size := by
  refine ⟨fun h hh => ⟨hh.wellFormed, hh.wellFormed.restored⟩, ?_,
    fun path pool e => Handle.ofParts_eq_error_iff⟩
  intro request hrequest limits s values h handle hmem
  exact answers_inherit Handle.Built.inherited hrequest.all limits s h _ hmem

/-- The value after a key is a lookup with the key of a lookup. Of two references past the end of a
pool, the first one is in the base. -/
theorem handles_restored_linked :
    let table : Handle := ⟨⟨[.index .get 1, .root .globals]⟩, ⟨[.string [107]]⟩⟩
    let value : Handle := ⟨⟨[.indexObject .get 2, .index .get 1, .root .globals,
      .index .next 3, .index .get 2, .root .globals]⟩,
      ⟨[.string [107], .string [107], .integer 1]⟩⟩
    let request : Request := .next (.handle table) (some (.scalar (.integer 1)))
    (∃ key, (request.answers.run .standard (.start Target.linked)).1 =
      .ok [.handle key, .handle value]) ∧ value.WellFormed ∧
      (do Handle.ofParts (← Path.decode value.path.encode) value.pool) = .ok value ∧
      Handle.ofParts value.path ⟨[]⟩ = .error (.poolReference 1 1 0) := by
  intro table value request
  obtain ⟨hrestored, hgiven, hrejected⟩ := handles_restored
  have htable : table.Built := @Handle.Built.index _ _ (.string [107]) (.root .globals) rfl
  have hrequest : request.Built := ⟨htable, by rintro _ ⟨⟩; trivial⟩
  have hresult : (request.answers.run .standard (.start Target.linked)).1 =
      .ok [.handle ⟨⟨[.index .next 2, .index .get 1, .root .globals]⟩,
        ⟨[.string [107], .integer 1]⟩⟩, .handle value] := rfl
  have hvalue : value.Built := hgiven request hrequest _ _ _ hresult value (by simp)
  refine ⟨⟨_, hresult⟩, (hrestored value hvalue).1, (hrestored value hvalue).2, ?_⟩
  refine (hrejected _ _ _).mpr ⟨[.indexObject .get 2], .get, 1, _, rfl, ?_, by decide, rfl⟩
  rintro lookup reference hm
  cases List.mem_singleton.mp hm

end RemoteInspect.Inspect
