import RemoteInspect.Proofs.Handle.Denotation

namespace RemoteInspect.Handle

variable {h : Handle}

/-- The path is that of a tree, and no reference in it dangles. -/
structure WellFormed (h : Handle) : Prop where
  laidOut : ∃ r : Tree UInt32, r.Declarable ∧ r.preorder = h.path.steps
  covered : h.pool.Covers h.path.steps

theorem wellFormed_iff : h.WellFormed ↔ ∃ r, h.Encodes r := by
  constructor
  · rintro ⟨⟨r, hd, hp⟩, hcovered⟩
    refine ⟨r, hd, hp, fun ref hm => ?_⟩
    obtain ⟨lookup, hstep⟩ := Tree.index_mem_preorder hm
    exact hcovered lookup ref (hp ▸ hstep)
  · rintro ⟨r, hr⟩
    refine ⟨⟨r, hr.declarable, hr.preorder⟩, fun lookup ref hm => hr.bounded ref ?_⟩
    exact Tree.mem_keys_of_index_mem (hr.preorder ▸ hm)

theorem Built.wellFormed (hh : h.Built) : h.WellFormed := by
  obtain ⟨_, r, hr, -⟩ := hh.denotes
  exact wellFormed_iff.mpr ⟨r, hr⟩

theorem WellFormed.restored (hh : h.WellFormed) :
    (do ofParts (← Path.decode h.path.encode) h.pool) = .ok h := by
  obtain ⟨r, hd, hp⟩ := hh.laidOut
  rw [Path.decode_encode hd hp, Except.ok_bind]
  exact ofParts_eq_ok_iff.mpr ⟨hh.covered, rfl⟩

theorem built_iff_wellFormed : h.Built ↔ h.WellFormed := by
  constructor
  · exact Built.wellFormed
  · intro hh
    obtain ⟨path, decoded, parts⟩ := Except.bind_eq_ok_iff.mp hh.restored
    exact .ofParts decoded parts

end RemoteInspect.Handle
