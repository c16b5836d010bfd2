import RemoteInspect.Proofs.Path.Decoding

namespace RemoteInspect

theorem Kind.code_of_ofCode? {code : UInt32} {kind : Kind} (h : ofCode? code = some kind) :
    kind.code = code := by
  obtain ⟨hlt, hkind⟩ := List.getElem?_eq_some_iff.mp h
  have hcodes : ∀ i : Fin 9, (all.get i).code.toNat = i := by decide
  apply UInt32.toNat_inj.mp
  rw [← hkind]
  exact hcodes ⟨code.toNat, hlt⟩

theorem Lookup.mode_of_ofMode? {mode : UInt16} {l : Lookup} (h : ofMode? mode = some l) :
    l.mode = mode := by
  rw [ofMode?] at h
  split at h
  · cases h
    exact Eq.symm ‹_›
  · split at h <;> cases h
    exact Eq.symm ‹_›

namespace Record

/-- The tags whose field `frame` counts: that of a frame, or the mode of a lookup or a metatable. -/
def usesFrame (r : Record) : Bool :=
  r.tag ∈ ([0, 1, 2, 3, 8] : List UInt8)

/-- The tags whose field `index` counts. That of a metatable is the code of a kind, and counts only
if the mode asks for one. -/
def usesIndex (r : Record) : Bool :=
  r.tag ∈ ([0, 2, 3, 4] : List UInt8) ∨ r.tag = 8 ∧ r.frame = 1

def zeroed (r : Record) : Record where
  tag := r.tag
  frame := if r.usesFrame then r.frame else 0
  index := if r.usesIndex then r.index else 0

theorem step_zeroed (i : Nat) (r : Record) : r.zeroed.step i = r.step i := by
  obtain ⟨tag, frame, index⟩ := r
  rw [step.eq_def, step.eq_def]
  dsimp only [zeroed]
  split
  case h_9 => by_cases hmode : frame = 1 <;> simp [usesFrame, usesIndex, hmode]
  all_goals rfl

theorem mode_of_lookup {i : Nat} {r : Record} {l : Lookup} (h : r.lookup i = .ok l) :
    l.mode = r.frame := by
  rw [lookup] at h
  split at h <;> cases h
  exact Lookup.mode_of_ofMode? ‹_›

theorem ofStep_of_step {i : Nat} {r : Record} {s : Step} (h : r.step i = .ok s) :
    ofStep s = r.zeroed := by
  obtain ⟨tag, frame, index⟩ := r
  rw [step.eq_def] at h
  dsimp only at h
  split at h
  case h_3 | h_4 =>
    obtain ⟨l, hl, rfl⟩ := Except.map_eq_ok_iff.mp h
    rw [ofStep, mode_of_lookup hl]
    rfl
  case h_9 =>
    split at h
    · rename_i hown
      cases h
      simp [ofStep, zeroed, usesFrame, usesIndex, hown]
    · split at h
      · rename_i hshared
        split at h <;> cases h
        rename_i kind hkind
        simp [ofStep, zeroed, usesFrame, usesIndex, hshared, Kind.code_of_ofCode? hkind]
      · cases h
  all_goals cases h
  all_goals rfl

end Record

namespace Path

variable {records : List Record} {p : Path}

theorem encode_of_reads (h : Reads records p.steps) : p.encode = records.map Record.zeroed := by
  have hfields : List.Forall₂ Eq (records.zipIdx.map fun x => x.1.zeroed) p.encode := by
    rw [encode, List.forall₂_map_left_iff, List.forall₂_map_right_iff]
    exact h.imp fun _ _ hx => (Record.ofStep_of_step hx).symm
  rw [List.forall₂_eq_eq_eq] at hfields
  calc p.encode = (records.zipIdx.map Prod.fst).map Record.zeroed := by
        rw [← hfields, List.map_map]
        rfl
    _ = records.map Record.zeroed := by rw [List.zipIdx_map_fst]

theorem decode_zeroed (records : List Record) :
    decode (records.map Record.zeroed) = decode records := by
  have hsteps : (fun x : Record × Nat => x.1.step x.2) ∘ Prod.map Record.zeroed id =
      fun x => x.1.step x.2 :=
    funext fun x => Record.step_zeroed x.2 x.1
  have hreads : (records.map Record.zeroed).zipIdx.mapM (fun x => x.1.step x.2) =
      records.zipIdx.mapM fun x => x.1.step x.2 := by
    rw [List.zipIdx_map, List.mapM_map, hsteps]
  rw [decode, decode, List.isEmpty_map]
  exact congrArg (fun steps => if records.isEmpty = true then _ else steps >>= _) hreads

theorem encode_of_decode (h : decode records = .ok p) : p.encode = records.map Record.zeroed :=
  encode_of_reads (decode_eq_ok_iff.mp h).2.1

/-- What is decoded is encoded as it was, but for the fields that were not used; and these are all
that the path does not tell. Any path comes back from its encoding. -/
theorem encode_exact :
    (∀ records p, decode records = .ok p → p.encode.length = records.length ∧
      p.encode = records.map Record.zeroed ∧ decode p.encode = .ok p) ∧
    (∀ records records' p p', decode records = .ok p → decode records' = .ok p' →
      (p = p' ↔ records.map Record.zeroed = records'.map Record.zeroed)) ∧
    ∀ p : Path, (∃ r : Tree UInt32, r.Declarable ∧ r.preorder = p.steps) →
      decode p.encode = .ok p := by
  refine ⟨fun records p h => ?_, fun records records' p p' h h' => ?_,
    fun p ⟨r, hd, hp⟩ => decode_encode hd hp⟩
  · have hencode := encode_of_decode h
    refine ⟨by rw [hencode, List.length_map], hencode, ?_⟩
    rw [hencode, decode_zeroed, h]
  · constructor
    · rintro rfl
      rw [← encode_of_decode h, ← encode_of_decode h']
    · intro hfields
      have hdecode : decode records = decode records' := by
        rw [← decode_zeroed, hfields, decode_zeroed]
      rw [h, h'] at hdecode
      exact Except.ok.inj hdecode

/-- The index of the first metatable is not used, and that of the second one is the code of its
kind. -/
theorem encode_exact_noisy :
    let noisy : List Record :=
      [⟨3, 0, 3⟩, ⟨9, 7, 7⟩, ⟨8, 0, 4⟩, ⟨5, 3, 9⟩, ⟨4, 6, 2⟩, ⟨8, 1, 4⟩]
    let other : List Record :=
      [⟨3, 0, 3⟩, ⟨9, 0, 1⟩, ⟨8, 0, 8⟩, ⟨5, 1, 0⟩, ⟨4, 1, 2⟩, ⟨8, 1, 4⟩]
    let p : Path := ⟨[.indexObject .get 3, .userPayload, .metatable, .root .globals, .upvalue 2,
      .kindMetatable .string]⟩
    decode noisy = .ok p ∧ p.encode.length = 6 ∧
      p.encode = [⟨3, 0, 3⟩, ⟨9, 0, 0⟩, ⟨8, 0, 0⟩, ⟨5, 0, 0⟩, ⟨4, 0, 2⟩, ⟨8, 1, 4⟩] ∧
      decode p.encode = .ok p ∧ noisy.map Record.zeroed = other.map Record.zeroed := by
  intro noisy other p
  obtain ⟨hdecoded, hequal, hrestored⟩ := encode_exact
  have hnoisy : decode noisy = .ok p := rfl
  have hother : decode other = .ok p := rfl
  obtain ⟨hlength, hencode, -⟩ := hdecoded noisy p hnoisy
  refine ⟨hnoisy, hlength, hencode, ?_, (hequal noisy other p p hnoisy hother).mp rfl⟩
  exact hrestored p ⟨.indexObject .get (.userPayload (.metatable (.root .globals)))
    (.upvalue (.kindMetatable .string) 2), ⟨by decide, trivial, trivial⟩, rfl⟩

end Path

end RemoteInspect
