import RemoteInspect.Proofs.Handle.Words
import RemoteInspect.Proofs.Inspect.Operations

namespace RemoteInspect

namespace Inspect

variable {α : Type} {limits : Limits} {t : Target} {gain : Nat} {P : Handle → Prop}

/-- What is left of `t`: `gain` more values pinned after a success, and the same target after a
failure. What a fault leaves pinned goes with it. -/
def Balanced (t : Target) (gain : Nat) : Except Stop α × Session → Prop
  | (.ok _, s) => s.target = t.withPinned (t.pinned + gain)
  | (.error (.failure _), s) => s.target = t
  | (.error (.fault f), s) =>
    f ≠ .nothingPinned ∧ ∃ left, s.target = t.withPinned (t.pinned + left)

abbrev Unrelated (f : Fault) : Prop := f ≠ .nothingPinned

theorem Keeps.balanced {m : Inspect α} {Q : α → Prop} (hm : Keeps limits t Unrelated 0 gain m Q)
    {s : Session} (hs : s.target = t) : Balanced t gain (m.run limits s) := by
  obtain ⟨⟨(f | f) | a, p, high, es⟩, ⟨hends, -, -⟩, hrun⟩ := (hm t.pinned).run hs
  · rw [hrun]
    exact congrArg t.withPinned hends
  · obtain ⟨hle, hf⟩ := hends
    obtain ⟨left, rfl⟩ := Nat.exists_eq_add_of_le hle
    rw [hrun]
    refine ⟨hf.elim id ?_, left, rfl⟩
    rintro ⟨rfl, -⟩
    exact nofun
  · rw [hrun]
    exact congrArg t.withPinned hends.2

theorem Keeps.result {m : Inspect α} {Q : α → Prop}
    (hm : ∀ t, Keeps limits t Unrelated 0 gain m Q) (s : Session) {a : α}
    (h : (m.run limits s).1 = .ok a) : Q a := by
  obtain ⟨⟨r, p, high, es⟩, ⟨hends, -, -⟩, hrun⟩ := (hm s.target s.target.pinned).run (s := s) rfl
  rw [hrun] at h
  subst h
  exact hends.1

theorem Keeps.outcome_target {m : Inspect α} {Q : α → Prop}
    (hm : Keeps limits t Unrelated 0 0 m Q) : (m.outcome limits t).target = t := by
  have h := hm.balanced (s := .start t) rfl
  rw [outcome]
  generalize m.run limits (.start t) = out at h ⊢
  obtain ⟨(f | f) | a, s⟩ := out
  · exact h
  · rfl
  · exact h

theorem Setting.any (hP : Handle.Inherited P) :
    Setting limits t Unrelated (fun _ => True) P where
  grounds := .of_allowed t nofun
  inherited := hP
  evaluate _ := (evaluate_keeps_of_allowed (.of_allowed t nofun) nofun _).mono fun _ => And.left

theorem Recorded.fault_of_lookup {key : Recorded} {b : Handle} {lookup : Lookup} {f : Fault}
    (h : key.lookup b lookup = .error f) : Unrelated f := by
  have hobject : ∀ k, b.indexObject lookup k = .error f → f ≠ .nothingPinned := by
    intro k h
    obtain rfl | rfl | rfl := Handle.fault_of_indexObject h <;> decide
  cases key with
  | object k => cases lookup <;> exact hobject k h
  | constant s =>
    cases lookup with
    | get => obtain rfl | rfl := Handle.fault_of_index h <;> decide
    | next =>
      cases Handle.fault_of_constantLookup h
      decide

theorem Request.composes_any (request : Request) : request.Composes t Unrelated := by
  cases request with
  | index base key => exact fun _ _ _ _ _ => Recorded.fault_of_lookup
  | next base last =>
    refine fun h v _ => ⟨fun _ => Recorded.fault_of_lookup, ?_⟩
    intro table key value given f _ _ hf
    cases given with
    | scalar s => exact @Recorded.fault_of_lookup (.constant s) h .get f hf
    | handle k => exact @Recorded.fault_of_lookup (.object k) h .get f hf
  | query | upvalue | metatable | userPayload | frameLocal | frameFunction => trivial

theorem answers_inherit (hP : Handle.Inherited P) {request : Request} (h : request.All P)
    (limits : Limits) (s : Session) {values : List Value}
    (hgiven : (request.answers.run limits s).1 = .ok values) : ∀ value ∈ values, value.All P :=
  Keeps.result (fun _ => answers_keeps (.any hP) h request.composes_any) s hgiven

end Inspect

end RemoteInspect
