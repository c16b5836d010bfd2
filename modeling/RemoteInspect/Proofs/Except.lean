import Mathlib.Data.List.Forall2

namespace RemoteInspect.Except

variable {ε δ α β : Type}

@[simp] theorem ok_bind (a : α) (f : α → Except ε β) : (Except.ok a >>= f) = f a := rfl

@[simp] theorem error_bind (e : ε) (f : α → Except ε β) :
    (Except.error e >>= f) = .error e := rfl

@[simp] theorem pure_eq_ok (a : α) : (pure a : Except ε α) = .ok a := rfl

@[simp] theorem throw_eq_error (e : ε) : (throw e : Except ε α) = .error e := rfl

theorem bind_eq_ok_iff {m : Except ε α} {f : α → Except ε β} {b : β} :
    m >>= f = .ok b ↔ ∃ a, m = .ok a ∧ f a = .ok b := by
  cases m <;> simp

theorem bind_eq_error_iff {m : Except ε α} {f : α → Except ε β} {e : ε} :
    m >>= f = .error e ↔ m = .error e ∨ ∃ a, m = .ok a ∧ f a = .error e := by
  cases m <;> simp

@[simp] theorem map_ok (f : α → β) (a : α) : (Except.ok a : Except ε α).map f = .ok (f a) := rfl

@[simp] theorem map_error (f : α → β) (e : ε) : (Except.error e).map f = .error e := rfl

@[simp] theorem mapError_ok (f : ε → δ) (a : α) :
    (Except.ok a : Except ε α).mapError f = .ok a := rfl

@[simp] theorem mapError_error (f : ε → δ) (e : ε) :
    (Except.error e : Except ε α).mapError f = .error (f e) := rfl

theorem mapError_bind (m : Except ε α) (k : α → Except ε β) (f : ε → δ) :
    (m >>= k).mapError f = m.mapError f >>= fun a => (k a).mapError f := by
  cases m <;> rfl

theorem map_eq_ok_iff {m : Except ε α} {f : α → β} {b : β} :
    m.map f = .ok b ↔ ∃ a, m = .ok a ∧ f a = b := by
  cases m <;> simp

theorem map_eq_error_iff {m : Except ε α} {f : α → β} {e : ε} :
    m.map f = .error e ↔ m = .error e := by
  cases m <;> simp

theorem mapError_eq_ok_iff {m : Except ε α} {f : ε → δ} {a : α} :
    m.mapError f = .ok a ↔ m = .ok a := by
  cases m <;> simp

theorem forM_eq_ok_iff {xs : List α} {f : α → Except ε Unit} :
    forM xs f = .ok () ↔ ∀ x ∈ xs, f x = .ok () := by
  induction xs with
  | nil => simp
  | cons x rest ih =>
    rw [List.forM_cons, bind_eq_ok_iff, List.forall_mem_cons, ← ih]
    exact ⟨fun ⟨_, h⟩ => h, fun h => ⟨(), h⟩⟩

theorem forM_eq_error_iff {xs : List α} {f : α → Except ε Unit} {e : ε} :
    forM xs f = .error e ↔
      ∃ before x after, xs = before ++ x :: after ∧ (∀ y ∈ before, f y = .ok ()) ∧
        f x = .error e := by
  induction xs with
  | nil => simp
  | cons a rest ih =>
    rw [List.forM_cons]
    cases ha : f a with
    | error e' =>
      rw [error_bind]
      constructor
      · rintro ⟨⟩
        exact ⟨[], a, rest, rfl, by simp, ha⟩
      · rintro ⟨before, x, after, hxs, hbefore, hx⟩
        cases before with
        | nil =>
          cases hxs
          rw [← hx, ha]
        | cons b before =>
          cases hxs
          cases ha.symm.trans (hbefore a List.mem_cons_self)
    | ok u =>
      rw [ok_bind, ih]
      constructor
      · rintro ⟨before, x, after, rfl, hbefore, hx⟩
        exact ⟨a :: before, x, after, rfl, List.forall_mem_cons.mpr ⟨ha, hbefore⟩, hx⟩
      · rintro ⟨before, x, after, hxs, hbefore, hx⟩
        cases before with
        | nil =>
          cases hxs
          cases ha.symm.trans hx
        | cons b before =>
          cases hxs
          exact ⟨before, x, after, rfl, fun y hy => hbefore y (List.mem_cons_of_mem _ hy), hx⟩

theorem mapM_eq_ok_iff {xs : List α} {ys : List β} {f : α → Except ε β} :
    xs.mapM f = .ok ys ↔ List.Forall₂ (fun x y => f x = .ok y) xs ys := by
  induction xs generalizing ys with
  | nil => cases ys <;> simp
  | cons x rest ih =>
    simp only [List.mapM_cons, bind_eq_ok_iff, pure_eq_ok, Except.ok.injEq, ih,
      List.forall₂_cons_left_iff]
    constructor
    · rintro ⟨y, hy, ys, hys, rfl⟩
      exact ⟨y, ys, hy, hys, rfl⟩
    · rintro ⟨y, ys, hy, hys, rfl⟩
      exact ⟨y, hy, ys, hys, rfl⟩

theorem mapM_eq_error_iff {xs : List α} {f : α → Except ε β} {e : ε} :
    xs.mapM f = .error e ↔ ∃ before x after, xs = before ++ x :: after ∧
      (∃ ys, before.mapM f = .ok ys) ∧ f x = .error e := by
  constructor
  · intro h
    induction xs with
    | nil => simp at h
    | cons x rest ih =>
      simp only [List.mapM_cons, bind_eq_error_iff, pure_eq_ok, reduceCtorEq, and_false,
        exists_false, or_false] at h
      obtain h | ⟨y, hy, h⟩ := h
      · exact ⟨[], x, rest, rfl, ⟨[], rfl⟩, h⟩
      · obtain ⟨before, x', after, rfl, ⟨ys, hys⟩, hx⟩ := ih h
        refine ⟨x :: before, x', after, rfl, ⟨y :: ys, ?_⟩, hx⟩
        simp [List.mapM_cons, hy, hys]
  · rintro ⟨before, x, after, rfl, ⟨ys, hys⟩, hx⟩
    simp [List.mapM_append, hys, hx]

end RemoteInspect.Except
