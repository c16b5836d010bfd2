import RemoteInspect.Proofs.Inspect.Effect

namespace RemoteInspect.Inspect

variable {α β : Type} {limits : Limits} {t : Target} {n gain : Nat}

/-- From `n` pinned values on, `m` gives `r` and leaves `n'` pinned. -/
def Executes (limits : Limits) (t : Target) (n : Nat) (m : Inspect α) (r : Except Stop α)
    (n' : Nat) : Prop :=
  Meets limits t n m fun e => e.result = r ∧ e.pinned = n'

namespace Executes

variable {n₁ n₂ : Nat}

theorem seq {m : Inspect α} {f : α → Inspect β} {a : α} {r : Except Stop β}
    (hm : Executes limits t n m (.ok a) n₁) (hf : Executes limits t n₁ (f a) r n₂) :
    Executes limits t n (m >>= f) r n₂ := by
  apply Meets.seq hm
  · rintro _ _ _ _ ⟨⟨⟩, -⟩
  · rintro _ _ _ _ ⟨⟨⟩, rfl⟩
    exact hf

theorem stop {m : Inspect α} {f : α → Inspect β} {e : Stop}
    (hm : Executes limits t n m (.error e) n₁) : Executes limits t n (m >>= f) (.error e) n₁ := by
  apply Meets.seq hm
  · rintro _ _ _ _ ⟨⟨⟩, rfl⟩
    exact ⟨rfl, rfl⟩
  · rintro _ _ _ _ ⟨⟨⟩, -⟩

theorem pure (a : α) : Executes limits t n (Pure.pure a) (.ok a) n :=
  Meets.pure ⟨rfl, rfl⟩

theorem fail (f : Failure) : Executes limits t n (fail f : Inspect α) (.error (.failure f)) n :=
  Meets.fail ⟨rfl, rfl⟩

theorem fault (f : Fault) : Executes limits t n (fault f : Inspect α) (.error (.fault f)) n :=
  Meets.fault ⟨rfl, rfl⟩

theorem emit (e : Event) : Executes limits t n (emit e) (.ok ()) n :=
  Meets.emit ⟨rfl, rfl⟩

theorem target : Executes limits t n target (.ok (t.withPinned n)) n :=
  Meets.target ⟨rfl, rfl⟩

theorem getLimits : Executes limits t n Inspect.limits (.ok limits) n :=
  Meets.getLimits ⟨rfl, rfl⟩

theorem pin (v : Live) : Executes limits t n (pin v) (.ok v) (n + 1) :=
  Meets.pin ⟨rfl, rfl⟩

theorem release : Executes limits t (n + 1) release (.ok ()) n :=
  Meets.release ⟨rfl, rfl⟩

theorem kindOf {v : Live} {kind : Kind} (h : t.kind? v = some kind) :
    Executes limits t n (kindOf v) (.ok kind) n :=
  Meets.kindOf ⟨by rw [h]; rfl, rfl⟩

theorem roomy : Executes limits t n roomy
    (if Target.sizeLimit ≤ n + limits.reserve then .error (.fault .outOfRange)
      else .ok (decide (n + limits.reserve ≤ t.capacity))) n :=
  Meets.roomy ⟨rfl, rfl⟩

end Executes

def pinnedAfter (n gain : Nat) : Except Stop α → Nat
  | .ok _ => n + gain
  | .error _ => n

/-- From `n` pinned values on, `m` gives `r`. If it succeeds it pins `gain` more. -/
def Runs (limits : Limits) (t : Target) (n gain : Nat) (m : Inspect α) (r : Except Stop α) : Prop :=
  Executes limits t n m r (pinnedAfter n gain r)

theorem pinnedAfter_zero (r : Except Stop α) : pinnedAfter n 0 r = n := by
  cases r <;> rfl

theorem pinnedAfter_succ (r : Except Stop α) :
    pinnedAfter (n + 1) gain r = pinnedAfter n gain r + 1 := by
  cases r with
  | ok a => exact Nat.add_right_comm n 1 gain
  | error x => rfl

theorem outcome_result (m : Inspect α) (limits : Limits) (t : Target) :
    (m.outcome limits t).result = (m.run limits (.start t)).1 := by
  rw [outcome]
  obtain ⟨(f | f) | a, s⟩ := m.run limits (.start t) <;> rfl

theorem outcome_session (m : Inspect α) (limits : Limits) (t : Target) :
    (m.outcome limits t).session = (m.run limits (.start t)).2 := by
  rw [outcome]
  obtain ⟨(f | f) | a, s⟩ := m.run limits (.start t) <;> rfl

namespace Runs

theorem outcome {m : Inspect α} {r : Except Stop α} (h : Runs limits t t.pinned gain m r) :
    (m.outcome limits t).result = r := by
  obtain ⟨e, ⟨rfl, -⟩, hrun⟩ := Meets.run h (s := .start t) rfl
  rw [outcome_result, hrun]

theorem bind {m : Inspect α} {f : α → Inspect β} {r : Except Stop α} {k : α → Except Stop β}
    (hm : Runs limits t n 0 m r) (hf : ∀ a, r = .ok a → Runs limits t n gain (f a) (k a)) :
    Runs limits t n gain (m >>= f) (r >>= k) := by
  cases r with
  | error e => exact .stop hm
  | ok a => exact .seq hm (hf a rfl)

theorem map {m : Inspect α} {r : Except Stop α} (f : α → β) (hm : Runs limits t n 0 m r) :
    Runs limits t n 0 (m >>= fun a => Pure.pure (f a)) (r.map f) := by
  cases r with
  | error e => exact .stop hm
  | ok a => exact .seq hm (.pure _)

/-- What comes after a value is pinned must not fail, for it would leave the value pinned. -/
theorem andThen {m : Inspect α} {f : α → Inspect α} {r : Except Stop α}
    (hm : Runs limits t n gain m r)
    (hf : ∀ a, r = .ok a → Executes limits t (n + gain) (f a) (.ok a) (n + gain)) :
    Runs limits t n gain (m >>= f) r := by
  cases r with
  | error e => exact .stop hm
  | ok a => exact .seq hm (hf a rfl)

theorem holding {pinned : Inspect Live} {work : Live → Inspect α} {r : Except Stop Live}
    {k : Live → Except Stop α} (hp : Runs limits t n 1 pinned r)
    (hw : ∀ v, r = .ok v → Runs limits t (n + 1) gain (work v) (k v)) :
    Runs limits t n gain (holding pinned work) (r >>= k) := by
  refine Meets.holding hp (fun x p h es hx => ?_) fun v p h es hv => ?_
  · obtain ⟨rfl, hpinned⟩ := hx
    exact ⟨rfl, hpinned⟩
  · obtain ⟨rfl, hpinned⟩ := hv
    cases hpinned
    apply (hw v rfl).mono
    rintro e ⟨hresult, hleft⟩
    rw [pinnedAfter_succ] at hleft
    rw [Effect.freed_of_succ hleft]
    exact ⟨hresult, rfl⟩

theorem holding_ok {pinned : Inspect Live} {work : Live → Inspect α} {v : Live}
    {r : Except Stop α} (hp : Runs limits t n 1 pinned (.ok v))
    (hw : Runs limits t (n + 1) gain (work v) r) :
    Runs limits t n gain (Inspect.holding pinned work) r :=
  holding (k := fun _ => r) hp fun _ hv => Except.ok.inj hv ▸ hw

theorem attempt {m : Inspect α} {r : Except Stop α} (h : Runs limits t n 0 m r) :
    Runs limits t n 0 m.attempt (match r with
      | .ok a => .ok (.ok a)
      | .error (.failure f) => .ok (.error f)
      | .error (.fault f) => .error (.fault f)) := by
  apply Meets.attempt
  obtain (f | f) | a := r <;>
    exact h.mono fun ⟨_, _, _, _⟩ ⟨hresult, hpinned⟩ => by cases hresult; exact ⟨rfl, hpinned⟩

theorem rejecting {m : Inspect α} {r : Except Stop α} (operation : Operation)
    (h : Runs limits t n 0 m r) : Runs limits t n 0 (rejecting operation m) r := by
  apply Meets.rejecting
  apply h.mono
  intro e he
  rwa [Effect.result_rejected, Effect.pinned_rejected]

theorem reserve : Runs limits t n 0 reserve (reservation limits t.capacity n) :=
  Meets.reserve ⟨rfl, (pinnedAfter_zero _).symm⟩

end Runs

end RemoteInspect.Inspect
