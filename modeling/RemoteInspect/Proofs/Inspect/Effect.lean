import RemoteInspect.Inspect.Outcome
import RemoteInspect.Proofs.Except

namespace RemoteInspect

def Target.withPinned (t : Target) (n : Nat) : Target := { t with pinned := n }

namespace Target

variable (t : Target) (n : Nat)

@[simp] theorem rawNext_withPinned (table last : Live) :
    (t.withPinned n).rawNext table last = t.rawNext table last := rfl

@[simp] theorem upvalue?_withPinned (function : Live) (index : UInt32) :
    (t.withPinned n).upvalue? function index = t.upvalue? function index := rfl

@[simp] theorem metatable?_withPinned (v : Live) :
    (t.withPinned n).metatable? v = t.metatable? v := rfl

@[simp] theorem payload?_withPinned (v : Live) :
    (t.withPinned n).payload? v = t.payload? v := rfl

@[simp] theorem hasFrame_withPinned (level : UInt16) :
    (t.withPinned n).hasFrame level = t.hasFrame level := rfl

@[simp] theorem frameLocal?_withPinned (level : UInt16) (slot : UInt32) :
    (t.withPinned n).frameLocal? level slot = t.frameLocal? level slot := rfl

@[simp] theorem frameFunction?_withPinned (level : UInt16) :
    (t.withPinned n).frameFunction? level = t.frameFunction? level := rfl

end Target

namespace Inspect

def reservation (limits : Limits) (capacity n : Nat) : Except Stop Unit :=
  if Target.sizeLimit ≤ n + limits.reserve then .error (.fault .outOfRange)
  else if n + limits.reserve ≤ capacity then .ok ()
  else .error (.failure (.exhausted .workingArea))

theorem room_of_reservation {limits : Limits} {capacity n : Nat}
    (h : reservation limits capacity n = .ok ()) : n + limits.reserve ≤ capacity := by
  rw [reservation] at h
  split at h
  · cases h
  · split at h
    · assumption
    · cases h

/-- What an inspection comes to: its result, the values that are pinned after it, the most that it
pinned on the way, and its events, first one first. -/
structure Effect (α : Type) where
  result : Except Stop α
  pinned : Nat
  high : Nat
  events : List Event

variable {α β : Type}

namespace Effect

def after (high : Nat) (events : List Event) (e : Effect α) : Effect α :=
  ⟨e.result, e.pinned, max high e.high, events ++ e.events⟩

@[simp] theorem after_nil (e : Effect α) : e.after 0 [] = e := by
  simp [after]

/-- A slot is freed at the end, if there is one to free. -/
def freed (e : Effect α) : Effect α := match e.pinned with
  | 0 => { e with result := .error (.fault .nothingPinned) }
  | n + 1 => { e with pinned := n }

theorem freed_of_succ {e : Effect α} {n : Nat} (h : e.pinned = n + 1) :
    e.freed = { e with pinned := n } := by
  rw [freed, h]

def caught (e : Effect α) : Effect (Except Failure α) := match e.result with
  | .ok a => { e with result := .ok (.ok a) }
  | .error (.failure f) => { e with result := .ok (.error f) }
  | .error (.fault f) => { e with result := .error (.fault f) }

def rejected (operation : Operation) (e : Effect α) : Effect α := match e.result with
  | .error (.failure f) => { e with events := e.events ++ [.rejected operation f] }
  | _ => e

variable (operation : Operation) (e : Effect α)

@[simp] theorem result_rejected : (e.rejected operation).result = e.result := by
  obtain ⟨(f | f) | a, p, h, es⟩ := e <;> rfl

@[simp] theorem pinned_rejected : (e.rejected operation).pinned = e.pinned := by
  obtain ⟨(f | f) | a, p, h, es⟩ := e <;> rfl

end Effect

/-- From `n` pinned values on, `m` comes to one effect, whatever was before, and that is in `Φ`. -/
def Meets (limits : Limits) (t : Target) (n : Nat) (m : Inspect α) (Φ : Effect α → Prop) : Prop :=
  ∃ e : Effect α, Φ e ∧ ∀ peak events, m.run limits ⟨t.withPinned n, peak, events⟩ =
    (e.result, ⟨t.withPinned e.pinned, max peak e.high, e.events.reverse ++ events⟩)

namespace Meets

variable {limits : Limits} {t : Target} {n n' : Nat} {m : Inspect α} {r : Except Stop α}
  {Φ : Effect α → Prop} {Ψ : Effect β → Prop}

theorem mono {Φ' : Effect α → Prop} (hm : Meets limits t n m Φ) (h : ∀ e, Φ e → Φ' e) :
    Meets limits t n m Φ' :=
  hm.imp fun e he => ⟨h e he.1, he.2⟩

theorem run (hm : Meets limits t n m Φ) {s : Session} (hs : s.target = t.withPinned n) :
    ∃ e, Φ e ∧ m.run limits s = (e.result,
      ⟨t.withPinned e.pinned, max s.peak e.high, e.events.reverse ++ s.events⟩) := by
  obtain ⟨e, he, hrun⟩ := hm
  refine ⟨e, he, ?_⟩
  rw [← hrun, ← hs]

theorem and {Φ' : Effect α → Prop} (hm : Meets limits t n m Φ) (hm' : Meets limits t n m Φ') :
    Meets limits t n m fun e => Φ e ∧ Φ' e := by
  -- The two effects are one, as they come from the same run.
  obtain ⟨⟨r, p, h, es⟩, he, hrun⟩ := hm
  obtain ⟨⟨r', p', h', es'⟩, he', hrun'⟩ := hm'
  have hboth := (hrun 0 []).symm.trans (hrun' 0 [])
  simp only [Nat.zero_max, List.append_nil, Prod.mk.injEq, Session.mk.injEq,
    List.reverse_inj] at hboth
  obtain ⟨rfl, htarget, rfl, rfl⟩ := hboth
  obtain rfl : p = p' := congrArg Target.pinned htarget
  exact ⟨_, ⟨he, he'⟩, hrun⟩

theorem quiet (hrun : ∀ peak events, m.run limits ⟨t.withPinned n, peak, events⟩ =
      (r, ⟨t.withPinned n', peak, events⟩))
    (h : Φ ⟨r, n', 0, []⟩) : Meets limits t n m Φ :=
  ⟨_, h, fun peak events => by rw [hrun, Nat.max_zero, List.reverse_nil, List.nil_append]⟩

theorem pure {a : α} (h : Φ ⟨.ok a, n, 0, []⟩) : Meets limits t n (Pure.pure a) Φ :=
  quiet (fun _ _ => rfl) h

theorem fail {f : Failure} (h : Φ ⟨.error (.failure f), n, 0, []⟩) :
    Meets limits t n (fail f) Φ :=
  quiet (fun _ _ => rfl) h

theorem fault {f : Fault} (h : Φ ⟨.error (.fault f), n, 0, []⟩) : Meets limits t n (fault f) Φ :=
  quiet (fun _ _ => rfl) h

theorem target {Φ : Effect Target → Prop} (h : Φ ⟨.ok (t.withPinned n), n, 0, []⟩) :
    Meets limits t n target Φ :=
  quiet (fun _ _ => rfl) h

theorem getLimits {Φ : Effect Limits → Prop} (h : Φ ⟨.ok limits, n, 0, []⟩) :
    Meets limits t n Inspect.limits Φ :=
  quiet (fun _ _ => rfl) h

theorem emit {ev : Event} {Φ : Effect Unit → Prop} (h : Φ ⟨.ok (), n, 0, [ev]⟩) :
    Meets limits t n (emit ev) Φ :=
  ⟨_, h, fun peak events => by rw [Nat.max_zero]; rfl⟩

theorem pin {v : Live} {Φ : Effect Live → Prop} (h : Φ ⟨.ok v, n + 1, n + 1, []⟩) :
    Meets limits t n (pin v) Φ :=
  ⟨_, h, fun _ _ => rfl⟩

theorem release {Φ : Effect Unit → Prop} (h : Φ (Effect.freed ⟨.ok (), n, 0, []⟩)) :
    Meets limits t n release Φ := by
  cases n with
  | zero => exact quiet (fun _ _ => rfl) h
  | succ n => exact quiet (fun _ _ => rfl) h

theorem kindOf {v : Live} {Φ : Effect Kind → Prop}
    (h : Φ ⟨(t.kind? v).elim (.error (.fault .outOfRange)) .ok, n, 0, []⟩) :
    Meets limits t n (kindOf v) Φ := by
  refine quiet (fun peak events => ?_) h
  have hkind : (t.withPinned n).kind? v = t.kind? v := rfl
  simp only [Inspect.kindOf, run_bind, Inspect.target, hkind]
  cases t.kind? v <;> rfl

theorem roomy {Φ : Effect Bool → Prop}
    (h : Φ ⟨if Target.sizeLimit ≤ n + limits.reserve then .error (.fault .outOfRange)
      else .ok (decide (n + limits.reserve ≤ t.capacity)), n, 0, []⟩) :
    Meets limits t n roomy Φ := by
  refine quiet (fun peak events => ?_) h
  simp only [Inspect.roomy, Target.reserve, Target.withPinned]
  by_cases hlimit : Target.sizeLimit ≤ n + limits.reserve <;> simp [hlimit]

theorem seq {f : α → Inspect β} (hm : Meets limits t n m Φ)
    (hstop : ∀ x p h es, Φ ⟨.error x, p, h, es⟩ → Ψ ⟨.error x, p, h, es⟩)
    (hgo : ∀ a p h es, Φ ⟨.ok a, p, h, es⟩ →
      Meets limits t p (f a) fun e => Ψ (e.after h es)) :
    Meets limits t n (m >>= f) Ψ := by
  obtain ⟨⟨x | a, p, h, es⟩, he, hrun⟩ := hm
  · exact ⟨_, hstop x p h es he, fun peak events => by rw [run_bind, hrun]⟩
  · obtain ⟨e, he', hrun'⟩ := hgo a p h es he
    refine ⟨_, he', fun peak events => ?_⟩
    rw [run_bind, hrun]
    simp only [hrun', Effect.after, Nat.max_assoc, List.reverse_append, List.append_assoc]

theorem reserve {Φ : Effect Unit → Prop}
    (h : Φ ⟨reservation limits t.capacity n, n, 0, []⟩) : Meets limits t n reserve Φ := by
  refine quiet (fun peak events => ?_) h
  simp only [Inspect.reserve, Inspect.roomy, Target.reserve, Target.withPinned, run_bind,
    reservation]
  by_cases hlimit : Target.sizeLimit ≤ n + limits.reserve
  · simp [hlimit]
  · by_cases hcapacity : n + limits.reserve ≤ t.capacity <;> simp [hlimit, hcapacity] <;> rfl

theorem holding {pinned : Inspect Live} {work : Live → Inspect β} {Φ : Effect Live → Prop}
    (hp : Meets limits t n pinned Φ)
    (hstop : ∀ x p h es, Φ ⟨.error x, p, h, es⟩ → Ψ ⟨.error x, p, h, es⟩)
    (hgo : ∀ v p h es, Φ ⟨.ok v, p, h, es⟩ →
      Meets limits t p (work v) fun e => Ψ (e.freed.after h es)) :
    Meets limits t n (holding pinned work) Ψ := by
  obtain ⟨⟨x | v, p, h, es⟩, he, hrun⟩ := hp
  · exact ⟨_, hstop x p h es he, fun peak events => by simp only [Inspect.holding, hrun]⟩
  · obtain ⟨⟨r, p', h', es'⟩, he', hrun'⟩ := hgo v p h es he
    refine ⟨_, he', fun peak events => ?_⟩
    simp only [Inspect.holding, hrun, hrun', Effect.after, Nat.max_assoc]
    cases p' with
    | zero => simp [Effect.freed, Inspect.release, Target.withPinned]
    | succ p' => simp [Effect.freed, Inspect.release, Target.withPinned, Target.release]

theorem attempt {Φ : Effect (Except Failure α) → Prop}
    (hm : Meets limits t n m fun e => Φ e.caught) : Meets limits t n m.attempt Φ := by
  obtain ⟨⟨(f | f) | a, p, h, es⟩, he, hrun⟩ := hm <;>
    exact ⟨_, he, fun peak events => by simp only [Inspect.attempt, hrun, Effect.caught]⟩

theorem rejecting (operation : Operation)
    (hm : Meets limits t n m fun e => Φ (e.rejected operation)) :
    Meets limits t n (rejecting operation m) Φ := by
  obtain ⟨⟨(f | f) | a, p, h, es⟩, he, hrun⟩ := hm <;>
    refine ⟨_, he, fun peak events => ?_⟩ <;>
    simp [Inspect.rejecting, run_bind, run_pure, Inspect.attempt, hrun, Effect.rejected,
      Inspect.emit, Inspect.fail]

theorem target_bind {f : Target → Inspect β} (hf : Meets limits t n (f (t.withPinned n)) Ψ) :
    Meets limits t n (Inspect.target >>= f) Ψ := by
  refine seq (Φ := fun e => e = ⟨.ok (t.withPinned n), n, 0, []⟩) (target rfl) ?_ ?_
  · rintro x p h es ⟨⟩
  · rintro _ _ _ _ ⟨⟩
    simpa only [Effect.after_nil] using hf

theorem limits_bind {f : Limits → Inspect β} (hf : Meets limits t n (f limits) Ψ) :
    Meets limits t n (Inspect.limits >>= f) Ψ := by
  refine seq (Φ := fun e => e = ⟨.ok limits, n, 0, []⟩) (getLimits rfl) ?_ ?_
  · rintro x p h es ⟨⟩
  · rintro _ _ _ _ ⟨⟩
    simpa only [Effect.after_nil] using hf

theorem failing {f : Failure} {k : α → Inspect β} (h : Ψ ⟨.error (.failure f), n, 0, []⟩) :
    Meets limits t n (Inspect.fail f >>= k) Ψ :=
  quiet (fun _ _ => rfl) h

theorem refusing {c : Prop} [Decidable c] {f : Failure}
    (hfail : c → Φ ⟨.error (.failure f), n, 0, []⟩) (hm : ¬ c → Meets limits t n m Φ) :
    Meets limits t n (if c then (do let _ : Unit ← Inspect.fail f; m) else m) Φ := by
  split
  · exact failing (hfail ‹_›)
  · exact hm ‹_›

end Meets

end Inspect

end RemoteInspect
