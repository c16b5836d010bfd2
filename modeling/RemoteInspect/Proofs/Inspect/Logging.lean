import RemoteInspect.Inspect.Evaluation
import RemoteInspect.Proofs.Inspect.Runs

namespace RemoteInspect.Inspect

variable {α β : Type} {limits : Limits} {t : Target} {n depth : Nat} {s : Step}

/-- What a result and the events on the way to it, first event first, have to do with each other. -/
abbrev Log (α : Type) := Except Failure α → List Event → Prop

/-- From `n` pinned values on, whatever came before, `m` has one result and adds the same events.
They are in `P`, unless the result is a fault. -/
def Logs (limits : Limits) (t : Target) (n : Nat) (m : Inspect α) (P : Log α) : Prop :=
  Meets limits t n m fun e => ∀ r, e.result = r.mapError Stop.failure → P r e.events

def Silently (A : α → Prop) : Log α :=
  fun r es => es = [] ∧ ∃ a, r = .ok a ∧ A a

inductive Then (P : Log α) (Q : Log β) : Log β
  | stop {f : Failure} {es : List Event} (h : P (.error f) es) : Then P Q (.error f) es
  | go {a : α} {r : Except Failure β} {es es' : List Event} (first : P (.ok a) es)
      (second : Q r es') : Then P Q r (es ++ es')

def Caught (P : Log α) : Log (Except Failure α) :=
  fun r es => ∃ r', r = .ok r' ∧ P r' es

namespace Logs

variable {P : Log α} {Q : Log β}

theorem imp {P' : Log α} {m : Inspect α} (hm : Logs limits t n m P)
    (h : ∀ r es, P r es → P' r es) : Logs limits t n m P' :=
  hm.mono fun _ he r hr => h r _ (he r hr)

theorem of_ok {a : α} {es : List Event} (h : P (.ok a) es) (r' : Except Failure α)
    (hr : (.ok a : Except Stop α) = r'.mapError Stop.failure) : P r' es := by
  cases r' with
  | ok a' => cases hr; exact h
  | error f => cases hr

theorem of_failure {f : Failure} {es : List Event} (h : P (.error f) es) (r' : Except Failure α)
    (hr : (.error (.failure f) : Except Stop α) = r'.mapError Stop.failure) : P r' es := by
  cases r' with
  | ok a => cases hr
  | error f' => cases hr; exact h

theorem of_fault {f : Fault} {es : List Event} (r' : Except Failure α)
    (hr : (.error (.fault f) : Except Stop α) = r'.mapError Stop.failure) : P r' es := by
  cases r' <;> cases hr

theorem of_error {e : Stop} {es : List Event}
    (hP : ∀ r : Except Failure α, .error e = r.mapError Stop.failure → P r es)
    (hstop : ∀ f, P (.error f) es → Q (.error f) es) (r' : Except Failure β)
    (hr : .error e = r'.mapError Stop.failure) : Q r' es := by
  cases e with
  | failure f => exact of_failure (hstop f (hP (.error f) rfl)) r' hr
  | fault f => exact of_fault r' hr

theorem pure {a : α} (h : P (.ok a) []) : Logs limits t n (Pure.pure a) P :=
  Meets.pure (of_ok h)

theorem fail {f : Failure} (h : P (.error f) []) : Logs limits t n (fail f) P :=
  Meets.fail (of_failure h)

theorem fault (f : Fault) : Logs limits t n (fault f) P :=
  Meets.fault of_fault

theorem emit {e : Event} {P : Log Unit} (h : P (.ok ()) [e]) : Logs limits t n (emit e) P :=
  Meets.emit (of_ok h)

theorem target : Logs limits t n target (Silently fun _ => True) :=
  Meets.target (of_ok ⟨rfl, _, rfl, trivial⟩)

theorem getLimits : Logs limits t n Inspect.limits (Silently fun l => l = limits) :=
  Meets.getLimits (of_ok ⟨rfl, _, rfl, rfl⟩)

theorem pin {v : Live} {P : Log Live} (h : P (.ok v) []) : Logs limits t n (pin v) P :=
  Meets.pin (of_ok h)

theorem release : Logs limits t n release (Silently fun _ => True) := by
  apply Meets.release
  cases n with
  | zero => exact of_fault
  | succ n => exact of_ok ⟨rfl, _, rfl, trivial⟩

theorem kindOf (v : Live) :
    Logs limits t n (kindOf v) (Silently fun kind => t.kind? v = some kind) := by
  apply Meets.kindOf
  cases t.kind? v with
  | some kind => exact of_ok ⟨rfl, kind, rfl, rfl⟩
  | none => exact of_fault

theorem roomy : Logs limits t n roomy (Silently fun _ => True) := by
  apply Meets.roomy
  split
  · exact of_fault
  · exact of_ok ⟨rfl, _, rfl, trivial⟩

theorem seq {m : Inspect α} {f : α → Inspect β} (hm : Logs limits t n m P)
    (hstop : ∀ f es, P (.error f) es → Q (.error f) es)
    (hgo : ∀ a es n', P (.ok a) es → Logs limits t n' (f a) fun r es' => Q r (es ++ es')) :
    Logs limits t n (m >>= f) Q :=
  Meets.seq hm (fun _ _ _ es hP => of_error hP (hstop · es)) fun a n' _ es hP =>
    hgo a es n' (hP _ rfl)

theorem emitting {e : Event} {f : Unit → Inspect β}
    (hf : Logs limits t n (f ()) fun r es => Q r (e :: es)) :
    Logs limits t n (Inspect.emit e >>= f) Q := by
  refine Meets.seq (Φ := fun x => x = ⟨.ok (), n, 0, [e]⟩) (.emit rfl) ?_ ?_
  · rintro _ _ _ _ ⟨⟩
  · rintro _ _ _ _ ⟨⟩
    exact hf

theorem holding {pinned : Inspect Live} {work : Live → Inspect β} {P : Log Live}
    (hp : Logs limits t n pinned P) (hstop : ∀ f es, P (.error f) es → Q (.error f) es)
    (hgo : ∀ v es n', P (.ok v) es → Logs limits t n' (work v) fun r es' => Q r (es ++ es')) :
    Logs limits t n (holding pinned work) Q := by
  refine Meets.holding hp (fun _ _ _ es hP => of_error hP (hstop · es)) fun v n' _ es hP => ?_
  refine (hgo v es n' (hP _ rfl)).mono fun e he => ?_
  obtain ⟨r, p, high, es'⟩ := e
  cases p with
  | zero => exact of_fault
  | succ p => exact he

theorem bind {m : Inspect α} {f : α → Inspect β} (hm : Logs limits t n m P)
    (hf : ∀ a n', Logs limits t n' (f a) Q) : Logs limits t n (m >>= f) (Then P Q) :=
  hm.seq (fun _ _ => .stop) fun a _ n' h => (hf a n').imp fun _ _ => .go h

theorem after {A : α → Prop} {m : Inspect α} {f : α → Inspect β}
    (hm : Logs limits t n m (Silently A)) (hf : ∀ a n', A a → Logs limits t n' (f a) Q) :
    Logs limits t n (m >>= f) Q := by
  refine hm.seq (fun f es h => ?_) fun a es n' h => ?_
  · obtain ⟨-, _, ⟨⟩, -⟩ := h
  · obtain ⟨rfl, a', ⟨⟩, ha⟩ := h
    exact hf a n' ha

theorem map {m : Inspect α} {f : α → β} (hm : Logs limits t n m P)
    (h : ∀ r es, P r es → Q (r.map f) es) :
    Logs limits t n (m >>= fun a => Pure.pure (f a)) Q := by
  refine hm.seq (fun f' es => h (.error f') es) fun a es n' ha => pure ?_
  rw [List.append_nil]
  exact h (.ok a) es ha

theorem attempt {m : Inspect α} (hm : Logs limits t n m P) :
    Logs limits t n m.attempt (Caught P) := by
  apply Meets.attempt
  refine hm.mono fun e he => ?_
  obtain ⟨(f | f) | a, p, high, es⟩ := e
  · exact of_ok ⟨.error f, rfl, he _ rfl⟩
  · exact of_fault
  · exact of_ok ⟨.ok a, rfl, he _ rfl⟩

end Logs

/-- The same results and events, with a failure reported at the end. -/
inductive Reporting (operation : Operation) (P : Log α) : Log α
  | ok {a : α} {es : List Event} (h : P (.ok a) es) : Reporting operation P (.ok a) es
  | error {f : Failure} {es : List Event} (h : P (.error f) es) :
      Reporting operation P (.error f) (es ++ [.rejected operation f])

theorem Logs.rejecting {m : Inspect α} {P : Log α} (operation : Operation)
    (hm : Logs limits t n m P) :
    Logs limits t n (rejecting operation m) (Reporting operation P) := by
  apply Meets.rejecting
  refine hm.mono fun e he => ?_
  obtain ⟨(f | f) | a, p, high, es⟩ := e
  · exact of_failure (.error (he _ rfl))
  · exact of_fault
  · exact of_ok (.ok (he _ rfl))

/-- A step that succeeds by itself adds no event; one that fails by itself says so. -/
inductive AtStep (s : Step) (depth : Nat) : Log α
  | ok (a : α) : AtStep s depth (.ok a) []
  | error {f : Failure} (h : f.isFatal = false) : AtStep s depth (.error f) [.failed s depth f]

theorem AtStep.of_then {r : Except Failure β} {es : List Event}
    (h : Then (AtStep s depth : Log α) (AtStep s depth) r es) : AtStep s depth r es := by
  obtain ⟨⟨⟩⟩ | ⟨⟨⟩, h⟩ := h
  · exact .error ‹_›
  · exact h

theorem failAt_logs {f : Failure} {P : Log α} (h : P (.error f) [.failed s depth f]) :
    Logs limits t n (failAt s depth f) P :=
  .emitting (.fail h)

theorem found_logs (v? : Option Live) (what : Missing) :
    Logs limits t n (found s depth v? what) (AtStep s depth) := by
  cases v? with
  | some v => exact .pin (.ok v)
  | none => exact failAt_logs (.error rfl)

theorem lookupAt_logs (lookup : Lookup) (table key : Live) :
    Logs limits t n (lookupAt s depth lookup table key) (AtStep s depth) := by
  have hpin : ∀ n v, Logs limits t n (pin v) (Silently fun _ => True) :=
    fun n v => .pin ⟨rfl, v, rfl, trivial⟩
  apply Logs.after .target
  intro t' _ _
  cases lookup with
  | get =>
    apply Logs.after (hpin _ _)
    intro v _ _
    apply Logs.after (.kindOf v)
    intro kind _ _
    by_cases hnil : kind = .nil
    · simp only [hnil, ↓reduceIte]
      apply Logs.after .release
      intro _ _ _
      refine .map (P := AtStep (α := Unit) s depth) (failAt_logs (.error rfl)) fun r es h => ?_
      cases h with
      | ok a => exact .ok _
      | error h => exact .error h
    · simp only [hnil, ↓reduceIte]
      exact .pure (.ok v)
  | next =>
    cases t'.rawNext table key with
    | entry k v =>
      refine .after (hpin _ k) fun k _ _ => .after (hpin _ v) fun _ _ _ => ?_
      exact .after .release fun _ _ _ => .pure (.ok k)
    | finished => exact failAt_logs (.error rfl)
    | unknownKey => exact failAt_logs (.error rfl)

variable {pool : Pool}

theorem constantAt_logs (reference : UInt32) :
    Logs limits t n (constantAt s depth pool reference) (AtStep s depth) := by
  unfold constantAt
  split
  · exact .pin (.ok _)
  · cases pool.get? reference with
    | some constant => exact .pin (.ok _)
    | none => exact failAt_logs (.error rfl)

theorem onBase_logs {expected : Expectation} {base : Inspect Live} {work : Live → Inspect β}
    {B : Log Live} {W : Log β} (hb : Logs limits t n base B)
    (hfail : ∀ f, f.isFatal = false → W (.error f) [.failed s depth f])
    (hw : ∀ v n', Logs limits t n' (work v) W) :
    Logs limits t n (onBase s depth expected base work) (Then B W) := by
  refine .holding hb (fun _ _ => .stop) fun v es n' hv => ?_
  apply Logs.after (.kindOf v)
  intro kind n' _
  by_cases ha : expected.accepts kind
  · simp only [ha, ↓reduceIte]
    exact (hw v n').imp fun _ _ => .go hv
  · simp only [ha, ↓reduceIte, Bool.false_eq_true]
    exact failAt_logs (.go hv (hfail _ rfl))

variable {descend : List Step → Inspect Live} {rest : List Step} {B K : Log Live}

theorem follow_leaf_logs (hs : s.shape = .leaf) :
    Logs limits t n (follow descend pool depth s rest) (AtStep s depth) := by
  cases s with
  | frameLocal frame slot =>
    apply Logs.after .target
    intro t' _ _
    split
    · exact found_logs _ _
    · exact failAt_logs (.error rfl)
  | frameFunction frame => exact .after .target fun _ _ _ => found_logs _ _
  | root r => exact .pin (.ok _)
  | kindMetatable kind =>
    simp only [follow]
    cases representative? kind with
    | none => exact failAt_logs (.error rfl)
    | some v =>
      refine .holding (P := Silently fun _ => True) (.pin ⟨rfl, v, rfl, trivial⟩) ?_ ?_
      · rintro f es ⟨-, _, ⟨⟩, -⟩
      · rintro v es n' ⟨rfl, -⟩
        exact .after .target fun _ _ _ => found_logs _ _
  | index | indexObject | upvalue | metatable | userPayload => cases hs

theorem follow_based_logs (hs : s.shape = .based) (hb : Logs limits t n (descend rest) B) :
    Logs limits t n (follow descend pool depth s rest) (Then B (AtStep s depth)) := by
  cases s with
  | index lookup ref =>
    refine onBase_logs hb (fun _ => .error) fun table n' => ?_
    refine .holding (constantAt_logs ref) (fun _ _ h => ?_) fun k es n' h => ?_
    · cases h with
      | error h => exact .error h
    · exact (lookupAt_logs lookup table k).imp fun _ _ h' => .of_then (.go h h')
  | upvalue | metatable | userPayload =>
    exact onBase_logs hb (fun _ => .error) fun v n' => .after .target fun _ _ _ => found_logs _ _
  | frameLocal | frameFunction | root | kindMetatable | indexObject => cases hs

theorem follow_keyed_logs {lookup : Lookup} {baseSize : UInt32}
    (hb : Logs limits t n (descend rest) B)
    (hk : ∀ n', Logs limits t n' (descend (rest.drop baseSize.toNat)) K) :
    Logs limits t n (follow descend pool depth (.indexObject lookup baseSize) rest)
      (Then B fun r es =>
        (∃ f, r = .error f ∧ AtStep (.indexObject lookup baseSize) depth r es) ∨
          Then K (AtStep (.indexObject lookup baseSize) depth) r es) := by
  refine onBase_logs hb (fun _ h => .inl ⟨_, rfl, .error h⟩) fun table n' => ?_
  refine .holding (hk n') (fun _ _ h => .inr (.stop h)) fun k es n' h => ?_
  exact (lookupAt_logs lookup table k).imp fun _ _ h' => .inr (.go h h')

/-- A node is refused, or else entered; what `P` says is between its first event and its last. -/
inductive Visited (t : Target) (s : Step) (depth : Nat) (P : Log Live) : Log Live
  | refused (what : Exhaustion) :
      Visited t s depth P (.error (.exhausted what)) [.failed s depth (.exhausted what)]
  | broken {f : Failure} {es : List Event} (h : P (.error f) es) :
      Visited t s depth P (.error f) (.entered s depth :: es)
  | resolved {v : Live} {kind : Kind} {es : List Event} (h : P (.ok v) es)
      (found : t.kind? v = some kind) :
      Visited t s depth P (.ok v) (.entered s depth :: es ++ [.resolved s depth kind])

theorem node_logs_cons {room : Nat} {P : Log Live} (hfollow : ∀ room' n', room = room' + 1 →
      Logs limits t n' (follow (node pool room' (depth + 1)) pool depth s rest) P) :
    Logs limits t n (node pool room depth (s :: rest)) (Visited t s depth P) := by
  cases room with
  | zero => exact .after .getLimits fun _ _ _ => failAt_logs (.refused _)
  | succ room =>
    have henter : ∀ n', Logs limits t n' (do
        emit (.entered s depth)
        let v ← follow (node pool room (depth + 1)) pool depth s rest
        emit (.resolved s depth (← kindOf v))
        return v) (Visited t s depth P) := by
      intro n'
      apply Logs.emitting
      refine (hfollow room n' rfl).seq (fun _ _ h => .broken h) fun v es n' h => ?_
      apply Logs.after (.kindOf v)
      intro kind _ hkind
      exact .emitting (.pure (.resolved h hkind))
    apply Logs.after .roomy
    rintro (_ | _) n' -
    · change Logs limits t n' (failAt s depth (.exhausted .workingArea)) (Visited t s depth P)
      exact failAt_logs (.refused _)
    · exact henter n'

end RemoteInspect.Inspect
