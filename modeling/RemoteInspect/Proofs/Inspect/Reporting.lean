import RemoteInspect.Proofs.Inspect.Custody
import RemoteInspect.Proofs.Inspect.Logging

namespace RemoteInspect

namespace Event

def isProgress : Event → Bool
  | entered .. | resolved .. => true
  | failed .. | rejected .. | copied _ | referred _ => false

def isSuccess : Event → Bool
  | failed .. | rejected .. => false
  | entered .. | resolved .. | copied _ | referred _ => true

@[simp] theorem isProgress_entered (s : Step) (depth : Nat) :
    (entered s depth).isProgress = true := rfl

@[simp] theorem isProgress_resolved (s : Step) (depth : Nat) (kind : Kind) :
    (resolved s depth kind).isProgress = true := rfl

theorem isSuccess_of_isProgress {e : Event} (h : e.isProgress) : e.isSuccess := by
  cases e <;> first | rfl | cases h

end Event

namespace Inspect

variable {α β : Type} {limits : Limits} {t : Target} {n depth : Nat} {s : Step}
  {shown : Event → Bool}

/-- Up to a success only what may be shown happens. Up to a failure steps go on, and then the last
one may fail. -/
inductive Reports (shown : Event → Bool) : Log α
  | ok {a : α} {es : List Event} (h : ∀ e ∈ es, shown e) : Reports shown (.ok a) es
  | error {f : Failure} {es : List Event} (h : ∀ e ∈ es, e.isProgress) :
      Reports shown (.error f) es
  | failed {s : Step} {depth : Nat} {f : Failure} (es : List Event)
      (h : ∀ e ∈ es, e.isProgress) : Reports shown (.error f) (es ++ [.failed s depth f])

def Answers : Log α :=
  fun r es => (∃ a, r = .ok a) ∧ ∀ e ∈ es, e.isSuccess

namespace Reports

theorem stop {f : Failure} {es : List Event}
    (h : (Reports Event.isProgress : Log α) (.error f) es) :
    (Reports shown : Log β) (.error f) es := by
  cases h with
  | error h => exact .error h
  | failed es h => exact .failed es h

theorem append {r : Except Failure α} {es es' : List Event}
    (hshown : ∀ e : Event, e.isProgress → shown e) (hes : ∀ e ∈ es, e.isProgress)
    (h : Reports shown r es') : Reports shown r (es ++ es') := by
  cases h with
  | ok h => exact .ok (List.forall_mem_append.mpr ⟨fun e he => hshown e (hes e he), h⟩)
  | error h => exact .error (List.forall_mem_append.mpr ⟨hes, h⟩)
  | failed es' h =>
    rw [← List.append_assoc]
    exact .failed _ (List.forall_mem_append.mpr ⟨hes, h⟩)

theorem map {r : Except Failure α} {es : List Event} (f : α → β) (h : Reports shown r es) :
    Reports shown (r.map f) es := by
  cases h with
  | ok h => exact .ok h
  | error h => exact .error h
  | failed es h => exact .failed es h

theorem nil (r : Except Failure α) : Reports shown r [] := by
  cases r with
  | ok a => exact .ok (by simp)
  | error f => exact .error (by simp)

theorem of_answers {r : Except Failure α} {es : List Event} (h : Answers r es) :
    Reports Event.isSuccess r es := by
  obtain ⟨⟨a, rfl⟩, h⟩ := h
  exact .ok h

theorem of_atStep {r : Except Failure α} {es : List Event} (h : AtStep s depth r es) :
    Reports shown r es := by
  cases h with
  | ok a => exact .nil _
  | error h => exact .failed [] (by simp)

theorem of_then {r : Except Failure β} {es : List Event} {Q : Log β}
    (hshown : ∀ e : Event, e.isProgress → shown e) (hQ : ∀ r es, Q r es → Reports shown r es)
    (h : Then (Reports Event.isProgress : Log α) Q r es) : Reports shown r es := by
  cases h with
  | stop h => exact h.stop
  | go first second =>
    cases first with
    | ok h => exact (hQ _ _ second).append hshown h

theorem of_visited {r : Except Failure Live} {es : List Event}
    (h : Visited t s depth (Reports Event.isProgress) r es) : Reports Event.isProgress r es := by
  cases h with
  | refused what => exact .failed [] (by simp)
  | broken h =>
    have henter : ∀ e ∈ [Event.entered s depth], e.isProgress := by simp
    exact h.append (fun _ he => he) henter
  | resolved h =>
    cases h with
    | ok h => exact .ok (List.forall_mem_append.mpr ⟨List.forall_mem_cons.mpr ⟨rfl, h⟩, by simp⟩)

end Reports

namespace Logs

variable {P : Log α} {Q : Log β}

theorem andThen {m : Inspect α} {f : α → Inspect β}
    (hm : Logs limits t n m (Reports Event.isProgress))
    (hf : ∀ a n', Logs limits t n' (f a) (Reports Event.isSuccess)) :
    Logs limits t n (m >>= f) (Reports Event.isSuccess) :=
  (hm.bind hf).imp fun _ _ =>
    .of_then (fun _ => Event.isSuccess_of_isProgress) fun _ _ h => h

theorem holdingThen {pinned : Inspect Live} {work : Live → Inspect β}
    (hp : Logs limits t n pinned (Reports Event.isProgress))
    (hw : ∀ v n', Logs limits t n' (work v) (Reports Event.isSuccess)) :
    Logs limits t n (Inspect.holding pinned work) (Reports Event.isSuccess) := by
  refine hp.holding (fun _ _ h => h.stop) fun v es n' h => ?_
  cases h with
  | ok h => exact (hw v n').imp fun _ _ h' => h'.append (fun _ => Event.isSuccess_of_isProgress) h

theorem holdingPin {v : Live} {work : Live → Inspect β}
    (hw : ∀ n', Logs limits t n' (work v) Q) :
    Logs limits t n (Inspect.holding (Inspect.pin v) work) Q := by
  refine holding (P := Silently fun v' => v' = v) (.pin ⟨rfl, v, rfl, rfl⟩) ?_ ?_
  · rintro f es ⟨-, _, ⟨⟩, -⟩
  · rintro _ es n' ⟨rfl, _, ⟨⟩, rfl⟩
    exact hw n'

theorem answering {m : Inspect α} {f : α → Inspect β} (hm : Logs limits t n m Answers)
    (hf : ∀ a n', Logs limits t n' (f a) Answers) : Logs limits t n (m >>= f) Answers := by
  refine hm.seq (fun f es h => ?_) fun a es n' h => (hf a n').imp fun r es' h' => ?_
  · obtain ⟨⟨_, ⟨⟩⟩, -⟩ := h
  · exact ⟨h'.1, List.forall_mem_append.mpr ⟨h.2, h'.2⟩⟩

theorem failing (f : Failure) : Logs limits t n (Inspect.fail f : Inspect α) (Reports shown) :=
  .fail (.nil _)

theorem done (a : α) : Logs limits t n (Pure.pure a) (Reports shown) :=
  .pure (.nil _)

theorem stopping (f : Failure) (k : α → Inspect β) :
    Logs limits t n (Inspect.fail f >>= k) (Reports shown) :=
  Meets.failing (of_failure (.nil _))

theorem refusing {c : Prop} [Decidable c] (f : Failure) {m : Inspect α}
    (hm : Logs limits t n m (Reports shown)) :
    Logs limits t n (if c then (do let _ : Unit ← Inspect.fail f; m) else m) (Reports shown) :=
  Meets.refusing (fun _ => of_failure (.nil _)) fun _ => hm

theorem reserve : Logs limits t n reserve (Reports shown) := by
  apply after .roomy
  rintro (_ | _) n' -
  · exact failing _
  · exact done ()

end Logs

theorem node_reports (pool : Pool) (room depth : Nat) (steps : List Step) :
    Logs limits t n (node pool room depth steps) (Reports Event.isProgress) := by
  -- By induction on the levels that are left.
  induction room generalizing n depth steps with
  | zero =>
    cases steps with
    | nil => exact .fault _
    | cons s rest =>
      exact (node_logs_cons fun _ _ h => by cases h).imp fun _ _ => .of_visited
  | succ room ih =>
    cases steps with
    | nil => exact .fault _
    | cons s rest =>
      refine (node_logs_cons fun room' n' h => ?_).imp fun _ _ => .of_visited
      cases h
      have hstep : ∀ (r : Except Failure Live) es, AtStep s depth r es →
          Reports Event.isProgress r es := fun _ _ => .of_atStep
      cases hs : s.shape with
      | leaf => exact (follow_leaf_logs hs).imp hstep
      | based =>
        exact (follow_based_logs hs (ih _ rest)).imp fun _ _ => .of_then (fun _ he => he) hstep
      | keyed baseSize =>
        cases s with
        | indexObject lookup size =>
          refine (follow_keyed_logs (ih _ rest) fun n' => ih _ _).imp fun _ _ => ?_
          refine .of_then (fun _ he => he) fun r es h => ?_
          obtain ⟨_, -, h⟩ | h := h
          · exact hstep r es h
          · exact .of_then (fun _ he => he) hstep h
        | frameLocal | frameFunction | root | kindMetatable | index | upvalue | metatable
          | userPayload => cases hs

theorem evaluate_reports (h : Handle) :
    Logs limits t n (evaluate h) (Reports Event.isProgress) :=
  .after .getLimits fun _ _ _ => node_reports _ _ _ _

theorem resolve_reports (value : Value) :
    Logs limits t n (resolve value) (Reports Event.isProgress) := by
  cases value with
  | scalar s =>
    refine (Logs.reserve.bind (Q := Reports Event.isProgress) fun _ _ => ?_).imp fun _ _ =>
      .of_then (fun _ he => he) fun _ _ h => h
    exact .pin (.nil _)
  | handle h => exact evaluate_reports h

theorem publish_answers (v : Live) (lazy : Except Fault Handle) :
    Logs limits t n (publish v lazy) Answers := by
  have hanswer : ∀ n e (value : Value), e.isSuccess →
      Logs limits t n (do emit e; return value) Answers := fun _ _ value he =>
    .emitting (.pure ⟨⟨value, rfl⟩, List.forall_mem_singleton.mpr he⟩)
  unfold publish
  cases v.copy? with
  | some s => exact hanswer n (.copied s) _ rfl
  | none =>
    cases lazy with
    | error f =>
      exact .seq (P := fun _ _ => False) (.fault f) (fun _ _ h => h.elim) fun _ _ _ h => h.elim
    | ok h => exact hanswer n (.referred h) _ rfl

theorem publish_reports (v : Live) (lazy : Except Fault Handle) :
    Logs limits t n (publish v lazy) (Reports Event.isSuccess) :=
  (publish_answers v lazy).imp fun _ _ => .of_answers

theorem fromBase_reports {base : Value} {expected : Expectation}
    {work : Live → Handle → Inspect α}
    (hw : ∀ v h n', Logs limits t n' (work v h) (Reports Event.isSuccess)) :
    Logs limits t n (fromBase base expected work) (Reports Event.isSuccess) := by
  apply Logs.holdingThen (resolve_reports base)
  intro v n'
  apply Logs.after (.kindOf v)
  intro kind n' _
  cases base with
  | scalar s => exact .failing _
  | handle h =>
    by_cases ha : expected.accepts kind
    · simp only [ha, ↓reduceIte]
      exact hw v h n'
    · simp only [ha, ↓reduceIte, Bool.false_eq_true]
      exact .failing _

abbrev Rejects (operation : Operation) : Log α :=
  Reporting operation (Reports Event.isSuccess)

theorem query_reports (value : Value) : Logs limits t n (query value) (Rejects .query) := by
  apply Logs.rejecting
  cases value with
  | scalar s => exact .done _
  | handle h =>
    refine .holdingThen (resolve_reports _) fun v n' => .after (.kindOf v) fun kind n' _ => ?_
    exact (publish_reports v _).map fun _ _ => .map _

theorem typeOf_reports (value : Value) : Logs limits t n (typeOf value) (Rejects .typeOf) := by
  apply Logs.rejecting
  refine .holdingThen (resolve_reports value) fun v n' => (Logs.kindOf v).imp ?_
  rintro r es ⟨rfl, kind, rfl, -⟩
  exact .nil _

theorem display_reports (value : Value) : Logs limits t n (display value) (Rejects .display) := by
  apply Logs.rejecting
  refine .holdingThen (resolve_reports value) fun v n' => ?_
  cases v.copy? with
  | some s => exact .done s
  | none => exact .after (.kindOf v) fun kind n' _ => .done _

theorem describeCallable_reports (value : Value) (symbols : UInt64 → Symbol) :
    Logs limits t n (describeCallable value symbols) (Rejects .describeCallable) := by
  apply Logs.rejecting
  refine .holdingThen (resolve_reports value) fun v n' => .after .target fun t' n' _ => ?_
  cases t'.code? v with
  | none => exact .done _
  | some code => cases code <;> exact .done _

theorem index_reports (base key : Value) :
    Logs limits t n (index base key) (Rejects .index) := by
  apply Logs.rejecting
  apply Logs.refusing
  apply fromBase_reports
  intro table h n'
  apply Logs.holdingThen (resolve_reports key)
  intro k n'
  apply Logs.refusing
  apply Logs.andThen .reserve
  intro _ n'
  have hget : Logs limits t n' (do pin ((← target).rawGet table k)) (Reports Event.isProgress) :=
    .after .target fun t' n' _ => .pin (.nil _)
  apply Logs.holdingThen hget
  intro v n'
  apply Logs.after (.kindOf v)
  intro kind n' _
  exact .refusing _ (publish_reports v _)

theorem resolveLast_reports (last : Option Value) :
    Logs limits t n (resolveLast last) (Reports Event.isProgress) := by
  cases last with
  | some last => exact resolve_reports last
  | none => exact resolve_reports (.scalar .nil)

theorem next_reports (base : Value) (last : Option Value) :
    Logs limits t n (next base last) (Rejects .next) := by
  apply Logs.rejecting
  apply fromBase_reports
  intro table h n'
  apply Logs.holdingThen (resolveLast_reports last)
  intro k n'
  apply Logs.andThen .reserve
  intro _ n'
  apply Logs.after .target
  intro t' n' _
  cases t'.rawNext table k with
  | entry k' v =>
    refine .holdingPin fun n' => .holdingPin fun n' => Logs.imp ?_ fun _ _ => .of_answers
    refine .answering (publish_answers _ _) fun key n' => ?_
    exact .answering (publish_answers _ _) fun value n' => .pure ⟨⟨_, rfl⟩, by simp⟩
  | finished => exact .done none
  | unknownKey => exact .failing _

theorem upvalue_reports (base : Value) (index : UInt32) :
    Logs limits t n (upvalue base index) (Rejects .upvalue) := by
  apply Logs.rejecting
  apply fromBase_reports
  intro function h n'
  apply Logs.andThen .reserve
  intro _ n'
  apply Logs.after .target
  intro t' n' _
  cases t'.upvalue? function index with
  | some binding =>
    exact .holdingPin fun n' => (publish_reports _ _).map fun _ _ => .map _
  | none => exact .failing _

theorem metatableHandle_reports (base : Value) (kind : Kind) :
    Logs limits t n (metatableHandle base kind) (Reports Event.isProgress) := by
  unfold metatableHandle
  split
  · cases base with
    | handle h => exact .done _
    | scalar s => exact .failing _
  · split
    · exact .done _
    · exact .failing _

theorem refer_reports (v : Live) (h : Handle) :
    Logs limits t n (do holding (pin v) fun _ => emit (.referred h); return h)
      (Reports Event.isSuccess) := by
  refine Logs.imp ?_ fun _ _ => .of_answers
  refine .answering (.holdingPin fun n' => .emit ⟨⟨(), rfl⟩, ?_⟩) fun _ n' => ?_
  · exact List.forall_mem_singleton.mpr rfl
  · exact .pure ⟨⟨h, rfl⟩, by simp⟩

theorem metatable_reports (base : Value) :
    Logs limits t n (metatable base) (Rejects .metatable) := by
  apply Logs.rejecting
  apply Logs.holdingThen (resolve_reports base)
  intro v n'
  apply Logs.after (.kindOf v)
  intro kind n' _
  apply Logs.andThen (metatableHandle_reports base kind)
  intro h n'
  apply Logs.andThen .reserve
  intro _ n'
  apply Logs.after .target
  intro t' n' _
  cases t'.metatable? v with
  | some m => exact refer_reports m h
  | none => exact .stopping _ _

theorem userPayload_reports (base : Value) :
    Logs limits t n (userPayload base) (Rejects .userPayload) := by
  apply Logs.rejecting
  apply fromBase_reports
  intro v h n'
  apply Logs.andThen .reserve
  intro _ n'
  apply Logs.after .target
  intro t' n' _
  cases t'.payload? v with
  | some payload => exact .holdingPin fun n' => publish_reports _ _
  | none => exact .failing _

theorem frameLocal_reports (frame : UInt16) (slot : UInt32) :
    Logs limits t n (frameLocal frame slot) (Rejects .frameLocal) := by
  apply Logs.rejecting
  apply Logs.after .target
  intro t' n' _
  split
  · apply Logs.andThen .reserve
    intro _ n'
    apply Logs.after .target
    intro t' n' _
    cases t'.frameLocal? frame slot with
    | some binding =>
      exact .holdingPin fun n' => (publish_reports _ _).map fun _ _ => .map _
    | none => exact .failing _
  · exact .stopping _ _

theorem frameFunction_reports (frame : UInt16) :
    Logs limits t n (frameFunction frame) (Rejects .frameFunction) := by
  apply Logs.rejecting
  apply Logs.andThen .reserve
  intro _ n'
  apply Logs.after .target
  intro t' n' _
  cases t'.frameFunction? frame with
  | some v => exact refer_reports v _
  | none => exact .stopping _ _

/-- The operation that a failure is rejected by. The name of a type never fails. -/
def Call.operation? : Call → Option Operation
  | request (.query _) => some .query
  | request (.index ..) => some .index
  | request (.next ..) => some .next
  | request (.upvalue ..) => some .upvalue
  | request (.metatable _) => some .metatable
  | request (.userPayload _) => some .userPayload
  | request (.frameLocal ..) => some .frameLocal
  | request (.frameFunction _) => some .frameFunction
  | typeOf _ => some .typeOf
  | display _ => some .display
  | describeCallable .. => some .describeCallable
  | typeName _ => none

theorem Reporting.map {operation : Operation} {r : Except Failure α} {es : List Event} (f : α → β)
    (h : Rejects operation r es) : Rejects operation (r.map f) es := by
  cases h with
  | ok h => exact .ok (h.map f)
  | error h => exact .error (h.map f)

theorem answers_reports {r : Request} {operation : Operation}
    (h : (Call.request r).operation? = some operation) :
    Logs limits t n r.answers (Rejects operation) := by
  cases r <;> cases h
  case query value => exact (query_reports value).map fun _ _ => .map _
  case index base key => exact (index_reports base key).map fun _ _ => .map _
  case next base last => exact (next_reports base last).map fun _ _ => .map _
  case upvalue base i => exact (upvalue_reports base i).map fun _ _ => .map _
  case metatable base => exact (metatable_reports base).map fun _ _ => .map _
  case userPayload base => exact (userPayload_reports base).map fun _ _ => .map _
  case frameLocal frame slot => exact (frameLocal_reports frame slot).map fun _ _ => .map _
  case frameFunction frame => exact (frameFunction_reports frame).map fun _ _ => .map _

theorem perform_reports {call : Call} {operation : Operation}
    (h : call.operation? = some operation) :
    Logs limits t n call.perform (Rejects operation) := by
  cases call with
  | request r => exact (answers_reports h).map fun _ _ => .map _
  | typeOf value => cases h; exact (typeOf_reports value).map fun _ _ => .map _
  | typeName value => cases h
  | display value => cases h; exact (display_reports value).map fun _ _ => .map _
  | describeCallable value symbols =>
    cases h
    exact (describeCallable_reports value symbols).map fun _ _ => .map _

end Inspect

end RemoteInspect
