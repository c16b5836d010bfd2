import RemoteInspect.Inspect.Tracer
import RemoteInspect.Proofs.Inspect.Reporting

namespace RemoteInspect

open Inspect (Call Logs)

inductive Reply
  | reading (r : Reading)
  | value (v : Value)
  | entry (e : Option (Value × Value))
  | named (name : String) (v : Value)
  | handle (h : Handle)
  | kind (k : Kind)
  | text (s : String)
  | scalar (s : Scalar)
  | callable (c : Callable)

namespace Inspect

variable {limits : Limits} {t : Target} {n : Nat}

def Call.reply : Call → Inspect Reply
  | request (.query value) => do return .reading (← Inspect.query value)
  | request (.index base key) => do return .value (← Inspect.index base key)
  | request (.next base last) => do return .entry (← Inspect.next base last)
  | request (.upvalue base i) => do
    let (name, v) ← Inspect.upvalue base i
    return .named name v
  | request (.metatable base) => do return .handle (← Inspect.metatable base)
  | request (.userPayload base) => do return .value (← Inspect.userPayload base)
  | request (.frameLocal frame slot) => do
    let (name, v) ← Inspect.frameLocal frame slot
    return .named name v
  | request (.frameFunction frame) => do return .handle (← Inspect.frameFunction frame)
  | typeOf value => do return .kind (← Inspect.typeOf value)
  | typeName value => do return .text (← Inspect.typeName value)
  | display value => do return .scalar (← Inspect.display value)
  | describeCallable value symbols => do
    return .callable (← Inspect.describeCallable value symbols)

theorem reply_logs (call : Call) : Logs limits t n call.reply fun _ _ => True := by
  cases call with
  | request r =>
    cases r with
    | query value => exact (query_reports value).map fun _ _ _ => trivial
    | index base key => exact (index_reports base key).map fun _ _ _ => trivial
    | next base last => exact (next_reports base last).map fun _ _ _ => trivial
    | upvalue base i => exact (upvalue_reports base i).map fun _ _ _ => trivial
    | metatable base => exact (metatable_reports base).map fun _ _ _ => trivial
    | userPayload base => exact (userPayload_reports base).map fun _ _ _ => trivial
    | frameLocal frame slot => exact (frameLocal_reports frame slot).map fun _ _ _ => trivial
    | frameFunction frame => exact (frameFunction_reports frame).map fun _ _ _ => trivial
  | typeOf value => exact (typeOf_reports value).map fun _ _ _ => trivial
  | typeName value =>
    have hname : Logs limits t n (Inspect.typeName value) fun _ _ => True :=
      (typeOf_reports value).attempt.seq (fun _ _ _ => trivial) fun r _ _ _ => by
        cases r <;> exact .pure trivial
    exact hname.map fun _ _ _ => trivial
  | display value => exact (display_reports value).map fun _ _ _ => trivial
  | describeCallable value symbols =>
    exact (describeCallable_reports value symbols).map fun _ _ _ => trivial

end Inspect

/-- Calls one after another, each chosen by what was answered before. -/
inductive Script
  | done
  | ask (call : Call) (next : Except Stop Reply → Script)

def Script.run : Script → Inspector → List (Except Stop Reply) × Inspector
  | done, i => ([], i)
  | ask call next, i =>
    let (reply, i) := i.ask call.reply
    let (replies, i) := (next reply).run i
    (reply :: replies, i)

theorem Inspector.ask_reply (call : Call) (limits : Limits) (t : Target) :
    ∃ (reply : Except Stop Reply) (u : Target) (events : List Event),
      ∀ (tracer : Tracer) peak kept, (∀ e ∈ kept, tracer.keeps e) → ∃ peak',
        (Inspector.mk limits tracer ⟨t, peak, kept⟩).ask call.reply =
          (reply, ⟨limits, tracer, u, peak', (events.filter tracer.keeps).reverse ++ kept⟩) := by
  obtain ⟨⟨r, n', high, es⟩, -, hrun⟩ := @Inspect.reply_logs limits t t.pinned call
  refine ⟨r, left t (t.withPinned n') r, es, fun tracer peak kept hkept => ?_⟩
  have hrun' : call.reply.run limits ⟨t, peak, kept⟩ =
      (r, ⟨t.withPinned n', max peak high, es.reverse ++ kept⟩) := hrun peak kept
  refine ⟨max peak high, ?_⟩
  simp only [Inspector.ask, hrun', List.filter_append, List.filter_reverse,
    List.filter_eq_self.mpr hkept]

theorem Script.run_new (script : Script) (limits : Limits) (t : Target) :
    ∃ (replies : List (Except Stop Reply)) (u : Target) (events : List Event),
      ∀ (tracer : Tracer) peak kept, (∀ e ∈ kept, tracer.keeps e) → ∃ peak',
        script.run ⟨limits, tracer, t, peak, kept⟩ =
          (replies, ⟨limits, tracer, u, peak', (events.filter tracer.keeps).reverse ++ kept⟩) := by
  -- By induction on the script: what a tracer has kept is only added to.
  induction script generalizing t with
  | done => exact ⟨[], t, [], fun tracer peak kept _ => ⟨peak, rfl⟩⟩
  | ask call next ih =>
    obtain ⟨reply, u, events, hask⟩ := Inspector.ask_reply call limits t
    obtain ⟨replies, u', events', hrun⟩ := ih reply u
    refine ⟨reply :: replies, u', events ++ events', fun tracer peak kept hkept => ?_⟩
    obtain ⟨peak', hask⟩ := hask tracer peak kept hkept
    have hkept' : ∀ e ∈ (events.filter tracer.keeps).reverse ++ kept, tracer.keeps e := by
      intro e he
      obtain he | he := List.mem_append.mp he
      · exact (List.mem_filter.mp (List.mem_reverse.mp he)).2
      · exact hkept e he
    obtain ⟨peak'', hrun⟩ := hrun tracer peak' _ hkept'
    refine ⟨peak'', ?_⟩
    simp only [Script.run, hask, hrun, List.filter_append, List.reverse_append, List.append_assoc]

namespace Event

def isEntry : Event → Bool
  | entered .. => true
  | _ => false

def isResolution : Event → Bool
  | resolved .. => true
  | _ => false

theorem shows_veryVerbose (e : Event) : Verbosity.veryVerbose.shows e = true := by
  cases e <;> rfl

theorem shows_verbose (e : Event) : Verbosity.verbose.shows e = !e.isEntry := by
  cases e <;> rfl

theorem shows_quiet (e : Event) :
    Verbosity.quiet.shows e = (!e.isResolution && !e.isEntry) := by
  cases e <;> rfl

end Event

/-- Whatever is asked, one thing after another, the answers and the target afterwards are the same
with every tracer. The lines are those of the same events: of all of them, of those that enter no
step, or of those of the latter that resolve no step. -/
theorem script_traced (script : Script) (limits : Limits) (t : Target) :
    ∃ (replies : List (Except Stop Reply)) (u : Target) (events : List Event),
      (∀ tracer, (script.run (.new limits tracer t)).1 = replies ∧
        (script.run (.new limits tracer t)).2.session.target = u) ∧
      ∀ p : Palette,
        let lines v := (script.run (.new limits (.printer v p) t)).2.lines
        let verbose := events.filter fun e => !e.isEntry
        let quiet := verbose.filter fun e => !e.isResolution
        lines .veryVerbose = events.map (Event.line p) ∧
          lines .verbose = verbose.map (Event.line p) ∧
          lines .quiet = quiet.map (Event.line p) := by
  obtain ⟨replies, u, events, hrun⟩ := script.run_new limits t
  have hrun' : ∀ tracer, ∃ peak, script.run (.new limits tracer t) =
      (replies, ⟨limits, tracer, u, peak, (events.filter tracer.keeps).reverse ++ []⟩) :=
    fun tracer => hrun tracer t.pinned [] (by simp)
  have hlines : ∀ v p, (script.run (.new limits (.printer v p) t)).2.lines =
      (events.filter v.shows).map (Event.line p) := by
    intro v p
    obtain ⟨peak, hrun⟩ := hrun' (.printer v p)
    have hkeeps : (Tracer.printer v p).keeps = v.shows := rfl
    simp only [hrun, Inspector.lines, Session.transcript, List.append_nil, List.reverse_reverse,
      hkeeps, List.filter_filter, Bool.and_self]
  refine ⟨replies, u, events, fun tracer => ?_, fun p => ?_⟩
  · obtain ⟨peak, hrun⟩ := hrun' tracer
    rw [hrun]
    exact ⟨rfl, rfl⟩
  · refine ⟨?_, ?_, ?_⟩
    · refine (hlines _ p).trans (congrArg _ ?_)
      exact List.filter_eq_self.mpr fun e _ => e.shows_veryVerbose
    · exact (hlines _ p).trans (congrArg _ (List.filter_congr fun e _ => e.shows_verbose))
    · refine (hlines _ p).trans (congrArg _ ?_)
      rw [List.filter_filter]
      exact List.filter_congr fun e _ => e.shows_quiet

end RemoteInspect
