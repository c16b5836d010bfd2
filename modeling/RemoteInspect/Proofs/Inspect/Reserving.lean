import RemoteInspect.Proofs.Inspect.Capacity
import RemoteInspect.Proofs.Inspect.Demand

namespace RemoteInspect

open Inspect (Call Runs outcome_result_bind_pure)

variable {limits : Limits} {t : Target}

namespace Target

theorem reserve_eq_ok_iff {slots : Nat} {granted : Bool} : t.reserve slots = .ok granted ↔
    t.pinned + slots < sizeLimit ∧ (granted ↔ t.pinned + slots ≤ t.capacity) := by
  rw [reserve]
  by_cases hlimit : sizeLimit ≤ t.pinned + slots
  · simp [hlimit, Nat.not_lt.mpr hlimit]
  · by_cases hroom : t.pinned + slots ≤ t.capacity <;> cases granted <;>
      simp [hlimit, hroom, Nat.lt_of_not_le hlimit]

theorem reserve_eq_error_iff {slots : Nat} {f : Fault} : t.reserve slots = .error f ↔
    f = .outOfRange ∧ sizeLimit ≤ t.pinned + slots := by
  rw [reserve]
  by_cases hlimit : sizeLimit ≤ t.pinned + slots <;> simp [hlimit, eq_comm]

end Target

namespace Demand

/-- The values that are pinned before an operation stay so until its end. -/
def Above (n : Nat) (demands : List Demand) : Prop :=
  ∀ d ∈ demands, n ≤ d.pinned

namespace Above

variable {ε α : Type} {n : Nat} {demands demands' : List Demand}

theorem nil : Above n [] := by simp [Above]

theorem room {m : Nat} (h : n ≤ m) : Above n [.room m] := List.forall_mem_singleton.mpr h

theorem append (h : Above n demands) (h' : Above n demands') : Above n (demands ++ demands') :=
  List.forall_mem_append.mpr ⟨h, h'⟩

theorem onward {r : Except ε α} {next : α → List Demand} (h : ∀ a, Above n (next a)) :
    Above n (onward r next) := by
  cases r with
  | ok a => exact h a
  | error e => exact nil

theorem mono {m : Nat} (h : Above m demands) (hle : n ≤ m) : Above n demands :=
  fun d hd => Nat.le_trans hle (h d hd)

theorem meaning (m : Meaning) : Above n (m.demands t n) := by
  cases m with
  | scalar s => exact room (Nat.le_refl n)
  | tree u =>
    have hvisits : ∀ x ∈ u.visits t 0 n, n ≤ x.pinned :=
      Tree.forall_mem_visits (fun _ _ h => h) (fun _ _ => Nat.le_succ_of_le) (Nat.le_refl n)
    rintro d hd
    obtain ⟨x, hx, rfl⟩ := List.mem_map.mp hd
    exact hvisits x hx

theorem ofBase {base : Value} {expected : Expectation} {b : Meaning} (h : Above n demands) :
    Above n (Answer.ofBase t n base expected b demands) :=
  .append (.meaning b) (.onward fun _ => .onward fun _ => h)

end Above

end Demand

namespace Awaits

variable {α β : Type} {m : Inspect α} {demands : List Demand} {ideal r : Except Stop α}

theorem of_runs (h : Awaits limits t.capacity demands ideal r)
    (hruns : Runs limits t t.pinned 0 m r) :
    Awaits limits t.capacity demands ideal (m.outcome limits t).result := by
  rwa [hruns.outcome]

theorem answering (f : α → β)
    (h : Awaits limits t.capacity demands ideal (m.outcome limits t).result) :
    Awaits limits t.capacity demands (ideal.map f)
      ((m >>= fun a => pure (f a)).outcome limits t).result := by
  rw [outcome_result_bind_pure]
  exact h.map f

end Awaits

namespace Inspect

/-- The demands of an operation, in the order in which they are made. -/
inductive Call.Demands (t : Target) : Call → List Demand → Prop
  | copy (s : Scalar) : Demands t (.request (.query (.scalar s))) []
  | query {h : Handle} {tree : Tree Scalar} (ofHandle : h.Denotes tree) :
      Demands t (.request (.query (.handle h))) ((Meaning.tree tree).demands t t.pinned)
  | index {base key : Value} {b k : Meaning} (ofBase : base.Denotes b) (ofKey : key.Denotes k) :
      Demands t (.request (.index base key)) (Answer.indexDemands t t.pinned base key b k)
  | next {base : Value} {last : Option Value} {b k : Meaning} (ofBase : base.Denotes b)
      (ofLast : (last.getD (.scalar .nil)).Denotes k) :
      Demands t (.request (.next base last)) (Answer.nextDemands t t.pinned base b k)
  | upvalue {base : Value} {b : Meaning} (i : UInt32) (ofBase : base.Denotes b) :
      Demands t (.request (.upvalue base i))
        (Answer.ofBase t t.pinned base .function b [.room (t.pinned + 1)])
  | metatable {base : Value} {b : Meaning} (ofBase : base.Denotes b) :
      Demands t (.request (.metatable base)) (Answer.metatableDemands t t.pinned base b)
  | userPayload {base : Value} {b : Meaning} (ofBase : base.Denotes b) :
      Demands t (.request (.userPayload base))
        (Answer.ofBase t t.pinned base .userdata b [.room (t.pinned + 1)])
  | frameLocal (frame : UInt16) (slot : UInt32) :
      Demands t (.request (.frameLocal frame slot)) (Answer.frameLocalDemands t t.pinned frame)
  | frameFunction (frame : UInt16) :
      Demands t (.request (.frameFunction frame)) [.room t.pinned]
  | typeOf {value : Value} {m : Meaning} (ofValue : value.Denotes m) :
      Demands t (.typeOf value) (m.demands t t.pinned)
  | display {value : Value} {m : Meaning} (ofValue : value.Denotes m) :
      Demands t (.display value) (m.demands t t.pinned)
  | describeCallable {value : Value} {m : Meaning} (symbols : UInt64 → Symbol)
      (ofValue : value.Denotes m) :
      Demands t (.describeCallable value symbols) (m.demands t t.pinned)

namespace Call.Demands

variable {call : Call} {demands : List Demand}

theorem exists_demands (t : Target) (hbuilt : call.Built) (hcall : call.operation?.isSome) :
    ∃ demands, call.Demands t demands := by
  cases call with
  | request r =>
    cases r with
    | query value =>
      cases value with
      | scalar s => exact ⟨_, .copy s⟩
      | handle h =>
        obtain ⟨tree, htree⟩ := Handle.Built.denotes hbuilt
        exact ⟨_, .query htree⟩
    | index base key =>
      obtain ⟨b, hb⟩ := hbuilt.1.denotes
      obtain ⟨k, hk⟩ := hbuilt.2.denotes
      exact ⟨_, .index hb hk⟩
    | next base last =>
      have hlast : (last.getD (.scalar .nil)).Built := by
        cases last with
        | none => trivial
        | some key => exact hbuilt.2 key rfl
      obtain ⟨b, hb⟩ := hbuilt.1.denotes
      obtain ⟨k, hk⟩ := hlast.denotes
      exact ⟨_, .next hb hk⟩
    | upvalue base i =>
      obtain ⟨b, hb⟩ := Value.Built.denotes hbuilt
      exact ⟨_, .upvalue i hb⟩
    | metatable base =>
      obtain ⟨b, hb⟩ := Value.Built.denotes hbuilt
      exact ⟨_, .metatable hb⟩
    | userPayload base =>
      obtain ⟨b, hb⟩ := Value.Built.denotes hbuilt
      exact ⟨_, .userPayload hb⟩
    | frameLocal frame slot => exact ⟨_, .frameLocal frame slot⟩
    | frameFunction frame => exact ⟨_, .frameFunction frame⟩
  | typeOf value =>
    obtain ⟨m, hm⟩ := Value.Built.denotes hbuilt
    exact ⟨_, .typeOf hm⟩
  | typeName value => cases hcall
  | display value =>
    obtain ⟨m, hm⟩ := Value.Built.denotes hbuilt
    exact ⟨_, .display hm⟩
  | describeCallable value symbols =>
    obtain ⟨m, hm⟩ := Value.Built.denotes hbuilt
    exact ⟨_, .describeCallable symbols hm⟩

theorem above (h : call.Demands t demands) : Demand.Above t.pinned demands := by
  cases h with
  | copy s => exact .nil
  | query hh => exact .meaning _
  | @index base key b k _ _ =>
    rw [Answer.indexDemands]
    split
    · exact .nil
    · refine .ofBase (.append (.mono (.meaning k) (Nat.le_succ _)) (.onward fun v => ?_))
      split
      · exact .nil
      · exact .room (Nat.le_add_right _ 2)
  | @next base last b k _ _ =>
    exact .ofBase (.append (.mono (.meaning k) (Nat.le_succ _))
      (.onward fun _ => .room (Nat.le_add_right _ 2)))
  | upvalue i _ => exact .ofBase (.room (Nat.le_succ _))
  | @metatable base b _ =>
    refine .append (.meaning b) (.onward fun v => ?_)
    cases t.kind? v with
    | some kind => exact .onward fun _ => .room (Nat.le_succ _)
    | none => exact .nil
  | userPayload _ => exact .ofBase (.room (Nat.le_succ _))
  | frameLocal frame slot =>
    rw [Answer.frameLocalDemands]
    split
    · exact .room (Nat.le_refl _)
    · exact .nil
  | frameFunction frame => exact .room (Nat.le_refl _)
  | typeOf _ | display _ | describeCallable _ _ => exact .meaning _

theorem exists_awaits (ht : t.Sound) (h : call.Demands t demands) (limits : Limits) :
    ∃ ideal, Awaits limits t.capacity demands ideal (call.perform.outcome limits t).result := by
  cases h with
  | copy s => exact ⟨_, .now (.ok ())⟩
  | query hh =>
    exact ⟨_, .answering _ (.answering _ ((Answer.query_awaits _).of_runs (query_runs ht hh)))⟩
  | index hb hk =>
    exact ⟨_, .answering _ (.answering _ (Answer.index_awaits.of_runs (index_runs ht hb hk)))⟩
  | next hb hk =>
    exact ⟨_, .answering _ (.answering _ (Answer.next_awaits.of_runs (next_runs ht hb hk)))⟩
  | upvalue i hb =>
    exact ⟨_, .answering _ (.answering _ ((Answer.upvalue_awaits i).of_runs
      (upvalue_runs ht hb i)))⟩
  | metatable hb =>
    exact ⟨_, .answering _ (.answering _ (Answer.metatable_awaits.of_runs (metatable_runs ht hb)))⟩
  | userPayload hb =>
    exact ⟨_, .answering _ (.answering _ (Answer.userPayload_awaits.of_runs
      (userPayload_runs ht hb)))⟩
  | frameLocal frame slot =>
    exact ⟨_, .answering _ (.answering _ ((Answer.frameLocal_awaits frame slot).of_runs
      (frameLocal_runs frame slot)))⟩
  | frameFunction frame =>
    exact ⟨_, .answering _ (.answering _ ((Answer.frameFunction_awaits frame).of_runs
      (frameFunction_runs frame)))⟩
  | typeOf hm => exact ⟨_, .answering _ (Answer.typeOf_awaits.of_runs (typeOf_runs ht hm))⟩
  | display hm => exact ⟨_, .answering _ (Answer.display_awaits.of_runs (display_runs ht hm))⟩
  | describeCallable symbols hm =>
    exact ⟨_, .answering _ ((Answer.describeCallable_awaits symbols).of_runs
      (describeCallable_runs ht hm symbols))⟩

end Call.Demands

theorem typeName_result {value : Value} (hbuilt : value.Built) (ht : t.Sound) (limits : Limits) :
    ((typeName value).outcome limits t).result =
      Answer.typeName ((typeOf value).outcome limits t).result := by
  obtain ⟨m, hm⟩ := hbuilt.denotes
  have htype : Runs limits t t.pinned 0 (typeOf value) _ := typeOf_runs ht hm
  have hname : Runs limits t t.pinned 0 (typeName value) _ := typeName_runs ht hm
  rw [htype.outcome, hname.outcome]

/-- As long as a word can count the slots, a reservation is granted exactly if there is room for
them; otherwise it faults. So an operation fails on the first of its demands that is not met, and
on no other account is a resource exhausted. If no depth and no count of slots is too much, it
exhausts the working area exactly when one of its demands finds no room. -/
theorem reservations_exact (ht : t.Reachable) :
    (∀ slots granted, t.reserve slots = .ok granted ↔
      t.pinned + slots < Target.sizeLimit ∧ (granted ↔ t.pinned + slots ≤ t.capacity)) ∧
    (∀ slots f, t.reserve slots = .error f ↔
      f = .outOfRange ∧ Target.sizeLimit ≤ t.pinned + slots) ∧
    (∀ (call : Call) demands limits, call.Demands t demands →
      let result := (call.perform.outcome limits t).result
      let refusal? := demands.findSome? (Demand.refusal? limits t.capacity)
      (∀ stop, refusal? = some stop → result = .error stop) ∧
      (refusal? = none → ∀ what, result ≠ .error (.failure (.exhausted what))) ∧
      ((∀ d ∈ demands, d.tooDeep limits = false ∧ d.pinned + limits.reserve < Target.sizeLimit) →
        (result = .error (.failure (.exhausted .workingArea)) ↔
          ∃ d ∈ demands, t.capacity < d.pinned + limits.reserve)) ∧
      ∀ d ∈ demands, t.pinned ≤ d.pinned) ∧
    (∀ call : Call, call.Built → call.operation?.isSome → ∃ demands, call.Demands t demands) ∧
    ∀ value limits, value.Built → ((typeName value).outcome limits t).result =
      Answer.typeName ((typeOf value).outcome limits t).result := by
  refine ⟨fun slots granted => ?_, fun slots f => ?_, fun call demands limits h => ?_,
    fun call hbuilt hcall => Call.Demands.exists_demands t hbuilt hcall,
    fun value limits hbuilt => typeName_result hbuilt ht.sound limits⟩
  · exact Target.reserve_eq_ok_iff
  · exact Target.reserve_eq_error_iff
  · intro result refusal?
    obtain ⟨ideal, hawaits⟩ := h.exists_awaits ht.sound limits
    refine ⟨fun stop => hawaits.eq_error, hawaits.ample, fun hfits => ?_, h.above⟩
    have hrefusal : demands.findSome? (Demand.refusal? limits t.capacity) = _ :=
      Demand.findSome?_refusal? hfits
    by_cases hroom : ∃ d ∈ demands, t.capacity < d.pinned + limits.reserve
    · rw [if_pos hroom] at hrefusal
      exact iff_of_true (hawaits.eq_error hrefusal) hroom
    · rw [if_neg hroom] at hrefusal
      exact iff_of_false (hawaits.ample hrefusal _) hroom

/-- With a value pinned, the globals and the key are found; then there is no room for the entry. -/
theorem reservations_exact_linked :
    let t : Target := Target.linked.pin
    let call : Call := .request (.index (.handle (.root .globals)) (.scalar (.string [107])))
    let limits : Limits := ⟨200, t.capacity - 2⟩
    call.Demands t [.step ⟨0, 1⟩, .room 2, .room 3] ∧
      (call.perform.outcome limits t).result = .error (.failure (.exhausted .workingArea)) := by
  intro t call limits
  have ht : t.Reachable := .step Target.reachable_linked .pin
  have hglobals : (Value.handle (.root .globals)).Denotes (.tree (.root .globals)) :=
    Handle.denotes_root .globals
  have hkey : (Value.scalar (.string [107])).Denotes (.scalar (.string [107])) := rfl
  have hcall : call.Demands t [.step ⟨0, 1⟩, .room 2, .room 3] := .index hglobals hkey
  obtain ⟨-, -, hcalls, -⟩ := reservations_exact ht
  obtain ⟨hrefused, -⟩ := hcalls call _ limits hcall
  exact ⟨hcall, hrefused _ rfl⟩

/-- With one value pinned a word cannot count all slots that a word can ask for. -/
theorem reserve_overflows_pinned :
    let t : Target := Target.initial.pin
    t.Reachable ∧ t.reserve (UInt64.size - 1) = .error .outOfRange ∧
      ((typeOf (.handle (.root .globals))).outcome ⟨200, UInt64.size - 1⟩ t).result =
        .error (.fault .outOfRange) :=
  ⟨.step (.initial Target.defaultCapacity) .pin,
    Target.reserve_eq_error_iff.mpr ⟨rfl, by decide⟩, rfl⟩

end Inspect

end RemoteInspect
