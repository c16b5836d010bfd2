import RemoteInspect.Proofs.Inspect.Custody
import RemoteInspect.Proofs.Inspect.Room

namespace RemoteInspect

/-- There is no room for all that is pinned on the way to what the value stands for. -/
def Value.Overfills (limits : Limits) (t : Target) (n : Nat) (value : Value) : Prop :=
  ∃ h tree, value = .handle h ∧ h.HasTree tree ∧ tree.Overfills limits t 0 n

def Value.Opens (limits : Limits) (t : Target) (value : Value) : Prop :=
  ∃ table, ((Inspect.resolve value).outcome limits t).result = .ok table ∧
    t.kind? table = some .table

namespace Inspect

variable {α : Type} {limits : Limits} {t : Target} {n : Nat} {Q : Prop}

/-- There is no room for all that the operation pins. An object key is followed while the base is
pinned. -/
def Request.Overfills (limits : Limits) (t : Target) : Request → Prop
  | query value => value.Overfills limits t t.pinned
  | index base key => key ≠ .scalar .nil ∧ (base.Overfills limits t t.pinned ∨
      base.Opens limits t ∧ key.Overfills limits t (t.pinned + 1))
  | next base last => base.Overfills limits t t.pinned ∨
      base.Opens limits t ∧ ∃ key, last = some key ∧ key.Overfills limits t (t.pinned + 1)
  | upvalue base _ | metatable base | userPayload base => base.Overfills limits t t.pinned
  | frameLocal .. | frameFunction _ => False

def Call.Overfills (limits : Limits) (t : Target) : Call → Prop
  | request r => r.Overfills limits t
  | typeOf value | typeName value | display value | describeCallable value _ =>
    value.Overfills limits t t.pinned

def Call.Built : Call → Prop
  | request r => r.Built
  | typeOf value | typeName value | display value | describeCallable value _ => value.Built

theorem not_overfills_scalar (s : Scalar) : ¬ (Value.scalar s).Overfills limits t n := by
  rintro ⟨h, tree, he, -⟩
  cases he

theorem overfills_handle_iff {h : Handle} {tree : Tree Scalar} (hh : h.Denotes tree) :
    (Value.handle h).Overfills limits t n ↔ tree.Overfills limits t 0 n := by
  constructor
  · rintro ⟨h', tree', he, htree, hover⟩
    cases he
    rwa [(htree tree).mp hh.means]
  · exact fun hover => ⟨h, tree, rfl, hh.hasTree, hover⟩

theorem resolve_crowds (ht : t.Sound) (hreserve : 3 ≤ limits.reserve) {value : Value}
    {m : Meaning} (hm : value.Denotes m) :
    Crowds limits t n (resolve value) (value.Overfills limits t n) := by
  cases value with
  | scalar s =>
    refine crowds_congr (P := False) ?_ (iff_of_false id (not_overfills_scalar s))
    exact reserve_bind_crowds hreserve fun hn => .pin (crowding_of_le (by omega))
  | handle h =>
    cases m with
    | scalar s => cases hm
    | tree u => exact crowds_congr (evaluate_crowds ht hreserve hm) (overfills_handle_iff hm).symm

theorem publish_crowds (v : Live) (lazy : Except Fault Handle) :
    Crowds limits t n (publish v lazy) False := by
  unfold publish
  cases v.copy? with
  | some s => exact .bind (.emit fun _ _ => nofun) fun _ _ => .pure _
  | none =>
    cases lazy with
    | ok h => exact .bind (.pure h) fun h _ => .bind (.emit fun _ _ => nofun) fun _ _ => .pure _
    | error f => exact .bind (.fault f) fun h _ => .bind (.emit fun _ _ => nofun) fun _ _ => .pure _

theorem holding_pin_crowds (hn : n + 1 ≤ t.capacity) (v : Live) {work : Live → Inspect α}
    (hw : ∀ v, Crowds limits t (n + 1) (work v) False) :
    Crowds limits t n (holding (pin v) work) False :=
  (Measures.holding (.pin v) (.pin (crowding_of_le hn)) (fun _ _ => rfl)
    fun v _ => hw v).congr (false_or False)

theorem holding_resolve_crowds (ht : t.Sound) (hreserve : 3 ≤ limits.reserve) {value : Value}
    {m : Meaning} (hm : value.Denotes m) {work : Live → Inspect α}
    (hw : ∀ v, m.limited limits t n = .ok v → Crowds limits t (n + 1) (work v) False) :
    Crowds limits t n (holding (resolve value) work) (value.Overfills limits t n) :=
  (Measures.holding (resolve_runs ht hm) (resolve_crowds ht hreserve hm) (fun _ _ => rfl)
    hw).congr (or_false _)

theorem fromBase_crowds (ht : t.Sound) (hreserve : 3 ≤ limits.reserve) {base : Value}
    {b : Meaning} (hb : base.Denotes b) {expected : Expectation}
    {work : Live → Handle → Inspect α} (hw : ∀ v h, Crowds limits t (n + 1) (work v h) Q) :
    Crowds limits t n (fromBase base expected work) (base.Overfills limits t n ∨
      (∃ v h, b.limited limits t n = .ok v ∧ Answer.baseHandle t base expected v = .ok h) ∧ Q) := by
  refine crowds_congr (holding_crowds (Q := fun v =>
    (∃ h, Answer.baseHandle t base expected v = .ok h) ∧ Q) (resolve_runs ht hb)
    (resolve_crowds ht hreserve hb) fun v hv => ?_) (by grind)
  obtain ⟨kind, hk⟩ := Meaning.owns_limited ht hv
  apply Measures.after (.kindOf hk) (.kindOf v)
  cases base with
  | scalar s => exact crowds_congr (.fail _) (by simp [Answer.baseHandle, crowding])
  | handle h =>
    by_cases ha : expected.accepts kind
    · simp only [ha, ↓reduceIte]
      exact crowds_congr (hw v h) (by simp [Answer.baseHandle, Tree.checkKind, hk, ha])
    · simp only [ha, ↓reduceIte, Bool.false_eq_true]
      exact crowds_congr (.fail _)
        (by simp [Answer.baseHandle, Tree.checkKind, hk, ha, crowding])

theorem fromBase_crowds_of_room (ht : t.Sound) (hreserve : 3 ≤ limits.reserve) {base : Value}
    {b : Meaning} (hb : base.Denotes b) {expected : Expectation}
    {work : Live → Handle → Inspect α} (hw : ∀ v h, Crowds limits t (n + 1) (work v h) False) :
    Crowds limits t n (fromBase base expected work) (base.Overfills limits t n) :=
  crowds_congr (fromBase_crowds ht hreserve hb hw) (by simp)

theorem opens_iff (ht : t.Sound) {base : Value} {b : Meaning} (hb : base.Denotes b) :
    base.Opens limits t ↔ ∃ v h, b.limited limits t t.pinned = .ok v ∧
      Answer.baseHandle t base .table v = .ok h := by
  rw [Value.Opens, (resolve_runs ht hb).outcome]
  refine exists_congr fun v => ?_
  rw [exists_and_left]
  refine and_congr_right fun hv => ?_
  obtain ⟨kind, hk⟩ := Meaning.owns_limited ht hv
  cases base with
  | handle h =>
    by_cases hkind : kind = .table <;>
      simp [Answer.baseHandle, Tree.checkKind, Expectation.accepts, hk, hkind]
  | scalar s =>
    cases b with
    | tree u => cases hb
    | scalar s' =>
      cases Meaning.eq_of_limited_scalar hv
      cases s' <;> simp [Answer.baseHandle, Target.kind?, Scalar.kind]

theorem query_crowds (ht : t.Sound) (hreserve : 3 ≤ limits.reserve) {value : Value} {m : Meaning}
    (hm : value.Denotes m) : Crowds limits t n (query value) (value.Overfills limits t n) := by
  apply Measures.rejecting
  cases value with
  | scalar s => exact crowds_congr (.pure _) (iff_of_false id (not_overfills_scalar s))
  | handle h =>
    refine holding_resolve_crowds ht hreserve hm fun v _ => ?_
    exact .bind (.kindOf v) fun kind _ => .bind (publish_crowds v _) fun value _ => .pure _

theorem typeOf_crowds (ht : t.Sound) (hreserve : 3 ≤ limits.reserve) {value : Value} {m : Meaning}
    (hm : value.Denotes m) : Crowds limits t n (typeOf value) (value.Overfills limits t n) :=
  .rejecting _ (holding_resolve_crowds ht hreserve hm fun v _ => .kindOf v)

theorem typeName_crowds (ht : t.Sound) (hreserve : 3 ≤ limits.reserve) {value : Value}
    {m : Meaning} (hm : value.Denotes m) :
    Crowds limits t n (typeName value) (value.Overfills limits t n) := by
  apply Measures.bind (typeOf_crowds ht hreserve hm).attempt
  rintro (f | kind) _
  · exact .pure _
  · exact .pure _

theorem display_crowds (ht : t.Sound) (hreserve : 3 ≤ limits.reserve) {value : Value}
    {m : Meaning} (hm : value.Denotes m) :
    Crowds limits t n (display value) (value.Overfills limits t n) := by
  apply Measures.rejecting
  refine holding_resolve_crowds ht hreserve hm fun v _ => ?_
  cases v.copy? with
  | some s => exact .pure s
  | none => exact .bind (.kindOf v) fun kind _ => .pure _

theorem describeCallable_crowds (ht : t.Sound) (hreserve : 3 ≤ limits.reserve) {value : Value}
    {m : Meaning} (hm : value.Denotes m) (symbols : UInt64 → Symbol) :
    Crowds limits t n (describeCallable value symbols) (value.Overfills limits t n) := by
  apply Measures.rejecting
  refine holding_resolve_crowds ht hreserve hm fun v _ => .target_bind ?_
  cases (t.withPinned (n + 1)).code? v with
  | none => exact .pure _
  | some code => cases code <;> exact .pure _

theorem index_crowds (ht : t.Sound) (hreserve : 3 ≤ limits.reserve) {base key : Value}
    {b k : Meaning} (hb : base.Denotes b) (hk : key.Denotes k) :
    Crowds limits t n (index base key) (key ≠ .scalar .nil ∧ (base.Overfills limits t n ∨
      (∃ v h, b.limited limits t n = .ok v ∧ Answer.baseHandle t base .table v = .ok h) ∧
        key.Overfills limits t (n + 1))) := by
  apply Measures.rejecting
  by_cases hnil : key = .scalar .nil
  · simp only [hnil, ↓reduceIte]
    exact crowds_congr (.stop (.fail _) (.fail _)) (by simp [crowding])
  simp only [hnil, ↓reduceIte]
  refine crowds_congr (fromBase_crowds (Q := key.Overfills limits t (n + 1)) ht hreserve hb
    fun table h => ?_) (by simp [hnil])
  refine holding_resolve_crowds ht hreserve hk fun k' _ => ?_
  by_cases hrecorded : record key k' = .constant .nil
  · simp only [hrecorded, ↓reduceIte]
    exact .stop (.fail _) (.fail _)
  simp only [hrecorded, ↓reduceIte]
  refine reserve_bind_crowds hreserve fun hn => ?_
  have hget : Runs limits t (n + 2) 1 (do pin ((← target).rawGet table k'))
      (.ok (t.rawGet table k')) := .seq .target (.pin _)
  refine (Measures.holding hget (.target_bind (.pin (crowding_of_le (by omega))))
    (fun _ _ => rfl) fun v _ => ?_).congr (false_or False)
  apply Measures.bind (.kindOf v)
  intro kind _
  split
  · exact .bind (.fail _) fun _ _ => publish_crowds v _
  · exact publish_crowds v _

theorem next_crowds (ht : t.Sound) (hreserve : 3 ≤ limits.reserve) {base : Value}
    {b k : Meaning} (hb : base.Denotes b) (last : Option Value)
    (hk : (last.getD (.scalar .nil)).Denotes k) :
    Crowds limits t n (next base last) (base.Overfills limits t n ∨
      (∃ v h, b.limited limits t n = .ok v ∧ Answer.baseHandle t base .table v = .ok h) ∧
        (last.getD (.scalar .nil)).Overfills limits t (n + 1)) := by
  apply Measures.rejecting
  refine fromBase_crowds ht hreserve hb fun table h => ?_
  rw [resolveLast_eq]
  refine holding_resolve_crowds ht hreserve hk fun k' _ => reserve_bind_crowds hreserve fun hn => ?_
  apply Measures.target_bind
  cases hnext : t.rawNext table k' with
  | entry key v =>
    simp only [Target.rawNext_withPinned, hnext]
    refine holding_pin_crowds (by omega) key fun key => holding_pin_crowds (by omega) v fun v => ?_
    exact .bind (publish_crowds _ _) fun _ _ => .bind (publish_crowds _ _) fun _ _ => .pure _
  | finished =>
    simp only [Target.rawNext_withPinned, hnext]
    exact .pure _
  | unknownKey =>
    simp only [Target.rawNext_withPinned, hnext]
    exact .fail _

theorem upvalue_crowds (ht : t.Sound) (hreserve : 3 ≤ limits.reserve) {base : Value} {b : Meaning}
    (hb : base.Denotes b) (index : UInt32) :
    Crowds limits t n (upvalue base index) (base.Overfills limits t n) := by
  apply Measures.rejecting
  refine fromBase_crowds_of_room ht hreserve hb fun function h =>
    reserve_bind_crowds hreserve fun hn => .target_bind ?_
  split
  · exact holding_pin_crowds (by omega) _ fun v => .bind (publish_crowds v _) fun _ _ => .pure _
  · exact .fail _

theorem metatableHandle_crowds (base : Value) (kind : Kind) :
    Crowds limits t n (metatableHandle base kind) False := by
  unfold metatableHandle
  split
  · cases base with
    | handle h => exact .pure _
    | scalar s => exact .fail _
  · split
    · exact .pure _
    · exact .fail _

theorem metatable_crowds (ht : t.Sound) (hreserve : 3 ≤ limits.reserve) {base : Value} {b : Meaning}
    (hb : base.Denotes b) :
    Crowds limits t n (metatable base) (base.Overfills limits t n) := by
  apply Measures.rejecting
  refine holding_resolve_crowds ht hreserve hb fun v hv => ?_
  obtain ⟨kind, hk⟩ := Meaning.owns_limited ht hv
  apply Measures.after (.kindOf hk) (.kindOf v)
  have hruns : Runs limits t (n + 1) 0 (metatableHandle base kind) _ :=
    metatableHandle_runs base kind
  cases hh : Answer.metatableHandle base kind with
  | error f =>
    rw [hh] at hruns
    exact .stop hruns (metatableHandle_crowds base kind)
  | ok h =>
    rw [hh] at hruns
    refine .after hruns (metatableHandle_crowds base kind) ?_
    refine reserve_bind_crowds hreserve fun hn => ?_
    apply Measures.target_bind
    split
    · refine .bind (holding_pin_crowds (by omega) _ fun v => .emit fun _ _ => nofun) fun _ _ => ?_
      exact .pure h
    · exact .bind (.fail _) fun _ _ => .pure h

theorem userPayload_crowds (ht : t.Sound) (hreserve : 3 ≤ limits.reserve) {base : Value}
    {b : Meaning} (hb : base.Denotes b) :
    Crowds limits t n (userPayload base) (base.Overfills limits t n) := by
  apply Measures.rejecting
  refine fromBase_crowds_of_room ht hreserve hb fun v h =>
    reserve_bind_crowds hreserve fun hn => .target_bind ?_
  split
  · exact holding_pin_crowds (by omega) _ fun payload => publish_crowds payload _
  · exact .fail _

theorem frameLocal_crowds (hreserve : 3 ≤ limits.reserve) (frame : UInt16) (slot : UInt32) :
    Crowds limits t n (frameLocal frame slot) False := by
  apply Measures.rejecting
  apply Measures.target_bind
  by_cases hframe : t.hasFrame frame
  · simp only [Target.hasFrame_withPinned, hframe, ↓reduceIte]
    refine reserve_bind_crowds hreserve fun hn => .target_bind ?_
    split
    · exact holding_pin_crowds (by omega) _ fun v => .bind (publish_crowds v _) fun _ _ => .pure _
    · exact .fail _
  · simp only [Target.hasFrame_withPinned, hframe, ↓reduceIte, Bool.false_eq_true]
    exact .stop (.fail _) (.fail _)

theorem frameFunction_crowds (hreserve : 3 ≤ limits.reserve) (frame : UInt16) :
    Crowds limits t n (frameFunction frame) False := by
  apply Measures.rejecting
  refine reserve_bind_crowds hreserve fun hn => .target_bind ?_
  split
  · refine .bind (holding_pin_crowds (by omega) _ fun v => .emit fun _ _ => nofun) fun _ _ => ?_
    exact .pure _
  · exact .bind (.fail _) fun _ _ => .pure _

theorem answers_crowds (ht : t.Sound) (hreserve : 3 ≤ limits.reserve) {r : Request}
    (hr : r.Built) : Crowds limits t t.pinned r.answers (r.Overfills limits t) := by
  cases r with
  | query value =>
    obtain ⟨m, hm⟩ := Value.Built.denotes hr
    exact (query_crowds ht hreserve hm).bind fun _ _ => .pure _
  | index base key =>
    obtain ⟨b, hb⟩ := hr.1.denotes
    obtain ⟨k, hk⟩ := hr.2.denotes
    refine crowds_congr ((index_crowds ht hreserve hb hk).bind fun _ _ => .pure _) ?_
    rw [Request.Overfills, opens_iff ht hb]
  | next base last =>
    obtain ⟨b, hb⟩ := hr.1.denotes
    cases last with
    | none =>
      refine crowds_congr ((next_crowds ht hreserve hb none (k := .scalar .nil) rfl).bind
        fun _ _ => .pure _) ?_
      simp [Request.Overfills, not_overfills_scalar]
    | some key =>
      obtain ⟨k, hk⟩ := (hr.2 key rfl).denotes
      refine crowds_congr ((next_crowds ht hreserve hb (some key) hk).bind fun _ _ => .pure _) ?_
      simp [Request.Overfills, opens_iff ht hb]
  | upvalue base i =>
    obtain ⟨b, hb⟩ := Value.Built.denotes hr
    exact (upvalue_crowds ht hreserve hb i).bind fun _ _ => .pure _
  | metatable base =>
    obtain ⟨b, hb⟩ := Value.Built.denotes hr
    exact (metatable_crowds ht hreserve hb).bind fun _ _ => .pure _
  | userPayload base =>
    obtain ⟨b, hb⟩ := Value.Built.denotes hr
    exact (userPayload_crowds ht hreserve hb).bind fun _ _ => .pure _
  | frameLocal frame slot => exact (frameLocal_crowds hreserve frame slot).bind fun _ _ => .pure _
  | frameFunction frame => exact (frameFunction_crowds hreserve frame).bind fun _ _ => .pure _

theorem perform_crowds (ht : t.Sound) (hreserve : 3 ≤ limits.reserve) {call : Call}
    (hcall : call.Built) : Crowds limits t t.pinned call.perform (call.Overfills limits t) := by
  cases call with
  | request r => exact (answers_crowds ht hreserve hcall).bind fun _ _ => .pure _
  | typeOf value =>
    obtain ⟨m, hm⟩ := Value.Built.denotes hcall
    exact (typeOf_crowds ht hreserve hm).bind fun _ _ => .pure _
  | typeName value =>
    obtain ⟨m, hm⟩ := Value.Built.denotes hcall
    exact (typeName_crowds ht hreserve hm).bind fun _ _ => .pure _
  | display value =>
    obtain ⟨m, hm⟩ := Value.Built.denotes hcall
    exact (display_crowds ht hreserve hm).bind fun _ _ => .pure _
  | describeCallable value symbols =>
    obtain ⟨m, hm⟩ := Value.Built.denotes hcall
    exact (describeCallable_crowds ht hreserve hm symbols).bind fun _ _ => .pure _

theorem Call.not_overfills (hreserve : 4 ≤ limits.reserve) (call : Call) :
    ¬ call.Overfills limits t := by
  have hvalue : ∀ n (value : Value), ¬ value.Overfills limits t n := by
    rintro n value ⟨h, tree, -, -, hover⟩
    exact Tree.not_overfills hreserve tree hover
  cases call with
  | request r =>
    cases r with
    | query value => exact hvalue _ value
    | index base key =>
      rintro ⟨-, hbase | ⟨-, hkey⟩⟩
      · exact hvalue _ base hbase
      · exact hvalue _ key hkey
    | next base last =>
      rintro (hbase | ⟨-, key, -, hkey⟩)
      · exact hvalue _ base hbase
      · exact hvalue _ key hkey
    | upvalue base i => exact hvalue _ base
    | metatable base => exact hvalue _ base
    | userPayload base => exact hvalue _ base
    | frameLocal | frameFunction => exact id
  | typeOf value => exact hvalue _ value
  | typeName value => exact hvalue _ value
  | display value => exact hvalue _ value
  | describeCallable value symbols => exact hvalue _ value

/-- When three slots are reserved for a step, an operation pins at most one value more than there
is room for; and it does so if and only if, on the way to one of its arguments, the key after a
constant is found where there is no room for four values. It never does when four slots are
reserved. -/
theorem capacity_lt_peak_iff {call : Call} (hcall : call.Built) (ht : t.Reachable)
    (hroom : t.pinned ≤ t.capacity) (hreserve : 3 ≤ limits.reserve) :
    let peak := (call.perform.outcome limits t).session.peak
    peak ≤ t.capacity + 1 ∧ (t.capacity < peak ↔ call.Overfills limits t) ∧
      (4 ≤ limits.reserve → peak ≤ t.capacity) := by
  intro peak
  obtain ⟨e, ⟨hhigh, hiff⟩, hrun⟩ :=
    Meets.run (perform_crowds ht.sound hreserve hcall) (s := .start t) rfl
  have hpeak : peak = max t.pinned e.high := by simp only [peak, outcome_session, hrun]; rfl
  have hcrowded : t.capacity < peak ↔ call.Overfills limits t := by
    rw [← hiff]
    omega
  refine ⟨by omega, hcrowded, fun hfour => ?_⟩
  exact Nat.not_lt.mp fun hlt => Call.not_overfills hfour call (hcrowded.mp hlt)

/-- The key of the value is the one after 1, and is looked up while the table of the value is
pinned. -/
theorem capacity_lt_peak_iff_linked :
    let one : Scalar := .integer 1
    let h : Handle := ⟨⟨[.indexObject .get 2, .index .get 1, .root .globals,
      .index .next 3, .index .get 2, .root .globals]⟩, ⟨[.string [107], .string [107], one]⟩⟩
    let call : Call := .request (.query (.handle h))
    let four : Target := { Target.linked with capacity := 4 }
    let five : Target := { Target.linked with capacity := 5 }
    (call.perform.outcome .standard four).session.peak = 5 ∧ call.Overfills .standard four ∧
      (call.perform.outcome .standard five).session.peak = 5 ∧ ¬ call.Overfills .standard five ∧
      (call.perform.outcome ⟨200, 4⟩ four).session.peak ≤ 4 := by
  intro one h call four five
  have htable : Handle.Built ⟨⟨[.index .get 1, .root .globals]⟩, ⟨[.string [107]]⟩⟩ :=
    @Handle.Built.index _ _ (.string [107]) (.root .globals) rfl
  have hkey : Handle.Built ⟨⟨[.index .next 2, .index .get 1, .root .globals]⟩,
      ⟨[.string [107], one]⟩⟩ := @Handle.Built.nextKey _ _ one htable rfl
  have hh : call.Built := @Handle.Built.indexObject _ _ _ .get htable hkey rfl
  have hfour : four.Reachable := .step Target.reachable_linked (.setCapacity 4)
  have hfive : five.Reachable := .step Target.reachable_linked (.setCapacity 5)
  have hpeakFour : (call.perform.outcome .standard four).session.peak = 5 := by decide +kernel
  have hpeakFive : (call.perform.outcome .standard five).session.peak = 5 := by decide +kernel
  obtain ⟨-, hoverFour, -⟩ :=
    @capacity_lt_peak_iff .standard _ _ hh hfour (Nat.zero_le 4) (Nat.le_refl 3)
  obtain ⟨-, hoverFive, -⟩ :=
    @capacity_lt_peak_iff .standard _ _ hh hfive (Nat.zero_le 5) (Nat.le_refl 3)
  obtain ⟨-, -, hmore⟩ := @capacity_lt_peak_iff ⟨200, 4⟩ _ _ hh hfour (Nat.zero_le 4) (by decide)
  rw [hpeakFour] at hoverFour
  rw [hpeakFive] at hoverFive
  exact ⟨hpeakFour, hoverFour.mp (Nat.lt_succ_self 4), hpeakFive,
    fun hover => Nat.lt_irrefl 5 (hoverFive.mpr hover), hmore (Nat.le_refl 4)⟩

/-- In an empty working area of three slots, the first key of the registry is pinned as the third
value, and what is under it as the fourth. -/
theorem query_exceeds_capacity :
    let t : Target := { Target.initial with capacity := 3 }
    let h : Handle := ⟨⟨[.index .next 0, .root .registry]⟩, .empty⟩
    let call : Call := .request (.query (.handle h))
    t.Reachable ∧ call.Built ∧ t.pinned ≤ t.capacity ∧ 3 ≤ Limits.standard.reserve ∧
      (call.perform.outcome .standard t).result = .ok () ∧
      ¬ (call.perform.outcome .standard t).session.peak ≤ t.capacity :=
  ⟨.initial 3, @Handle.Built.nextKey _ _ .nil (.root .registry) rfl, Nat.zero_le _, Nat.le_refl 3,
    rfl, by decide⟩

end Inspect

end RemoteInspect
