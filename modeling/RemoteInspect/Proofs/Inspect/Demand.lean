import RemoteInspect.Proofs.Inspect.Readers
import RemoteInspect.Proofs.Inspect.Refinement
import RemoteInspect.Proofs.Inspect.Reporting

namespace RemoteInspect

open Inspect (Call Request reservation)

/-- A step asks for its depth and for room, and all else for room only. -/
inductive Demand
  | step (x : Visit)
  | room (pinned : Nat)
deriving DecidableEq, Repr

namespace Demand

variable {limits : Limits} {capacity : Nat}

def pinned : Demand → Nat
  | step x => x.pinned
  | room n => n

def tooDeep (limits : Limits) : Demand → Bool
  | step x => limits.recursion ≤ x.depth
  | room _ => false

def refusal? (limits : Limits) (capacity : Nat) (d : Demand) : Option Stop :=
  if d.tooDeep limits then some (.failure (.exhausted (.recursionLimit limits.recursion)))
  else if Target.sizeLimit ≤ d.pinned + limits.reserve then some (.fault .outOfRange)
  else if capacity < d.pinned + limits.reserve then some (.failure (.exhausted .workingArea))
  else none

def meet (limits : Limits) (capacity : Nat) (d : Demand) : Except Stop Unit :=
  match d.refusal? limits capacity with
  | some stop => .error stop
  | none => .ok ()

theorem meet_room (n : Nat) : (room n).meet limits capacity = reservation limits capacity n := by
  rw [meet, refusal?, reservation]
  by_cases hlimit : Target.sizeLimit ≤ n + limits.reserve
  · simp [tooDeep, pinned, hlimit]
  · by_cases hcapacity : n + limits.reserve ≤ capacity
    · simp [tooDeep, pinned, hlimit, hcapacity, Nat.not_lt.mpr hcapacity]
    · simp [tooDeep, pinned, hlimit, hcapacity, Nat.lt_of_not_le hcapacity]

theorem meet_step (x : Visit) : (step x).meet limits capacity = x.allow limits capacity := by
  rw [Visit.allow]
  by_cases hdepth : limits.recursion ≤ x.depth
  · simp [meet, refusal?, tooDeep, hdepth]
  · have hdeep : (step x).tooDeep limits = false := decide_eq_false hdepth
    have hroom : (step x).refusal? limits capacity = (room x.pinned).refusal? limits capacity := by
      rw [refusal?, hdeep]
      rfl
    rw [if_neg hdepth, ← meet_room, meet, meet, hroom]

theorem forM_meet (ds : List Demand) : forM ds (meet limits capacity) =
    match ds.findSome? (refusal? limits capacity) with
    | some stop => .error stop
    | none => .ok () := by
  induction ds with
  | nil => rfl
  | cons d rest ih =>
    rw [List.forM_cons, List.findSome?_cons, meet]
    cases d.refusal? limits capacity with
    | some stop => rfl
    | none => exact ih

theorem findSome?_refusal? {ds : List Demand}
    (hfits : ∀ d ∈ ds, d.tooDeep limits = false ∧ d.pinned + limits.reserve < Target.sizeLimit) :
    ds.findSome? (refusal? limits capacity) =
      if ∃ d ∈ ds, capacity < d.pinned + limits.reserve then
        some (.failure (.exhausted .workingArea))
      else none := by
  induction ds with
  | nil => simp
  | cons d rest ih =>
    obtain ⟨⟨hdepth, hlimit⟩, hrest⟩ := List.forall_mem_cons.mp hfits
    have hd : d.refusal? limits capacity = if capacity < d.pinned + limits.reserve then
        some (.failure (.exhausted .workingArea)) else none := by
      rw [refusal?, hdepth, if_neg Bool.false_ne_true, if_neg (Nat.not_le.mpr hlimit)]
    rw [List.findSome?_cons, hd, ih hrest]
    by_cases hroom : capacity < d.pinned + limits.reserve <;> simp [hroom]

end Demand

open Demand (meet)

def onward {ε α : Type} (r : Except ε α) (demands : α → List Demand) : List Demand :=
  match r with
  | .ok a => demands a
  | .error _ => []

@[simp] theorem onward_mapError {ε δ α : Type} (r : Except ε α) (f : ε → δ)
    (demands : α → List Demand) : onward (r.mapError f) demands = onward r demands := by
  cases r <;> rfl

def Ample {α : Type} (r : Except Stop α) : Prop :=
  ∀ what, r ≠ .error (.failure (.exhausted what))

namespace Ample

variable {α β : Type}

theorem ok (a : α) : Ample (.ok a) := by simp [Ample]

theorem fault (f : Fault) : Ample (.error (.fault f) : Except Stop α) := by simp [Ample]

theorem failure {f : Failure} (h : f.isFatal = false) :
    Ample (.error (.failure f) : Except Stop α) := by
  rintro what ⟨⟩
  cases h

theorem mapError {r : Except Failure α} (h : ∀ f, r = .error f → f.isFatal = false) :
    Ample (r.mapError Stop.failure) := by
  cases r with
  | ok a => exact ok a
  | error f => exact failure (h f rfl)

theorem map {r : Except Stop α} (h : Ample r) (f : α → β) : Ample (r.map f) := by
  rintro what heq
  exact h what (Except.map_eq_error_iff.mp heq)

theorem bind {r : Except Stop α} {k : α → Except Stop β} (h : Ample r)
    (hk : ∀ a, Ample (k a)) : Ample (r >>= k) := by
  rintro what heq
  obtain hr | ⟨a, -, ha⟩ := Except.bind_eq_error_iff.mp heq
  · exact h what hr
  · exact hk a what ha

end Ample

/-- `r` is `ideal` when all demands are met, in turn. -/
def Awaits {α : Type} (limits : Limits) (capacity : Nat) (demands : List Demand)
    (ideal r : Except Stop α) : Prop :=
  Ample ideal ∧ r = do
    forM demands (meet limits capacity)
    ideal

namespace Awaits

variable {α β : Type} {limits : Limits} {capacity : Nat} {demands : List Demand}
  {ideal r : Except Stop α}

theorem now (h : Ample r) : Awaits limits capacity [] r r := ⟨h, rfl⟩

theorem room (n : Nat) :
    Awaits limits capacity [.room n] (.ok ()) (reservation limits capacity n) := by
  refine ⟨.ok (), ?_⟩
  rw [List.forM_cons, Demand.meet_room, List.forM_nil]
  cases reservation limits capacity n <;> rfl

theorem bind {demands' : α → List Demand} {k k' : α → Except Stop β}
    (h : Awaits limits capacity demands ideal r)
    (hk : ∀ a, Awaits limits capacity (demands' a) (k a) (k' a)) :
    Awaits limits capacity (demands ++ onward ideal demands') (ideal >>= k) (r >>= k') := by
  obtain ⟨hample, rfl⟩ := h
  refine ⟨hample.bind fun a => (hk a).1, ?_⟩
  cases ideal with
  | error e => simp only [onward, List.append_nil, bind_assoc, Except.error_bind]
  | ok a => simp only [onward, List.forM_append, bind_assoc, Except.ok_bind, (hk a).2]

theorem andThen {k : α → Except Stop β} (h : Awaits limits capacity demands ideal r)
    (hk : ∀ a, Ample (k a)) : Awaits limits capacity demands (ideal >>= k) (r >>= k) := by
  obtain ⟨hample, rfl⟩ := h
  exact ⟨hample.bind hk, bind_assoc _ _ _⟩

theorem map (h : Awaits limits capacity demands ideal r) (f : α → β) :
    Awaits limits capacity demands (ideal.map f) (r.map f) := by
  obtain ⟨hample, rfl⟩ := h
  refine ⟨hample.map f, ?_⟩
  cases forM demands (meet limits capacity) <;> rfl

theorem eq_error {stop : Stop} (h : Awaits limits capacity demands ideal r)
    (hstop : demands.findSome? (Demand.refusal? limits capacity) = some stop) :
    r = .error stop := by
  rw [h.2, Demand.forM_meet, hstop]
  rfl

theorem ample (h : Awaits limits capacity demands ideal r)
    (hmet : demands.findSome? (Demand.refusal? limits capacity) = none) : Ample r := by
  rw [h.2, Demand.forM_meet, hmet]
  exact h.1

end Awaits

open Inspect (record)
open RemoteInspect.Tree (ofOption lookUp)

variable {limits : Limits} {t : Target} {n : Nat}

def Meaning.demands (t : Target) (n : Nat) : Meaning → List Demand
  | scalar _ => [.room n]
  | tree u => (u.visits t 0 n).map .step

@[simp] theorem onward_unlimited (m : Meaning) (demands : Live → List Demand) :
    onward (m.unlimited t) demands = onward (m.value t) demands :=
  onward_mapError _ _ _

theorem Meaning.awaits (m : Meaning) :
    Awaits limits t.capacity (m.demands t n) (m.unlimited t) (m.limited limits t n) := by
  cases m with
  | scalar s => exact (Awaits.room n).map fun _ => Live.scalar s
  | tree u =>
    refine ⟨.mapError fun f hf => (Tree.value_error hf).1, ?_⟩
    simp only [demands, List.forM_map, Demand.meet_step]
    rfl

namespace Answer

variable {α : Type} {base key : Value} {b k : Meaning} {v : Live} {h : Handle}

theorem baseHandle_ample (expected : Expectation) :
    Ample ((baseHandle t base expected v).mapError Stop.failure) := by
  refine .mapError fun f hf => ?_
  cases base with
  | scalar s => cases hf; rfl
  | handle h =>
    obtain ⟨kind, rfl⟩ := Tree.checkKind_error (Except.map_eq_error_iff.mp hf)
    rfl

theorem published_ample (v : Live) (lazy : Except Fault Handle) : Ample (published v lazy) := by
  cases v with
  | scalar s => exact .ok _
  | object id =>
    cases lazy with
    | ok h => exact .ok _
    | error f => exact .fault f

theorem kindOf_ample (v : Live) : Ample (kindOf t v) := by
  rw [kindOf]
  cases t.kind? v with
  | some kind => exact .ok kind
  | none => exact .fault _

def ofBase (t : Target) (n : Nat) (base : Value) (expected : Expectation) (b : Meaning)
    (demands : List Demand) : List Demand :=
  b.demands t n ++ onward (b.value t) fun v =>
    onward (baseHandle t base expected v) fun _ => demands

theorem ofBase_awaits {expected : Expectation} {demands : List Demand}
    {k k' : Live → Handle → Except Stop α}
    (hk : ∀ v h, Awaits limits t.capacity demands (k v h) (k' v h)) :
    Awaits limits t.capacity (ofBase t n base expected b demands) (do
      let v ← b.unlimited t
      let h ← (baseHandle t base expected v).mapError Stop.failure
      k v h) (do
      let v ← b.limited limits t n
      let h ← (baseHandle t base expected v).mapError Stop.failure
      k' v h) := by
  have hbind : Awaits limits t.capacity (b.demands t n ++ onward (b.unlimited t) fun v =>
      onward ((baseHandle t base expected v).mapError Stop.failure) fun _ => demands) _ _ :=
    b.awaits.bind fun v => (Awaits.now (baseHandle_ample expected)).bind (hk v)
  simpa only [ofBase, onward_unlimited, onward_mapError] using hbind

variable {room : Except Stop Unit}

theorem ofOption_ample (what : Missing) (v? : Option Live) :
    Ample ((ofOption what v?).mapError Stop.failure) :=
  .mapError fun f hf => by rw [Tree.ofOption_error hf]; rfl

theorem lookUp_ample (lookup : Lookup) (table key : Live) :
    Ample ((lookUp t lookup table key).mapError Stop.failure) :=
  .mapError fun f hf => by obtain rfl | rfl := Tree.lookUp_error hf <;> rfl

theorem query_awaits (h : Handle) :
    Awaits limits t.capacity (b.demands t n) (query t h (b.unlimited t))
      (query t h (b.limited limits t n)) := by
  refine b.awaits.andThen fun v => ?_
  cases t.kind? v with
  | some kind => exact (published_ample v _).map _
  | none => exact .fault _

theorem typeOf_awaits : Awaits limits t.capacity (b.demands t n) (typeOf t (b.unlimited t))
    (typeOf t (b.limited limits t n)) :=
  b.awaits.andThen kindOf_ample

theorem display_awaits : Awaits limits t.capacity (b.demands t n) (display t (b.unlimited t))
    (display t (b.limited limits t n)) := by
  refine b.awaits.andThen fun v => ?_
  cases v.copy? with
  | some s => exact .ok s
  | none => exact (kindOf_ample v).map _

theorem describeCallable_awaits (symbols : UInt64 → Symbol) :
    Awaits limits t.capacity (b.demands t n) (describeCallable t symbols (b.unlimited t))
      (describeCallable t symbols (b.limited limits t n)) := by
  refine b.awaits.andThen fun v => ?_
  cases t.code? v with
  | none => exact .ok _
  | some code => cases code <;> exact .ok _

def indexDemands (t : Target) (n : Nat) (base key : Value) (b k : Meaning) : List Demand :=
  if key = .scalar .nil then []
  else ofBase t n base .table b (k.demands t (n + 1) ++ onward (k.value t) fun v =>
    if record key v = .constant .nil then [] else [.room (n + 2)])

theorem index_awaits :
    Awaits limits t.capacity (indexDemands t n base key b k)
      (index t base key (b.unlimited t) (k.unlimited t) (.ok ()))
      (index t base key (b.limited limits t n) (k.limited limits t (n + 1))
        (reservation limits t.capacity (n + 2))) := by
  rw [indexDemands, index, index]
  by_cases hnil : key = .scalar .nil
  · simp only [hnil, ↓reduceIte]
    exact .now (.failure rfl)
  simp only [hnil, ↓reduceIte]
  refine ofBase_awaits fun table h => ?_
  rw [← onward_unlimited]
  refine k.awaits.bind fun v => ?_
  by_cases hrecord : record key v = .constant .nil
  · simp only [hrecord, ↓reduceIte]
    exact .now (.failure rfl)
  · simp only [hrecord, ↓reduceIte]
    exact (Awaits.room (n + 2)).andThen fun _ =>
      (lookUp_ample .get table v).bind fun v' => published_ample v' _

/-- The demands of an iteration, the last key of which is never refused as nil. -/
def nextDemands (t : Target) (n : Nat) (base : Value) (b k : Meaning) : List Demand :=
  ofBase t n base .table b (k.demands t (n + 1) ++ onward (k.value t) fun _ => [.room (n + 2)])

theorem next_awaits {last : Value} :
    Awaits limits t.capacity (nextDemands t n base b k)
      (next t base last (b.unlimited t) (k.unlimited t) (.ok ()))
      (next t base last (b.limited limits t n) (k.limited limits t (n + 1))
        (reservation limits t.capacity (n + 2))) := by
  refine ofBase_awaits fun table h => ?_
  rw [← onward_unlimited]
  refine k.awaits.bind fun v => (Awaits.room (n + 2)).andThen fun _ => ?_
  cases t.rawNext table v with
  | entry key v =>
    refine (published_ample _ _).bind fun key => (published_ample _ _).bind fun value => ?_
    exact .ok _
  | finished => exact .ok none
  | unknownKey => exact .failure rfl

theorem upvalue_awaits (i : UInt32) :
    Awaits limits t.capacity (ofBase t n base .function b [.room (n + 1)])
      (upvalue t base i (b.unlimited t) (.ok ()))
      (upvalue t base i (b.limited limits t n) (reservation limits t.capacity (n + 1))) := by
  refine ofBase_awaits fun function h => (Awaits.room (n + 1)).andThen fun _ => ?_
  cases t.upvalue? function i with
  | some binding => exact (published_ample _ _).map _
  | none => exact .failure rfl

def metatableDemands (t : Target) (n : Nat) (base : Value) (b : Meaning) : List Demand :=
  b.demands t n ++ onward (b.value t) fun v => match t.kind? v with
    | some kind => onward (metatableHandle base kind) fun _ => [.room (n + 1)]
    | none => []

theorem metatableHandle_ample (base : Value) (kind : Kind) :
    Ample ((metatableHandle base kind).mapError Stop.failure) := by
  refine .mapError fun f hf => ?_
  unfold metatableHandle at hf
  split at hf
  · cases base with
    | handle h => cases hf
    | scalar s => cases hf; rfl
  · split at hf <;> cases hf
    rfl

theorem metatable_awaits :
    Awaits limits t.capacity (metatableDemands t n base b)
      (metatable t base (b.unlimited t) (.ok ()))
      (metatable t base (b.limited limits t n) (reservation limits t.capacity (n + 1))) := by
  rw [metatableDemands, ← onward_unlimited]
  refine b.awaits.bind fun v => ?_
  cases t.kind? v with
  | none => exact .now (.fault _)
  | some kind =>
    have hhandle : Awaits limits t.capacity (onward _ fun _ => [Demand.room (n + 1)]) _ _ :=
      (Awaits.now (metatableHandle_ample base kind)).bind fun h =>
        (Awaits.room (n + 1)).andThen fun _ => (ofOption_ample .metatable (t.metatable? v)).bind
          fun _ => .ok h
    rwa [onward_mapError] at hhandle

theorem userPayload_awaits :
    Awaits limits t.capacity (ofBase t n base .userdata b [.room (n + 1)])
      (userPayload t base (b.unlimited t) (.ok ()))
      (userPayload t base (b.limited limits t n) (reservation limits t.capacity (n + 1))) :=
  ofBase_awaits fun v _ => (Awaits.room (n + 1)).andThen fun _ =>
    (ofOption_ample .payload (t.payload? v)).bind fun payload => published_ample payload _

def frameLocalDemands (t : Target) (n : Nat) (frame : UInt16) : List Demand :=
  if t.hasFrame frame then [.room n] else []

theorem frameLocal_awaits (frame : UInt16) (slot : UInt32) :
    Awaits limits t.capacity (frameLocalDemands t n frame) (frameLocal t frame slot (.ok ()))
      (frameLocal t frame slot (reservation limits t.capacity n)) := by
  rw [frameLocalDemands, frameLocal, frameLocal]
  by_cases hframe : t.hasFrame frame
  · simp only [hframe, ↓reduceIte]
    refine (Awaits.room n).andThen fun _ => ?_
    cases t.frameLocal? frame slot with
    | some binding => exact (published_ample _ _).map _
    | none => exact .failure rfl
  · simp only [hframe, ↓reduceIte, Bool.false_eq_true]
    exact .now (.failure rfl)

theorem frameFunction_awaits (frame : UInt16) :
    Awaits limits t.capacity [.room n] (frameFunction t frame (.ok ()))
      (frameFunction t frame (reservation limits t.capacity n)) :=
  (Awaits.room n).andThen fun _ => (ofOption_ample (.frame frame) (t.frameFunction? frame)).bind
    fun _ => .ok _

end Answer

end RemoteInspect
