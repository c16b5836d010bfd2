import Mathlib.Algebra.Group.Nat.Defs
import RemoteInspect.Proofs.Inspect.Entering
import RemoteInspect.Proofs.Inspect.Refinement

namespace RemoteInspect

def Target.withRoom (t : Target) (n capacity : Nat) : Target := { t with pinned := n, capacity }

namespace Target

variable {t : Target}

theorem Sound.withRoom (ht : t.Sound) (n capacity : Nat) : (t.withRoom n capacity).Sound :=
  ht.of_heap_eq rfl rfl fun f hf => ⟨ht.functions f hf, ht.locals f hf⟩

end Target

namespace Visit

variable {limits : Limits} {capacity n : Nat}

def above (n : Nat) (x : Visit) : Visit := ⟨x.depth, n + x.pinned⟩

def Fits (limits : Limits) (n : Nat) (x : Visit) : Prop :=
  n + x.pinned + limits.reserve < Target.sizeLimit

def refusal? (limits : Limits) (capacity n : Nat) (x : Visit) : Option Exhaustion :=
  if limits.recursion ≤ x.depth then some (.recursionLimit limits.recursion)
  else if capacity < n + x.pinned + limits.reserve then some .workingArea
  else none

theorem refusal?_eq_none_iff {x : Visit} : x.refusal? limits capacity n = none ↔
    ¬ (limits.recursion ≤ x.depth ∨ capacity < n + x.pinned + limits.reserve) := by
  rw [refusal?]
  split <;> (try split) <;> simp <;> omega

theorem exists_refusal?_iff {xs : List Visit} :
    (∃ what, xs.findSome? (refusal? limits capacity n) = some what) ↔
      ∃ x ∈ xs, limits.recursion ≤ x.depth ∨ capacity < n + x.pinned + limits.reserve := by
  rw [← Option.isSome_iff_exists, List.findSome?_isSome_iff]
  refine exists_congr fun x => and_congr_right fun _ => ?_
  rw [← Option.ne_none_iff_isSome, ne_eq, refusal?_eq_none_iff, Decidable.not_not]

theorem refusal?_mono {limits' : Limits} {capacity' : Nat} {x : Visit}
    (hrecursion : limits.recursion ≤ limits'.recursion)
    (hreserve : limits'.reserve ≤ limits.reserve) (hcapacity : capacity ≤ capacity')
    (hx : x.refusal? limits capacity n = none) : x.refusal? limits' capacity' n = none := by
  rw [refusal?_eq_none_iff] at hx ⊢
  omega

theorem allow_above {x : Visit} (hx : x.Fits limits n) :
    (x.above n).allow limits capacity = match x.refusal? limits capacity n with
      | some what => .error (.failure (.exhausted what))
      | none => .ok () := by
  rw [Fits] at hx
  by_cases hd : limits.recursion ≤ x.depth
  · simp [allow, above, refusal?, hd]
  · by_cases hc : capacity < n + x.pinned + limits.reserve
    · simp [allow, above, refusal?, Inspect.reservation, hd, hc, Nat.not_le.mpr hx,
        Nat.not_le.mpr hc]
    · simp [allow, above, refusal?, Inspect.reservation, hd, hc, Nat.not_le.mpr hx,
        Nat.not_lt.mp hc]

theorem forM_allow_above (capacity : Nat) {xs : List Visit} (hxs : ∀ x ∈ xs, x.Fits limits n) :
    forM (xs.map (above n)) (allow limits capacity) =
      match xs.findSome? (refusal? limits capacity n) with
      | some what => .error (.failure (.exhausted what))
      | none => .ok () := by
  induction xs with
  | nil => rfl
  | cons x rest ih =>
    rw [List.forall_mem_cons] at hxs
    rw [List.map_cons, List.forM_cons, allow_above hxs.1, List.findSome?_cons]
    cases x.refusal? limits capacity n with
    | some what => rfl
    | none => exact ih hxs.2

theorem admitted_above {xs : List Visit} (hxs : ∀ x ∈ xs, x.Fits limits n) :
    admitted limits capacity (xs.map (above n)) =
      (xs.takeWhile fun x => (x.refusal? limits capacity n).isNone).map depth := by
  induction xs with
  | nil => rfl
  | cons x rest ih =>
    rw [List.forall_mem_cons] at hxs
    rw [List.map_cons, admitted, allow_above hxs.1, List.takeWhile_cons]
    cases x.refusal? limits capacity n with
    | some what => rfl
    | none => exact congrArg (x.depth :: ·) (ih hxs.2)

end Visit

namespace Tree

variable {t : Target} {n capacity : Nat}

theorem value_withRoom (tree : Tree Scalar) :
    tree.value (t.withRoom n capacity) = tree.value t := by
  induction tree with
  | frameLocal | frameFunction | root | kindMetatable => rfl
  | index lookup base key ih =>
    rw [value, value, ih]
    rfl
  | indexObject lookup base key ihb ihk =>
    rw [value, value, ihb, ihk]
    rfl
  | upvalue base _ ih | metatable base ih | userPayload base ih =>
    rw [value, value, ih]
    rfl

theorem visits_withRoom (tree : Tree Scalar) (depth k : Nat) :
    tree.visits (t.withRoom n capacity) depth k = tree.visits t depth k := by
  induction tree generalizing depth k with
  | frameLocal | frameFunction | root | kindMetatable => rfl
  | index _ base _ ih | upvalue base _ ih | metatable base ih | userPayload base ih =>
    rw [visits, visits, ih]
  | indexObject lookup base key ihb ihk =>
    rw [visits, visits, ihb, value_withRoom, ihk]
    rfl

theorem visits_above (tree : Tree Scalar) (depth k : Nat) :
    tree.visits t depth (n + k) = (tree.visits t depth k).map (Visit.above n) := by
  induction tree generalizing depth k with
  | frameLocal | frameFunction | root | kindMetatable => rfl
  | index _ base _ ih | upvalue base _ ih | metatable base ih | userPayload base ih =>
    rw [visits, visits, ih]
    rfl
  | indexObject lookup base key ihb ihk =>
    rw [visits, visits, List.map_cons, List.map_append, ihb, Nat.add_assoc n k 1, ihk]
    cases base.value t >>= checkKind t .table <;> rfl

/-- Within words, the first node that is refused decides, and else the value. -/
theorem limited_withRoom {limits : Limits} {tree : Tree Scalar}
    (hfits : ∀ x ∈ tree.visits t 0 0, x.Fits limits n) :
    tree.limited limits (t.withRoom n capacity) 0 n =
      match (tree.visits t 0 0).findSome? (Visit.refusal? limits capacity n) with
      | some what => .error (.failure (.exhausted what))
      | none => (tree.value t).mapError Stop.failure := by
  have hvisits :
      tree.visits (t.withRoom n capacity) 0 n = (tree.visits t 0 0).map (Visit.above n) := by
    rw [visits_withRoom]
    exact visits_above tree 0 0
  have hforM := Visit.forM_allow_above capacity hfits
  rw [limited, hvisits, value_withRoom]
  change (forM _ (Visit.allow limits capacity) >>= _) = _
  rw [hforM]
  cases (tree.visits t 0 0).findSome? (Visit.refusal? limits capacity n) <;> rfl

end Tree

namespace Inspect

variable {t : Target}

theorem evaluate_withRoom (ht : t.Sound) {h : Handle} {tree : Tree Scalar} (hh : h.Denotes tree)
    {limits : Limits} {n : Nat} (capacity : Nat)
    (hfits : ∀ x ∈ tree.visits t 0 0, x.Fits limits n) :
    ((evaluate h).outcome limits (t.withRoom n capacity)).result =
      match (tree.visits t 0 0).findSome? (Visit.refusal? limits capacity n) with
      | some what => .error (.failure (.exhausted what))
      | none => (tree.value t).mapError Stop.failure := by
  have hruns : Runs limits (t.withRoom n capacity) n 1 (evaluate h) _ :=
    evaluate_runs (ht.withRoom n capacity) hh n
  rw [hruns.outcome, Tree.limited_withRoom hfits]

theorem exhausted_iff {h : Handle} {tree : Tree Scalar} (ht : t.Sound) (hh : h.Denotes tree)
    {limits : Limits} {n : Nat} (capacity : Nat)
    (hfits : ∀ x ∈ tree.visits t 0 0, x.Fits limits n) :
    (∃ what, ((evaluate h).outcome limits (t.withRoom n capacity)).result =
        .error (.failure (.exhausted what))) ↔
      ∃ what, (tree.visits t 0 0).findSome? (Visit.refusal? limits capacity n) = some what := by
  rw [evaluate_withRoom ht hh capacity hfits]
  cases (tree.visits t 0 0).findSome? (Visit.refusal? limits capacity n) with
  | some what => exact ⟨fun _ => ⟨what, rfl⟩, fun _ => ⟨what, rfl⟩⟩
  | none =>
    simp only [reduceCtorEq, exists_false, iff_false, not_exists]
    intro what hvalue
    cases hv : tree.value t with
    | ok v =>
      rw [hv] at hvalue
      cases hvalue
    | error f =>
      rw [hv] at hvalue
      cases hvalue
      cases (Tree.value_error hv).1

/-- Let `nodes` be those that are entered without limits. A resource is exhausted if and only if one
of them is too deep, or needs more room than there is; the first of these gives the failure, and no
step is entered after it. Else there is the value, or failure, that there is without limits. So what
is no exhaustion stays the same when there is more of anything. -/
theorem evaluate_exhausted_iff {h : Handle} (hh : h.Built) (ht : t.Reachable) :
    ∃ tree, h.HasTree tree ∧
      let nodes := tree.visits t 0 0
      ∀ limits n capacity, (∀ x ∈ nodes, n + x.pinned + limits.reserve < 2 ^ 64) →
        let out := (evaluate h).outcome limits (t.withRoom n capacity)
        ((∃ what, out.result = .error (.failure (.exhausted what))) ↔
          ∃ x ∈ nodes, limits.recursion ≤ x.depth ∨ capacity < n + x.pinned + limits.reserve) ∧
        (∀ what, nodes.findSome? (Visit.refusal? limits capacity n) = some what →
          out.result = .error (.failure (.exhausted what))) ∧
        (nodes.findSome? (Visit.refusal? limits capacity n) = none →
          out.result = (tree.value t).mapError Stop.failure) ∧
        out.session.entered =
          (nodes.takeWhile fun x => (x.refusal? limits capacity n).isNone).map Visit.depth ∧
        ∀ limits' capacity', limits.recursion ≤ limits'.recursion →
          limits'.reserve ≤ limits.reserve → capacity ≤ capacity' →
          (∀ what, out.result ≠ .error (.failure (.exhausted what))) →
          ((evaluate h).outcome limits' (t.withRoom n capacity')).result = out.result := by
  obtain ⟨tree, htree⟩ := hh.denotes
  refine ⟨tree, htree.hasTree, fun limits n capacity hfits => ?_⟩
  have hresult := evaluate_withRoom ht.sound htree capacity hfits
  have hexhausted := exhausted_iff ht.sound htree capacity hfits
  refine ⟨?_, ?_, ?_, ?_, ?_⟩
  · exact hexhausted.trans Visit.exists_refusal?_iff
  · intro what hwhat
    rw [hresult, hwhat]
  · intro hnone
    rw [hresult, hnone]
  · have henters : Enters limits (t.withRoom n capacity) n (evaluate h) _ :=
      evaluate_enters (ht.sound.withRoom n capacity) htree n
    rw [henters.outcome, Tree.visits_withRoom, ← Visit.admitted_above hfits]
    exact congrArg (Visit.admitted limits capacity) (Tree.visits_above tree 0 0)
  · intro limits' capacity' hrecursion hreserve hcapacity hroom
    have hnone : (tree.visits t 0 0).findSome? (Visit.refusal? limits capacity n) = none := by
      cases hrefusal : (tree.visits t 0 0).findSome? (Visit.refusal? limits capacity n) with
      | none => rfl
      | some what => exact absurd (hresult.trans (by rw [hrefusal])) (hroom what)
    have hnone' : (tree.visits t 0 0).findSome? (Visit.refusal? limits' capacity' n) = none := by
      rw [List.findSome?_eq_none_iff] at hnone ⊢
      exact fun x hx => Visit.refusal?_mono hrecursion hreserve hcapacity (hnone x hx)
    have hfits' : ∀ x ∈ tree.visits t 0 0, x.Fits limits' n :=
      fun x hx => Nat.lt_of_le_of_lt (Nat.add_le_add_left hreserve _) (hfits x hx)
    rw [hresult, evaluate_withRoom ht.sound htree capacity' hfits', hnone, hnone']

/-- The base of the object key is pinned while the key is followed, one level deeper than the base
goes. -/
theorem evaluate_exhausted_iff_linked :
    let one : Scalar := .float ⟨0x3FF0000000000000⟩
    let h : Handle := ⟨⟨[.indexObject .get 2, .index .get 1, .root .globals,
      .index .get 3, .index .get 2, .root .globals]⟩, ⟨[.string [107], .string [107], one]⟩⟩
    ∃ tree, h.HasTree tree ∧
      tree.visits Target.linked 0 0 = [⟨0, 0⟩, ⟨1, 0⟩, ⟨2, 0⟩, ⟨1, 1⟩, ⟨2, 1⟩, ⟨3, 1⟩] ∧
      ((evaluate h).outcome ⟨3, 3⟩ (Target.linked.withRoom 0 3)).result =
        .error (.failure (.exhausted .workingArea)) ∧
      ((evaluate h).outcome ⟨3, 3⟩ (Target.linked.withRoom 0 4)).result =
        .error (.failure (.exhausted (.recursionLimit 3))) ∧
      ((evaluate h).outcome ⟨3, 3⟩ (Target.linked.withRoom 0 4)).session.entered =
        [0, 1, 2, 1, 2] ∧
      ((evaluate h).outcome ⟨4, 3⟩ (Target.linked.withRoom 0 4)).result = .ok (.object 3) ∧
      ((evaluate h).outcome ⟨5, 2⟩ (Target.linked.withRoom 0 9)).result = .ok (.object 3) := by
  intro one h
  have htable : Handle.Built ⟨⟨[.index .get 1, .root .globals]⟩, ⟨[.string [107]]⟩⟩ :=
    @Handle.Built.index _ _ (.string [107]) (.root .globals) rfl
  have hkey : Handle.Built ⟨⟨[.index .get 2, .index .get 1, .root .globals]⟩,
      ⟨[.string [107], one]⟩⟩ := @Handle.Built.index _ _ one htable rfl
  have hh : h.Built := @Handle.Built.indexObject _ _ _ .get htable hkey rfl
  obtain ⟨tree, htree, hlimits⟩ := evaluate_exhausted_iff hh Target.reachable_linked
  have hshape := (htree (.indexObject .get (.index .get (.root .globals) (.string [107]))
      (.index .get (.index .get (.root .globals) (.string [107])) one))).mp
    ⟨.indexObject .get (.index .get (.root .globals) 1)
      (.index .get (.index .get (.root .globals) 2) 3), ⟨by decide, trivial, trivial⟩, rfl, rfl⟩
  have hvisits : tree.visits Target.linked 0 0 =
      [⟨0, 0⟩, ⟨1, 0⟩, ⟨2, 0⟩, ⟨1, 1⟩, ⟨2, 1⟩, ⟨3, 1⟩] := by
    rw [← hshape]
    rfl
  have hvalue : tree.value Target.linked = .ok (.object 3) := by
    rw [← hshape]
    rfl
  rw [hvisits] at hlimits
  obtain ⟨-, hroom, -⟩ := hlimits ⟨3, 3⟩ 0 3 (by decide)
  obtain ⟨-, hdepth, -, hentered, -⟩ := hlimits ⟨3, 3⟩ 0 4 (by decide)
  obtain ⟨-, -, hfree, -, hmore⟩ := hlimits ⟨4, 3⟩ 0 4 (by decide)
  have hok := hfree rfl
  rw [hvalue] at hok
  refine ⟨tree, htree, hvisits, hroom _ rfl, hdepth _ rfl, hentered, hok, ?_⟩
  rw [hmore ⟨5, 2⟩ 9 (by decide) (by decide) (by decide) (by simp [hok])]
  exact hok

end Inspect

end RemoteInspect
