import RemoteInspect.Proofs.Inspect.Runs
import RemoteInspect.Proofs.Target.Reading

namespace RemoteInspect

open Inspect (reservation)

/-- A node when it is entered: the steps above it, and how many values are pinned. -/
structure Visit where
  depth : Nat
  pinned : Nat
deriving DecidableEq, Repr

def Visit.allow (limits : Limits) (capacity : Nat) (x : Visit) : Except Stop Unit :=
  if limits.recursion ≤ x.depth then
    .error (.failure (.exhausted (.recursionLimit limits.recursion)))
  else reservation limits capacity x.pinned

def Visit.Overflows (limits : Limits) (x : Visit) : Prop :=
  x.depth < limits.recursion ∧ Target.sizeLimit ≤ x.pinned + limits.reserve

theorem Visit.allow_eq_fault_iff {limits : Limits} {capacity : Nat} {x : Visit} {f : Fault} :
    x.allow limits capacity = .error (.fault f) ↔ f = .outOfRange ∧ x.Overflows limits := by
  rw [allow, Overflows, reservation]
  split <;> (try split) <;> (try split) <;> simp [eq_comm] <;> omega

theorem Visit.allow_failure {limits : Limits} {capacity : Nat} {x : Visit} {f : Failure}
    (h : x.allow limits capacity = .error (.failure f)) : ∃ what, f = .exhausted what := by
  rw [allow, reservation] at h
  split at h
  · cases h
    exact ⟨_, rfl⟩
  · split at h
    · cases h
    · split at h <;> cases h
      exact ⟨_, rfl⟩

theorem Visit.depth_of_allow {limits : Limits} {capacity : Nat} {x : Visit}
    (h : x.allow limits capacity = .ok ()) : x.depth < limits.recursion := by
  rw [allow] at h
  split at h
  · cases h
  · exact Nat.lt_of_not_le ‹_›

theorem Visit.room_of_allow {limits : Limits} {capacity : Nat} {x : Visit}
    (h : x.allow limits capacity = .ok ()) : x.pinned + limits.reserve ≤ capacity := by
  rw [allow] at h
  split at h
  · cases h
  · exact Inspect.room_of_reservation h

namespace Tree

/-- The nodes that are entered without limits. The base of an object key is pinned while the key is
followed. -/
def visits (t : Target) (depth n : Nat) : Tree Scalar → List Visit
  | frameLocal .. | frameFunction _ | root _ | kindMetatable _ => [⟨depth, n⟩]
  | index _ base _ | upvalue base _ | metatable base | userPayload base =>
    ⟨depth, n⟩ :: base.visits t (depth + 1) n
  | indexObject _ base key => ⟨depth, n⟩ :: (base.visits t (depth + 1) n ++
      match base.value t >>= checkKind t .table with
      | .ok _ => key.visits t (depth + 1) (n + 1)
      | .error _ => [])

theorem exists_visits_eq_cons (tree : Tree Scalar) (t : Target) (depth n : Nat) :
    ∃ rest, tree.visits t depth n = ⟨depth, n⟩ :: rest := by
  cases tree <;> exact ⟨_, rfl⟩

/-- What holds of a first node and is passed on to each next one, with the base of a key pinned or
not, holds of all nodes that are entered. -/
theorem forall_mem_visits {P : Visit → Prop} {t : Target}
    (hbase : ∀ depth n, P ⟨depth, n⟩ → P ⟨depth + 1, n⟩)
    (hkey : ∀ depth n, P ⟨depth, n⟩ → P ⟨depth + 1, n + 1⟩) {tree : Tree Scalar} {depth n : Nat}
    (h : P ⟨depth, n⟩) : ∀ x ∈ tree.visits t depth n, P x := by
  induction tree generalizing depth n with
  | frameLocal | frameFunction | root | kindMetatable => exact List.forall_mem_singleton.mpr h
  | index _ base _ ih | upvalue base _ ih | metatable base ih | userPayload base ih =>
    exact List.forall_mem_cons.mpr ⟨h, ih (hbase depth n h)⟩
  | indexObject lookup base key ihb ihk =>
    refine List.forall_mem_cons.mpr ⟨h, List.forall_mem_append.mpr ⟨ihb (hbase depth n h), ?_⟩⟩
    cases base.value t >>= checkKind t .table with
    | ok _ => exact ihk (hkey depth n h)
    | error _ => exact fun x hx => absurd hx List.not_mem_nil

/-- The value under limits, for a node below `depth` others and with `n` values pinned. -/
def limited (limits : Limits) (t : Target) (depth n : Nat) (tree : Tree Scalar) :
    Except Stop Live := do
  forM (tree.visits t depth n) (Visit.allow limits t.capacity)
  (tree.value t).mapError Stop.failure

variable {limits : Limits} {t : Target} {depth n : Nat}

theorem limited_eq_ok_iff {tree : Tree Scalar} {v : Live} :
    tree.limited limits t depth n = .ok v ↔
      forM (tree.visits t depth n) (Visit.allow limits t.capacity) = .ok () ∧
        tree.value t = .ok v := by
  rw [limited, Except.bind_eq_ok_iff]
  simp only [Except.mapError_eq_ok_iff]
  exact ⟨fun ⟨_, h⟩ => h, fun h => ⟨(), h⟩⟩

theorem limited_eq_error_iff {tree : Tree Scalar} {e : Stop} :
    tree.limited limits t depth n = .error e ↔
      forM (tree.visits t depth n) (Visit.allow limits t.capacity) = .error e ∨
        forM (tree.visits t depth n) (Visit.allow limits t.capacity) = .ok () ∧
          ∃ f, tree.value t = .error f ∧ e = .failure f := by
  rw [limited]
  cases forM (tree.visits t depth n) (Visit.allow limits t.capacity) with
  | error e' => simp
  | ok u => cases tree.value t <;> simp [eq_comm]

theorem limited_of_leaf {tree : Tree Scalar} (h : tree.visits t depth n = [⟨depth, n⟩]) :
    tree.limited limits t depth n = (do
      Visit.allow limits t.capacity ⟨depth, n⟩
      (tree.value t).mapError Stop.failure) := by
  simp only [limited, h, List.forM_cons, List.forM_nil, bind_pure_unit]

theorem limited_of_based {tree base : Tree Scalar} {k : Live → Except Failure Live}
    (hvisits : tree.visits t depth n = ⟨depth, n⟩ :: base.visits t (depth + 1) n)
    (hvalue : tree.value t = base.value t >>= k) :
    tree.limited limits t depth n = (do
      Visit.allow limits t.capacity ⟨depth, n⟩
      let v ← base.limited limits t (depth + 1) n
      (k v).mapError Stop.failure) := by
  simp only [limited, hvisits, hvalue, List.forM_cons, Except.mapError_bind, bind_assoc]

theorem limited_indexObject (lookup : Lookup) (base key : Tree Scalar) :
    (indexObject lookup base key).limited limits t depth n = (do
      Visit.allow limits t.capacity ⟨depth, n⟩
      let v ← base.limited limits t (depth + 1) n
      let table ← (checkKind t .table v).mapError Stop.failure
      let k ← key.limited limits t (depth + 1) (n + 1)
      (lookUp t lookup table k).mapError Stop.failure) := by
  simp only [limited, visits, value, List.forM_cons, List.forM_append, bind_assoc]
  cases hb : base.value t with
  | error f => simp
  | ok v =>
    cases hc : checkKind t .table v with
    | error f => simp [hc]
    | ok table => simp [hc, Except.mapError_bind]

/-- The first node that is refused asks for more slots than a word can count. -/
def Overflows (limits : Limits) (t : Target) (n : Nat) (tree : Tree Scalar) : Prop :=
  ∃ before x after, tree.visits t 0 n = before ++ x :: after ∧
    (∀ y ∈ before, y.allow limits t.capacity = .ok ()) ∧ x.Overflows limits

theorem limited_eq_fault_iff {tree : Tree Scalar} {f : Fault} :
    tree.limited limits t 0 n = .error (.fault f) ↔
      f = .outOfRange ∧ tree.Overflows limits t n := by
  have hvalue : (tree.value t).mapError Stop.failure ≠ .error (.fault f) := by
    cases tree.value t <;> simp
  have hfault : forM (tree.visits t 0 n) (Visit.allow limits t.capacity) = .error (.fault f) ↔
      f = .outOfRange ∧ tree.Overflows limits t n := by
    rw [Except.forM_eq_error_iff]
    constructor
    · rintro ⟨before, x, after, hsplit, hbefore, hx⟩
      obtain ⟨hf, hx⟩ := Visit.allow_eq_fault_iff.mp hx
      exact ⟨hf, before, x, after, hsplit, hbefore, hx⟩
    · rintro ⟨hf, before, x, after, hsplit, hbefore, hx⟩
      exact ⟨before, x, after, hsplit, hbefore, Visit.allow_eq_fault_iff.mpr ⟨hf, hx⟩⟩
  rw [limited, ← hfault]
  cases forM (tree.visits t 0 n) (Visit.allow limits t.capacity) with
  | ok u => simp [hvalue]
  | error e => simp

theorem limited_cases (limits : Limits) (t : Target) (n : Nat) (tree : Tree Scalar) :
    tree.limited limits t 0 n = (tree.value t).mapError Stop.failure ∨
      (∃ what, tree.limited limits t 0 n = .error (.failure (.exhausted what))) ∨
      tree.limited limits t 0 n = .error (.fault .outOfRange) ∧ tree.Overflows limits t n := by
  cases hlimited : tree.limited limits t 0 n with
  | ok v =>
    simp only [limited, Except.bind_eq_ok_iff] at hlimited
    obtain ⟨_, _, hvalue⟩ := hlimited
    exact .inl hvalue.symm
  | error e =>
    cases hvisits : forM (tree.visits t 0 n) (Visit.allow limits t.capacity) with
    | ok u =>
      rw [limited, hvisits] at hlimited
      exact .inl hlimited.symm
    | error e' =>
      have he : e' = e := by
        rw [limited, hvisits] at hlimited
        exact Except.error.inj hlimited
      subst he
      cases e' with
      | failure f =>
        obtain ⟨_, x, _, _, _, hx⟩ := Except.forM_eq_error_iff.mp hvisits
        obtain ⟨what, rfl⟩ := Visit.allow_failure hx
        exact .inr (.inl ⟨what, rfl⟩)
      | fault f =>
        obtain ⟨rfl, hover⟩ := limited_eq_fault_iff.mp hlimited
        exact .inr (.inr ⟨rfl, hover⟩)

theorem pinned_lt_of_mem_visits {tree : Tree Scalar} {x : Visit}
    (hx : x ∈ tree.visits t depth n) : x.pinned < n + tree.size := by
  induction tree generalizing depth n with
  | frameLocal | frameFunction | root | kindMetatable =>
    rw [List.mem_singleton.mp hx]
    exact Nat.lt_succ_self n
  | index _ base _ ih | upvalue base _ ih | metatable base ih | userPayload base ih =>
    obtain rfl | hx := List.mem_cons.mp hx
    · simp only [size]
      omega
    · have := ih hx
      simp only [size]
      omega
  | indexObject lookup base key ihb ihk =>
    simp only [visits, List.mem_cons, List.mem_append] at hx
    simp only [size]
    obtain rfl | hx | hx := hx
    · simp only
      omega
    · have := ihb hx
      omega
    · split at hx
      · have := ihk hx
        omega
      · cases hx

end Tree

end RemoteInspect
