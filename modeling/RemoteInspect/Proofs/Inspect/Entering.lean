import RemoteInspect.Proofs.Inspect.Measures

namespace RemoteInspect

def Event.enteredDepth? : Event → Option Nat
  | entered _ depth => some depth
  | _ => none

/-- The depths of the steps that were entered, in order. -/
def Session.entered (s : Session) : List Nat :=
  (s.events.filterMap Event.enteredDepth?).reverse

/-- The depths of the nodes before the first one that is refused. -/
def Visit.admitted (limits : Limits) (capacity : Nat) : List Visit → List Nat
  | [] => []
  | x :: rest => match x.allow limits capacity with
    | .ok _ => x.depth :: admitted limits capacity rest
    | .error _ => []

theorem Visit.admitted_append (limits : Limits) (capacity : Nat) (xs ys : List Visit) :
    admitted limits capacity (xs ++ ys) = admitted limits capacity xs ++
      match forM xs (allow limits capacity) with
      | .ok _ => admitted limits capacity ys
      | .error _ => [] := by
  induction xs with
  | nil => rfl
  | cons x rest ih =>
    simp only [List.cons_append, admitted, List.forM_cons]
    cases x.allow limits capacity with
    | error e => rfl
    | ok u => simp only [ih, List.cons_append, Except.ok_bind]

namespace Inspect

def depths : Gauge (List Nat) where
  Reads ds _ es := es.filterMap Event.enteredDepth? = ds
  none := []
  entry depth := [depth]
  add ds ds' := ds ++ ds'
  none_add := List.nil_append
  add_none := List.append_nil
  nil := rfl
  append h h' := by rw [List.filterMap_append, h, h']
  entered _ _ := rfl
  other {e} h := by
    cases e with
    | entered s depth => exact absurd rfl (h s depth)
    | resolved | failed | rejected | copied | referred => rfl

variable {limits : Limits} {t : Target} {n depth : Nat}

abbrev Enters {α : Type} (limits : Limits) (t : Target) (n : Nat) (m : Inspect α)
    (ds : List Nat) : Prop :=
  Measures depths limits t n m ds

variable {s : Step} {pool : Pool}

theorem lookupAt_enters (lookup : Lookup) (table key : Live) :
    Enters limits t n (lookupAt s depth lookup table key) [] :=
  lookupAt_measures rfl (fun _ => rfl) fun _ _ _ _ => rfl

theorem onBase_enters {expected : Expectation} {base : Inspect Live} {work : Live → Inspect Live}
    {r : Except Stop Live} {ds : List Nat} (hr : Runs limits t n 1 base r)
    (howns : ∀ v, r = .ok v → t.Owns v) (hd : Enters limits t n base ds)
    (hw : ∀ v, Enters limits t (n + 1) (work v) []) :
    Enters limits t n (onBase s depth expected base work) ds :=
  (onBase_measures hr howns hd (fun _ => rfl) fun v _ _ => hw v).congr (List.append_nil ds)

theorem node_enters_cons {room : Nat} {rest : List Step} {below : List Visit}
    (hroom : room + depth = limits.recursion)
    (hstep : ∀ room', room = room' + 1 →
      Enters limits t n (follow (node pool room' (depth + 1)) pool depth s rest)
        (Visit.admitted limits t.capacity below)) :
    Enters limits t n (node pool room depth (s :: rest))
      (Visit.admitted limits t.capacity (⟨depth, n⟩ :: below)) := by
  refine (node_measures_cons hroom fun room' hr _ => hstep room' hr).congr ?_
  rw [Visit.admitted]
  cases Visit.allow limits t.capacity ⟨depth, n⟩ <;> rfl

theorem node_enters (ht : t.Sound) {r : Tree UInt32} (hd : r.Declarable)
    (hb : ∀ ref ∈ r.keys, ref.toNat ≤ pool.size) {room : Nat}
    (hroom : room + depth = limits.recursion) (rest : List Step) :
    Enters limits t n (node pool room depth (r.preorder ++ rest))
      (Visit.admitted limits t.capacity ((r.map pool.constant).visits t depth n)) := by
  -- By induction on the tree, as for the value.
  induction r generalizing room depth n rest with
  | frameLocal | frameFunction | root | kindMetatable =>
    exact node_enters_cons hroom fun _ _ => follow_leaf_measures rfl rfl rfl
  | index lookup base ref ih =>
    rw [Tree.keys, List.forall_mem_cons] at hb
    apply node_enters_cons hroom
    intro room' hr
    have hbase : Runs limits t n 1 (node pool room' (depth + 1) (base.preorder ++ rest)) _ :=
      node_runs (r := base) ht hd hb.2 (by omega) rest
    refine onBase_enters hbase (fun v => Tree.owns_limited ht) (ih hd hb.2 (by omega) rest)
      fun table => ?_
    exact .holding (constantAt_runs hb.1) (constantAt_measures rfl ref) (fun _ _ => rfl)
      fun k _ => lookupAt_enters lookup table k
  | indexObject lookup base key ihb ihk =>
    rw [Tree.keys, List.forall_mem_append] at hb
    obtain ⟨hsize, hdb, hdk⟩ := hd
    have hdrop : (base.preorder ++ (key.preorder ++ rest)).drop (UInt32.ofNat base.size).toNat =
        key.preorder ++ rest := by
      rw [UInt32.toNat_ofNat_of_lt' hsize, ← Tree.length_preorder, List.drop_left]
    rw [Tree.preorder, Tree.step, List.cons_append, List.append_assoc]
    apply node_enters_cons hroom
    intro room' hr
    simp only [follow, hdrop]
    rw [Visit.admitted_append]
    have hbase : Runs limits t n 1
        (node pool room' (depth + 1) (base.preorder ++ (key.preorder ++ rest))) _ :=
      node_runs ht hdb hb.1 (by omega) _
    refine onBase_measures hbase (fun v => Tree.owns_limited ht) (ihb hdb hb.1 (by omega) _) ?_ ?_
    · intro hnone
      cases hvalue : (base.map pool.constant).limited limits t (depth + 1) n with
      | error e =>
        obtain hvisits | ⟨hvisits, f, hvalue, -⟩ := Tree.limited_eq_error_iff.mp hvalue
        · rw [hvisits]; rfl
        · rw [hvisits, hvalue]
          rfl
      | ok v =>
        have hc := hnone v hvalue
        obtain ⟨hvisits, hvalue⟩ := Tree.limited_eq_ok_iff.mp hvalue
        rw [hvisits, hvalue, Except.ok_bind]
        cases hkind : Tree.checkKind t .table v with
        | error f => rfl
        | ok v' => exact absurd (Tree.eq_of_checkKind hkind ▸ hkind) hc
    · intro v hv hc
      obtain ⟨hvisits, hvalue⟩ := Tree.limited_eq_ok_iff.mp hv
      rw [hvisits, hvalue, Except.ok_bind, hc]
      have hkey : Runs limits t (n + 1) 1 (node pool room' (depth + 1) (key.preorder ++ rest)) _ :=
        node_runs ht hdk hb.2 (by omega) rest
      refine (Measures.holding hkey (ihk hdk hb.2 (by omega) rest) (fun _ _ => rfl)
        fun k _ => lookupAt_enters lookup v k).congr (List.append_nil _)
  | upvalue base index ih | metatable base ih | userPayload base ih =>
    apply node_enters_cons hroom
    intro room' hr
    have hbase : Runs limits t n 1 (node pool room' (depth + 1) (base.preorder ++ rest)) _ :=
      node_runs (r := base) ht hd hb (by omega) rest
    exact onBase_enters hbase (fun v => Tree.owns_limited ht) (ih hd hb (by omega) rest)
      fun _ => .target_bind (found_measures rfl _ _)

theorem evaluate_enters (ht : t.Sound) {h : Handle} {tree : Tree Scalar} (hh : h.Denotes tree)
    (n : Nat) :
    Enters limits t n (evaluate h) (Visit.admitted limits t.capacity (tree.visits t 0 n)) := by
  obtain ⟨r, hr, rfl⟩ := hh
  have hnode : Enters limits t n (node h.pool limits.recursion 0 (r.preorder ++ [])) _ :=
    node_enters ht hr.declarable hr.bounded (Nat.add_zero _) []
  rw [List.append_nil, hr.preorder] at hnode
  exact .limits_bind hnode

theorem Enters.outcome {α : Type} {m : Inspect α} {ds : List Nat}
    (h : Enters limits t t.pinned m ds) : (m.outcome limits t).session.entered = ds := by
  obtain ⟨e, hread, hrun⟩ := Meets.run h (s := .start t) rfl
  rw [outcome_session, hrun, Session.entered, Session.start, List.append_nil,
    List.filterMap_reverse, List.reverse_reverse]
  exact hread

end Inspect

end RemoteInspect
