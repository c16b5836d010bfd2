import RemoteInspect.Proofs.Inspect.Following
import RemoteInspect.Proofs.Inspect.Reporting

namespace RemoteInspect

namespace Event

def entry? : Event → Option (Step × Nat)
  | entered s depth => some (s, depth)
  | _ => none

/-- The steps that are entered and not resolved, innermost first. -/
def track (unresolved : List (Step × Nat)) : Event → List (Step × Nat)
  | entered s depth => (s, depth) :: unresolved
  | resolved s depth _ => unresolved.erase (s, depth)
  | _ => unresolved

end Event

namespace Tree

variable {κ : Type}

/-- The steps of a tree in the order of its path, each with the number of steps above it. -/
def marks (depth : Nat) (tree : Tree UInt32) : List (Step × Nat) :=
  (tree.step, depth) :: match tree with
    | frameLocal .. | frameFunction _ | root _ | kindMetatable _ => []
    | index _ base _ | upvalue base _ | metatable base | userPayload base =>
      base.marks (depth + 1)
    | indexObject _ base key => base.marks (depth + 1) ++ key.marks (depth + 1)

def subtrees (tree : Tree κ) : List (Tree κ) :=
  tree :: match tree with
    | frameLocal .. | frameFunction _ | root _ | kindMetatable _ => []
    | index _ base _ | upvalue base _ | metatable base | userPayload base => base.subtrees
    | indexObject _ base key => base.subtrees ++ key.subtrees

def kindIn (t : Target) (tree : Tree Scalar) : Kind :=
  match tree.value t with
  | .ok v => (t.kind? v).getD .nil
  | .error _ => .nil

variable (t : Target) (constant : UInt32 → Scalar)

def trace (depth : Nat) (tree : Tree UInt32) : List Event :=
  .entered tree.step depth :: (match tree with
    | frameLocal .. | frameFunction _ | root _ | kindMetatable _ => []
    | index _ base _ | upvalue base _ | metatable base | userPayload base =>
      base.trace (depth + 1)
    | indexObject _ base key => base.trace (depth + 1) ++ key.trace (depth + 1)) ++
    [.resolved tree.step depth ((tree.map constant).kindIn t)]

variable {t constant}

theorem kindIn_eq {tree : Tree Scalar} {v : Live} {kind : Kind} (hv : tree.value t = .ok v)
    (hk : t.kind? v = some kind) : tree.kindIn t = kind := by
  rw [kindIn, hv]
  simp only [hk, Option.getD_some]

theorem map_fst_marks (tree : Tree UInt32) (depth : Nat) :
    (tree.marks depth).map Prod.fst = tree.preorder := by
  induction tree generalizing depth <;> simp_all [marks, preorder]

theorem entries_trace (tree : Tree UInt32) (depth : Nat) :
    (tree.trace t constant depth).filterMap Event.entry? = tree.marks depth := by
  induction tree generalizing depth <;> simp_all [trace, marks, Event.entry?]

theorem isProgress_of_mem_trace (tree : Tree UInt32) (depth : Nat) :
    ∀ e ∈ tree.trace t constant depth, e.isProgress := by
  induction tree generalizing depth with
  | frameLocal | frameFunction | root | kindMetatable => simp [trace]
  | index _ base _ ih | upvalue base _ ih | metatable base ih | userPayload base ih =>
    simpa [trace, or_imp, forall_and] using ih (depth + 1)
  | indexObject _ base key ihb ihk =>
    simpa [trace, or_imp, forall_and] using And.intro (ihb (depth + 1)) (ihk (depth + 1))

theorem track_trace (tree : Tree UInt32) (depth : Nat) (outer : List (Step × Nat)) :
    (tree.trace t constant depth).foldl Event.track outer = outer := by
  induction tree generalizing depth outer <;>
    simp_all [trace, Event.track]

theorem value_of_mem_subtrees {tree sub : Tree UInt32} (h : sub ∈ tree.subtrees) {v : Live}
    (hv : (tree.map constant).value t = .ok v) : ∃ v', (sub.map constant).value t = .ok v' := by
  induction tree generalizing v with
  | frameLocal | frameFunction | root | kindMetatable =>
    cases List.mem_singleton.mp h
    exact ⟨v, hv⟩
  | index _ base _ ih | upvalue base _ ih | metatable base ih | userPayload base ih =>
    obtain rfl | h := List.mem_cons.mp h
    · exact ⟨v, hv⟩
    · simp only [map, value, Except.bind_eq_ok_iff] at hv
      obtain ⟨_, hbase, -⟩ := hv
      exact ih h hbase
  | indexObject _ base key ihb ihk =>
    obtain rfl | h := List.mem_cons.mp h
    · exact ⟨v, hv⟩
    · simp only [map, value, Except.bind_eq_ok_iff] at hv
      obtain ⟨_, hbase, _, -, _, hkey, -⟩ := hv
      obtain h | h := List.mem_append.mp h
      · exact ihb h hbase
      · exact ihk h hkey

end Tree

namespace Inspect

variable {α : Type} {limits : Limits} {t : Target} {n depth : Nat} {s : Step}
  {above : List (Step × Nat)} {whole : List Event}

/-- Below the unresolved steps `above`, the events `es` break off `whole` with a failure: at the
step to enter next if it is fatal, and else at the innermost step that is unresolved. -/
structure Breaks (above : List (Step × Nat)) (whole : List Event) (f : Failure) (s : Step)
    (depth : Nat) (before : List Event) : Prop where
  begins : before <+: whole
  entering : f.isFatal → before ++ [.entered s depth] <+: whole
  innermost : f.isFatal = false → ∀ outer, ∃ rest,
    before.foldl Event.track (above ++ outer) = (s, depth) :: rest

inductive Follows (above : List (Step × Nat)) (whole : List Event) : Log α
  | ok (a : α) : Follows above whole (.ok a) whole
  | error {f : Failure} (before : List Event) {s : Step} {depth : Nat}
      (h : Breaks above whole f s depth before) :
      Follows above whole (.error f) (before ++ [.failed s depth f])

theorem Follows.of_atStep_error {f : Failure} {es : List Event}
    (h : AtStep s depth (.error f : Except Failure α) es) :
    Follows [(s, depth)] whole (.error f : Except Failure α) es := by
  cases h with
  | error h =>
    refine .error [] ⟨List.nil_prefix, fun hf => ?_, fun _ outer => ⟨outer, rfl⟩⟩
    rw [h] at hf
    cases hf

theorem Follows.of_atStep {r : Except Failure α} {es : List Event} (h : AtStep s depth r es) :
    Follows [(s, depth)] [] r es := by
  cases r with
  | ok a => cases h; exact .ok a
  | error f => exact .of_atStep_error h

theorem Follows.of_then {tree : Tree UInt32} {constant : UInt32 → Scalar} {depth' : Nat}
    {Q : Log α} (hQ : ∀ r es, Q r es → Follows above whole r es) {r : Except Failure α}
    {es : List Event}
    (h : Then (Follows (α := Live) [] (tree.trace t constant depth')) Q r es) :
    Follows above (tree.trace t constant depth' ++ whole) r es := by
  cases h with
  | stop h =>
    cases h with
    | error before h =>
      refine .error before ⟨?_, fun hf => ?_, fun hf outer => h.innermost hf (above ++ outer)⟩
      · exact h.begins.trans (List.prefix_append _ _)
      · exact (h.entering hf).trans (List.prefix_append _ _)
  | go first second =>
    cases first
    have hsecond := hQ _ _ second
    cases hsecond with
    | ok a => exact .ok a
    | error before h =>
      rw [← List.append_assoc]
      refine .error _ ⟨?_, fun hf => ?_, fun hf outer => ?_⟩
      · exact (List.prefix_append_right_inj _).mpr h.begins
      · rw [List.append_assoc]
        exact (List.prefix_append_right_inj _).mpr (h.entering hf)
      · rw [List.foldl_append, Tree.track_trace]
        exact h.innermost hf outer

theorem Follows.of_visited {kind : Kind} {r : Except Failure Live} {es : List Event}
    (hkind : ∀ v, r = .ok v → t.kind? v = some kind)
    (h : Visited t s depth (Follows [(s, depth)] whole) r es) :
    Follows [] (.entered s depth :: whole ++ [.resolved s depth kind]) r es := by
  cases h with
  | refused what =>
    refine .error [] ⟨List.nil_prefix, fun _ => ⟨_, rfl⟩, fun hf => ?_⟩
    cases hf
  | broken h =>
    cases h with
    | error before h =>
      refine .error (.entered s depth :: before) ⟨?_, fun hf => ?_, fun hf outer => ?_⟩
      · exact (List.cons_prefix_cons.mpr ⟨rfl, h.begins⟩).trans (List.prefix_append _ _)
      · exact (List.cons_prefix_cons.mpr ⟨rfl, h.entering hf⟩).trans (List.prefix_append _ _)
      · exact h.innermost hf outer
  | resolved h found =>
    cases h
    cases Option.some.inj ((hkind _ rfl).symm.trans found)
    exact .ok _

theorem Logs.of_runs {m : Inspect α} {P : Log α} {r : Except Stop α} {gain : Nat}
    (hm : Logs limits t n m P) (hr : Runs limits t n gain m r) :
    Logs limits t n m fun r' es => r = r'.mapError Stop.failure ∧ P r' es :=
  (hm.and hr).mono fun _ ⟨hP, hresult, _⟩ r' h => ⟨hresult ▸ h, hP r' h⟩

variable {pool : Pool}

theorem node_follows_cons {tree : Tree Scalar} {room : Nat} {rest : List Step}
    (hruns : Runs limits t n 1 (node pool room depth (s :: rest)) (tree.limited limits t depth n))
    (hfollow : ∀ room' n', room = room' + 1 →
      Logs limits t n' (follow (node pool room' (depth + 1)) pool depth s rest)
        (Follows [(s, depth)] whole)) :
    Logs limits t n (node pool room depth (s :: rest))
      (Follows [] (.entered s depth :: whole ++ [.resolved s depth (tree.kindIn t)])) := by
  refine ((node_logs_cons hfollow).of_runs hruns).imp ?_
  rintro r es ⟨hr, hvisited⟩
  refine Follows.of_visited (fun v hv => ?_) hvisited
  subst hv
  obtain ⟨-, hvalue⟩ := Tree.limited_eq_ok_iff.mp hr
  cases hvisited with
  | resolved _ found => rw [found, Tree.kindIn_eq hvalue found]

theorem node_follows (ht : t.Sound) {r : Tree UInt32} (hd : r.Declarable)
    (hb : ∀ ref ∈ r.keys, ref.toNat ≤ pool.size) {room : Nat}
    (hroom : room + depth = limits.recursion) (rest : List Step) :
    Logs limits t n (node pool room depth (r.preorder ++ rest))
      (Follows [] (r.trace t pool.constant depth)) := by
  -- By induction on the tree, as for the value.
  have hstep : ∀ {s depth} (r : Except Failure Live) es, AtStep s depth r es →
      Follows [(s, depth)] [] r es := fun _ _ => .of_atStep
  induction r generalizing room depth n rest with
  | frameLocal | frameFunction | root | kindMetatable =>
    exact node_follows_cons (node_runs ht hd hb hroom rest) fun _ _ _ =>
      (follow_leaf_logs rfl).imp hstep
  | index lookup base ref ih =>
    refine node_follows_cons (node_runs ht hd hb hroom rest) fun room' n' hr => ?_
    rw [Tree.keys, List.forall_mem_cons] at hb
    have hbase : Logs limits t n' (node pool room' (depth + 1) (base.preorder ++ rest)) _ :=
      ih hd hb.2 (by omega) rest
    refine (follow_based_logs rfl hbase).imp fun r es h => ?_
    rw [← List.append_nil (base.trace t pool.constant (depth + 1))]
    exact .of_then hstep h
  | upvalue base index ih | metatable base ih | userPayload base ih =>
    refine node_follows_cons (node_runs ht hd hb hroom rest) fun room' n' hr => ?_
    have hbase : Logs limits t n' (node pool room' (depth + 1) (base.preorder ++ rest)) _ :=
      ih hd hb (by omega) rest
    refine (follow_based_logs rfl hbase).imp fun r es h => ?_
    rw [← List.append_nil (base.trace t pool.constant (depth + 1))]
    exact .of_then hstep h
  | indexObject lookup base key ihb ihk =>
    have hruns : Runs limits t n 1 (node pool room depth (_ ++ rest)) _ :=
      node_runs ht hd hb hroom rest
    rw [Tree.keys, List.forall_mem_append] at hb
    obtain ⟨hsize, hdb, hdk⟩ := hd
    have hdrop : (base.preorder ++ (key.preorder ++ rest)).drop (UInt32.ofNat base.size).toNat =
        key.preorder ++ rest := by
      rw [UInt32.toNat_ofNat_of_lt' hsize, ← Tree.length_preorder, List.drop_left]
    rw [Tree.preorder, Tree.step, List.cons_append, List.append_assoc] at hruns ⊢
    refine node_follows_cons hruns fun room' n' hr => ?_
    have hbase : Logs limits t n'
        (node pool room' (depth + 1) (base.preorder ++ (key.preorder ++ rest))) _ :=
      ihb hdb hb.1 (by omega) _
    have hkey : ∀ n', Logs limits t n' (node pool room' (depth + 1)
        ((base.preorder ++ (key.preorder ++ rest)).drop (UInt32.ofNat base.size).toNat))
        (Follows [] (key.trace t pool.constant (depth + 1))) := by
      intro n'
      rw [hdrop]
      exact ihk hdk hb.2 (by omega) rest
    refine (follow_keyed_logs hbase hkey).imp fun r es => .of_then fun r es h => ?_
    obtain ⟨f, rfl, h⟩ | h := h
    · exact .of_atStep_error h
    · rw [← List.append_nil (key.trace t pool.constant (depth + 1))]
      exact .of_then hstep h

theorem evaluate_follows (ht : t.Sound) {h : Handle} {r : Tree UInt32} (hr : h.Encodes r)
    (n : Nat) : Logs limits t n (evaluate h) (Follows [] (r.trace t h.pool.constant 0)) := by
  refine .after .getLimits fun l n' hl => ?_
  subst hl
  have hnode : Logs l t n' (node h.pool l.recursion 0 (r.preorder ++ [])) _ :=
    node_follows ht hr.declarable hr.bounded (Nat.add_zero _) []
  rwa [List.append_nil, hr.preorder] at hnode

/-- In `t`, whatever happened before, `m` gives `r` and adds `es`, first event first. -/
def Records (limits : Limits) (t : Target) (m : Inspect α) (r : Except Stop α)
    (es : List Event) : Prop :=
  ∀ peak events, ∃ s, m.run limits ⟨t, peak, events⟩ = (r, s) ∧ s.events = es.reverse ++ events

theorem Records.outcome {m : Inspect α} {r : Except Stop α} {es : List Event}
    (h : Records limits t m r es) : (m.outcome limits t).result = r := by
  obtain ⟨s, hrun, -⟩ := h t.pinned []
  rw [outcome_result]
  exact congrArg Prod.fst hrun

theorem Logs.records {m : Inspect α} {P : Log α} (hm : Logs limits t t.pinned m P) :
    ∃ r es, Records limits t m r es ∧ ∀ r', r = r'.mapError Stop.failure → P r' es := by
  obtain ⟨e, hP, hrun⟩ := hm
  exact ⟨e.result, e.events, fun peak events => ⟨_, hrun peak events, rfl⟩, hP⟩

/-- An evaluation enters the steps of the path in their order, each at its depth: all of them if it
succeeds. Each is resolved then, at the same depth, after all of its subtree, and with the kind of
its value. A failure is the last event and the only one of its sort; up to it the events are as in a
success, and it is about the innermost step that is unresolved, or the step to enter next if it is
fatal. An operation that succeeds reports no failure; one that fails ends by rejecting it, and
before that there are only events of steps, the last of which may have failed. -/
theorem inspections_traced (t : Target) (limits : Limits) :
    (∀ h : Handle, h.Built → t.Reachable → ∃ tree : Tree UInt32, tree.Declarable ∧
      tree.preorder = h.path.steps ∧ (tree.marks 0).map Prod.fst = h.path.steps ∧
      let whole := tree.trace t h.pool.constant 0
      ∃ r es, Records limits t (evaluate h) r es ∧
        (∀ v, r = .ok v → es = whole ∧ es.filterMap Event.entry? = tree.marks 0 ∧
          (∀ e ∈ es, e.isProgress) ∧ ∀ sub ∈ tree.subtrees,
            ∃ v, (sub.map h.pool.constant).value t = .ok v ∧
              t.kind? v = some ((sub.map h.pool.constant).kindIn t)) ∧
        ∀ f, r = .error (.failure f) → ∃ before s depth, es = before ++ [.failed s depth f] ∧
          before <+: whole ∧ before.filterMap Event.entry? <+: tree.marks 0 ∧
          (∀ e ∈ before, e.isProgress) ∧
          (f.isFatal = false → (before.foldl Event.track []).head? = some (s, depth)) ∧
          (f.isFatal → before.filterMap Event.entry? ++ [(s, depth)] <+: tree.marks 0)) ∧
    ∀ (call : Call) (operation : Operation), call.operation? = some operation →
      ∃ r es, Records limits t call.perform r es ∧
        (∀ u, r = .ok u → ∀ e ∈ es, e.isSuccess) ∧
        ∀ f, r = .error (.failure f) → ∃ before after,
          es = before ++ after ++ [.rejected operation f] ∧ (∀ e ∈ before, e.isProgress) ∧
          (after = [] ∨ ∃ s depth, after = [.failed s depth f]) := by
  constructor
  · intro h hh ht
    obtain ⟨_, tree, htree, -⟩ := hh.denotes
    have hentries := @Tree.entries_trace t h.pool.constant tree 0
    refine ⟨tree, htree.declarable, htree.preorder,
      (Tree.map_fst_marks tree 0).trans htree.preorder, ?_⟩
    have hruns : Runs limits t t.pinned 1 (evaluate h) _ :=
      evaluate_runs ht.sound ⟨tree, htree, rfl⟩ t.pinned
    obtain ⟨r, es, hrecords, hfollows⟩ :=
      ((evaluate_follows ht.sound htree t.pinned).of_runs hruns).records
    refine ⟨r, es, hrecords, ?_, ?_⟩
    · rintro v rfl
      obtain ⟨hlimited, hall⟩ := hfollows (.ok v) rfl
      obtain ⟨-, hvalue⟩ := Tree.limited_eq_ok_iff.mp hlimited
      cases hall
      refine ⟨rfl, hentries, Tree.isProgress_of_mem_trace tree 0, fun sub hsub => ?_⟩
      obtain ⟨v', hv'⟩ := Tree.value_of_mem_subtrees hsub hvalue
      obtain ⟨kind, hk⟩ := Tree.owns_value ht.sound hv'
      exact ⟨v', hv', by rw [Tree.kindIn_eq hv' hk, hk]⟩
    · rintro f rfl
      cases (hfollows (.error f) rfl).2 with
      | @error _ before s depth hbreaks =>
        refine ⟨before, s, depth, rfl, hbreaks.begins, ?_, ?_, ?_, ?_⟩
        · exact hentries ▸ hbreaks.begins.filterMap _
        · exact fun e he => Tree.isProgress_of_mem_trace tree 0 e (hbreaks.begins.subset he)
        · intro hf
          obtain ⟨rest, hrest⟩ := hbreaks.innermost hf []
          rw [List.append_nil] at hrest
          rw [hrest, List.head?_cons]
        · intro hf
          have hnext := (hbreaks.entering hf).filterMap Event.entry?
          rwa [hentries, List.filterMap_append] at hnext
  · intro call operation hop
    obtain ⟨r, es, hrecords, hreports⟩ := (perform_reports hop).records
    refine ⟨r, es, hrecords, ?_, ?_⟩
    · rintro u rfl
      cases hreports (.ok u) rfl with
      | ok h =>
        cases h with
        | ok h => exact h
    · rintro f rfl
      cases hreports (.error f) rfl with
      | error h =>
        cases h with
        | error h => exact ⟨_, [], by rw [List.append_nil], h, .inl rfl⟩
        | failed before h => exact ⟨before, _, rfl, h, .inr ⟨_, _, rfl⟩⟩

/-- The userdata under 1 in a global table. With a recursion limit of 2 the globals are not
entered. -/
theorem inspections_traced_linked :
    let one : Scalar := .float ⟨0x3FF0000000000000⟩
    let h : Handle := ⟨⟨[.index .get 2, .index .get 1, .root .globals]⟩, ⟨[.string [107], one]⟩⟩
    let f : Failure := .exhausted (.recursionLimit 2)
    Records .standard Target.linked (evaluate h) (.ok (.object 4))
        [.entered (.index .get 2) 0, .entered (.index .get 1) 1, .entered (.root .globals) 2,
          .resolved (.root .globals) 2 .table, .resolved (.index .get 1) 1 .table,
          .resolved (.index .get 2) 0 .userdata] ∧
      (∃ before s depth, Records ⟨2, 3⟩ Target.linked (evaluate h) (.error (.failure f))
          (before ++ [.failed s depth f]) ∧ before.filterMap Event.entry? ++ [(s, depth)] <+:
            [(.index .get 2, 0), (.index .get 1, 1), (.root .globals, 2)]) ∧
      ∃ es, Records ⟨2, 3⟩ Target.linked (Call.perform (.request (.query (.handle h))))
        (.error (.failure f)) (es ++ [.rejected .query f]) := by
  intro one h f
  have htable : Handle.Built ⟨⟨[.index .get 1, .root .globals]⟩, ⟨[.string [107]]⟩⟩ :=
    @Handle.Built.index _ _ (.string [107]) (.root .globals) rfl
  have hh : h.Built := @Handle.Built.index _ _ one htable rfl
  obtain ⟨hevaluate, -⟩ := inspections_traced Target.linked .standard
  obtain ⟨hevaluate', hperform⟩ := inspections_traced Target.linked ⟨2, 3⟩
  refine ⟨?_, ?_, ?_⟩
  · obtain ⟨tree, -, hsteps, -, r, es, hrecords, hok, -⟩ := hevaluate h hh Target.reachable_linked
    have hresult : r = .ok (.object 4) := hrecords.outcome.symm
    subst hresult
    obtain ⟨rfl, -⟩ := hok _ rfl
    have htree : tree = .index .get (.index .get (.root .globals) 1) 2 := Tree.preorder_inj hsteps
    rwa [htree] at hrecords
  · obtain ⟨tree, -, hsteps, -, r, es, hrecords, -, hfailure⟩ :=
      hevaluate' h hh Target.reachable_linked
    have hresult : r = .error (.failure f) := hrecords.outcome.symm
    subst hresult
    obtain ⟨before, s, depth, rfl, -, -, -, -, hnext⟩ := hfailure f rfl
    have htree : tree = .index .get (.index .get (.root .globals) 1) 2 := Tree.preorder_inj hsteps
    rw [htree] at hnext
    exact ⟨before, s, depth, hrecords, hnext rfl⟩
  · obtain ⟨r, es, hrecords, -, hfailure⟩ := hperform (.request (.query (.handle h))) .query rfl
    have hresult : r = .error (.failure f) := hrecords.outcome.symm
    subst hresult
    obtain ⟨before, after, rfl, -⟩ := hfailure f rfl
    exact ⟨_, hrecords⟩

end Inspect

end RemoteInspect
