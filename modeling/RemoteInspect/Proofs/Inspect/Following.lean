import RemoteInspect.Inspect.Evaluation
import RemoteInspect.Proofs.Handle.Construction
import RemoteInspect.Proofs.Inspect.Limited

namespace RemoteInspect

namespace Tree

variable {t : Target}

theorem eq_of_checkKind {expected : Expectation} {v v' : Live}
    (h : checkKind t expected v = .ok v') : v' = v := by
  rw [checkKind] at h
  split at h
  · split at h <;> cases h
    rfl
  · cases h
    rfl

theorem owns_ofOption {what : Missing} {v? : Option Live} {v : Live}
    (howns : ∀ v, v? = some v → t.Owns v) (h : ofOption what v? = .ok v) : t.Owns v := by
  cases v? with
  | none => cases h
  | some v' => cases h; exact howns v rfl

theorem owns_lookUp (ht : t.Sound) {lookup : Lookup} {table key v : Live}
    (h : lookUp t lookup table key = .ok v) : t.Owns v := by
  cases lookup with
  | get =>
    simp only [lookUp] at h
    split at h
    · cases h
    · cases h; exact ht.owns_rawGet table key
  | next =>
    simp only [lookUp] at h
    split at h
    · rename_i k value hn
      cases h
      exact (ht.rawNext hn).1
    · cases h
    · cases h

theorem owns_value (ht : t.Sound) {tree : Tree Scalar} {v : Live} (h : tree.value t = .ok v) :
    t.Owns v := by
  cases tree with
  | frameLocal frame slot =>
    simp only [value] at h
    split at h
    · refine owns_ofOption (fun v hv => ?_) h
      obtain ⟨b, hb, rfl⟩ := Option.map_eq_some_iff.mp hv
      exact ht.owns_frameLocal hb
    · cases h
  | frameFunction frame => exact owns_ofOption (fun v hv => (ht.frameFunction hv).1) h
  | root r => cases h; exact ht.owns_root r
  | kindMetatable kind =>
    simp only [value] at h
    split at h
    · cases h
    · refine owns_ofOption (fun v hv => ?_) h
      obtain ⟨id, hid, rfl⟩ := Option.map_eq_some_iff.mp hv
      exact ⟨.table, (ht.shared kind id hid).2⟩
  | index lookup base key =>
    simp only [value, Except.bind_eq_ok_iff] at h
    obtain ⟨_, _, table, _, h⟩ := h
    exact owns_lookUp ht h
  | indexObject lookup base key =>
    simp only [value, Except.bind_eq_ok_iff] at h
    obtain ⟨_, _, table, _, k, _, h⟩ := h
    exact owns_lookUp ht h
  | upvalue base n =>
    simp only [value, Except.bind_eq_ok_iff] at h
    obtain ⟨_, _, function, _, h⟩ := h
    refine owns_ofOption (fun v hv => ?_) h
    obtain ⟨b, hb, rfl⟩ := Option.map_eq_some_iff.mp hv
    exact ht.owns_upvalue hb
  | metatable base =>
    simp only [value, Except.bind_eq_ok_iff] at h
    obtain ⟨_, _, v', _, h⟩ := h
    exact owns_ofOption (fun v hv => ht.owns_metatable hv) h
  | userPayload base =>
    simp only [value, Except.bind_eq_ok_iff] at h
    obtain ⟨_, _, v', _, h⟩ := h
    exact owns_ofOption (fun v hv => ht.owns_payload hv) h

theorem owns_limited (ht : t.Sound) {limits : Limits} {depth n : Nat} {tree : Tree Scalar}
    {v : Live} (h : tree.limited limits t depth n = .ok v) : t.Owns v := by
  simp only [limited, Except.bind_eq_ok_iff] at h
  obtain ⟨_, _, h⟩ := h
  cases hv : tree.value t with
  | error f => rw [hv] at h; cases h
  | ok v' => rw [hv] at h; cases h; exact owns_value ht hv

/-- A value without a metatable of its own represents its kind, if the kind shares one. -/
theorem value_kindMetatable {kind : Kind} :
    (kindMetatable kind).value t = match Inspect.representative? kind with
      | some _ => ofOption .metatable ((t.shared kind).map .object)
      | none => .error (.unsupported .noSharedMetatable) := by
  cases kind <;> rfl

end Tree

namespace Inspect

open RemoteInspect.Tree (ofOption checkKind lookUp limited)

variable {limits : Limits} {t : Target} {n gain depth : Nat} {s : Step} {pool : Pool}

theorem failAt_executes {α : Type} (f : Failure) :
    Executes limits t n (failAt s depth f : Inspect α) (.error (.failure f)) n :=
  .seq (.emit _) (.fail f)

theorem found_runs (v? : Option Live) (what : Missing) :
    Runs limits t n 1 (found s depth v? what) ((ofOption what v?).mapError Stop.failure) := by
  cases v? with
  | some v => exact .pin v
  | none => exact failAt_executes _

theorem representative_kind {kind : Kind} (ht : t.Sound) {v : Live}
    (h : representative? kind = some v) :
    t.kind? v = some kind ∧ kind.hasOwnMetatable = false := by
  cases kind <;> cases h <;> first | exact ⟨rfl, rfl⟩ | exact ⟨ht.roots .mainThread, rfl⟩

theorem lookupAt_runs (ht : t.Sound) (lookup : Lookup) (table key : Live) :
    Runs limits t n 1 (lookupAt s depth lookup table key)
      ((lookUp t lookup table key).mapError Stop.failure) := by
  apply Executes.seq .target
  cases lookup with
  | get =>
    apply Executes.seq (.pin (t.rawGet table key))
    obtain ⟨kind, hk⟩ := ht.owns_rawGet table key
    apply Executes.seq (.kindOf hk)
    by_cases hnil : t.rawGet table key = .nil
    · cases hk.symm.trans (Target.kind?_eq_nil_iff.mpr hnil)
      simp only [lookUp, hnil, ↓reduceIte]
      exact .seq .release (.stop (failAt_executes _))
    · have hkind : kind ≠ .nil := fun he => hnil (Target.kind?_eq_nil_iff.mp (he ▸ hk))
      simp only [lookUp, hnil, hkind, ↓reduceIte]
      exact .pure _
  | next =>
    cases hn : t.rawNext table key with
    | entry k v =>
      simp only [lookUp, Target.rawNext_withPinned, hn]
      exact .seq (.pin k) (.seq (.pin v) (.seq .release (.pure k)))
    | finished =>
      simp only [lookUp, Target.rawNext_withPinned, hn]
      exact failAt_executes _
    | unknownKey =>
      simp only [lookUp, Target.rawNext_withPinned, hn]
      exact failAt_executes _

theorem constantAt_runs {ref : UInt32} (h : ref.toNat ≤ pool.size) :
    Runs limits t n 1 (constantAt s depth pool ref) (.ok (.scalar (pool.constant ref))) := by
  by_cases h0 : ref = 0
  · subst h0
    exact .pin .nil
  · have hpos : ref.toNat ≠ 0 := fun he => h0 (UInt32.toNat_inj.mp he)
    have hlt : ref.toNat - 1 < pool.entries.length := by rw [Pool.size] at h; omega
    have hget : pool.get? ref = some pool.entries[ref.toNat - 1] := by
      simp [Pool.get?, h0, hlt]
    simp only [constantAt, h0, ↓reduceIte, hget, Pool.constant, Option.getD_some]
    exact .pin _

theorem onBase_runs {expected : Expectation} {base : Inspect Live} {work : Live → Inspect Live}
    {r : Except Stop Live} {k : Live → Except Stop Live} (hb : Runs limits t n 1 base r)
    (howns : ∀ v, r = .ok v → t.Owns v) (hw : ∀ v, Runs limits t (n + 1) 1 (work v) (k v)) :
    Runs limits t n 1 (onBase s depth expected base work) (do
      let v ← r
      let v ← (checkKind t expected v).mapError Stop.failure
      k v) := by
  apply Runs.holding hb
  intro v hv
  obtain ⟨kind, hk⟩ := howns v hv
  apply Executes.seq (.kindOf hk)
  by_cases ha : expected.accepts kind
  · simp only [checkKind, hk, ha, ↓reduceIte, Except.mapError_ok, Except.ok_bind]
    exact hw v
  · simp only [checkKind, hk, ha, ↓reduceIte, Except.mapError_error, Except.error_bind,
      Bool.false_eq_true]
    exact failAt_executes _

theorem node_runs_cons (ht : t.Sound) {tree : Tree Scalar} {room : Nat} {rest : List Step}
    {r : Except Stop Live} (hroom : room + depth = limits.recursion)
    (hlimited : tree.limited limits t depth n = (do
      Visit.allow limits t.capacity ⟨depth, n⟩
      r))
    (hstep : ∀ room', room = room' + 1 →
      Runs limits t n 1 (follow (node pool room' (depth + 1)) pool depth s rest) r) :
    Runs limits t n 1 (node pool room depth (s :: rest)) (tree.limited limits t depth n) := by
  cases room with
  | zero =>
    have hd : limits.recursion ≤ depth := by omega
    rw [hlimited, Visit.allow, if_pos hd]
    exact .seq .getLimits (failAt_executes _)
  | succ room =>
    have hd : ¬ limits.recursion ≤ depth := by omega
    have hroomy : Executes limits t n Inspect.roomy _ n := .roomy
    rw [Visit.allow, if_neg hd, reservation] at hlimited
    by_cases hlimit : Target.sizeLimit ≤ n + limits.reserve
    · rw [if_pos hlimit] at hroomy hlimited
      rw [hlimited]
      exact .stop hroomy
    · rw [if_neg hlimit] at hroomy hlimited
      apply Executes.seq hroomy
      by_cases hcapacity : n + limits.reserve ≤ t.capacity
      · rw [if_pos hcapacity, Except.ok_bind] at hlimited
        simp only [hcapacity, decide_true, ↓reduceIte]
        refine .seq (.emit _) (Runs.andThen (hlimited ▸ hstep room rfl) fun v hv => ?_)
        obtain ⟨kind, hk⟩ := Tree.owns_limited ht hv
        exact .seq (.kindOf hk) (.seq (.emit _) (.pure v))
      · rw [if_neg hcapacity] at hlimited
        rw [hlimited]
        simp only [hcapacity, decide_false, ↓reduceIte, Bool.false_eq_true]
        exact .stop (failAt_executes _)

theorem node_runs (ht : t.Sound) {r : Tree UInt32} (hd : r.Declarable)
    (hb : ∀ ref ∈ r.keys, ref.toNat ≤ pool.size) {room : Nat}
    (hroom : room + depth = limits.recursion) (rest : List Step) :
    Runs limits t n 1 (node pool room depth (r.preorder ++ rest))
      ((r.map pool.constant).limited limits t depth n) := by
  -- By induction on the tree: the steps of the base are followed by those of the key, and those
  -- by the rest of the path, which no node below this one reaches.
  induction r generalizing room depth n rest with
  | frameLocal frame slot =>
    apply node_runs_cons ht hroom (Tree.limited_of_leaf rfl)
    intro _ _
    apply Executes.seq .target
    by_cases hframe : t.hasFrame frame
    · have hframe' : (t.withPinned n).hasFrame frame := hframe
      simp only [Tree.map, Tree.value, Target.hasFrame_withPinned, hframe, ↓reduceIte]
      exact found_runs _ _
    · have hframe' : ¬ (t.withPinned n).hasFrame frame := hframe
      simp only [Tree.map, Tree.value, Target.hasFrame_withPinned, hframe, ↓reduceIte,
        Bool.false_eq_true]
      exact failAt_executes _
  | frameFunction frame =>
    apply node_runs_cons ht hroom (Tree.limited_of_leaf rfl)
    intro _ _
    exact .seq .target (found_runs _ _)
  | root r =>
    apply node_runs_cons ht hroom (Tree.limited_of_leaf rfl)
    intro _ _
    exact .pin _
  | kindMetatable kind =>
    apply node_runs_cons ht hroom (Tree.limited_of_leaf rfl)
    intro _ _
    rw [Tree.map, Tree.value_kindMetatable]
    cases hr : representative? kind with
    | none =>
      simp only [Tree.step, follow, hr]
      exact failAt_executes _
    | some v =>
      obtain ⟨hk, hs⟩ := representative_kind ht hr
      simp only [Tree.step, follow, hr, ← Target.metatable?_of_shared hk hs]
      exact .holding_ok (.pin v) (.seq .target (found_runs _ _))
  | index lookup base ref ih =>
    rw [Tree.keys, List.forall_mem_cons] at hb
    apply node_runs_cons ht hroom (Tree.limited_of_based rfl rfl)
    intro room' hr
    simp only [Except.mapError_bind]
    refine onBase_runs (ih hd hb.2 (by omega) rest) (fun v => Tree.owns_limited ht) fun table => ?_
    exact .holding_ok (constantAt_runs hb.1) (lookupAt_runs ht lookup table _)
  | indexObject lookup base key ihb ihk =>
    rw [Tree.keys, List.forall_mem_append] at hb
    obtain ⟨hsize, hdb, hdk⟩ := hd
    have hdrop : (base.preorder ++ (key.preorder ++ rest)).drop (UInt32.ofNat base.size).toNat =
        key.preorder ++ rest := by
      rw [UInt32.toNat_ofNat_of_lt' hsize, ← Tree.length_preorder, List.drop_left]
    rw [Tree.preorder, Tree.step, List.cons_append, List.append_assoc]
    apply node_runs_cons ht hroom (Tree.limited_indexObject lookup _ _)
    intro room' hr
    simp only [follow, hdrop]
    refine onBase_runs (ihb hdb hb.1 (by omega) _) (fun v => Tree.owns_limited ht) fun table => ?_
    exact .holding (ihk hdk hb.2 (by omega) rest) fun v _ => lookupAt_runs ht lookup table v
  | upvalue base index ih =>
    apply node_runs_cons ht hroom (Tree.limited_of_based rfl rfl)
    intro room' hr
    simp only [Except.mapError_bind]
    refine onBase_runs (ih hd hb (by omega) rest) (fun v => Tree.owns_limited ht) fun v => ?_
    exact .seq .target (found_runs _ _)
  | metatable base ih =>
    apply node_runs_cons ht hroom (Tree.limited_of_based rfl rfl)
    intro room' hr
    simp only [Except.mapError_bind]
    refine onBase_runs (ih hd hb (by omega) rest) (fun v => Tree.owns_limited ht) fun v => ?_
    exact .seq .target (found_runs _ _)
  | userPayload base ih =>
    apply node_runs_cons ht hroom (Tree.limited_of_based rfl rfl)
    intro room' hr
    simp only [Except.mapError_bind]
    refine onBase_runs (ih hd hb (by omega) rest) (fun v => Tree.owns_limited ht) fun v => ?_
    exact .seq .target (found_runs _ _)

theorem evaluate_runs (ht : t.Sound) {h : Handle} {tree : Tree Scalar} (hh : h.Denotes tree)
    (n : Nat) : Runs limits t n 1 (evaluate h) (tree.limited limits t 0 n) := by
  obtain ⟨r, hr, rfl⟩ := hh
  have hnode : Runs limits t n 1 (node h.pool limits.recursion 0 (r.preorder ++ [])) _ :=
    node_runs ht hr.declarable hr.bounded (Nat.add_zero _) []
  rw [List.append_nil, hr.preorder] at hnode
  exact .seq .getLimits hnode

end Inspect

end RemoteInspect
