import RemoteInspect.Proofs.Inspect.Measures

namespace RemoteInspect

namespace Tree

variable {limits : Limits} {t : Target} {depth n : Nat}

/-- On the way to the value, the key after a constant is found where there is no room for a fourth
value. -/
def Overfills (limits : Limits) (t : Target) (depth n : Nat) : Tree Scalar → Prop
  | frameLocal .. | frameFunction _ | root _ | kindMetatable _ => False
  | index lookup base key => Visit.allow limits t.capacity ⟨depth, n⟩ = .ok () ∧
      (base.Overfills limits t (depth + 1) n ∨
        lookup = .next ∧ (∃ k, (index lookup base key).limited limits t depth n = .ok k) ∧
          t.capacity < n + 4)
  | indexObject _ base key => Visit.allow limits t.capacity ⟨depth, n⟩ = .ok () ∧
      (base.Overfills limits t (depth + 1) n ∨
        (∃ table, base.limited limits t (depth + 1) n = .ok table ∧
          checkKind t .table table = .ok table) ∧
        key.Overfills limits t (depth + 1) (n + 1))
  | upvalue base _ | metatable base | userPayload base =>
    Visit.allow limits t.capacity ⟨depth, n⟩ = .ok () ∧ base.Overfills limits t (depth + 1) n

theorem exists_limited_next_iff {base : Tree Scalar} {key : Scalar} :
    (∃ k, (index .next base key).limited limits t depth n = .ok k) ↔
      Visit.allow limits t.capacity ⟨depth, n⟩ = .ok () ∧
        ∃ table, base.limited limits t (depth + 1) n = .ok table ∧
          checkKind t .table table = .ok table ∧
          ∃ k v, t.rawNext table (.scalar key) = .entry k v := by
  have hentry : ∀ table, (∃ k, lookUp t .next table (.scalar key) = .ok k) ↔
      ∃ k v, t.rawNext table (.scalar key) = .entry k v := by
    intro table
    cases hn : t.rawNext table (.scalar key) <;> simp [lookUp, hn]
  rw [limited_of_based rfl rfl]
  simp only [Except.bind_eq_ok_iff, Except.mapError_eq_ok_iff]
  constructor
  · rintro ⟨k, _, hallow, table, hbase, table', hc, hk⟩
    cases eq_of_checkKind hc
    exact ⟨hallow, table, hbase, hc, (hentry table).mp ⟨k, hk⟩⟩
  · rintro ⟨hallow, table, hbase, hc, hn⟩
    obtain ⟨k, hk⟩ := (hentry table).mpr hn
    exact ⟨k, (), hallow, table, hbase, table, hc, hk⟩

theorem room_of_limited {tree : Tree Scalar} {v : Live}
    (h : tree.limited limits t depth n = .ok v) : n + limits.reserve ≤ t.capacity := by
  obtain ⟨rest, hrest⟩ := exists_visits_eq_cons tree t depth n
  have hallow := (limited_eq_ok_iff.mp h).1
  rw [hrest, List.forM_cons, Except.bind_eq_ok_iff] at hallow
  obtain ⟨_, hallow, -⟩ := hallow
  exact Visit.room_of_allow hallow

theorem not_overfills (hreserve : 4 ≤ limits.reserve) (tree : Tree Scalar) :
    ¬ tree.Overfills limits t depth n := by
  induction tree generalizing depth n with
  | frameLocal | frameFunction | root | kindMetatable => exact id
  | index lookup base key ih =>
    rintro ⟨hallow, hbase | ⟨-, -, hfull⟩⟩
    · exact ih hbase
    · have := Visit.room_of_allow hallow
      simp only at this
      omega
  | indexObject lookup base key ihb ihk =>
    rintro ⟨-, hbase | ⟨-, hkey⟩⟩
    · exact ihb hbase
    · exact ihk hkey
  | upvalue base _ ih | metatable base ih | userPayload base ih =>
    rintro ⟨-, hbase⟩
    exact ih hbase

end Tree

namespace Inspect

/-- Whether more values are pinned than there is room for, and then one more at most. -/
def crowding (t : Target) : Gauge Prop where
  Reads P high _ := high ≤ t.capacity + 1 ∧ (t.capacity < high ↔ P)
  none := False
  entry _ := False
  add := Or
  none_add := false_or
  add_none := or_false
  nil := ⟨Nat.zero_le _, iff_of_false (Nat.not_lt_zero _) id⟩
  append h h' := ⟨Nat.max_le.mpr ⟨h.1, h'.1⟩, by rw [← h.2, ← h'.2]; omega⟩
  entered _ _ := ⟨Nat.zero_le _, iff_of_false (Nat.not_lt_zero _) id⟩
  other _ := ⟨Nat.zero_le _, iff_of_false (Nat.not_lt_zero _) id⟩

theorem crowding_of_le {t : Target} {n : Nat} (hn : n ≤ t.capacity) :
    (crowding t).Reads False n [] :=
  ⟨Nat.le_succ_of_le hn, iff_of_false (Nat.not_lt.mpr hn) id⟩

variable {α : Type} {limits : Limits} {t : Target} {n depth : Nat} {P Q : Prop}

/-- From `n` pinned values on, there is no room for all that `m` pins if and only if `P`, and then
for all but one of them. -/
abbrev Crowds (limits : Limits) (t : Target) (n : Nat) (m : Inspect α) (P : Prop) : Prop :=
  Measures (crowding t) limits t n m P

theorem crowds_congr {m : Inspect α} (h : Crowds limits t n m P) (hiff : P ↔ Q) :
    Crowds limits t n m Q :=
  h.congr (propext hiff)

theorem holding_crowds {pinned : Inspect Live} {work : Live → Inspect α} {r : Except Stop Live}
    {Q : Live → Prop} (hr : Runs limits t n 1 pinned r) (hp : Crowds limits t n pinned P)
    (hw : ∀ v, r = .ok v → Crowds limits t (n + 1) (work v) (Q v)) :
    Crowds limits t n (holding pinned work) (P ∨ ∃ v, r = .ok v ∧ Q v) := by
  apply Measures.holding hr hp
  · rintro x rfl
    exact propext (iff_of_false (fun ⟨_, hv, _⟩ => nomatch hv) id)
  · rintro v rfl
    exact crowds_congr (hw v rfl) (by simp)

theorem reserve_bind_crowds {f : Unit → Inspect α} (hreserve : 3 ≤ limits.reserve)
    (hf : n + 3 ≤ t.capacity → Crowds limits t n (f ()) False) :
    Crowds limits t n (reserve >>= f) False := by
  have hruns : Runs limits t n 0 reserve _ := .reserve
  cases hr : reservation limits t.capacity n with
  | error e =>
    rw [hr] at hruns
    exact .stop hruns .reserve
  | ok u =>
    rw [hr] at hruns
    have hroom := room_of_reservation hr
    exact .after hruns .reserve (hf (by omega))

variable {s : Step} {pool : Pool}

/-- The value after a key is the last that is pinned. -/
theorem lookupAt_crowds (hn : n + 1 ≤ t.capacity) (lookup : Lookup) (table key : Live) :
    Crowds limits t n (lookupAt s depth lookup table key)
      (lookup = .next ∧ (∃ k v, t.rawNext table key = .entry k v) ∧ t.capacity < n + 2) := by
  apply lookupAt_measures (crowding_of_le hn)
  · intro hnone
    refine propext (iff_of_false ?_ id)
    rintro ⟨hlookup, ⟨k, v, hentry⟩, -⟩
    exact hnone k v hlookup hentry
  · intro k v hlookup hentry
    exact ⟨Nat.succ_le_succ hn, fun hfull => ⟨hlookup, ⟨k, v, hentry⟩, hfull⟩, fun h => h.2.2⟩

theorem onBase_crowds {expected : Expectation} {base : Inspect Live} {work : Live → Inspect Live}
    {r : Except Stop Live} {Q : Live → Prop} (hr : Runs limits t n 1 base r)
    (howns : ∀ v, r = .ok v → t.Owns v) (hp : Crowds limits t n base P)
    (hw : ∀ v, r = .ok v → Crowds limits t (n + 1) (work v) (Q v)) :
    Crowds limits t n (onBase s depth expected base work)
      (P ∨ ∃ v, r = .ok v ∧ Tree.checkKind t expected v = .ok v ∧ Q v) := by
  apply onBase_measures hr howns hp
  · intro hnone
    exact propext (iff_of_false (fun ⟨v, hv, hc, _⟩ => hnone v hv hc) id)
  · rintro v rfl hc
    exact crowds_congr (hw v rfl) (by simp [hc])

theorem node_crowds_cons {room : Nat} {rest : List Step} (hreserve : 3 ≤ limits.reserve)
    (hroom : room + depth = limits.recursion)
    (hstep : ∀ room', room = room' + 1 → n + 3 ≤ t.capacity →
      Crowds limits t n (follow (node pool room' (depth + 1)) pool depth s rest) P) :
    Crowds limits t n (node pool room depth (s :: rest))
      (Visit.allow limits t.capacity ⟨depth, n⟩ = .ok () ∧ P) := by
  refine (node_measures_cons hroom fun room' hr _ => hstep room' hr (by omega)).congr ?_
  cases Visit.allow limits t.capacity ⟨depth, n⟩ <;> simp [crowding]

theorem node_crowds (ht : t.Sound) (hreserve : 3 ≤ limits.reserve) {r : Tree UInt32}
    (hd : r.Declarable) (hb : ∀ ref ∈ r.keys, ref.toNat ≤ pool.size) {room : Nat}
    (hroom : room + depth = limits.recursion) (rest : List Step) :
    Crowds limits t n (node pool room depth (r.preorder ++ rest))
      ((r.map pool.constant).Overfills limits t depth n) := by
  -- An object key is itself a node, and so reserves for what is pinned after it.
  -- By induction on the tree, as for the value.
  induction r generalizing room depth n rest with
  | frameLocal | frameFunction | root | kindMetatable =>
    refine crowds_congr (node_crowds_cons (P := False) hreserve hroom fun _ _ hn => ?_)
      (iff_of_false And.right id)
    exact follow_leaf_measures (crowding_of_le (by omega)) rfl (crowding_of_le (by omega))
  | index lookup base ref ih =>
    rw [Tree.keys, List.forall_mem_cons] at hb
    have hbase : ∀ room', room = room' + 1 →
        Runs limits t n 1 (node pool room' (depth + 1) (base.preorder ++ rest)) _ :=
      fun room' hr => node_runs (r := base) ht hd hb.2 (by omega) rest
    refine crowds_congr (node_crowds_cons hreserve hroom fun room' hr hn =>
      onBase_crowds (hbase room' hr) (fun v => Tree.owns_limited ht)
        (ih hd hb.2 (by omega) rest) fun table _ =>
          holding_crowds (P := False) (constantAt_runs hb.1)
            (constantAt_measures (crowding_of_le (by omega)) ref)
            fun k _ => lookupAt_crowds (by omega) lookup table k) ?_
    rw [Tree.map, Tree.Overfills]
    refine and_congr_right fun hallow => or_congr_right ?_
    cases lookup with
    | get => simp
    | next =>
      rw [Tree.exists_limited_next_iff]
      simp only [Except.ok.injEq, exists_eq_left', true_and, false_or, hallow]
      constructor
      · rintro ⟨table, hv, hc, hentry, hfull⟩
        exact ⟨⟨table, hv, hc, hentry⟩, hfull⟩
      · rintro ⟨⟨table, hv, hc, hentry⟩, hfull⟩
        exact ⟨table, hv, hc, hentry, hfull⟩
  | indexObject lookup base key ihb ihk =>
    rw [Tree.keys, List.forall_mem_append] at hb
    obtain ⟨hsize, hdb, hdk⟩ := hd
    have hdrop : (base.preorder ++ (key.preorder ++ rest)).drop (UInt32.ofNat base.size).toNat =
        key.preorder ++ rest := by
      rw [UInt32.toNat_ofNat_of_lt' hsize, ← Tree.length_preorder, List.drop_left]
    rw [Tree.preorder, Tree.step, List.cons_append, List.append_assoc]
    refine node_crowds_cons hreserve hroom fun room' hr hn => ?_
    simp only [follow, hdrop]
    have hkey : Runs limits t (n + 1) 1 (node pool room' (depth + 1) (key.preorder ++ rest)) _ :=
      node_runs ht hdk hb.2 (by omega) rest
    refine crowds_congr (onBase_crowds (node_runs (r := base) ht hdb hb.1 (by omega) _)
      (fun v => Tree.owns_limited ht) (ihb hdb hb.1 (by omega) _) fun table _ =>
        holding_crowds hkey (ihk hdk hb.2 (by omega) rest)
          fun k hk => lookupAt_crowds (by omega) lookup table k) ?_
    -- Where the key has a value there was room for three more, the last of which is never used.
    have hkeyRoom : ∀ k, (key.map pool.constant).limited limits t (depth + 1) (n + 1) = .ok k →
        ¬ t.capacity < n + 1 + 1 + 2 := by
      intro k hk
      have := Tree.room_of_limited hk
      omega
    refine or_congr_right ⟨?_, ?_⟩
    · rintro ⟨table, hv, hc, hover | ⟨k, hk, -, -, hfull⟩⟩
      · exact ⟨⟨table, hv, hc⟩, hover⟩
      · exact absurd hfull (hkeyRoom k hk)
    · rintro ⟨⟨table, hv, hc⟩, hover⟩
      exact ⟨table, hv, hc, .inl hover⟩
  | upvalue base index ih | metatable base ih | userPayload base ih =>
    refine crowds_congr (node_crowds_cons hreserve hroom fun room' hr hn =>
      onBase_crowds (node_runs (r := base) ht hd hb (by omega) rest) (fun v => Tree.owns_limited ht)
        (ih hd hb (by omega) rest) fun v _ =>
          .target_bind (found_measures (crowding_of_le (by omega)) _ _)) ?_
    simp [Tree.map, Tree.Overfills, crowding]

theorem evaluate_crowds (ht : t.Sound) (hreserve : 3 ≤ limits.reserve) {h : Handle}
    {tree : Tree Scalar} (hh : h.Denotes tree) :
    Crowds limits t n (evaluate h) (tree.Overfills limits t 0 n) := by
  obtain ⟨r, hr, rfl⟩ := hh
  have hnode : Crowds limits t n (node h.pool limits.recursion 0 (r.preorder ++ [])) _ :=
    node_crowds ht hreserve hr.declarable hr.bounded (Nat.add_zero _) []
  rw [List.append_nil, hr.preorder] at hnode
  exact .limits_bind hnode

end Inspect

end RemoteInspect
