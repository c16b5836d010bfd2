import RemoteInspect.Proofs.Inspect.Following

namespace RemoteInspect

/-- There is no room in the working area, or no word for what is asked of it. At most `top` values
are pinned then. -/
def Stop.NoRoom (limits : Limits) (top : Nat) (e : Stop) : Prop :=
  e = .failure (.exhausted .workingArea) ∨
    e = .fault .outOfRange ∧ Target.sizeLimit ≤ top + limits.reserve

theorem Stop.NoRoom.mono {limits : Limits} {top top' : Nat} {e : Stop} (h : e.NoRoom limits top)
    (htop : top ≤ top') : e.NoRoom limits top' :=
  h.imp_right fun ⟨he, hsize⟩ => ⟨he, by omega⟩

theorem Inspect.noRoom_of_reservation {limits : Limits} {capacity n top : Nat} {e : Stop}
    (h : reservation limits capacity n = .error e) (hn : n ≤ top) : e.NoRoom limits top := by
  rw [reservation] at h
  split at h
  · cases h
    exact .inr ⟨rfl, by omega⟩
  · split at h
    · cases h
    · cases h
      exact .inl rfl

namespace Tree

variable {limits : Limits} {t : Target} {depth n : Nat}

theorem height_pos (tree : Tree Scalar) : 0 < tree.height := by
  cases tree with
  | frameLocal | frameFunction | root | kindMetatable => exact Nat.one_pos
  | index | indexObject | upvalue | metatable | userPayload => exact Nat.lt_add_right _ Nat.one_pos

theorem depth_lt_of_mem_visits {tree : Tree Scalar} {x : Visit} (hx : x ∈ tree.visits t depth n) :
    x.depth < depth + tree.height := by
  induction tree generalizing depth n with
  | frameLocal | frameFunction | root | kindMetatable =>
    rw [List.mem_singleton.mp hx]
    exact Nat.lt_succ_self depth
  | index _ base _ ih | upvalue base _ ih | metatable base ih | userPayload base ih =>
    simp only [height]
    obtain rfl | hx := List.mem_cons.mp hx
    · simp only
      omega
    · have := ih hx
      omega
  | indexObject lookup base key ihb ihk =>
    simp only [visits, List.mem_cons, List.mem_append] at hx
    simp only [height]
    obtain rfl | hx | hx := hx
    · simp only
      omega
    · have := ihb hx
      omega
    · split at hx
      · have := ihk hx
        omega
      · cases hx

theorem pinned_le_of_mem_visits {tree : Tree Scalar} {x : Visit} (hx : x ∈ tree.visits t depth n) :
    x.pinned + depth ≤ n + x.depth := by
  let P : Visit → Prop := fun x => x.pinned + depth ≤ n + x.depth
  have hbase : ∀ d m, P ⟨d, m⟩ → P ⟨d + 1, m⟩ := fun _ _ => Nat.le_succ_of_le
  have hkey : ∀ d m, P ⟨d, m⟩ → P ⟨d + 1, m + 1⟩ := by
    intro d m h
    change m + depth ≤ n + d at h
    change m + 1 + depth ≤ n + (d + 1)
    omega
  exact forall_mem_visits hbase hkey (Nat.le_refl _) x hx

theorem exists_deepest_visit {tree : Tree Scalar} {v : Live} (hv : tree.value t = .ok v) :
    ∃ x ∈ tree.visits t depth n, x.depth + 1 = depth + tree.height := by
  induction tree generalizing depth n v with
  | frameLocal | frameFunction | root | kindMetatable =>
    exact ⟨⟨depth, n⟩, List.mem_singleton_self _, rfl⟩
  | index _ base _ ih | upvalue base _ ih | metatable base ih | userPayload base ih =>
    obtain ⟨_, hbase, -⟩ := Except.bind_eq_ok_iff.mp hv
    obtain ⟨x, hx, hdepth⟩ := @ih (depth + 1) n _ hbase
    refine ⟨x, List.mem_cons_of_mem _ hx, ?_⟩
    simp only [height]
    omega
  | indexObject lookup base key ihb ihk =>
    simp only [value, Except.bind_eq_ok_iff] at hv
    obtain ⟨v', hbase, table, hc, k, hkey, -⟩ := hv
    obtain ⟨x, hx, hdepth⟩ := @ihb (depth + 1) n _ hbase
    obtain ⟨y, hy, hdepth'⟩ := @ihk (depth + 1) (n + 1) _ hkey
    simp only [visits, hbase, Except.ok_bind, hc, height]
    by_cases h : base.height ≤ key.height
    · exact ⟨y, List.mem_cons_of_mem _ (List.mem_append_right _ hy), by omega⟩
    · exact ⟨x, List.mem_cons_of_mem _ (List.mem_append_left _ hx), by omega⟩

/-- With room enough, a value is given under limits unless its tree is too high. -/
theorem limited_of_value {tree : Tree Scalar} {v : Live} (hv : tree.value t = .ok v) :
    tree.height ≤ limits.recursion ∧ tree.limited limits t 0 n = .ok v ∨
    limits.recursion < tree.height ∧ tree.limited limits t 0 n =
      .error (.failure (.exhausted (.recursionLimit limits.recursion))) ∨
    ∃ e, tree.limited limits t 0 n = .error e ∧ e.NoRoom limits (n + limits.recursion) := by
  cases hvisits : forM (tree.visits t 0 n) (Visit.allow limits t.capacity) with
  | ok u =>
    refine .inl ⟨?_, limited_eq_ok_iff.mpr ⟨hvisits, hv⟩⟩
    obtain ⟨x, hx, hdepth⟩ := @exists_deepest_visit t 0 n _ _ hv
    have := Visit.depth_of_allow (Except.forM_eq_ok_iff.mp hvisits x hx)
    omega
  | error e =>
    have hlimited : tree.limited limits t 0 n = .error e := limited_eq_error_iff.mpr (.inl hvisits)
    obtain ⟨before, x, after, hsplit, -, hx⟩ := Except.forM_eq_error_iff.mp hvisits
    have hmem : x ∈ tree.visits t 0 n := by simp [hsplit]
    have hdepth := depth_lt_of_mem_visits hmem
    have hpinned := pinned_le_of_mem_visits hmem
    rw [Visit.allow] at hx
    split at hx
    · cases hx
      exact .inr (.inl ⟨by omega, hlimited⟩)
    · exact .inr (.inr ⟨e, hlimited, Inspect.noRoom_of_reservation hx (by omega)⟩)

end Tree

end RemoteInspect
