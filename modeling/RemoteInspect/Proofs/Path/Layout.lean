import RemoteInspect.Proofs.Tree.Search

namespace RemoteInspect.Path

variable {count : Nat}

theorem sizes_cons (s : Step) (rest : List Step) :
    sizes count (s :: rest) = (sizes count rest).push (sizeOfStep count s (sizes count rest)) :=
  rfl

theorem size_sizes (steps : List Step) : (sizes count steps).size = steps.length := by
  induction steps with
  | nil => rfl
  | cons s rest ih => rw [sizes_cons, Array.size_push, ih, List.length_cons]

namespace Sizes

theorem ahead_push_zero (sizes : Sizes) (size : Except Defect Nat) :
    ahead (sizes.push size) count 0 = size := by
  simp [ahead]

theorem ahead_push_succ {sizes : Sizes} (hcount : sizes.size < count) (size : Except Defect Nat)
    (i : Nat) : ahead (sizes.push size) count (i + 1) = sizes.ahead count i := by
  by_cases h : i < sizes.size
  · have hi : sizes.size - 1 - i < sizes.size := by omega
    have hs : sizes.size - (i + 1) = sizes.size - 1 - i := by omega
    simp [ahead, h, hs, Array.getElem?_push_lt hi, hi]
  · have hpos : count - (sizes.size + 1) + (i + 1) = count - sizes.size + i := by omega
    simp [ahead, h, hpos]

end Sizes

theorem sizeOfStep_eq_search {later : Sizes} {rest : List Step} {pos : Nat}
    (hpos : count - 1 - later.size = pos)
    (hlater : ∀ i, later.ahead count i = (Tree.search (pos + 1 + i) (rest.drop i)).map Tree.size)
    (s : Step) : sizeOfStep count s later = (Tree.search pos (s :: rest)).map Tree.size := by
  have hbase : later.ahead count 0 = (Tree.search (pos + 1) rest).map Tree.size := hlater 0
  cases s with
  | frameLocal | frameFunction | root | kindMetatable =>
    simp [sizeOfStep, Step.shape, Tree.search, Tree.size]
  | index | upvalue | metatable | userPayload =>
    simp only [sizeOfStep, Step.shape, Tree.search, hbase]
    cases Tree.search (pos + 1) rest <;> rfl
  | indexObject lookup declared =>
    simp only [sizeOfStep, Tree.search, hbase, hpos]
    cases Tree.search (pos + 1) rest with
    | error e => rfl
    | ok base =>
      simp only [Except.map_ok, Except.ok_bind, hlater]
      by_cases hsize : base.size = declared.toNat
      · simp only [hsize, ne_eq, not_true_eq_false, ↓reduceIte]
        cases Tree.search (pos + 1 + declared.toNat) (rest.drop declared.toNat) <;>
          simp [Tree.size, hsize]
      · simp [hsize]

theorem ahead_sizes {steps : List Step} (hcount : steps.length ≤ count) (i : Nat) :
    (sizes count steps).ahead count i =
      (Tree.search (count - steps.length + i) (steps.drop i)).map Tree.size := by
  -- By induction from the last step. The size that a step has is looked up in what is checked
  -- already, and there the search goes on.
  induction steps generalizing i with
  | nil => simp [sizes, Sizes.ahead, Tree.search]
  | cons s rest ih =>
    rw [List.length_cons] at hcount
    have hpos : count - rest.length = count - (rest.length + 1) + 1 := by omega
    rw [sizes_cons]
    cases i with
    | zero =>
      rw [Sizes.ahead_push_zero]
      refine sizeOfStep_eq_search ?_ (fun i => ?_) s
      · rw [size_sizes, List.length_cons]
        omega
      · rw [ih (by omega), List.length_cons, hpos, Nat.add_zero]
    | succ i =>
      rw [Sizes.ahead_push_succ (by rw [size_sizes]; exact hcount), ih (by omega), hpos,
        List.length_cons, List.drop_succ_cons, Nat.add_right_comm, Nat.add_assoc]

theorem checkedSize_eq_search (steps : List Step) :
    checkedSize steps = (Tree.search 0 steps).map Tree.size := by
  rw [checkedSize, ahead_sizes (Nat.le_refl _), Nat.sub_self, List.drop_zero]

end RemoteInspect.Path
