import RemoteInspect.Path.Node
import RemoteInspect.Proofs.Handle.Restoring

namespace RemoteInspect.Path

theorem walk_add (k skip walked : Nat) (steps : List Step) :
    walk skip (k + walked) steps = (walk skip walked steps).map (k + ·) := by
  induction steps generalizing skip walked with
  | nil => simp [walk]
  | cons s rest ih =>
    cases skip with
    | succ skip => exact ih skip (walked + 1)
    | zero =>
      rw [walk, walk]
      cases s.shape with
      | leaf => rfl
      | based => exact ih 0 (walked + 1)
      | keyed baseSize => exact ih baseSize (walked + 1)

theorem walk_append (skipped rest : List Step) (walked : Nat) :
    walk skipped.length walked (skipped ++ rest) = walk 0 (walked + skipped.length) rest := by
  induction skipped generalizing walked with
  | nil => rfl
  | cons s skipped ih =>
    rw [List.cons_append, List.length_cons, walk, ih, Nat.add_assoc, Nat.add_comm 1]

namespace Node

def visit (n : Node) : List Node :=
  n :: match _hb : n.base with
    | .error _ => []
    | .ok base => base.visit ++ match _hk : n.key with
      | .error _ => []
      | .ok key => key.visit
termination_by n.steps.length
decreasing_by
  · exact length_base _hb
  · exact length_key _hk

def positions? (n : Node) : Option (List Nat) :=
  n.size?.map (List.range' n.offset ·)

/-- A node has its own record, then those of its base and then those of its key, as far as its step
has a base and a key. -/
inductive LaidOut (n : Node) : Prop
  | leaf {s : Step} (step : n.step? = some s) (shape : s.shape = .leaf)
      (records : n.positions? = some [n.offset])
  | based {s : Step} {b : Node} {below : List Nat} (step : n.step? = some s)
      (shape : s.shape = .based) (base : n.base = .ok b)
      (baseRecords : b.positions? = some below)
      (records : n.positions? = some (n.offset :: below))
  | keyed {s : Step} {b k : Node} {below behind : List Nat} (step : n.step? = some s)
      (shape : s.shape = .keyed below.length) (base : n.base = .ok b) (key : n.key = .ok k)
      (baseRecords : b.positions? = some below) (keyRecords : k.positions? = some behind)
      (records : n.positions? = some (n.offset :: below ++ behind))

structure Covers (n : Node) (size : Nat) : Prop where
  size_eq : n.size? = some size
  listed : n.visit = preorder n.steps n.offset
  offsets : n.visit.map Node.offset = List.range' n.offset size
  within : ∀ m ∈ n.visit, ∃ i, m.offset = n.offset + i ∧ m.steps = n.steps.drop i
  laidOut : ∀ m ∈ n.visit, m.LaidOut

theorem visit_of_leaf {n : Node} {f : Fault} (hb : n.base = .error f) : n.visit = [n] := by
  rw [visit]
  split
  · rfl
  · rename_i h
    cases hb.symm.trans h

theorem visit_of_based {n b : Node} {f : Fault} (hb : n.base = .ok b) (hk : n.key = .error f) :
    n.visit = n :: b.visit := by
  rw [visit]
  split
  · rename_i h
    cases hb.symm.trans h
  · rename_i h
    cases hb.symm.trans h
    split
    · rw [List.append_nil]
    · rename_i h
      cases hk.symm.trans h

theorem visit_of_keyed {n b k : Node} (hb : n.base = .ok b) (hk : n.key = .ok k) :
    n.visit = n :: (b.visit ++ k.visit) := by
  rw [visit]
  split
  · rename_i h
    cases hb.symm.trans h
  · rename_i h
    cases hb.symm.trans h
    split
    · rename_i h
      cases hk.symm.trans h
    · rename_i h
      cases hk.symm.trans h
      rfl

variable {s : Step} {rest : List Step} {offset size : Nat}

theorem Covers.positions?_eq {n : Node} (h : n.Covers size) :
    n.positions? = some (List.range' n.offset size) := by
  rw [positions?, h.size_eq, Option.map_some]

theorem Covers.leaf (h : s.shape = .leaf) : Covers ⟨s :: rest, offset⟩ 1 := by
  have hb : base ⟨s :: rest, offset⟩ = .error (.noBase s) := by simp [base, h]
  have hsize : size? ⟨s :: rest, offset⟩ = some 1 := by simp [size?, sizeOf?, walk, h]
  refine ⟨hsize, ?_, ?_, ?_, ?_⟩ <;> rw [visit_of_leaf hb]
  · rw [preorder, h]
  · rfl
  · rintro m hm
    rw [List.mem_singleton.mp hm]
    exact ⟨0, rfl, rfl⟩
  · rintro m hm
    rw [List.mem_singleton.mp hm]
    exact .leaf rfl h (by rw [positions?, hsize]; rfl)

theorem Covers.based (h : s.shape = .based) (hbase : Covers ⟨rest, offset + 1⟩ size) :
    Covers ⟨s :: rest, offset⟩ (size + 1) := by
  let n : Node := ⟨s :: rest, offset⟩
  have hb : n.base = .ok ⟨rest, offset + 1⟩ := by simp [n, base, h]
  have hk : n.key = .error (.noKey s) := by simp [n, key, h]
  have hsize : n.size? = some (size + 1) := by
    have hwalk : n.size? = walk 0 (1 + 0) rest := by simp [n, size?, sizeOf?, walk, h]
    rw [hwalk, walk_add, Nat.add_comm size]
    exact congrArg (Option.map (1 + ·)) hbase.size_eq
  refine ⟨hsize, ?_, ?_, ?_, ?_⟩ <;> rw [visit_of_based hb hk]
  · rw [hbase.listed, preorder, h]
  · rw [List.map_cons, hbase.offsets]
    rfl
  · refine List.forall_mem_cons.mpr ⟨⟨0, rfl, rfl⟩, fun m hm => ?_⟩
    obtain ⟨i, hoffset, hsteps⟩ := hbase.within m hm
    exact ⟨i + 1, hoffset.trans (Nat.add_right_comm ..), hsteps⟩
  · refine List.forall_mem_cons.mpr ⟨?_, hbase.laidOut⟩
    exact .based rfl h hb hbase.positions?_eq (by rw [positions?, hsize]; rfl)

theorem Covers.keyed {below : List Step} (h : s.shape = .keyed below.length)
    (hbase : Covers ⟨below ++ rest, offset + 1⟩ below.length)
    (hkey : Covers ⟨rest, offset + 1 + below.length⟩ size) :
    Covers ⟨s :: (below ++ rest), offset⟩ (below.length + size + 1) := by
  let n : Node := ⟨s :: (below ++ rest), offset⟩
  have hb : n.base = .ok ⟨below ++ rest, offset + 1⟩ := by simp [n, base, h]
  have hk : n.key = .ok ⟨rest, offset + 1 + below.length⟩ := by simp [n, key, h]
  have hsize : n.size? = some (below.length + size + 1) := by
    have hwalk : n.size? = walk below.length 1 (below ++ rest) := by
      simp [n, size?, sizeOf?, walk, h]
    rw [hwalk, walk_append, ← Nat.add_zero (1 + below.length), walk_add, Nat.add_comm 1]
    refine (congrArg (Option.map _) hkey.size_eq).trans ?_
    rw [Option.map_some, Nat.add_right_comm]
  have hrecords : List.range' offset (below.length + size + 1) =
      offset :: (List.range' (offset + 1) below.length ++
        List.range' (offset + 1 + below.length) size) := by
    rw [List.range'_append_1, List.range'_succ]
  refine ⟨hsize, ?_, ?_, ?_, ?_⟩ <;> rw [visit_of_keyed hb hk]
  · rw [hbase.listed, hkey.listed, preorder, h]
    simp only [List.drop_left, n]
  · rw [List.map_cons, List.map_append, hbase.offsets, hkey.offsets, hrecords]
  · refine List.forall_mem_cons.mpr ⟨⟨0, rfl, rfl⟩, fun m hm => ?_⟩
    obtain hm | hm := List.mem_append.mp hm
    · obtain ⟨i, hoffset, hsteps⟩ := hbase.within m hm
      exact ⟨i + 1, hoffset.trans (Nat.add_right_comm ..), hsteps⟩
    · obtain ⟨i, hoffset, hsteps⟩ := hkey.within m hm
      refine ⟨below.length + i + 1, hoffset.trans (by dsimp only; omega), ?_⟩
      rw [hsteps, List.drop_succ_cons, ← List.drop_drop, List.drop_left]
  · refine List.forall_mem_cons.mpr ⟨?_, fun m hm =>
      (List.mem_append.mp hm).elim (hbase.laidOut m) (hkey.laidOut m)⟩
    refine .keyed rfl (by rwa [List.length_range']) hb hk hbase.positions?_eq hkey.positions?_eq ?_
    rw [positions?, hsize, Option.map_some, hrecords, List.cons_append]

theorem covers_preorder {r : Tree UInt32} (hr : r.Declarable) (rest : List Step) (offset : Nat) :
    Covers ⟨r.preorder ++ rest, offset⟩ r.size := by
  -- By induction on the tree that begins at the node.
  induction r generalizing rest offset with
  | frameLocal | frameFunction | root | kindMetatable => exact .leaf rfl
  | index lookup base key ih | upvalue base i ih | metatable base ih | userPayload base ih =>
    rw [Tree.size, Nat.add_comm]
    exact .based rfl (ih hr rest (offset + 1))
  | indexObject lookup base key ihb ihk =>
    obtain ⟨hsize, hb, hk⟩ := hr
    have hdeclared : (UInt32.ofNat base.size).toNat = base.preorder.length := by
      rw [UInt32.toNat_ofNat_of_lt' hsize, Tree.length_preorder]
    have hbase := ihb hb (key.preorder ++ rest) (offset + 1)
    have hkey := ihk hk rest (offset + 1 + base.size)
    rw [← Tree.length_preorder base] at hbase hkey
    rw [Tree.size, Nat.add_assoc, Nat.add_comm 1, ← Tree.length_preorder base, Tree.preorder,
      List.cons_append, List.append_assoc]
    exact .keyed (congrArg Shape.keyed hdeclared) hbase hkey

end Node

/-- The check finds one subpath, which has all steps. -/
def Valid (p : Path) : Prop := checkedSize p.steps = .ok p.size

theorem valid_iff {p : Path} :
    p.Valid ↔ ∃ r : Tree UInt32, r.Declarable ∧ r.preorder = p.steps := by
  rw [Valid, checkedSize_eq_search, Except.map_eq_ok_iff]
  constructor
  · rintro ⟨r, hr, hsize⟩
    obtain ⟨hd, rest, hrest⟩ := Tree.exists_append_of_search hr
    have hnil : rest = [] := by
      rw [size, ← hrest, List.length_append, Tree.length_preorder] at hsize
      exact List.length_eq_zero_iff.mp (by omega)
    rw [hnil, List.append_nil] at hrest
    exact ⟨r, hd, hrest⟩
  · rintro ⟨r, hd, hp⟩
    have hr := Tree.search_preorder hd 0 []
    rw [List.append_nil, hp] at hr
    exact ⟨r, hr, by rw [size, ← hp, Tree.length_preorder]⟩

theorem sizeOf?_of_ahead {steps : List Step} {i n : Nat}
    (h : (sizes steps.length steps).ahead steps.length i = .ok n) (others : List Step) :
    sizeOf? (steps.drop i ++ others) = some n := by
  rw [ahead_sizes (Nat.le_refl _), Except.map_eq_ok_iff] at h
  obtain ⟨r, hr, rfl⟩ := h
  obtain ⟨hd, rest, hrest⟩ := Tree.exists_append_of_search hr
  rw [← hrest, List.append_assoc]
  exact (Node.covers_preorder hd (rest ++ others) i).size_eq

/-- Where the check finds a size, the walk over declared sizes finds it too, whatever follows. So
the nodes of a path that passes the check, which are what bases and keys lead to, begin at each of
its records once and in order, and each has its own record, those of its base and those of its
key. -/
theorem nodes_partition :
    (∀ steps i n, (sizes steps.length steps).ahead steps.length i = .ok n →
      ∀ others, sizeOf? (steps.drop i ++ others) = some n) ∧
    (∀ records p, decode records = .ok p → p.Valid) ∧
    (∀ h : Handle, h.Built → h.path.Valid) ∧
    ∀ p : Path, p.Valid →
      p.root.visit = p.nodes ∧ p.nodes.map Node.offset = List.range p.size ∧
        ∀ n ∈ p.nodes, n.steps = p.steps.drop n.offset ∧ n.LaidOut := by
  refine ⟨fun steps i n h others => sizeOf?_of_ahead h others, fun records p h => ?_,
    fun h hh => valid_iff.mpr hh.wellFormed.laidOut, fun p hp => ?_⟩
  · obtain ⟨-, -, htree⟩ := decode_eq_ok_iff.mp h
    exact valid_iff.mpr htree
  · obtain ⟨r, hd, hsteps⟩ := valid_iff.mp hp
    have hcovers := Node.covers_preorder hd [] 0
    rw [List.append_nil, hsteps] at hcovers
    have hlisted : p.root.visit = p.nodes := hcovers.listed
    rw [← hlisted, root]
    refine ⟨rfl, ?_, fun n hn => ⟨?_, hcovers.laidOut n hn⟩⟩
    · rw [hcovers.offsets, size, ← hsteps, Tree.length_preorder, List.range_eq_range']
    · obtain ⟨i, hoffset, hdrop⟩ := hcovers.within n hn
      rw [hdrop, hoffset, Nat.zero_add]

/-- The base is a lookup with an object key itself, and the last record is no part of the path. -/
theorem nodes_partition_nested :
    let steps : List Step := [.indexObject .get 4, .indexObject .next 2, .metatable,
      .root .globals, .root .registry, .upvalue 2, .root .mainThread, .userPayload]
    let p : Path := ⟨steps.take 7⟩
    (sizes 8 steps).ahead 8 1 = .ok 4 ∧ sizeOf? (steps.drop 1 ++ [.metatable]) = some 4 ∧
      decode p.encode = .ok p ∧ p.Valid ∧ Handle.Built ⟨p, .empty⟩ ∧
      p.nodes.map Node.offset = [0, 1, 2, 3, 4, 5, 6] ∧
      Node.LaidOut ⟨p.steps.drop 1, 1⟩ := by
  intro steps p
  obtain ⟨hsizes, hdecoded, hbuilt, hpartition⟩ := nodes_partition
  have hsize : (sizes 8 steps).ahead 8 1 = .ok 4 := rfl
  have hdecode : decode p.encode = .ok p := rfl
  have hhandle : Handle.Built ⟨p, .empty⟩ := .ofParts hdecode rfl
  have hvalid : p.Valid := hdecoded p.encode p hdecode
  obtain ⟨-, hoffsets, hlaidOut⟩ := hpartition p (hbuilt ⟨p, .empty⟩ hhandle)
  have hmem : (⟨p.steps.drop 1, 1⟩ : Node) ∈ p.nodes := by decide +kernel
  exact ⟨hsize, hsizes steps 1 4 hsize [.metatable], hdecode, hvalid, hhandle, hoffsets,
    (hlaidOut _ hmem).2⟩

end RemoteInspect.Path
