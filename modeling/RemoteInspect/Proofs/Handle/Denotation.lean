import RemoteInspect.Proofs.Handle.Parts

namespace RemoteInspect

namespace Pool

theorem size_push (p : Pool) (s : Scalar) : (p.push s).size = p.size + 1 :=
  List.length_append

theorem size_append (p q : Pool) : (p.append q).size = p.size + q.size :=
  List.length_append

theorem constant_append_left {p : Pool} {ref : UInt32} (h : ref.toNat ≤ p.size) (q : Pool) :
    (p.append q).constant ref = p.constant ref := by
  by_cases h0 : ref = 0
  · simp [constant, get?, h0]
  · have hpos : ref.toNat ≠ 0 := fun he => h0 (UInt32.toNat_inj.mp he)
    have hlt : ref.toNat - 1 < p.entries.length := by rw [size] at h; omega
    simp [constant, get?, append, h0, List.getElem?_append_left hlt]

theorem constant_append_right (p q : Pool) {ref : UInt32} {i : Nat} (hi : i ≠ 0)
    (h : ref.toNat = i + p.size) : (p.append q).constant ref = (q.entries[i - 1]?).getD .nil := by
  have h0 : ref ≠ 0 := by
    rintro rfl
    rw [UInt32.toNat_zero] at h
    omega
  have hle : p.entries.length ≤ ref.toNat - 1 := by rw [size] at h; omega
  have hs : ref.toNat - 1 - p.entries.length = i - 1 := by rw [size] at h; omega
  simp [constant, get?, append, h0, List.getElem?_append_right hle, hs]

end Pool

namespace Handle

/-- What becomes of a reference whose pool is placed after `offset` other entries. -/
def shifted (offset : Nat) (ref : UInt32) : UInt32 :=
  if ref = 0 then 0 else .ofNat (ref.toNat + offset)

theorem toNat_shifted {offset : Nat} {ref : UInt32} (h0 : ref ≠ 0)
    (h : ref.toNat + offset < wordLimit) : (shifted offset ref).toNat = ref.toNat + offset := by
  rw [shifted, if_neg h0, UInt32.toNat_ofNat_of_lt' h]

theorem shift_eq_ok_iff {offset : Nat} {lookup : Lookup} {ref : UInt32} {s : Step} :
    shift offset (.index lookup ref) = .ok s ↔
      (ref ≠ 0 → ref.toNat + offset < wordLimit) ∧ s = .index lookup (shifted offset ref) := by
  by_cases h0 : ref = 0
  · simp [shift, shifted, h0, eq_comm]
  · by_cases h : wordLimit ≤ ref.toNat + offset
    · simp [shift, h0, h, Nat.not_lt.mpr h]
    · simp [shift, shifted, h0, h, eq_comm, Nat.lt_of_not_le h]

theorem mapM_shift_eq_ok_iff {offset : Nat} {r : Tree UInt32} {steps : List Step} :
    r.preorder.mapM (shift offset) = .ok steps ↔
      (∀ ref ∈ r.keys, ref ≠ 0 → ref.toNat + offset < wordLimit) ∧
        steps = (r.map (shifted offset)).preorder := by
  induction r generalizing steps with
  | frameLocal | frameFunction | root | kindMetatable =>
    simp [Tree.preorder, Tree.step, Tree.keys, Tree.map, shift, eq_comm]
  | index lookup base ref ih =>
    simp only [Tree.preorder, Tree.step, Tree.keys, Tree.map, List.mapM_cons,
      Except.bind_eq_ok_iff, shift_eq_ok_iff, ih, Except.pure_eq_ok, List.forall_mem_cons]
    constructor
    · rintro ⟨s, ⟨hs, rfl⟩, rest, ⟨hr, rfl⟩, h⟩
      exact ⟨⟨hs, hr⟩, (Except.ok.inj h).symm⟩
    · rintro ⟨⟨hs, hr⟩, rfl⟩
      exact ⟨_, ⟨hs, rfl⟩, _, ⟨hr, rfl⟩, rfl⟩
  | indexObject lookup base key ihb ihk =>
    simp only [Tree.preorder, Tree.step, Tree.keys, Tree.map, List.mapM_cons, List.mapM_append,
      Except.bind_eq_ok_iff, shift, ihb, ihk, Except.pure_eq_ok, List.forall_mem_append,
      Tree.size_map]
    constructor
    · rintro ⟨s, hs, rest, ⟨b, ⟨hb, rfl⟩, k, ⟨hk, rfl⟩, h'⟩, h⟩
      cases hs; cases h'; cases h
      exact ⟨⟨hb, hk⟩, rfl⟩
    · rintro ⟨⟨hb, hk⟩, rfl⟩
      exact ⟨_, rfl, _, ⟨_, ⟨hb, rfl⟩, _, ⟨hk, rfl⟩, rfl⟩, rfl⟩
  | upvalue base n ih | metatable base ih | userPayload base ih =>
    simp only [Tree.preorder, Tree.step, Tree.keys, Tree.map, List.mapM_cons,
      Except.bind_eq_ok_iff, shift, ih, Except.pure_eq_ok]
    constructor
    · rintro ⟨s, hs, rest, ⟨hr, rfl⟩, h⟩
      cases hs; cases h
      exact ⟨hr, rfl⟩
    · rintro ⟨hr, rfl⟩
      exact ⟨_, rfl, _, ⟨hr, rfl⟩, rfl⟩

/-- `r` is the tree of the path of `h`, and the pool has all that `r` refers to. -/
structure Encodes (h : Handle) (r : Tree UInt32) : Prop where
  declarable : r.Declarable
  preorder : r.preorder = h.path.steps
  bounded : ∀ ref ∈ r.keys, ref.toNat ≤ h.pool.size

/-- `t` is the tree of `h`, and no reference of `h` dangles. -/
def Denotes (h : Handle) (t : Tree Scalar) : Prop :=
  ∃ r : Tree UInt32, h.Encodes r ∧ r.map h.pool.constant = t

theorem Encodes.size {h : Handle} {r : Tree UInt32} (hr : h.Encodes r) : r.size = h.path.size := by
  rw [← Tree.length_preorder, hr.preorder, Path.size]

theorem Denotes.size {h : Handle} {t : Tree Scalar} (ht : h.Denotes t) :
    t.size = h.path.size := by
  obtain ⟨r, hr, rfl⟩ := ht
  rw [Tree.size_map, hr.size]

theorem Denotes.means_iff {h : Handle} {t u : Tree Scalar} (ht : h.Denotes t) :
    h.Means u ↔ u = t := by
  obtain ⟨r, hr, rfl⟩ := ht
  constructor
  · rintro ⟨r', _, hp, rfl⟩
    rw [Tree.preorder_inj (hp.trans hr.preorder.symm)]
  · rintro rfl
    exact ⟨r, hr.declarable, hr.preorder, rfl⟩

theorem Denotes.means {h : Handle} {t : Tree Scalar} (ht : h.Denotes t) : h.Means t :=
  ht.means_iff.mpr rfl

theorem Denotes.eq {h : Handle} {t u : Tree Scalar} (ht : h.Denotes t) (hu : h.Denotes u) :
    t = u :=
  hu.means_iff.mp ht.means

theorem denotes_root (r : Root) : (root r).Denotes (.root r) :=
  ⟨.root r, ⟨trivial, rfl, by simp [Tree.keys]⟩, rfl⟩

theorem denotes_frameLocal (frame : UInt16) (slot : UInt32) :
    (frameLocal frame slot).Denotes (.frameLocal frame slot) :=
  ⟨.frameLocal frame slot, ⟨trivial, rfl, by simp [Tree.keys]⟩, rfl⟩

theorem denotes_frameFunction (frame : UInt16) :
    (frameFunction frame).Denotes (.frameFunction frame) :=
  ⟨.frameFunction frame, ⟨trivial, rfl, by simp [Tree.keys]⟩, rfl⟩

theorem denotes_kindMetatable (kind : Kind) :
    (kindMetatable kind).Denotes (.kindMetatable kind) :=
  ⟨.kindMetatable kind, ⟨trivial, rfl, by simp [Tree.keys]⟩, rfl⟩

variable {b k h : Handle} {tb tk : Tree Scalar}

theorem Denotes.upvalue (hb : b.Denotes tb) (n : UInt32) :
    (b.upvalue n).Denotes (.upvalue tb n) := by
  obtain ⟨r, hr, rfl⟩ := hb
  exact ⟨.upvalue r n, ⟨hr.declarable, congrArg (Step.upvalue n :: ·) hr.preorder, hr.bounded⟩, rfl⟩

theorem Denotes.metatable (hb : b.Denotes tb) : b.metatable.Denotes (.metatable tb) := by
  obtain ⟨r, hr, rfl⟩ := hb
  exact ⟨.metatable r, ⟨hr.declarable, congrArg (Step.metatable :: ·) hr.preorder, hr.bounded⟩, rfl⟩

theorem Denotes.userPayload (hb : b.Denotes tb) : b.userPayload.Denotes (.userPayload tb) := by
  obtain ⟨r, hr, rfl⟩ := hb
  exact ⟨.userPayload r,
    ⟨hr.declarable, congrArg (Step.userPayload :: ·) hr.preorder, hr.bounded⟩, rfl⟩

theorem Denotes.constantLookup {lookup : Lookup} {key : Scalar} (hb : b.Denotes tb)
    (h' : b.constantLookup lookup key = .ok h) : h.Denotes (.index lookup tb key) := by
  obtain ⟨r, hr, rfl⟩ := hb
  by_cases hnil : key = .nil
  · subst hnil
    simp only [Handle.constantLookup, ↓reduceIte, Except.ok.injEq] at h'
    subst h'
    refine ⟨.index lookup r 0, ⟨hr.declarable, congrArg (_ :: ·) hr.preorder, ?_⟩, rfl⟩
    exact List.forall_mem_cons.mpr ⟨Nat.zero_le _, hr.bounded⟩
  · by_cases hfull : wordLimit ≤ b.pool.size + 1
    · simp [Handle.constantLookup, hnil, hfull] at h'
    · simp only [Handle.constantLookup, extend, hnil, hfull, ↓reduceIte, Except.ok.injEq] at h'
      subst h'
      have href : (UInt32.ofNat (b.pool.size + 1)).toNat = 1 + b.pool.size := by
        rw [UInt32.toNat_ofNat_of_lt' (Nat.lt_of_not_le hfull), Nat.add_comm]
      refine ⟨.index lookup r (.ofNat (b.pool.size + 1)),
        ⟨hr.declarable, congrArg (_ :: ·) hr.preorder, ?_⟩, ?_⟩
      · refine List.forall_mem_cons.mpr ⟨?_, fun ref hm => ?_⟩
        · refine Nat.le_of_eq ?_
          rw [href, Pool.size_push, Nat.add_comm]
        · rw [Pool.size_push]
          exact Nat.le_succ_of_le (hr.bounded ref hm)
      · have hp : b.pool.push key = b.pool.append ⟨[key]⟩ := rfl
        rw [Tree.map, hp, Pool.constant_append_right b.pool ⟨[key]⟩ Nat.one_ne_zero href]
        exact congrArg (Tree.index lookup · key)
          (Tree.map_congr fun ref hm => Pool.constant_append_left (hr.bounded ref hm) _)

theorem Denotes.index {key : Scalar} (hb : b.Denotes tb) (h' : b.index key = .ok h) :
    h.Denotes (.index .get tb key) := by
  by_cases hnil : key = .nil
  · simp [Handle.index, hnil] at h'
  · rw [Handle.index, if_neg hnil] at h'
    exact hb.constantLookup h'

theorem Denotes.nextKey {last : Scalar} (hb : b.Denotes tb) (h' : b.nextKey last = .ok h) :
    h.Denotes (.index .next tb last) :=
  hb.constantLookup h'

theorem indexObject_eq_ok_iff_mapM {lookup : Lookup} :
    b.indexObject lookup k = .ok h ↔
      b.pool.size < wordLimit ∧ b.path.size < wordLimit ∧
        ∃ moved, k.path.steps.mapM (shift b.pool.size) = .ok moved ∧
          h = ⟨⟨.indexObject lookup (.ofNat b.path.size) :: b.path.steps ++ moved⟩,
            b.pool.append k.pool⟩ := by
  by_cases hp : wordLimit ≤ b.pool.size
  · simp [Handle.indexObject, hp, Nat.not_lt.mpr hp]
  · by_cases hs : wordLimit ≤ b.path.size
    · simp [Handle.indexObject, hp, hs, Nat.not_lt.mpr hs]
    · simp only [Handle.indexObject, hp, hs, ↓reduceIte, Except.pure_eq_ok,
        Except.bind_eq_ok_iff, Except.ok.injEq, Nat.lt_of_not_le hp, Nat.lt_of_not_le hs,
        true_and, eq_comm (b := h)]

theorem indexObject_eq_ok_iff {lookup : Lookup} {rk : Tree UInt32} (hk : k.Encodes rk) :
    b.indexObject lookup k = .ok h ↔
      b.pool.size < wordLimit ∧ b.path.size < wordLimit ∧
        (∀ ref ∈ rk.keys, ref ≠ 0 → ref.toNat + b.pool.size < wordLimit) ∧
        h = ⟨⟨.indexObject lookup (.ofNat b.path.size) ::
          b.path.steps ++ (rk.map (shifted b.pool.size)).preorder⟩, b.pool.append k.pool⟩ := by
  simp only [indexObject_eq_ok_iff_mapM, ← hk.preorder, mapM_shift_eq_ok_iff, and_assoc,
    exists_and_left, exists_eq_left]

theorem Denotes.indexObject {lookup : Lookup} (hb : b.Denotes tb) (hk : k.Denotes tk)
    (h' : b.indexObject lookup k = .ok h) : h.Denotes (.indexObject lookup tb tk) := by
  obtain ⟨rb, hrb, rfl⟩ := hb
  obtain ⟨rk, hrk, rfl⟩ := hk
  obtain ⟨-, hsize, hfit, rfl⟩ := (indexObject_eq_ok_iff hrk).mp h'
  refine ⟨.indexObject lookup rb (rk.map (shifted b.pool.size)), ⟨?_, ?_, ?_⟩, ?_⟩
  · exact ⟨hrb.size ▸ hsize, hrb.declarable, Tree.declarable_map hrk.declarable _⟩
  · rw [Tree.preorder, Tree.step, hrb.size, hrb.preorder, List.cons_append]
  · intro ref hm
    rw [Tree.keys, List.mem_append, Tree.keys_map, List.mem_map] at hm
    rw [Pool.size_append]
    obtain hm | ⟨ref, hm, rfl⟩ := hm
    · have := hrb.bounded ref hm
      omega
    · have := hrk.bounded ref hm
      by_cases h0 : ref = 0
      · simp [shifted, h0]
      · rw [toNat_shifted h0 (hfit ref hm h0)]
        omega
  · rw [Tree.map, Tree.map_map]
    congr 1
    · exact Tree.map_congr fun ref hm => Pool.constant_append_left (hrb.bounded ref hm) _
    · refine Tree.map_congr fun ref hm => ?_
      by_cases h0 : ref = 0
      · simp [shifted, h0, Pool.constant, Pool.get?]
      · have hpos : ref.toNat ≠ 0 := fun he => h0 (UInt32.toNat_inj.mp he)
        rw [Function.comp_apply,
          Pool.constant_append_right _ _ hpos (toNat_shifted h0 (hfit ref hm h0))]
        simp [Pool.constant, Pool.get?, h0]

theorem exists_constantLookup (hb : b.pool.size + 1 < wordLimit) (lookup : Lookup)
    (key : Scalar) : ∃ h, b.constantLookup lookup key = .ok h := by
  by_cases hnil : key = .nil
  · simp [Handle.constantLookup, hnil]
  · simp [Handle.constantLookup, hnil, Nat.not_le.mpr hb]

theorem exists_indexObject (hk : k.Denotes tk) (hp : b.pool.size + k.pool.size < wordLimit)
    (hs : b.path.size < wordLimit) (lookup : Lookup) :
    ∃ h, b.indexObject lookup k = .ok h := by
  obtain ⟨rk, hrk, rfl⟩ := hk
  have hfit : ∀ ref ∈ rk.keys, ref ≠ 0 → ref.toNat + b.pool.size < wordLimit := by
    intro ref hm _
    have := hrk.bounded ref hm
    omega
  exact ⟨_, (indexObject_eq_ok_iff hrk).mpr ⟨by omega, hs, hfit, rfl⟩⟩

/-- The handles that can be had: those of the constructors, and those assembled from records. -/
inductive Built : Handle → Prop
  | root (r : Root) : Built (.root r)
  | frameLocal (frame : UInt16) (slot : UInt32) : Built (.frameLocal frame slot)
  | frameFunction (frame : UInt16) : Built (.frameFunction frame)
  | kindMetatable (kind : Kind) : Built (.kindMetatable kind)
  | ofParts {records : List Record} {path : Path} {pool : Pool} {h : Handle}
      (decoded : Path.decode records = .ok path) (parts : Handle.ofParts path pool = .ok h) :
      Built h
  | index {b h : Handle} {key : Scalar} (base : Built b) (made : b.index key = .ok h) : Built h
  | nextKey {b h : Handle} {last : Scalar} (base : Built b) (made : b.nextKey last = .ok h) :
      Built h
  | indexObject {b k h : Handle} {lookup : Lookup} (base : Built b) (key : Built k)
      (made : b.indexObject lookup k = .ok h) : Built h
  | upvalue {b : Handle} (base : Built b) (n : UInt32) : Built (b.upvalue n)
  | metatable {b : Handle} (base : Built b) : Built b.metatable
  | userPayload {b : Handle} (base : Built b) : Built b.userPayload

theorem denotes_of_ofParts {records : List Record} {path : Path} {pool : Pool}
    (hd : Path.decode records = .ok path) (hp : ofParts path pool = .ok h) :
    ∃ t, h.Denotes t := by
  obtain ⟨-, -, r, hr, hs⟩ := Path.decode_eq_ok_iff.mp hd
  obtain ⟨hcovered, rfl⟩ := ofParts_eq_ok_iff.mp hp
  refine ⟨r.map pool.constant, r, ⟨hr, hs, fun ref hm => ?_⟩, rfl⟩
  obtain ⟨lookup, hmem⟩ := Tree.index_mem_preorder hm
  exact hcovered lookup ref (hs ▸ hmem)

theorem Built.denotes (hh : h.Built) : ∃ t, h.Denotes t := by
  induction hh with
  | root r => exact ⟨_, denotes_root r⟩
  | frameLocal frame slot => exact ⟨_, denotes_frameLocal frame slot⟩
  | frameFunction frame => exact ⟨_, denotes_frameFunction frame⟩
  | kindMetatable kind => exact ⟨_, denotes_kindMetatable kind⟩
  | ofParts decoded parts => exact denotes_of_ofParts decoded parts
  | index _ made ih => obtain ⟨t, ht⟩ := ih; exact ⟨_, ht.index made⟩
  | nextKey _ made ih => obtain ⟨t, ht⟩ := ih; exact ⟨_, ht.nextKey made⟩
  | indexObject _ _ made ihb ihk =>
    obtain ⟨tb, hb⟩ := ihb
    obtain ⟨tk, hk⟩ := ihk
    exact ⟨_, hb.indexObject hk made⟩
  | upvalue _ n ih => obtain ⟨t, ht⟩ := ih; exact ⟨_, ht.upvalue n⟩
  | metatable _ ih => obtain ⟨t, ht⟩ := ih; exact ⟨_, ht.metatable⟩
  | userPayload _ ih => obtain ⟨t, ht⟩ := ih; exact ⟨_, ht.userPayload⟩

end Handle

end RemoteInspect
