import Mathlib.Data.List.Nodup
import RemoteInspect.Proofs.Handle.Denotation

namespace RemoteInspect

namespace Step

variable {s : Step} {lookup : Lookup} {ref : UInt32}

theorem toNat_pos_iff : 0 < ref.toNat ↔ ref ≠ 0 :=
  UInt32.lt_iff_toNat_lt.symm.trans UInt32.pos_iff_ne_zero

theorem reference?_index (hpos : 0 < ref.toNat) : (index lookup ref).reference? = some ref :=
  if_neg (toNat_pos_iff.mp hpos)

theorem reference?_eq_some_iff :
    s.reference? = some ref ↔ (∃ lookup, s = .index lookup ref) ∧ 0 < ref.toNat := by
  constructor
  · intro h
    cases s with
    | index lookup ref' =>
      rw [reference?] at h
      split at h <;> cases h
      exact ⟨⟨lookup, rfl⟩, toNat_pos_iff.mpr ‹_›⟩
    | _ => cases h
  · rintro ⟨⟨lookup, rfl⟩, hpos⟩
    exact reference?_index hpos

end Step

namespace Handle

open Step (toNat_pos_iff reference?_index reference?_eq_some_iff)

variable {b k h : Handle} {lookup : Lookup}

def references (h : Handle) : List UInt32 :=
  h.path.steps.filterMap Step.reference?

/-- The references count the pool off from 1, in some order. -/
structure Numbered (h : Handle) : Prop where
  counts : (h.references.map UInt32.toNat).Perm (List.range' 1 h.pool.size)
  nonNil : ∀ key ∈ h.pool.entries, key ≠ .nil

theorem reference?_of_shift {offset : Nat} {s s' : Step} (hs : shift offset s = .ok s') :
    s'.reference?.map UInt32.toNat = (s.reference?.map UInt32.toNat).map (offset + ·) := by
  cases s with
  | index lookup ref =>
    obtain ⟨hfit, rfl⟩ := shift_eq_ok_iff.mp hs
    by_cases h0 : ref = 0
    · subst h0
      rfl
    · have hpos := toNat_pos_iff.mpr h0
      have hmoved : (shifted offset ref).toNat = offset + ref.toNat := by
        rw [toNat_shifted h0 (hfit h0), Nat.add_comm]
      rw [reference?_index hpos, reference?_index (hmoved ▸ Nat.add_pos_right offset hpos)]
      exact congrArg some hmoved
  | _ => cases hs; rfl

theorem references_of_mapM_shift {offset : Nat} {steps moved : List Step}
    (hs : steps.mapM (shift offset) = .ok moved) :
    (moved.filterMap Step.reference?).map UInt32.toNat =
      ((steps.filterMap Step.reference?).map UInt32.toNat).map (offset + ·) := by
  simp only [List.map_filterMap]
  replace hs := Except.mapM_eq_ok_iff.mp hs
  induction hs with
  | nil => rfl
  | cons hstep _ ih =>
    rw [List.filterMap_cons, List.filterMap_cons, reference?_of_shift hstep, ih]

theorem references_extend {s : Step} (hs : s.shape = .based) :
    (b.extend s hs).references = s.reference?.toList ++ b.references := by
  rw [references, extend, List.filterMap_cons]
  cases s.reference? <;> rfl

theorem numbered_leaf {s : Step} (hs : s.shape = .leaf) : (leaf s hs).Numbered := by
  cases s with
  | frameLocal | frameFunction | root | kindMetatable => exact ⟨.nil, by simp [leaf, Pool.empty]⟩
  | _ => cases hs

theorem Numbered.extend (hb : b.Numbered) {s : Step} (hs : s.shape = .based)
    (hnone : s.reference? = none) : (b.extend s hs).Numbered := by
  refine ⟨?_, hb.nonNil⟩
  rw [references_extend, hnone]
  exact hb.counts

theorem Numbered.push (hb : b.Numbered) {key : Scalar} (hkey : key ≠ .nil) {ref : UInt32}
    (href : ref.toNat = b.pool.size + 1) (hs : (Step.index lookup ref).shape = .based) :
    (Handle.extend ⟨b.path, b.pool.push key⟩ (.index lookup ref) hs).Numbered := by
  constructor
  · have hrefs := references_extend (b := ⟨b.path, b.pool.push key⟩) hs
    rw [reference?_index (href ▸ Nat.succ_pos _)] at hrefs
    have hrange : List.range' 1 (b.pool.push key).size =
        List.range' 1 b.pool.size ++ [b.pool.size + 1] := by
      rw [Pool.size_push, List.range'_1_concat, Nat.add_comm 1]
    have hcounts : ((b.pool.size + 1) :: b.references.map UInt32.toNat).Perm
        (List.range' 1 b.pool.size ++ [b.pool.size + 1]) :=
      (hb.counts.cons _).trans (List.perm_append_singleton _ _).symm
    rw [hrefs, Option.toList_some, List.singleton_append, List.map_cons, href]
    exact hrange ▸ hcounts
  · intro key' hm
    obtain hm | hm := List.mem_append.mp hm
    · exact hb.nonNil key' hm
    · rwa [List.mem_singleton.mp hm]

theorem Numbered.constantLookup {key : Scalar} (hb : b.Numbered)
    (made : b.constantLookup lookup key = .ok h) : h.Numbered := by
  rw [Handle.constantLookup] at made
  split at made
  case isTrue =>
    cases made
    exact hb.extend rfl rfl
  case isFalse hnil =>
    split at made
    case isTrue => cases made
    case isFalse hfull =>
      cases made
      exact hb.push hnil (UInt32.toNat_ofNat_of_lt' (Nat.lt_of_not_le hfull)) rfl

theorem Numbered.indexObject (hb : b.Numbered) (hk : k.Numbered)
    (made : b.indexObject lookup k = .ok h) : h.Numbered := by
  obtain ⟨-, -, moved, hmoved, rfl⟩ := indexObject_eq_ok_iff_mapM.mp made
  refine ⟨?_, fun key hm => (List.mem_append.mp hm).elim (hb.nonNil key) (hk.nonNil key)⟩
  have hkey := hk.counts.map (b.pool.size + ·)
  rw [List.map_add_range'] at hkey
  rw [references, List.cons_append, List.filterMap_cons_none rfl, List.filterMap_append,
    List.map_append, references_of_mapM_shift hmoved, Pool.size_append, ← List.range'_append_1,
    Nat.add_comm 1]
  exact hb.counts.append hkey

/-- The handles that constructors make, in any nesting. Those assembled from records are not among
them, as their pool may hold anything. -/
inductive Composed : Handle → Prop
  | root (r : Root) : Composed (.root r)
  | frameLocal (frame : UInt16) (slot : UInt32) : Composed (.frameLocal frame slot)
  | frameFunction (frame : UInt16) : Composed (.frameFunction frame)
  | kindMetatable (kind : Kind) : Composed (.kindMetatable kind)
  | index {b h : Handle} {key : Scalar} (base : Composed b) (made : b.index key = .ok h) :
      Composed h
  | nextKey {b h : Handle} {last : Scalar} (base : Composed b) (made : b.nextKey last = .ok h) :
      Composed h
  | indexObject {b k h : Handle} {lookup : Lookup} (base : Composed b) (key : Composed k)
      (made : b.indexObject lookup k = .ok h) : Composed h
  | upvalue {b : Handle} (base : Composed b) (n : UInt32) : Composed (b.upvalue n)
  | metatable {b : Handle} (base : Composed b) : Composed b.metatable
  | userPayload {b : Handle} (base : Composed b) : Composed b.userPayload

theorem Composed.numbered (hh : h.Composed) : h.Numbered := by
  induction hh with
  | root | frameLocal | frameFunction | kindMetatable => exact numbered_leaf rfl
  | index _ made ih =>
    rw [Handle.index] at made
    split at made
    · cases made
    · exact ih.constantLookup made
  | nextKey _ made ih => exact ih.constantLookup made
  | indexObject _ _ made ihb ihk => exact ihb.indexObject ihk made
  | upvalue _ _ ih | metatable _ ih | userPayload _ ih => exact ih.extend rfl rfl

/-- The key of the step at `pos` is entry `i` of the pool. -/
def Uses (h : Handle) (pos i : Nat) : Prop :=
  ∃ lookup reference, h.path.steps[pos]? = some (.index lookup reference) ∧
    reference.toNat = i + 1 ∧ h.pool.get? reference = h.pool.entries[i]?

theorem uses_iff {pos i : Nat} : h.Uses pos i ↔ ∃ s reference, h.path.steps[pos]? = some s ∧
    s.reference? = some reference ∧ reference.toNat = i + 1 := by
  constructor
  · rintro ⟨lookup, ref, hs, href, -⟩
    exact ⟨_, ref, hs, reference?_index (href ▸ Nat.succ_pos i), href⟩
  · rintro ⟨s, ref, hs, hsome, href⟩
    obtain ⟨⟨lookup, rfl⟩, hpos⟩ := reference?_eq_some_iff.mp hsome
    refine ⟨lookup, ref, hs, href, ?_⟩
    rw [Pool.get?, if_neg (toNat_pos_iff.mp hpos), href, Nat.add_sub_cancel]

theorem exists_uses {ref : UInt32} {i : Nat} (hm : ref ∈ h.references)
    (href : ref.toNat = i + 1) : ∃ pos, h.Uses pos i := by
  obtain ⟨s, hs, hsome⟩ := List.mem_filterMap.mp hm
  obtain ⟨pos, hpos⟩ := List.mem_iff_getElem?.mp hs
  exact ⟨pos, uses_iff.mpr ⟨s, ref, hpos, hsome, href⟩⟩

theorem Uses.eq {pos pos' i : Nat} (hd : h.references.Nodup) (hp : h.Uses pos i)
    (hp' : h.Uses pos' i) : pos = pos' := by
  obtain ⟨s, ref, hs, hsome, href⟩ := uses_iff.mp hp
  obtain ⟨s', ref', hs', hsome', href'⟩ := uses_iff.mp hp'
  obtain rfl : ref = ref' := UInt32.toNat_inj.mp (href.trans href'.symm)
  rw [references, List.Nodup, List.pairwise_filterMap, List.pairwise_iff_getElem] at hd
  obtain ⟨hlt, rfl⟩ := List.getElem?_eq_some_iff.mp hs
  obtain ⟨hlt', rfl⟩ := List.getElem?_eq_some_iff.mp hs'
  obtain before | same | after := Nat.lt_trichotomy pos pos'
  · exact absurd rfl (hd pos pos' hlt hlt' before ref hsome ref hsome')
  · exact same
  · exact absurd rfl (hd pos' pos hlt' hlt after ref hsome' ref hsome)

/-- Nothing is in the pool in vain, and nothing for two steps. -/
structure Economical (h : Handle) : Prop where
  nonNil : ∀ key ∈ h.pool.entries, key ≠ .nil
  distinct : h.references.Nodup
  covers : ∀ n, (∃ reference ∈ h.references, reference.toNat = n) ↔ 1 ≤ n ∧ n ≤ h.pool.size
  used : ∀ i < h.pool.size, ∃! pos, h.Uses pos i

theorem Numbered.economical (hh : h.Numbered) : h.Economical := by
  have hdistinct : h.references.Nodup := .of_map _ (hh.counts.nodup_iff.mpr List.nodup_range')
  have hcovers : ∀ n, (∃ reference ∈ h.references, reference.toNat = n) ↔
      1 ≤ n ∧ n ≤ h.pool.size := by
    intro n
    rw [← List.mem_map, hh.counts.mem_iff, List.mem_range'_1]
    omega
  refine ⟨hh.nonNil, hdistinct, hcovers, fun i hi => ?_⟩
  obtain ⟨ref, hm, href⟩ := (hcovers (i + 1)).mpr ⟨Nat.succ_pos i, hi⟩
  obtain ⟨pos, hpos⟩ := exists_uses hm href
  exact ⟨pos, hpos, fun _ hp => hp.eq hdistinct hpos⟩

end Handle

end RemoteInspect
