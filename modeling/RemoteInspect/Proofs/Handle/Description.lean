import RemoteInspect.Handle.Description
import RemoteInspect.Handle.Rendering
import RemoteInspect.Proofs.Handle.Construction
import RemoteInspect.Tree.Description

namespace RemoteInspect.Handle

open RemoteInspect.Path (Node)

variable {pool : Pool} {n base key : Node}

/-- With the node on top of the stack, `s` is written next. -/
def Writes (pool : Pool) (n : Node) (s : String) : Prop :=
  ∀ out work, write pool out (.node n :: work) = write pool (out ++ s) work

theorem write_text (out s : String) (work : List Piece) :
    write pool out (.text s :: work) = write pool (out ++ s) work := by
  rw [write]

theorem write_node {s : String} {left : List Piece} (h : expand pool n = .ok (s, left))
    (out : String) (work : List Piece) :
    write pool out (.node n :: work) = write pool (out ++ s) (left ++ work) := by
  rw [write]
  split
  · rename_i f hf
    cases hf.symm.trans h
  · rename_i s' left' hs
    cases hs.symm.trans h
    rfl

namespace Writes

theorem leaf {s : String} (he : expand pool n = .ok (s, [])) : Writes pool n s :=
  write_node he

theorem based {before after tb s : String}
    (he : expand pool n = aroundBase n before after) (hb : n.base = .ok base)
    (hbase : Writes pool base tb) (hs : before ++ tb ++ after = s) : Writes pool n s := by
  subst hs
  intro out work
  rw [aroundBase, hb] at he
  rw [write_node he, List.cons_append, hbase, List.cons_append, write_text, List.nil_append]
  simp only [String.append_assoc]

theorem keyed {before between after tb tk s : String}
    (he : expand pool n = aroundBoth n before between after) (hb : n.base = .ok base)
    (hk : n.key = .ok key) (hbase : Writes pool base tb) (hkey : Writes pool key tk)
    (hs : before ++ tb ++ between ++ tk ++ after = s) : Writes pool n s := by
  subst hs
  intro out work
  rw [aroundBoth, hb, hk] at he
  rw [write_node he, List.cons_append, hbase, List.cons_append, write_text, List.cons_append, hkey,
    List.cons_append, write_text, List.nil_append]
  simp only [String.append_assoc]

end Writes

theorem key_indexObject {lookup : Lookup} {rb rk : Tree UInt32} (hsize : rb.size < UInt32.size)
    (rest : List Step) (offset : Nat) :
    Node.key ⟨(Tree.indexObject lookup rb rk).preorder ++ rest, offset⟩ =
      .ok ⟨rk.preorder ++ rest, offset + 1 + rb.size⟩ := by
  have hdeclared : (UInt32.ofNat rb.size).toNat = rb.size := UInt32.toNat_ofNat_of_lt' hsize
  have hdrop : (rb.preorder ++ (rk.preorder ++ rest)).drop rb.size = rk.preorder ++ rest := by
    rw [← Tree.length_preorder, List.drop_left]
  have hwithin : rb.size ≤ (rb.preorder ++ (rk.preorder ++ rest)).length := by
    rw [List.length_append, Tree.length_preorder]
    exact Nat.le_add_right ..
  simp only [Tree.preorder, Tree.step, List.cons_append, List.append_assoc, Node.key, Step.shape,
    hdeclared, hdrop, hwithin, ↓reduceIte]

theorem writes_preorder {r : Tree UInt32} (hr : r.Declarable) (rest : List Step) (offset : Nat) :
    Writes pool ⟨r.preorder ++ rest, offset⟩ (r.map pool.constant).text := by
  -- By induction on the tree, whatever follows it in the path.
  induction r generalizing rest offset with
  | frameLocal | frameFunction | kindMetatable => exact .leaf rfl
  | root r => cases r <;> exact .leaf rfl
  | upvalue base n ih =>
    exact .based rfl rfl (ih hr rest (offset + 1)) (by rw [String.empty_append]; rfl)
  | metatable base ih | userPayload base ih =>
    exact .based rfl rfl (ih hr rest (offset + 1)) rfl
  | index lookup base ref ih =>
    have hbase := ih hr rest (offset + 1)
    cases lookup with
    | get => exact .based rfl rfl hbase (by rw [String.empty_append, ← String.append_assoc]; rfl)
    | next =>
      exact .based rfl rfl hbase (by simp only [← String.append_assoc]; rfl)
  | indexObject lookup base key ihb ihk =>
    obtain ⟨hsize, hb, hk⟩ := hr
    have hbase := ihb hb (key.preorder ++ rest) (offset + 1)
    have hkey := ihk hk rest (offset + 1 + base.size)
    have hn := @key_indexObject lookup base key hsize rest offset
    have hb : Node.base ⟨(Tree.indexObject lookup base key).preorder ++ rest, offset⟩ =
        .ok ⟨base.preorder ++ (key.preorder ++ rest), offset + 1⟩ := by
      rw [← List.append_assoc]
      rfl
    cases lookup with
    | get => exact .keyed rfl hb hn hbase hkey (by rw [String.empty_append]; rfl)
    | next => exact .keyed rfl hb hn hbase hkey rfl

theorem foldl_preorder (r : Tree UInt32) (d : Draft) :
    r.preorder.foldl (Draft.write pool) d =
      Draft.close (d.text ++ (r.map pool.constant).text) d.seams := by
  induction r generalizing d with
  | frameLocal | frameFunction => rfl
  | kindMetatable kind =>
    refine congrArg (Draft.close · d.seams) ?_
    simp only [Tree.map, Tree.text, String.append_assoc]
  | root r => cases r <;> rfl
  | upvalue base n ih | metatable base ih | userPayload base ih =>
    rw [Tree.preorder, Tree.step, List.foldl_cons, ih]
    simp only [Draft.write, Draft.close, Tree.map, Tree.text, String.append_assoc]
  | index lookup base ref ih =>
    rw [Tree.preorder, Tree.step, List.foldl_cons, ih]
    cases lookup <;>
      simp only [Draft.write, Draft.close, Tree.map, Tree.text, String.append_assoc]
  | indexObject lookup base key ihb ihk =>
    rw [Tree.preorder, Tree.step, List.foldl_cons, List.foldl_append, ihb, ihk]
    cases lookup <;>
      simp only [Draft.write, Draft.close, Tree.map, Tree.text, String.append_assoc]

variable {h b k : Handle} {t : Tree Scalar}

theorem Denotes.render (ht : h.Denotes t) : h.render = .ok t.text := by
  obtain ⟨r, hr, rfl⟩ := ht
  have hwrites := @writes_preorder h.pool r hr.declarable [] 0 "" []
  rw [List.append_nil, hr.preorder] at hwrites
  rw [Handle.render, Path.root, hwrites, write, String.empty_append]

theorem Denotes.description (ht : h.Denotes t) : h.description = t.text := by
  obtain ⟨r, hr, rfl⟩ := ht
  rw [Handle.description, ← hr.preorder, foldl_preorder, String.empty_append, Draft.close]

/-- The loop over a stack ends, and writes the text of the tree, as one pass does. So each
constructor puts its text around those of its arguments, whatever their pools, and handles with the
same tree have the same text. -/
theorem description_recursive (hb : b.Built) (hk : k.Built) :
    (∃ t, b.HasTree t ∧ b.render = .ok t.text ∧ b.description = t.text) ∧
    (∀ t, b.HasTree t → k.HasTree t → b.description = k.description) ∧
    (∀ h, b.indexObject .get k = .ok h →
      h.description = b.description ++ "[" ++ k.description ++ "]") ∧
    (∀ h, b.indexObject .next k = .ok h →
      h.description = "(next " ++ b.description ++ " " ++ k.description ++ ")") ∧
    (∀ key h, b.index key = .ok h → h.description = b.description ++ "." ++ key.text) ∧
    (∀ last h, b.nextKey last = .ok h →
      h.description = "(next " ++ b.description ++ " " ++ last.text ++ ")") ∧
    (∀ n, (b.upvalue n).description = b.description ++ s!".u[{n}]") ∧
    b.metatable.description = "(" ++ b.description ++ " mt)" ∧
    b.userPayload.description = "(" ++ b.description ++ " uv)" := by
  obtain ⟨tb, htb⟩ := hb.denotes
  obtain ⟨tk, htk⟩ := hk.denotes
  rw [htb.description, htk.description]
  refine ⟨⟨tb, htb.hasTree, htb.render, rfl⟩, fun t hbt hkt => ?_, fun h made => ?_,
    fun h made => ?_, fun key h made => ?_, fun last h made => ?_, fun n => ?_, ?_, ?_⟩
  · rw [(hbt tb).mp htb.means, (hkt tk).mp htk.means]
  · exact (htb.indexObject htk made).description
  · exact (htb.indexObject htk made).description
  · exact (htb.index made).description
  · exact (htb.nextKey made).description
  · exact (htb.upvalue n).description
  · exact htb.metatable.description
  · exact htb.userPayload.description

/-- The pools of both have entries, and the key is a lookup with an object key itself. -/
theorem description_recursive_nested :
    let base : Handle := ⟨⟨[.index .get 3, .index .next 1, .root .globals]⟩,
      ⟨[.boolean true, .integer 5, .boolean true]⟩⟩
    let key : Handle := ⟨⟨[.indexObject .get 2, .index .next 0, .root .registry, .index .get 1,
      .frameFunction 2]⟩, ⟨[.integer 7]⟩⟩
    base.description = "(next _G true).true" ∧
      key.description = "(next _REGISTRY nil)[(f 2).7]" ∧
      ∃ h, base.indexObject .next key = .ok h ∧
        h.description = "(next (next _G true).true (next _REGISTRY nil)[(f 2).7])" := by
  intro base key
  have hb : base.Built :=
    @Built.ofParts [⟨2, 0, 3⟩, ⟨2, 1, 1⟩, ⟨5, 9, 9⟩] base.path base.pool base rfl rfl
  have hk : key.Built := @Built.ofParts [⟨3, 0, 2⟩, ⟨2, 1, 0⟩, ⟨6, 0, 0⟩, ⟨2, 0, 1⟩, ⟨1, 2, 0⟩]
    key.path key.pool key rfl rfl
  obtain ⟨-, -, -, hnext, -⟩ := description_recursive hb hk
  have hbase : base.description = "(next _G true).true" := by decide +kernel
  have hkey : key.description = "(next _REGISTRY nil)[(f 2).7]" := by decide +kernel
  refine ⟨hbase, hkey, _, rfl, (hnext _ rfl).trans ?_⟩
  rw [hbase, hkey]
  decide +kernel

end RemoteInspect.Handle
