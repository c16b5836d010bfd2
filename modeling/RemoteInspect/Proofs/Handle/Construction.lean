import RemoteInspect.Proofs.Handle.Denotation

namespace RemoteInspect.Handle

/-- `t` is the one tree of `h`. -/
def HasTree (h : Handle) (t : Tree Scalar) : Prop :=
  ∀ u, h.Means u ↔ u = t

theorem Denotes.hasTree {h : Handle} {t : Tree Scalar} (ht : h.Denotes t) : h.HasTree t :=
  fun _ => ht.means_iff

/-- Each constructor puts its step on the trees of its arguments and changes nothing in them, as
long as the pool and the base can be counted in a word. -/
theorem hasTree_of_constructors {b k : Handle} (hb : b.Built) (hk : k.Built) :
    ∃ tb tk, b.HasTree tb ∧ k.HasTree tk ∧
      (∀ lookup, b.pool.size + k.pool.size < wordLimit → b.path.size < wordLimit →
        ∃ h, b.indexObject lookup k = .ok h ∧ h.HasTree (.indexObject lookup tb tk)) ∧
      (∀ key, key ≠ .nil → b.pool.size + 1 < wordLimit →
        ∃ h, b.index key = .ok h ∧ h.HasTree (.index .get tb key)) ∧
      (∀ last, b.pool.size + 1 < wordLimit →
        ∃ h, b.nextKey last = .ok h ∧ h.HasTree (.index .next tb last)) ∧
      (∀ n, (b.upvalue n).HasTree (.upvalue tb n)) ∧
      b.metatable.HasTree (.metatable tb) ∧
      b.userPayload.HasTree (.userPayload tb) := by
  obtain ⟨tb, htb⟩ := hb.denotes
  obtain ⟨tk, htk⟩ := hk.denotes
  refine ⟨tb, tk, htb.hasTree, htk.hasTree, ?_, ?_, ?_, fun n => (htb.upvalue n).hasTree,
    htb.metatable.hasTree, htb.userPayload.hasTree⟩
  · intro lookup hp hs
    obtain ⟨h, made⟩ := exists_indexObject htk hp hs lookup
    exact ⟨h, made, (htb.indexObject htk made).hasTree⟩
  · intro key hnil hp
    obtain ⟨h, made⟩ := exists_constantLookup hp .get key
    have made' : b.index key = .ok h := by rw [Handle.index, if_neg hnil, made]
    exact ⟨h, made', (htb.index made').hasTree⟩
  · intro last hp
    obtain ⟨h, made⟩ := exists_constantLookup hp .next last
    exact ⟨h, made, (htb.nextKey made).hasTree⟩

/-- A base assembled from records whose pool has an unused entry and one twice, under a key that
is itself a lookup with an object key. -/
theorem hasTree_of_constructors_nested :
    let base : Handle := ⟨⟨[.index .get 3, .index .next 1, .root .globals]⟩,
      ⟨[.boolean true, .integer 5, .boolean true]⟩⟩
    let key : Handle := ⟨⟨[.indexObject .get 2, .index .next 0, .root .registry, .index .get 1,
      .frameFunction 2]⟩, ⟨[.integer 7]⟩⟩
    ∃ h, base.indexObject .next key = .ok h ∧
      h.path.steps = [.indexObject .next 3, .index .get 3, .index .next 1, .root .globals,
        .indexObject .get 2, .index .next 0, .root .registry, .index .get 4, .frameFunction 2] ∧
      h.HasTree (.indexObject .next
        (.index .get (.index .next (.root .globals) (.boolean true)) (.boolean true))
        (.indexObject .get (.index .next (.root .registry) .nil)
          (.index .get (.frameFunction 2) (.integer 7)))) := by
  intro base key
  have hb : base.Built :=
    @Built.ofParts [⟨2, 0, 3⟩, ⟨2, 1, 1⟩, ⟨5, 9, 9⟩] base.path base.pool base rfl rfl
  have hstart : Built ⟨⟨[.index .next 0, .root .registry]⟩, .empty⟩ :=
    @Built.nextKey _ _ .nil (.root .registry) rfl
  have hinner : Built ⟨⟨[.index .get 1, .frameFunction 2]⟩, ⟨[.integer 7]⟩⟩ :=
    @Built.index _ _ (.integer 7) (.frameFunction 2) rfl
  have hk : key.Built := @Built.indexObject _ _ _ .get hstart hinner rfl
  obtain ⟨tb, tk, htb, htk, hobject, -⟩ := hasTree_of_constructors hb hk
  obtain ⟨h, made, ht⟩ := hobject .next (by decide) (by decide)
  have hbase := (htb
      (.index .get (.index .next (.root .globals) (.boolean true)) (.boolean true))).mp
    ⟨.index .get (.index .next (.root .globals) 1) 3, trivial, rfl, rfl⟩
  have hkey := (htk (.indexObject .get (.index .next (.root .registry) .nil)
      (.index .get (.frameFunction 2) (.integer 7)))).mp
    ⟨.indexObject .get (.index .next (.root .registry) 0) (.index .get (.frameFunction 2) 1),
      ⟨by decide, trivial, trivial⟩, rfl, rfl⟩
  subst hbase hkey
  have hsteps : (base.indexObject .next key).map (fun h => h.path.steps) = .ok
      [.indexObject .next 3, .index .get 3, .index .next 1, .root .globals,
        .indexObject .get 2, .index .next 0, .root .registry, .index .get 4, .frameFunction 2] :=
    rfl
  rw [made] at hsteps
  exact ⟨h, made, Except.ok.inj hsteps, ht⟩

end RemoteInspect.Handle
