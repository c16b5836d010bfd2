import RemoteInspect.Proofs.Target.Reading

namespace RemoteInspect

namespace Table

theorem keys_erase (entries : List (Key × Live)) (k : Key) :
    (erase entries k).map Prod.fst = (entries.map Prod.fst).filter (· ≠ k) := by
  rw [erase, List.filter_map]
  rfl

theorem keys_set (contents : Table) (k : Key) (v : Live) :
    (contents.set k v).entries.map Prod.fst =
      if v = .nil then (contents.entries.map Prod.fst).filter (· ≠ k)
      else if k ∈ contents.entries.map Prod.fst then contents.entries.map Prod.fst
      else contents.entries.map Prod.fst ++ [k] := by
  rw [set]
  split
  · exact keys_erase contents.entries k
  · exact keys_insert contents.entries k v

theorem lookup_cons_eq_ite (k₀ : Key) (v₀ : Live) (rest : List (Key × Live)) (k : Key) :
    List.lookup k ((k₀, v₀) :: rest) = if k = k₀ then some v₀ else rest.lookup k := by
  by_cases h : k = k₀
  · subst h
    rw [if_pos rfl, List.lookup_cons_self]
  · rw [if_neg h, List.lookup_cons, beq_eq_false_iff_ne.mpr h]

theorem lookup_insert (entries : List (Key × Live)) (k : Key) (v : Live) (k' : Key) :
    (insert entries k v).lookup k' = if k' = k then some v else entries.lookup k' := by
  induction entries with
  | nil => rw [insert, lookup_cons_eq_ite]
  | cons e rest ih =>
    obtain ⟨k₀, v₀⟩ := e
    rw [insert]
    by_cases hk : k₀ = k
    · subst hk
      rw [if_pos rfl, lookup_cons_eq_ite, lookup_cons_eq_ite]
      split <;> rfl
    · rw [if_neg hk, lookup_cons_eq_ite, lookup_cons_eq_ite, ih]
      by_cases h : k' = k₀
      · rw [if_pos h, if_neg (h ▸ hk), if_pos h]
      · rw [if_neg h, if_neg h]

theorem lookup_erase (entries : List (Key × Live)) (k k' : Key) :
    (erase entries k).lookup k' = if k' = k then none else entries.lookup k' := by
  induction entries with
  | nil => simp [erase]
  | cons e rest ih =>
    obtain ⟨k₀, v₀⟩ := e
    rw [erase] at ih ⊢
    by_cases hk : k₀ = k
    · subst hk
      rw [List.filter_cons_of_neg (by simp), ih, lookup_cons_eq_ite]
      split <;> rfl
    · rw [List.filter_cons_of_pos (by simpa using hk), lookup_cons_eq_ite, lookup_cons_eq_ite, ih]
      by_cases h : k' = k₀
      · rw [if_pos h, if_neg (h ▸ hk), if_pos h]
      · rw [if_neg h, if_neg h]

theorem get_set (contents : Table) (k : Key) (v : Live) (k' : Key) :
    (contents.set k v).get k' = if k' = k then v else contents.get k' := by
  rw [set]
  split
  · rename_i hv
    simp only [get, find?, lookup_erase]
    split <;> simp [hv]
  · simp only [get, find?, lookup_insert]
    split <;> simp

theorem Normal.get_ne_nil_iff {contents : Table} (h : contents.Normal) {k : Key} :
    contents.get k ≠ .nil ↔ k ∈ contents.entries.map Prod.fst := by
  constructor
  · exact fun hk => List.mem_map_of_mem (mem_of_get hk)
  · intro hk
    obtain ⟨⟨k, v⟩, he, rfl⟩ := List.mem_map.mp hk
    rw [get_of_mem h.distinct he]
    exact h.present _ he

end Table

namespace Target

variable {t u : Target} {table key value : Live} {contents : Table} {k : Key}

theorem exists_set (hc : t.table? table = some contents) (hk : Key.ofLive? key = some k)
    (value : Live) :
    ∃ u, t.set table key value = .ok u ∧ u.table? table = some (contents.set k value) := by
  obtain ⟨id, rfl, hid⟩ := table?_eq_some_iff.mp hc
  have hlt : id < t.heap.size := (Array.getElem?_eq_some_iff.mp hid).1
  refine ⟨_, set_eq_ok_iff.mpr ⟨id, contents, k, rfl, hid, hk, rfl⟩, ?_⟩
  exact table?_eq_some_iff.mpr ⟨id, rfl, by simp [replace, hlt]⟩

/-- What is read at the key is the value that was set, and elsewhere nothing has changed. -/
theorem rawGet_set (hc : t.table? table = some contents)
    (hu : u.table? table = some (contents.set k value)) (key' : Live) :
    u.rawGet table key' = if Key.ofLive? key' = some k then value else t.rawGet table key' := by
  cases hk' : Key.ofLive? key' with
  | none => simp [rawGet, hc, hu, hk']
  | some k' => simp [rawGet_eq hc hk', rawGet_eq hu hk', Table.get_set]

end Target

end RemoteInspect
