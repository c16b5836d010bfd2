import RemoteInspect.Proofs.Target.Order
import RemoteInspect.Proofs.Target.Slot
import RemoteInspect.Proofs.Target.Writing

namespace RemoteInspect

theorem Live.sameSlot_live_iff {v : Live} {k : Key} (hk : k.Canonical) :
    v.SameSlot k.live ↔ Key.ofLive? v = some k := by
  have hlive : Key.ofLive? k.live = some k := hk
  rw [sameSlot_iff, hlive]
  simp [eq_comm]

/-- What setting a value at a key makes of the order of the keys. -/
inductive Reordered (key value : Live) (keys : List Live) : List Live → Prop
  | left {before after : List Live} {k : Live} (removed : value = .nil)
      (split : keys = before ++ k :: after) (same : key.SameSlot k) :
      Reordered key value keys (before ++ after)
  | absent (removed : value = .nil) (none : ∀ k ∈ keys, ¬ key.SameSlot k) :
      Reordered key value keys keys
  | stayed (present : value ≠ .nil) {k : Live} (known : k ∈ keys) (same : key.SameSlot k) :
      Reordered key value keys keys
  | joined (present : value ≠ .nil) (new : ∀ k ∈ keys, ¬ key.SameSlot k) {k : Live}
      (same : key.SameSlot k) : Reordered key value keys (keys ++ [k])

def Table.order (contents : Table) : List Live :=
  contents.entries.map fun e => e.1.live

theorem Table.order_eq (contents : Table) :
    contents.order = (contents.entries.map Prod.fst).map Key.live := by
  rw [order, List.map_map]
  rfl

theorem Key.exists_split_filter {keys : List Key} (hd : keys.Nodup) {k : Key} (hk : k ∈ keys) :
    ∃ before after, keys = before ++ k :: after ∧ keys.filter (· ≠ k) = before ++ after := by
  obtain ⟨before, after, rfl⟩ := List.append_of_mem hk
  rw [List.nodup_append, List.nodup_cons] at hd
  obtain ⟨-, ⟨hafter, -⟩, hbefore⟩ := hd
  have hb : before.filter (· ≠ k) = before := List.filter_eq_self.mpr fun a ha => by
    simpa using hbefore a ha k List.mem_cons_self
  have ha : after.filter (· ≠ k) = after := List.filter_eq_self.mpr fun a ha => by
    simpa using fun he : a = k => hafter (he ▸ ha)
  refine ⟨before, after, rfl, ?_⟩
  rw [List.filter_append, List.filter_cons_of_neg (by simp), hb, ha]

theorem Table.Normal.reordered {contents : Table} (h : contents.Normal) {key : Live} {k : Key}
    (hk : Key.ofLive? key = some k) (value : Live) :
    Reordered key value contents.order (contents.set k value).order := by
  have hcanonical : k.Canonical := Key.canonical_of_ofLive? hk
  have hsame : key.SameSlot k.live := (Live.sameSlot_live_iff hcanonical).mpr hk
  have hother : k ∉ contents.entries.map Prod.fst → ∀ k' ∈ contents.order, ¬ key.SameSlot k' := by
    intro hnew k' hk' hslot
    obtain ⟨e, he, rfl⟩ := List.mem_map.mp hk'
    cases hk.symm.trans ((Live.sameSlot_live_iff (h.canonical e he)).mp hslot)
    exact hnew (List.mem_map_of_mem he)
  rw [order_eq (contents.set k value), keys_set]
  by_cases hv : value = .nil
  · rw [if_pos hv]
    by_cases hknown : k ∈ contents.entries.map Prod.fst
    · obtain ⟨before, after, hsplit, hfilter⟩ := Key.exists_split_filter h.distinct hknown
      rw [hfilter, List.map_append]
      refine .left hv ?_ hsame
      rw [order_eq, hsplit, List.map_append, List.map_cons]
    · have hfilter : (contents.entries.map Prod.fst).filter (· ≠ k) =
          contents.entries.map Prod.fst :=
        List.filter_eq_self.mpr fun a ha => by simpa using fun he : a = k => hknown (he ▸ ha)
      rw [hfilter, ← order_eq]
      exact .absent hv (hother hknown)
  · rw [if_neg hv]
    split
    · rename_i hknown
      rw [← order_eq]
      exact .stayed hv (order_eq contents ▸ List.mem_map_of_mem hknown) hsame
    · rename_i hnew
      rw [List.map_append, ← order_eq]
      exact .joined hv (hother hnew) hsame

namespace Target

variable {t : Target} {table : Live} {contents : Table}

/-- The keys that are given after `last`, one by one until there are no more. -/
inductive Reports (t : Target) (table : Live) : Live → List Live → Prop
  | finished {last : Live} (done : t.rawNext table last = .finished) : Reports t table last []
  | entry {last key value : Live} {keys : List Live}
      (given : t.rawNext table last = .entry key value) (rest : Reports t table key keys) :
      Reports t table last (key :: keys)

theorem reports_order (hc : t.table? table = some contents) (hn : contents.Normal) :
    t.Reports table .nil contents.order := by
  have hreports : ∀ rest before last, contents.entries = before ++ rest →
      t.rawNext table last = Table.first rest →
      t.Reports table last (rest.map fun e => e.1.live) := by
    intro rest
    induction rest with
    | nil => exact fun before last _ hnext => .finished hnext
    | cons e rest ih =>
      intro before last hsplit hnext
      refine .entry hnext (ih (before ++ [e]) e.1.live (by simpa using hsplit) ?_)
      rw [rawNext, hc]
      exact hn.next_live hsplit
  refine hreports contents.entries [] .nil rfl ?_
  simp [rawNext, hc, Table.next]

end Target

end RemoteInspect
