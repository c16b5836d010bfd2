import RemoteInspect.Proofs.Target.Order
import RemoteInspect.Proofs.Target.Slot

namespace RemoteInspect

theorem Key.ofLive?_eq_none_iff {v : Live} :
    ofLive? v = none ↔ v = .nil ∨ ∃ x : Binary64, v = .scalar (.float x) ∧ x.isNaN := by
  rw [Option.eq_none_iff_forall_ne_some, ← not_exists, exists_ofLive?_iff]
  by_cases hnil : v = .nil <;> simp [hnil]

namespace Target

variable {t : Target} {table last key value : Live}

def EntryAt (t : Target) (table : Live) (k : Key) (value : Live) (rest : List (Key × Live)) :
    Prop :=
  ∃ contents before, t.table? table = some contents ∧
    contents.entries = before ++ (k, value) :: rest

theorem exists_entryAt (h : t.rawNext table last = .entry key value) :
    ∃ k rest, t.EntryAt table k value rest ∧ key = k.live := by
  cases hc : t.table? table with
  | none => simp [rawNext, hc] at h
  | some contents =>
    simp only [rawNext, hc] at h
    obtain ⟨k, hm, hlive⟩ := Table.mem_of_next h
    obtain ⟨before, rest, hsplit⟩ := List.append_of_mem hm
    exact ⟨k, rest, ⟨contents, before, hc, hsplit⟩, hlive⟩

theorem EntryAt.found {k : Key} {rest : List (Key × Live)} (h : t.EntryAt table k value rest)
    (ht : t.Sound) :
    Key.ofLive? k.live = some k ∧ t.rawGet table k.live = value ∧
      t.rawNext table k.live = Table.first rest := by
  obtain ⟨contents, before, hc, hsplit⟩ := h
  have hs := ht.table hc
  have hm : (k, value) ∈ contents.entries := by simp [hsplit]
  have hk : Key.ofLive? k.live = some k := hs.canonical _ hm
  refine ⟨hk, ?_, ?_⟩
  · rw [rawGet_eq hc hk, Table.get_of_mem hs.distinct hm]
  · rw [rawNext, hc]
    exact hs.normal.next_live hsplit

end Target

/-- Two values are the same key exactly if both are the same number, compared without rounding, or
the same value of another kind. Nil and NaN alone are no keys. A key stands for itself again, so
that one which a table has given finds its entry there. -/
theorem Key.ofLive?_identifies :
    (∀ v w : Live, (∃ k, ofLive? v = some k ∧ ofLive? w = some k) ↔ v.SameSlot w) ∧
    (∀ v : Live, ofLive? v = none ↔ v = .nil ∨ ∃ x : Binary64, v = .scalar (.float x) ∧ x.isNaN) ∧
    (∀ (v : Live) (k : Key), ofLive? v = some k → ofLive? k.live = some k) ∧
    ∀ t : Target, t.Reachable → ∀ table last key value : Live,
      t.rawNext table last = .entry key value →
      ∃ k rest, t.EntryAt table k value rest ∧ key = k.live ∧ ofLive? key = some k ∧
        t.rawGet table key = value ∧ t.rawNext table key = Table.first rest := by
  refine ⟨fun v w => Live.sameSlot_iff.symm, fun v => ofLive?_eq_none_iff,
    fun v k h => canonical_of_ofLive? h, ?_⟩
  intro t ht table last key value h
  obtain ⟨k, rest, hentry, rfl⟩ := Target.exists_entryAt h
  exact ⟨k, rest, hentry, rfl, hentry.found ht.sound⟩

/-- The float `2 ^ 53` is an integer, and `2 ^ 63` is beyond all of them. -/
theorem Key.ofLive?_identifies_beyond :
    let exact : Live := .scalar (.float ⟨0x4340000000000000⟩)
    let beyond : Live := .scalar (.float ⟨0x43E0000000000000⟩)
    let globals : Live := Target.root .globals
    let t : Target := Target.initial.replace 1 (.table
      ⟨[(.integer 9007199254740992, beyond), (.float ⟨0x43E0000000000000⟩, exact)], none⟩)
    t.Reachable ∧ t.rawNext globals exact = .entry beyond exact ∧
      exact.SameSlot (.scalar (.integer 9007199254740992)) ∧
      ∃ k rest, t.EntryAt globals k exact rest ∧ beyond = k.live ∧ ofLive? beyond = some k ∧
        t.rawGet globals beyond = exact ∧ t.rawNext globals beyond = Table.first rest := by
  intro exact beyond globals t
  obtain ⟨hsame, -, -, hfound⟩ := Key.ofLive?_identifies
  let one : Target :=
    Target.initial.replace 1 (.table ⟨[(.integer 9007199254740992, beyond)], none⟩)
  have hone : Target.initial.set globals exact beyond = .ok one := rfl
  have htwo : one.set globals beyond exact = .ok t := rfl
  have ht : t.Reachable :=
    .step (.step (.initial _) (.set (Target.owns_scalar _ _) (Target.owns_scalar _ _) hone))
      (.set (Target.owns_scalar _ _) (Target.owns_scalar _ _) htwo)
  have hnext : t.rawNext globals exact = .entry beyond exact := rfl
  exact ⟨ht, hnext, (hsame _ _).mp ⟨.integer 9007199254740992, rfl, rfl⟩,
    hfound t ht globals exact beyond exact hnext⟩

end RemoteInspect
