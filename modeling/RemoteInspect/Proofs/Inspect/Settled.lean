import RemoteInspect.Proofs.Inspect.Answer

namespace RemoteInspect

namespace Inspect

variable {α β : Type} {limits : Limits} {top : Nat}

/-- A resource is exhausted, or no word holds the number of slots asked for. At most `top` values
are pinned then. -/
def Refused (limits : Limits) (top : Nat) (r : Except Stop α) : Prop :=
  (∃ what, r = .error (.failure (.exhausted what))) ∨
    r = .error (.fault .outOfRange) ∧ Target.sizeLimit ≤ top + limits.reserve

def Settles (limits : Limits) (top : Nat) (ideal r : Except Stop α) : Prop :=
  r = ideal ∨ Refused limits top r

theorem Refused.ne_ok {r : Except Stop α} (h : Refused limits top r) (a : α) : r ≠ .ok a := by
  obtain ⟨what, rfl⟩ | ⟨rfl, -⟩ := h <;> simp

theorem Refused.bind {r : Except Stop α} (h : Refused limits top r) (k : α → Except Stop β) :
    Refused limits top (r >>= k) := by
  obtain ⟨what, rfl⟩ | ⟨rfl, hsize⟩ := h
  · exact .inl ⟨what, rfl⟩
  · exact .inr ⟨rfl, hsize⟩

namespace Settles

theorem rfl {r : Except Stop α} : Settles limits top r r := .inl (Eq.refl r)

theorem eq_of_ok {ideal r : Except Stop α} {a : α} (h : Settles limits top ideal r)
    (hr : r = .ok a) : ideal = .ok a := by
  obtain h | h := h
  · rw [← h, hr]
  · exact absurd hr (h.ne_ok a)

theorem bind {ideal r : Except Stop α} {k k' : α → Except Stop β}
    (h : Settles limits top ideal r) (hk : ∀ a, ideal = .ok a → Settles limits top (k a) (k' a)) :
    Settles limits top (ideal >>= k) (r >>= k') := by
  obtain h | h := h
  · subst h
    cases r with
    | error e => exact rfl
    | ok a => exact hk a (Eq.refl _)
  · exact .inr (h.bind k')

theorem map {ideal r : Except Stop α} (h : Settles limits top ideal r) (f : α → β) :
    Settles limits top (ideal.map f) (r.map f) := by
  obtain rfl | ⟨what, rfl⟩ | ⟨rfl, hsize⟩ := h
  · exact .rfl
  · exact .inr (.inl ⟨what, Eq.refl _⟩)
  · exact .inr (.inr ⟨Eq.refl _, hsize⟩)

end Settles

theorem reservation_settles {n : Nat} (hn : n ≤ top) (capacity : Nat) :
    Settles limits top (.ok ()) (reservation limits capacity n) := by
  rw [reservation]
  by_cases hlimit : Target.sizeLimit ≤ n + limits.reserve
  · rw [if_pos hlimit]
    exact .inr (.inr ⟨rfl, by omega⟩)
  · by_cases hcapacity : n + limits.reserve ≤ capacity
    · rw [if_neg hlimit, if_pos hcapacity]
      exact .rfl
    · rw [if_neg hlimit, if_neg hcapacity]
      exact .inr (.inl ⟨_, rfl⟩)

end Inspect

open Inspect (Settles Refused reservation_settles)

variable {limits : Limits} {t : Target} {n top : Nat}

theorem Tree.limited_settles {tree : Tree Scalar} (hsize : n + tree.size ≤ top) :
    Settles limits top ((tree.value t).mapError Stop.failure) (tree.limited limits t 0 n) := by
  obtain h | ⟨what, h⟩ | ⟨h, before, x, after, hvisits, -, hx⟩ := limited_cases limits t n tree
  · exact .inl h
  · exact .inr (.inl ⟨what, h⟩)
  · refine .inr (.inr ⟨h, ?_⟩)
    have hmem : x ∈ tree.visits t 0 n := by simp [hvisits]
    have := pinned_lt_of_mem_visits hmem
    have := hx.2
    omega

namespace Meaning

def size : Meaning → Nat
  | scalar _ => 0
  | tree u => u.size

def unlimited (t : Target) (m : Meaning) : Except Stop Live :=
  (m.value t).mapError Stop.failure

theorem limited_settles {m : Meaning} (hsize : n + m.size ≤ top) :
    Settles limits top (m.unlimited t) (m.limited limits t n) := by
  cases m with
  | scalar s => exact .bind (reservation_settles hsize _) fun _ _ => .rfl
  | tree u => exact Tree.limited_settles hsize

end Meaning

namespace Inspect

variable {base key : Value} {b k : Meaning}

theorem query_settles (ht : t.Sound) {h : Handle} {tree : Tree Scalar} (hh : h.Denotes tree)
    (hsize : t.pinned + tree.size ≤ top) :
    Settles limits top (Answer.query t h ((tree.value t).mapError Stop.failure))
      ((query (.handle h)).outcome limits t).result := by
  rw [(query_runs ht hh).outcome]
  exact .bind (Tree.limited_settles hsize) fun _ _ => .rfl

theorem index_settles (ht : t.Sound) (hb : base.Denotes b) (hk : key.Denotes k)
    (hsize : t.pinned + b.size + k.size + 2 ≤ top) :
    Settles limits top (Answer.index t base key (b.unlimited t) (k.unlimited t) (.ok ()))
      ((index base key).outcome limits t).result := by
  rw [(index_runs ht hb hk).outcome]
  rw [Answer.index, Answer.index]
  by_cases hnil : key = .scalar .nil
  · rw [if_pos hnil, if_pos hnil]
    exact .rfl
  rw [if_neg hnil, if_neg hnil]
  apply Settles.bind (Meaning.limited_settles (by omega))
  intro table _
  apply Settles.bind .rfl
  intro h _
  apply Settles.bind (Meaning.limited_settles (by omega))
  intro v _
  by_cases hrecorded : record key v = .constant .nil
  · rw [if_pos hrecorded, if_pos hrecorded]
    exact .rfl
  · rw [if_neg hrecorded, if_neg hrecorded]
    exact .bind (reservation_settles (by omega) _) fun _ _ => .rfl

theorem next_settles {last : Option Value} (ht : t.Sound) (hb : base.Denotes b)
    (hk : (last.getD (.scalar .nil)).Denotes k) (hsize : t.pinned + b.size + k.size + 2 ≤ top) :
    Settles limits top
      (Answer.next t base (last.getD (.scalar .nil)) (b.unlimited t) (k.unlimited t) (.ok ()))
      ((next base last).outcome limits t).result := by
  rw [(next_runs ht hb hk).outcome]
  apply Settles.bind (Meaning.limited_settles (by omega))
  intro table _
  apply Settles.bind .rfl
  intro h _
  apply Settles.bind (Meaning.limited_settles (by omega))
  intro v _
  exact .bind (reservation_settles (by omega) _) fun _ _ => .rfl

theorem upvalue_settles (ht : t.Sound) (hb : base.Denotes b) (i : UInt32)
    (hsize : t.pinned + b.size + 1 ≤ top) :
    Settles limits top (Answer.upvalue t base i (b.unlimited t) (.ok ()))
      ((upvalue base i).outcome limits t).result := by
  rw [(upvalue_runs ht hb i).outcome]
  apply Settles.bind (Meaning.limited_settles (by omega))
  intro v _
  apply Settles.bind .rfl
  intro h _
  exact .bind (reservation_settles (by omega) _) fun _ _ => .rfl

theorem metatable_settles (ht : t.Sound) (hb : base.Denotes b)
    (hsize : t.pinned + b.size + 1 ≤ top) :
    Settles limits top (Answer.metatable t base (b.unlimited t) (.ok ()))
      ((metatable base).outcome limits t).result := by
  rw [(metatable_runs ht hb).outcome]
  apply Settles.bind (Meaning.limited_settles (by omega))
  intro v _
  cases t.kind? v with
  | none => exact .rfl
  | some kind =>
    exact .bind .rfl fun _ _ => .bind (reservation_settles (by omega) _) fun _ _ => .rfl

theorem userPayload_settles (ht : t.Sound) (hb : base.Denotes b)
    (hsize : t.pinned + b.size + 1 ≤ top) :
    Settles limits top (Answer.userPayload t base (b.unlimited t) (.ok ()))
      ((userPayload base).outcome limits t).result := by
  rw [(userPayload_runs ht hb).outcome]
  apply Settles.bind (Meaning.limited_settles (by omega))
  intro v _
  apply Settles.bind .rfl
  intro h _
  exact .bind (reservation_settles (by omega) _) fun _ _ => .rfl

theorem frameLocal_settles (frame : UInt16) (slot : UInt32) (hsize : t.pinned ≤ top) :
    Settles limits top (Answer.frameLocal t frame slot (.ok ()))
      ((frameLocal frame slot).outcome limits t).result := by
  rw [(frameLocal_runs frame slot).outcome]
  rw [Answer.frameLocal, Answer.frameLocal]
  by_cases hframe : t.hasFrame frame
  · rw [if_pos hframe, if_pos hframe]
    exact .bind (reservation_settles hsize _) fun _ _ => .rfl
  · rw [if_neg hframe, if_neg hframe]
    exact .rfl

theorem frameFunction_settles (frame : UInt16) (hsize : t.pinned ≤ top) :
    Settles limits top (Answer.frameFunction t frame (.ok ()))
      ((frameFunction frame).outcome limits t).result := by
  rw [(frameFunction_runs frame).outcome]
  exact .bind (reservation_settles hsize _) fun _ _ => .rfl

end Inspect

end RemoteInspect
