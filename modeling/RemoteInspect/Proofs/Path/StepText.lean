import RemoteInspect.Path.Step
import RemoteInspect.Proofs.Text.Numerals

namespace RemoteInspect

namespace Step

/-- What a space comes between in the text of a step. -/
def words : Step → List String
  | frameLocal frame slot =>
    ["FrameLocal", "frame=" ++ frame.toNat.repr, "slot=" ++ slot.toNat.repr]
  | frameFunction frame => ["FrameFunction", "frame=" ++ frame.toNat.repr]
  | root r => [r.name]
  | kindMetatable kind => ["Metatable", "kind=" ++ kind.name]
  | index .get key => ["Index", "key=#" ++ key.toNat.repr]
  | index .next key => ["Next", "key=#" ++ key.toNat.repr]
  | indexObject .get size => ["IndexObject", "base=" ++ size.toNat.repr]
  | indexObject .next size => ["NextObject", "base=" ++ size.toNat.repr]
  | upvalue n => ["Upvalue", n.toNat.repr]
  | metatable => ["Metatable"]
  | userPayload => ["UserPayload"]

theorem toList_text (s : Step) : s.text.toList = [' '].intercalate (s.words.map String.toList) := by
  have h16 : ∀ n : UInt16, toString n = n.toNat.repr := fun _ => rfl
  have h32 : ∀ n : UInt32, toString n = n.toNat.repr := fun _ => rfl
  have htext : ∀ t : String, toString t = t := fun _ => rfl
  unfold text words
  split <;> simp [h16, h32, htext, List.intercalate]

def isGap (c : Char) : Bool := c = ' ' || c = '\n'

theorem any_isGap_repr (n : Nat) : n.repr.toList.any isGap = false := by
  refine List.any_eq_false.mpr fun c hc hgap => ?_
  have hdigit := Text.isDigit_repr c hc
  simp only [isGap, Bool.or_eq_true, decide_eq_true_eq] at hgap
  obtain rfl | rfl := hgap <;> cases hdigit

theorem any_isGap_words (s : Step) : ∀ w ∈ s.words, w.toList.any isGap = false := by
  have happend : ∀ lead : String, lead.toList.any isGap = false → ∀ n : Nat,
      (lead ++ n.repr).toList.any isGap = false := by
    intro lead hlead n
    rw [String.toList_append, List.any_append, hlead, any_isGap_repr, Bool.or_false]
  cases s with
  | frameLocal frame slot =>
    simp only [words, List.forall_mem_cons]
    exact ⟨by decide, happend _ (by decide) _, happend _ (by decide) _, nofun⟩
  | frameFunction frame =>
    simp only [words, List.forall_mem_cons]
    exact ⟨by decide, happend _ (by decide) _, nofun⟩
  | root r => cases r <;> decide
  | kindMetatable kind => cases kind <;> decide
  | index lookup n | indexObject lookup n =>
    cases lookup <;>
    · simp only [words, List.forall_mem_cons]
      exact ⟨by decide, happend _ (by decide) _, nofun⟩
  | upvalue n =>
    simp only [words, List.forall_mem_cons]
    exact ⟨by decide, any_isGap_repr _, nofun⟩
  | metatable | userPayload => decide

theorem isGap_of_mem_words {s : Step} {w : String} (hw : w ∈ s.words) :
    ∀ c ∈ w.toList, isGap c = false := by
  simpa only [List.any_eq_false, Bool.not_eq_true] using any_isGap_words s w hw

theorem newline_notMem_intercalate {ls : List (List Char)} (h : ∀ l ∈ ls, '\n' ∉ l) :
    '\n' ∉ [' '].intercalate ls := by
  induction ls with
  | nil => simp [List.intercalate]
  | cons l ls ih =>
    obtain ⟨hl, hls⟩ := List.forall_mem_cons.mp h
    cases ls with
    | nil => rwa [List.intercalate_singleton]
    | cons l' ls => simpa [List.intercalate_cons_cons, hl] using ih hls

theorem newline_notMem_text (s : Step) : '\n' ∉ s.text.toList := by
  rw [toList_text]
  refine newline_notMem_intercalate (List.forall_mem_map.mpr fun w hw hn => ?_)
  cases isGap_of_mem_words hw _ hn

theorem words_injective : Function.Injective words := by
  intro s s' h
  have hshort : ∀ {m n : UInt16}, m.toNat.repr = n.toNat.repr ↔ m = n := fun {_ _} =>
    ⟨fun h => UInt16.toNat_inj.mp (Text.natRepr_injective h), fun h => h ▸ rfl⟩
  have hlong : ∀ {m n : UInt32}, m.toNat.repr = n.toNat.repr ↔ m = n := fun {_ _} =>
    ⟨fun h => UInt32.toNat_inj.mp (Text.natRepr_injective h), fun h => h ▸ rfl⟩
  have hroot : ∀ {r r' : Root}, r.name = r'.name → r = r' := by
    intro r r'
    cases r <;> cases r' <;> decide
  have hother : ∀ r : Root, r.name ≠ "Metatable" ∧ r.name ≠ "UserPayload" := by
    intro r
    cases r <;> decide
  have hkind : ∀ {kind kind' : Kind}, kind.name = kind'.name → kind = kind' := by
    intro kind kind'
    cases kind <;> cases kind' <;> decide
  -- The first word and the number of words tell the kind of step.
  rcases s with _ | _ | r | kind | ⟨_ | _⟩ | ⟨_ | _⟩ | _ | _ | _ <;>
    rcases s' with _ | _ | r' | kind' | ⟨_ | _⟩ | ⟨_ | _⟩ | _ | _ | _ <;>
    simp only [words, List.cons.injEq, String.reduceEq, String.append_right_inj, hshort, hlong,
      reduceCtorEq, false_and, and_false, true_and, and_true] at h
  case root.root => rw [hroot h]
  case root.metatable => exact absurd h (hother r).1
  case root.userPayload => exact absurd h (hother r).2
  case metatable.root => exact absurd h.symm (hother r').1
  case userPayload.root => exact absurd h.symm (hother r').2
  case kindMetatable.kindMetatable => rw [hkind h]
  all_goals simp only [h]

theorem words_ne_nil (s : Step) : s.words ≠ [] := by
  unfold words
  split <;> exact List.cons_ne_nil _ _

theorem text_injective : Function.Injective text := by
  intro s s' h
  have hspace : ∀ s : Step, ∀ w ∈ s.words.map String.toList, ' ' ∉ w := by
    intro s w hw hc
    obtain ⟨t, ht, rfl⟩ := List.mem_map.mp hw
    cases isGap_of_mem_words ht _ hc
  have hsplit : ∀ s : Step, List.splitOn ' ' s.text.toList = s.words.map String.toList := by
    intro s
    rw [toList_text]
    exact List.splitOn_intercalate _ (hspace s) (by simp [words_ne_nil])
  have hwords : s.words.map String.toList = s'.words.map String.toList := by
    rw [← hsplit, h, hsplit]
  exact words_injective (List.map_injective_iff.mpr (fun _ _ => String.toList_injective) hwords)

end Step

end RemoteInspect
