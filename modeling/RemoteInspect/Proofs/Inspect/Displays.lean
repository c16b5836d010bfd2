import RemoteInspect.Proofs.Inspect.Custody
import RemoteInspect.Proofs.Target.History
import RemoteInspect.Proofs.Text.Numerals

namespace RemoteInspect

namespace Text

theorem toList_loop (bytes : ByteArray) (i : Nat) (read : List UInt8) :
    ByteArray.toList.loop bytes i read = read.reverse ++ bytes.data.toList.drop i := by
  fun_induction ByteArray.toList.loop with
  | case1 i read hi ih =>
    have hget : bytes.get! i = bytes.data.toList[i] := getElem!_pos bytes.data i hi
    rw [ih, List.reverse_cons, List.append_assoc, List.singleton_append, hget,
      List.getElem_cons_drop]
  | case2 i read hi =>
    have hlength : bytes.data.toList.length ≤ i := by
      rw [Array.length_toList]
      exact Nat.le_of_not_lt hi
    rw [List.drop_eq_nil_of_le hlength, List.append_nil]

theorem utf8_injective {s t : String} (h : s.toUTF8.toList = t.toUTF8.toList) : s = t := by
  have hdata : s.toByteArray.data.toList = t.toByteArray.data.toList := by
    simpa [ByteArray.toList, toList_loop] using h
  exact String.toByteArray_inj.mp (ByteArray.ext (Array.toList_inj.mp hdata))

end Text

def Kind.shown (kind : Kind) (id : ObjectId) : List UInt8 :=
  ("[" ++ kind.name ++ ": " ++ Text.address id.address ++ "]").toUTF8.toList

theorem ObjectId.address_injective : Function.Injective ObjectId.address := by
  intro i j h
  exact Nat.eq_of_mul_eq_mul_left (by decide) (Nat.add_left_cancel h)

theorem Kind.shown_injective {kind kind' : Kind} {i j : ObjectId}
    (h : kind.shown i = kind'.shown j) : i = j := by
  have hcolon : ∀ kind : Kind, ':' ∉ kind.name.toList := by
    intro kind
    cases kind <;> decide
  have htext := congrArg String.toList (Text.utf8_injective h)
  have hchars : kind.name.toList ++ ':' :: ' ' :: ((Text.address i.address).toList ++ [']']) =
      kind'.name.toList ++ ':' :: ' ' :: ((Text.address j.address).toList ++ [']']) := by
    simpa using htext
  obtain ⟨-, hrest⟩ := Text.append_cons_split (hcolon kind) (hcolon kind') hchars
  have haddress := List.append_cancel_right (List.cons.inj hrest).2
  exact ObjectId.address_injective (Text.address_injective (String.toList_injective haddress))

namespace Inspect

variable {limits : Limits} {v : Live}

theorem run_evaluate {h : Handle} {t : Target}
    (hfound : ((evaluate h).outcome limits t).result = .ok v) :
    ∃ s, (evaluate h).run limits (.start t) = (.ok v, s) ∧
      s.target = t.withPinned (t.pinned + 1) ∧ t.Owns v := by
  have hkeeps : Keeps limits t Unrelated 0 1 (evaluate h) fun v => True ∧ t.Owns v :=
    evaluate_keeps_of_allowed (.of_allowed t nofun) nofun h
  obtain ⟨⟨r, p, high, es⟩, ⟨hends, -, -⟩, hrun⟩ := (hkeeps t.pinned).run (s := .start t) rfl
  rw [outcome_result, hrun] at hfound
  subst hfound
  obtain ⟨⟨-, howns⟩, hpinned⟩ := hends
  exact ⟨_, hrun, congrArg t.withPinned hpinned, howns⟩

theorem display_of_object {h : Handle} {t : Target} {id : ObjectId}
    (hfound : ((evaluate h).outcome limits t).result = .ok (.object id)) :
    ∃ kind, t.kind? (.object id) = some kind ∧
      ((display (.handle h)).outcome limits t).result = .ok (.string (kind.shown id)) := by
  obtain ⟨s, hrun, hs, kind, hkind⟩ := run_evaluate hfound
  refine ⟨kind, hkind, ?_⟩
  have hread : s.target.kind? (.object id) = some kind := by rw [hs]; exact hkind
  have hheld : s.target.pinned ≠ 0 := by rw [hs]; exact Nat.succ_ne_zero _
  simp [outcome_result, display, rejecting, attempt, holding, resolve, hrun, run_bind, Live.copy?,
    kindOf, target, hread, run_pure, release, hheld, Kind.shown, Live.address?]

end Inspect

namespace Custody

open Inspect (display)

theorem heap_take (c : Custody) (vs : List Live) : (c.take vs).target.heap = c.target.heap := by
  have hpins : ∀ t : Target, (vs.foldl (fun t _ => t.pin) t).heap = t.heap := by
    induction vs with
    | nil => exact fun _ => rfl
    | cons v rest ih => exact fun t => ih t.pin
  exact hpins c.target

theorem evolves_act (c : Custody) (a : Action) :
    ∃ made, c.target.Evolves made (c.act a).target := by
  cases a with
  | change x =>
    rw [act]
    split
    · exact ⟨_, Target.evolves_change ‹_›⟩
    · exact ⟨none, .kept rfl⟩
  | access a => exact ⟨none, .kept (heap_take c _)⟩
  | clone i => exact ⟨none, .kept (heap_take c _)⟩
  | drop i =>
    rw [act]
    split <;> exact ⟨none, .kept rfl⟩
  | inspect limits call =>
    have htarget := (Inspect.perform_balances call limits c.target).outcome_target
    exact ⟨none, .kept (congrArg Target.heap htarget)⟩

theorem extends_run (c : Custody) (actions : List Action) :
    (c.run actions).target.Extends c.target := by
  induction actions generalizing c with
  | nil => exact .refl c.target
  | cons a rest ih =>
    obtain ⟨made, hmade⟩ := c.evolves_act a
    exact (ih (c.act a)).trans hmade.extends

def moment (c : Custody) (actions : List Action) (n : Nat) : Custody :=
  c.run (actions.take n)

variable {c : Custody} {actions : List Action} {m n : Nat}

theorem extends_moment (h : m ≤ n) :
    (c.moment actions n).target.Extends (c.moment actions m).target := by
  obtain ⟨d, rfl⟩ := Nat.exists_eq_add_of_le h
  rw [moment, List.take_add, run, List.foldl_append]
  exact extends_run (c.moment actions m) _

theorem kind_moment {v : Live} {kind kind' : Kind}
    (h : (c.moment actions m).target.kind? v = some kind)
    (h' : (c.moment actions n).target.kind? v = some kind') : kind = kind' := by
  obtain hle | hle := Nat.le_total m n
  · exact Option.some.inj ((extends_moment hle _ _ h).symm.trans h')
  · exact Option.some.inj (h.symm.trans (extends_moment hle _ _ h'))

theorem evolves_moment (c : Custody) (actions : List Action) (n : Nat) :
    ∃ made, (c.moment actions n).target.Evolves made (c.moment actions (n + 1)).target := by
  rw [moment, moment, List.take_add_one, run, run, List.foldl_append]
  cases actions[n]? with
  | none => exact ⟨none, .kept rfl⟩
  | some a => exact evolves_act _ a

/-- While a target is changed and inspected, no place is given to another object. At any two moments
two handles that lead to objects are shown by the same text exactly if both lead to one object. -/
theorem displays_identify (c : Custody) (actions : List Action) :
    (∀ n, ∃ made, (c.moment actions n).target.Evolves made (c.moment actions (n + 1)).target) ∧
    ∀ (m n : Nat) (h k : Handle) (limits limits' : Limits) (i j : ObjectId),
      let t := (c.moment actions m).target
      let u := (c.moment actions n).target
      ((Inspect.evaluate h).outcome limits t).result = .ok (.object i) →
      ((Inspect.evaluate k).outcome limits' u).result = .ok (.object j) →
      ∃ bytes bytes', ((display (.handle h)).outcome limits t).result = .ok (.string bytes) ∧
        ((display (.handle k)).outcome limits' u).result = .ok (.string bytes') ∧
        (bytes = bytes' ↔ i = j) := by
  refine ⟨c.evolves_moment actions, ?_⟩
  intro m n h k limits limits' i j t u hh hk
  obtain ⟨kind, hkind, hshown⟩ := Inspect.display_of_object hh
  obtain ⟨kind', hkind', hshown'⟩ := Inspect.display_of_object hk
  refine ⟨_, _, hshown, hshown', Kind.shown_injective, ?_⟩
  rintro rfl
  rw [kind_moment hkind hkind']

/-- A table is shown alike by its name and, when the name has gone to a userdata, as the payload of
that. -/
theorem displays_identify_renamed :
    let name (v : Live) : Action := .change (.set (Target.root .globals) (.scalar (.string [107])) v)
    let actions : List Action := [.change .newTable, .change (.newUserdata (some (.object 3))),
      name (.object 3), name (.object 4)]
    let early := ((new 9).moment actions 3).target
    let late := ((new 9).moment actions 4).target
    let named : Handle := ⟨⟨[.index .get 1, .root .globals]⟩, ⟨[.string [107]]⟩⟩
    ((Inspect.evaluate named).outcome .standard early).result = .ok (.object 3) ∧
      ((Inspect.evaluate named.userPayload).outcome .standard late).result = .ok (.object 3) ∧
      ((Inspect.evaluate named).outcome .standard late).result = .ok (.object 4) ∧
      ∃ bytes, ((display (.handle named)).outcome .standard early).result = .ok (.string bytes) ∧
        ((display (.handle named.userPayload)).outcome .standard late).result =
          .ok (.string bytes) ∧
        ((display (.handle named)).outcome .standard late).result ≠ .ok (.string bytes) := by
  intro name actions early late named
  obtain ⟨-, hshows⟩ := displays_identify (new 9) actions
  have hearly : ((Inspect.evaluate named).outcome .standard early).result = .ok (.object 3) := rfl
  have hpayload : ((Inspect.evaluate named.userPayload).outcome .standard late).result =
    .ok (.object 3) := rfl
  have hlate : ((Inspect.evaluate named).outcome .standard late).result = .ok (.object 4) := rfl
  obtain ⟨bytes, bytes', hfirst, hsecond, hsame⟩ := hshows 3 4 _ _ _ _ 3 3 hearly hpayload
  obtain ⟨_, other, hfirst', hthird, hdiffers⟩ := hshows 3 4 _ _ _ _ 3 4 hearly hlate
  obtain rfl := hsame.mpr rfl
  cases hfirst.symm.trans hfirst'
  refine ⟨hearly, hpayload, hlate, bytes, hfirst, hsecond, fun h => ?_⟩
  cases hthird.symm.trans h
  exact absurd (hdiffers.mp rfl) (by decide)

end Custody

end RemoteInspect
