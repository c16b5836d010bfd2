import RemoteInspect.Proofs.Inspect.Following

namespace RemoteInspect

def Event.depth? : Event → Option Nat
  | entered _ depth | resolved _ depth _ | failed _ depth _ => some depth
  | rejected .. | copied _ | referred _ => none

namespace Inspect

/-- What is read from `t` is among the values in `own`. Where they have no kind, a fault is
allowed. -/
structure Grounds (t : Target) (allowed : Fault → Prop) (own : Live → Prop) : Prop where
  kind {v : Live} (h : own v) : (∃ kind, t.kind? v = some kind) ∨ allowed .outOfRange
  scalar (s : Scalar) : own (.scalar s)
  root (r : Root) : own (Target.root r)
  rawGet (table key : Live) : own (t.rawGet table key)
  rawNext {table last k v : Live} (h : t.rawNext table last = .entry k v) : own k ∧ own v
  frameLocal {level : UInt16} {slot : UInt32} {b : Binding}
    (h : t.frameLocal? level slot = some b) : own b.2
  frameFunction {level : UInt16} {v : Live} (h : t.frameFunction? level = some v) : own v
  upvalue {function : Live} {index : UInt32} {b : Binding}
    (h : t.upvalue? function index = some b) : own b.2
  metatable {v m : Live} (h : t.metatable? v = some m) : own m
  payload {v payload : Live} (h : t.payload? v = some payload) : own payload

theorem Grounds.of_allowed (t : Target) {allowed : Fault → Prop} (h : allowed .outOfRange) :
    Grounds t allowed fun _ => True where
  kind _ := .inr h
  scalar _ := trivial
  root _ := trivial
  rawGet _ _ := trivial
  rawNext _ := ⟨trivial, trivial⟩
  frameLocal _ := trivial
  frameFunction _ := trivial
  upvalue _ := trivial
  metatable _ := trivial
  payload _ := trivial

theorem Grounds.representative {t : Target} {allowed : Fault → Prop} {own : Live → Prop}
    (hg : Grounds t allowed own) {kind : Kind} {v : Live} (h : representative? kind = some v) :
    own v := by
  cases kind <;> cases h <;> first | exact hg.scalar _ | exact hg.root _

variable {α β : Type} {limits : Limits} {t : Target} {allowed : Fault → Prop} {own : Live → Prop}
  {n held mid gain depth : Nat} {Q : α → Prop} {R : β → Prop}

/-- After a success `gain` values more are pinned than `n`, and after a failure none. What comes
with a fault stays pinned; one that is not allowed happens only where no word counts the slots that
are reserved. -/
def Concludes (limits : Limits) (allowed : Fault → Prop) (n held gain : Nat) (Q : α → Prop) :
    Effect α → Prop
  | ⟨.ok a, pinned, _, _⟩ => Q a ∧ pinned = n + gain
  | ⟨.error (.failure _), pinned, _, _⟩ => pinned = n
  | ⟨.error (.fault f), pinned, high, _⟩ => n ≤ pinned ∧
    (allowed f ∨ f = .outOfRange ∧ Target.sizeLimit ≤ max (n + held) high + limits.reserve)

structure Orderly (limits : Limits) (allowed : Fault → Prop) (n held gain : Nat) (Q : α → Prop)
    (e : Effect α) : Prop where
  ends : Concludes limits allowed n held gain Q e
  high : e.pinned ≤ max (n + held) e.high
  shallow : ∀ ev ∈ e.events, ∀ depth, ev.depth? = some depth → depth ≤ limits.recursion

/-- With `held` values pinned by what came before it, `m` gives what has `Q`, with `gain` of them
pinned. -/
def Keeps (limits : Limits) (t : Target) (allowed : Fault → Prop) (held gain : Nat)
    (m : Inspect α) (Q : α → Prop) : Prop :=
  ∀ n, Meets limits t (n + held) m (Orderly limits allowed n held gain Q)

namespace Orderly

theorem quiet {r : Except Stop α} (h : Concludes limits allowed n held gain Q ⟨r, n + mid, 0, []⟩)
    (hle : mid ≤ held) : Orderly limits allowed n held gain Q ⟨r, n + mid, 0, []⟩ :=
  ⟨h, Nat.le_trans (Nat.add_le_add_left hle n) (Nat.le_max_left ..),
    fun _ hev => absurd hev List.not_mem_nil⟩

theorem stopped {x : Stop} {pinned high : Nat} {es : List Event}
    (h : Orderly limits allowed n held mid Q ⟨.error x, pinned, high, es⟩) :
    Orderly limits allowed n held gain R ⟨.error x, pinned, high, es⟩ := by
  obtain ⟨hends, hhigh, hshallow⟩ := h
  cases x <;> exact ⟨hends, hhigh, hshallow⟩

theorem after {a : α} {high : Nat} {es : List Event} {e : Effect β}
    (h : Orderly limits allowed n held mid Q ⟨.ok a, n + mid, high, es⟩)
    (he : Orderly limits allowed n mid gain R e) :
    Orderly limits allowed n held gain R (e.after high es) := by
  obtain ⟨-, hhigh, hshallow⟩ := h
  obtain ⟨hends, hhigh', hshallow'⟩ := he
  dsimp only at hhigh
  -- The first part may be the one that pins the most.
  have hmost : max (n + mid) e.high ≤ max (n + held) (max high e.high) := by omega
  refine ⟨?_, Nat.le_trans hhigh' hmost, ?_⟩
  · obtain ⟨(f | f) | b, p, h', es'⟩ := e
    · exact hends
    · obtain ⟨hle, hf⟩ := hends
      refine ⟨hle, hf.imp_right fun ⟨hf, hlimit⟩ => ⟨hf, ?_⟩⟩
      exact Nat.le_trans hlimit (Nat.add_le_add_right hmost _)
    · exact hends
  · intro ev hev
    exact (List.mem_append.mp hev).elim (hshallow ev) (hshallow' ev)

theorem freed {e : Effect α} (h : Orderly limits allowed (n + 1) 0 gain Q e) :
    Orderly limits allowed n 1 gain Q e.freed := by
  obtain ⟨hends, hhigh, hshallow⟩ := h
  obtain ⟨(f | f) | a, p, high, es⟩ := e
  · obtain rfl : p = n + 1 := hends
    exact ⟨rfl, Nat.le_of_succ_le hhigh, hshallow⟩
  · obtain ⟨hle, hf⟩ := hends
    obtain ⟨p, rfl⟩ := Nat.exists_eq_add_of_le' (Nat.le_of_add_left_le hle)
    exact ⟨⟨Nat.le_of_succ_le_succ hle, hf⟩, Nat.le_of_succ_le hhigh, hshallow⟩
  · obtain ⟨ha, hpinned⟩ := hends
    obtain rfl : p = n + gain + 1 := by omega
    exact ⟨⟨ha, rfl⟩, Nat.le_of_succ_le hhigh, hshallow⟩

end Orderly

namespace Keeps

theorem mono {P : α → Prop} {m : Inspect α} (hm : Keeps limits t allowed held gain m P)
    (h : ∀ a, P a → Q a) : Keeps limits t allowed held gain m Q := by
  refine fun n => (hm n).mono fun e he => ?_
  obtain ⟨(f | f) | a, p, high, es⟩ := e
  · exact he.stopped
  · exact he.stopped
  · exact ⟨⟨h a he.ends.1, he.ends.2⟩, he.high, he.shallow⟩

theorem pure {a : α} (h : Q a) : Keeps limits t allowed held held (Pure.pure a) Q :=
  fun _ => .pure (.quiet ⟨h, rfl⟩ (Nat.le_refl held))

theorem fail (f : Failure) : Keeps limits t allowed 0 gain (fail f) Q :=
  fun _ => .fail (.quiet rfl (Nat.le_refl 0))

theorem failing (f : Failure) (k : α → Inspect β) :
    Keeps limits t allowed 0 gain (Inspect.fail f >>= k) R :=
  fun _ => .failing (.quiet rfl (Nat.le_refl 0))

theorem fault {f : Fault} (hf : allowed f) : Keeps limits t allowed held gain (fault f) Q :=
  fun n => .fault (.quiet ⟨Nat.le_add_right n held, .inl hf⟩ (Nat.le_refl held))

theorem emit {e : Event} (h : ∀ depth, e.depth? = some depth → depth ≤ limits.recursion) :
    Keeps limits t allowed held held (emit e) fun _ => True :=
  fun _ => .emit ⟨⟨trivial, rfl⟩, Nat.le_max_left .., List.forall_mem_singleton.mpr h⟩

theorem target_bind {f : Target → Inspect β}
    (hf : ∀ n, Keeps limits t allowed held gain (f (t.withPinned n)) R) :
    Keeps limits t allowed held gain (target >>= f) R :=
  fun n => .target_bind (hf (n + held) n)

theorem limits_bind {f : Limits → Inspect β} (hf : Keeps limits t allowed held gain (f limits) R) :
    Keeps limits t allowed held gain (Inspect.limits >>= f) R :=
  fun n => .limits_bind (hf n)

theorem pin {v : Live} {Q : Live → Prop} (h : Q v) :
    Keeps limits t allowed held (held + 1) (pin v) Q :=
  fun _ => .pin ⟨⟨h, rfl⟩, Nat.le_max_right .., fun _ hev => absurd hev List.not_mem_nil⟩

theorem release : Keeps limits t allowed (held + 1) held release fun _ => True :=
  fun _ => .release (Orderly.quiet ⟨trivial, rfl⟩ (Nat.le_succ held))

theorem kindOf (hg : Grounds t allowed own) {v : Live} (h : own v) :
    Keeps limits t allowed held held (kindOf v) fun kind => t.kind? v = some kind := by
  refine fun n => .kindOf (.quiet ?_ (Nat.le_refl held))
  cases hk : t.kind? v with
  | some kind => exact ⟨rfl, rfl⟩
  | none =>
    refine ⟨Nat.le_add_right n held, .inl ((hg.kind h).resolve_left ?_)⟩
    rintro ⟨kind, hk'⟩
    cases hk.symm.trans hk'

theorem roomy : Keeps limits t allowed held held roomy fun _ => True := by
  refine fun n => .roomy (.quiet ?_ (Nat.le_refl held))
  split
  · rename_i hlimit
    exact ⟨Nat.le_add_right n held, .inr ⟨rfl, by omega⟩⟩
  · exact ⟨trivial, rfl⟩

theorem reserve : Keeps limits t allowed 0 0 reserve fun _ => True := by
  refine fun n => .reserve (.quiet ?_ (Nat.le_refl 0))
  rw [reservation]
  split
  · rename_i hlimit
    exact ⟨Nat.le_refl n, .inr ⟨rfl, by omega⟩⟩
  · split
    · exact ⟨trivial, rfl⟩
    · exact rfl

theorem seq {m : Inspect α} {f : α → Inspect β} (hm : Keeps limits t allowed held mid m Q)
    (hf : ∀ a, Q a → Keeps limits t allowed mid gain (f a) R) :
    Keeps limits t allowed held gain (m >>= f) R := by
  refine fun n => Meets.seq (hm n) (fun x p h es hx => hx.stopped) fun a p h es ha => ?_
  obtain ⟨hQ, rfl⟩ := ha.ends
  exact (hf a hQ n).mono fun e => ha.after

theorem holding {pinned : Inspect Live} {work : Live → Inspect α} {P : Live → Prop}
    (hp : Keeps limits t allowed 0 1 pinned P)
    (hw : ∀ v, P v → Keeps limits t allowed 0 gain (work v) Q) :
    Keeps limits t allowed 0 gain (holding pinned work) Q := by
  refine fun n => Meets.holding (hp n) (fun x p h es hx => hx.stopped) fun v p h es hv => ?_
  obtain ⟨hP, rfl⟩ := hv.ends
  exact (hw v hP (n + 1)).mono fun e he => hv.after he.freed

theorem attempt {m : Inspect α} (hm : Keeps limits t allowed 0 0 m Q) :
    Keeps limits t allowed 0 0 m.attempt fun r => ∀ a, r = .ok a → Q a := by
  refine fun n => .attempt ((hm n).mono fun e he => ?_)
  obtain ⟨(f | f) | a, p, high, es⟩ := e
  · exact ⟨⟨nofun, he.ends⟩, he.high, he.shallow⟩
  · exact he.stopped
  · refine ⟨⟨?_, he.ends.2⟩, he.high, he.shallow⟩
    rintro _ ⟨⟩
    exact he.ends.1

theorem rejecting {m : Inspect α} (operation : Operation) (hm : Keeps limits t allowed 0 0 m Q) :
    Keeps limits t allowed 0 0 (rejecting operation m) Q := by
  refine fun n => .rejecting operation ((hm n).mono fun e he => ?_)
  obtain ⟨(f | f) | a, p, high, es⟩ := e
  · refine ⟨he.ends, he.high, fun ev hev => ?_⟩
    obtain hev | hev := List.mem_append.mp hev
    · exact he.shallow ev hev
    · cases List.mem_singleton.mp hev
      exact nofun
  · exact he
  · exact he

theorem refusing {c : Prop} [Decidable c] (f : Failure) {m : Inspect α}
    (hm : ¬ c → Keeps limits t allowed 0 gain m Q) :
    Keeps limits t allowed 0 gain (if c then (do let _ : Unit ← Inspect.fail f; m) else m) Q :=
  fun n => .refusing (fun _ => .quiet rfl (Nat.le_refl 0)) fun hc => hm hc n

end Keeps

variable {s : Step} {pool : Pool}

theorem failAt_keeps (hd : depth ≤ limits.recursion) (f : Failure) :
    Keeps limits t allowed 0 gain (failAt s depth f) Q :=
  .seq (.emit fun _ h => Option.some.inj h ▸ hd) fun _ _ => .fail f

theorem found_keeps (hd : depth ≤ limits.recursion) {v? : Option Live}
    (howns : ∀ v, v? = some v → own v) (what : Missing) :
    Keeps limits t allowed 0 1 (found s depth v? what) own := by
  cases v? with
  | some v => exact .pin (howns v rfl)
  | none => exact failAt_keeps hd _

variable (hg : Grounds t allowed own)
include hg

theorem lookupAt_keeps (hd : depth ≤ limits.recursion) (lookup : Lookup) (table key : Live) :
    Keeps limits t allowed 0 1 (lookupAt s depth lookup table key) own := by
  refine .target_bind fun n => ?_
  cases lookup with
  | get =>
    refine .seq (.pin (hg.rawGet table key)) fun v hv => .seq (.kindOf hg hv) fun kind _ => ?_
    by_cases hnil : kind = .nil
    · simp only [hnil, ↓reduceIte]
      exact .seq .release fun _ _ => .seq (Q := own) (failAt_keeps hd _) fun _ h => .pure hv
    · simp only [hnil, ↓reduceIte]
      exact .pure hv
  | next =>
    cases hn : t.rawNext table key with
    | entry k v =>
      simp only [Target.rawNext_withPinned, hn]
      obtain ⟨hk, hv⟩ := hg.rawNext hn
      exact .seq (.pin hk) fun k hk => .seq (.pin hv) fun _ _ => .seq .release fun _ _ => .pure hk
    | finished | unknownKey =>
      simp only [Target.rawNext_withPinned, hn]
      exact failAt_keeps hd _

theorem constantAt_keeps (hd : depth ≤ limits.recursion) (reference : UInt32) :
    Keeps limits t allowed 0 1 (constantAt s depth pool reference) own := by
  unfold constantAt
  split
  · exact .pin (hg.scalar _)
  · cases pool.get? reference with
    | some constant => exact .pin (hg.scalar _)
    | none => exact failAt_keeps hd _

theorem onBase_keeps {expected : Expectation} {base : Inspect Live} {work : Live → Inspect α}
    (hd : depth ≤ limits.recursion) (hb : Keeps limits t allowed 0 1 base own)
    (hw : ∀ v, Keeps limits t allowed 0 gain (work v) Q) :
    Keeps limits t allowed 0 gain (onBase s depth expected base work) Q := by
  refine .holding hb fun v hv => .seq (.kindOf hg hv) fun kind _ => ?_
  by_cases ha : expected.accepts kind
  · simp only [ha, ↓reduceIte]
    exact hw v
  · simp only [ha, ↓reduceIte, Bool.false_eq_true]
    exact failAt_keeps hd _

theorem follow_keeps {descend : List Step → Inspect Live} {rest : List Step}
    (hd : depth ≤ limits.recursion)
    (hbase : s.shape ≠ .leaf → Keeps limits t allowed 0 1 (descend rest) own)
    (hkey : ∀ size, s.shape = .keyed size →
      Keeps limits t allowed 0 1 (descend (rest.drop size)) own) :
    Keeps limits t allowed 0 1 (follow descend pool depth s rest) own := by
  cases s with
  | frameLocal frame slot =>
    refine .target_bind fun n => ?_
    split
    · refine found_keeps hd (fun v hv => ?_) _
      obtain ⟨b, hb, rfl⟩ := Option.map_eq_some_iff.mp hv
      exact hg.frameLocal hb
    · exact failAt_keeps hd _
  | frameFunction frame =>
    exact .target_bind fun n => found_keeps hd (fun v hv => hg.frameFunction hv) _
  | root r => exact .pin (hg.root r)
  | kindMetatable kind =>
    simp only [follow]
    cases hv : representative? kind with
    | none => exact failAt_keeps hd _
    | some v =>
      refine .holding (.pin (hg.representative hv)) fun v _ => .target_bind fun n => ?_
      exact found_keeps hd (fun _ => hg.metatable) _
  | index lookup key =>
    refine onBase_keeps hg hd (hbase Shape.noConfusion) fun table => ?_
    exact .holding (constantAt_keeps hg hd key) fun k _ => lookupAt_keeps hg hd lookup table k
  | indexObject lookup baseSize =>
    refine onBase_keeps hg hd (hbase Shape.noConfusion) fun table => ?_
    exact .holding (hkey _ rfl) fun k _ => lookupAt_keeps hg hd lookup table k
  | upvalue index =>
    refine onBase_keeps hg hd (hbase Shape.noConfusion) fun function => .target_bind fun n => ?_
    refine found_keeps hd (fun v hv => ?_) _
    obtain ⟨b, hb, rfl⟩ := Option.map_eq_some_iff.mp hv
    exact hg.upvalue hb
  | metatable =>
    refine onBase_keeps hg hd (hbase Shape.noConfusion) fun v => .target_bind fun n => ?_
    exact found_keeps hd (fun _ => hg.metatable) _
  | userPayload =>
    refine onBase_keeps hg hd (hbase Shape.noConfusion) fun v => .target_bind fun n => ?_
    exact found_keeps hd (fun _ => hg.payload) _

theorem node_keeps_cons {room : Nat} {rest : List Step} (hroom : room + depth = limits.recursion)
    (hstep : ∀ room', room = room' + 1 →
      Keeps limits t allowed 0 1 (follow (node pool room' (depth + 1)) pool depth s rest) own) :
    Keeps limits t allowed 0 1 (node pool room depth (s :: rest)) fun v => own v ∧ t.Owns v := by
  have hd : depth ≤ limits.recursion := by omega
  cases room with
  | zero => exact .limits_bind (failAt_keeps hd _)
  | succ room =>
    have henter : Keeps limits t allowed 0 1 (do
        emit (.entered s depth)
        let v ← follow (node pool room (depth + 1)) pool depth s rest
        emit (.resolved s depth (← kindOf v))
        return v) fun v => own v ∧ t.Owns v := by
      refine .seq (.emit fun _ h => Option.some.inj h ▸ hd) fun _ _ => ?_
      refine .seq (hstep room rfl) fun v hv => .seq (.kindOf hg hv) fun kind hkind => ?_
      exact .seq (.emit fun _ h => Option.some.inj h ▸ hd) fun _ _ => .pure ⟨hv, kind, hkind⟩
    refine .seq .roomy ?_
    rintro (_ | _) -
    · exact .seq (Q := fun _ => True) (failAt_keeps hd _) fun _ _ => henter
    · exact henter

/-- Steps that are no path are followed too, up to a fault. -/
theorem node_keeps_of_allowed (hfault : allowed .outOfRange) {room : Nat}
    (hroom : room + depth = limits.recursion) (steps : List Step) :
    Keeps limits t allowed 0 1 (node pool room depth steps) fun v => own v ∧ t.Owns v := by
  -- By induction on the levels that are left: the subpaths of a node have one less.
  induction room generalizing depth steps with
  | zero =>
    cases steps with
    | nil => exact .fault hfault
    | cons s rest => exact node_keeps_cons hg hroom fun _ hr => absurd hr.symm (Nat.succ_ne_zero _)
  | succ room ih =>
    cases steps with
    | nil => exact .fault hfault
    | cons s rest =>
      have hsub : ∀ steps, Keeps limits t allowed 0 1 (node pool room (depth + 1) steps) own :=
        fun steps => (ih (by omega) steps).mono fun _ => And.left
      refine node_keeps_cons hg hroom fun room' hr => ?_
      cases hr
      exact follow_keeps hg (by omega) (fun _ => hsub _) fun _ _ => hsub _

theorem evaluate_keeps_of_allowed (hfault : allowed .outOfRange) (h : Handle) :
    Keeps limits t allowed 0 1 (evaluate h) fun v => own v ∧ t.Owns v :=
  .limits_bind (node_keeps_of_allowed hg hfault (Nat.add_zero _) _)

end Inspect

end RemoteInspect
