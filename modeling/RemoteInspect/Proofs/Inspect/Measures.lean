import RemoteInspect.Proofs.Inspect.Following

namespace RemoteInspect.Inspect

/-- Something to be read off the most values that are pinned and the events. What is read for one
program after another is put together by `add`. -/
structure Gauge (δ : Type) where
  Reads : δ → Nat → List Event → Prop
  none : δ
  entry : Nat → δ
  add : δ → δ → δ
  none_add (d : δ) : add none d = d
  add_none (d : δ) : add d none = d
  nil : Reads none 0 []
  append {d d' : δ} {high high' : Nat} {es es' : List Event} (first : Reads d high es)
    (second : Reads d' high' es') : Reads (add d d') (max high high') (es ++ es')
  entered (s : Step) (depth : Nat) : Reads (entry depth) 0 [.entered s depth]
  other {e : Event} (h : ∀ s depth, e ≠ .entered s depth) : Reads none 0 [e]

variable {α β δ : Type} {g : Gauge δ} {limits : Limits} {t : Target} {n n₁ depth : Nat} {d d' : δ}

/-- From `n` pinned values on, `d` is read for `m`. -/
def Measures (g : Gauge δ) (limits : Limits) (t : Target) (n : Nat) (m : Inspect α) (d : δ) :
    Prop :=
  Meets limits t n m fun e => g.Reads d e.high e.events

namespace Measures

variable {m : Inspect α} {f : α → Inspect β}

theorem congr (h : Measures g limits t n m d) (hd : d = d') : Measures g limits t n m d' :=
  hd ▸ h

theorem pure (a : α) : Measures g limits t n (Pure.pure a) g.none :=
  Meets.pure g.nil

theorem fail (f : Failure) : Measures g limits t n (fail f : Inspect α) g.none :=
  Meets.fail g.nil

theorem fault (f : Fault) : Measures g limits t n (fault f : Inspect α) g.none :=
  Meets.fault g.nil

theorem release : Measures g limits t n release g.none := by
  apply Meets.release
  cases n <;> exact g.nil

theorem kindOf (v : Live) : Measures g limits t n (kindOf v) g.none :=
  Meets.kindOf g.nil

theorem roomy : Measures g limits t n roomy g.none :=
  Meets.roomy g.nil

theorem reserve : Measures g limits t n reserve g.none :=
  Meets.reserve g.nil

theorem pin {v : Live} (h : g.Reads d (n + 1) []) : Measures g limits t n (pin v) d :=
  Meets.pin h

theorem entered (s : Step) (depth : Nat) :
    Measures g limits t n (emit (.entered s depth)) (g.entry depth) :=
  Meets.emit (g.entered s depth)

theorem emit {e : Event} (h : ∀ s depth, e ≠ .entered s depth) :
    Measures g limits t n (emit e) g.none :=
  Meets.emit (g.other h)

theorem target_bind {f : Target → Inspect β} (hf : Measures g limits t n (f (t.withPinned n)) d) :
    Measures g limits t n (target >>= f) d :=
  Meets.target_bind hf

theorem limits_bind {f : Limits → Inspect β} (hf : Measures g limits t n (f limits) d) :
    Measures g limits t n (Inspect.limits >>= f) d :=
  Meets.limits_bind hf

theorem seq {a : α} (hm : Executes limits t n m (.ok a) n₁) (hd : Measures g limits t n m d)
    (hf : Measures g limits t n₁ (f a) d') : Measures g limits t n (m >>= f) (g.add d d') := by
  apply Meets.seq (hm.and hd)
  · rintro _ _ _ _ ⟨⟨⟨⟩, -⟩, -⟩
  · rintro _ _ _ _ ⟨⟨⟨⟩, rfl⟩, hfirst⟩
    exact hf.mono fun _ => g.append hfirst

theorem after {a : α} (hm : Executes limits t n m (.ok a) n₁)
    (hd : Measures g limits t n m g.none) (hf : Measures g limits t n₁ (f a) d) :
    Measures g limits t n (m >>= f) d :=
  (seq hm hd hf).congr (g.none_add d)

theorem stop {e : Stop} (hm : Executes limits t n m (.error e) n₁)
    (hd : Measures g limits t n m d) : Measures g limits t n (m >>= f) d := by
  apply Meets.seq (hm.and hd)
  · rintro _ _ _ _ ⟨-, hread⟩
    exact hread
  · rintro _ _ _ _ ⟨⟨⟨⟩, -⟩, -⟩

theorem bind (hd : Measures g limits t n m d) (hf : ∀ a n, Measures g limits t n (f a) g.none) :
    Measures g limits t n (m >>= f) d := by
  refine Meets.seq hd (fun _ _ _ _ h => h) fun a p h es hread => ?_
  refine (hf a p).mono fun e hnone => ?_
  rw [← g.add_none d]
  exact g.append hread hnone

theorem holding {pinned : Inspect Live} {work : Live → Inspect β} {r : Except Stop Live}
    (hr : Runs limits t n 1 pinned r) (hd : Measures g limits t n pinned d)
    (hstop : ∀ x, r = .error x → d' = g.none)
    (hw : ∀ v, r = .ok v → Measures g limits t (n + 1) (work v) d') :
    Measures g limits t n (holding pinned work) (g.add d d') := by
  refine Meets.holding (hr.and hd) (fun x p h es hx => ?_) fun v p h es hv => ?_
  · obtain ⟨⟨rfl, -⟩, hread⟩ := hx
    rw [hstop x rfl, g.add_none]
    exact hread
  · obtain ⟨⟨rfl, hpinned⟩, hread⟩ := hv
    cases hpinned
    refine (hw v rfl).mono fun e hwork => ?_
    have hfree : e.freed.high = e.high ∧ e.freed.events = e.events := by
      rw [Effect.freed]
      split <;> exact ⟨rfl, rfl⟩
    rw [← hfree.1, ← hfree.2] at hwork
    exact g.append hread hwork

theorem attempt (h : Measures g limits t n m d) : Measures g limits t n m.attempt d := by
  apply Meets.attempt
  apply h.mono
  rintro ⟨(f | f) | a, p, h, es⟩ hread <;> exact hread

theorem rejecting (operation : Operation) (hd : Measures g limits t n m d) :
    Measures g limits t n (rejecting operation m) d := by
  apply Meets.rejecting
  apply hd.mono
  rintro ⟨(f | f) | a, p, h, es⟩ hread
  · have hboth := g.append hread (g.other (e := .rejected operation f) fun _ _ => nofun)
    rwa [g.add_none, Nat.max_zero] at hboth
  · exact hread
  · exact hread

end Measures

variable {s : Step} {pool : Pool}

theorem failAt_measures (f : Failure) :
    Measures g limits t n (failAt s depth f : Inspect α) g.none :=
  .bind (.emit fun _ _ => nofun) fun _ _ => .fail f

section Room

variable (hn : g.Reads g.none (n + 1) [])
include hn

theorem found_measures (v? : Option Live) (what : Missing) :
    Measures g limits t n (found s depth v? what) g.none := by
  cases v? with
  | some v => exact .pin hn
  | none => exact failAt_measures _

theorem constantAt_measures (reference : UInt32) :
    Measures g limits t n (constantAt s depth pool reference) g.none := by
  unfold constantAt
  split
  · exact .pin hn
  · cases pool.get? reference with
    | some constant => exact .pin hn
    | none => exact failAt_measures _

theorem lookupAt_measures {lookup : Lookup} {table key : Live}
    (hnone : (∀ k v, lookup = .next → t.rawNext table key ≠ .entry k v) → d = g.none)
    (hnext : ∀ k v, lookup = .next → t.rawNext table key = .entry k v → g.Reads d (n + 2) []) :
    Measures g limits t n (lookupAt s depth lookup table key) d := by
  apply Measures.target_bind
  cases lookup with
  | get =>
    rw [hnone fun _ _ => nofun]
    refine .bind (.pin hn) fun v n => .bind (.kindOf v) fun kind n => ?_
    dsimp only
    split
    · exact .bind .release fun _ _ => .bind (failAt_measures _) fun _ _ => .pure v
    · exact .pure v
  | next =>
    cases hn' : t.rawNext table key with
    | entry k v =>
      simp only [Target.rawNext_withPinned, hn']
      refine .after (.pin k) (.pin hn) (.bind (.pin (hnext k v rfl hn')) fun _ _ => ?_)
      exact .bind .release fun _ _ => .pure k
    | finished | unknownKey =>
      simp only [Target.rawNext_withPinned, hn']
      rw [hnone fun k v _ he => by cases hn'.symm.trans he]
      exact failAt_measures _

theorem follow_leaf_measures {descend : List Step → Inspect Live} {rest : List Step}
    (hs : s.shape = .leaf) (hn' : g.Reads g.none (n + 2) []) :
    Measures g limits t n (follow descend pool depth s rest) g.none := by
  cases s with
  | frameLocal frame slot =>
    apply Measures.target_bind
    split
    · exact found_measures hn _ _
    · exact failAt_measures _
  | frameFunction frame => exact .target_bind (found_measures hn _ _)
  | root r => exact .pin hn
  | kindMetatable kind =>
    simp only [follow]
    cases representative? kind with
    | none => exact failAt_measures _
    | some v =>
      refine (Measures.holding (.pin v) (.pin hn) (fun _ _ => rfl) fun v _ => ?_).congr
        (g.none_add _)
      exact .target_bind (found_measures hn' _ _)
  | index | indexObject | upvalue | metatable | userPayload => cases hs

end Room

theorem onBase_measures {expected : Expectation} {base : Inspect Live}
    {work : Live → Inspect Live} {r : Except Stop Live} (hr : Runs limits t n 1 base r)
    (howns : ∀ v, r = .ok v → t.Owns v) (hd : Measures g limits t n base d)
    (hnone : (∀ v, r = .ok v → Tree.checkKind t expected v ≠ .ok v) → d' = g.none)
    (hw : ∀ v, r = .ok v → Tree.checkKind t expected v = .ok v →
      Measures g limits t (n + 1) (work v) d') :
    Measures g limits t n (onBase s depth expected base work) (g.add d d') := by
  apply Measures.holding hr hd
  · rintro x rfl
    refine hnone fun v hv => ?_
    cases hv
  · rintro v rfl
    obtain ⟨kind, hk⟩ := howns v rfl
    apply Measures.after (.kindOf hk) (.kindOf v)
    by_cases ha : expected.accepts kind
    · simp only [ha, ↓reduceIte]
      exact hw v rfl (by simp [Tree.checkKind, hk, ha])
    · have hc : Tree.checkKind t expected v = .error (.wrongKind expected kind) := by
        simp [Tree.checkKind, hk, ha]
      simp only [ha, ↓reduceIte, Bool.false_eq_true]
      have hd' : d' = g.none := by
        refine hnone fun v' hv' he => ?_
        cases hv'
        cases hc.symm.trans he
      rw [hd']
      exact failAt_measures _

theorem node_measures_cons {room : Nat} {rest : List Step}
    (hroom : room + depth = limits.recursion)
    (hstep : ∀ room', room = room' + 1 → n + limits.reserve ≤ t.capacity →
      Measures g limits t n (follow (node pool room' (depth + 1)) pool depth s rest) d) :
    Measures g limits t n (node pool room depth (s :: rest))
      (match Visit.allow limits t.capacity ⟨depth, n⟩ with
      | .ok _ => g.add (g.entry depth) d
      | .error _ => g.none) := by
  rw [Visit.allow]
  cases room with
  | zero =>
    have hd : limits.recursion ≤ depth := by omega
    rw [if_pos hd]
    exact .limits_bind (failAt_measures _)
  | succ room =>
    have hd : ¬ limits.recursion ≤ depth := by omega
    have hroomy : Executes limits t n Inspect.roomy _ n := .roomy
    rw [if_neg hd, reservation]
    by_cases hlimit : Target.sizeLimit ≤ n + limits.reserve
    · rw [if_pos hlimit] at hroomy ⊢
      exact .stop hroomy .roomy
    · rw [if_neg hlimit] at hroomy ⊢
      apply Measures.after hroomy .roomy
      by_cases hcapacity : n + limits.reserve ≤ t.capacity
      · simp only [hcapacity, decide_true, ↓reduceIte]
        refine .seq (.emit _) (.entered s depth) ((hstep room rfl hcapacity).bind fun v _ => ?_)
        exact .bind (.kindOf v) fun _ _ => .bind (.emit fun _ _ => Event.noConfusion) fun _ _ =>
          .pure v
      · simp only [hcapacity, decide_false, ↓reduceIte, Bool.false_eq_true]
        exact .stop (failAt_executes _) (failAt_measures _)

end RemoteInspect.Inspect
