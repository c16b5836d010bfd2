import RemoteInspect.Proofs.Handle.Levels
import RemoteInspect.Proofs.Inspect.Refinement
import RemoteInspect.Proofs.Target.History

namespace RemoteInspect

open RemoteInspect.Tree (checkKind lookUp ofOption)

def Missing.relevel (move : UInt16 → UInt16) : Missing → Missing
  | frame n => frame (move n)
  | frameLocal n slot => frameLocal (move n) slot
  | what => what

def Failure.relevel (move : UInt16 → UInt16) : Failure → Failure
  | notFound what => notFound (what.relevel move)
  | f => f

def Stop.relevel (move : UInt16 → UInt16) : Stop → Stop
  | failure f => failure (f.relevel move)
  | fault f => fault f

theorem Stop.relevel_id (e : Stop) : e.relevel id = e := by
  cases e with
  | fault f => rfl
  | failure f =>
    cases f with
    | notFound what => cases what <;> rfl
    | wrongKind | unsupported | exhausted => rfl

namespace Target

def withFrames (t : Target) (frames : List Frame) : Target := { t with frames }

variable {t u : Target}

theorem frame?_push (t : Target) (f : Frame) {level : UInt16} (h : level.toNat < 65535) :
    (t.withFrames (f :: t.frames)).frame? (level + 1) = t.frame? level := by
  have hnext : (level + 1).toNat = level.toNat + 1 := by
    rw [UInt16.toNat_add, UInt16.toNat_one]
    omega
  rw [frame?, hnext]
  rfl

def Change.OnFrames : Change → Prop
  | .pushFrame .. | .popFrame | .setLocal .. => True
  | _ => False

theorem exists_withFrames {c : Change} (hc : c.OnFrames) (h : t.change c = .ok u) :
    ∃ frames, u = t.withFrames frames := by
  cases c with
  | pushFrame function locals =>
    cases function with
    | scalar s => cases h
    | object id => cases h; exact ⟨_, rfl⟩
  | popFrame =>
    rw [change, popFrame] at h
    split at h <;> cases h
    exact ⟨_, rfl⟩
  | setLocal level slot value =>
    rw [change, setLocal] at h
    split at h
    · cases h
    · obtain ⟨locals, -, h⟩ := Except.bind_eq_ok_iff.mp h
      cases h
      exact ⟨_, rfl⟩
  | _ => cases hc

end Target

namespace Tree

variable {t : Target} {frames : List Frame} {move : UInt16 → UInt16}

theorem ofOption_relevel (what : Missing) (v? : Option Live) :
    (ofOption what v?).mapError (Failure.relevel move) = ofOption (what.relevel move) v? := by
  cases v? <;> rfl

theorem checkKind_relevel (expected : Expectation) (v : Live) :
    (checkKind t expected v).mapError (Failure.relevel move) = checkKind t expected v := by
  cases h : checkKind t expected v with
  | ok v' => rfl
  | error f =>
    obtain ⟨kind, rfl⟩ := checkKind_error h
    rfl

theorem lookUp_relevel (lookup : Lookup) (table key : Live) :
    (lookUp t lookup table key).mapError (Failure.relevel move) = lookUp t lookup table key := by
  cases h : lookUp t lookup table key with
  | ok v => rfl
  | error f => obtain rfl | rfl := lookUp_error h <;> rfl

theorem value_relevel {tree : Tree Scalar}
    (h : ∀ frame ∈ tree.frames, (t.withFrames frames).frame? (move frame) = t.frame? frame) :
    (tree.relevel move).value (t.withFrames frames) =
      (tree.value t).mapError (Failure.relevel move) := by
  -- By induction on the tree: only the steps that name a frame see the frames, and what they do
  -- depends on the frame that is found at their level.
  have hcheck : ∀ expected v, checkKind (t.withFrames frames) expected v =
      (checkKind t expected v).mapError (Failure.relevel move) :=
    fun expected v => (checkKind_relevel expected v).symm
  have hlookUp : ∀ lookup table key, lookUp (t.withFrames frames) lookup table key =
      (lookUp t lookup table key).mapError (Failure.relevel move) :=
    fun lookup table key => (lookUp_relevel lookup table key).symm
  induction tree with
  | frameLocal frame slot =>
    have hframe := h frame List.mem_cons_self
    have hhas : (t.withFrames frames).hasFrame (move frame) = t.hasFrame frame :=
      congrArg Option.isSome hframe
    have hlocal : (t.withFrames frames).frameLocal? (move frame) slot = t.frameLocal? frame slot :=
      congrArg (Option.bind · _) hframe
    simp only [relevel, value, hhas, hlocal]
    split
    · exact (ofOption_relevel (.frameLocal frame slot) _).symm
    · rfl
  | frameFunction frame =>
    have hfunction : (t.withFrames frames).frameFunction? (move frame) = t.frameFunction? frame :=
      congrArg (Option.map _) (h frame List.mem_cons_self)
    simp only [relevel, value, hfunction]
    exact (ofOption_relevel (.frame frame) _).symm
  | root r => rfl
  | kindMetatable kind =>
    simp only [relevel, value]
    split
    · rfl
    · exact (ofOption_relevel .metatable _).symm
  | index lookup base key ih =>
    simp only [relevel, value, ih h, hcheck, hlookUp, Except.mapError_bind]
  | indexObject lookup base key ihb ihk =>
    rw [Tree.frames, List.forall_mem_append] at h
    simp only [relevel, value, ihb h.1, ihk h.2, hcheck, hlookUp, Except.mapError_bind]
  | upvalue base n ih =>
    simp only [relevel, value, ih h, hcheck, Except.mapError_bind, ofOption_relevel]
    rfl
  | metatable base ih =>
    simp only [relevel, value, ih h, hcheck, Except.mapError_bind, ofOption_relevel]
    rfl
  | userPayload base ih =>
    simp only [relevel, value, ih h, hcheck, Except.mapError_bind, ofOption_relevel]
    rfl

theorem visits_relevel {tree : Tree Scalar}
    (h : ∀ frame ∈ tree.frames, (t.withFrames frames).frame? (move frame) = t.frame? frame)
    (depth n : Nat) :
    (tree.relevel move).visits (t.withFrames frames) depth n = tree.visits t depth n := by
  induction tree generalizing depth n with
  | frameLocal | frameFunction | root | kindMetatable => rfl
  | index _ base _ ih | upvalue base _ ih | metatable base ih | userPayload base ih =>
    rw [relevel, visits, visits, ih h]
  | indexObject lookup base key ihb ihk =>
    rw [Tree.frames, List.forall_mem_append] at h
    rw [relevel, visits, visits, ihb h.1, ihk h.2, value_relevel h.1]
    cases hb : base.value t with
    | error f => rfl
    | ok v => rfl

theorem allow_relevel (limits : Limits) (capacity : Nat) (xs : List Visit) :
    (forM xs (Visit.allow limits capacity)).mapError (Stop.relevel move) =
      forM xs (Visit.allow limits capacity) := by
  cases h : forM xs (Visit.allow limits capacity) with
  | ok u => rfl
  | error e =>
    obtain ⟨_, x, _, _, _, hx⟩ := Except.forM_eq_error_iff.mp h
    cases e with
    | fault f => rfl
    | failure f =>
      obtain ⟨what, rfl⟩ := Visit.allow_failure hx
      rfl

theorem limited_relevel {tree : Tree Scalar}
    (h : ∀ frame ∈ tree.frames, (t.withFrames frames).frame? (move frame) = t.frame? frame)
    (limits : Limits) (depth n : Nat) :
    (tree.relevel move).limited limits (t.withFrames frames) depth n =
      (tree.limited limits t depth n).mapError (Stop.relevel move) := by
  rw [limited, limited, Except.mapError_bind, allow_relevel, visits_relevel h, value_relevel h]
  cases tree.value t <;> rfl

theorem frames_lt_of_value {tree : Tree Scalar} {v : Live} (h : tree.value t = .ok v) :
    ∀ frame ∈ tree.frames, frame.toNat < t.frames.length := by
  have hpresent : ∀ {frame : UInt16} {f : Frame}, t.frame? frame = some f →
      frame.toNat < t.frames.length :=
    fun hf => (List.getElem?_eq_some_iff.mp hf).1
  induction tree generalizing v with
  | frameLocal frame slot =>
    refine List.forall_mem_singleton.mpr ?_
    by_cases hframe : t.hasFrame frame
    · obtain ⟨f, hf⟩ := Option.isSome_iff_exists.mp hframe
      exact hpresent hf
    · simp [value, hframe] at h
  | frameFunction frame =>
    refine List.forall_mem_singleton.mpr ?_
    simp only [value, Target.frameFunction?] at h
    cases hf : t.frame? frame with
    | none => rw [hf] at h; cases h
    | some f => exact hpresent hf
  | root | kindMetatable => exact fun _ hm => absurd hm List.not_mem_nil
  | index _ base _ ih | upvalue base _ ih | metatable base ih | userPayload base ih =>
    obtain ⟨v', hv, -⟩ := Except.bind_eq_ok_iff.mp h
    exact ih hv
  | indexObject lookup base key ihb ihk =>
    simp only [value, Except.bind_eq_ok_iff] at h
    obtain ⟨v', hv, table, -, k, hk, -⟩ := h
    exact List.forall_mem_append.mpr ⟨ihb hv, ihk hk⟩

end Tree

namespace Inspect

variable {t : Target} {h : Handle} {tree : Tree Scalar} {limits : Limits} {frames : List Frame}
  {move : UInt16 → UInt16}

theorem evaluate_relevel (ht : t.Sound) (hu : (t.withFrames frames).Sound) (hh : h.Denotes tree)
    (hframes : ∀ frame ∈ h.frames, (t.withFrames frames).frame? (move frame) = t.frame? frame) :
    ((evaluate (h.relevel move)).outcome limits (t.withFrames frames)).result =
      ((evaluate h).outcome limits t).result.mapError (Stop.relevel move) := by
  have hbefore : Runs limits t t.pinned 1 (evaluate h) _ := evaluate_runs ht hh t.pinned
  have hafter : Runs limits (t.withFrames frames) t.pinned 1 (evaluate (h.relevel move)) _ :=
    evaluate_runs hu (hh.relevel move) t.pinned
  rw [hh.frames] at hframes
  rw [hbefore.outcome, hafter.outcome, Tree.limited_relevel hframes]

theorem evaluate_withFrames (ht : t.Sound) (hu : (t.withFrames frames).Sound) (hh : h.Denotes tree)
    (hframes : h.frames = []) :
    ((evaluate h).outcome limits (t.withFrames frames)).result =
      ((evaluate h).outcome limits t).result := by
  have hsame : ((evaluate (h.relevel id)).outcome limits (t.withFrames frames)).result =
      ((evaluate h).outcome limits t).result.mapError (Stop.relevel id) :=
    evaluate_relevel ht hu hh (by simp [hframes])
  rw [Handle.relevel_eq_self hframes] at hsame
  rw [hsame]
  cases ((evaluate h).outcome limits t).result with
  | ok v => rfl
  | error e => rw [Except.mapError_error, Stop.relevel_id]

/-- When a frame is entered, all levels move up by one: with its own levels moved too, in bases and
in keys, a handle gives what it gave before, or fails as it did, with the level moved that the
failure names. When the frame is left again the target is as it was. A handle without levels gives
the same whatever happens to the frames, and a handle gives a value only if all its frames are
there. -/
theorem evaluate_levels (hh : h.Built) (ht : t.Reachable) (limits : Limits) :
    let answer := fun (h : Handle) (t : Target) => ((evaluate h).outcome limits t).result
    (∀ (id : ObjectId) (locals : List Binding), t.Owns (.object id) → (∀ b ∈ locals, t.Owns b.2) →
      ∃ u, t.pushFrame (.object id) locals = .ok u ∧ u.popFrame = .ok t ∧
        ((∀ frame ∈ h.frames, frame.toNat < 65535) → (h.relevel (· + 1)).Built ∧
          answer (h.relevel (· + 1)) u = (answer h t).mapError (Stop.relevel (· + 1)))) ∧
    (h.frames = [] → ∀ (c : Target.Change) u, c.OnFrames → (∀ v ∈ c.given, t.Owns v) →
      t.change c = .ok u → answer h u = answer h t) ∧
    ∀ v, answer h t = .ok v → ∀ frame ∈ h.frames, frame.toNat < t.frames.length := by
  intro answer
  obtain ⟨tree, htree⟩ := hh.denotes
  have hs := ht.sound
  refine ⟨fun id locals hid hlocals => ?_, fun hframes c u hc hgiven hu => ?_, fun v hv => ?_⟩
  · have hpush : t.pushFrame (.object id) locals =
      .ok (t.withFrames (⟨id, locals⟩ :: t.frames)) := rfl
    refine ⟨_, hpush, rfl, fun hlevels => ⟨hh.relevel _, ?_⟩⟩
    exact evaluate_relevel hs (hs.pushFrame hid hlocals hpush) htree
      fun frame hm => t.frame?_push _ (hlevels frame hm)
  · obtain ⟨frames, rfl⟩ := Target.exists_withFrames hc hu
    exact evaluate_withFrames hs (hs.step (Target.step_of_change hgiven hu)) htree hframes
  · have hruns : Runs limits t t.pinned 1 (evaluate h) _ := evaluate_runs hs htree t.pinned
    obtain ⟨-, hvalue⟩ := Tree.limited_eq_ok_iff.mp (hruns.outcome.symm.trans hv)
    rw [htree.frames]
    exact Tree.frames_lt_of_value hvalue

/-- The key of a lookup is a local of the innermost frame, and then of the one around it. The local
after it is not found in either. -/
theorem evaluate_levels_linked :
    let frame : Frame := ⟨2, [("o", .object 4)]⟩
    let t : Target := Target.linked.withFrames [frame]
    let u : Target := Target.linked.withFrames [⟨3, []⟩, frame]
    let keyed (level : UInt16) (slot : UInt32) : Handle :=
      ⟨⟨[.indexObject .get 2, .index .get 1, .root .globals, .frameLocal level slot]⟩,
        ⟨[.string [107]]⟩⟩
    t.Reachable ∧ t.pushFrame (.object 3) [] = .ok u ∧
      ((evaluate (keyed 0 1)).outcome .standard t).result = .ok (.object 3) ∧
      ((evaluate (keyed 1 1)).outcome .standard u).result = .ok (.object 3) ∧
      ((evaluate (keyed 0 2)).outcome .standard t).result =
        .error (.failure (.notFound (.frameLocal 0 2))) ∧
      ((evaluate (keyed 1 2)).outcome .standard u).result =
        .error (.failure (.notFound (.frameLocal 1 2))) := by
  intro frame t u keyed
  have ht : t.Reachable := .step Target.reachable_linked
    (@Target.Step.pushFrame _ (.object 2) frame.locals _ ⟨.thread, rfl⟩
      (List.forall_mem_singleton.mpr ⟨.userdata, rfl⟩) rfl)
  have htable : Handle.Built ⟨⟨[.index .get 1, .root .globals]⟩, ⟨[.string [107]]⟩⟩ :=
    @Handle.Built.index _ _ (.string [107]) (.root .globals) rfl
  have hkeyed : ∀ slot, (keyed 0 slot).Built := fun slot =>
    @Handle.Built.indexObject _ _ _ .get htable (.frameLocal 0 slot) rfl
  have hmoved : ∀ slot, ((evaluate (keyed 1 slot)).outcome .standard u).result =
      ((evaluate (keyed 0 slot)).outcome .standard t).result.mapError (Stop.relevel (· + 1)) := by
    intro slot
    obtain ⟨hpush, -⟩ := evaluate_levels (hkeyed slot) ht .standard
    obtain ⟨u', hu', -, hlevels⟩ := hpush 3 [] ⟨.table, rfl⟩ (by simp)
    cases hu'
    refine (hlevels fun frame hframe => ?_).2
    rw [List.mem_singleton.mp hframe]
    decide
  have hfound : ((evaluate (keyed 0 1)).outcome .standard t).result = .ok (.object 3) := rfl
  have hmissing : ((evaluate (keyed 0 2)).outcome .standard t).result =
    .error (.failure (.notFound (.frameLocal 0 2))) := rfl
  refine ⟨ht, rfl, hfound, ?_, hmissing, ?_⟩
  · rw [hmoved, hfound]
    rfl
  · rw [hmoved, hmissing]
    rfl

end Inspect

end RemoteInspect
