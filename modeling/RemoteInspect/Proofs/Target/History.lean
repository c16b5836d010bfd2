import RemoteInspect.Proofs.Target.WellFormed

namespace RemoteInspect.Target

def Change.given : Change → List Live
  | .newTable | .newThread | .newNative _ | .popFrame | .setStatus _ | .setCapacity _ => []
  | .newClosure _ _ _ upvalues => upvalues.map Prod.snd
  | .newUserdata payload => payload.toList
  | .set table key value => [table, key, value]
  | .setGlobal _ value => [value]
  | .setUpvalue function _ value => [function, value]
  | .setMetatable value metatable => value :: metatable.toList
  | .pushFrame function locals => function :: locals.map Prod.snd
  | .setLocal _ _ value => [value]

variable {t u : Target}

theorem step_of_change {c : Change} (hc : ∀ v ∈ c.given, t.Owns v) (h : t.change c = .ok u) :
    Step t u := by
  have hbindings : ∀ bindings : List Binding, (∀ v ∈ bindings.map Prod.snd, t.Owns v) →
      ∀ b ∈ bindings, t.Owns b.2 := fun _ hv b hb => hv _ (List.mem_map_of_mem hb)
  cases c with
  | newTable => cases h; exact .newTable
  | newThread => cases h; exact .newThread
  | newNative address => cases h; exact .newNative address
  | newClosure source firstLine lastLine upvalues =>
    cases h
    exact .newClosure source firstLine lastLine upvalues (hbindings upvalues hc)
  | newUserdata payload =>
    cases h
    exact .newUserdata payload fun v hv => hc v (Option.mem_toList.mpr hv)
  | set table key value =>
    exact .set (hc key (by simp [Change.given])) (hc value (by simp [Change.given])) h
  | setGlobal name value => exact .setGlobal (hc value (by simp [Change.given])) h
  | setUpvalue function index value => exact .setUpvalue (hc value (by simp [Change.given])) h
  | setMetatable value metatable => exact .setMetatable h
  | pushFrame function locals =>
    obtain ⟨hfunction, hlocals⟩ := List.forall_mem_cons.mp hc
    exact .pushFrame hfunction (hbindings locals hlocals) h
  | popFrame => exact .popFrame h
  | setLocal level slot value => exact .setLocal (hc value (by simp [Change.given])) h
  | setStatus status => cases h; exact .setStatus status
  | setCapacity capacity => cases h; exact .setCapacity capacity

/-- What a change may do to the heap, with the object that it makes. -/
inductive Evolves (t : Target) : Option Live → Target → Prop
  | grown {u : Target} (o : Object) (heap : u.heap = t.heap.push o) :
      Evolves t (some (.object t.heap.size)) u
  | changed {u : Target} {id : ObjectId} {old o : Object} (allocated : t.heap[id]? = some old)
      (heap : u.heap = (t.replace id o).heap) (kind : o.kind = old.kind) : Evolves t none u
  | kept {u : Target} (heap : u.heap = t.heap) : Evolves t none u

theorem evolves_setUpvalue {function value : Live} {index : UInt32}
    (h : t.setUpvalue function index value = .ok u) : Evolves t none u := by
  cases function with
  | scalar s => cases h
  | object id =>
    rw [setUpvalue] at h
    split at h
    · cases h
    · rename_i code upvalues ho
      obtain ⟨upvalues', -, h⟩ := Except.bind_eq_ok_iff.mp h
      cases h
      exact .changed ho rfl rfl
    · cases h

theorem evolves_setMetatable {value : Live} {metatable : Option Live}
    (h : t.setMetatable value metatable = .ok u) : Evolves t none u := by
  obtain ⟨id?, -, h⟩ := Except.bind_eq_ok_iff.mp h
  cases value with
  | scalar s =>
    cases h
    exact .kept rfl
  | object id =>
    simp only at h
    split at h
    · cases h
    · rename_i ho
      cases h
      exact .changed ho rfl rfl
    · rename_i ho
      cases h
      exact .changed ho rfl rfl
    · cases h
      exact .kept rfl

theorem evolves_change {c : Change} (h : t.change c = .ok u) : Evolves t (t.made c) u := by
  have hset : ∀ {table key value}, t.set table key value = .ok u → Evolves t none u := by
    intro table key value h
    obtain ⟨id, contents, k, -, hid, -, rfl⟩ := set_eq_ok_iff.mp h
    exact .changed hid rfl rfl
  cases c with
  | newTable | newThread | newNative | newClosure | newUserdata =>
    cases h
    exact .grown _ rfl
  | set table key value => exact hset h
  | setGlobal name value =>
    rw [change, setGlobal] at h
    exact hset h
  | setUpvalue function index value => exact evolves_setUpvalue h
  | setMetatable value metatable => exact evolves_setMetatable h
  | pushFrame function locals =>
    cases function with
    | scalar s => cases h
    | object id =>
      cases h
      exact .kept rfl
  | popFrame =>
    rw [change, popFrame] at h
    split at h <;> cases h
    exact .kept rfl
  | setLocal level slot value =>
    rw [change, setLocal] at h
    split at h
    · cases h
    · obtain ⟨locals, -, h⟩ := Except.bind_eq_ok_iff.mp h
      cases h
      exact .kept rfl
  | setStatus | setCapacity =>
    cases h
    exact .kept rfl

theorem Extends.refl (t : Target) : t.Extends t := fun _ _ h => h

theorem Extends.trans {s : Target} (h : u.Extends t) (h' : t.Extends s) : u.Extends s :=
  fun v kind hk => h v kind (h' v kind hk)

theorem Evolves.extends {made : Option Live} (h : Evolves t made u) : u.Extends t := by
  cases h with
  | grown o heap => exact Extends.trans (.of_heap_eq heap) (extends_allocate t o)
  | changed allocated heap kind =>
    exact Extends.trans (.of_heap_eq heap) (extends_replace allocated kind)
  | kept heap => exact .of_heap_eq heap

theorem Evolves.made_eq {made : Option Live} (h : Evolves t made u) :
    t.heap.size ≤ u.heap.size ∧
      made.toList = (List.range' t.heap.size (u.heap.size - t.heap.size)).map .object := by
  cases h with
  | grown o heap => simp [heap]
  | changed allocated heap => simp [heap, replace]
  | kept heap => simp [heap]

/-- The target after a change, also after one that faults. -/
def after (t : Target) (c : Change) : Target := ((perform c).run t).2

def gained (t : Target) (c : Change) : Option Live := ((perform c).run t).1.toOption.join

theorem perform_cases (t : Target) (c : Change) :
    (∃ f, (perform c).run t = (.error f, t)) ∨
      ∃ u, t.change c = .ok u ∧ (perform c).run t = (.ok (t.made c), u) := by
  rw [run_perform, attempt]
  split
  · exact .inl ⟨_, rfl⟩
  · cases h : t.change c with
    | error f => exact .inl ⟨f, rfl⟩
    | ok u => exact .inr ⟨u, rfl, rfl⟩

theorem evolves_after (t : Target) (c : Change) : Evolves t (t.gained c) (t.after c) := by
  obtain ⟨f, h⟩ | ⟨u, hu, h⟩ := t.perform_cases c
  · rw [gained, after, h]
    exact .kept rfl
  · rw [gained, after, h]
    exact evolves_change hu

theorem Sound.after (ht : t.Sound) {c : Change} (hc : ∀ v ∈ c.given, t.Owns v) :
    (t.after c).Sound := by
  obtain ⟨f, h⟩ | ⟨u, hu, h⟩ := t.perform_cases c
  · rwa [Target.after, h]
  · rw [Target.after, h]
    exact ht.step (step_of_change hc hu)

def run (t : Target) : List Change → Target
  | [] => t
  | c :: rest => (t.after c).run rest

/-- Each change is given values that its target has at the time. -/
def Given (t : Target) : List Change → Prop
  | [] => True
  | c :: rest => (∀ v ∈ c.given, t.Owns v) ∧ (t.after c).Given rest

instance (t : Target) (v : Live) : Decidable (t.Owns v) :=
  decidable_of_iff ((t.kind? v).isSome = true) Option.isSome_iff_exists

instance decidableGiven : (t : Target) → (changes : List Change) → Decidable (t.Given changes)
  | _, [] => isTrue trivial
  | t, c :: rest => @instDecidableAnd _ _ _ (decidableGiven (t.after c) rest)

def gains (t : Target) : List Change → List Live
  | [] => []
  | c :: rest => (t.gained c).toList ++ (t.after c).gains rest

theorem run_append (t : Target) (first second : List Change) :
    t.run (first ++ second) = (t.run first).run second := by
  induction first generalizing t with
  | nil => rfl
  | cons c rest ih => exact ih (t.after c)

theorem Given.of_append {first second : List Change} (h : t.Given (first ++ second)) :
    t.Given first := by
  induction first generalizing t with
  | nil => trivial
  | cons c rest ih => exact ⟨h.1, ih h.2⟩

theorem extends_run (t : Target) (changes : List Change) : (t.run changes).Extends t := by
  induction changes generalizing t with
  | nil => exact .refl t
  | cons c rest ih => exact (ih (t.after c)).trans (t.evolves_after c).extends

theorem Sound.run (ht : t.Sound) {changes : List Change} (hc : t.Given changes) :
    (t.run changes).Sound := by
  induction changes generalizing t with
  | nil => exact ht
  | cons c rest ih => exact ih (ht.after hc.1) hc.2

theorem gains_eq (t : Target) (changes : List Change) :
    t.heap.size ≤ (t.run changes).heap.size ∧
      t.gains changes =
        (List.range' t.heap.size ((t.run changes).heap.size - t.heap.size)).map .object := by
  induction changes generalizing t with
  | nil => simp [gains, run]
  | cons c rest ih =>
    obtain ⟨hstep, hmade⟩ := (t.evolves_after c).made_eq
    obtain ⟨hrest, hgains⟩ := ih (t.after c)
    refine ⟨Nat.le_trans hstep hrest, ?_⟩
    obtain ⟨n, hn⟩ := Nat.exists_eq_add_of_le hstep
    obtain ⟨m, hm⟩ := Nat.exists_eq_add_of_le hrest
    rw [gains, run, hmade, hgains, ← List.map_append, hm, Nat.add_sub_cancel_left, hn,
      Nat.add_sub_cancel_left, List.range'_append_1, Nat.add_assoc, Nat.add_sub_cancel_left]

/-- From the start, nothing that is stored dangles, whatever is built and changed. No object is
made in the place of another or becomes another kind of object, and each has an address of its own.
What faults does nothing. -/
theorem run_wellFormed (capacity : Nat) (changes : List Change)
    (given : ({ initial with capacity } : Target).Given changes) :
    let start : Target := { initial with capacity }
    (∀ first second, changes = first ++ second →
      (start.run first).WellFormed ∧ (start.run changes).Extends (start.run first)) ∧
    (∃ n, (start.run changes).heap.size = start.heap.size + n ∧
      start.gains changes = (List.range' start.heap.size n).map .object) ∧
    Function.Injective ObjectId.address ∧
    ∀ (t : Target) (c : Change) (f : Fault), ((perform c).run t).1 = .error f →
      ((perform c).run t).2 = t := by
  intro start
  refine ⟨?_, ?_, ?_, ?_⟩
  · rintro first second rfl
    refine ⟨(Sound.run (sound_initial capacity) given.of_append).wellFormed, ?_⟩
    rw [run_append]
    exact extends_run _ second
  · obtain ⟨hle, hgains⟩ := start.gains_eq changes
    exact ⟨_, (Nat.add_sub_of_le hle).symm, hgains⟩
  · intro i j h
    exact Nat.eq_of_mul_eq_mul_left (by decide) (Nat.add_left_cancel h)
  · intro t c f hf
    obtain ⟨f', h⟩ | ⟨u, -, h⟩ := t.perform_cases c
    · rw [h]
    · rw [h] at hf
      cases hf

/-- A return with no call and a nil key fault in the middle. -/
def eventful : List Change :=
  [.newTable, .newUserdata (some (.object 3)), .popFrame,
    .newClosure "f" 1 2 [("captured", .object 4)], .setGlobal "k" (.object 3),
    .set (.object 3) (.object 4) (.object 5),
    .setMetatable (.scalar (.integer 7)) (some (.object 3)),
    .pushFrame (.object 5) [("x", .object 4)], .set (.object 3) .nil (.object 4),
    .setLocal 0 1 (.object 5)]

theorem run_wellFormed_eventful :
    ({ initial with capacity := 9 } : Target).Given eventful ∧
    (({ initial with capacity := 9 } : Target).run eventful).WellFormed ∧
    ({ initial with capacity := 9 } : Target).gains eventful = [.object 3, .object 4, .object 5] ∧
    ((perform .popFrame).run initial).2 = initial := by
  have hgiven : ({ initial with capacity := 9 } : Target).Given eventful := by
    decide
  obtain ⟨hstates, -, -, hfault⟩ := run_wellFormed 9 eventful hgiven
  refine ⟨hgiven, (hstates eventful [] (List.append_nil _).symm).1, ?_,
    hfault initial .popFrame .emptyCallStack rfl⟩
  rfl

end RemoteInspect.Target
