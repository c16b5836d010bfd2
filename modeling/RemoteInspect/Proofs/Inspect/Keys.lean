import RemoteInspect.Proofs.Handle.Words
import RemoteInspect.Proofs.Inspect.Agreement
import RemoteInspect.Proofs.Inspect.Height
import RemoteInspect.Proofs.Inspect.Rederivation
import RemoteInspect.Proofs.Target.Order

namespace RemoteInspect

open RemoteInspect.Tree (checkKind lookUp)
open RemoteInspect.Table (runAt runAt_le longestRun le_longestRun longestRun_tail_le)

namespace Inspect

variable {limits : Limits} {t : Target}

/-- Under these limits `b`, whose tree is `tb`, leads to the table `table`. -/
structure Lists (limits : Limits) (t : Target) (b : Handle) (tb : Tree Scalar) (table : Live) :
    Prop where
  sound : t.Sound
  denotes : b.Denotes tb
  resolves : tb.limited limits t 0 t.pinned = .ok table
  isTable : checkKind t .table table = .ok table

/-- `last` is given for the key `k`: its copy, or a handle that is higher than the base by the
number of keys in a row that are no copies, up to this one. -/
def KeyAt (t : Target) (b : Handle) (tb : Tree Scalar) (last : Value) (k : Live) (run : Nat) :
    Prop :=
  match last with
  | .scalar s => k = .scalar s ∧ run = 0
  | .handle h => h.pool.size ≤ run * b.pool.size + 1 ∧ ∃ id tk, k = .object id ∧ h.Denotes tk ∧
      tk.value t = .ok k ∧ tk.height = tb.height + run

/-- What `next` and `index` do with a key before they look it up. -/
def access (limits : Limits) (t : Target) (key : Meaning) : Except Stop Live := do
  let k ← key.limited limits t (t.pinned + 1)
  reservation limits t.capacity (t.pinned + 2)
  return k

def mostPinned (limits : Limits) (t : Target) : Nat := t.pinned + limits.recursion + 2

variable {b : Handle} {tb : Tree Scalar} {table k : Live} {last : Value} {m : Meaning}
  {run most : Nat}

namespace Lists

theorem value (hl : Lists limits t b tb table) : tb.value t = .ok table :=
  (Tree.limited_eq_ok_iff.mp hl.resolves).2

theorem height_le (hl : Lists limits t b tb table) : tb.height ≤ limits.recursion := by
  obtain ⟨h, -⟩ | ⟨-, h⟩ | ⟨e, h, -⟩ := @Tree.limited_of_value limits t t.pinned _ _ hl.value
  · exact h
  · cases hl.resolves.symm.trans h
  · cases hl.resolves.symm.trans h

theorem next_eq (hl : Lists limits t b tb table) :
    Answer.next t (.handle b) last ((Meaning.tree tb).limited limits t t.pinned)
        (m.limited limits t (t.pinned + 1)) (reservation limits t.capacity (t.pinned + 2)) =
      Answer.next t (.handle b) last (.ok table) (access limits t m) (.ok ()) := by
  have hbase : (Meaning.tree tb).limited limits t t.pinned = .ok table := hl.resolves
  simp only [Answer.next, Answer.baseHandle, hbase, hl.isTable, access, Except.ok_bind,
    Except.map_ok, Except.mapError_ok, bind_assoc, pure_bind]

theorem index_eq (hl : Lists limits t b tb table) {key : Value} (hkey : key ≠ .scalar .nil)
    (hrecord : record key k ≠ .constant .nil) (hv : m.value t = .ok k) :
    Answer.index t (.handle b) key ((Meaning.tree tb).limited limits t t.pinned)
        (m.limited limits t (t.pinned + 1)) (reservation limits t.capacity (t.pinned + 2)) = (do
      let k ← access limits t m
      let v ← (lookUp t .get table k).mapError Stop.failure
      Answer.published v ((record key k).lookup b .get)) := by
  have hbase : (Meaning.tree tb).limited limits t t.pinned = .ok table := hl.resolves
  simp only [Answer.index, hkey, ↓reduceIte, Answer.baseHandle, hbase, hl.isTable, access,
    Except.ok_bind, Except.map_ok, Except.mapError_ok, bind_assoc, pure_bind]
  cases hk : m.limited limits t (t.pinned + 1) with
  | error e => rfl
  | ok v =>
    have hideal : m.unlimited t = .ok v := (Meaning.limited_settles (Nat.le_refl _)).eq_of_ok hk
    rw [Meaning.unlimited, hv] at hideal
    cases hideal
    simp only [Except.ok_bind, hrecord, ↓reduceIte]

end Lists

namespace KeyAt

theorem exists_meaning (h : KeyAt t b tb last k run) :
    ∃ m, last.Denotes m ∧ m.value t = .ok k := by
  cases last with
  | scalar s => exact ⟨.scalar s, rfl, by rw [h.1]; rfl⟩
  | handle h' =>
    obtain ⟨-, id, tk, -, hdenotes, hvalue, -⟩ := h
    exact ⟨.tree tk, hdenotes, hvalue⟩

theorem names (h : KeyAt t b tb last k run) : last.Names t k := by
  obtain ⟨m, hm, hv⟩ := h.exists_meaning
  refine ⟨⟨m, hm, hv⟩, ?_⟩
  rintro h' rfl
  obtain ⟨-, id, -, hk, -⟩ := h
  exact ⟨id, hk⟩

theorem access_cases (h : KeyAt t b tb last k run) (hm : last.Denotes m)
    (hbase : tb.height ≤ limits.recursion) :
    tb.height + run ≤ limits.recursion ∧ access limits t m = .ok k ∨
    limits.recursion < tb.height + run ∧ access limits t m =
      .error (.failure (.exhausted (.recursionLimit limits.recursion))) ∨
    ∃ e, access limits t m = .error e ∧ e.NoRoom limits (mostPinned limits t) := by
  have hkey : tb.height + run ≤ limits.recursion ∧ m.limited limits t (t.pinned + 1) = .ok k ∨
      limits.recursion < tb.height + run ∧ m.limited limits t (t.pinned + 1) =
        .error (.failure (.exhausted (.recursionLimit limits.recursion))) ∨
      ∃ e, m.limited limits t (t.pinned + 1) = .error e ∧
        e.NoRoom limits (t.pinned + 1 + limits.recursion) := by
    cases last with
    | scalar s =>
      obtain ⟨rfl, rfl⟩ := h
      cases hm.eq (show (Value.scalar s).Denotes (.scalar s) from rfl)
      rw [Meaning.limited]
      cases hr : reservation limits t.capacity (t.pinned + 1) with
      | ok u => exact .inl ⟨hbase, rfl⟩
      | error e => exact .inr (.inr ⟨e, rfl, noRoom_of_reservation hr (Nat.le_add_right ..)⟩)
    | handle h' =>
      obtain ⟨-, id, tk, -, hdenotes, hvalue, hheight⟩ := h
      cases hm.eq (show (Value.handle h').Denotes (.tree tk) from hdenotes)
      rw [← hheight]
      exact Tree.limited_of_value hvalue
  obtain ⟨hle, hk⟩ | ⟨hlt, hk⟩ | ⟨e, hk, he⟩ := hkey <;> rw [access, hk]
  · rw [Except.ok_bind]
    cases hr : reservation limits t.capacity (t.pinned + 2) with
    | ok u => exact .inl ⟨hle, rfl⟩
    | error e =>
      refine .inr (.inr ⟨e, rfl, noRoom_of_reservation hr ?_⟩)
      exact Nat.add_le_add_right (Nat.le_add_right ..) 2
  · exact .inr (.inl ⟨hlt, rfl⟩)
  · refine .inr (.inr ⟨e, rfl, he.mono ?_⟩)
    rw [mostPinned]
    omega

theorem lookup_tooLarge (h : KeyAt t b tb last k run) {lookup : Lookup}
    (hk : lookup = .get → k ≠ .nil) (hrun : run ≤ most) {f : Fault}
    (hf : (record last k).lookup b lookup = .error f) : b.TooLarge most := by
  by_contra hlarge
  cases last with
  | scalar s =>
    obtain ⟨rfl, rfl⟩ := h
    obtain ⟨h', made⟩ := Handle.exists_constantLookup (b := b)
      (Handle.pool_lt_of_not_tooLarge hlarge hrun (Nat.le_add_left 1 _)) lookup s
    cases lookup with
    | next => cases hf.symm.trans made
    | get =>
      have hs : s ≠ .nil := fun he => hk rfl (by rw [he, Live.nil])
      have hindex : b.index s = .error f := hf
      rw [Handle.index, if_neg hs, made] at hindex
      cases hindex
  | handle h' =>
    obtain ⟨hpool, id, tk, rfl, hdenotes, -⟩ := h
    obtain ⟨h', made⟩ := Handle.exists_indexObject (b := b) hdenotes
      (Handle.pool_lt_of_not_tooLarge hlarge hrun hpool)
      (Nat.lt_of_not_le fun hpath => hlarge (.inl hpath)) lookup
    cases lookup <;> cases hf.symm.trans made

theorem next (h : KeyAt t b tb last k run) (hl : Lists limits t b tb table) {key : Key} {v : Live}
    {value : Value} (hn : t.rawNext table k = .entry key.live v)
    (hvalue : Answer.published key.live ((record last k).lookup b .next) = .ok value) :
    KeyAt t b tb value key.live (runAt run key) := by
  have hlookUp : lookUp t .next table k = .ok key.live := by rw [lookUp, hn]
  rw [runAt]
  cases hlive : key.live with
  | scalar s =>
    rw [hlive] at hvalue
    cases hvalue
    exact ⟨rfl, rfl⟩
  | object id =>
    rw [hlive] at hvalue hlookUp
    obtain ⟨h', made, rfl⟩ := Except.map_eq_ok_iff.mp (Except.mapError_eq_ok_iff.mp hvalue)
    cases last with
    | scalar s =>
      obtain ⟨rfl, rfl⟩ := h
      have made' : b.constantLookup .next s = .ok h' := made
      refine ⟨?_, id, _, rfl, hl.denotes.constantLookup made', ?_, Nat.add_comm ..⟩
      · simpa [Live.copy?] using Handle.pool_size_of_constantLookup made'
      · simp [Tree.value, hl.value, hl.isTable, hlookUp]
    | handle kh =>
      obtain ⟨hpool, id', tk, rfl, hdenotes, hv, hheight⟩ := h
      have made' : b.indexObject .next kh = .ok h' := made
      refine ⟨?_, id, _, rfl, hl.denotes.indexObject hdenotes made', ?_, ?_⟩
      · rw [Handle.pool_size_of_indexObject made', Live.copy?, Nat.succ_mul]
        omega
      · simp [Tree.value, hl.value, hl.isTable, hv, hlookUp]
      · simp only [Tree.height, hheight, Live.copy?]
        omega

end KeyAt

/-- A key and a value that are listed are those of an entry. Looking the key up gives the same
value, unless this is refused. -/
structure Listed (limits : Limits) (t : Target) (b : Handle) (item : Value × Value)
    (e : Key × Live) : Prop where
  key : item.1.Rederives t e.1.live
  value : item.2.Rederives t e.2
  index : Settles limits (mostPinned limits t) (.ok item.2)
    ((index (.handle b) item.1).outcome limits t).result

theorem KeyAt.index_settles (hl : Lists limits t b tb table) {key value : Value} {v : Live}
    (h : KeyAt t b tb key k run) (hk : k ≠ .nil) (hlookUp : lookUp t .get table k = .ok v)
    (hvalue : Answer.published v (Answer.entryHandle b key) = .ok value) :
    Settles limits (mostPinned limits t) (.ok value)
      ((index (.handle b) key).outcome limits t).result := by
  obtain ⟨m, hm, hv⟩ := h.exists_meaning
  have hkey : key ≠ .scalar .nil := by
    rintro rfl
    exact hk h.1
  have hrecord : record key k ≠ .constant .nil := by
    cases key with
    | scalar s => simpa [record] using hkey
    | handle h' =>
      obtain ⟨-, id, -, rfl, -⟩ := h
      simp [record, Live.copy?]
  have hruns : Runs limits t t.pinned 0 (index (.handle b) key) _ :=
    index_runs hl.sound (denotes_handle hl.denotes) hm
  rw [hruns.outcome, hl.index_eq hkey hrecord hv]
  obtain ⟨-, haccess⟩ | ⟨-, haccess⟩ | ⟨e, haccess, he⟩ := h.access_cases hm hl.height_le
  · refine .inl ?_
    rw [haccess, Except.ok_bind, hlookUp, ← hvalue, Answer.entryHandle_eq_lookup h.names]
    rfl
  · exact .inr (.inl ⟨_, by rw [haccess]; rfl⟩)
  · rw [haccess]
    obtain rfl | ⟨rfl, hsize⟩ := he
    · exact .inr (.inl ⟨_, rfl⟩)
    · exact .inr (.inr ⟨rfl, hsize⟩)

theorem KeyAt.listed (hl : Lists limits t b tb table) {e : Key × Live} {key value : Value}
    (h : KeyAt t b tb key e.1.live run) (hk : e.1.live ≠ .nil)
    (hlookUp : lookUp t .get table e.1.live = .ok e.2)
    (hvalue : Answer.published e.2 (Answer.entryHandle b key) = .ok value) :
    Listed limits t b (key, value) e where
  key := h.names.rederives hl.sound
  value := by
    refine Value.Names.rederives hl.sound (Answer.names_of_published (fun h' made => ?_) hvalue)
    rw [Answer.entryHandle_eq_lookup h.names] at made
    obtain ⟨tree, htree, heq⟩ :=
      Answer.lookup_record h.names.1 hl.denotes hl.value hl.isTable made
    exact ⟨tree, htree, heq.trans hlookUp⟩
  index := h.index_settles hl hk hlookUp hvalue

/-- What `next` gives after a key that is `run` keys up a stretch, where `rest` is left. -/
inductive Advances (limits : Limits) (t : Target) (b : Handle) (tb : Tree Scalar) (run most : Nat) :
    List (Key × Live) → Except Stop (Option (Value × Value)) → Prop
  | entry {e : Key × Live} {rest : List (Key × Live)} {key value : Value}
      (low : tb.height + run ≤ limits.recursion)
      (keyAt : KeyAt t b tb key e.1.live (runAt run e.1))
      (listed : Listed limits t b (key, value) e) :
      Advances limits t b tb run most (e :: rest) (.ok (some (key, value)))
  | finished (low : tb.height + run ≤ limits.recursion) :
      Advances limits t b tb run most [] (.ok none)
  | tooHigh {rest : List (Key × Live)} (high : limits.recursion < tb.height + run) :
      Advances limits t b tb run most rest
        (.error (.failure (.exhausted (.recursionLimit limits.recursion))))
  | noRoom {rest : List (Key × Live)} {e : Stop} (noRoom : e.NoRoom limits (mostPinned limits t)) :
      Advances limits t b tb run most rest (.error e)
  | tooLarge {rest : List (Key × Live)} {f : Fault} (large : b.TooLarge most) :
      Advances limits t b tb run most rest (.error (.fault f))

theorem next_advances (hl : Lists limits t b tb table) (h : KeyAt t b tb last k run)
    {rest : List (Key × Live)} (hn : t.rawNext table k = Table.first rest)
    (hmost : min (longestRun run (rest.map Prod.fst)) limits.recursion ≤ most) :
    ∃ r, Runs limits t t.pinned 0 (next (.handle b) (some last)) r ∧
      Advances limits t b tb run most rest r := by
  obtain ⟨m, hm, hv⟩ := h.exists_meaning
  have hruns : Runs limits t t.pinned 0 (next (.handle b) (some last)) _ :=
    next_runs hl.sound (denotes_handle hl.denotes) hm
  rw [Option.getD_some, hl.next_eq] at hruns
  refine ⟨_, hruns, ?_⟩
  obtain ⟨low, haccess⟩ | ⟨high, haccess⟩ | ⟨e, haccess, he⟩ := h.access_cases hm hl.height_le
  · simp only [Answer.next, Answer.baseHandle, hl.isTable, haccess, hn, Except.ok_bind,
      Except.map_ok, Except.mapError_ok]
    cases rest with
    | nil => exact .finished low
    | cons e rest =>
      obtain ⟨-, -, hpresent, hvalue, hget⟩ := hl.sound.rawNext hn
      have hlookUp : lookUp t .get table e.1.live = .ok e.2 := by simp [lookUp, hget, hvalue]
      have hrun : run ≤ most := by
        have := le_longestRun run ((e :: rest).map Prod.fst)
        omega
      have hrunAt : runAt run e.1 ≤ most := by
        have hlongest := longestRun_tail_le run e.1 (rest.map Prod.fst)
        have := le_longestRun (runAt run e.1) (rest.map Prod.fst)
        have := runAt_le run e.1
        have := tb.height_pos
        rw [List.map_cons] at hmost
        omega
      simp only [Table.first]
      cases hkey : Answer.published e.1.live ((record last k).lookup b .next) with
      | error e' =>
        obtain ⟨f, hf, rfl⟩ := Answer.published_eq_error hkey
        exact .tooLarge (h.lookup_tooLarge (by simp) hrun hf)
      | ok key =>
        have keyAt := h.next hl hn hkey
        rw [Except.ok_bind]
        cases hvalue : Answer.published e.2 (Answer.entryHandle b key) with
        | error e' =>
          obtain ⟨f, hf, rfl⟩ := Answer.published_eq_error hvalue
          rw [Answer.entryHandle_eq_lookup keyAt.names] at hf
          exact .tooLarge (keyAt.lookup_tooLarge (fun _ => hpresent) hrunAt hf)
        | ok value => exact .entry low keyAt (keyAt.listed hl hpresent hlookUp hvalue)
  · simp only [Answer.next, Answer.baseHandle, hl.isTable, haccess, Except.ok_bind,
      Except.map_ok, Except.mapError_ok, Except.error_bind]
    exact .tooHigh high
  · simp only [Answer.next, Answer.baseHandle, hl.isTable, haccess, Except.ok_bind,
      Except.map_ok, Except.mapError_ok, Except.error_bind]
    exact .noRoom he

end Inspect

end RemoteInspect
