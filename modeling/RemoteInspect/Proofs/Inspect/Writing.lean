import RemoteInspect.Proofs.Inspect.Iteration
import RemoteInspect.Proofs.Target.KeyOrder

namespace RemoteInspect

open RemoteInspect.Tree (checkKind lookUp)

namespace Inspect

variable {limits : Limits} {t : Target} {b : Handle} {table : Live} {contents : Table}

/-- What looking an entry up through `b` gives where its value is `v`. Only an object takes a
handle, and with it one more scalar in the pool. -/
inductive Shows (t : Target) (b : Handle) : Live → Except Stop Value → Prop
  | absent : Shows t b .nil (.error (.failure (.notFound .key)))
  | copied {s : Scalar} (present : s ≠ .nil) : Shows t b (.scalar s) (.ok (.scalar s))
  | referred {id : ObjectId} {h : Handle} (refers : h.Refers t (.object id)) :
      Shows t b (.object id) (.ok (.handle h))
  | tooLarge {id : ObjectId} (pool : Handle.wordLimit ≤ b.pool.size + 1) :
      Shows t b (.object id) (.error (.fault .poolTooLarge))

theorem fault_of_constant_lookup {s : Scalar} (hs : s ≠ .nil) {f : Fault}
    (h : b.index s = .error f) : f = .poolTooLarge ∧ Handle.wordLimit ≤ b.pool.size + 1 := by
  rw [Handle.index, if_neg hs] at h
  refine ⟨Handle.fault_of_constantLookup h, Nat.le_of_not_lt fun hlt => ?_⟩
  obtain ⟨h', made⟩ := Handle.exists_constantLookup hlt .get s
  cases made.symm.trans h

theorem index_shows (ht : t.Sound) (hb : (Value.handle b).Resolves t table)
    (hc : t.table? table = some contents) {s : Scalar} (hs : s ≠ .nil) (limits : Limits) :
    let r := ((index (.handle b) (.scalar s)).outcome limits t).result
    Shows t b (t.rawGet table (.scalar s)) r ∨ Refused limits (t.pinned + b.path.size + 2) r := by
  intro r
  obtain ⟨tb, htb, hvalue⟩ := Value.resolves_handle_iff.mp hb
  have hbase : (Value.handle b).Denotes (.tree tb) := htb
  have hkey : (Value.scalar s).Denotes (.scalar s) := rfl
  have hsize : t.pinned + (Meaning.tree tb).size + (Meaning.scalar s).size + 2 ≤
      t.pinned + b.path.size + 2 := by
    simp [Meaning.size, htb.size]
  have hsettles : Settles limits (t.pinned + b.path.size + 2)
      (Answer.index t (.handle b) (.scalar s) ((Meaning.tree tb).unlimited t)
        ((Meaning.scalar s).unlimited t) (.ok ())) r :=
    index_settles ht hbase hkey hsize
  refine hsettles.imp_left fun hr => ?_
  have hanswer : r = (do
      let v ← (lookUp t .get table (.scalar s)).mapError Stop.failure
      Answer.published v (b.index s)) := by
    simp [hr, Answer.index, hs, Meaning.unlimited, Meaning.value, hvalue, Answer.baseHandle,
      Tree.checkKind_table hc, record, Recorded.lookup]
  cases hget : t.rawGet table (.scalar s) with
  | scalar s' =>
    by_cases hnil : s' = .nil
    · subst hnil
      have hr' : r = .error (.failure (.notFound .key)) := by simp [hanswer, lookUp, hget, Live.nil]
      rw [hr']
      exact .absent
    · have hr' : r = .ok (.scalar s') := by
        simp [hanswer, lookUp, hget, Live.nil, hnil, Answer.published, Live.copy?]
      rw [hr']
      exact .copied hnil
  | object id =>
    have hr' : r = ((b.index s).map Value.handle).mapError Stop.fault := by
      simp [hanswer, lookUp, hget, Live.nil, Answer.published, Live.copy?]
    cases hmade : b.index s with
    | error f =>
      obtain ⟨rfl, hpool⟩ := fault_of_constant_lookup hs hmade
      rw [hr', hmade]
      exact .tooLarge hpool
    | ok h =>
      have hok : r = .ok (.handle h) := by rw [hr', hmade]; rfl
      obtain ⟨table', k, htable, hk, hnames⟩ := Answer.index_names hbase hkey (hr.symm.trans hok)
      cases hk
      cases hvalue.symm.trans htable
      rw [hok]
      exact .referred (hget ▸ (hnames.rederives ht).2)

/-- `keys` are those of a table in the order in which they are given, by the target itself and on a
listing through any handle of the table. What is listed before a limit stops it is a first part. -/
structure KeyOrder (t : Target) (table : Live) (keys : List Live) : Prop where
  reports : t.Reports table .nil keys
  lists : ∀ (b : Handle) (limits : Limits) (count : Nat) (listed : List (Value × Value))
    (ending : Ending), b.Built → ((evaluate b).outcome limits t).result = .ok table →
    keys.length < count →
    ((entries (.handle b) count).outcome limits t).result = .ok (listed, ending) →
    ending ≠ .failed (.exhausted .workingArea) →
    List.Forall₂ (fun item k => item.1.Rederives t k) listed (keys.take listed.length) ∧
      (ending = .finished → listed.length = keys.length)

theorem keyOrder (ht : t.Sound) (hc : t.table? table = some contents) :
    KeyOrder t table contents.order where
  reports := Target.reports_order hc (ht.table hc).normal
  lists b limits count listed ending hb hv hcount hr hroom := by
    obtain ⟨tb, htb⟩ := hb.denotes
    have hlength : contents.order.length = contents.entries.length := List.length_map _
    have hlisted := entries_listed ht htb hv hc (hlength ▸ hcount)
    simp only [hr] at hlisted
    obtain (⟨crowded, he⟩ | ⟨f, he, -⟩) | ⟨listed', ending', he, hitems, hends⟩ := hlisted
    · cases he
      exact absurd rfl hroom
    · cases he
    · cases he
      refine ⟨?_, fun hending => ?_⟩
      · rw [Table.order, ← List.map_take, List.forall₂_map_right_iff]
        exact hitems.imp fun _ _ h => h.key
      · rw [hends.length_of_finished hending, hlength, List.length_map]

/-- What has been set is what is found at its slot, however the key is given. All other entries stay
as they were, and so does the order of their keys. -/
theorem set_inspected (ht : t.Reachable) (hc : t.table? table = some contents) {key value : Live}
    (hkey : t.Owns key) (hvalue : t.Owns value) (hnil : key ≠ .nil)
    (hnan : ∀ x, key = .scalar (.float x) → x.isNaN = false) :
    ∃ u, t.set table key value = .ok u ∧
      (∀ b, (Value.handle b).Resolves u table → ∀ s : Scalar, s ≠ .nil → ∀ limits,
        let r := ((index (.handle b) (.scalar s)).outcome limits u).result
        (key.SameSlot (.scalar s) → Shows u b value r) ∧
            (¬ key.SameSlot (.scalar s) → Shows u b (t.rawGet table (.scalar s)) r) ∨
          Refused limits (u.pinned + b.path.size + 2) r) ∧
      ∃ keys keys', KeyOrder t table keys ∧ KeyOrder u table keys' ∧
        Reordered key value keys keys' := by
  obtain ⟨k, hk⟩ := Key.exists_ofLive?_iff.mpr ⟨hnil, hnan⟩
  obtain ⟨u, hset, hu⟩ := Target.exists_set hc hk value
  have hsound : u.Sound := ht.sound.set hkey hvalue hset
  refine ⟨u, hset, ?_, contents.order, (contents.set k value).order, keyOrder ht.sound hc,
    keyOrder hsound hu, (ht.sound.table hc).normal.reordered hk value⟩
  intro b hb s hs limits r
  refine (index_shows hsound hb hu hs limits).imp_left fun hshows => ?_
  rw [Target.rawGet_set hc hu] at hshows
  have hslot : key.SameSlot (.scalar s) ↔ Key.ofLive? (.scalar s) = some k := by
    rw [Live.sameSlot_iff, hk]
    simp [eq_comm]
  rw [hslot]
  constructor
  · intro hsame
    rwa [if_pos hsame] at hshows
  · intro hother
    rwa [if_neg hother] at hshows

/-- The key 1 is set as a float, and is found as an integer. It stays the first one. -/
theorem set_inspected_linked :
    let b : Handle := ⟨⟨[.index .get 1, .root .globals]⟩, ⟨[.string [107]]⟩⟩
    let one : Live := .scalar (.float ⟨0x3FF0000000000000⟩)
    ∃ u, Target.linked.set (.object 3) one (.scalar (.boolean true)) = .ok u ∧
      Shows u b (.scalar (.boolean true))
        ((index (.handle b) (.scalar (.integer 1))).outcome .standard u).result ∧
      ∃ keys keys', KeyOrder Target.linked (.object 3) keys ∧ KeyOrder u (.object 3) keys' ∧
        Reordered one (.scalar (.boolean true)) keys keys' := by
  intro b one
  let contents : Table := ⟨[(.integer 1, .object 4), (.object 4, .object 3)], none⟩
  have hc : Target.linked.table? (.object 3) = some contents := rfl
  have hone : Key.ofLive? one = some (.integer 1) := rfl
  obtain ⟨hnil, hnan⟩ := Key.exists_ofLive?_iff.mp ⟨_, hone⟩
  obtain ⟨u, hset, hindex, horder⟩ := set_inspected Target.reachable_linked hc
    (Target.owns_scalar _ _) (Target.owns_scalar _ (.boolean true)) hnil hnan
  have hsound : u.Sound := Target.reachable_linked.sound.set (Target.owns_scalar _ _)
    (Target.owns_scalar _ _) hset
  refine ⟨u, hset, ?_, horder⟩
  cases hset
  have hb : b.Built := @Handle.Built.index _ _ (.string [107]) (.root .globals) rfl
  obtain ⟨tb, htb⟩ := hb.denotes
  have hlists := @lists_of_evaluate .standard _ b tb (.object 3) hsound htb rfl _ rfl
  have hresolves := Value.resolves_handle_iff.mpr ⟨tb, htb, hlists.value⟩
  have hsame : one.SameSlot (.scalar (.integer 1)) := Live.sameSlot_iff.mpr ⟨_, hone, rfl⟩
  obtain ⟨hshows, -⟩ | hrefused := hindex b hresolves (.integer 1) (by decide) .standard
  · exact hshows hsame
  · exact absurd rfl (hrefused.ne_ok (.scalar (.boolean true)))

/-- The table is found with all the room that there is. One more value is pinned then, and its word
does not hold the sum. -/
theorem index_overflows_pinned :
    let t : Target := { Target.initial with capacity := UInt64.size - 1 }
    let k : Live := .scalar (.string [107])
    let globals : Handle := .root .globals
    let limits : Limits := ⟨200, UInt64.size - 1⟩
    t.Reachable ∧ ∃ u, t.set (Target.root .globals) k (.scalar (.integer 1)) = .ok u ∧
      ((evaluate globals).outcome limits u).result = .ok (Target.root .globals) ∧
      ((index (.handle globals) (.scalar (.string [107]))).outcome limits u).result =
        .error (.fault .outOfRange) :=
  ⟨.initial _, _, rfl, rfl, rfl⟩

end Inspect

end RemoteInspect
