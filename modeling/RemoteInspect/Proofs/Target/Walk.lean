import Mathlib.Data.List.Nodup
import RemoteInspect.Proofs.Target.Order
import RemoteInspect.Proofs.Target.Writing

namespace RemoteInspect

theorem Table.Normal.next_of_keys {contents : Table} (h : contents.Normal) {visited rest : List Key}
    (hkeys : contents.entries.map Prod.fst = visited ++ rest) :
    contents.next ((visited.getLast?.map Key.live).getD .nil) =
      (rest.head?.map fun k => .entry k.live (contents.get k)).getD .finished := by
  obtain ⟨done, left, hentries, rfl, rfl⟩ := List.map_eq_append_iff.mp hkeys
  have hfirst : first left = ((left.map Prod.fst).head?.map
      fun k => .entry k.live (contents.get k)).getD .finished := by
    cases left with
    | nil => rfl
    | cons e left =>
      have he : e ∈ contents.entries := hentries ▸ List.mem_append_right _ List.mem_cons_self
      simp [first, get_of_mem h.distinct he]
  rw [← hfirst]
  obtain rfl | ⟨before, e, rfl⟩ := done.eq_nil_or_concat
  · rw [List.nil_append] at hentries
    rw [← hentries]
    rfl
  · rw [List.concat_append] at hentries
    simpa using h.next_live hentries

namespace Target

/-- What happens on a walk: the next entry is asked for, or an entry of the table is set. -/
inductive Move
  | advance
  | set (key value : Live)

/-- A moment of a walk, with the key that was given last, and what has been answered right now. -/
structure Moment where
  target : Target
  last : Live
  answer : Option Successor

namespace Moment

def start (t : Target) : Moment := ⟨t, .nil, none⟩

def follow (table : Live) (m : Moment) : Move → Moment
  | .advance => match m.target.rawNext table m.last with
    | .entry key value => { m with last := key, answer := some (.entry key value) }
    | stop => { m with answer := some stop }
  | .set key value => match m.target.set table key value with
    | .ok u => { m with target := u, answer := none }
    | .error _ => { m with answer := none }

/-- Only the key that was given last has to stay. -/
def Permits (m : Moment) : Move → Prop
  | .advance => True
  | .set key value =>
    value = .nil → Key.ofLive? key = none ∨ Key.ofLive? key ≠ Key.ofLive? m.last

instance (m : Moment) : (move : Move) → Decidable (m.Permits move)
  | .advance => isTrue trivial
  | .set key value => inferInstanceAs (Decidable
      (value = .nil → Key.ofLive? key = none ∨ Key.ofLive? key ≠ Key.ofLive? m.last))

def read (table : Live) (m : Moment) (key : Live) : Live := m.target.rawGet table key

def gives (m : Moment) (key : Live) : Bool :=
  match m.answer with
  | some (.entry k _) => Key.ofLive? k = Key.ofLive? key
  | _ => false

end Moment

def walk (table : Live) : Moment → List Move → List Moment
  | m, [] => [m]
  | m, move :: rest => m :: walk table (m.follow table move) rest

def Permitted (table : Live) : Moment → List Move → Prop
  | _, [] => True
  | m, move :: rest => m.Permits move ∧ Permitted table (m.follow table move) rest

instance decidablePermitted (table : Live) :
    (m : Moment) → (moves : List Move) → Decidable (Permitted table m moves)
  | _, [] => isTrue trivial
  | m, move :: rest =>
    @instDecidableAnd _ _ _ (decidablePermitted table (m.follow table move) rest)

/-- How often a key has been given since it was absent for the last time. The latest moment comes
first. -/
def tally (table key : Live) : List Moment → Nat
  | [] => 0
  | m :: older =>
    if m.read table key = .nil then 0 else (m.gives key).toNat + tally table key older

variable {table key : Live} {m : Moment} {older : List Moment} {contents : Table}
  {visited rest : List Key}

theorem tally_append (newer older : List Moment) (h : ∀ m ∈ newer, m.read table key ≠ .nil) :
    tally table key (newer ++ older) = newer.countP (·.gives key) + tally table key older := by
  induction newer with
  | nil => simp
  | cons m newer ih =>
    obtain ⟨hm, hnewer⟩ := List.forall_mem_cons.mp h
    rw [List.cons_append, tally, if_neg hm, ih hnewer, List.countP_cons]
    cases m.gives key
    · simp
    · simp
      omega

/-- Where a walk is: the keys of the table are those behind it and those ahead. A key that is behind
has been given once since it came, and one that is ahead has not. -/
structure Position (table : Live) (m : Moment) (older : List Moment) (contents : Table)
    (visited rest : List Key) : Prop where
  reads : m.target.table? table = some contents
  normal : contents.Normal
  keys : contents.entries.map Prod.fst = visited ++ rest
  last : m.last = (visited.getLast?.map Key.live).getD .nil
  counts : ∀ key k, Key.ofLive? key = some k →
    tally table key (m :: older) = visited.count k
  known : m.answer ≠ some .unknownKey
  finished : m.answer = some .finished → rest = []
  given : ∀ key, m.gives key → ∃ k ∈ visited, Key.ofLive? key = some k

theorem getLast?_filter_ne {k : Key} (h : visited.getLast? ≠ some k) :
    (visited.filter (· ≠ k)).getLast? = visited.getLast? := by
  obtain rfl | ⟨before, last, rfl⟩ := visited.eq_nil_or_concat
  · rfl
  · have hne : last ≠ k := by simpa using h
    simp [List.filter_append, hne]

theorem read_ne_nil_iff (hc : m.target.table? table = some contents) (hn : contents.Normal) :
    m.read table key ≠ .nil ↔
      ∃ k, Key.ofLive? key = some k ∧ k ∈ contents.entries.map Prod.fst := by
  cases hk : Key.ofLive? key with
  | none => simp [Moment.read, rawGet, hc, hk]
  | some k => simp only [Moment.read, rawGet_eq hc hk, hn.get_ne_nil_iff, Option.some.injEq,
      exists_eq_left']

namespace Position

theorem read_ne_nil_iff (h : Position table m older contents visited rest) {k : Key}
    (hk : Key.ofLive? key = some k) : m.read table key ≠ .nil ↔ k ∈ visited ++ rest := by
  rw [Target.read_ne_nil_iff h.reads h.normal, h.keys, hk]
  simp

theorem count_le_one (h : Position table m older contents visited rest) (k : Key) :
    visited.count k ≤ 1 := by
  have hd := h.normal.distinct
  rw [h.keys] at hd
  exact List.nodup_iff_count_le_one.mp (List.nodup_append.mp hd).1 k

theorem count_eq_one (h : Position table m older contents visited rest) {k : Key}
    (hk : k ∈ visited) : visited.count k = 1 :=
  Nat.le_antisymm (h.count_le_one k) (List.count_pos_iff.mpr hk)

theorem canonical (h : Position table m older contents visited rest) {k : Key}
    (hk : k ∈ visited ++ rest) : Key.ofLive? k.live = some k := by
  rw [← h.keys] at hk
  obtain ⟨e, he, rfl⟩ := List.mem_map.mp hk
  exact h.normal.canonical e he

theorem start {t : Target} (hc : t.table? table = some contents) (hn : contents.Normal) :
    Position table (.start t) [] contents [] (contents.entries.map Prod.fst) where
  reads := hc
  normal := hn
  keys := rfl
  last := rfl
  counts key k _ := by
    rw [tally]
    split <;> rfl
  known := by simp [Moment.start]
  finished := by simp [Moment.start]
  given key h := by simp [Moment.gives, Moment.start] at h

theorem tally_next (h : Position table m older contents visited rest) (m' : Moment)
    {contents' : Table} {visited' rest' : List Key}
    (hc : m'.target.table? table = some contents') (hn : contents'.Normal)
    (hkeys : contents'.entries.map Prod.fst = visited' ++ rest')
    (hcount : ∀ key k, Key.ofLive? key = some k → k ∈ visited' ++ rest' →
      (m'.gives key).toNat + visited.count k = visited'.count k)
    {key : Live} {k : Key} (hk : Key.ofLive? key = some k) :
    tally table key (m' :: m :: older) = visited'.count k := by
  have hiff : m'.read table key ≠ .nil ↔ _ := Target.read_ne_nil_iff hc hn
  simp only [hk, Option.some.injEq, exists_eq_left', hkeys] at hiff
  rw [tally, h.counts key k hk]
  by_cases hm : k ∈ visited' ++ rest'
  · rw [if_neg (hiff.mpr hm), hcount key k hk hm]
  · have hv : k ∉ visited' := fun hv => hm (List.mem_append_left _ hv)
    rw [if_pos (not_not.mp (mt hiff.mp hm)), List.count_eq_zero_of_not_mem hv]

theorem silent (h : Position table m older contents visited rest) {m' : Moment}
    {contents' : Table} {visited' rest' : List Key}
    (hanswer : m'.answer = none ∨ m'.answer = some .finished ∧ rest' = [])
    (hc : m'.target.table? table = some contents') (hn : contents'.Normal)
    (hkeys : contents'.entries.map Prod.fst = visited' ++ rest')
    (hlast : m'.last = (visited'.getLast?.map Key.live).getD .nil)
    (hcount : ∀ k ∈ visited' ++ rest', visited.count k = visited'.count k) :
    Position table m' (m :: older) contents' visited' rest' := by
  have hgives : ∀ key, m'.gives key = false := by
    intro key
    obtain ha | ⟨ha, -⟩ := hanswer <;> simp [Moment.gives, ha]
  exact
    { reads := hc
      normal := hn
      keys := hkeys
      last := hlast
      counts := fun key k hk => h.tally_next m' hc hn hkeys
        (fun key k _ hm => by rw [hgives, Bool.toNat_false, Nat.zero_add, hcount k hm]) hk
      known := by obtain ha | ⟨ha, -⟩ := hanswer <;> simp [ha]
      finished := by
        obtain ha | ⟨ha, hrest⟩ := hanswer
        · simp [ha]
        · exact fun _ => hrest
      given := fun key hg => by simp [hgives] at hg }

theorem advance (h : Position table m older contents visited rest) :
    ∃ visited' rest',
      Position table (m.follow table .advance) (m :: older) contents visited' rest' := by
  have hnext : m.target.rawNext table m.last =
      (rest.head?.map fun k => .entry k.live (contents.get k)).getD .finished := by
    rw [rawNext, h.reads, h.last]
    exact h.normal.next_of_keys h.keys
  cases rest with
  | nil =>
    have hfollow : m.follow table .advance = { m with answer := some .finished } := by
      rw [Moment.follow, hnext]
      rfl
    rw [hfollow]
    exact ⟨visited, [], h.silent (.inr ⟨rfl, rfl⟩) h.reads h.normal h.keys h.last fun _ _ => rfl⟩
  | cons k₀ rest =>
    let m' : Moment :=
      { m with last := k₀.live, answer := some (.entry k₀.live (contents.get k₀)) }
    have hfollow : m.follow table .advance = m' := by
      rw [Moment.follow, hnext]
      rfl
    have hcanonical : Key.ofLive? k₀.live = some k₀ := h.canonical (by simp)
    have hgives : ∀ {key k}, Key.ofLive? key = some k → m'.gives key = decide (k₀ = k) := by
      intro key k hk
      simp [m', Moment.gives, hcanonical, hk]
    have hkeys : contents.entries.map Prod.fst = (visited ++ [k₀]) ++ rest := by
      rw [h.keys, List.append_assoc, List.singleton_append]
    rw [hfollow]
    refine ⟨visited ++ [k₀], rest, ?_⟩
    exact
      { reads := h.reads
        normal := h.normal
        keys := hkeys
        last := by simp [m']
        counts := fun key k hk => h.tally_next m' h.reads h.normal hkeys
          (fun key k hk _ => by
            rw [hgives hk, List.count_append, List.count_singleton, Nat.add_comm]
            by_cases he : k₀ = k <;> simp [he]) hk
        known := by simp [m']
        finished := by simp [m']
        given := fun key hg => by
          refine ⟨k₀, List.mem_append_right _ List.mem_cons_self, ?_⟩
          simpa [m', Moment.gives, hcanonical, eq_comm] using hg }

theorem getLast?_ne (h : Position table m older contents visited rest)
    (hp : m.Permits (.set key .nil)) {k : Key} (hk : Key.ofLive? key = some k) :
    visited.getLast? ≠ some k := by
  intro hlast
  have hmem : k ∈ visited ++ rest := List.mem_append_left _ (List.mem_of_getLast? hlast)
  have hlive : m.last = k.live := by
    rw [h.last, hlast]
    rfl
  have hsame : Key.ofLive? key = Key.ofLive? m.last := by rw [hk, hlive, h.canonical hmem]
  obtain hnone | hother := hp rfl
  · cases hk.symm.trans hnone
  · exact hother hsame

theorem set (h : Position table m older contents visited rest) {key value : Live}
    (hp : m.Permits (.set key value)) :
    ∃ contents' visited' rest',
      Position table (m.follow table (.set key value)) (m :: older) contents' visited' rest' := by
  cases hk : Key.ofLive? key with
  | none =>
    have hfollow : m.follow table (.set key value) = { m with answer := none } := by
      simp [Moment.follow, Target.set, hk]
    rw [hfollow]
    exact ⟨contents, visited, rest,
      h.silent (.inl rfl) h.reads h.normal h.keys h.last fun _ _ => rfl⟩
  | some k =>
    obtain ⟨u, hu, hread⟩ := exists_set h.reads hk value
    have hfollow : m.follow table (.set key value) = { m with target := u, answer := none } := by
      rw [Moment.follow, hu]
    have hnormal := h.normal.set (Key.canonical_of_ofLive? hk) value
    have hkeys := Table.keys_set contents k value
    rw [h.keys] at hkeys
    rw [hfollow]
    refine ⟨contents.set k value, ?_⟩
    by_cases hv : value = .nil
    · -- The key that was given last stays, so the walk goes on from where it is.
      subst hv
      rw [if_pos rfl, List.filter_append] at hkeys
      have hlast : m.last = ((visited.filter (· ≠ k)).getLast?.map Key.live).getD .nil := by
        rw [getLast?_filter_ne (h.getLast?_ne hp hk), h.last]
      refine ⟨_, _, h.silent (.inl rfl) hread hnormal hkeys hlast fun k' hk' => ?_⟩
      rw [← List.filter_append, List.mem_filter] at hk'
      have hne : k' ≠ k := by simpa using hk'.2
      simp [List.count_filter, hne]
    rw [if_neg hv] at hkeys
    split at hkeys
    · exact ⟨visited, rest, h.silent (.inl rfl) hread hnormal hkeys h.last fun _ _ => rfl⟩
    · rw [List.append_assoc] at hkeys
      exact ⟨visited, rest ++ [k], h.silent (.inl rfl) hread hnormal hkeys h.last fun _ _ => rfl⟩

theorem follow (h : Position table m older contents visited rest) {move : Move}
    (hp : m.Permits move) :
    ∃ contents' visited' rest',
      Position table (m.follow table move) (m :: older) contents' visited' rest' := by
  cases move with
  | advance => exact ⟨contents, h.advance⟩
  | set key value => exact h.set hp

end Position

theorem exists_position (hm : ∃ contents visited rest, Position table m older contents visited rest)
    {moves : List Move} (hp : Permitted table m moves) {front back : List Moment} {m' : Moment}
    (h : walk table m moves = front ++ m' :: back) :
    ∃ contents visited rest,
      Position table m' (front.reverse ++ older) contents visited rest := by
  induction moves generalizing m older front with
  | nil =>
    obtain ⟨rfl, ⟨rfl, rfl⟩⟩ | ⟨_, hf⟩ := List.singleton_eq_append_iff.mp h
    · exact hm
    · cases hf
  | cons move moves ih =>
    cases front with
    | nil =>
      cases h
      exact hm
    | cons m₀ front =>
      rw [walk, List.cons_append, List.cons.injEq] at h
      obtain ⟨rfl, h⟩ := h
      obtain ⟨_, _, _, hm⟩ := hm
      simpa using ih (hm.follow hp.1) hp.2 h

/-- Whatever entries are set on a walk, if none takes away the key that was given last, the walk
goes on. Once it has finished it has given each key that was there all the time, and it gives none
again that has not been away. -/
theorem walk_complete {t : Target} (ht : t.Reachable) (hc : t.table? table = some contents)
    (moves : List Move) (hmoves : Permitted table (.start t) moves) :
    (∀ m ∈ walk table (.start t) moves, m.answer ≠ some .unknownKey) ∧
    (∀ key front m back, walk table (.start t) moves = front ++ m :: back →
      m.answer = some .finished → (∀ m' ∈ front ++ [m], m'.read table key ≠ .nil) →
      front.countP (·.gives key) = 1) ∧
    ∀ key front m between m' back,
      walk table (.start t) moves = front ++ m :: between ++ m' :: back →
      m.gives key → m'.gives key → ∃ l ∈ between, l.read table key = .nil := by
  have hposition : ∀ front m back, walk table (.start t) moves = front ++ m :: back →
      ∃ contents visited rest, Position table m front.reverse contents visited rest := by
    intro front m back h
    have hstart := Position.start hc (ht.sound.table hc).normal
    simpa using exists_position ⟨_, _, _, hstart⟩ hmoves h
  refine ⟨?_, ?_, ?_⟩
  · intro m hm
    obtain ⟨front, back, h⟩ := List.append_of_mem hm
    obtain ⟨contents, visited, rest, hm⟩ := hposition front m back h
    exact hm.known
  · intro key front m back h hfinished hpresent
    obtain ⟨contents, visited, rest, hm⟩ := hposition front m back h
    obtain rfl := hm.finished hfinished
    have hread : m.read table key ≠ .nil := hpresent m (by simp)
    obtain ⟨k, hk, hmem⟩ := (read_ne_nil_iff hm.reads hm.normal).mp hread
    rw [hm.keys, List.append_nil] at hmem
    have htally := tally_append (m :: front.reverse) [] fun m' hm' =>
      hpresent m' (by simpa [or_comm] using hm')
    have hgives : m.gives key = false := by simp [Moment.gives, hfinished]
    rw [List.append_nil, hm.counts key k hk, hm.count_eq_one hmem, List.countP_cons, hgives,
      List.countP_reverse] at htally
    exact htally.symm
  · intro key front m between m' back h hgives hgives'
    by_contra hnone
    have hpresent : ∀ l ∈ between, l.read table key ≠ .nil := fun l hl he => hnone ⟨l, hl, he⟩
    obtain ⟨_, visited, _, hm⟩ := hposition front m (between ++ m' :: back) (by simpa using h)
    obtain ⟨_, visited', _, hm'⟩ := hposition (front ++ m :: between) m' back (by simpa using h)
    obtain ⟨k, hk, hkey⟩ := hm.given key hgives
    obtain ⟨k', hk', hkey'⟩ := hm'.given key hgives'
    cases hkey.symm.trans hkey'
    have hread' : m'.read table key ≠ .nil :=
      (hm'.read_ne_nil_iff hkey').mpr (List.mem_append_left _ hk')
    have hall : ∀ l ∈ m' :: between.reverse, l.read table key ≠ .nil := by
      simpa [hread'] using hpresent
    have htally := tally_append (m' :: between.reverse) (m :: front.reverse) hall
    -- It has been given at the earlier moment, is never away, and is given again.
    have hcount := hm'.counts key k hkey'
    rw [List.reverse_append, List.reverse_cons, List.append_assoc, List.singleton_append,
      ← List.cons_append, htally, hm.counts key k hkey, hm.count_eq_one hk, hm'.count_eq_one hk',
      List.countP_cons, if_pos hgives'] at hcount
    omega

/-- One entry is updated, one is removed and comes again, and one is new. -/
def busy : List Move :=
  [.advance, .set (.scalar (.integer 1)) (.scalar (.boolean false)),
    .set (.scalar (.integer 2)) (.object 3), .advance, .set (.scalar (.integer 1)) .nil,
    .set (.scalar (.integer 1)) (.object 4), .advance, .advance, .advance]

theorem walk_complete_busy :
    Permitted (.object 3) (.start linked) busy ∧
    (walk (.object 3) (.start linked) busy).filterMap Moment.answer =
      [.entry (.scalar (.integer 1)) (.object 4), .entry (.object 4) (.object 3),
        .entry (.scalar (.integer 2)) (.object 3), .entry (.scalar (.integer 1)) (.object 4),
        .finished] ∧
    ((walk (.object 3) (.start linked) busy).take 9).countP (·.gives (.object 4)) = 1 := by
  have hpermitted : Permitted (.object 3) (.start linked) busy := by
    decide
  obtain ⟨-, hcomplete, -⟩ := walk_complete reachable_linked rfl busy hpermitted
  refine ⟨hpermitted, by decide, ?_⟩
  exact hcomplete (.object 4) _ _ [] (List.take_append_drop 9 _).symm (by decide) (by decide)

end Target

end RemoteInspect
