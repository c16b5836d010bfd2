import RemoteInspect.Inspect.Iteration
import RemoteInspect.Proofs.Inspect.Keys

namespace RemoteInspect

open RemoteInspect.Tree (checkKind)
open RemoteInspect.Table (runAt longestRun le_longestRun longestRun_tail_le)

def Value.Exceeds (limits : Limits) (value : Value) : Prop :=
  ∃ h tree, value = .handle h ∧ h.HasTree tree ∧ limits.recursion < tree.height

namespace Inspect

variable {limits : Limits} {t : Target} {b : Handle} {tb : Tree Scalar} {table k : Live}
  {last : Value} {run most : Nat}

theorem KeyAt.exceeds_iff (h : KeyAt t b tb last k run) (hbase : tb.height ≤ limits.recursion) :
    last.Exceeds limits ↔ limits.recursion < tb.height + run := by
  cases last with
  | scalar s =>
    obtain ⟨-, rfl⟩ := h
    constructor
    · rintro ⟨h', tree, ⟨⟩, -⟩
    · omega
  | handle h' =>
    obtain ⟨-, id, tk, -, hdenotes, -, hheight⟩ := h
    rw [← hheight]
    constructor
    · rintro ⟨_, tree, ⟨⟩, htree, hlt⟩
      rwa [(htree tk).mp hdenotes.means]
    · intro hlt
      exact ⟨h', tk, rfl, hdenotes.hasTree, hlt⟩

/-- What is listed after `last`, a key that is `run` keys up a stretch, where `keys` are left: all
of it, or what comes before the first call with a key that is higher than the limit. -/
inductive Ends (limits : Limits) (height run : Nat) (keys : List Key) (last : Value)
    (listed : List (Value × Value)) : Ending → Prop
  | finished (low : height + longestRun run keys ≤ limits.recursion)
      (all : listed.length = keys.length) : Ends limits height run keys last listed .finished
  | cut (high : limits.recursion < height + longestRun run keys)
      {before : List Value} {key : Value} (split : last :: listed.map Prod.fst = before ++ [key])
      (exceeds : key.Exceeds limits) (first : ∀ k ∈ before, ¬ k.Exceeds limits) :
      Ends limits height run keys last listed
        (.failed (.exhausted (.recursionLimit limits.recursion)))

namespace Ends

variable {height : Nat} {keys : List Key} {listed : List (Value × Value)} {ending : Ending}

theorem cons {k : Key} {key value : Value} (low : height + run ≤ limits.recursion)
    (hlast : ¬ last.Exceeds limits) (h : Ends limits height (runAt run k) keys key listed ending) :
    Ends limits height run (k :: keys) last ((key, value) :: listed) ending := by
  cases h with
  | finished low' all =>
    refine .finished ?_ (congrArg Nat.succ all)
    rw [longestRun]
    omega
  | @cut high before key' split exceeds first =>
    refine @cut _ _ _ _ _ _ ?_ (last :: before) key' (congrArg (last :: ·) split) exceeds
      (List.forall_mem_cons.mpr ⟨hlast, first⟩)
    have := longestRun_tail_le run k keys
    omega

theorem length_of_finished (h : Ends limits height run keys last listed ending)
    (hending : ending = .finished) : listed.length = keys.length := by
  cases h with
  | finished low all => exact all
  | cut => cases hending

end Ends

/-- A reservation is refused, or something is too large to be counted by words. -/
def Stuck (limits : Limits) (t : Target) (b : Handle) (most : Nat)
    (r : Except Stop (List (Value × Value) × Ending)) : Prop :=
  (∃ listed, r = .ok (listed, .failed (.exhausted .workingArea))) ∨
  ∃ f, r = .error (.fault f) ∧
    (f = .outOfRange ∧ Target.sizeLimit ≤ mostPinned limits t + limits.reserve ∨ b.TooLarge most)

theorem Stuck.cons {r : Except Stop (List (Value × Value) × Ending)} (item : Value × Value)
    (h : Stuck limits t b most r) :
    Stuck limits t b most (r.map fun l => (item :: l.1, l.2)) := by
  obtain ⟨listed, rfl⟩ | ⟨f, rfl, hf⟩ := h
  · exact .inl ⟨item :: listed, rfl⟩
  · exact .inr ⟨f, rfl, hf⟩

theorem entriesAfter_of_entry {base key value : Value} {last : Option Value} {count n : Nat}
    {r : Except Stop (List (Value × Value) × Ending)}
    (hnext : Runs limits t n 0 (next base last) (.ok (some (key, value))))
    (hrest : Runs limits t n 0 (entriesAfter base count (some key)) r) :
    Runs limits t n 0 (entriesAfter base (count + 1) last)
      (r.map fun l => ((key, value) :: l.1, l.2)) := by
  have hmap : Runs limits t n 0 (entriesAfter base count (some key) >>= fun l =>
      pure ((key, value) :: l.1, l.2)) _ := .map _ hrest
  exact .seq hnext.attempt hmap

theorem entriesAfter_runs (hl : Lists limits t b tb table) {contents : Table}
    (hc : t.table? table = some contents) (h : KeyAt t b tb last k run)
    {before rest : List (Key × Live)} (hsplit : contents.entries = before ++ rest)
    (hn : t.rawNext table k = Table.first rest)
    (hmost : min (longestRun run (rest.map Prod.fst)) limits.recursion ≤ most)
    {count : Nat} (hcount : rest.length < count) :
    ∃ r, Runs limits t t.pinned 0 (entriesAfter (.handle b) count (some last)) r ∧
      (Stuck limits t b most r ∨ ∃ listed ending, r = .ok (listed, ending) ∧
        List.Forall₂ (Listed limits t b) listed (rest.take listed.length) ∧
        Ends limits tb.height run (rest.map Prod.fst) last listed ending) := by
  -- From each key on the rest of the entries is listed, by induction on the number of calls.
  induction count generalizing last k run before rest with
  | zero => exact absurd hcount (Nat.not_lt_zero _)
  | succ count ih =>
    obtain ⟨r, hruns, hadvances⟩ := next_advances hl h hn hmost
    cases hadvances with
    | @entry e rest key value low keyAt listed =>
      have hn' : t.rawNext table e.1.live = Table.first rest := by
        rw [Target.rawNext, hc]
        exact (hl.sound.table hc).normal.next_live hsplit
      have hsplit' : contents.entries = (before ++ [e]) ++ rest := by simpa using hsplit
      have hmost' :
          min (longestRun (runAt run e.1) (rest.map Prod.fst)) limits.recursion ≤ most := by
        have := longestRun_tail_le run e.1 (rest.map Prod.fst)
        rw [List.map_cons] at hmost
        omega
      have hlast : ¬ last.Exceeds limits := by
        rw [h.exceeds_iff hl.height_le]
        exact Nat.not_lt_of_le low
      obtain ⟨r, hrest, hr⟩ := ih keyAt hsplit' hn' hmost' (Nat.lt_of_succ_lt_succ hcount)
      refine ⟨_, entriesAfter_of_entry hruns hrest, ?_⟩
      obtain hstuck | ⟨items, ending, rfl, hitems, hends⟩ := hr
      · exact .inl (hstuck.cons _)
      · exact .inr ⟨_, ending, rfl, .cons listed hitems, hends.cons low hlast⟩
    | finished low =>
      exact ⟨_, .seq hruns.attempt (.pure _), .inr ⟨[], .finished, rfl, .nil, .finished low rfl⟩⟩
    | tooHigh high =>
      have hexceeds : last.Exceeds limits := (h.exceeds_iff hl.height_le).mpr high
      refine ⟨_, .seq hruns.attempt (.pure _), .inr ⟨[], _, rfl, .nil, ?_⟩⟩
      refine @Ends.cut _ _ _ _ _ _ ?_ [] last rfl hexceeds (by simp)
      have := le_longestRun run (rest.map Prod.fst)
      omega
    | noRoom he =>
      obtain rfl | ⟨rfl, hsize⟩ := he
      · exact ⟨_, .seq hruns.attempt (.pure _), .inl (.inl ⟨[], rfl⟩)⟩
      · exact ⟨_, .stop hruns.attempt, .inl (.inr ⟨_, rfl, .inl ⟨rfl, hsize⟩⟩)⟩
    | tooLarge large =>
      exact ⟨_, .stop hruns.attempt, .inl (.inr ⟨_, rfl, .inr large⟩)⟩

theorem lists_of_evaluate (ht : t.Sound) (hb : b.Denotes tb)
    (hv : ((evaluate b).outcome limits t).result = .ok table) {contents : Table}
    (hc : t.table? table = some contents) : Lists limits t b tb table where
  sound := ht
  denotes := hb
  resolves := by
    have hruns : Runs limits t t.pinned 1 (evaluate b) _ := evaluate_runs ht hb t.pinned
    exact hruns.outcome.symm.trans hv
  isTable := Tree.checkKind_table hc

theorem entries_listed (ht : t.Sound) (hb : b.Denotes tb)
    (hv : ((evaluate b).outcome limits t).result = .ok table) {contents : Table}
    (hc : t.table? table = some contents) {count : Nat}
    (hcount : contents.entries.length < count) :
    let r := ((entries (.handle b) count).outcome limits t).result
    Stuck limits t b (min (longestRun 0 (contents.entries.map Prod.fst)) limits.recursion) r ∨
      ∃ listed ending, r = .ok (listed, ending) ∧
        List.Forall₂ (Listed limits t b) listed (contents.entries.take listed.length) ∧
        Ends limits tb.height 0 (contents.entries.map Prod.fst) (.scalar .nil) listed ending := by
  intro r
  have hl : Lists limits t b tb table := lists_of_evaluate ht hb hv hc
  have hfirst : t.rawNext table .nil = Table.first contents.entries := by
    simp [Target.rawNext, hc, Table.next]
  have hkey : KeyAt t b tb (.scalar .nil) .nil 0 := ⟨rfl, rfl⟩
  obtain ⟨r', hruns, hlisted⟩ :=
    entriesAfter_runs hl hc hkey (List.nil_append _).symm hfirst (Nat.le_refl _) hcount
  have hentries : entries (.handle b) count =
      entriesAfter (.handle b) count (some (.scalar .nil)) := by
    cases count <;> rfl
  have hr : r = r' := by
    simp only [r, hentries, hruns.outcome]
  rwa [hr]

end Inspect

end RemoteInspect
