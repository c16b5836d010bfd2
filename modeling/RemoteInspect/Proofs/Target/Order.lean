import Mathlib.Order.Bounds.Basic
import RemoteInspect.Proofs.Target.Reading

namespace RemoteInspect.Table

theorem after_eq_first {done rest : List (Key × Live)} {e : Key × Live}
    (hd : ((done ++ e :: rest).map Prod.fst).Nodup) :
    after (done ++ e :: rest) e.1 = first rest := by
  induction done with
  | nil => exact if_pos rfl
  | cons e' done ih =>
    rw [List.cons_append, List.map_cons, List.nodup_cons] at hd
    have hne : e'.1 ≠ e.1 := by
      intro he
      exact hd.1 (he ▸ List.mem_map_of_mem (List.mem_append_right _ List.mem_cons_self))
    rw [List.cons_append, after, if_neg hne]
    exact ih hd.2

theorem Normal.next_live {table : Table} (ht : table.Normal)
    {done rest : List (Key × Live)} {e : Key × Live} (h : table.entries = done ++ e :: rest) :
    table.next e.1.live = first rest := by
  have hcanonical : e.1.Canonical := ht.canonical e (h ▸ List.mem_append_right _ List.mem_cons_self)
  have hkey : Key.ofLive? e.1.live = some e.1 := hcanonical
  simp only [next, hcanonical.live_ne_nil, ↓reduceIte, hkey, h]
  exact after_eq_first (h ▸ ht.distinct)

/-- The keys of the stretch that ends with `k`, where `run` of them come before `k`. -/
def runAt (run : Nat) (k : Key) : Nat :=
  match k.live.copy? with
  | none => run + 1
  | some _ => 0

theorem runAt_le (run : Nat) (k : Key) : runAt run k ≤ run + 1 := by
  rw [runAt]
  split
  · exact Nat.le_refl _
  · exact Nat.zero_le _

/-- The length of the longest stretch, where `run` keys of one come before. -/
def longestRun (run : Nat) : List Key → Nat
  | [] => run
  | k :: rest => max run (longestRun (runAt run k) rest)

theorem le_longestRun (run : Nat) (keys : List Key) : run ≤ longestRun run keys := by
  cases keys with
  | nil => exact Nat.le_refl run
  | cons k rest => exact Nat.le_max_left ..

theorem longestRun_tail_le (run : Nat) (k : Key) (rest : List Key) :
    longestRun (runAt run k) rest ≤ longestRun run (k :: rest) :=
  Nat.le_max_right ..

end RemoteInspect.Table
