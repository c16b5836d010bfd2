import RemoteInspect.Handle.Listing
import RemoteInspect.Proofs.Path.StepText
import RemoteInspect.Proofs.Scalar

namespace RemoteInspect.Handle

inductive Line
  | steps
  | step (width : Nat) (s : Step) (pos : Nat)
  | pool
  | entry (s : Scalar) (pos : Nat)

namespace Line

def text : Line → String
  | steps => "steps:\n"
  | step width s pos => stepLine width s pos
  | pool => "pool:\n"
  | entry s pos => entryLine s pos

def indent : Line → Nat
  | steps | pool => 0
  | step width _ pos => 2 + (width - pos.repr.length)
  | entry _ _ => 2

def body : Line → List Char
  | steps => ['s', 't', 'e', 'p', 's', ':']
  | step _ s pos => Nat.toDigits 10 pos ++ ' ' :: s.text.toList
  | pool => ['p', 'o', 'o', 'l', ':']
  | entry s pos => '#' :: (Nat.toDigits 10 (pos + 1) ++ ' ' :: s.quoted.toList)

def chars (l : Line) : List Char :=
  List.replicate l.indent ' ' ++ l.body

theorem toList_pushn (s : String) (c : Char) (n : Nat) :
    (s.pushn c n).toList = s.toList ++ List.replicate n c := by
  rw [String.pushn_eq_repeat_push]
  induction n with
  | zero => simp [Nat.repeat]
  | succ n ih => rw [Nat.repeat, String.toList_push, ih, List.replicate_succ', List.append_assoc]

theorem toList_text (l : Line) : l.text.toList = l.chars ++ ['\n'] := by
  have hnat : ∀ n : Nat, toString n = n.repr := fun _ => rfl
  have htext : ∀ t : String, toString t = t := fun _ => rfl
  cases l with
  | steps | pool => rfl
  | step width s pos =>
    simp [text, chars, indent, body, stepLine, toList_pushn, hnat, Nat.add_comm 2,
      List.replicate_succ]
  | entry s pos => simp [text, chars, indent, body, entryLine, hnat, htext, List.replicate_succ]

theorem notMem_toDigits {c : Char} (hc : c.isDigit = false) (n : Nat) : c ∉ Nat.toDigits 10 n := by
  intro hn
  cases hc.symm.trans (Decimal.isDigit_toDigits hn)

theorem newline_notMem_chars (l : Line) : '\n' ∉ l.chars := by
  have hdigits : ∀ n : Nat, '\n' ∉ Nat.toDigits 10 n := notMem_toDigits rfl
  have hbody : '\n' ∉ l.body := by
    cases l with
    | steps | pool => decide
    | step width s pos => simp [body, hdigits, Step.newline_notMem_text]
    | entry s pos => simp [body, hdigits, Scalar.newline_notMem_quoted]
  simpa [chars] using hbody

/-- Lines that cannot be told apart: the numbers may be aligned to different widths. -/
inductive Alike : Line → Line → Prop
  | steps : Alike .steps .steps
  | step (width width' : Nat) (s : Step) (pos : Nat) : Alike (.step width s pos) (.step width' s pos)
  | pool : Alike .pool .pool
  | entry {s s' : Scalar} (alike : s.LooksAlike s') (pos : Nat) :
      Alike (.entry s pos) (.entry s' pos)

theorem toDigits_append_ne (n : Nat) (rest : List Char) {c : Char} (hc : c.isDigit = false)
    (cs : List Char) : Nat.toDigits 10 n ++ rest ≠ c :: cs := by
  intro h
  cases hn : Nat.toDigits 10 n with
  | nil => exact Nat.toDigits_ne_nil hn
  | cons d ds =>
    rw [hn, List.cons_append, List.cons.injEq] at h
    exact notMem_toDigits hc n (by simp [hn, h.1])

theorem numbered_split {m n : Nat} {rest rest' : List Char}
    (h : Nat.toDigits 10 m ++ ' ' :: rest = Nat.toDigits 10 n ++ ' ' :: rest') :
    m = n ∧ rest = rest' := by
  obtain ⟨hnumber, hrest⟩ :=
    Text.append_cons_split (notMem_toDigits rfl m) (notMem_toDigits rfl n) h
  exact ⟨Text.toDigits_injective hnumber, hrest⟩

theorem body_head (l : Line) : ∀ c ∈ l.body.head?, decide (c = ' ') = false := by
  rintro c hc
  obtain ⟨cs, hbody⟩ := List.head?_eq_some_iff.mp hc
  refine decide_eq_false fun he => ?_
  subst he
  cases l with
  | steps | pool | entry => cases hbody
  | step width s pos => exact toDigits_append_ne pos _ rfl cs hbody

theorem alike_of_body_eq {l l' : Line} (h : l.body = l'.body) : l.Alike l' := by
  cases l with
  | steps =>
    cases l' with
    | steps => exact .steps
    | step width s pos => exact absurd h.symm (toDigits_append_ne pos _ rfl _)
    | pool | entry => cases h
  | step width s pos =>
    cases l' with
    | steps | pool | entry => exact absurd h (toDigits_append_ne pos _ rfl _)
    | step width' s' pos' =>
      obtain ⟨rfl, htext⟩ := numbered_split h
      obtain rfl : s = s' := Step.text_injective (String.toList_injective htext)
      exact .step width width' s pos
  | pool =>
    cases l' with
    | pool => exact .pool
    | step width s pos => exact absurd h.symm (toDigits_append_ne pos _ rfl _)
    | steps | entry => cases h
  | entry s pos =>
    cases l' with
    | steps | pool => cases h
    | step width s pos => exact absurd h.symm (toDigits_append_ne pos _ rfl _)
    | entry s' pos' =>
      obtain ⟨hpos, htext⟩ := numbered_split (List.cons.inj h).2
      obtain rfl : pos = pos' := Nat.add_right_cancel hpos
      exact .entry (Scalar.quoted_eq_iff.mp (String.toList_injective htext)) pos

theorem alike_of_chars_eq {l l' : Line} (h : l.chars = l'.chars) : l.Alike l' := by
  have hspaces : ∀ n, ∀ c ∈ List.replicate n ' ', decide (c = ' ') = true := by
    intro n c hc
    exact decide_eq_true (List.eq_of_mem_replicate hc)
  exact alike_of_body_eq
    (Decimal.append_split (hspaces _) (hspaces _) l.body_head l'.body_head h).2

theorem alike_of_text_eq {l l' : Line} (h : l.text = l'.text) : l.Alike l' := by
  have hchars := congrArg String.toList h
  rw [toList_text, toList_text] at hchars
  exact alike_of_chars_eq (List.append_cancel_right hchars)

/-- Only an entry that holds a string reads as one. -/
theorem text_eq_string_iff {bytes : List UInt8} {pos : Nat} {l : Line} :
    l.text = (entry (.string bytes) pos).text ↔
      ∃ others, l = entry (.string others) pos ∧ Text.decode others = Text.decode bytes := by
  constructor
  · intro h
    cases alike_of_text_eq h with
    | entry alike =>
      cases alike with
      | same => exact ⟨bytes, rfl, rfl⟩
      | replaced read => exact ⟨_, rfl, read⟩
  · rintro ⟨others, rfl, hread⟩
    have hquoted : (Scalar.string others).quoted = (Scalar.string bytes).quoted :=
      Scalar.quoted_eq_iff.mpr (.replaced hread)
    rw [text, text, entryLine, entryLine, hquoted]

/-- A text falls into lines in one way. -/
theorem forall₂_alike {ls ls' : List Line}
    (h : ls.flatMap (·.text.toList) = ls'.flatMap (·.text.toList)) : List.Forall₂ Alike ls ls' := by
  induction ls generalizing ls' with
  | nil =>
    cases ls' with
    | nil => exact .nil
    | cons l' ls' => simp [toList_text] at h
  | cons l ls ih =>
    cases ls' with
    | nil => simp [toList_text] at h
    | cons l' ls' =>
      simp only [List.flatMap_cons, toList_text, List.append_assoc, List.singleton_append] at h
      obtain ⟨hchars, hrest⟩ :=
        Text.append_cons_split l.newline_notMem_chars l'.newline_notMem_chars h
      exact .cons (alike_of_chars_eq hchars) (ih (by simpa [toList_text] using hrest))

def step? : Line → Option Step
  | step _ s _ => some s
  | _ => none

def entry? : Line → Option Scalar
  | entry s _ => some s
  | _ => none

theorem filterMap_step?_eq {ls ls' : List Line} (h : List.Forall₂ Alike ls ls') :
    ls.filterMap step? = ls'.filterMap step? := by
  induction h with
  | nil => rfl
  | cons alike _ ih =>
    cases alike with
    | step width width' s pos => exact congrArg (s :: ·) ih
    | steps | pool | entry => exact ih

theorem forall₂_filterMap_entry? {ls ls' : List Line} (h : List.Forall₂ Alike ls ls') :
    List.Forall₂ Scalar.LooksAlike (ls.filterMap entry?) (ls'.filterMap entry?) := by
  induction h with
  | nil => exact .nil
  | cons alike _ ih =>
    cases alike with
    | entry alike pos => exact .cons alike ih
    | steps | step | pool => exact ih

end Line

def lines (h : Handle) : List Line :=
  let width := (toString (h.path.size - 1)).length
  .steps :: h.path.steps.zipIdx.map (fun (s, pos) => .step width s pos) ++
    if h.pool.entries.isEmpty then []
    else .pool :: h.pool.entries.zipIdx.map fun (s, pos) => .entry s pos

theorem toList_concat (texts : List String) :
    (concat texts).toList = texts.flatMap String.toList := by
  have hfold : ∀ start : String, (texts.foldl (· ++ ·) start).toList =
      start.toList ++ texts.flatMap String.toList := by
    induction texts with
    | nil => simp
    | cons t rest ih => simp [ih]
  exact hfold ""

theorem toList_listing (h : Handle) : h.listing.toList = h.lines.flatMap (·.text.toList) := by
  simp only [listing, lines]
  split <;> simp [toList_concat, Line.text, List.flatMap_map, List.flatMap_append]

theorem filterMap_zipIdx {α : Type} {f : Line → Option α} {g : α × Nat → Line}
    (hfg : ∀ a pos, f (g (a, pos)) = some a) (as : List α) :
    (as.zipIdx.map g).filterMap f = as := by
  have hcomp : f ∘ g = some ∘ Prod.fst := funext fun x => hfg x.1 x.2
  rw [List.filterMap_map, hcomp, List.filterMap_eq_map, List.zipIdx_map_fst]

theorem filterMap_zipIdx_none {α β : Type} {f : Line → Option β} {g : α × Nat → Line}
    (hfg : ∀ x, f (g x) = none) (as : List α) : (as.zipIdx.map g).filterMap f = [] := by
  rw [List.filterMap_map, List.filterMap_eq_nil_iff]
  exact fun x _ => hfg x

theorem filterMap_step?_lines (h : Handle) : h.lines.filterMap Line.step? = h.path.steps := by
  have hsteps := fun width => filterMap_zipIdx (f := Line.step?)
    (g := fun (s, pos) => .step width s pos) (fun _ _ => rfl) h.path.steps
  have hentries := filterMap_zipIdx_none (f := Line.step?) (g := fun (s, pos) => .entry s pos)
    (fun _ => rfl) h.pool.entries
  rw [lines, List.filterMap_append, List.filterMap_cons_none rfl, hsteps]
  split
  · exact List.append_nil _
  · rw [List.filterMap_cons_none rfl, hentries, List.append_nil]

theorem filterMap_entry?_lines (h : Handle) : h.lines.filterMap Line.entry? = h.pool.entries := by
  have hsteps := fun width => filterMap_zipIdx_none (f := Line.entry?)
    (g := fun (s, pos) => .step width s pos) (fun _ => rfl) h.path.steps
  have hentries := filterMap_zipIdx (f := Line.entry?) (g := fun (s, pos) => .entry s pos)
    (fun _ _ => rfl) h.pool.entries
  rw [lines, List.filterMap_append, List.filterMap_cons_none rfl, hsteps, List.nil_append]
  split
  · rename_i hempty
    exact (List.isEmpty_iff.mp hempty).symm
  · rw [List.filterMap_cons_none rfl, hentries]

theorem map_entryLine_eq {es es' : List Scalar} (h : List.Forall₂ Scalar.LooksAlike es es')
    (start : Nat) : (es.zipIdx start).map (fun (s, pos) => entryLine s pos) =
      (es'.zipIdx start).map fun (s, pos) => entryLine s pos := by
  induction h generalizing start with
  | nil => rfl
  | cons alike _ ih =>
    simp only [List.zipIdx_cons, List.map_cons, entryLine, alike.quoted_eq]
    exact congrArg _ (ih _)

theorem listing_eq_of_alike {h k : Handle} (hpath : h.path = k.path)
    (hpool : List.Forall₂ Scalar.LooksAlike h.pool.entries k.pool.entries) :
    h.listing = k.listing := by
  have hempty : h.pool.entries.isEmpty = k.pool.entries.isEmpty := by
    rw [Bool.eq_iff_iff, List.isEmpty_iff_length_eq_zero, List.isEmpty_iff_length_eq_zero,
      hpool.length_eq]
  rw [listing, listing, hpath, hempty, map_entryLine_eq hpool]

/-- A listing tells the steps and, but for digits that were rounded off and octets that were
replaced, the entries. Each of its lines ends where it has its only line end, and no line reads as
that of a string, unless it is of a string that reads the same. -/
theorem listing_unambiguous :
    (∀ h k : Handle, h.listing = k.listing ↔ h.path = k.path ∧
      List.Forall₂ Scalar.LooksAlike h.pool.entries k.pool.entries) ∧
    (∀ h : Handle, h.listing.toList = h.lines.flatMap (·.text.toList)) ∧
    (∀ l : Line, l.text.toList = l.chars ++ ['\n'] ∧ '\n' ∉ l.chars) ∧
    ∀ (bytes : List UInt8) (pos : Nat) (l : Line), l.text = (Line.entry (.string bytes) pos).text ↔
      ∃ others, l = .entry (.string others) pos ∧ Text.decode others = Text.decode bytes := by
  refine ⟨fun h k => ⟨fun heq => ?_, fun ⟨hpath, hpool⟩ => listing_eq_of_alike hpath hpool⟩,
    toList_listing, fun l => ⟨l.toList_text, l.newline_notMem_chars⟩,
    fun _ _ _ => Line.text_eq_string_iff⟩
  have halike : List.Forall₂ Line.Alike h.lines k.lines := by
    apply Line.forall₂_alike
    rw [← toList_listing, heq, toList_listing]
  have hsteps := Line.filterMap_step?_eq halike
  have hentries := Line.forall₂_filterMap_entry? halike
  rw [filterMap_step?_lines, filterMap_step?_lines] at hsteps
  rw [filterMap_entry?_lines, filterMap_entry?_lines] at hentries
  exact ⟨congrArg Path.mk hsteps, hentries⟩

example : entryLine (.string "a\"\n  #2 nil".toUTF8.toList) 0 = "  #1 \"a\\\"\\n  #2 nil\"\n" := by
  decide +kernel

end RemoteInspect.Handle
