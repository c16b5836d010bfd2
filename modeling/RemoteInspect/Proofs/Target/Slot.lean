import RemoteInspect.Proofs.Binary64
import RemoteInspect.Proofs.Target.Sound

namespace RemoteInspect

/-- A number as such, or what is beyond all of them. -/
inductive Number
  | finite (q : ℚ)
  | infinite (negative : Bool)

def Binary64.number? (x : Binary64) : Option Number :=
  if x.isNaN then none
  else if x.isFinite then some (.finite x.rational)
  else some (.infinite x.isNegative)

namespace Live

def number? : Live → Option Number
  | scalar (.integer i) => some (.finite i.toInt)
  | scalar (.float x) => x.number?
  | _ => none

inductive SameSlot : Live → Live → Prop
  | boolean (b : Bool) : SameSlot (scalar (.boolean b)) (scalar (.boolean b))
  | string (bytes : List UInt8) : SameSlot (scalar (.string bytes)) (scalar (.string bytes))
  | pointer (p : UInt64) : SameSlot (scalar (.pointer p)) (scalar (.pointer p))
  | object (id : ObjectId) : SameSlot (.object id) (.object id)
  | number {v w : Live} {n : Number} (left : v.number? = some n) (right : w.number? = some n) :
      SameSlot v w

end Live

namespace Binary64

variable {x y : Binary64}

theorem number?_of_isNaN (h : x.isNaN) : x.number? = none := if_pos h

theorem toInteger?_of_isNaN (h : x.isNaN) : x.toInteger? = none := by
  simp [toInteger?, isFinite_of_isNaN h]

theorem number?_eq_integer_iff {i : Int64} :
    x.number? = some (.finite i.toInt) ↔ x.toInteger? = some i := by
  by_cases hnan : x.isNaN
  · simp [number?_of_isNaN hnan, toInteger?_of_isNaN hnan]
  · rw [number?, toInteger?_eq_some_iff, if_neg hnan]
    by_cases hfinite : x.isFinite <;> simp [hfinite]

theorem isNegative_of_infinite {n : Bool} (h : x.number? = some (.infinite n)) :
    x.isNegative = n ∧ x.exponentField = 2047 ∧ x.fractionField = 0 := by
  rw [number?] at h
  split at h
  · cases h
  · rename_i hnan
    split at h <;> cases h
    rename_i hfinite
    simp only [isFinite, isNaN, decide_eq_true_eq, not_not] at hfinite hnan
    exact ⟨rfl, hfinite, not_not.mp fun hf => hnan ⟨hfinite, hf⟩⟩

theorem rational_of_finite {q : ℚ} (h : x.number? = some (.finite q)) :
    x.isFinite ∧ x.rational = q := by
  rw [number?] at h
  split at h
  · cases h
  · split at h <;> cases h
    rename_i hfinite
    exact ⟨hfinite, rfl⟩

/-- A number that is no integer has one pattern only. -/
theorem eq_of_number?_eq {n : Number} (hx : x.number? = some n) (hy : y.number? = some n)
    (hinteger : x.toInteger? = none) : x = y := by
  cases n with
  | infinite negative =>
    obtain ⟨hxn, hxe, hxf⟩ := isNegative_of_infinite hx
    obtain ⟨hyn, hye, hyf⟩ := isNegative_of_infinite hy
    exact eq_of_fields (hxn.trans hyn.symm) (hxe.trans hye.symm) (hxf.trans hyf.symm)
  | finite q =>
    obtain ⟨hfinite, hxq⟩ := rational_of_finite hx
    obtain ⟨-, hyq⟩ := rational_of_finite hy
    have hzero : x.rational ≠ 0 := by
      intro h
      have hsome : x.toInteger? = some 0 := toInteger?_eq_some_iff.mpr ⟨hfinite, by simp [h]⟩
      cases hinteger.symm.trans hsome
    exact eq_of_rational_eq (hxq.trans hyq.symm) hzero

end Binary64

namespace Key

variable {v w : Live}

theorem ofLive?_eq_integer_iff {i : Int64} :
    ofLive? v = some (.integer i) ↔ v.number? = some (.finite i.toInt) := by
  cases v with
  | object id => simp [ofLive?, Live.number?]
  | scalar s =>
    cases s with
    | nil | boolean | string | pointer => simp [ofLive?, Live.number?]
    | integer j => simp [ofLive?, Live.number?, Int64.toInt_inj]
    | float x =>
      rw [Live.number?, Binary64.number?_eq_integer_iff, ofLive?]
      by_cases hnan : x.isNaN
      · simp [hnan, Binary64.toInteger?_of_isNaN hnan]
      · cases hx : x.toInteger? <;> simp [hnan]

theorem ofLive?_eq_float_iff {x : Binary64} :
    ofLive? v = some (.float x) ↔
      v = .scalar (.float x) ∧ x.isNaN = false ∧ x.toInteger? = none := by
  cases v with
  | object id => simp [ofLive?]
  | scalar s =>
    cases s with
    | nil | boolean | integer | string | pointer => simp [ofLive?]
    | float y =>
      rw [ofLive?]
      constructor
      · intro h
        split at h
        · cases h
        · rename_i hnan
          split at h <;> cases h
          rename_i hinteger
          exact ⟨rfl, by simpa using hnan, hinteger⟩
      · rintro ⟨rfl | _, hnan, hinteger⟩
        simp [hnan, hinteger]

theorem exists_ofLive?_iff :
    (∃ k, ofLive? v = some k) ↔ v ≠ .nil ∧ ∀ x, v = .scalar (.float x) → x.isNaN = false := by
  cases v with
  | object id => simp [ofLive?, Live.nil]
  | scalar s =>
    cases s with
    | nil | boolean | integer | string | pointer => simp [ofLive?, Live.nil]
    | float x =>
      cases hnan : x.isNaN <;> cases hx : x.toInteger? <;> simp [ofLive?, Live.nil, hnan, hx]

theorem exists_of_number? {n : Number} (h : v.number? = some n) :
    (∃ i : Int64, n = .finite i.toInt ∧ ofLive? v = some (.integer i)) ∨
      ∃ x, v = .scalar (.float x) ∧ ofLive? v = some (.float x) := by
  cases v with
  | object id => cases h
  | scalar s =>
    cases s with
    | nil | boolean | string | pointer => cases h
    | integer i =>
      cases h
      exact .inl ⟨i, rfl, rfl⟩
    | float x =>
      cases hx : x.toInteger? with
      | some i =>
        have hi := Binary64.number?_eq_integer_iff.mpr hx
        cases h.symm.trans hi
        exact .inl ⟨i, rfl, ofLive?_eq_integer_iff.mpr hi⟩
      | none =>
        have hnan : x.isNaN = false := by
          by_contra hnan
          cases (Binary64.number?_of_isNaN (by simpa using hnan)).symm.trans h
        exact .inr ⟨x, rfl, ofLive?_eq_float_iff.mpr ⟨rfl, hnan, hx⟩⟩

end Key

theorem Live.ofLive?_eq_of_number? {v w : Live} {n : Number} (hv : v.number? = some n)
    (hw : w.number? = some n) : Key.ofLive? w = Key.ofLive? v := by
  obtain ⟨i, rfl, hi⟩ | ⟨x, rfl, hx⟩ := Key.exists_of_number? hv
  · rw [hi, Key.ofLive?_eq_integer_iff.mpr hw]
  obtain ⟨i, rfl, hi⟩ | ⟨y, rfl, hy⟩ := Key.exists_of_number? hw
  · rw [hi, Key.ofLive?_eq_integer_iff.mpr hv]
  · obtain ⟨-, -, hinteger⟩ := Key.ofLive?_eq_float_iff.mp hx
    rw [Binary64.eq_of_number?_eq hv hw hinteger]

theorem Live.sameSlot_live {k : Key} (h : k.Canonical) : k.live.SameSlot k.live := by
  cases k with
  | boolean b => exact .boolean b
  | string bytes => exact .string bytes
  | pointer p => exact .pointer p
  | object id => exact .object id
  | integer i => exact .number rfl rfl
  | float x =>
    have hnan := h.not_nan rfl
    obtain ⟨n, hn⟩ : ∃ n, x.number? = some n := by
      cases hfinite : x.isFinite <;> simp [Binary64.number?, hnan, hfinite]
    exact .number hn hn

theorem Live.sameSlot_iff {v w : Live} :
    v.SameSlot w ↔ ∃ k, Key.ofLive? v = some k ∧ Key.ofLive? w = some k := by
  constructor
  · intro h
    cases h with
    | boolean b => exact ⟨.boolean b, rfl, rfl⟩
    | string bytes => exact ⟨.string bytes, rfl, rfl⟩
    | pointer p => exact ⟨.pointer p, rfl, rfl⟩
    | object id => exact ⟨.object id, rfl, rfl⟩
    | number hv hw =>
      have hsame := ofLive?_eq_of_number? hv hw
      obtain ⟨i, -, hi⟩ | ⟨x, -, hx⟩ := Key.exists_of_number? hv
      · exact ⟨_, hi, hsame.trans hi⟩
      · exact ⟨_, hx, hsame.trans hx⟩
  · rintro ⟨k, hv, hw⟩
    have hinteger : ∀ i, k = .integer i → v.SameSlot w := by
      rintro i rfl
      exact .number (Key.ofLive?_eq_integer_iff.mp hv) (Key.ofLive?_eq_integer_iff.mp hw)
    obtain rfl | ⟨i, hi⟩ := Key.eq_live_of_ofLive? hv
    · obtain rfl | ⟨i, hi⟩ := Key.eq_live_of_ofLive? hw
      · exact sameSlot_live hv
      · exact hinteger i hi
    · exact hinteger i hi

end RemoteInspect
