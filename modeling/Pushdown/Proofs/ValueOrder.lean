import Pushdown.Proofs.DoubleOrder
import Pushdown.Write.Evaluation

/-!
# The order of values

`Reading`: values are compared by what is read from them, numbers by sign and size, texts, truth values, moments,
times of day and bytes each among themselves. A value is read in one of these ways at most (`of?`), and what is read
lies in an order, so that comparisons are those of an order wherever they are possible (`comparisons_consistent`).
-/

namespace Pushdown

/-- The ways to read a value for a comparison. -/
inductive Reading where
  | number
  | text
  | truth
  | moment
  | time
  | bytes

namespace Reading

abbrev Result : Reading → Type
  | .number => Int × Int × Int
  | .text => String
  | .truth => Bool
  | .moment => Timestamp
  | .time => Time
  | .bytes => List UInt8

def order : (r : Reading) → r.Result → r.Result → Ordering
  | .number => Double.orderPlaces
  | .text => compare
  | .truth => compare
  | .moment => Timestamp.compare
  | .time => Time.compare
  | .bytes => List.compareLex compare

def read? : (r : Reading) → Value → Option r.Result
  | .number, v => v.float?.bind fun x => Double.place? (Double.parts x)
  | .text, v => v.text?
  | .truth, v => v.truth?
  | .moment, .date d => some ⟨d, .midnight⟩
  | .moment, .timestamp t => some t
  | .time, .time t => some t
  | .bytes, v => v.bytes?
  | _, _ => none

instance : Std.TransCmp Time.compare :=
  inferInstanceAs (Std.TransCmp (compareLex (compareOn Time.second) (compareOn Time.nano)))

instance : Std.TransCmp Timestamp.compare :=
  inferInstanceAs (Std.TransCmp (compareLex (compareOn fun t : Timestamp => t.date.day)
    (compareLex (compareOn fun t => t.time.second) (compareOn fun t => t.time.nano))))

instance : (r : Reading) → Std.TransCmp r.order
  | .number => inferInstanceAs (Std.TransCmp Double.orderPlaces)
  | .text => inferInstanceAs (Std.TransOrd String)
  | .truth => inferInstanceAs (Std.TransOrd Bool)
  | .moment => inferInstanceAs (Std.TransCmp Timestamp.compare)
  | .time => inferInstanceAs (Std.TransCmp Time.compare)
  | .bytes => inferInstanceAs (Std.TransCmp (List.compareLex (α := UInt8) compare))

variable {r : Reading} {a b v : Value} {o : Ordering} {x y : r.Result}

/-- How a value is read, if it can be compared at all. -/
def of? : Value → Option Reading
  | .byte _ | .short _ | .integer _ | .long _ | .float _ | .double _ | .bigInteger _ | .bigDecimal _ => some .number
  | .char _ | .string _ | .clob _ | .xml _ => some .text
  | .boolean _ => some .truth
  | .date _ | .timestamp _ => some .moment
  | .time _ => some .time
  | .varbinary _ | .blob _ => some .bytes
  | .null | .array _ => none

theorem of?_of_read? (h : r.read? v = some x) : of? v = some r := by
  cases r <;> cases v <;> first | rfl | cases h

theorem compare?_of_read? (hx : r.read? a = some x) (hy : r.read? b = some y) : a.compare? b = some (r.order x y) := by
  cases r with
  | number =>
    obtain ⟨f, hf, hx⟩ := Option.bind_eq_some_iff.mp hx
    obtain ⟨g, hg, hy⟩ := Option.bind_eq_some_iff.mp hy
    simp only [Value.compare?, hf, hg, Double.compareFloat_eq, Double.compare_eq_places, hx, hy]
    rfl
  | moment =>
    cases a <;> cases hx <;> cases b <;> cases hy
    case moment.date.refl.date.refl => exact congrArg some (Ordering.then_eq ..).symm
    all_goals rfl
  | _ => cases a <;> cases hx <;> cases b <;> cases hy <;> rfl

theorem exists_of_compare? (h : a.compare? b = some o) :
    ∃ (r : Reading) (x y : r.Result), r.read? a = some x ∧ r.read? b = some y ∧ r.order x y = o := by
  unfold Value.compare? at h
  split at h
  · rename_i f g hf hg
    rw [Double.compareFloat_eq, Double.compare_eq_places] at h
    obtain ⟨x, hx, h⟩ := Option.bind_eq_some_iff.mp h
    obtain ⟨y, hy, h⟩ := Option.map_eq_some_iff.mp h
    exact ⟨.number, x, y, by rw [read?, hf]; exact hx, by rw [read?, hg]; exact hy, h⟩
  · split at h
    · rename_i s t hs ht
      exact ⟨.text, s, t, hs, ht, Option.some.inj h⟩
    · unfold Value.compareKinds at h
      split at h
      · cases h
        exact ⟨.truth, _, _, rfl, rfl, rfl⟩
      · cases h
        exact ⟨.moment, _, _, rfl, rfl, Ordering.then_eq ..⟩
      · cases h
        exact ⟨.time, _, _, rfl, rfl, rfl⟩
      iterate 3
        · cases h
          exact ⟨.moment, _, _, rfl, rfl, rfl⟩
      · split at h
        · cases h
          exact ⟨.bytes, _, _, ‹_›, ‹_›, rfl⟩
        · cases h

end Reading

namespace Value

variable {a b c : Value}

theorem compare?_swap (a b : Value) : b.compare? a = (a.compare? b).map Ordering.swap := by
  ext o
  rw [Option.map_eq_some_iff]
  constructor
  · intro h
    obtain ⟨r, x, y, hx, hy, rfl⟩ := Reading.exists_of_compare? h
    exact ⟨_, Reading.compare?_of_read? hy hx, Std.OrientedCmp.eq_swap.symm⟩
  · rintro ⟨o, h, rfl⟩
    obtain ⟨r, x, y, hx, hy, rfl⟩ := Reading.exists_of_compare? h
    exact (Reading.compare?_of_read? hy hx).trans (congrArg some Std.OrientedCmp.eq_swap)

theorem compare?_trans {o o' : Ordering} (h : a.compare? b = some o) (h' : b.compare? c = some o')
    (ho : o ≠ .gt) (ho' : o' ≠ .gt) : ∃ o'', a.compare? c = some o'' ∧ o'' ≠ .gt := by
  obtain ⟨r, x, y, hx, hy, rfl⟩ := Reading.exists_of_compare? h
  obtain ⟨r', y', z, hy', hz, rfl⟩ := Reading.exists_of_compare? h'
  cases (Reading.of?_of_read? hy).symm.trans (Reading.of?_of_read? hy')
  cases hy.symm.trans hy'
  exact ⟨_, Reading.compare?_of_read? hx hz, Std.TransCmp.le_trans ho ho'⟩

/-- Values that can be compared lie in an order, and a comparison has the same result with its sides
swapped. -/
theorem comparisons_consistent (a b c : Value) (op : ComparisonOp) :
    (∀ o, a.compare? b = some o → b.compare? a = some o.swap) ∧
    (∀ o o', a.compare? b = some o → b.compare? c = some o' → o ≠ .gt → o' ≠ .gt →
      ∃ o'', a.compare? c = some o'' ∧ o'' ≠ .gt) ∧
    op.evaluate a b = op.flip.evaluate b a := by
  refine ⟨fun o h => ?_, fun o o' => compare?_trans, ?_⟩
  · rw [compare?_swap, h]
    rfl
  · rw [ComparisonOp.evaluate, ComparisonOp.evaluate, compare?_swap a b, Option.map_map]
    congr 2
    exact funext fun o => (op.holds_flip o).symm

end Value

end Pushdown
