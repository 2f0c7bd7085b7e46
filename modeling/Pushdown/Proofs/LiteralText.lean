import Pushdown.Proofs.AtomText
import Pushdown.Proofs.NestedReading

/-!
# Constants with the same text

A constant is written without its type, so constants of two types can have the same text. `settled_eq_of_literal`:
constants that are `Alike`, of one type and with items of the same types one by one, are told apart by their texts
but for their unsettled times. Of binary floating-point numbers this is not shown here.
-/

namespace Pushdown

open List

theorem toString_int_injective {m n : Int} (h : toString m = toString n) : m = n := by
  have hread := Json.readInt?_toString m
  rw [h, Json.readInt?_toString n] at hread
  exact (Option.some.inj hread).symm

theorem Date.text_injective {d d' : Date} (h : d.text = d'.text) : d = d' := by
  have hread := d.ofText?_text
  rw [h, d'.ofText?_text] at hread
  exact (Option.some.inj hread).symm

theorem Time.settled_eq_of_text {t t' : Time} (h : t.text = t'.text) : t.settled = t'.settled := by
  have hread := t.ofText?_text
  rw [h, t'.ofText?_text] at hread
  exact (Option.some.inj hread).symm

theorem Timestamp.settled_eq_of_text {t t' : Timestamp} (h : t.text " " = t'.text " ") : t.settled = t'.settled := by
  have htext (t : Timestamp) : (t.text " ").toList = t.date.text.toList ++ ' ' :: t.time.text.toList := by
    rw [Timestamp.text, String.toList_append, String.toList_append]
    simp
  have hread := t.date.scanDate_text (' ' :: t.time.text.toList)
  rw [← htext, h, htext, t'.date.scanDate_text] at hread
  obtain ⟨hdate, hrest⟩ := Prod.mk.inj (Option.some.inj hread)
  have htime := Time.settled_eq_of_text (String.toList_injective (List.cons.inj hrest).2)
  rw [settled, settled, hdate, htime]

namespace Text

theorem byteDigits_upper_injective {b b' : UInt8}
    (h : (byteDigits b).map Char.toUpper = (byteDigits b').map Char.toUpper) : b = b' := by
  have hdigit : ∀ m < 16, ∀ n < 16, (Nat.digitChar m).toUpper = (Nat.digitChar n).toUpper → m = n := by decide
  have hlt := b.toNat_lt
  have hlt' := b'.toNat_lt
  simp only [byteDigits, map_cons, map_nil, List.cons.injEq, and_true] at h
  have hhigh := hdigit _ (by omega) _ (by omega) h.1
  have hlow := hdigit _ (by omega) _ (by omega) h.2
  exact UInt8.toNat_inj.mp (by omega)

theorem hexUpper_injective {bytes bytes' : List UInt8} (h : hexUpper bytes = hexUpper bytes') : bytes = bytes' := by
  rw [hexUpper, hexUpper, String.ofList_inj] at h
  induction bytes generalizing bytes' with
  | nil =>
    cases bytes' with
    | nil => rfl
    | cons b' bytes' => simp [byteDigits] at h
  | cons b bytes ih =>
    cases bytes' with
    | nil => simp [byteDigits] at h
    | cons b' bytes' =>
      rw [flatMap_cons, flatMap_cons, map_append, map_append] at h
      obtain ⟨hhead, htail⟩ := append_inj h rfl
      rw [byteDigits_upper_injective hhead, ih htail]

end Text

namespace Value

open Sql

/-- Constants of the same type, with items of the same types. Floating-point numbers have to be equal. -/
inductive Alike : Value → Value → Prop where
  | refl (v : Value) : Alike v v
  | boolean (a b : Bool) : Alike (.boolean a) (.boolean b)
  | byte (m n : Int8) : Alike (.byte m) (.byte n)
  | short (m n : Int16) : Alike (.short m) (.short n)
  | integer (m n : Int32) : Alike (.integer m) (.integer n)
  | long (m n : Int64) : Alike (.long m) (.long n)
  | bigInteger (m n : BigInteger) : Alike (.bigInteger m) (.bigInteger n)
  | bigDecimal (s t : String) : Alike (.bigDecimal s) (.bigDecimal t)
  | char (c d : Char) : Alike (.char c) (.char d)
  | string (s t : String) : Alike (.string s) (.string t)
  | date (d d' : Date) : Alike (.date d) (.date d')
  | time (t t' : Time) : Alike (.time t) (.time t')
  | timestamp (t t' : Timestamp) : Alike (.timestamp t) (.timestamp t')
  | varbinary (bs bs' : List UInt8) : Alike (.varbinary bs) (.varbinary bs')
  | blob (bs bs' : List UInt8) : Alike (.blob bs) (.blob bs')
  | clob (s t : String) : Alike (.clob s) (.clob t)
  | xml (s t : String) : Alike (.xml s) (.xml t)
  | array {vs ws : List Value} (h : List.Forall₂ Alike vs ws) : Alike (.array vs) (.array ws)

theorem between_injective (before after : String) {s t : String}
    (h : before ++ s ++ after = before ++ t ++ after) : s = t := by
  have hlist := congrArg String.toList h
  simp only [String.toList_append, append_cancel_right_eq, append_cancel_left_eq] at hlist
  exact String.toList_injective hlist

theorem literal_append_inj {v w : Value} (hv : v.isReadable) (hw : w.isReadable) {r r' : List Char} (hr : Stop r)
    (hr' : Stop r') (h : v.literal.toList ++ r = w.literal.toList ++ r') : v.literal = w.literal ∧ r = r' := by
  have hscan := ((isConstant_literal v hv).passes 0).scanAtom hr
  rw [h, ((isConstant_literal w hw).passes 0).scanAtom hr'] at hscan
  obtain ⟨htext, hrest⟩ := Prod.mk.inj hscan
  exact ⟨(String.toList_injective htext).symm, hrest.symm⟩

def afterItem : List Value → List Char
  | [] => []
  | vs => ',' :: ' ' :: (literals vs).toList

theorem toList_literals_cons (v : Value) (vs : List Value) :
    (literals (v :: vs)).toList = v.literal.toList ++ afterItem vs := by
  cases vs <;> simp [literals, afterItem]

theorem stop_afterItem (vs : List Value) : Stop (afterItem vs) := by
  cases vs with
  | nil => exact stop_nil
  | cons v vs => exact .inr (.inl rfl)

theorem afterItem_injective {vs ws : List Value} (h : afterItem vs = afterItem ws) : literals vs = literals ws := by
  cases vs <;> cases ws <;> simp_all [afterItem, literals, String.toList_inj]

mutual

theorem settled_eq_of_literal {v w : Value} (h : Alike v w) (hv : v.isReadable) (hw : w.isReadable)
    (htext : v.literal = w.literal) : v.settled = w.settled := by
  cases h with
  | refl => rfl
  | boolean a b => cases a <;> cases b <;> first | rfl | exact absurd htext (by decide)
  | byte m n => rw [Int8.toInt_inj.mp (toString_int_injective htext)]
  | short m n => rw [Int16.toInt_inj.mp (toString_int_injective htext)]
  | integer m n => rw [Int32.toInt_inj.mp (toString_int_injective htext)]
  | long m n => rw [Int64.toInt_inj.mp (toString_int_injective htext)]
  | bigInteger m n =>
    obtain ⟨m, _, _⟩ := m
    obtain ⟨n, _, _⟩ := n
    obtain rfl : m = n := toString_int_injective htext
    rfl
  | bigDecimal s t => exact congrArg bigDecimal htext
  | char c d =>
    have hchar := String.ofList_inj.mp (quoted_injective htext)
    rw [(List.cons.inj hchar).1]
  | string s t | clob s t | xml s t => rw [quoted_injective htext]
  | date d d' => rw [Date.text_injective (between_injective _ _ htext)]
  | time t t' => rw [settled, settled, Time.settled_eq_of_text (between_injective _ _ htext)]
  | timestamp t t' => rw [settled, settled, Timestamp.settled_eq_of_text (between_injective _ _ htext)]
  | varbinary bs bs' | blob bs bs' => rw [Text.hexUpper_injective (between_injective _ _ htext)]
  | array h =>
    rw [literal, literal] at htext
    rw [settled, settled, allSettled_eq_of_literals h hv hw (between_injective _ _ htext)]
termination_by sizeOf v

theorem allSettled_eq_of_literals {vs ws : List Value} (h : List.Forall₂ Alike vs ws) (hvs : allReadable vs)
    (hws : allReadable ws) (htext : literals vs = literals ws) : allSettled vs = allSettled ws := by
  cases h with
  | nil => rfl
  | cons hhead htail =>
    rw [allReadable, Bool.and_eq_true] at hvs hws
    have hlist := congrArg String.toList htext
    rw [toList_literals_cons, toList_literals_cons] at hlist
    obtain ⟨hitem, hrest⟩ := literal_append_inj hvs.1 hws.1 (stop_afterItem _) (stop_afterItem _) hlist
    rw [allSettled, allSettled, settled_eq_of_literal hhead hvs.1 hws.1 hitem,
      allSettled_eq_of_literals htail hvs.2 hws.2 (afterItem_injective hrest)]
termination_by sizeOf vs

end

end Value

end Pushdown
