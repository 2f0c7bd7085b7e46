import Pushdown.Proofs.Outcome
import Pushdown.Proofs.StoredOrder

/-!
# Stored values read back

`ofStored_toStored_iff`: a value is stored and then read for the type it has. Where the store of large objects is
`Faithful`, the reading gives back the value, with two exceptions: numbers that are stored in double precision
(`noDouble`), and times of day that are no whole number of milliseconds (`isWhole`).

Content is read long after it was stored, with other content stored since. So the reading takes place in any state
that `Retains` the content of the value.
-/

namespace Pushdown

open List Attempt Option Timestamp Value

namespace LargeObjects

variable {σ : Type} {objects : LargeObjects σ} {s s' s'' : σ}

def Retains (objects : LargeObjects σ) (s s' : σ) : Prop :=
  ∀ id bytes, objects.fetch s id = .ok bytes → objects.fetch s' id = .ok bytes

theorem Retains.refl (s : σ) : objects.Retains s s := fun _ _ h => h

theorem Retains.trans (h : objects.Retains s s') (h' : objects.Retains s' s'') : objects.Retains s s'' :=
  fun id bytes hid => h' id bytes (h id bytes hid)

/-- A store of large objects that keeps what it is given. It takes all content, under identifiers that
were not in use, and nothing else changes. -/
structure Faithful (objects : LargeObjects σ) : Prop where
  takes : ∀ content s, ∃ id s', objects.put content s = (.ok id, s')
  found : ∀ {content s id s'}, objects.put content s = (.ok id, s') → objects.fetch s' id = .ok content
  fresh : ∀ {content s id s'}, objects.put content s = (.ok id, s') → ∀ bytes, objects.fetch s id ≠ .ok bytes
  others : ∀ {content s id s'}, objects.put content s = (.ok id, s') →
    ∀ other, other ≠ id → objects.fetch s' other = objects.fetch s other

def numbered : LargeObjects (List (List UInt8)) where
  put content s := (.ok (toString s.length), s ++ [content])
  fetch s id :=
    match (List.range s.length).find? (fun i => toString i == id) with
    | some i => .ok (s.getD i [])
    | none => .error (.largeObjectNotFound id)

theorem numbered_fetch_concat (s : List (List UInt8)) (content : List UInt8) :
    numbered.fetch (s ++ [content]) (toString s.length) = .ok content := by
  have hfind : (List.range (s ++ [content]).length).find? (fun i => toString i == toString s.length) =
      some s.length := by
    refine find?_range_eq_some.mpr ⟨beq_self_eq_true _, by simp, fun i hi => ?_⟩
    simpa using fun heq => Nat.ne_of_lt hi (toString_injective heq)
  simp only [numbered, hfind]
  simp

theorem numbered_fetch_length (s : List (List UInt8)) :
    numbered.fetch s (toString s.length) = .error (.largeObjectNotFound (toString s.length)) := by
  have hfind : (List.range s.length).find? (fun i => toString i == toString s.length) = none := by
    refine find?_range_eq_none.mpr fun i hi => ?_
    simpa using fun heq => Nat.ne_of_lt hi (toString_injective heq)
  simp only [numbered, hfind]

theorem numbered_fetch_of_ne (s : List (List UInt8)) (content : List UInt8) {id : String}
    (hid : id ≠ toString s.length) : numbered.fetch (s ++ [content]) id = numbered.fetch s id := by
  have hlast : [s.length].find? (fun i => toString i == id) = none := by
    simpa using fun heq => hid heq.symm
  simp only [numbered, length_append, length_singleton, range_succ, find?_append, hlast, or_none]
  cases hfind : (List.range s.length).find? fun i => toString i == id with
  | none => rfl
  | some i =>
    have hi : i < s.length := mem_range.mp (mem_of_find?_eq_some hfind)
    simp only [getD_append _ _ _ _ hi]

theorem numbered_faithful : numbered.Faithful where
  takes content s := ⟨_, _, rfl⟩
  found h := by
    cases h
    exact numbered_fetch_concat _ _
  fresh h bytes := by
    cases h
    rw [numbered_fetch_length]
    intro heq
    cases heq
  others h other hother := by
    cases h
    exact numbered_fetch_of_ne _ _ hother

end LargeObjects

/-! ### Text as bytes -/

namespace Text

theorem byteArray_toList_loop (bytes : ByteArray) (i : Nat) (done : List UInt8) :
    ByteArray.toList.loop bytes i done = done.reverse ++ bytes.data.toList.drop i := by
  fun_induction ByteArray.toList.loop bytes i done with
  | case1 i done hi ih =>
    have hget : bytes.get! i = bytes.data[i] := getElem!_pos bytes.data i hi
    have hdrop : bytes.data.toList.drop i = bytes.data[i] :: bytes.data.toList.drop (i + 1) := drop_eq_getElem_cons hi
    rw [ih, hget, hdrop, reverse_cons, append_assoc, singleton_append]
  | case2 i done hi =>
    have hdrop : bytes.data.toList.drop i = [] := drop_eq_nil_of_le (Nat.le_of_not_lt hi)
    rw [hdrop, append_nil]

theorem byteArray_toList (bytes : ByteArray) : bytes.toList = bytes.data.toList :=
  byteArray_toList_loop bytes 0 []

theorem ofUtf8?_utf8 (s : String) : ofUtf8? (utf8 s) = some s := by
  rw [ofUtf8?, utf8, byteArray_toList]
  exact dif_pos s.isValidUTF8

end Text

/-! ### Moments -/

namespace Timestamp

theorem ofEpochMillis?_epochMillis {t : Timestamp} (ht : t.time.isWhole) : ofEpochMillis? t.epochMillis = some t := by
  obtain ⟨hmilli, hsecond⟩ := t.time.isWhole_iff.mp ht
  have hsec := t.time.second_lt
  have hday : t.epochMillis / 86400000 = t.date.day := by rw [epochMillis]; omega
  have hrest : (t.epochMillis % 86400000).toNat = t.time.second * 1000 + t.time.nano / 1000000 := by
    rw [epochMillis]; omega
  have hdate : Date.ofDay? t.date.day = some t.date := dif_pos ⟨t.date.notBefore, t.date.notAfter⟩
  have htime : ∀ h, timeOfMillis (t.epochMillis % 86400000).toNat h = t.time := by
    intro h
    have hsame : (t.epochMillis % 86400000).toNat / 1000 = t.time.second ∧
        (t.epochMillis % 86400000).toNat % 1000 * 1000000 = t.time.nano := by
      rw [hrest]
      omega
    exact Time.mk.injEq .. ▸ hsame
  rw [ofEpochMillis?, hday, hdate]
  simp only [htime]

theorem isWhole_of_ofEpochMillis? {millis : Int} {t : Timestamp} (h : ofEpochMillis? millis = some t) :
    t.time.isWhole := by
  rw [ofEpochMillis?] at h
  split at h
  · cases h
    exact (Time.isWhole_iff _).mpr ⟨Nat.mul_mod_left .., by dsimp only [timeOfMillis]; omega⟩
  · cases h

theorem midnight_isWhole : Time.midnight.isWhole := by decide

end Timestamp

namespace Value

/-! ### Values by type -/

mutual

/-- Whether a value is NULL or of the given type. The items of an array are NULL or of the type of its
components. -/
def isOf : Value → SqlType → Bool
  | .null, _ => true
  | .array items, .array component => allOf items component
  | .array _, _ => false
  | v, type => v.type? == some type

def allOf : List Value → SqlType → Bool
  | [], _ => true
  | v :: vs, component => v.isOf component && allOf vs component

end

mutual

theorem type_eq_of_isOf (v : Value) {type t : SqlType} (hof : v.isOf type) (ht : v.type? = some t) : t = type := by
  cases v with
  | null => cases ht
  | array items =>
    cases type with
    | array component =>
      rw [isOf] at hof
      rw [type?] at ht
      obtain ⟨c, hc, rfl⟩ := map_eq_some_iff.mp ht
      rw [firstType_eq_of_allOf items hof hc]
    | _ => cases hof
  | _ =>
    cases ht
    simpa [isOf, type?] using hof

theorem firstType_eq_of_allOf : ∀ (vs : List Value) {component t : SqlType}, allOf vs component →
    firstType? vs = some t → t = component
  | [], _, _, _, ht => by cases ht
  | v :: vs, _, _, hof, ht => by
    rw [allOf, Bool.and_eq_true] at hof
    rw [firstType?] at ht
    split at ht
    · cases ht
      exact type_eq_of_isOf v hof.1 ‹_›
    · exact firstType_eq_of_allOf vs hof.2 ht

end

mutual

/-- Whether a value holds no number that is stored in double precision. -/
def noDouble : Value → Bool
  | .float _ | .double _ | .bigInteger _ | .bigDecimal _ => false
  | .array items => noDoubles items
  | _ => true

def noDoubles : List Value → Bool
  | [] => true
  | v :: vs => v.noDouble && noDoubles vs

end

mutual

/-- Whether the times of day in a value are whole numbers of milliseconds and no leap seconds. -/
def isWhole : Value → Bool
  | .time t => t.isWhole
  | .timestamp t => t.time.isWhole
  | .array items => allWhole items
  | _ => true

def allWhole : List Value → Bool
  | [] => true
  | v :: vs => v.isWhole && allWhole vs

end

/-! ### Reading what was stored -/

variable {σ : Type} {objects : LargeObjects σ} {fetch : String → Except StoreError (List UInt8)}
  {id text : String} {t : Timestamp}

theorem ofStored_referent (type : SqlType) (b : Bson) :
    ofStoredPlain fetch type ((referent? none b).getD .null) = ofStored fetch type b := by
  rw [ofStored, ofReference]
  cases referent? none b with
  | none => simp only [getD_none, ofStoredPlain]
  | some b => rfl

theorem ofStored_array_ok_iff {component : SqlType} {bs : List Bson} {vs : List Value} :
    ofStored fetch (.array component) (.array bs) = .ok (.array vs) ↔
      List.Forall₂ (fun b v => ofStored fetch component b = .ok v) bs vs := by
  rw [← mapM_ok_iff]
  have heq : ofStored fetch (.array component) (.array bs) =
      bs.mapM (ofStored fetch component) >>= fun vs => .ok (.array vs) := by
    show ofStoredPlain fetch (.array component) (.array bs) = _
    simp only [ofStoredPlain, ofStored_referent]
    rfl
  rw [heq]
  constructor
  · intro h
    obtain ⟨vs', hvs, h⟩ := exists_of_bind_ok h
    cases h
    exact hvs
  · intro h
    rw [h]
    rfl

theorem ofMoment_isWhole {millis : Int64} (h : ofMoment millis = .ok t) : t.time.isWhole := by
  rw [ofMoment] at h
  split at h
  · cases h
    exact isWhole_of_ofEpochMillis? ‹_›
  · cases h

theorem ofMoment_moment (ht : t.time.isWhole) : ofMoment (Int64.ofInt t.epochMillis) = .ok t := by
  rw [ofMoment, t.toInt_ofInt_epochMillis, ofEpochMillis?_epochMillis ht]

/-! ### States passed through -/

theorem retains_bind {ε α β : Type} {x : Attempt σ ε α} {f : α → Attempt σ ε β} {s : σ}
    (hx : objects.Retains s (x s).2) (hf : ∀ a s₁, objects.Retains s₁ (f a s₁).2) :
    objects.Retains s ((x >>= f) s).2 := by
  rcases hxs : x s with ⟨r, s₁⟩
  rw [hxs] at hx
  cases r with
  | ok a =>
    rw [bind_of_ok hxs]
    exact hx.trans (hf a s₁)
  | error e =>
    rw [bind_of_error hxs]
    exact hx

theorem retains_storeContent (hobjects : objects.Faithful) (content : List UInt8) (s : σ) :
    objects.Retains s (storeContent objects content s).2 := by
  obtain ⟨id, s', hput⟩ := hobjects.takes content s
  rw [storeContent, hput]
  intro other bytes hother
  rw [hobjects.others hput other]
  · exact hother
  · rintro rfl
    exact hobjects.fresh hput bytes hother

mutual

theorem retains_toStored (hobjects : objects.Faithful) (v : Value) (s : σ) :
    objects.Retains s (v.toStored objects s).2 := by
  cases v with
  | array items =>
    rw [toStored]
    exact retains_bind (retains_listToStored hobjects items s) fun _ s₁ => .refl s₁
  | blob bytes => exact retains_storeContent hobjects bytes s
  | clob text | xml text => exact retains_storeContent hobjects (Text.utf8 text) s
  | bigDecimal text =>
    rw [toStored]
    cases readFloat? text with
    | none | some x => exact .refl s
  | _ => exact .refl s

theorem retains_listToStored (hobjects : objects.Faithful) : ∀ (vs : List Value) (s : σ),
    objects.Retains s (listToStored objects vs s).2
  | [], s => .refl s
  | v :: vs, s => by
    rw [listToStored]
    exact retains_bind (retains_toStored hobjects v s) fun _ s₁ =>
      retains_bind (retains_listToStored hobjects vs s₁) fun _ s₂ => .refl s₂

end

/-! ### Reading back -/

/-- The value is stored in state `s`. It is read back, wherever its content is found, just when its
times of day are whole. -/
def ReadsBack (objects : LargeObjects σ) (v : Value) (type : SqlType) (s : σ) : Prop :=
  ∃ b s', v.toStored objects s = (.ok b, s') ∧
    ∀ s'', objects.Retains s' s'' → (ofStored (objects.fetch s'') type b = .ok v ↔ v.isWhole)

theorem readsBack_of_pure {v : Value} {type own : SqlType} {b : Bson} (s : σ) (hof : v.isOf type)
    (hown : v.type? = some own) (hb : v.toStored objects = pure b)
    (h : ∀ fetch, ofStored fetch own b = .ok v ↔ v.isWhole) : ReadsBack objects v type s := by
  obtain rfl := v.type_eq_of_isOf hof hown
  exact ⟨b, s, by rw [hb]; rfl, fun s'' _ => h (objects.fetch s'')⟩

theorem readsBack_of_content (hobjects : objects.Faithful) {v : Value} {type own : SqlType}
    {content : List UInt8} (s : σ) (hof : v.isOf type) (hown : v.type? = some own)
    (hv : v.toStored objects = storeContent objects content) (hwhole : v.isWhole)
    (h : ∀ fetch id, fetch id = .ok content → ofStored fetch own (.string id) = .ok v) :
    ReadsBack objects v type s := by
  obtain rfl := v.type_eq_of_isOf hof hown
  obtain ⟨id, s', hput⟩ := hobjects.takes content s
  refine ⟨.string id, s', by rw [hv, storeContent, hput], fun s'' hs'' => ?_⟩
  exact iff_of_true (h _ id (hs'' id content (hobjects.found hput))) hwhole

/-! Whole numbers are read as integers of 64 bits and brought back into the width they had. -/

theorem coerceInt?_int32 (n : Int32) : coerceInt? (.int32 n) = some n.toInt := rfl

theorem coerceInt?_int64 (n : Int64) : coerceInt? (.int64 n) = some n.toInt := rfl

theorem ofStored_byte (n : Int8) : ofStored fetch .byte (.int32 n.toInt32) = .ok (.byte n) := by
  have hrange : within? (-128) 127 (some n.toInt) = some n.toInt :=
    if_pos ⟨n.le_toInt, Int.le_of_lt_add_one n.toInt_lt⟩
  show coerce .byte (.int32 n.toInt32) = _
  simp only [coerce, coerceFloat?, coerceInt?_int32, Int8.toInt_toInt32, hrange, map_some, Int8.ofInt_toInt]
  rfl

theorem ofStored_short (n : Int16) : ofStored fetch .short (.int32 n.toInt32) = .ok (.short n) := by
  have hrange : within? (-32768) 32767 (some n.toInt) = some n.toInt :=
    if_pos ⟨n.le_toInt, Int.le_of_lt_add_one n.toInt_lt⟩
  show coerce .short (.int32 n.toInt32) = _
  simp only [coerce, coerceFloat?, coerceInt?_int32, Int16.toInt_toInt32, hrange, map_some, Int16.ofInt_toInt]
  rfl

theorem ofStored_integer (n : Int32) : ofStored fetch .integer (.int32 n) = .ok (.integer n) := by
  have hrange : within? (-2147483648) 2147483647 (some n.toInt) = some n.toInt :=
    if_pos ⟨n.le_toInt, Int.le_of_lt_add_one n.toInt_lt⟩
  show coerce .integer (.int32 n) = _
  simp only [coerce, coerceFloat?, coerceInt?_int32, hrange, map_some, Int32.ofInt_toInt]
  rfl

theorem ofStored_long (n : Int64) : ofStored fetch .long (.int64 n) = .ok (.long n) := by
  show coerce .long (.int64 n) = _
  simp only [coerce, coerceFloat?, coerceInt?_int64, map_some, Int64.ofInt_toInt]
  rfl

theorem ofStored_char (c : Char) : ofStored fetch .char (.string (String.ofList [c])) = .ok (.char c) := by
  show ofStoredPlain fetch .char (.string (String.ofList [c])) = _
  simp only [ofStoredPlain, String.toList_ofList]

theorem ofStored_date (d : Date) : ofStored fetch .date (moment ⟨d, .midnight⟩) = .ok (.date d) := by
  show (ofMoment (Int64.ofInt (epochMillis ⟨d, .midnight⟩)) >>= fun t => .ok (date t.date)) = _
  rw [ofMoment_moment midnight_isWhole]
  rfl

theorem ofStored_time_iff {t : Time} : ofStored fetch .time (moment ⟨.epoch, t⟩) = .ok (.time t) ↔ t.isWhole := by
  show (ofMoment (Int64.ofInt (epochMillis ⟨.epoch, t⟩)) >>= fun t => .ok (time t.time)) = _ ↔ _
  constructor
  · intro h
    obtain ⟨t', ht', h⟩ := exists_of_bind_ok h
    cases h
    exact ofMoment_isWhole ht'
  · intro h
    rw [ofMoment_moment h]
    rfl

theorem ofStored_timestamp_iff : ofStored fetch .timestamp (moment t) = .ok (.timestamp t) ↔ t.time.isWhole := by
  show (ofMoment (Int64.ofInt t.epochMillis) >>= fun t => .ok (timestamp t)) = _ ↔ _
  constructor
  · intro h
    obtain ⟨t', ht', h⟩ := exists_of_bind_ok h
    cases h
    exact ofMoment_isWhole ht'
  · intro h
    rw [ofMoment_moment h]
    rfl

theorem contentText_ok (h : fetch id = .ok (Text.utf8 text)) : contentText fetch id = .ok text := by
  have hcontent : content fetch id = .ok (Text.utf8 text) := by rw [content, h]
  rw [contentText, hcontent]
  simp only [bind, Except.bind, Text.ofUtf8?_utf8]
  rfl

theorem ofStored_blob {id : String} {bytes : List UInt8} (h : fetch id = .ok bytes) :
    ofStored fetch .blob (.string id) = .ok (.blob bytes) := by
  have hcontent : content fetch id = .ok bytes := by rw [content, h]
  show (content fetch id >>= fun bytes => .ok (blob bytes)) = _
  rw [hcontent]
  rfl

theorem ofStored_clob (h : fetch id = .ok (Text.utf8 text)) :
    ofStored fetch .clob (.string id) = .ok (.clob text) := by
  show (contentText fetch id >>= fun text => .ok (clob text)) = _
  rw [contentText_ok h]
  rfl

theorem ofStored_xml (h : fetch id = .ok (Text.utf8 text)) : ofStored fetch .xml (.string id) = .ok (.xml text) := by
  show (contentText fetch id >>= fun text => .ok (xml text)) = _
  rw [contentText_ok h]
  rfl

mutual

/-- The items of an array are stored one after the other, and what was stored for the first is still
found after the last. -/
theorem readsBack (hobjects : objects.Faithful) : ∀ (v : Value) {type : SqlType}, v.isOf type →
    v.noDouble → ∀ s, ReadsBack objects v type s
  | .array items, type, hof, hdouble, s => by
    cases type with
    | array component =>
      rw [isOf] at hof
      rw [noDouble] at hdouble
      obtain ⟨bs, s', hstored, hread⟩ := listReadsBack hobjects items hof hdouble s
      refine ⟨.array bs, s', by rw [toStored, bind_of_ok hstored]; rfl, ?_⟩
      intro s'' hs''
      rw [ofStored_array_ok_iff, hread s'' hs'', isWhole]
    | _ => cases hof
  | .null, type, _, _, s => ⟨.null, s, rfl, fun _ _ => iff_of_true (by cases type <;> rfl) rfl⟩
  | .boolean b, _, hof, _, s => readsBack_of_pure s hof rfl rfl fun _ => iff_of_true rfl rfl
  | .byte n, _, hof, _, s => readsBack_of_pure s hof rfl rfl fun _ => iff_of_true (ofStored_byte n) rfl
  | .short n, _, hof, _, s => readsBack_of_pure s hof rfl rfl fun _ => iff_of_true (ofStored_short n) rfl
  | .integer n, _, hof, _, s => readsBack_of_pure s hof rfl rfl fun _ => iff_of_true (ofStored_integer n) rfl
  | .long n, _, hof, _, s => readsBack_of_pure s hof rfl rfl fun _ => iff_of_true (ofStored_long n) rfl
  | .float _, _, _, hdouble, _ | .double _, _, _, hdouble, _ | .bigInteger _, _, _, hdouble, _
  | .bigDecimal _, _, _, hdouble, _ => by cases hdouble
  | .char c, _, hof, _, s => readsBack_of_pure s hof rfl rfl fun _ => iff_of_true (ofStored_char c) rfl
  | .string text, _, hof, _, s => readsBack_of_pure s hof rfl rfl fun _ => iff_of_true rfl rfl
  | .date d, _, hof, _, s => readsBack_of_pure s hof rfl rfl fun _ => iff_of_true (ofStored_date d) rfl
  | .time t, _, hof, _, s => readsBack_of_pure s hof rfl rfl fun _ => ofStored_time_iff
  | .timestamp t, _, hof, _, s => readsBack_of_pure s hof rfl rfl fun _ => ofStored_timestamp_iff
  | .varbinary bytes, _, hof, _, s => readsBack_of_pure s hof rfl rfl fun _ => iff_of_true rfl rfl
  | .blob bytes, _, hof, _, s => readsBack_of_content hobjects s hof rfl rfl rfl fun _ _ => ofStored_blob
  | .clob text, _, hof, _, s => readsBack_of_content hobjects s hof rfl rfl rfl fun _ _ => ofStored_clob
  | .xml text, _, hof, _, s => readsBack_of_content hobjects s hof rfl rfl rfl fun _ _ => ofStored_xml

theorem listReadsBack (hobjects : objects.Faithful) : ∀ (vs : List Value) {component : SqlType},
    allOf vs component → noDoubles vs → ∀ s, ∃ bs s', listToStored objects vs s = (.ok bs, s') ∧
      ∀ s'', objects.Retains s' s'' →
        (List.Forall₂ (fun b v => ofStored (objects.fetch s'') component b = .ok v) bs vs ↔ allWhole vs)
  | [], _, _, _, s => ⟨[], s, rfl, fun _ _ => iff_of_true .nil rfl⟩
  | v :: vs, _, hof, hdouble, s => by
    rw [allOf, Bool.and_eq_true] at hof
    rw [noDoubles, Bool.and_eq_true] at hdouble
    obtain ⟨b, s₁, hb, hread⟩ := readsBack hobjects v hof.1 hdouble.1 s
    obtain ⟨bs, s₂, hbs, hreads⟩ := listReadsBack hobjects vs hof.2 hdouble.2 s₁
    have hretains : objects.Retains s₁ s₂ := by
      have := retains_listToStored hobjects vs s₁
      rwa [hbs] at this
    refine ⟨b :: bs, s₂, ?_, fun s'' hs'' => ?_⟩
    · rw [listToStored, bind_of_ok hb, bind_of_ok hbs]
      rfl
    · rw [forall₂_cons, hread s'' (hretains.trans hs''), hreads s'' hs'', allWhole, Bool.and_eq_true]

end

/-- A value without numbers of double precision is stored, and then read back for its type just when
its times of day are whole milliseconds: at once, and after any other values have been stored. -/
theorem ofStored_toStored_iff (hobjects : objects.Faithful) {v : Value} {type : SqlType}
    (hof : v.isOf type) (hdouble : v.noDouble) (s : σ) :
    ∃ b s', v.toStored objects s = (.ok b, s') ∧
      ∀ later : List Value,
        ofStored (objects.fetch (listToStored objects later s').2) type b = .ok v ↔ v.isWhole := by
  obtain ⟨b, s', hstored, hread⟩ := readsBack hobjects v hof hdouble s
  exact ⟨b, s', hstored, fun later => hread _ (retains_listToStored hobjects later s')⟩

/-- Texts in lists of lists, with NULL among the lists and among the texts. -/
def nestedTexts : Value :=
  .array [.array [.clob "naïve", .null], .null, .array [.clob "", .clob "naïve"]]

/-- The last millisecond of the first day of the calendar, and a nanosecond after the first second of
1970. -/
def earlyMoments : Value :=
  .array [.timestamp ⟨⟨-96465292, by decide, by decide⟩, ⟨86399, 999000000, by decide, by decide⟩⟩,
    .timestamp ⟨.epoch, ⟨1, 1, by decide, by decide⟩⟩]

/-- Nested texts come back from the store; of the two moments, the one after 1970 keeps the list from being read
back. -/
theorem ofStored_toStored_texts_and_moments :
    (nestedTexts.isOf (.array (.array .clob)) ∧ nestedTexts.noDouble ∧ nestedTexts.isWhole ∧
      ∃ b s', nestedTexts.toStored .numbered [] = (.ok b, s') ∧
        ∀ later : List Value,
          ofStored (LargeObjects.numbered.fetch (listToStored .numbered later s').2)
            (.array (.array .clob)) b = .ok nestedTexts ↔ nestedTexts.isWhole) ∧
    earlyMoments.isOf (.array .timestamp) ∧ earlyMoments.noDouble ∧ ¬ earlyMoments.isWhole ∧
      ∃ b s', earlyMoments.toStored .numbered [] = (.ok b, s') ∧
        ∀ later : List Value,
          ofStored (LargeObjects.numbered.fetch (listToStored .numbered later s').2)
            (.array .timestamp) b = .ok earlyMoments ↔ earlyMoments.isWhole :=
  ⟨⟨by decide, by decide, by decide,
      ofStored_toStored_iff LargeObjects.numbered_faithful (by decide) (by decide) []⟩,
    by decide, by decide, by decide,
    ofStored_toStored_iff LargeObjects.numbered_faithful (by decide) (by decide) []⟩

end Value

end Pushdown
