import Pushdown.Proofs.ComputedValue
import Pushdown.Proofs.DraftSteps
import Pushdown.Proofs.Parts

/-!
# Texts read as fields

`fieldTexts`: the texts of an expression that the store reads as fields, since they start with a mark and are not
given as literals. `fieldTexts_compile`: those of a compiled expression are the fields of its columns, or the places
of its parts in a group (`Grounded`). Of its constants only the items of arrays are read so: a marked text in an
array is taken for a field.
-/

namespace Pushdown

open List Attempt Expression

/-! ### Texts of values -/

namespace Bson

mutual

def fieldTexts : Bson → List String
  | .string s => if isMarked s then [s] else []
  | .array items => fieldTextsOf items
  | .document fields => fieldTextsIn fields
  | _ => []

def fieldTextsOf : List Bson → List String
  | [] => []
  | b :: bs => fieldTexts b ++ fieldTextsOf bs

def fieldTextsIn : List (String × Bson) → List String
  | [] => []
  | (key, b) :: fields => (if key = "$literal" then [] else fieldTexts b) ++ fieldTextsIn fields

end

@[simp] theorem fieldTexts_fieldRef (path : String) : (fieldRef path).fieldTexts = ["$" ++ path] := by
  rw [fieldRef, fieldTexts, if_pos (isMarked_fieldRef path)]

theorem fieldTexts_op {name : String} (hname : name ≠ "$literal") (b : Bson) :
    (op name b).fieldTexts = b.fieldTexts := by
  simp [op, fieldTexts, fieldTextsIn, hname]

theorem fieldTexts_opList {name : String} (hname : name ≠ "$literal") (bs : List Bson) :
    (opList name bs).fieldTexts = fieldTextsOf bs := by
  rw [opList, fieldTexts_op hname, fieldTexts]

theorem fieldTexts_literal (b : Bson) : (op "$literal" b).fieldTexts = [] := by
  simp [op, fieldTexts, fieldTextsIn]

end Bson

namespace Value

mutual

def texts : Value → List String
  | .char c => [String.ofList [c]]
  | .string s => [s]
  | .array items => textsOf items
  | _ => []

def textsOf : List Value → List String
  | [] => []
  | v :: vs => texts v ++ textsOf vs

end

end Value

def LargeObjects.GivesPlainIds {σ : Type} (objects : LargeObjects σ) : Prop :=
  ∀ content s id s', objects.put content s = (.ok id, s') → isMarked id = false

variable {b : Bson} {e : Expression} {function : AggregateFunction}

namespace Value

open Bson

variable {σ : Type} {objects : LargeObjects σ}

theorem fieldTexts_storeContent (hids : objects.GivesPlainIds) {content : List UInt8} {s s' : σ}
    (h : storeContent objects content s = (.ok b, s')) : b.fieldTexts = [] := by
  rw [storeContent] at h
  rcases hput : objects.put content s with ⟨r, s₁⟩
  rw [hput] at h
  cases r with
  | error e => cases h
  | ok id =>
    cases h
    simp [fieldTexts, hids content s id s' hput]

mutual

theorem fieldTexts_toStored (hids : objects.GivesPlainIds) (v : Value) {b : Bson} {s s' : σ}
    (h : v.toStored objects s = (.ok b, s')) : b.fieldTexts = v.texts.filter isMarked := by
  cases v with
  | char c | string text =>
    cases h
    simp [fieldTexts, texts, filter_cons]
  | blob bytes | clob text | xml text => exact fieldTexts_storeContent hids h
  | bigDecimal text =>
    simp only [toStored] at h
    cases hread : readFloat? text with
    | none =>
      rw [hread] at h
      cases h
    | some x =>
      rw [hread] at h
      cases h
      rfl
  | array items =>
    obtain ⟨bs, hbs, rfl⟩ := bind_pure_ok h
    exact fieldTextsOf_listToStored hids items hbs
  | _ =>
    cases h
    rfl

theorem fieldTextsOf_listToStored (hids : objects.GivesPlainIds) (vs : List Value) {bs : List Bson} {s s' : σ}
    (h : listToStored objects vs s = (.ok bs, s')) : fieldTextsOf bs = (textsOf vs).filter isMarked := by
  cases vs with
  | nil =>
    cases h
    rfl
  | cons v vs =>
    obtain ⟨b, s₁, hb, h⟩ := bind_ok h
    obtain ⟨bs, hbs, rfl⟩ := bind_pure_ok h
    rw [fieldTextsOf, textsOf, filter_append, fieldTexts_toStored hids v hb, fieldTextsOf_listToStored hids vs hbs]

end

end Value

theorem LikeRegex.isMarked_text_ofPattern (pattern : String) (escape : Option Char) :
    isMarked (ofPattern pattern escape).text = false := by
  rw [isMarked, toList_text, ofPattern]
  generalize LikeToken.scan escape pattern.toList = tokens
  rw [beq_eq_false_iff_ne]
  intro hhead
  cases hstart : (ofTokens tokens).atStart with
  | true => simp [hstart] at hhead
  | false =>
    simp only [hstart, Bool.false_eq_true, if_false, nil_append] at hhead
    cases hitems : (ofTokens tokens).items with
    | nil =>
      have hend : (ofTokens tokens).atEnd = false := by
        simp only [ofTokens] at hstart hitems ⊢
        simp_all
      simp [hitems, hend, endChars] at hhead
    | cons item items =>
      rw [hitems, flatMap_cons, append_assoc] at hhead
      cases item with
      | any | one => cases hhead
      | char c =>
        rw [itemChars] at hhead
        split at hhead
        · cases hhead
        · rename_i hc
          cases hhead
          exact hc (by decide)

/-! ### What the parts of an expression are read as -/

namespace Expression

open Bson

variable {σ : Type} {c : Context σ} {r : Registry} {ps qs : List Expression} {t : String}

/-- A column among the parts is read from the field named by the text. -/
def ColumnText (c : Context σ) (ps : List Expression) (t : String) : Prop :=
  ∃ ref column, .column ref ∈ ps ∧ c.resolve ref = .ok column ∧ t = "$" ++ column.path

/-- One of the parts is found where the text says, after grouping. -/
def GroupText (r : Registry) (ps : List Expression) (t : String) : Prop :=
  ∃ part ∈ ps, ∃ path, r.groupedPath? part.sql = some path ∧ t = "$" ++ path

/-- The text is marked and stands in an array among the constants. -/
def ItemText (ps : List Expression) (t : String) : Prop :=
  ∃ items, .literal (.array items) ∈ ps ∧ t ∈ Value.textsOf items ∧ isMarked t

def StoredText (c : Context σ) (ps : List Expression) (t : String) : Prop := ColumnText c ps t ∨ ItemText ps t

def GroupedText (r : Registry) (ps : List Expression) (t : String) : Prop := GroupText r ps t ∨ ItemText ps t

theorem ItemText.mono (h : ItemText ps t) (hsub : ps ⊆ qs) : ItemText qs t := by
  obtain ⟨items, hmem, ht⟩ := h
  exact ⟨items, hsub hmem, ht⟩

theorem StoredText.mono (h : StoredText c ps t) (hsub : ps ⊆ qs) : StoredText c qs t := by
  rcases h with ⟨ref, column, hmem, hcolumn⟩ | h
  · exact .inl ⟨ref, column, hsub hmem, hcolumn⟩
  · exact .inr (h.mono hsub)

theorem GroupedText.mono (h : GroupedText r ps t) (hsub : ps ⊆ qs) : GroupedText r qs t := by
  rcases h with ⟨part, hmem, hpath⟩ | h
  · exact .inl ⟨part, hsub hmem, hpath⟩
  · exact .inr (h.mono hsub)

@[simp] theorem storedText_nil : StoredText c [] t ↔ False := by
  simp [StoredText, ColumnText, ItemText]

@[simp] theorem storedText_append : StoredText c (ps ++ qs) t ↔ StoredText c ps t ∨ StoredText c qs t := by
  constructor
  · rintro (⟨ref, column, hmem, hcolumn⟩ | ⟨items, hmem, ht⟩)
    · exact (mem_append.mp hmem).imp (fun h => .inl ⟨ref, column, h, hcolumn⟩) fun h => .inl ⟨ref, column, h, hcolumn⟩
    · exact (mem_append.mp hmem).imp (fun h => .inr ⟨items, h, ht⟩) fun h => .inr ⟨items, h, ht⟩
  · rintro (h | h)
    · exact h.mono (subset_append_left ..)
    · exact h.mono (subset_append_right ..)

theorem storedText_cons (hcolumn : ∀ ref, e ≠ .column ref) (hitems : ∀ items, e ≠ .literal (.array items)) :
    StoredText c (e :: ps) t ↔ StoredText c ps t := by
  constructor
  · rintro (⟨ref, column, hmem, h⟩ | ⟨items, hmem, h⟩)
    · exact .inl ⟨ref, column, (mem_cons.mp hmem).resolve_left fun heq => hcolumn ref heq.symm, h⟩
    · exact .inr ⟨items, (mem_cons.mp hmem).resolve_left fun heq => hitems items heq.symm, h⟩
  · exact fun h => h.mono (subset_cons_self ..)

theorem storedText_column {ref : ColumnRef} {column : ResolvedColumn} (hcolumn : c.resolve ref = .ok column) :
    StoredText c [.column ref] t ↔ t = "$" ++ column.path := by
  constructor
  · rintro (⟨ref', column', hmem, hcolumn', rfl⟩ | ⟨items, hmem, -⟩)
    · cases mem_singleton.mp hmem
      cases hcolumn.symm.trans hcolumn'
      rfl
    · cases mem_singleton.mp hmem
  · exact fun h => .inl ⟨ref, column, mem_singleton_self _, hcolumn, h⟩

def itemTexts : Value → List String
  | .array items => (Value.textsOf items).filter isMarked
  | _ => []

variable {v : Value}

theorem itemText_literal : ItemText [.literal v] t ↔ t ∈ itemTexts v := by
  constructor
  · rintro ⟨items, hmem, ht⟩
    cases mem_singleton.mp hmem
    exact mem_filter.mpr ht
  · intro h
    cases v with
    | array items => exact ⟨items, mem_singleton_self _, mem_filter.mp h⟩
    | _ => cases h

theorem storedText_literal : StoredText c [.literal v] t ↔ t ∈ itemTexts v := by
  rw [StoredText, itemText_literal, or_iff_right]
  rintro ⟨ref, column, hmem, -⟩
  cases mem_singleton.mp hmem

/-! ### What a compiled expression is read as -/

theorem fieldTexts_compileLiteral (hids : c.objects.GivesPlainIds) {s s' : Draft σ}
    (h : compileLiteral c v s = (.ok b, s')) : b.fieldTexts = itemTexts v := by
  obtain ⟨b', s₁, hstore, h⟩ := bind_ok h
  have hstored := Context.toStored_of_store hstore
  have htexts := Value.fieldTexts_toStored hids v hstored
  split at h
  · rename_i text
    have hitems : itemTexts v = [] := by
      cases v with
      | array items =>
        obtain ⟨bs, s₃, -, hpure⟩ := bind_ok hstored
        cases hpure
      | _ => rfl
    rw [hitems]
    split at h
    · rw [wrapLiteral_ok (ofExcept_ok h).1, fieldTexts_literal]
    · rename_i hmark
      obtain ⟨rfl, -⟩ := pure_ok h
      rw [fieldTexts, if_neg (by simpa [isMarked] using hmark)]
  · rename_i hstring
    obtain ⟨rfl, -⟩ := pure_ok h
    rw [htexts]
    cases v with
    | array items => rfl
    | char ch | string text =>
      obtain ⟨rfl, -⟩ := pure_ok hstored
      exact absurd rfl (hstring _)
    | _ => rfl

theorem fieldTexts_negatedIf (negated : Bool) (b : Bson) : (negatedIf negated b).fieldTexts = b.fieldTexts := by
  cases negated with
  | false => rfl
  | true =>
    rw [negatedIf, if_pos rfl, fieldTexts_opList (by decide)]
    simp [fieldTextsOf]

theorem operator_ne_literal (op : ComparisonOp) : op.operator ≠ "$literal" := by cases op <;> decide

theorem fieldTexts_accumulation {text : String} {arg : Option Bson} {f : AccumulatorFunction} {e : Bson}
    (h : accumulation text function arg = .ok (f, e)) : e.fieldTexts = (arg.map fieldTexts).getD [] := by
  cases function <;> cases arg <;> cases h
  case count.none => rfl
  case count.some arg =>
    rw [fieldTexts_opList (by decide), fieldTextsOf, fieldTexts_opList (by decide)]
    simp [fieldTextsOf, fieldTexts]
  all_goals rfl

end Expression

namespace ScalarFunction

open Bson

variable {f : ScalarFunction} {name : String} {guarded : Bool} {start : Option Int64} {args : List Bson} {t : String}

theorem datePart_ne_literal (part : DatePart) : part.operator ≠ "$literal" := by cases part <;> decide

theorem trim_ne_literal (side : TrimSide) : side.operator ≠ "$literal" := by cases side <;> decide

theorem operator_ne_literal (f : ScalarFunction) : f.operator ≠ "$literal" := by
  cases f with
  | datePart part => exact datePart_ne_literal part
  | trim side => exact trim_ne_literal side
  | _ => decide

theorem mem_fieldTexts_datePartOf {op : String} (hop : op ≠ "$literal") (arg : Bson) :
    t ∈ (datePartOf op guarded arg).fieldTexts ↔ t ∈ arg.fieldTexts := by
  cases guarded with
  | false => rw [datePartOf, if_neg (by decide), fieldTexts_op hop]
  | true =>
    rw [datePartOf, if_pos rfl, fieldTexts_opList (by decide), fieldTextsOf, fieldTexts_opList (by decide),
      fieldTextsOf, fieldTexts_opList (by decide)]
    simp [fieldTextsOf, fieldTexts, fieldTexts_op hop]

theorem mem_fieldTexts_substringOf {text from' count : Bson} :
    t ∈ (substringOf text from' start count).fieldTexts ↔
      t ∈ text.fieldTexts ∨ (start = none ∧ t ∈ from'.fieldTexts) ∨ t ∈ count.fieldTexts := by
  unfold substringOf
  rw [fieldTexts_opList (by decide)]
  cases start with
  | none =>
    simp only [fieldTextsOf, fieldTexts_opList (show "$subtract" ≠ "$literal" by decide)]
    simp [fieldTexts]
  | some n => simp [fieldTextsOf, before, fieldTexts]

/-- A call is read as its arguments are. A start that is left out changes nothing where it is read as no
field. -/
theorem mem_fieldTexts_apply (h : f.apply name guarded start args = .ok b) :
    (t ∈ b.fieldTexts → t ∈ fieldTextsOf args) ∧
      ((start.isSome → ∀ b ∈ args[1]?, b.fieldTexts = []) → t ∈ fieldTextsOf args → t ∈ b.fieldTexts) := by
  have hlist {op : String} (hop : op ≠ "$literal") (heq : opList op args = b) :
      b.fieldTexts = fieldTextsOf args := by rw [← heq, fieldTexts_opList hop]
  cases f with
  | datePart part =>
    rcases args with _ | ⟨arg, _ | ⟨_, _⟩⟩
    · cases h
    · cases h
      simp [mem_fieldTexts_datePartOf (datePart_ne_literal part), fieldTextsOf]
    · cases h
  | trim side =>
    rcases args with _ | ⟨arg, _ | ⟨_, _⟩⟩
    · cases h
    · cases h
      simp [fieldTexts_op (trim_ne_literal side), fieldTexts, fieldTextsIn, fieldTextsOf]
    · cases h
  | substring =>
    rcases args with _ | ⟨text, _ | ⟨from', _ | ⟨count, _ | ⟨_, _⟩⟩⟩⟩
    · cases h
    · cases h
    · cases h
      cases start <;> simp +contextual [mem_fieldTexts_substringOf, fieldTextsOf, fieldTexts]
    · cases h
      cases start <;> simp +contextual [mem_fieldTexts_substringOf, fieldTextsOf, or_imp]
    · cases h
  | _ =>
    have heq := hlist (operator_ne_literal _) (Except.ok.inj h)
    exact ⟨fun ht => heq ▸ ht, fun _ ht => heq ▸ ht⟩

end ScalarFunction

namespace Expression

open Bson

variable {σ : Type} {c : Context σ} {t : String} {s s' : Draft σ}

theorem storedText_likePattern {pattern : Expression} {text : String} (h : pattern.likePattern = .ok text) :
    ¬ StoredText c pattern.parts t := by
  intro ht
  cases pattern with
  | literal v =>
    rw [parts, storedText_literal] at ht
    cases v with
    | array items => cases h
    | _ => cases ht
  | _ => cases h

variable {bs : List Bson} {es : List Expression}

theorem fieldTexts_startLiteral (hids : c.objects.GivesPlainIds) {args : List Expression}
    (h : compileAll c .raw args s = (.ok bs, s')) (hstart : (startLiteral? args).isSome) :
    ∀ b ∈ bs[1]?, b.fieldTexts = [] := by
  intro b hb
  rcases args with _ | ⟨first, _ | ⟨second, rest⟩⟩
  · cases hstart
  · cases hstart
  · cases second with
    | literal v =>
      obtain ⟨b₁, bs₁, s₁, -, hrest, rfl⟩ := both_ok h
      obtain ⟨b₂, bs₂, s₂, hsecond, -, rfl⟩ := both_ok hrest
      cases hb
      rw [fieldTexts_compileLiteral hids hsecond]
      cases v with
      | array items => cases hstart
      | _ => rfl
    | _ => cases hstart

/-- An operation is read as its operands are. A start that is left out of a call changes nothing where it is
read as no field. -/
theorem BuiltFrom.mem_fieldTexts {guarded : Bool} (h : e.BuiltFrom guarded bs b) :
    (t ∈ b.fieldTexts → t ∈ fieldTextsOf bs) ∧
      (((startLiteral? e.operands).isSome → ∀ b ∈ bs[1]?, b.fieldTexts = []) →
        t ∈ fieldTextsOf bs → t ∈ b.fieldTexts) := by
  have halike (heq : b.fieldTexts = fieldTextsOf bs) : (t ∈ b.fieldTexts → t ∈ fieldTextsOf bs) ∧
      (((startLiteral? e.operands).isSome → ∀ b ∈ bs[1]?, b.fieldTexts = []) →
        t ∈ fieldTextsOf bs → t ∈ b.fieldTexts) := ⟨fun ht => heq ▸ ht, fun _ ht => heq ▸ ht⟩
  cases e with
  | column | literal | aggregate => cases h
  | call name args =>
    obtain ⟨f, -, happly⟩ := h
    exact ScalarFunction.mem_fieldTexts_apply happly
  | comparison op left right => exact halike (h ▸ fieldTexts_opList (operator_ne_literal op) bs)
  | and terms | or terms | not term => exact halike (h ▸ fieldTexts_opList (by decide) bs)
  | isIn input list negated =>
    obtain ⟨i, bs, rfl, rfl⟩ := h
    refine halike ?_
    rw [fieldTexts_negatedIf, fieldTexts_opList (by decide)]
    simp [fieldTextsOf, fieldTexts]
  | isNull input negated =>
    obtain ⟨i, rfl, rfl⟩ := h
    refine halike ?_
    rw [fieldTexts_opList (by cases negated <;> decide), fieldTextsOf, fieldTexts_opList (by decide)]
    simp [fieldTextsOf, fieldTexts]
  | like input pattern escape negated =>
    obtain ⟨i, text, rfl, -, rfl⟩ := h
    have hoptions : isMarked "s" = false := by decide
    refine halike ?_
    rw [fieldTexts_negatedIf, fieldTexts_op (by decide)]
    simp [fieldTexts, fieldTextsIn, fieldTextsOf, LikeRegex.isMarked_text_ofPattern, hoptions]

theorem BuiltFrom.storedText_iff {guarded : Bool} (h : e.BuiltFrom guarded bs b) :
    StoredText c e.parts t ↔ StoredText c (partsOf e.operands) t := by
  cases e with
  | column | literal | aggregate => cases h
  | like input pattern escape negated =>
    obtain ⟨_, text, -, htext, -⟩ := h
    rw [parts, storedText_cons (by simp) (by simp), storedText_append, or_iff_left (storedText_likePattern htext)]
    simp [operands, partsOf]
  | _ =>
    rw [parts, storedText_cons (by simp) (by simp)]
    simp [operands, inner, partsOf]

theorem mem_fieldTextsOf_compileAll {s s' : Draft σ}
    (hes : ∀ e ∈ es, ∀ {b s s'}, e.compile c .raw s = (.ok b, s') → (t ∈ b.fieldTexts ↔ StoredText c e.parts t))
    (h : compileAll c .raw es s = (.ok bs, s')) : t ∈ fieldTextsOf bs ↔ StoredText c (partsOf es) t := by
  induction es generalizing bs s with
  | nil =>
    cases h
    simp [fieldTextsOf, partsOf]
  | cons e es ih =>
    obtain ⟨b, bs, s₁, hb, hbs, rfl⟩ := both_ok h
    obtain ⟨he, hes⟩ := forall_mem_cons.mp hes
    rw [fieldTextsOf, partsOf, storedText_append, mem_append, he hb, ih hes hbs]

theorem mem_fieldTexts_compile (hids : c.objects.GivesPlainIds) (e : Expression) {s s' : Draft σ}
    (h : e.compile c .raw s = (.ok b, s')) : t ∈ b.fieldTexts ↔ StoredText c e.parts t := by
  induction e using induction_inner generalizing b s s' with | step e ih =>
  cases compile_ok h with
  | column hcolumn => rw [fieldTexts_fieldRef, parts, storedText_column hcolumn, mem_singleton]
  | literal h => rw [fieldTexts_compileLiteral hids h, parts, storedText_literal]
  | operation hbs hb =>
    have hall := mem_fieldTextsOf_compileAll (t := t) (fun x hx => ih x (mem_inner_of_operands hx)) hbs
    rw [hb.storedText_iff, ← hall]
    exact ⟨hb.mem_fieldTexts.1, hb.mem_fieldTexts.2 (fieldTexts_startLiteral hids hbs)⟩

/-! ### Over groups -/

/-- What becomes of the parts of an expression over groups: texts that are read as places of a group or
as items of arrays, and aggregates whose arguments are read from stored fields. -/
structure Grounded (c : Context σ) (ps : List Expression) (s s' : Draft σ) (ts : List String) : Prop where
  texts : ∀ t ∈ ts, GroupedText s'.registry ps t
  args : ∀ a ∈ s'.accumulators, a ∈ s.accumulators ∨ ∀ t ∈ a.arg.fieldTexts, StoredText c ps t

namespace Grounded

variable {ps qs : List Expression} {s₁ : Draft σ} {ts us : List String}

theorem nil : Grounded c ps s s [] := ⟨by simp, fun _ ha => .inl ha⟩

theorem mono (h : Grounded c ps s s' ts) (hsub : ps ⊆ qs) (htexts : us ⊆ ts) : Grounded c qs s s' us where
  texts t ht := (h.texts t (htexts ht)).mono hsub
  args a ha := (h.args a ha).imp_right fun harg t ht => (harg t ht).mono hsub

theorem append (h : Grounded c ps s s₁ ts) (h' : Grounded c qs s₁ s' us) (hsteps : s₁.Steps .grouped s') :
    Grounded c (ps ++ qs) s s' (ts ++ us) where
  texts t ht := by
    rcases mem_append.mp ht with ht | ht
    · rcases (h.texts t ht).mono (subset_append_left ..) with ⟨part, hmem, path, hpath, ht⟩ | hitem
      · exact .inl ⟨part, hmem, path, hsteps.groupedPath? hpath, ht⟩
      · exact .inr hitem
    · exact (h'.texts t ht).mono (subset_append_right ..)
  args a ha := by
    rcases h'.args a ha with ha | harg
    · exact (h.args a ha).imp_right fun harg t ht => (harg t ht).mono (subset_append_left ..)
    · exact .inr fun t ht => (harg t ht).mono (subset_append_right ..)

theorem found {path : String} (h : s.registry.groupedPath? e.sql = some path) :
    Grounded c e.parts s s (fieldRef path).fieldTexts := by
  refine ⟨fun t ht => .inl ⟨e, self_mem_parts e, path, h, ?_⟩, fun _ ha => .inl ha⟩
  rwa [fieldTexts_fieldRef, mem_singleton] at ht

end Grounded

theorem grounded_compileAggregate (hids : c.objects.GivesPlainIds) {arg : Option Expression} {distinct : Bool}
    (h : compileAggregate (aggregate function arg distinct).sql function distinct
      (arg.map (compile c .raw)) none s = (.ok b, s')) :
    Grounded c (aggregate function arg distinct).parts s s' b.fieldTexts := by
  have hgroup {path : String}
      (hpath : s'.registry.groupedPath? (aggregate function arg distinct).sql = some path)
      (hb : b = .fieldRef path) :
      ∀ t ∈ b.fieldTexts, GroupedText s'.registry (aggregate function arg distinct).parts t := by
    intro t ht
    rw [hb, fieldTexts_fieldRef, mem_singleton] at ht
    exact .inl ⟨_, self_mem_parts _, path, hpath, ht⟩
  rcases compileAggregate_ok h with ⟨rfl, path, hpath, hb⟩ | ⟨-, -, arg', s₁, f, e, harg, hacc, rfl, hb⟩
  · exact ⟨hgroup hpath hb, fun _ ha => .inl ha⟩
  · refine ⟨hgroup ?_ hb, fun a ha => ?_⟩
    · rw [Draft.accumulated, Registry.groupedPath?_registerGrouped, if_pos rfl]
    · have htexts := fieldTexts_accumulation hacc
      rcases mem_append.mp ha with hold | hnew
      · cases arg with
        | none =>
          cases harg
          exact .inl hold
        | some arg =>
          obtain ⟨b', hb', -⟩ := map_ok harg
          exact .inl ((steps_compile .raw arg s b' s₁ hb').raw.1 ▸ hold)
      · cases mem_singleton.mp hnew
        refine .inr fun t ht => ?_
        rw [htexts] at ht
        cases arg with
        | none =>
          cases harg
          cases ht
        | some arg =>
          obtain ⟨b', hb', rfl⟩ := map_ok harg
          exact ((mem_fieldTexts_compile hids arg hb').mp ht).mono (subset_cons_self ..)

theorem grounded_compileAll {s s' : Draft σ}
    (hes : ∀ e ∈ es, ∀ {b s s'}, e.compile c .grouped s = (.ok b, s') → Grounded c e.parts s s' b.fieldTexts)
    (h : compileAll c .grouped es s = (.ok bs, s')) : Grounded c (partsOf es) s s' (fieldTextsOf bs) := by
  induction es generalizing bs s with
  | nil =>
    cases h
    exact .nil
  | cons e es ih =>
    obtain ⟨b, bs, s₁, hb, hbs, rfl⟩ := both_ok h
    obtain ⟨he, hes⟩ := forall_mem_cons.mp hes
    exact (he hb).append (ih hes hbs) (steps_compileAll .grouped es _ _ _ hbs)

theorem grounded_compile (hids : c.objects.GivesPlainIds) (e : Expression) {s s' : Draft σ}
    (h : e.compile c .grouped s = (.ok b, s')) : Grounded c e.parts s s' b.fieldTexts := by
  induction e using induction_inner generalizing b s s' with | step e ih =>
  cases compile_ok h with
  | found hpath => exact .found hpath
  | literal h =>
    refine ⟨fun t ht => .inr ?_, fun a ha => .inl ?_⟩
    · rw [fieldTexts_compileLiteral hids h] at ht
      exact itemText_literal.mpr ht
    · exact (steps_compile .raw (.literal _) s b s' h).raw.1 ▸ ha
  | aggregate h => exact grounded_compileAggregate hids h
  | operation hbs hb =>
    exact (grounded_compileAll (fun x hx => ih x (mem_inner_of_operands hx)) hbs).mono (partsOf_operands_subset e)
      fun t ht => hb.mem_fieldTexts.1 ht

/-- The `fieldTexts` of a compiled expression are those of its columns, or over groups those of its parts that are
found in the group, and the marked texts in its arrays. Stored fields and the texts in arrays are all read. So are
the arguments of its aggregates. -/
theorem fieldTexts_compile (hids : c.objects.GivesPlainIds) {e : Expression} {scope : Scope} {b : Bson}
    {s s' : Draft σ} (h : e.compile c scope s = (.ok b, s')) :
    (∀ t ∈ b.fieldTexts,
      (scope = .raw ∧ ColumnText c e.parts t) ∨ (scope = .grouped ∧ GroupText s'.registry e.parts t) ∨
        ItemText e.parts t) ∧
    (scope = .raw → ∀ t, ColumnText c e.parts t ∨ ItemText e.parts t → t ∈ b.fieldTexts) ∧
    ∀ a ∈ s'.accumulators, a ∈ s.accumulators ∨
      ∀ t ∈ a.arg.fieldTexts, ColumnText c e.parts t ∨ ItemText e.parts t := by
  cases scope with
  | raw =>
    refine ⟨fun t ht => ?_, fun _ t ht => (mem_fieldTexts_compile hids e h).mpr ht, fun a ha => .inl ?_⟩
    · exact ((mem_fieldTexts_compile hids e h).mp ht).imp (fun hcolumn => ⟨rfl, hcolumn⟩) .inr
    · exact (steps_compile .raw e s b s' h).raw.1 ▸ ha
  | grouped =>
    have hgrounded := grounded_compile hids e h
    refine ⟨fun t ht => .inr ?_, fun hraw => (by cases hraw), hgrounded.args⟩
    exact (hgrounded.texts t ht).imp_left fun hgroup => ⟨rfl, hgroup⟩

/-- A text in an array is read as a field, one that stands for itself is not. -/
theorem fieldTexts_compile_array :
    let c : Context Unit :=
      { catalog := .ofTables [
          { name := "posts"
            columns := [⟨"id", .integer, false⟩, ⟨"title", .string, false⟩, ⟨"tags", .array .string, false⟩]
            primaryKey := ["id"] }]
        top := "posts", sources := [⟨"p", "posts", [], false⟩], objects := .unavailable
        mode := .pipeline }
    let e : Expression :=
      .or [.comparison .eq (.column ⟨"p", "title"⟩) (.literal (.string "$id")),
        .comparison .eq (.column ⟨"", "tags"⟩) (.literal (.array [.string "$b", .char 'x']))]
    ∃ b s', e.compile c .raw { objects := () } = (.ok b, s') ∧ "$b" ∈ b.fieldTexts ∧ "$id" ∉ b.fieldTexts := by
  intro c e
  have hrun : e.compile c .raw { objects := () } =
      (.ok (.opList "$or" [.opList "$eq" [.fieldRef "title", .op "$literal" (.string "$id")],
        .opList "$eq" [.fieldRef "tags", .array [.string "$b", .string "x"]]]),
      { registry := [("p.title", .ofExpression (.fieldRef "title")), ("tags", .ofExpression (.fieldRef "tags"))]
        objects := () }) := by
    simp only [c, e]
    cbv
  have hids : c.objects.GivesPlainIds := fun content s id s' hput => by cases hput
  have htexts := fieldTexts_compile hids hrun
  have hitem : ItemText e.parts "$b" :=
    ⟨[.string "$b", .char 'x'], by simp [e, parts, partsOf], by decide, by decide⟩
  refine ⟨_, _, hrun, htexts.2.1 rfl "$b" (.inr hitem), ?_⟩
  decide

end Expression

end Pushdown
