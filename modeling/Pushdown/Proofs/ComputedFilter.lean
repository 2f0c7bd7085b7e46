import Pushdown.Proofs.ComputedValue

/-!
# Computed filters

A test that is more than one of a field against constants is computed, into a field of its own ahead of the match
(`withComputed`) or in the condition itself. `accepts_withComputed`: it is selected by its `storeTruth`, which is
how it is evaluated where `isDecided` holds; otherwise the store takes it for true or false.
-/

namespace Pushdown

open List Bson

variable {fields : List (String × Bson)} {f : String × Bson} {name path : String} {names : List String}

namespace Document

/-- The document with a field that is computed from `root`. Where there is no value the field is
taken away. -/
def compute (root : Bson) (m : Document) (f : String × Bson) : Document :=
  match Bson.compute? root f.2 with
  | some b => insert m f.1 b
  | none => erase m f.1

def withComputed (d : Document) (fields : List (String × Bson)) : Document :=
  fields.foldl (compute (.document d)) d

variable {root : Bson} {m : Document}

theorem get?_compute_self : get? (compute root m f) f.1 = compute? root f.2 := by
  rw [compute]
  cases compute? root f.2 with
  | none => exact get?_erase_self m f.1
  | some b => exact get?_insert_self m f.1 b

theorem get?_compute_of_ne (h : f.1 ≠ name) : get? (compute root m f) name = get? m name := by
  rw [compute]
  cases compute? root f.2 with
  | none => exact get?_erase_of_ne m h
  | some b => exact get?_insert_of_ne m b h

theorem get?_foldl_compute_of_ne (h : ∀ f ∈ fields, f.1 ≠ name) :
    get? (fields.foldl (compute root) m) name = get? m name := by
  induction fields generalizing m with
  | nil => rfl
  | cons f fields ih =>
    rw [foldl_cons, ih fun g hg => h g (mem_cons_of_mem _ hg), get?_compute_of_ne (h f (mem_cons_self ..))]

theorem get?_foldl_compute (h : fields.Pairwise fun f g => f.1 ≠ g.1) (hf : f ∈ fields) :
    get? (fields.foldl (compute root) m) f.1 = compute? root f.2 := by
  induction fields generalizing m with
  | nil => cases hf
  | cons g fields ih =>
    obtain ⟨hg, hfields⟩ := pairwise_cons.mp h
    rw [foldl_cons]
    rcases mem_cons.mp hf with rfl | hf
    · rw [get?_foldl_compute_of_ne fun g hmem => (hg g hmem).symm, get?_compute_self]
    · exact ih hfields hf

end Document

theorem exists_of_numbered {start : Nat} (h : Numbered start fields) (hf : f ∈ fields) :
    ∃ i, start ≤ i ∧ f.1 = "__m" ++ toString i := by
  induction fields generalizing start with
  | nil => cases hf
  | cons g fields ih =>
    rcases mem_cons.mp hf with rfl | hf
    · exact ⟨start, Nat.le_refl _, h.1⟩
    · obtain ⟨i, hi, hname⟩ := ih h.2 hf
      exact ⟨i, Nat.le_of_succ_le hi, hname⟩

theorem pairwise_of_numbered {start : Nat} (h : Numbered start fields) : fields.Pairwise fun f g => f.1 ≠ g.1 := by
  induction fields generalizing start with
  | nil => exact List.Pairwise.nil
  | cons f fields ih =>
    refine pairwise_cons.mpr ⟨fun g hg heq => ?_, ih h.2⟩
    obtain ⟨i, hi, hname⟩ := exists_of_numbered h.2 hg
    have hfirst : f.1 = "__m" ++ toString start := h.1
    rw [hfirst, hname, String.append_right_inj] at heq
    have := toString_injective heq
    omega

theorem isName_computed (i : Nat) : Path.IsName ("__m" ++ toString i) := by
  refine ⟨fun h => ?_, fun h => ?_⟩
  · have hl := congrArg String.toList h
    rw [String.toList_append] at hl
    cases hl
  · rw [String.toList_append] at h
    rcases mem_append.mp h with h | h
    · exact absurd h (by decide)
    · exact (toString_isName i).2 h

def isComputedPath (path : String) : Bool := Path.hasPrefix "__m" path

theorem head_prefix_splitDots {cs part : List Char} {parts : List (List Char)}
    (h : Path.splitDots cs = part :: parts) : part <+: cs := by
  induction cs generalizing part parts with
  | nil =>
    rw [Path.splitDots] at h
    cases h
    exact nil_prefix
  | cons c cs ih =>
    rw [Path.splitDots] at h
    split at h
    · rename_i first rest heq
      split at h
      · cases h
        exact nil_prefix
      · cases h
        exact cons_prefix_cons.mpr ⟨rfl, ih heq⟩
    · cases h
      exact cons_prefix_cons.mpr ⟨rfl, nil_prefix⟩

theorem hasPrefix_head (h : Path.split path = name :: names) : name.toList <+: path.toList := by
  rw [Path.split] at h
  cases hparts : Path.splitDots path.toList with
  | nil => rw [hparts] at h; cases h
  | cons part parts =>
    rw [hparts, map_cons] at h
    cases h
    rw [String.toList_ofList]
    exact head_prefix_splitDots hparts

theorem head_ne_computed (h : Path.split path = name :: names) (hpath : isComputedPath path = false) (i : Nat) :
    "__m" ++ toString i ≠ name := by
  rintro rfl
  have hprefix : "__m".toList <+: path.toList := by
    refine List.IsPrefix.trans ?_ (hasPrefix_head h)
    rw [String.toList_append]
    exact prefix_append _ _
  rw [isComputedPath, Path.hasPrefix, isPrefixOf_iff_prefix.mpr hprefix] at hpath
  cases hpath

namespace Expression

section Computed

variable {σ : Type} {c : Context σ} {search : Search} {d : Document} {column : ColumnRef → Except WriteError Value}
  {t : Expression}

theorem reads_withComputed (hfields : Numbered 0 fields) {b : Option Bson} (hpath : isComputedPath path = false)
    (h : Condition.Reads d path b) : Condition.Reads (d.withComputed fields) path b := by
  obtain ⟨hmarked, hsingle, hb⟩ := h
  cases hsplit : Path.split path with
  | nil => exact absurd hsplit (by simp [Path.split, Path.splitDots_ne_nil])
  | cons name names =>
    have hget : Document.get? (d.withComputed fields) name = Document.get? d name := by
      refine Document.get?_foldl_compute_of_ne fun f hf => ?_
      obtain ⟨i, -, hname⟩ := exists_of_numbered hfields hf
      rw [hname]
      exact head_ne_computed hsplit hpath i
    refine ⟨hmarked, ?_, ?_⟩
    · rw [hsplit, isSingle] at hsingle ⊢
      rwa [hget]
    · rw [Document.atPath?, hsplit, follow?, step?] at hb ⊢
      rwa [hget]

theorem reads_computed (hfields : Numbered 0 fields) (hf : f ∈ fields) {p : Bool}
    (h : compute? (.document d) f.2 = some (.boolean p)) :
    Condition.Reads (d.withComputed fields) f.1 (some (.boolean p)) := by
  obtain ⟨i, -, hname⟩ := exists_of_numbered hfields hf
  have hget : Document.get? (d.withComputed fields) f.1 = some (.boolean p) :=
    (Document.get?_foldl_compute (pairwise_of_numbered hfields) hf).trans h
  have hsplit : Path.split f.1 = [f.1] := Path.split_of_isName (hname ▸ isName_computed i)
  refine ⟨?_, ?_, ?_⟩
  · rw [hname, isMarked, String.toList_append]
    rfl
  · rw [hsplit, isSingle, hget]
    rfl
  · rw [Document.atPath?, hsplit, follow?, step?, hget]
    rfl

def storedAt (c : Context σ) (d : Document) (ref : ColumnRef) : Option Bson :=
  match c.resolve ref with
  | .ok found => Document.atPath? d found.path
  | .error _ => none

/-- The document holds one value of the column or none. It is what `column` reads, it is in its place
among stored forms, and no computed field takes its place. -/
def Presents (c : Context σ) (d : Document) (column : ColumnRef → Except WriteError Value) (ref : ColumnRef) : Prop :=
  ∃ found x, c.resolve ref = .ok found ∧ column ref = .ok x ∧
    Condition.Reads d found.path (storedAt c d ref) ∧ x.Keeps (storedAt c d ref) ∧
    (x.isNull || x.isExact) ∧ isComputedPath found.path = false

namespace Presents

variable {ref : ColumnRef} (h : Presents c d column ref)

include h

theorem readsExactly : ReadsExactly column (storedAt c d) ref := by
  obtain ⟨found, x, -, hx, -, hkeeps, hexact, -⟩ := h
  exact ⟨x, hx, hkeeps, hexact⟩

theorem stores : Stores c d (storedAt c d) ref := by
  obtain ⟨found, x, hfound, -, hreads, -⟩ := h
  intro found' hfound'
  obtain rfl : found = found' := Except.ok.inj (hfound.symm.trans hfound')
  exact hreads

theorem stores_withComputed (hfields : Numbered 0 fields) : Stores c (d.withComputed fields) (storedAt c d) ref := by
  obtain ⟨found, x, hfound, -, hreads, -, -, hpath⟩ := h
  intro found' hfound'
  obtain rfl : found = found' := Except.ok.inj (hfound.symm.trans hfound')
  exact reads_withComputed hfields hpath hreads

theorem holdsColumn (hfields : Numbered 0 fields) : HoldsColumn c (d.withComputed fields) column ref := by
  obtain ⟨x, hx, hkeeps, -⟩ := h.readsExactly
  exact fun found hfound => ⟨x, _, hx, h.stores_withComputed hfields found hfound, hkeeps⟩

end Presents

def isLogical : Expression → Bool
  | .comparison .. | .isIn .. | .isNull .. => true
  | .literal v => v.truth?.isSome
  | _ => false

theorem storeValue_of_isLogical (h : t.isLogical) (stored : ColumnRef → Option Bson) :
    ∃ p, t.storeValue stored = some (.boolean p) := by
  cases t with
  | comparison op left right | isIn input list negated | isNull input negated => exact ⟨_, rfl⟩
  | literal v =>
    cases v with
    | boolean p => exact ⟨p, rfl⟩
    | _ => cases h
  | _ => cases h

theorem isTest_of_isLogical (h : t.isLogical) : t.isTest := by
  cases t <;> first | rfl | cases h

theorem decides_computed (hfields : Numbered 0 fields) (ht : t.isRelational)
    (hlogical : t.isLogical) (hfield : t.isFieldTest = false)
    (hcolumns : ∀ ref ∈ t.columns, Presents c d column ref) {q : Condition} {s s' : Draft σ}
    (h : t.filter c .raw s = (.ok q, s')) (hs : s'.helperFields <+: fields) :
    q.Decides search (d.withComputed fields) (some (isTruthy (t.storeValue (storedAt c d)))) := by
  rcases filter_cases (isTest_of_isLogical hlogical) h with htest | ⟨-, s₁, hcomputed⟩
  · rw [isFieldTest_of_fieldTest htest] at hfield
    cases hfield
  obtain ⟨p, hp⟩ := storeValue_of_isLogical hlogical (storedAt c d)
  rcases computedFilter_cases hcomputed with ⟨-, b, s₂, hb, rfl, rfl⟩ | ⟨-, b, hb, rfl⟩
  · have hmem : (nextHelper s₂, b) ∈ fields := hs.subset (by simp)
    have hvalue := compute?_compile t ht (fun ref href => (hcolumns ref href).stores) hb
    rw [hp] at hvalue ⊢
    exact decides_truthValue (reads_computed hfields hmem hvalue) (.inr ⟨_, rfl, rfl, stored_boolean p⟩) rfl
  · have hvalue := compute?_compile t ht (fun ref href => (hcolumns ref href).stores_withComputed hfields) hb
    rw [← hvalue]
    exact Condition.decides_expr b

def storeTruth (column : ColumnRef → Except WriteError Value) (stored : ColumnRef → Option Bson)
    (t : Expression) : Option Bool :=
  if t.isFieldTest then t.storedTest.truthOf column else some (Bson.isTruthy (t.storeValue stored))

/-- Whether a test is one of a field, against constants of its kind, or can be computed. -/
def isSelectable (column : ColumnRef → Except WriteError Value) (t : Expression) : Bool :=
  if t.isFieldTest then t.isKindred column else t.isRelational && t.isLogical

/-- Whether the truth value of a computed test is known. A test of a field has to be without NULL. -/
def isDecided (column : ColumnRef → Except WriteError Value) (t : Expression) : Bool :=
  if t.isFieldTest then !t.testsNull else t.isSettled column && t.isKnown column

theorem isTest_of_isFieldTest (h : t.isFieldTest) : t.isTest := by
  cases t <;> first | rfl | cases h

theorem decided_storeTruth (hsearch : FindsPatterns search) (hfields : Numbered 0 fields)
    (ht : t.isSelectable column) (hcolumns : ∀ ref ∈ t.columns, Presents c d column ref) :
    Decided c search (d.withComputed fields) fields t (storeTruth column (storedAt c d) t) := by
  intro q s s' h hs
  rw [isSelectable] at ht
  rw [storeTruth]
  cases hfield : t.isFieldTest with
  | true =>
    rw [hfield] at ht
    rcases filter_cases (isTest_of_isFieldTest hfield) h with htest | ⟨hnot, -⟩
    · obtain ⟨truth, htruth, hdecides⟩ := decides_fieldTest hsearch htest
        (fun ref href => (hcolumns ref href).holdsColumn hfields) ht
      rw [if_pos rfl, truthOf_of_hasTruth htruth]
      exact hdecides
    · rw [hfield] at hnot
      cases hnot
  | false =>
    rw [hfield] at ht
    obtain ⟨hrelational, hlogical⟩ := Bool.and_eq_true_iff.mp ht
    exact decides_computed hfields hrelational hlogical hfield hcolumns h hs

theorem eq_boolean_of_stored {v : Value} (hv : v.isExact) {p : Bool} (h : v.Stored (.boolean p)) : v = .boolean p := by
  have hstored := Value.stored?_of_stored (by rw [hv, Bool.or_true]) h
  cases v with
  | boolean q => cases hstored; rfl
  | bigDecimal text =>
    rw [Value.stored?, Value.toStored] at hstored
    cases hread : readFloat? text <;> rw [hread] at hstored <;> cases hstored
  | null | varbinary bytes | blob bytes | clob text | xml text | array items => cases hv
  | _ => cases hstored

theorem evaluatesTo_computed (ht : t.isRelational) (hlogical : t.isLogical)
    (hsettled : t.isSettled column) (hcolumns : ∀ ref ∈ t.columns, Presents c d column ref) :
    (EvaluatesTo column t .null) ∨ EvaluatesTo column t (.boolean (isTruthy (t.storeValue (storedAt c d)))) := by
  obtain ⟨v, hv, hagrees⟩ := agrees_storeValue t ht hsettled fun ref href => (hcolumns ref href).readsExactly
  obtain ⟨p, hp⟩ := storeValue_of_isLogical hlogical (storedAt c d)
  cases hnull : v.isNull with
  | true =>
    obtain rfl := eq_null_of_isNull hnull
    exact .inl hv
  | false =>
    obtain ⟨hexact, b, hb, hstored⟩ := hagrees hnull
    rw [hp] at hb ⊢
    cases hb
    obtain rfl := eq_boolean_of_stored hexact hstored
    exact .inr hv

theorem hasTruth_of_isDecided (hsearch : FindsPatterns search) (ht : t.isSelectable column)
    (hdecided : t.isDecided column) (hcompiles : Compiles c t)
    (hcolumns : ∀ ref ∈ t.columns, Presents c d column ref) :
    HasTruth column t (storeTruth column (storedAt c d) t) := by
  rw [isSelectable] at ht
  rw [isDecided] at hdecided
  rw [storeTruth]
  cases hfield : t.isFieldTest with
  | true =>
    rw [hfield, if_pos rfl] at ht hdecided
    obtain ⟨q, s, s', hq⟩ := hcompiles
    rcases filter_cases (isTest_of_isFieldTest hfield) hq with htest | ⟨hnot, -⟩
    · -- a field test reads the document as it stands, with nothing computed onto it
      have hnumbered : Numbered 0 [] := True.intro
      obtain ⟨truth, htruth, -⟩ := decides_fieldTest hsearch htest
        (fun ref href => (hcolumns ref href).holdsColumn hnumbered) ht
      rw [storedTest_eq_self (by simpa using hdecided)] at htruth ⊢
      rw [if_pos rfl, truthOf_of_hasTruth htruth]
      exact htruth
    · rw [hfield] at hnot
      cases hnot
  | false =>
    rw [hfield, if_neg (by decide)] at ht hdecided
    obtain ⟨hrelational, hlogical⟩ := Bool.and_eq_true_iff.mp ht
    obtain ⟨hsettled, hknown⟩ := Bool.and_eq_true_iff.mp hdecided
    rcases evaluatesTo_computed hrelational hlogical hsettled hcolumns with hnull | hvalue
    · rw [isKnown, hnull] at hknown
      cases hknown
    · exact ⟨_, hvalue, rfl⟩

/-- The condition of a predicate selects a document, `withComputed` fields, when the predicate is true by the
`storeTruth` of its tests. This is how rows are selected when all tests are decided. A computed test that is not
known is selected in another way just when the store takes it for true. -/
theorem accepts_withComputed (hsearch : FindsPatterns search) (hfields : Numbered 0 fields)
    {e : Expression} {q : Condition} {s s' : Draft σ} (h : e.filter c .raw s = (.ok q, s'))
    (hs : s'.helperFields <+: fields) (htests : ∀ t ∈ e.tests, t.isSelectable column)
    (hcolumns : ∀ ref ∈ e.columns, Presents c d column ref) :
    q.accepts search (d.withComputed fields) =
        (e.truthBy (storeTruth column (storedAt c d)) == some true) ∧
      ((∀ t ∈ e.tests, t.isDecided column) →
        e.accepts column = .ok (q.accepts search (d.withComputed fields))) ∧
      (e.isTest → e.isFieldTest = false → e.isSettled column →
        (e.accepts column = .ok (q.accepts search (d.withComputed fields)) ↔
          e.isKnown column ∨ Bson.isTruthy (e.storeValue (storedAt c d)) = false)) := by
  have hcolumnsOf {t : Expression} (ht : t ∈ e.tests) :
      ∀ ref ∈ t.columns, Presents c d column ref := fun ref href =>
    hcolumns ref (Expression.mem_columns_tests.mpr ⟨t, ht, href⟩)
  have hdecides : q.Decides search (d.withComputed fields)
      (e.truthBy (storeTruth column (storedAt c d))) :=
    decides_filter e h hs fun t ht =>
      decided_storeTruth hsearch hfields (htests t ht) (hcolumnsOf ht)
  refine ⟨hdecides.yes, fun hdecided => ?_, fun htest hfield hsettled => ?_⟩
  · have htruth : HasTruth column (e.mapTests id) (e.truthBy (storeTruth column (storedAt c d))) :=
      hasTruth_mapTests e fun t ht => hasTruth_of_isDecided hsearch (htests t ht) (hdecided t ht)
        (e.compiles_tests ⟨q, s, s', h⟩ t ht) (hcolumnsOf ht)
    rw [mapTests_eq_self (f := id) e fun _ _ => rfl] at htruth
    rw [accepts_of_hasTruth htruth, hdecides.yes]
  · have hself : e ∈ e.tests := tests_of_isTest htest ▸ mem_singleton_self e
    have hselectable := htests e hself
    rw [isSelectable, hfield, if_neg (by decide)] at hselectable
    obtain ⟨hrelational, hlogical⟩ := Bool.and_eq_true_iff.mp hselectable
    have htruth : e.truthBy (storeTruth column (storedAt c d)) =
        some (Bson.isTruthy (e.storeValue (storedAt c d))) := by
      rw [truthBy_of_isTest htest, storeTruth, hfield]
      rfl
    rw [hdecides.yes, htruth]
    rcases evaluatesTo_computed hrelational hlogical hsettled hcolumns with hnull | hvalue
    · have hfalse : e.accepts column = .ok false := accepts_of_hasTruth ⟨.null, hnull, rfl⟩
      have hknown : e.isKnown column = false := by rw [isKnown, hnull]; rfl
      rw [hfalse, hknown, Except.ok.injEq]
      cases Bson.isTruthy (e.storeValue (storedAt c d)) <;> simp
    · have hknown : e.isKnown column := by rw [isKnown, hvalue]; rfl
      exact ⟨fun _ => .inl hknown, fun _ => accepts_of_hasTruth ⟨_, hvalue, rfl⟩⟩

end Computed

def ranges : Context Unit where
  catalog := .ofTables
    [{ name := "ranges"
       columns := [⟨"id", .integer, false⟩, ⟨"low", .string, false⟩, ⟨"high", .string, false⟩]
       primaryKey := ["id"] }]
  top := "ranges"
  sources := [⟨"ranges", "ranges", [], false⟩]
  objects := .unavailable
  mode := .pipeline

def low : Expression := .column ⟨"", "low"⟩

def high : Expression := .column ⟨"", "high"⟩

/-- The ranges with ends in order, apart from those up to a given text. -/
def ordered : Expression :=
  .and [.comparison .lt low high, .not (.isIn high [low, .literal (.string "z")] false)]

def orderedFields : List (String × Bson) :=
  [("__m0", .opList "$lt" [.string "$low", .string "$high"]),
    ("__m1", .opList "$in" [.string "$high", .array [.string "$low", .string "z"]])]

def orderedCondition : Condition :=
  .and [.comparison (some "__m0") .eq (.boolean true), .comparison (some "__m1") .ne (.boolean true)]

def readText (d : Document) (ref : ColumnRef) : Except WriteError Value :=
  match Document.get? d ref.column with
  | some (.string text) => .ok (.string text)
  | _ => .ok .null

theorem presents_text {d : Document} (hname : name = "low" ∨ name = "high")
    (hd : ∀ b, Document.get? d name = some b → ∃ text, b = .string text) :
    Presents ranges d (readText d) ⟨"", name⟩ := by
  have hresolve : ranges.resolve ⟨"", name⟩ = .ok ⟨name, .string⟩ := by
    rcases hname with rfl | rfl <;> rfl
  have hplain : Path.IsName name ∧ isMarked name = false ∧ isComputedPath name = false := by
    rcases hname with rfl | rfl <;> decide +kernel
  have hsplit := Path.split_of_isName hplain.1
  have hpath : Document.atPath? d name = Document.get? d name := by
    rw [Document.atPath?, hsplit, follow?, step?]
    cases Document.get? d name <;> rfl
  have hstored : storedAt ranges d ⟨"", name⟩ = Document.get? d name := by
    rw [storedAt, hresolve]
    exact hpath
  have hsingle : isSingle (Path.split name) (.document d) := by
    rw [hsplit, isSingle]
    split
    · rename_i b hget
      obtain ⟨text, rfl⟩ := hd b hget
      rfl
    · rfl
  have hreads : Condition.Reads d name (storedAt ranges d ⟨"", name⟩) :=
    ⟨hplain.2.1, hsingle, hpath.trans hstored.symm⟩
  cases hget : Document.get? d name with
  | none =>
    have hx : readText d ⟨"", name⟩ = .ok .null := by rw [readText, hget]
    exact ⟨_, .null, hresolve, hx, hreads, .inl ⟨rfl, by rw [hstored, hget]; rfl⟩, rfl, hplain.2.2⟩
  | some b =>
    obtain ⟨text, rfl⟩ := hd b hget
    have hx : readText d ⟨"", name⟩ = .ok (.string text) := by rw [readText, hget]
    exact ⟨_, .string text, hresolve, hx, hreads,
      .inr ⟨.string text, by rw [hstored, hget], rfl, Unit, .unavailable, (), (), rfl⟩, rfl, hplain.2.2⟩

def closedRange : Document := [("_id", .int32 1), ("low", .string "a"), ("high", .string "b")]

def openRange : Document := [("_id", .int32 2), ("high", .string "b")]

theorem presents_ordered {d : Document}
    (hd : ∀ name ∈ ["low", "high"], ∀ b, Document.get? d name = some b → ∃ text, b = .string text) :
    ∀ ref ∈ ordered.columns, Presents ranges d (readText d) ref := by
  intro ref href
  have hmem : ref ∈ [⟨"", "low"⟩, ⟨"", "high"⟩, ⟨"", "high"⟩, ⟨"", "low"⟩] := href
  simp only [mem_cons, not_mem_nil, or_false] at hmem
  rcases hmem with rfl | rfl | rfl | rfl <;> exact presents_text (by simp) (hd _ (by simp))

/-- Where both ends are there, documents are selected as rows are. Where the lower one is not, neither
test is known, but the document is selected. -/
theorem accepts_ordered :
    FindsPatterns likeSearch ∧ Numbered 0 orderedFields ∧
      (∃ s', ordered.filter ranges .raw { objects := () } = (.ok orderedCondition, s') ∧
        s'.helperFields <+: orderedFields) ∧
      (∀ ref ∈ ordered.columns, Presents ranges closedRange (readText closedRange) ref) ∧
      (∀ t ∈ ordered.tests, t.isSelectable (readText closedRange) ∧ t.isDecided (readText closedRange)) ∧
      ordered.accepts (readText closedRange) =
        .ok (orderedCondition.accepts likeSearch (closedRange.withComputed orderedFields)) ∧
      (∀ ref ∈ ordered.columns, Presents ranges openRange (readText openRange) ref) ∧
      (∀ t ∈ ordered.tests, t.isSelectable (readText openRange) ∧
        t.isKnown (readText openRange) = false) ∧
      orderedCondition.accepts likeSearch (openRange.withComputed orderedFields) ∧
      ordered.accepts (readText openRange) = .ok false ∧
      (Expression.comparison .lt low high).accepts (readText openRange) ≠
        .ok ((Condition.comparison (some "__m0") .eq (.boolean true)).accepts likeSearch
          (openRange.withComputed orderedFields)) := by
  have hfields : Numbered 0 orderedFields := ⟨rfl, rfl, True.intro⟩
  obtain ⟨s', hfilter, hs⟩ : ∃ s', ordered.filter ranges .raw { objects := () } =
      (.ok orderedCondition, s') ∧ s'.helperFields <+: orderedFields :=
    ⟨_, rfl, prefix_refl _⟩
  have hclosed : ∀ ref ∈ ordered.columns, Presents ranges closedRange (readText closedRange) ref :=
    presents_ordered fun name hname b hb => by
      simp only [mem_cons, not_mem_nil, or_false] at hname
      rcases hname with rfl | rfl <;> cases hb <;> exact ⟨_, rfl⟩
  have hopen : ∀ ref ∈ ordered.columns, Presents ranges openRange (readText openRange) ref :=
    presents_ordered fun name hname b hb => by
      simp only [mem_cons, not_mem_nil, or_false] at hname
      rcases hname with rfl | rfl <;> cases hb
      exact ⟨_, rfl⟩
  have hclosedTests : ∀ t ∈ ordered.tests,
      t.isSelectable (readText closedRange) ∧ t.isDecided (readText closedRange) := by decide +kernel
  have hopenTests : ∀ t ∈ ordered.tests,
      t.isSelectable (readText openRange) ∧ t.isKnown (readText openRange) = false := by decide +kernel
  refine ⟨findsPatterns_likeSearch, hfields, ⟨s', hfilter, hs⟩, hclosed, hclosedTests, ?_, hopen,
    hopenTests, ?_, rfl, ?_⟩
  · exact (accepts_withComputed findsPatterns_likeSearch hfields hfilter hs
      (fun t ht => (hclosedTests t ht).1) hclosed).2.1 fun t ht => (hclosedTests t ht).2
  · rw [(accepts_withComputed findsPatterns_likeSearch hfields hfilter hs
      (fun t ht => (hopenTests t ht).1) hopen).1]
    decide +kernel
  · obtain ⟨s₁, hcomparison, hs₁⟩ : ∃ s₁, (Expression.comparison .lt low high).filter ranges .raw
        { objects := () } = (.ok (.comparison (some "__m0") .eq (.boolean true)), s₁) ∧
          s₁.helperFields <+: orderedFields := ⟨_, rfl, [_], rfl⟩
    have hiff := (accepts_withComputed findsPatterns_likeSearch hfields hcomparison hs₁
      (fun t ht => (hopenTests t (mem_append_left _ ht)).1)
      fun ref href => hopen ref (mem_append_left _ href)).2.2 rfl rfl rfl
    rw [Ne, hiff]
    decide +kernel

end Expression

end Pushdown
