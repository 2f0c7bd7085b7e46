import Pushdown.CommandLine
import Pushdown.Proofs.WrittenForm

/-!
# Commands read back

`readShape_text`: commands, tables and options are read back from their texts, as long as the form is not nested
deeper than `nestingLimit`; a form that is nested deeper cannot be read. Floating-point constants and unsettled
times are left out (`IsExact`).
-/

namespace Pushdown

open Json List Expression Option

theorem readsAt_label (n : Nat) (label : Option String) :
    ReadsAt n (option? string?) (.ofOption .string label) label :=
  readsAt_ofOption (fun _ => by simp) fun s _ => readsAt_string n s

theorem SelectItem.readsAt {item : SelectItem} (hitem : item.expr.IsExact) (n : Nat) :
    ReadsAt n ofJson? item.toJson item := by
  refine readsAt_object rfl fun m _ => ?_
  rw [ofJson?, record?_cut_object]
  exact required_bind (Expression.readsAt hitem m) (defaulted_bind none (readsAt_label m item.label)
    (pure_read m item))

theorem TableRef.readsAt (n : Nat) (t : TableRef) : ReadsAt n ofJson? t.toJson t := by
  refine readsAt_object rfl fun m _ => ?_
  rw [ofJson?, record?_cut_object]
  exact required_bind (readsAt_string m t.name) (defaulted_bind none (readsAt_label m t.label) (pure_read m t))

theorem JoinType.readsAt (n : Nat) (type : JoinType) : ReadsAt n ofJson? (.string type.name) type := by
  cases type <;> simp only [ReadsAt, name, cutBelow_string, depth, Nat.zero_le, if_true] <;> rfl

theorem Join.readsAt {j : Join} (hj : ∀ e ∈ j.condition, e.IsExact) (n : Nat) : ReadsAt n ofJson? j.toJson j := by
  refine readsAt_object rfl fun m _ => ?_
  rw [ofJson?, record?_cut_object]
  exact required_bind (j.joinType.readsAt m) (required_bind (j.table.readsAt m)
    (defaulted_bind none (readsAt_option hj m) (pure_read m j)))

theorem FromClause.readsAt {f : FromClause} (hf : ∀ j ∈ f.joins, ∀ e ∈ j.condition, e.IsExact)
    (n : Nat) : ReadsAt n ofJson? f.toJson f := by
  refine readsAt_object rfl fun m _ => ?_
  rw [ofJson?, record?_cut_object]
  exact required_bind (f.base.readsAt m) (defaulted_bind []
    (readsAt_list fun k _ j hj => Join.readsAt (hf j hj) k) (pure_read m f))

theorem SortItem.readsAt {item : SortItem} (hitem : item.expr.IsExact) (n : Nat) :
    ReadsAt n ofJson? item.toJson item := by
  refine readsAt_object rfl fun m _ => ?_
  rw [ofJson?, record?_cut_object]
  exact required_bind (Expression.readsAt hitem m) (defaulted_bind true (readsAt_bool m item.ascending)
    (pure_read m item))

namespace Select

def expressions (s : Select) : List Expression :=
  s.columns.map (·.expr) ++ s.source.joins.filterMap (·.condition) ++ s.filter.toList ++ s.groupBy ++
    s.having.toList ++ s.orderBy.map (·.expr)

theorem readsAt_count (n : Nat) (count : Option UInt64) :
    ReadsAt n (option? rowCount?) (.ofOption (fun k : UInt64 => .ofInt k.toNat) count) count := by
  refine readsAt_ofOption (fun _ => by simp [ofInt]) fun k _ => ?_
  have hcount := k.toNat_lt
  have hrange : (0 : Int) ≤ k.toNat ∧ (k.toNat : Int) ≤ 18446744073709551615 := by omega
  exact readsAt_width hrange (by simp) n

theorem readsAt {s : Select} (hs : ∀ e ∈ s.expressions, e.IsExact) (n : Nat) : ReadsAt n ofJson? s.toJson s := by
  simp only [expressions, mem_append, List.mem_map, mem_filterMap, mem_toList] at hs
  refine readsAt_object rfl fun m _ => ?_
  have hcolumns : ReadsAt m (list? SelectItem.ofJson?) (.array (s.columns.map SelectItem.toJson)) s.columns :=
    readsAt_list fun k _ item hitem => SelectItem.readsAt (hs _ (by grind)) k
  have hsource : ReadsAt m FromClause.ofJson? s.source.toJson s.source :=
    FromClause.readsAt (fun j hj e he => hs e (.inl (.inl (.inl (.inl (.inr ⟨j, hj, he⟩)))))) m
  have hfilter := readsAt_option (o := s.filter) (fun e he => hs e (.inl (.inl (.inl (.inr he))))) m
  have hgroupBy : ReadsAt m (list? Expression.ofJson?) (.array (listToJson s.groupBy)) s.groupBy :=
    readsAt_exprs (fun e he => hs e (by grind)) m
  have hhaving := readsAt_option (o := s.having) (fun e he => hs e (.inl (.inr he))) m
  have horderBy : ReadsAt m (list? SortItem.ofJson?) (.array (s.orderBy.map SortItem.toJson)) s.orderBy :=
    readsAt_list fun k _ item hitem => SortItem.readsAt (hs _ (by grind)) k
  rw [ofJson?, record?_cut_object]
  exact defaulted_bind false (readsAt_bool m s.distinct) (required_bind hcolumns
    (required_bind hsource (defaulted_bind none hfilter (defaulted_bind [] hgroupBy
      (defaulted_bind none hhaving (defaulted_bind [] horderBy
        (defaulted_bind none (readsAt_count m s.limit) (defaulted_bind none (readsAt_count m s.offset)
          (pure_read m s)))))))))

theorem whole_toJson {s : Select} (hs : ∀ e ∈ s.expressions, e.IsExact) : s.toJson.Whole := by
  simp only [expressions, mem_append, List.mem_map, mem_filterMap, mem_toList] at hs
  have hcolumns : ∀ item ∈ s.columns, item.toJson.Whole := fun item hitem => by
    have hexpr := item.expr.whole_toJson (hs _ (by grind))
    simp [SelectItem.toJson, Whole, WholeFields, hexpr]
  have hjoins : ∀ j ∈ s.source.joins, j.toJson.Whole := fun j hj => by
    have hcondition : ∀ e ∈ j.condition, e.toJson.Whole := fun e he =>
      e.whole_toJson (hs e (.inl (.inl (.inl (.inl (.inr ⟨j, hj, he⟩))))))
    simpa [Join.toJson, TableRef.toJson, Whole, WholeFields] using hcondition
  have hfilter : ∀ e ∈ s.filter, e.toJson.Whole := fun e he => e.whole_toJson (hs e (.inl (.inl (.inl (.inr he)))))
  have hgroupBy : ∀ e ∈ s.groupBy, e.toJson.Whole := fun e he => e.whole_toJson (hs e (by grind))
  have hhaving : ∀ e ∈ s.having, e.toJson.Whole := fun e he => e.whole_toJson (hs e (.inl (.inr he)))
  have horderBy : ∀ item ∈ s.orderBy, item.toJson.Whole := fun item hitem => by
    have hexpr := item.expr.whole_toJson (hs _ (by grind))
    simp [SortItem.toJson, Whole, WholeFields, hexpr]
  simp only [toJson, FromClause.toJson, TableRef.toJson, listToJson_eq_map, ofInt, Whole,
    WholeFields, wholeItems_map, whole_ofOption]
  simp_all

end Select

theorem Insert.readsAt {i : Insert} (hi : ∀ row ∈ i.rows, ∀ e ∈ row, e.IsExact) (n : Nat) :
    ReadsAt n ofJson? i.toJson i := by
  refine readsAt_object rfl fun m _ => ?_
  have hrows : ReadsAt m (list? (list? Expression.ofJson?))
      (.array (i.rows.map fun row => .array (listToJson row))) i.rows :=
    readsAt_list fun k _ row hrow => readsAt_exprs (hi row hrow) k
  rw [ofJson?, record?_cut_object]
  exact required_bind (readsAt_string m i.table) (required_bind (readsAt_strings m i.columns)
    (required_bind hrows (pure_read m i)))

theorem Assignment.readsAt {a : Assignment} (ha : a.value.IsExact) (n : Nat) : ReadsAt n ofJson? a.toJson a := by
  refine readsAt_object rfl fun m _ => ?_
  rw [ofJson?, record?_cut_object]
  exact required_bind (readsAt_string m a.column) (required_bind (Expression.readsAt ha m) (pure_read m a))

theorem Update.readsAt {u : Update} (hassigned : ∀ a ∈ u.assignments, a.value.IsExact)
    (hfilter : ∀ e ∈ u.filter, e.IsExact) (n : Nat) : ReadsAt n ofJson? u.toJson u := by
  refine readsAt_object rfl fun m _ => ?_
  have hassignments : ReadsAt m (list? Assignment.ofJson?) (.array (u.assignments.map Assignment.toJson))
      u.assignments := readsAt_list fun k _ a ha => Assignment.readsAt (hassigned a ha) k
  rw [ofJson?, record?_cut_object]
  exact required_bind (readsAt_string m u.table) (required_bind hassignments
    (defaulted_bind none (readsAt_option hfilter m) (pure_read m u)))

theorem Delete.readsAt {d : Delete} (hfilter : ∀ e ∈ d.filter, e.IsExact) (n : Nat) :
    ReadsAt n ofJson? d.toJson d := by
  refine readsAt_object rfl fun m _ => ?_
  rw [ofJson?, record?_cut_object]
  exact required_bind (readsAt_string m d.table)
    (defaulted_bind none (readsAt_option hfilter m) (pure_read m d))

namespace Command

def expressions : Command → List Expression
  | .select s => s.expressions
  | .insert i => i.rows.flatten
  | .update u => u.assignments.map (·.value) ++ u.filter.toList
  | .delete d => d.filter.toList

def IsExact (c : Command) : Prop := ∀ e ∈ c.expressions, e.IsExact

theorem readsAt {c : Command} (hc : c.IsExact) (n : Nat) : ReadsAt n ofJson? c.toJson c := by
  cases c with
  | select s => exact readsAt_tagged rfl fun m _ => (Select.readsAt hc m).map Command.select
  | insert i =>
    have hrows : ∀ row ∈ i.rows, ∀ e ∈ row, e.IsExact := fun row hrow e he => hc e (mem_flatten_of_mem hrow he)
    exact readsAt_tagged rfl fun m _ => (Insert.readsAt hrows m).map Command.insert
  | update u =>
    have hassigned : ∀ a ∈ u.assignments, a.value.IsExact := fun a ha =>
      hc _ (mem_append_left _ (mem_map_of_mem ha))
    have hfilter : ∀ e ∈ u.filter, e.IsExact := fun e he => hc e (mem_append_right _ (mem_toList.2 he))
    exact readsAt_tagged rfl fun m _ => (Update.readsAt hassigned hfilter m).map Command.update
  | delete d =>
    have hfilter : ∀ e ∈ d.filter, e.IsExact := fun e he => hc e (mem_toList.2 he)
    exact readsAt_tagged rfl fun m _ => (Delete.readsAt hfilter m).map Command.delete

theorem whole_toJson {c : Command} (hc : c.IsExact) : c.toJson.Whole := by
  have hexpr : ∀ e ∈ c.expressions, e.toJson.Whole := fun e he => e.whole_toJson (hc e he)
  cases c with
  | select s => simpa [toJson, tagged, Whole, WholeFields] using Select.whole_toJson hc
  | insert i =>
    simp only [expressions, mem_flatten] at hexpr
    simp only [toJson, tagged, Insert.toJson, ofStrings, listToJson_eq_map, Whole, WholeFields,
      wholeItems_map]
    exact ⟨⟨trivial, fun _ _ => trivial, fun row hrow e he => hexpr e ⟨row, hrow, he⟩, trivial⟩, trivial⟩
  | update u =>
    simp only [expressions, mem_append, List.mem_map, mem_toList] at hexpr
    simp only [toJson, tagged, Update.toJson, Assignment.toJson, Whole, WholeFields, wholeItems_map, whole_ofOption]
    exact ⟨⟨trivial, fun a ha => ⟨trivial, hexpr _ (.inl ⟨a, ha, rfl⟩), trivial⟩,
      fun e he => hexpr e (.inr he), trivial⟩, trivial⟩
  | delete d =>
    simp only [expressions, mem_toList] at hexpr
    simpa [toJson, tagged, Delete.toJson, Whole, WholeFields] using hexpr

end Command

theorem Column.readsAt (n : Nat) (c : Column) : ReadsAt n ofJson? c.toJson c := by
  refine readsAt_object rfl fun m _ => ?_
  rw [ofJson?, record?_cut_object]
  exact required_bind (readsAt_string m c.name) (required_bind (c.type.readsAt m)
    (defaulted_bind false (readsAt_bool m c.autoGenerated) (pure_read m c)))

theorem ForeignKey.readsAt (n : Nat) (k : ForeignKey) : ReadsAt n ofJson? k.toJson k := by
  refine readsAt_object rfl fun m _ => ?_
  rw [ofJson?, record?_cut_object]
  exact required_bind (readsAt_string m k.name) (required_bind (readsAt_strings m k.columns)
    (required_bind (readsAt_string m k.referencedTable)
      (defaulted_bind [] (readsAt_strings m k.referencedColumns) (pure_read m k))))

theorem TableProperties.readsAt (n : Nat) (p : TableProperties) : ReadsAt n ofJson? p.toJson p := by
  refine readsAt_object rfl fun m _ => ?_
  rw [ofJson?, record?_cut_object]
  exact defaulted_bind none (readsAt_label m p.mergeInto) (defaulted_bind false
    (readsAt_bool m p.embeddable) (defaulted_bind none (readsAt_label m p.embeddableInto) (pure_read m p)))

namespace Table

theorem readsAt (n : Nat) (t : Table) : ReadsAt n ofJson? t.toJson t := by
  refine readsAt_object rfl fun m _ => ?_
  have hcolumns : ReadsAt m (list? Column.ofJson?) (.array (t.columns.map Column.toJson)) t.columns :=
    readsAt_list fun k _ c _ => c.readsAt k
  have hkeys : ReadsAt m (list? ForeignKey.ofJson?) (.array (t.foreignKeys.map ForeignKey.toJson))
      t.foreignKeys := readsAt_list fun k _ key _ => key.readsAt k
  rw [ofJson?, record?_cut_object]
  exact required_bind (readsAt_string m t.name) (required_bind hcolumns
    (defaulted_bind [] (readsAt_strings m t.primaryKey) (defaulted_bind [] hkeys
      (defaulted_bind {} (t.properties.readsAt m) (pure_read m t)))))

theorem whole_toJson (t : Table) : t.toJson.Whole := by
  simp [toJson, Column.toJson, ForeignKey.toJson, TableProperties.toJson, ofStrings, Whole, WholeFields,
    SqlType.whole_toJson]

end Table

namespace Options

theorem readsAt (n : Nat) (o : Options) : ReadsAt n ofJson? o.toJson o := by
  refine readsAt_object rfl fun m _ => ?_
  rw [ofJson?, record?_cut_object]
  exact defaulted_bind true (readsAt_bool m o.literalExpressions) (defaulted_bind true
    (readsAt_bool m o.guardDateFunctions) (defaulted_bind true (readsAt_bool m o.pullFastPath)
      (defaulted_bind true (readsAt_bool m o.propagateCopies) (defaulted_bind "__lobs"
        (readsAt_string m o.largeObjectCollection) (pure_read m o)))))

theorem whole_toJson (o : Options) : o.toJson.Whole := by simp [toJson, Whole, WholeFields]

end Options

theorem readShape_render {α : Type} {f : Json → Option α} {j : Json} {a : α} (hj : j.Whole)
    (hread : ReadsAt nestingLimit f j a) (what : String) :
    readShape what f j.render = if j.depth ≤ nestingLimit then .ok a else .error ("invalid " ++ what) := by
  rw [readShape, parse?_render hj, bind_some, read?, hread]
  split_ifs <;> rfl

/-- Commands and expressions that are `IsExact`, values without floating-point constants, types, tables and
options are read back from their texts, exactly as long as the text is not nested deeper than `nestingLimit`.
Times are `settled` on the way, which changes only leap seconds that are not the last of their minute. -/
theorem readShape_text (what : String) :
    (∀ c : Command, c.IsExact → readShape what Command.ofJson? c.toJson.render =
      if c.toJson.depth ≤ nestingLimit then .ok c else .error ("invalid " ++ what)) ∧
    (∀ e : Expression, e.IsExact → readShape what Expression.ofJson? e.toJson.render =
      if e.toJson.depth ≤ nestingLimit then .ok e else .error ("invalid " ++ what)) ∧
    (∀ v : Value, v.isFloatFree → readShape what Value.ofJson? v.toJson.render =
      if v.toJson.depth ≤ nestingLimit then .ok v.settled else .error ("invalid " ++ what)) ∧
    (∀ t : Time, t.settled = t ↔ (1000000000 ≤ t.nano → t.second % 60 = 59)) ∧
    (∀ type : SqlType, readShape what SqlType.ofJson? type.toJson.render =
      if type.toJson.depth ≤ nestingLimit then .ok type else .error ("invalid " ++ what)) ∧
    (∀ t : Table, readShape what Table.ofJson? t.toJson.render =
      if t.toJson.depth ≤ nestingLimit then .ok t else .error ("invalid " ++ what)) ∧
    (∀ o : Options, readShape what Options.ofJson? o.toJson.render = .ok o) := by
  refine ⟨fun c hc => ?_, fun e he => ?_, fun v hv => ?_, Time.settled_eq_self_iff, fun type => ?_, fun t => ?_,
    fun o => ?_⟩
  · exact readShape_render (Command.whole_toJson hc) (Command.readsAt hc _) what
  · exact readShape_render (e.whole_toJson he) (Expression.readsAt he _) what
  · exact readShape_render (v.whole_toJson hv) (Value.readsAt hv _) what
  · exact readShape_render type.whole_toJson (type.readsAt _) what
  · exact readShape_render t.whole_toJson (t.readsAt _) what
  · have hflat : o.toJson.depth ≤ nestingLimit := by
      simp [Options.toJson, depth, depthFields, nestingLimit]
    rw [readShape_render o.whole_toJson (o.readsAt _) what, if_pos hflat]

theorem readShape_text_command :
    let c := Command.select
      { distinct := true
        columns := [{ expr := .literal (.string "say \"a\\b\"\n\u0001é"), label := some "" },
          { expr := .call "ROUND" [.column ⟨"t", "x"⟩, .literal (.integer (-2))], label := none }]
        source := { base := { name := "t", label := none }, joins := [] }
        filter := some (.like (.column ⟨"", "a"⟩) (.literal (.char '%')) (some '\\') true)
        orderBy := [{ expr := .aggregate .count none false, ascending := false }]
        limit := some 18446744073709551615 }
    let v := Value.array [.array [.null],
      .bigInteger ⟨-170141183460469231731687303715884105728, by decide, by decide⟩,
      .date ⟨-95746126, by decide, by decide⟩]
    readShape "command" Command.ofJson? c.toJson.render = .ok c ∧
      readShape "value" Value.ofJson? v.toJson.render = .ok v := by
  intro c v
  have hc : c.IsExact := by
    simp only [c, Command.IsExact, Command.expressions, Select.expressions]
    simp [Expression.IsExact, Expression.parts, Expression.partsOf, Value.isFloatFree, Value.settled]
  refine ⟨((readShape_text "command").1 c hc).trans (if_pos (by decide)), ?_⟩
  exact ((readShape_text "value").2.2.1 v rfl).trans (if_pos (by decide))

namespace Expression

theorem depth_nots (e : Expression) (n : Nat) : (Nat.repeat Expression.not n e).toJson.depth = e.toJson.depth + n := by
  induction n with
  | zero => rfl
  | succ n ih => rw [Nat.repeat, toJson, depth_tagged, ih, Nat.add_assoc]

theorem isExact_nots {e : Expression} (he : e.IsExact) (n : Nat) : (Nat.repeat Expression.not n e).IsExact := by
  induction n with
  | zero => exact he
  | succ n ih => simpa [Nat.repeat, IsExact, parts] using ih

end Expression

/-- An expression of 126 negations is not read back, and a leap second in the middle of a minute is read as the
second after it. -/
theorem not_read_back :
    let e := Nat.repeat Expression.not 126 (.column ⟨"t", "a"⟩)
    let time (second nano : Nat) (h : second < 86400 ∧ nano < 2000000000) : Value := .time ⟨second, nano, h.1, h.2⟩
    (e.IsExact ∧ readShape "expression" Expression.ofJson? e.toJson.render = .error "invalid expression") ∧
      readShape "value" Value.ofJson? (time 86164 1333333333 (by decide)).toJson.render =
        .ok (time 86165 333333333 (by decide)) := by
  intro e time
  have he : e.IsExact := Expression.isExact_nots (by simp [Expression.IsExact, Expression.parts]) 126
  have hdeep : e.toJson.depth = 128 := Expression.depth_nots _ 126
  refine ⟨⟨he, ?_⟩, ?_⟩
  · rw [readShape_render (e.whole_toJson he) (Expression.readsAt he _), hdeep]
    rfl
  · exact readShape_render (Value.whole_toJson _ rfl) (Value.readsAt rfl _) _

end Pushdown
