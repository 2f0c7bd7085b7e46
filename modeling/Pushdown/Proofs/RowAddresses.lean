import Mathlib.Data.List.Induction
import Mathlib.Data.List.Nodup
import Pushdown.Proofs.Rows

/-!
# The paths of rows

`positional_paths_address`: the path of a row in its top-level document leads to the row, and to no other of the
rows that are reached by the same hops. Names and positions are taken apart again where the path is followed
(`atPath?_extend_positionalPath`).
-/

namespace Pushdown.Row

open List Bson

variable {r c : Row} {hop : Hop} {hops : List Hop} {s : RowStep} {table : String} {d : Document}

theorem follow?_names_of_mem_stepsBelow (h : s ∈ stepsBelow hop r) :
    follow? s.names (.document r.row) = some (.document s.row) := by
  have hfield := field_of_mem_stepsBelow h
  rw [stepsBelow] at h
  split at h
  · rename_i items hget
    obtain ⟨-, i, hindex, hitem⟩ := step_of_mem_arrayRows h
    rw [Nat.zero_add] at hindex
    rw [RowStep.names, hindex, hfield, follow?, step?, hget]
    show ((readIndex? (toString i)).bind (items[·]?)).bind (follow? []) = _
    rw [readIndex?_toString, Option.bind_some, hitem]
    rfl
  · rename_i row hget
    obtain rfl := mem_singleton.mp h
    rw [RowStep.names, follow?, step?, hget]
    rfl
  · cases h

theorem follow?_names (h : c ∈ (ofTop table d).walk hops) :
    follow? c.names (.document d) = some (.document c.row) := by
  induction hops using List.reverseRecOn generalizing c with
  | nil =>
    obtain rfl := mem_singleton.mp h
    rfl
  | append_singleton hops hop ih =>
    obtain ⟨p, hp, s, hs, rfl⟩ := exists_below_of_mem_walk h
    rw [names_below, follow?_append, ih hp, row_below]
    exact follow?_names_of_mem_stepsBelow hs

theorem ancestor_mem_walk {more : List Hop} (h : c ∈ (ofTop table d).walk (hops ++ more)) :
    c.ancestor hops.length ∈ (ofTop table d).walk hops := by
  induction more using List.reverseRecOn generalizing c with
  | nil =>
    rw [append_nil] at h
    obtain ⟨steps, -, hsteps, hlength⟩ := exists_steps_of_mem_walk h
    have hself : c.ancestor hops.length = c := by
      rw [ancestor, take_of_length_le (by rw [hsteps, ← hlength]; exact Nat.le_refl _)]
    rwa [hself]
  | append_singleton more hop ih =>
    rw [← append_assoc] at h
    obtain ⟨p, hp, s, -, rfl⟩ := exists_below_of_mem_walk h
    obtain ⟨steps, -, hsteps, hlength⟩ := exists_steps_of_mem_walk hp
    have hle : hops.length ≤ p.steps.length := by
      rw [hsteps, length_append, hlength, length_append]
      omega
    have habove : (p.below s).ancestor hops.length = p.ancestor hops.length := by
      rw [ancestor, ancestor, steps_below, take_append_of_le_length hle]
      rfl
    rw [habove]
    exact ih hp

theorem atPath?_extend_positionalPath (hh : ∀ hop ∈ hops, Path.IsName hop.field)
    (h : c ∈ (ofTop table d).walk hops) {field : String} (hfield : '.' ∉ field.toList) :
    d.atPath? (Path.extend c.positionalPath field) = c.row.atPath? field := by
  have hnames := isName_of_mem_walk hh h
  have hdots : ∀ name ∈ c.names ++ [field], '.' ∉ name.toList :=
    forall_mem_append.mpr ⟨fun name hname => (hnames name hname).2, forall_mem_singleton.mpr hfield⟩
  rw [positionalPath_eq hnames, Path.extend_join fun name hname => (hnames name hname).1,
    Document.atPath?, Path.split_join_of_not_mem (by simp) hdots, follow?_append, follow?_names h,
    Document.atPath?, Path.split_of_not_mem hfield]
  rfl

theorem positionalPath_eq_containerPath (hh : ∀ hop ∈ hops, Path.IsName hop.field) (hne : hops ≠ [])
    (h : c ∈ (ofTop table d).walk hops) :
    c.positionalPath = c.index?.elim c.containerPath fun i => c.containerPath ++ "." ++ toString i := by
  have hnames := isName_of_mem_walk hh h
  obtain ⟨hops, hop, rfl⟩ := (eq_nil_or_concat' hops).resolve_left hne
  obtain ⟨p, hp, s, -, rfl⟩ := exists_below_of_mem_walk h
  have hp := isName_of_mem_walk (fun hop hhop => hh hop (mem_append_left _ hhop)) hp
  rw [positionalPath_eq hnames, containerPath_below hp, index?_below, names_below, RowStep.names]
  cases s.index with
  | none => rfl
  | some i =>
    show Path.join (p.names ++ ([s.field] ++ [toString i])) = _
    rw [← append_assoc, Path.join_append_singleton (by simp)]
    rfl

/-- The path of a row is the path of the field that holds it, with its position if that is an array, and the fields
of the row and of all rows above it are found on the paths that go on from theirs. -/
theorem positional_paths_address (table : String) (d : Document) (hne : hops ≠ [])
    (hh : ∀ hop ∈ hops, Path.IsName hop.field) :
    (((ofTop table d).walk hops).map positionalPath).Nodup ∧
      ∀ r ∈ (ofTop table d).walk hops,
        d.atPath? r.positionalPath = some (.document r.row) ∧
        (r.positionalPath =
          r.index?.elim r.containerPath fun i => r.containerPath ++ "." ++ toString i) ∧
        ∀ depth ≤ hops.length, ∀ field : String, '.' ∉ field.toList →
          r.valueAt? depth field = d.atPath? (Path.extend (r.ancestor depth).positionalPath field) := by
  refine ⟨?_, fun r hr => ⟨?_, positionalPath_eq_containerPath hh hne hr, fun depth hdepth field hfield => ?_⟩⟩
  · refine pairwise_map.mpr ((diverge_walk hh _).imp_of_mem fun {a b} ha hb hab heq => ?_)
    have hnames := isName_of_mem_walk hh ha
    have hnames' := isName_of_mem_walk hh hb
    obtain ⟨hne, hne'⟩ := Path.ne_nil_of_diverge hab
    rw [positionalPath_eq hnames, positionalPath_eq hnames'] at heq
    rw [Path.join_injective hne hne' hnames hnames' heq, Path.diverge_self] at hab
    cases hab
  · have hnames := isName_of_mem_walk hh hr
    obtain ⟨rest, hrest, -, hrestne⟩ := names_of_mem_walk hh hr
    rw [names_ofTop, nil_append] at hrest
    rw [positionalPath_eq hnames, Document.atPath?, Path.split_join (hrest ▸ hrestne hne) hnames]
    exact follow?_names hr
  · obtain ⟨steps, -, hsteps, hlength⟩ := exists_steps_of_mem_walk hr
    have hle : depth ≤ r.steps.length := by
      rw [hsteps, length_append, hlength]
      exact Nat.le_trans hdepth (Nat.le_add_left ..)
    have hr : r ∈ (ofTop table d).walk (hops.take depth ++ hops.drop depth) := by rwa [take_append_drop]
    have habove := ancestor_mem_walk hr
    rw [length_take_of_le hdepth] at habove
    rw [valueAt?, if_pos hle,
      atPath?_extend_positionalPath (fun hop hhop => hh hop (mem_of_mem_take hhop)) habove hfield]

/-- Below a cart, in which the first item is no row: the lines of its parcels, and the note on one of them. -/
def parcelLines : List Hop :=
  [⟨.merge, ⟨"parcel_cart", "cart", "parcel", ["cart"], ["no"], .many, none⟩⟩,
    ⟨.merge, ⟨"line_parcel", "parcel", "line", ["parcel"], ["no"], .many, none⟩⟩]

def cart : Document :=
  [("_id", .int32 1), ("parcel", .array [.null,
    .document [("_id", .int32 4), ("line", .array [.document [("sku", .string "a")], .int32 0,
      .document [("sku", .string "b")]])],
    .document [("_id", .int32 5), ("line", .document [("sku", .string "c")])]])]

theorem positional_paths_address_cart :
    parcelLines ≠ [] ∧ (∀ hop ∈ parcelLines, Path.IsName hop.field) ∧
      ((ofTop "cart" cart).walk parcelLines).map positionalPath =
        ["parcel.1.line.0", "parcel.1.line.2", "parcel.2.line"] ∧
      (((ofTop "cart" cart).walk parcelLines).map positionalPath).Nodup ∧
      ∃ r ∈ (ofTop "cart" cart).walk parcelLines, r.row = [("sku", .string "b")] ∧
        cart.atPath? r.positionalPath = some (.document r.row) ∧
        r.positionalPath = r.containerPath ++ "." ++ toString 2 ∧
        r.valueAt? 1 "_id" = cart.atPath? (Path.extend (r.ancestor 1).positionalPath "_id") := by
  have hne : parcelLines ≠ [] := by decide
  have hh : ∀ hop ∈ parcelLines, Path.IsName hop.field := by decide +kernel
  obtain ⟨hnodup, hrows⟩ := positional_paths_address "cart" cart hne hh
  obtain ⟨r, hr, hrow, hindex⟩ : ∃ r ∈ (ofTop "cart" cart).walk parcelLines,
      r.row = [("sku", .string "b")] ∧ r.index? = some 2 :=
    ⟨_, .tail _ (.head _), rfl, rfl⟩
  obtain ⟨hpath, hcontainer, hvalues⟩ := hrows r hr
  rw [hindex] at hcontainer
  exact ⟨hne, hh, rfl, hnodup, r, hr, hrow, hpath, hcontainer, hvalues 1 (by decide) "_id" (by decide)⟩

end Pushdown.Row
