import Pushdown.Proofs.ColumnLocations
import Pushdown.Proofs.Routes

/-!
# Columns at the end of a chain

`HopChain`: hops that lead to the rows of a table along its merges, or along the only route from another table,
which may also pass through copies. Each of them follows a foreign key (`FollowsKey`), a merge from the columns of
the key to those it refers to and a copy the other way, so that `chain_locations_apart`: different columns are read
from different ones.
-/

namespace Pushdown

open List

def Hop.endTable (top : String) (hops : List Hop) : String := (hops.getLast?.map (·.link.child)).getD top

namespace Catalog

variable {c : Catalog} {top name target : String} {hop : Hop} {hops : List Hop}

/-- The hops lead from top-level documents to the rows of a table: all the way along its merges, or along
the only route there is. -/
inductive HopChain (c : Catalog) : String → List Hop → Prop
  | own {name : String} {l : Layout} : c.layout name = .ok l → HopChain c l.collection l.hops
  | route {top target : String} {hops : List Hop} : c.route? top target = .ok (some hops) → HopChain c top hops

/-- The hop follows a foreign key, from the columns that it lists to those it refers to or back. -/
def FollowsKey (c : Catalog) (hop : Hop) : Prop :=
  ∃ t ∈ c.tables, ∃ fk ∈ t.foreignKeys, ∃ ref, c.reference t fk = .ok ref ∧
    hop.link.columns = ref.columns ∧ hop.link.referencedColumns = ref.referencedColumns

theorem LaysOut.followsKey {l : Layout} (h : c.LaysOut name l) (hhop : hop ∈ l.hops) : c.FollowsKey hop := by
  obtain ⟨t, ht, fk, hfk, ref, href, hcolumns, hreferenced, -⟩ := h.reference_of_mem_hops hhop
  exact ⟨t, ht, fk, hfk, ref, href, hcolumns, hreferenced⟩

theorem LeadsOut.followsKey (h : c.LeadsOut name hop) : c.FollowsKey hop := by
  cases h with
  | merge _ _ hbelow hkey =>
    exact (layout_eq_ok_iff.mp hbelow).followsKey (mem_hops_of_mergeKey? hkey)
  | embed hl hkey =>
    obtain ⟨t, ht, hown⟩ := exists_outlines hl
    obtain ⟨ref, href, _, -, -, rfl⟩ := (hown.embedsFor.mem_iff _).mp hkey
    obtain ⟨fk, hfk, href⟩ := exists_of_mem_mapM hown.references href
    exact ⟨t, mem_tables_of_table ht, fk, hfk, ref, href, rfl, rfl⟩

theorem LeadOn.followsKey (h : c.LeadOn name hops) (hhop : hop ∈ hops) : c.FollowsKey hop := by
  induction hops generalizing name with
  | nil => cases hhop
  | cons first rest ih =>
    rcases mem_cons.mp hhop with rfl | hhop
    · exact h.1.followsKey
    · exact ih h.2 hhop

/-- What the search for routes finds leads on from hop to hop, whether or not it finds every route. -/
theorem leadOn_of_mem_routesWithin {fuel : Nat} {routes : List (List Hop)}
    (h : c.routesWithin target fuel name = .ok routes) (hhops : hops ∈ routes) : c.LeadOn name hops := by
  induction fuel generalizing name routes hops with
  | zero =>
    cases h
    cases hhops
  | succ fuel ih =>
    rw [routesWithin] at h
    obtain ⟨l, hl, h⟩ := exists_of_bind_ok h
    obtain ⟨next, hnext, h⟩ := exists_of_bind_ok h
    obtain ⟨found, hfound, h⟩ := exists_of_bind_ok h
    cases h
    obtain ⟨through, hthrough, hhops⟩ := mem_flatten.mp hhops
    obtain ⟨first, hfirst, hthrough⟩ := exists_of_mem_mapM hfound hthrough
    have hout := (mem_nextHops hl hnext).mp hfirst
    split at hthrough
    · cases hthrough
      cases mem_singleton.mp hhops
      exact ⟨hout, trivial⟩
    · obtain ⟨below, hbelow, hthrough⟩ := exists_of_bind_ok hthrough
      cases hthrough
      obtain ⟨rest, hrest, rfl⟩ := mem_map.mp hhops
      exact ⟨hout, ih hbelow hrest⟩

theorem leadOn_of_route? (h : c.route? top target = .ok (some hops)) : c.LeadOn top hops := by
  rw [route?] at h
  obtain ⟨routes, hroutes, h⟩ := exists_of_bind_ok h
  split at h
  · cases h
  · cases h
    exact leadOn_of_mem_routesWithin hroutes (mem_singleton_self _)
  · cases h

theorem HopChain.followsKey (h : c.HopChain top hops) (hhop : hop ∈ hops) : c.FollowsKey hop := by
  cases h with
  | own hl => exact (layout_eq_ok_iff.mp hl).followsKey hhop
  | route hroute => exact (leadOn_of_route? hroute).followsKey hhop

def ColumnsApart (c : Catalog) : Prop := ∀ t ∈ c.tables, Text.Apart (t.columns.map (·.name))

instance (c : Catalog) : Decidable c.ColumnsApart := inferInstanceAs (Decidable (∀ t ∈ _, _))

def KeysApart (c : Catalog) : Prop := ∀ t ∈ c.tables, ∀ fk ∈ t.foreignKeys, Text.Apart fk.columns

instance (c : Catalog) : Decidable c.KeysApart := inferInstanceAs (Decidable (∀ t ∈ _, _))

theorem columns_of_reference {t : Table} {fk : ForeignKey} {ref : Reference}
    (h : c.reference t fk = .ok ref) : ref.columns = fk.columns := by
  rw [reference] at h
  obtain ⟨_, -, h⟩ := exists_of_bind_ok h
  split at h
  · cases h
  · extract_lets referenced at h
    split at h
    · cases h
      rfl
    · cases h

theorem FollowsKey.length_eq (h : c.FollowsKey hop) : hop.linkedColumns.length = hop.partnerColumns.length := by
  obtain ⟨t, ht, fk, hfk, ref, href, hcolumns, hreferenced⟩ := h
  have hlength := length_of_reference href
  rw [← hcolumns, ← hreferenced] at hlength
  unfold Hop.linkedColumns Hop.partnerColumns
  cases hop.kind with
  | merge => exact hlength
  | embed => exact hlength.symm

theorem FollowsKey.apart (hkeys : c.KeysApart) (hrefs : c.ReferencesApart) (h : c.FollowsKey hop) :
    Text.Apart hop.partnerColumns := by
  obtain ⟨t, ht, fk, hfk, ref, href, hcolumns, hreferenced⟩ := h
  rw [Hop.partnerColumns]
  cases hop.kind with
  | merge => exact hreferenced ▸ hrefs t ht fk hfk ref (by rw [href]; rfl)
  | embed => exact hcolumns.trans (columns_of_reference href) ▸ hkeys t ht fk hfk

/-- Where names are plain and told apart, and foreign keys neither list nor refer to a column twice, the columns at
the end of a `HopChain` lie in different places, each in the rows that the chain leads to or above them. On the way
up, every column that links rows has the column it is read from. -/
theorem chain_locations_apart (hplain : c.PlainColumns) (hcolumns : c.ColumnsApart)
    (hkeys : c.KeysApart) (hrefs : c.ReferencesApart) (hchain : c.HopChain top hops) :
    (∀ hop ∈ hops, ∀ column i, hop.linkedColumns.findIdx? (Text.same · column) = some i →
      i < hop.partnerColumns.length) ∧
    (∀ column location, c.locate top hops column = .ok location → location.depth ≤ hops.length) ∧
    ∀ t, c.table (Hop.endTable top hops) = .ok t → ∀ a ∈ t.columns, ∀ b ∈ t.columns, a ≠ b →
      ∀ x y p q, Text.same a.name x → Text.same b.name y → c.locate top hops x = .ok p →
        c.locate top hops y = .ok q → p ≠ q := by
  refine ⟨fun hop hhop column i hi => ?_, fun _ _ => depth_le_of_locate, ?_⟩
  · obtain ⟨hlt, -, -⟩ := findIdx?_eq_some_iff_getElem.mp hi
    exact (hchain.followsKey hhop).length_eq ▸ hlt
  · intro t ht a ha b hb hab x y p q hx hy hp hq
    refine location_ne hplain (fun hop hhop => (hchain.followsKey hhop).apart hkeys hrefs) ?_ hp hq
    intro hsame
    have : Std.Symm fun a b : Column => ¬Text.same a.name b.name := ⟨fun a b hne => by rwa [Text.same_comm]⟩
    refine (pairwise_map.mp (hcolumns t (mem_tables_of_table ht))).forall ha hb hab ?_
    exact Text.same_trans hx (Text.same_trans hsame (by rwa [Text.same_comm]))

def press : Table where
  name := "press"
  columns := [⟨"hall", .integer, false⟩, ⟨"code", .integer, false⟩, ⟨"title", .integer, false⟩]
  primaryKey := ["hall", "code"]
  properties := { embeddable := true }

/-- Shelves hold their books, and both the shelf and the press of a book are of its hall. -/
def shelves : Catalog :=
  .ofTables
    [{ name := "shelf", columns := [⟨"hall", .integer, false⟩, ⟨"no", .integer, false⟩]
       primaryKey := ["hall", "no"] },
      { name := "book"
        columns := [⟨"hall", .integer, false⟩, ⟨"shelf_no", .integer, false⟩, ⟨"pos", .integer, false⟩,
          ⟨"press_code", .integer, false⟩, ⟨"title", .integer, false⟩]
        primaryKey := ["hall", "shelf_no", "pos", "press_code"]
        foreignKeys := [⟨"on_shelf", ["shelf_no", "hall"], "shelf", ["no", "hall"]⟩,
          ⟨"of_press", ["press_code", "hall"], "press", ["code", "hall"]⟩]
        properties := { mergeInto := some "shelf" } },
      press]

def bookHop : Hop where
  kind := .merge
  link := { name := "on_shelf", parent := "shelf", child := "book", columns := ["shelf_no", "hall"]
            referencedColumns := ["no", "hall"], association := .many }

def pressHop : Hop where
  kind := .embed
  link := { name := "of_press", parent := "book", child := "press", columns := ["press_code", "hall"]
            referencedColumns := ["code", "hall"], association := .one }

/-- The hall of a press lies in the `_id` of the shelf, the code in that of the book and the title in the copy. -/
theorem chain_locations_apart_shelves :
    shelves.PlainColumns ∧ shelves.ColumnsApart ∧ shelves.KeysApart ∧ shelves.ReferencesApart ∧
      shelves.HopChain "Shelf" [bookHop, pressHop] ∧
      shelves.table (Hop.endTable "Shelf" [bookHop, pressHop]) = .ok press ∧
      shelves.locate "Shelf" [bookHop, pressHop] "HALL" = .ok ⟨0, "_id.hall"⟩ ∧
      shelves.locate "Shelf" [bookHop, pressHop] "Code" = .ok ⟨1, "_id.press_code"⟩ ∧
      shelves.locate "Shelf" [bookHop, pressHop] "title" = .ok ⟨2, "title"⟩ ∧
      ∀ a ∈ press.columns, ∀ b ∈ press.columns, a ≠ b → ∀ x y p q, Text.same a.name x →
        Text.same b.name y → shelves.locate "Shelf" [bookHop, pressHop] x = .ok p →
          shelves.locate "Shelf" [bookHop, pressHop] y = .ok q → p ≠ q := by
  have hplain : shelves.PlainColumns := by decide +kernel
  have hcolumns : shelves.ColumnsApart := by decide +kernel
  have hkeys : shelves.KeysApart := by decide +kernel
  have hrefs : shelves.ReferencesApart := by decide +kernel
  have hroute : shelves.route? "Shelf" "PRESS" = .ok (some [bookHop, pressHop]) := rfl
  have hchain : shelves.HopChain "Shelf" [bookHop, pressHop] := .route hroute
  have htable : shelves.table (Hop.endTable "Shelf" [bookHop, pressHop]) = .ok press := rfl
  exact ⟨hplain, hcolumns, hkeys, hrefs, hchain, htable, rfl, rfl, rfl,
    (chain_locations_apart hplain hcolumns hkeys hrefs hchain).2.2 press htable⟩

end Catalog

end Pushdown
