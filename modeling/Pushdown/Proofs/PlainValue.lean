import Pushdown.Proofs.Outcome
import Pushdown.StoredForm

/-!
# Values without large objects

`stored?`: a value of which nothing goes into the store of large objects has one stored form. It is the same with
every such store, in whatever state, and the state stays as it is (`gives_of_stored?`).
-/

namespace Pushdown.Value

open Attempt

mutual

def isPlain : Value → Bool
  | .blob _ => false
  | .clob _ => false
  | .xml _ => false
  | .array items => allPlain items
  | _ => true

def allPlain : List Value → Bool
  | [] => true
  | v :: vs => v.isPlain && allPlain vs

end

def stored? (v : Value) : Option Bson :=
  match (v.toStored LargeObjects.unavailable ()).1 with
  | .ok b => some b
  | .error _ => none

mutual

theorem exists_gives {v : Value} (h : v.isPlain) : ∃ r, ∀ {σ : Type} (objects : LargeObjects σ),
    (v.toStored objects).Gives r := by
  cases v with
  | bigDecimal text =>
    simp only [toStored]
    cases readFloat? text with
    | none => exact ⟨_, fun _ => .throw _⟩
    | some x => exact ⟨_, fun _ => .pure _⟩
  | array items =>
    simp only [toStored]
    rw [isPlain] at h
    obtain ⟨r, hr⟩ := exists_list_gives h
    cases r with
    | error e => exact ⟨.error e, fun objects => (hr objects).bind_error _⟩
    | ok bs => exact ⟨.ok (.array bs), fun objects => (hr objects).bind (.pure _)⟩
  | blob bytes | clob text | xml text => cases h
  | _ =>
    simp only [toStored]
    exact ⟨_, fun _ => .pure _⟩

theorem exists_list_gives : ∀ {vs : List Value}, allPlain vs →
    ∃ r, ∀ {σ : Type} (objects : LargeObjects σ), (listToStored objects vs).Gives r
  | [], _ => by
    simp only [listToStored]
    exact ⟨_, fun _ => .pure _⟩
  | v :: vs, h => by
    simp only [listToStored]
    rw [allPlain, Bool.and_eq_true] at h
    obtain ⟨r, hr⟩ := exists_gives h.1
    obtain ⟨rs, hrs⟩ := exists_list_gives h.2
    cases r with
    | error e => exact ⟨.error e, fun objects => (hr objects).bind_error _⟩
    | ok b =>
      cases rs with
      | error e => exact ⟨.error e, fun objects => (hr objects).bind ((hrs objects).bind_error _)⟩
      | ok bs => exact ⟨.ok (b :: bs), fun objects => (hr objects).bind ((hrs objects).bind (.pure _))⟩

end

variable {σ : Type} {objects : LargeObjects σ} {v : Value} {b : Bson}

theorem gives_of_stored? (hplain : v.isPlain) (h : v.stored? = some b) : (v.toStored objects).Gives (.ok b) := by
  obtain ⟨r, hr⟩ := exists_gives hplain
  rw [stored?, hr LargeObjects.unavailable ()] at h
  cases r with
  | error e => cases h
  | ok b' => cases h; exact hr objects

theorem stored?_of_ok (hplain : v.isPlain) {s s' : σ} (h : v.toStored objects s = (.ok b, s')) :
    v.stored? = some b := by
  obtain ⟨r, hr⟩ := exists_gives hplain
  rw [hr objects s] at h
  cases h
  rw [stored?, hr LargeObjects.unavailable ()]

theorem listToStored_gives {vs : List Value} {bs : List Bson} (hplain : ∀ v ∈ vs, v.isPlain)
    (h : List.Forall₂ (fun v b => v.stored? = some b) vs bs) : (listToStored objects vs).Gives (.ok bs) := by
  induction h with
  | nil => exact .pure []
  | cons hb _ ih =>
    obtain ⟨hv, hvs⟩ := List.forall_mem_cons.mp hplain
    rw [listToStored]
    exact (gives_of_stored? hv hb).bind ((ih hvs).bind (.pure _))

theorem stored?_of_list_ok {vs : List Value} {bs : List Bson} (hplain : ∀ v ∈ vs, v.isPlain) {s s' : σ}
    (h : listToStored objects vs s = (.ok bs, s')) : List.Forall₂ (fun v b => v.stored? = some b) vs bs := by
  induction vs generalizing bs s s' with
  | nil =>
    obtain ⟨rfl, -⟩ := pure_ok h
    exact .nil
  | cons v vs ih =>
    obtain ⟨hv, hvs⟩ := List.forall_mem_cons.mp hplain
    rw [listToStored] at h
    obtain ⟨b, s₁, hb, h⟩ := bind_ok h
    obtain ⟨rest, hrest, rfl⟩ := bind_pure_ok h
    exact .cons (stored?_of_ok hv hb) (ih hvs hrest)

end Pushdown.Value
