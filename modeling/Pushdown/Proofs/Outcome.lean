import Mathlib.Data.List.Forall2
import Mathlib.Data.List.Zip
import Pushdown.Attempt

/-!
# Computations that succeed

What the parts of a computation gave when the whole of it succeeds (`bind_ok`, `exists_of_bind_ok`). A list of
computations succeeds when each of them does, with the list of what they give. `Gives`: a step has one result, in
every state.
-/

namespace Pushdown

open List

variable {δ : Type}

section Partners

variable {α β : Type} {r : α → β → Prop} {l : List α} {bs : List β}

theorem exists_right_of_forall₂ (h : List.Forall₂ r l bs) {a : α} (ha : a ∈ l) : ∃ b, (a, b) ∈ l.zip bs ∧ r a b := by
  induction h with
  | nil => cases ha
  | cons hr _ ih =>
    rcases mem_cons.mp ha with rfl | ha
    · exact ⟨_, mem_cons_self .., hr⟩
    · obtain ⟨b, hmem, hb⟩ := ih ha
      exact ⟨b, mem_cons_of_mem _ hmem, hb⟩

theorem exists_left_of_forall₂ (h : List.Forall₂ r l bs) {b : β} (hb : b ∈ bs) : ∃ a, (a, b) ∈ l.zip bs ∧ r a b := by
  obtain ⟨a, hmem, ha⟩ := exists_right_of_forall₂ h.flip hb
  refine ⟨a, ?_, ha⟩
  rw [← zip_swap]
  exact mem_map_of_mem hmem

theorem exists_forall₂ (h : ∀ a ∈ l, ∃ b, r a b) : ∃ bs, List.Forall₂ r l bs := by
  induction l with
  | nil => exact ⟨[], .nil⟩
  | cons a l ih =>
    obtain ⟨⟨b, hb⟩, hl⟩ := forall_mem_cons.mp h
    obtain ⟨bs, hbs⟩ := ih hl
    exact ⟨b :: bs, .cons hb hbs⟩

theorem forall₂_comp {γ : Type} {q : β → γ → Prop} {p : α → γ → Prop} {cs : List γ}
    (h : List.Forall₂ r l bs) (hq : List.Forall₂ q bs cs) (hp : ∀ {a b c}, r a b → q b c → p a c) :
    List.Forall₂ p l cs := by
  induction h generalizing cs with
  | nil =>
    cases hq
    exact .nil
  | cons hr _ ih =>
    cases hq with
    | cons hc hrest => exact .cons (hp hr hc) (ih hrest)

theorem exists_zip_of_forall₂ {γ : Type} {q : γ → δ → Prop} {cs : List γ} {ds : List δ} (h : List.Forall₂ r l bs)
    (hq : List.Forall₂ q cs ds) {a : α} {c : γ} (hmem : (a, c) ∈ l.zip cs) :
    ∃ b d, (b, d) ∈ bs.zip ds ∧ r a b ∧ q c d := by
  induction h generalizing cs ds with
  | nil => cases hmem
  | cons hr _ ih =>
    cases hq with
    | nil => cases hmem
    | cons hc hrest =>
      rcases mem_cons.mp hmem with heq | hmem
      · cases heq
        exact ⟨_, _, mem_cons_self .., hr, hc⟩
      · obtain ⟨b, d, hbd, hb, hd⟩ := ih hrest hmem
        exact ⟨b, d, mem_cons_of_mem _ hbd, hb, hd⟩

theorem pairwise_of_forall₂ (h : List.Forall₂ r l bs) {p : α → α → Prop} {q : β → β → Prop}
    (hl : l.Pairwise p) (hpq : ∀ {a b a' b'}, r a b → r a' b' → p a a' → q b b') : bs.Pairwise q := by
  induction h with
  | nil => exact .nil
  | cons hr hrest ih =>
    obtain ⟨hhead, htail⟩ := pairwise_cons.mp hl
    refine pairwise_cons.mpr ⟨fun b' hb' => ?_, ih htail⟩
    obtain ⟨a', hmem, hr'⟩ := exists_left_of_forall₂ hrest hb'
    exact hpq hr hr' (hhead a' (of_mem_zip hmem).1)

end Partners

section Results

variable {ε α β : Type}

theorem exists_of_bind_ok {x : Except ε α} {f : α → Except ε β} {b : β} (h : x >>= f = .ok b) :
    ∃ a, x = .ok a ∧ f a = .ok b := by
  cases x with
  | error e => cases h
  | ok a => exact ⟨a, rfl, h⟩

theorem ok_of_mapError {x : Except ε α} {f : ε → δ} {a : α} (h : x.mapError f = .ok a) : x = .ok a := by
  cases x with
  | error e => cases h
  | ok b => cases h; rfl

variable {f : α → Except ε β} {l : List α} {bs : List β}

theorem mapM_ok_iff : l.mapM f = .ok bs ↔ List.Forall₂ (fun a b => f a = .ok b) l bs := by
  induction l generalizing bs with
  | nil =>
    rw [forall₂_nil_left_iff]
    exact ⟨fun h => (Except.ok.inj h).symm, fun h => congrArg Except.ok h.symm⟩
  | cons a l ih =>
    rw [mapM_cons, forall₂_cons_left_iff]
    constructor
    · intro h
      obtain ⟨b, hb, h⟩ := exists_of_bind_ok h
      obtain ⟨rest, hrest, h⟩ := exists_of_bind_ok h
      cases h
      exact ⟨b, rest, hb, ih.mp hrest, rfl⟩
    · rintro ⟨b, rest, hb, hrest, rfl⟩
      rw [hb, ih.mpr hrest]
      rfl

theorem mapM_ok {g : α → β} (h : ∀ a ∈ l, f a = .ok (g a)) : l.mapM f = .ok (l.map g) :=
  mapM_ok_iff.mpr (forall₂_map_right_iff.mpr (forall₂_same.mpr h))

theorem exists_mapM_ok_iff : (∃ bs, l.mapM f = .ok bs) ↔ ∀ a ∈ l, ∃ b, f a = .ok b := by
  simp only [mapM_ok_iff]
  constructor
  · rintro ⟨bs, hbs⟩ a ha
    obtain ⟨b, -, hb⟩ := exists_right_of_forall₂ hbs ha
    exact ⟨b, hb⟩
  · exact exists_forall₂

theorem exists_of_mem_mapM (h : l.mapM f = .ok bs) {b : β} (hb : b ∈ bs) : ∃ a ∈ l, f a = .ok b := by
  obtain ⟨a, hmem, ha⟩ := exists_left_of_forall₂ (mapM_ok_iff.mp h) hb
  exact ⟨a, (of_mem_zip hmem).1, ha⟩

theorem mem_of_mapM_ok (h : l.mapM f = .ok bs) {a : α} (ha : a ∈ l) {b : β} (hb : f a = .ok b) : b ∈ bs := by
  obtain ⟨b', hmem, hb'⟩ := exists_right_of_forall₂ (mapM_ok_iff.mp h) ha
  cases hb.symm.trans hb'
  exact (of_mem_zip hmem).2

theorem mapM_congr {g : α → Except ε β} (h : ∀ a ∈ l, f a = g a) : l.mapM f = l.mapM g := by
  induction l with
  | nil => rfl
  | cons a l ih =>
    obtain ⟨ha, hl⟩ := forall_mem_cons.mp h
    rw [mapM_cons, mapM_cons, ha, ih hl]

theorem mapM_map_of_eq {α' β' : Type} {r : α → α'} {s : β → β'} {f' : α' → Except ε β'}
    (h : ∀ a ∈ l, f' (r a) = s <$> f a) : (l.map r).mapM f' = List.map s <$> l.mapM f := by
  induction l with
  | nil => rfl
  | cons a l ih =>
    obtain ⟨ha, hl⟩ := forall_mem_cons.mp h
    rw [map_cons, mapM_cons, mapM_cons, ha, ih hl]
    cases f a with
    | error e => rfl
    | ok b =>
      cases l.mapM f with
      | error e | ok bs => rfl

theorem foldlM_ok_induction {g : β → α → Except ε β} {motive : List α → β → Prop} {b b' : β} (hnil : motive [] b)
    (hstep : ∀ done a b b', motive done b → g b a = .ok b' → motive (done ++ [a]) b')
    (h : l.foldlM g b = .ok b') : motive l b' := by
  have hrest : ∀ done rest b, motive done b → rest.foldlM g b = .ok b' →
      motive (done ++ rest) b' := by
    intro done rest
    induction rest generalizing done with
    | nil =>
      intro b hb h
      cases h
      rwa [append_nil]
    | cons a rest ih =>
      intro b hb h
      obtain ⟨b₁, hb₁, h⟩ := exists_of_bind_ok h
      rw [append_cons]
      exact ih _ b₁ (hstep done a b b₁ hb hb₁) h
  exact hrest [] l b hnil h

end Results

namespace Attempt

variable {σ ε α β γ : Type} {s s' : σ} {x : Attempt σ ε α} {f : α → Attempt σ ε β}

theorem bind_ok {b : β} (h : (x >>= f) s = (.ok b, s')) : ∃ a s₁, x s = (.ok a, s₁) ∧ f a s₁ = (.ok b, s') := by
  have heq : (x >>= f) s = ExceptT.bindCont f (x s).1 (x s).2 := rfl
  rw [heq] at h
  rcases hx : x s with ⟨r, s₁⟩
  rw [hx] at h
  cases r with
  | ok a => exact ⟨a, s₁, rfl, h⟩
  | error e => cases h

theorem bind_of_ok {s s₁ : σ} {a : α} (h : x s = (.ok a, s₁)) (f : α → Attempt σ ε β) : (x >>= f) s = f a s₁ := by
  show ExceptT.bindCont f (x s).1 (x s).2 = _
  rw [h]
  rfl

theorem bind_of_error {s s₁ : σ} {e : ε} (h : x s = (.error e, s₁)) (f : α → Attempt σ ε β) :
    (x >>= f) s = (.error e, s₁) := by
  show ExceptT.bindCont f (x s).1 (x s).2 = _
  rw [h]
  rfl

theorem pure_ok {a b : α} (h : (pure a : Attempt σ ε α) s = (.ok b, s')) : a = b ∧ s = s' := by
  cases h
  exact ⟨rfl, rfl⟩

theorem bind_pure_ok {f : α → β} {b : β} (h : (x >>= fun a => pure (f a)) s = (.ok b, s')) :
    ∃ a, x s = (.ok a, s') ∧ f a = b := by
  obtain ⟨a, s₁, ha, h⟩ := bind_ok h
  obtain ⟨rfl, rfl⟩ := pure_ok h
  exact ⟨a, ha, rfl⟩

theorem map_ok {f : α → β} {b : β} (h : (f <$> x) s = (.ok b, s')) : ∃ a, x s = (.ok a, s') ∧ b = f a := by
  rw [map_eq_pure_bind] at h
  obtain ⟨a, s₁, hx, h⟩ := bind_ok h
  obtain ⟨rfl, rfl⟩ := pure_ok h
  exact ⟨a, hx, rfl⟩

theorem ofExcept_ok {r : Except ε α} {a : α} (h : ofExcept r s = (.ok a, s')) : r = .ok a ∧ s = s' := by
  cases h
  exact ⟨rfl, rfl⟩

theorem both_ok {f : α → β → γ} {y : Attempt σ ε β} {c : γ} (h : both f x y s = (.ok c, s')) :
    ∃ a b s₁, x s = (.ok a, s₁) ∧ y s₁ = (.ok b, s') ∧ c = f a b := by
  unfold both at h
  rcases hx : x s with ⟨a, s₁⟩
  rcases hy : y s₁ with ⟨b, s₂⟩
  rw [hx] at h
  simp only [hy] at h
  split at h
  · cases h
    exact ⟨_, _, _, rfl, hy, rfl⟩
  · cases h
  · cases h

theorem failingAs_ok {f : ε → δ} {a : α} (h : x.failingAs f s = (.ok a, s')) : x s = (.ok a, s') := by
  unfold failingAs at h
  split at h
  · rename_i hx
    cases h
    exact hx
  · cases h

theorem forall₂_of_mapM {l : List α} {bs : List β} (h : l.mapM f s = (.ok bs, s')) :
    List.Forall₂ (fun a b => ∃ s₁ s₂, f a s₁ = (.ok b, s₂)) l bs := by
  induction l generalizing bs s s' with
  | nil =>
    obtain ⟨rfl, -⟩ := pure_ok h
    exact .nil
  | cons a l ih =>
    rw [mapM_cons] at h
    obtain ⟨b, s₁, hb, h⟩ := bind_ok h
    obtain ⟨rest, s₂, hrest, h⟩ := bind_ok h
    obtain ⟨rfl, -⟩ := pure_ok h
    exact .cons ⟨s, s₁, hb⟩ (ih hrest)

def Gives (x : Attempt σ ε α) (r : Except ε α) : Prop := ∀ s, x s = (r, s)

namespace Gives

variable {a : α} {r : Except ε β}

theorem pure (a : α) : Gives (pure a : Attempt σ ε α) (.ok a) := fun _ => rfl

theorem throw (e : ε) : Gives (throw e : Attempt σ ε α) (.error e) := fun _ => rfl

theorem ofExcept (r : Except ε α) : Gives (ofExcept r : Attempt σ ε α) r := fun _ => rfl

theorem bind (hx : Gives x (.ok a)) (hf : Gives (f a) r) : Gives (x >>= f) r := by
  intro s
  show ExceptT.bindCont f (x s).1 (x s).2 = _
  rw [hx s]
  exact hf s

theorem bind_error {e : ε} (hx : Gives x (.error e)) (f : α → Attempt σ ε β) : Gives (x >>= f) (.error e) := by
  intro s
  show ExceptT.bindCont f (x s).1 (x s).2 = _
  rw [hx s]
  rfl

theorem failingAs (hx : Gives x (.ok a)) (f : ε → δ) : Gives (x.failingAs f) (.ok a) := by
  intro s
  unfold Attempt.failingAs
  rw [hx s]

theorem mapM {l : List α} {bs : List β} (h : List.Forall₂ (fun a b => Gives (f a) (.ok b)) l bs) :
    Gives (l.mapM f) (.ok bs) := by
  induction h with
  | nil => exact .pure []
  | cons hb _ ih =>
    rw [mapM_cons]
    exact hb.bind (ih.bind (.pure _))

end Gives

end Attempt

end Pushdown
