-- Lists whose items go together one by one, and lists of entries under names.
import Mathlib.Data.List.Forall2
import Mathlib.Data.List.Nodup

namespace FunkLang

/-! ## Lists that go together -/

section Lists

variable {α β γ δ : Type} {R : α → β → Prop}

/-- Two steps from one list to another make one. -/
theorem forall₂_trans {S : β → γ → Prop} {T : α → γ → Prop} (himp : ∀ a b c, R a b → S b c → T a c)
    {as : List α} {bs : List β} {cs : List γ} (h : List.Forall₂ R as bs)
    (h' : List.Forall₂ S bs cs) : List.Forall₂ T as cs := by
  induction h generalizing cs with
  | nil =>
    cases h'
    exact .nil
  | cons hab _ ih =>
    cases h' with
    | cons hbc hrest => exact .cons (himp _ _ _ hab hbc) (ih hrest)

/-- What holds of related items may use which ones they are. -/
theorem forall₂_imp_mem {S : α → β → Prop} {as : List α} {bs : List β}
    (h : List.Forall₂ R as bs) (himp : ∀ a ∈ as, ∀ b, R a b → S a b) : List.Forall₂ S as bs := by
  induction h with
  | nil => exact .nil
  | cons hab _ ih =>
    rw [List.forall_mem_cons] at himp
    exact .cons (himp.1 _ hab) (ih himp.2)

/-- What is found first in two lists is related if what each item gives is. -/
theorem rel_findSome? {S : γ → δ → Prop} {f : α → Option γ} {g : β → Option δ} {as : List α}
    {bs : List β} (h : List.Forall₂ (fun a b => Option.Rel S (f a) (g b)) as bs) :
    Option.Rel S (as.findSome? f) (bs.findSome? g) := by
  induction h with
  | nil => exact .none
  | @cons a b as bs hab _ ih =>
    rw [List.findSome?_cons, List.findSome?_cons]
    generalize f a = c at hab ⊢
    generalize g b = d at hab ⊢
    cases hab with
    | none => exact ih
    | some hcd => exact .some hcd

/-- Where each item has a partner, the list has one, item by item. -/
theorem exists_forall₂ {xs : List α} (each : ∀ a ∈ xs, ∃ b, R a b) :
    ∃ ys, List.Forall₂ R xs ys := by
  induction xs with
  | nil => exact ⟨[], .nil⟩
  | cons a rest ih =>
    obtain ⟨b, hb⟩ := each a List.mem_cons_self
    obtain ⟨bs, hbs⟩ := ih fun a ha => each a (List.mem_cons_of_mem _ ha)
    exact ⟨b :: bs, .cons hb hbs⟩

/-- Two lists that go with one list are one, if the items that go with one item are. -/
theorem eq_of_forall₂ {S : α → β → Prop} (heq : ∀ a b c, R a b → S a c → b = c) {as : List α}
    {bs cs : List β} (h : List.Forall₂ R as bs) (h' : List.Forall₂ S as cs) : bs = cs := by
  have hall := forall₂_trans (fun b a c hb hc => heq a b c hb hc) h.flip h'
  rwa [List.forall₂_eq_eq_eq] at hall

theorem exists_mem_of_forall₂ {xs : List α} {ys : List β}
    (h : List.Forall₂ R xs ys) {a : α} (ha : a ∈ xs) : ∃ b ∈ ys, R a b := by
  induction h with
  | nil => exact absurd ha List.not_mem_nil
  | cons hr _ ih =>
    rcases List.mem_cons.mp ha with rfl | ha
    · exact ⟨_, List.mem_cons_self, hr⟩
    · obtain ⟨b, hb, hab⟩ := ih ha
      exact ⟨b, List.mem_cons_of_mem _ hb, hab⟩

/-! ## Entries -/

theorem mem_names_iff {xs : List (String × α)} {key : String} :
    key ∈ xs.map Prod.fst ↔ ∃ a, (key, a) ∈ xs := by
  simp only [List.mem_map, Prod.exists, exists_and_right, exists_eq_right]

/-- Entries under the same names in the same order go together. -/
theorem forall₂_of_names {S : α → β → Prop} {xs : List (String × α)} {ys : List (String × β)}
    (names : xs.map Prod.fst = ys.map Prod.fst)
    (each : ∀ key a b, (key, a) ∈ xs → (key, b) ∈ ys → S a b) :
    List.Forall₂ (fun x y => x.1 = y.1 ∧ S x.2 y.2) xs ys := by
  induction xs generalizing ys with
  | nil =>
    rw [List.map_eq_nil_iff.mp names.symm]
    exact .nil
  | cons x xs ih =>
    cases ys with
    | nil => cases names
    | cons y ys =>
      obtain ⟨hname, hnames⟩ := List.cons.inj names
      have hy : (x.1, y.2) ∈ y :: ys := hname ▸ List.mem_cons_self
      refine .cons ⟨hname, each x.1 x.2 y.2 List.mem_cons_self hy⟩ (ih hnames ?_)
      exact fun key a b ha hb =>
        each key a b (List.mem_cons_of_mem _ ha) (List.mem_cons_of_mem _ hb)

/-- Entries under the same names in the same order, with the same value under each name. -/
theorem eq_of_names {xs ys : List (String × α)} (names : xs.map Prod.fst = ys.map Prod.fst)
    (each : ∀ key a b, (key, a) ∈ xs → (key, b) ∈ ys → a = b) : xs = ys := by
  have hall := (forall₂_of_names names each).imp fun _ _ h => Prod.ext h.1 h.2
  rwa [List.forall₂_eq_eq_eq] at hall

theorem exists_mem_of_names {xs : List (String × α)} {ys : List (String × β)}
    (names : xs.map Prod.fst = ys.map Prod.fst) {key : String} {a : α} (ha : (key, a) ∈ xs) :
    ∃ b, (key, b) ∈ ys :=
  mem_names_iff.mp (names ▸ mem_names_iff.mpr ⟨a, ha⟩)

/-- Entries under distinct names: one value under each. -/
theorem eq_of_distinct {xs : List (String × α)} (distinct : (xs.map Prod.fst).Nodup) {key : String}
    {a b : α} (ha : (key, a) ∈ xs) (hb : (key, b) ∈ xs) : a = b :=
  congrArg Prod.snd (List.inj_on_of_nodup_map distinct ha hb rfl)

end Lists

end FunkLang
