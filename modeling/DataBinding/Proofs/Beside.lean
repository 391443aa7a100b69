-- Lists side by side: two lists of named entries that have the same names in the same places. A look-up, a
-- new entry and a dropped one keep them so, also where one of the lists has some more entries.
import DataBinding.Named
import Mathlib.Data.List.Forall2

namespace DataBinding

variable {α β : Type} {R S : α → β → Prop}

theorem rel_getElem? {xs : List α} {ys : List β} (same : List.Forall₂ R xs ys) (i : Nat) :
    Option.Rel R xs[i]? ys[i]? := by
  induction same generalizing i with
  | nil => exact .none
  | cons h _ ih =>
    cases i with
    | zero => exact .some h
    | succ i => exact ih i

theorem rel_head? {xs : List α} {ys : List β} (same : List.Forall₂ R xs ys) :
    Option.Rel R xs.head? ys.head? := by
  cases same with
  | nil => exact .none
  | cons h _ => exact .some h

/-- What stands in one of two lists side by side stands in the other one too. -/
theorem exists_left {xs : List α} {ys : List β} (same : List.Forall₂ R xs ys) {y : β} (hy : y ∈ ys) :
    ∃ x ∈ xs, R x y := by
  induction same with
  | nil => cases hy
  | @cons a b as bs h _ ih =>
    rcases List.mem_cons.mp hy with rfl | hy
    · exact ⟨a, List.mem_cons_self .., h⟩
    · obtain ⟨x, hx, hr⟩ := ih hy
      exact ⟨x, List.mem_cons_of_mem _ hx, hr⟩

theorem exists_right {xs : List α} {ys : List β} (same : List.Forall₂ R xs ys) {x : α}
    (hx : x ∈ xs) : ∃ y ∈ ys, R x y := by
  obtain ⟨y, hy, hr⟩ := exists_left same.flip hx
  exact ⟨y, hy, hr⟩

theorem forall₂_imp_mem {xs : List α} {ys : List β} (same : List.Forall₂ R xs ys)
    (imp : ∀ x ∈ xs, ∀ y ∈ ys, R x y → S x y) : List.Forall₂ S xs ys := by
  induction same with
  | nil => exact .nil
  | cons h _ ih =>
    refine .cons (imp _ (List.mem_cons_self ..) _ (List.mem_cons_self ..) h) (ih fun x hx y hy => ?_)
    exact imp x (List.mem_cons_of_mem _ hx) y (List.mem_cons_of_mem _ hy)

/-- Two results that belong together: the same fault, or values that do. -/
inductive Agrees {ε : Type} (R : α → β → Prop) : Except ε α → Except ε β → Prop where
  | ok {x : α} {y : β} (same : R x y) : Agrees R (.ok x) (.ok y)
  | error (fault : ε) : Agrees R (.error fault) (.error fault)

theorem rel_mono {x : Option α} {y : Option β} (same : Option.Rel R x y)
    (imp : ∀ a b, R a b → S a b) : Option.Rel S x y := by
  cases same with
  | none => exact .none
  | some h => exact .some (imp _ _ h)

/-- The same names in the same places, with entries that belong together. -/
def Beside (R : α → β → Prop) (xs : List (String × α)) (ys : List (String × β)) : Prop :=
  List.Forall₂ (fun x y => x.1 = y.1 ∧ R x.2 y.2) xs ys

namespace Beside

variable {xs : List (String × α)} {ys : List (String × β)}

theorem mono (same : Beside R xs ys) (imp : ∀ a b, R a b → S a b) : Beside S xs ys :=
  List.Forall₂.imp (fun _ _ h => ⟨h.1, imp _ _ h.2⟩) same

theorem mono_mem (same : Beside R xs ys) (imp : ∀ x ∈ xs, ∀ y ∈ ys, R x.2 y.2 → S x.2 y.2) :
    Beside S xs ys :=
  forall₂_imp_mem same fun x hx y hy h => ⟨h.1, imp x hx y hy h.2⟩

theorem lookup (same : Beside R xs ys) (name : String) :
    Option.Rel R (xs.lookup name) (ys.lookup name) := by
  induction same with
  | nil => exact .none
  | @cons x y _ _ h _ ih =>
    obtain ⟨other, a⟩ := x
    obtain ⟨other', b⟩ := y
    obtain ⟨e, hr⟩ := h
    simp only at e hr
    subst e
    rw [List.lookup_cons, List.lookup_cons]
    cases name == other
    · exact ih
    · exact .some hr

theorem put (same : Beside R xs ys) (name : String) {a : α} {b : β} (hr : R a b) :
    Beside R (putEntry name a xs) (putEntry name b ys) := by
  induction same with
  | nil => exact .cons ⟨rfl, hr⟩ .nil
  | @cons x y _ _ h rest ih =>
    obtain ⟨other, c⟩ := x
    obtain ⟨other', d⟩ := y
    obtain ⟨rfl, hr'⟩ := h
    unfold putEntry
    split
    · exact .cons ⟨rfl, hr⟩ rest
    · exact .cons ⟨rfl, hr'⟩ ih

theorem filter (same : Beside R xs ys) (p : String → Bool) :
    Beside R (xs.filter (p ·.1)) (ys.filter (p ·.1)) := by
  induction same with
  | nil => exact .nil
  | @cons x y _ _ h rest ih =>
    rw [List.filter_cons, List.filter_cons, h.1]
    split
    · exact .cons h ih
    · exact ih

theorem drop (same : Beside R xs ys) (name : String) :
    Beside R (dropEntry name xs) (dropEntry name ys) :=
  (same.filter fun other => decide (other ≠ name))

theorem mem_right (same : Beside R xs ys) {x : String × α} (hx : x ∈ xs) : ∃ y ∈ ys, R x.2 y.2 := by
  obtain ⟨y, hy, hr⟩ := exists_right same hx
  exact ⟨y, hy, hr.2⟩

theorem mem_left (same : Beside R xs ys) {y : String × β} (hy : y ∈ ys) : ∃ x ∈ xs, R x.2 y.2 := by
  obtain ⟨x, hx, hr⟩ := exists_left same hy
  exact ⟨x, hx, hr.2⟩

/-- In a list beside itself every entry belongs to itself. -/
theorem diagonal {R : α → α → Prop} (same : Beside R xs xs) {x : String × α} (hx : x ∈ xs) : R x.2 x.2 :=
  (List.forall₂_same.mp same x hx).2

end Beside

/-! ## All entries but some -/

/-- The entries that have none of the given names. -/
def spare (names : List String) (entries : List (String × α)) : List (String × α) :=
  entries.filter fun entry => !names.contains entry.1

variable {names : List String} {name : String} {entries : List (String × α)}

theorem lookup_spare (other : name ∉ names) : (spare names entries).lookup name = entries.lookup name := by
  induction entries with
  | nil => rfl
  | cons entry rest ih =>
    obtain ⟨key, a⟩ := entry
    by_cases h : key ∈ names
    · have ne : (name == key) = false := by
        simp only [beq_eq_false_iff_ne, ne_eq]
        rintro rfl
        exact other h
      rw [spare, List.filter_cons_of_neg (by simpa using h), List.lookup_cons, ne]
      exact ih
    · rw [spare, List.filter_cons_of_pos (by simpa using h), List.lookup_cons, List.lookup_cons]
      cases name == key
      · exact ih
      · rfl

theorem spare_putEntry (other : name ∉ names) (a : α) :
    spare names (putEntry name a entries) = putEntry name a (spare names entries) := by
  induction entries with
  | nil => simp [spare, putEntry, other]
  | cons entry rest ih =>
    obtain ⟨key, b⟩ := entry
    unfold spare at ih ⊢
    by_cases e : key = name
    · subst e
      simp [putEntry, other]
    · by_cases h : key ∈ names <;> simpa [putEntry, e, h] using ih

theorem spare_dropEntry : spare names (dropEntry name entries) = dropEntry name (spare names entries) := by
  simp only [spare, dropEntry, List.filter_filter, Bool.and_comm]

theorem mem_spare {entry : String × α} :
    entry ∈ spare names entries ↔ entry ∈ entries ∧ entry.1 ∉ names := by
  simp [spare]

theorem spare_nil : spare [] entries = entries := by
  simp [spare]

end DataBinding
