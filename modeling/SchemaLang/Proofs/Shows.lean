import Mathlib.Data.List.Basic
import Mathlib.Data.Option.Basic

/-!
# Forms that show as much as others

A form of a thing, such as its text, shows what another form shows if it differs for exactly those
things for which the other differs.  What a form shows of the parts of a thing, it shows of lists
and options of them.
-/

namespace SchemaLang

variable {α β γ : Type} {P : α → Prop} {f : α → β} {g : α → γ}

/-- The form `f` of the things in `P` shows exactly what the form `g` shows. -/
def Shows (P : α → Prop) (f : α → β) (g : α → γ) : Prop :=
  ∀ a b, P a → P b → (f a = f b ↔ g a = g b)

theorem Shows.map (h : Shows P f g) :
    Shows (fun l : List α => ∀ a ∈ l, P a) (List.map f) (List.map g) := by
  intro l m hl hm
  induction l generalizing m with
  | nil => cases m <;> simp
  | cons a l ih =>
      cases m with
      | nil => simp
      | cons b m =>
          obtain ⟨ha, hl⟩ := List.forall_mem_cons.mp hl
          obtain ⟨hb, hm⟩ := List.forall_mem_cons.mp hm
          simp only [List.map_cons, List.cons.injEq, h a b ha hb, ih m hl hm]

/-- Where a stretch of elements of one class ends with an element of another, it is found again. -/
theorem append_inj_of_class {α : Type} {p : α → Bool} {u v r s : List α} (hu : ∀ a ∈ u, p a)
    (hv : ∀ a ∈ v, p a) (hr : ∀ a ∈ r.head?, p a = false) (hs : ∀ a ∈ s.head?, p a = false)
    (h : u ++ r = v ++ s) : u = v ∧ r = s := by
  induction u generalizing v with
  | nil =>
      cases v with
      | nil => exact ⟨rfl, h⟩
      | cons b v =>
          have hhead : p b = false := hr b (by rw [List.nil_append] at h; simp [h])
          exact absurd (hv b List.mem_cons_self) (by simp [hhead])
  | cons a u ih =>
      cases v with
      | nil =>
          have hhead : p a = false := hs a (by rw [List.nil_append] at h; simp [← h])
          exact absurd (hu a List.mem_cons_self) (by simp [hhead])
      | cons b v =>
          obtain ⟨rfl, hrest⟩ := List.cons.inj h
          obtain ⟨rfl, rfl⟩ :=
            ih (List.forall_mem_cons.mp hu).2 (List.forall_mem_cons.mp hv).2 hrest
          exact ⟨rfl, rfl⟩

end SchemaLang
