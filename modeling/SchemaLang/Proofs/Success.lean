import SchemaLang.SemanticError

/-!
# Success of checks

Checks are run one after another and stop at the first error.  `SucceedsIff` says of such a run
when it succeeds and with what; the lemmas build it up along binds and loops over lists.
-/

namespace SchemaLang

/-- Two computations in sequence have the result that the second makes of that of the first. -/
theorem bind_eq_ok_iff {ε α β : Type} {run : Except ε α} {next : α → Except ε β} {b : β} :
    run >>= next = .ok b ↔ ∃ a, run = .ok a ∧ next a = .ok b := by
  cases run with
  | error e =>
      show Except.error e = Except.ok b ↔ _
      simp
  | ok a =>
      show next a = .ok b ↔ _
      simp

/-- Two computations in sequence fail where the first one does or, after it, the second. -/
theorem bind_eq_error_iff {ε α β : Type} {run : Except ε α} {next : α → Except ε β} {e : ε} :
    run >>= next = .error e ↔ run = .error e ∨ ∃ a, run = .ok a ∧ next a = .error e := by
  cases run with
  | error e' =>
      show Except.error e' = Except.error e ↔ _
      simp
  | ok a =>
      show next a = .error e ↔ _
      simp

/-- Other errors leave the result. -/
theorem mapError_eq_ok_iff {ε ε' α : Type} {run : Except ε α} {f : ε → ε'} {a : α} :
    run.mapError f = .ok a ↔ run = .ok a := by
  cases run with
  | error e => constructor <;> (intro hrun; cases hrun)
  | ok c => constructor <;> (intro hrun; cases hrun; rfl)

/-- The computation succeeds exactly if the condition holds, and then with the given result. -/
def SucceedsIff {ε α : Type} (run : Except ε α) (condition : Prop) (result : α) : Prop :=
  ∀ a, run = .ok a ↔ condition ∧ a = result

namespace SucceedsIff

variable {ε α β : Type}

theorem pure (a : α) : SucceedsIff (Pure.pure a : Except ε α) True a := by
  intro b
  show Except.ok a = Except.ok b ↔ _
  simp [eq_comm]

/-- A failed computation may be given any condition that does not hold. -/
theorem error {e : ε} {P : Prop} {a : α} (h : ¬ P) : SucceedsIff (.error e) P a := by
  intro b
  simp [h]

theorem not_of_eq_error {run : Except ε α} {P : Prop} {a : α} {e : ε} (h : SucceedsIff run P a)
    (hrun : run = .error e) : ¬ P := by
  intro hP
  have hok := (h a).mpr ⟨hP, rfl⟩
  rw [hrun] at hok
  cases hok

/-- Two computations in sequence succeed if both do.  The second may count on the first. -/
theorem bind {first : Except ε α} {next : α → Except ε β} {P Q : Prop} {a : α} {b : β}
    (hfirst : SucceedsIff first P a) (hnext : P → SucceedsIff (next a) Q b) :
    SucceedsIff (first >>= next) (P ∧ Q) b := by
  intro c
  cases hrun : first with
  | error e =>
      have hP := hfirst.not_of_eq_error hrun
      show (Except.error e : Except ε β) = .ok c ↔ _
      simp [hP]
  | ok a' =>
      obtain ⟨hP, rfl⟩ := (hfirst a').mp hrun
      -- Only here the condition of the second run may count on that of the first.
      show next a' = .ok c ↔ _
      rw [hnext hP c]
      simp [hP]

/-- The condition and the result may be replaced by others that say the same.  The result only
matters where the condition holds. -/
theorem congr {run : Except ε α} {P Q : Prop} {a b : α} (h : SucceedsIff run P a)
    (hcondition : P ↔ Q) (hresult : P → a = b) : SucceedsIff run Q b := by
  intro c
  rw [h c, ← hcondition]
  exact and_congr_right fun hP => by rw [hresult hP]

/-- What is computed from a result takes its place. -/
theorem map {run : Except ε α} {P : Prop} {a : α} (h : SucceedsIff run P a) (f : α → β) :
    SucceedsIff (run >>= fun x => Pure.pure (f x)) P (f a) :=
  (h.bind fun _ => pure (f a)).congr (by rw [and_true]) fun _ => rfl

/-- A loop that collects results succeeds if each round does. -/
theorem mapM {l : List α} {f : α → Except ε β} {P : α → Prop} {g : α → β}
    (h : ∀ a ∈ l, SucceedsIff (f a) (P a) (g a)) :
    SucceedsIff (l.mapM f) (∀ a ∈ l, P a) (l.map g) := by
  induction l with
  | nil => exact (pure []).congr (by simp) fun _ => rfl
  | cons a l ih =>
      rw [List.mapM_cons]
      have htail := ih fun b hb => h b (List.mem_cons_of_mem a hb)
      refine ((h a List.mem_cons_self).bind fun _ => htail.map _).congr ?_ fun _ => rfl
      simp

/-- A loop of bare checks succeeds if each of them does. -/
theorem forM {l : List α} {f : α → Except ε Unit} {P : α → Prop}
    (h : ∀ a ∈ l, SucceedsIff (f a) (P a) ()) : SucceedsIff (l.forM f) (∀ a ∈ l, P a) () := by
  induction l with
  | nil => exact (pure ()).congr (by simp) fun _ => rfl
  | cons a l ih =>
      have htail := ih fun b hb => h b (List.mem_cons_of_mem a hb)
      refine ((h a List.mem_cons_self).bind fun _ => htail).congr ?_ fun _ => rfl
      simp

/-- What an error is turned into does not matter to success. -/
theorem mapError {ε' : Type} {run : Except ε α} {P : Prop} {a : α} (h : SucceedsIff run P a)
    (f : ε → ε') : SucceedsIff (run.mapError f) P a := by
  intro b
  rw [mapError_eq_ok_iff, h b]

/-- A run is successful at all exactly if its condition holds. -/
theorem exists_iff {run : Except ε α} {P : Prop} {a : α} (h : SucceedsIff run P a) :
    (∃ b, run = .ok b) ↔ P := by
  constructor
  · rintro ⟨b, hb⟩
    exact ((h b).mp hb).1
  · intro hP
    exact ⟨a, (h a).mpr ⟨hP, rfl⟩⟩

theorem of_eq_ok {run : Except ε α} {P : Prop} {a b : α} (h : SucceedsIff run P a)
    (hrun : run = .ok b) : P ∧ b = a :=
  (h b).mp hrun

end SucceedsIff

/-- Every attribute may decorate the target. -/
def Attribute.AllApply (attributes : List Attribute) (target : Target) : Prop :=
  ∀ a ∈ attributes, a.applicable target = .ok ()

/-- Attributes are checked one after another. -/
theorem Attribute.succeedsIff_allApplicable (attributes : List Attribute) (target : Target) :
    SucceedsIff (Attribute.allApplicable attributes target)
      (Attribute.AllApply attributes target) () :=
  SucceedsIff.forM fun a _ => fun u => by simp

/-- The attributes of a target pass if each of them may decorate it. -/
theorem succeedsIff_checkAttributes (attributes : List Attribute) (target : Target)
    (place : Location) :
    SucceedsIff (checkAttributes attributes target place) (Attribute.AllApply attributes target)
      () := by
  intro u
  rw [← Attribute.succeedsIff_allApplicable attributes target u, checkAttributes]
  cases Attribute.allApplicable attributes target <;> simp

end SchemaLang
