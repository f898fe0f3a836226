import SchemaLang.Outline
import SchemaLang.Proofs.Legible
import SchemaLang.Proofs.Shows

/-!
# The text of an outline

Nothing is quoted in the text of an outline, but a line ends with its line feed and its indentation
says how deep it stands.  Outlines whose lines are lines, and do not start with a blank themselves,
are therefore read back from their text.
-/

namespace SchemaLang

namespace Outline

/-- A text that can be told from its indentation and from the line behind it. -/
structure IsLine (line : String) : Prop where
  oneLine : OneLine line
  flush : line.toList.head? ≠ some ' '

instance (line : String) : Decidable (IsLine line) :=
  decidable_of_iff (OneLine line ∧ line.toList.head? ≠ some ' ')
    ⟨fun h => ⟨h.1, h.2⟩, fun h => ⟨h.oneLine, h.flush⟩⟩

/-- Outlines of lines. -/
inductive Lined : Outline → Prop
  | node {line : String} {below : List Outline} (hline : IsLine line)
      (hbelow : ∀ o ∈ below, Lined o) : Lined (.node line below)

theorem toList_indented (level : Nat) (line : String) : (indented level line).toList =
    List.replicate (4 * level) ' ' ++ (line.toList ++ ['\n']) := by
  simp [indented]

/-- The first line of a text, with its level. -/
theorem indented_append_inj {m n : Nat} {a b : String} (ha : IsLine a) (hb : IsLine b)
    {r s : List Char} (h : (indented m a).toList ++ r = (indented n b).toList ++ s) :
    m = n ∧ a = b ∧ r = s := by
  have hblanks (k : Nat) : ∀ c ∈ List.replicate k ' ', (c = ' ' : Bool) := by
    intro c hc
    simpa using List.eq_of_mem_replicate hc
  have hflush {line : String} (hline : IsLine line) (rest : List Char) :
      ∀ c ∈ (line.toList ++ '\n' :: rest).head?, (c = ' ' : Bool) = false := by
    intro c hc
    have hne := hline.flush
    cases hchars : line.toList with
    | nil =>
        rw [hchars] at hc
        cases hc
        rfl
    | cons d ds =>
        rw [hchars] at hne hc
        cases hc
        simpa using hne
  have hfeed {line : String} (hline : IsLine line) : ∀ c ∈ line.toList, (c ≠ '\n' : Bool) := by
    intro c hc
    simpa using fun heq : c = '\n' => hline.oneLine (heq ▸ hc)
  simp only [toList_indented, List.append_assoc, List.singleton_append] at h
  obtain ⟨hlevel, h⟩ :=
    append_inj_of_class (hblanks _) (hblanks _) (hflush ha r) (hflush hb s) h
  obtain ⟨hline, h⟩ := append_inj_of_class (hfeed ha) (hfeed hb) (by simp) (by simp) h
  have hlength := congrArg List.length hlevel
  rw [List.length_replicate, List.length_replicate] at hlength
  exact ⟨by omega, String.toList_inj.mp hline, (List.cons.inj h).2⟩

/-- A text that does not go on with a line of the given level or a deeper one. -/
inductive Above (level : Nat) : List Char → Prop
  | nil : Above level []
  | line {m : Nat} {line : String} (hm : m < level) (hline : IsLine line) (rest : List Char) :
      Above level ((indented m line).toList ++ rest)

theorem Above.succ {level : Nat} {text : List Char} (h : Above level text) :
    Above (level + 1) text := by
  cases h with
  | nil => exact .nil
  | line hm hline rest => exact .line (Nat.lt_succ_of_lt hm) hline rest

theorem toList_render (level : Nat) (line : String) (below : List Outline) :
    (render level (.node line below)).toList =
      (indented level line).toList ++ (renderAll (level + 1) below).toList := by
  rw [render, String.toList_append]

theorem toList_renderAll_cons (level : Nat) (o : Outline) (os : List Outline) :
    (renderAll level (o :: os)).toList =
      (render level o).toList ++ (renderAll level os).toList := by
  rw [renderAll, String.toList_append]

/-- The lines of an outline are above those one level below its first. -/
theorem above_render {level : Nat} {o : Outline} (ho : o.Lined) (rest : List Char) :
    Above (level + 1) ((render level o).toList ++ rest) := by
  cases ho with
  | node hline hbelow =>
      rw [toList_render, List.append_assoc]
      exact .line (Nat.lt_succ_self level) hline _

theorem above_renderAll {level : Nat} {os : List Outline} (hos : ∀ o ∈ os, o.Lined)
    {rest : List Char} (hrest : Above level rest) :
    Above (level + 1) ((renderAll level os).toList ++ rest) := by
  cases os with
  | nil => simpa [renderAll] using hrest.succ
  | cons o os =>
      rw [toList_renderAll_cons, List.append_assoc]
      exact above_render (hos o List.mem_cons_self) _

/-- A text above a level starts with no outline of that level. -/
theorem Above.ne_render {level : Nat} {text : List Char} (h : Above level text) {o : Outline}
    (ho : o.Lined) (rest : List Char) : text ≠ (render level o).toList ++ rest := by
  intro heq
  cases ho with
  | node hline hbelow =>
      rw [toList_render, List.append_assoc] at heq
      cases h with
      | nil => simp [toList_indented] at heq
      | line hm hother rest' =>
          obtain ⟨rfl, -⟩ := indented_append_inj hother hline heq
          exact absurd hm (Nat.lt_irrefl _)

mutual

theorem render_append_inj {level : Nat} : {o o' : Outline} → o.Lined → o'.Lined →
    {r s : List Char} → Above (level + 1) r → Above (level + 1) s →
    (render level o).toList ++ r = (render level o').toList ++ s → o = o' ∧ r = s
  | .node line below, .node line' below', .node hline hbelow, .node hline' hbelow', r, s, hr, hs,
      h => by
    rw [toList_render, toList_render, List.append_assoc, List.append_assoc] at h
    obtain ⟨-, rfl, hrest⟩ := indented_append_inj hline hline' h
    obtain ⟨rfl, rfl⟩ := renderAll_append_inj hbelow hbelow' hr hs hrest
    exact ⟨rfl, rfl⟩

theorem renderAll_append_inj {level : Nat} : {os os' : List Outline} → (∀ o ∈ os, o.Lined) →
    (∀ o ∈ os', o.Lined) → {r s : List Char} → Above level r → Above level s →
    (renderAll level os).toList ++ r = (renderAll level os').toList ++ s → os = os' ∧ r = s
  | [], [], _, _, r, s, _, _, h => ⟨rfl, by simpa [renderAll] using h⟩
  | [], o' :: os', _, hos', r, s, hr, _, h => by
    rw [toList_renderAll_cons, List.append_assoc] at h
    exact absurd (by simpa [renderAll] using h) (hr.ne_render (hos' o' List.mem_cons_self) _)
  | o :: os, [], hos, _, r, s, _, hs, h => by
    rw [toList_renderAll_cons, List.append_assoc] at h
    exact absurd (by simpa [renderAll] using h.symm) (hs.ne_render (hos o List.mem_cons_self) _)
  | o :: os, o' :: os', hall, hall', r, s, hr, hs, h => by
    obtain ⟨ho, hos⟩ := List.forall_mem_cons.mp hall
    obtain ⟨ho', hos'⟩ := List.forall_mem_cons.mp hall'
    rw [toList_renderAll_cons, toList_renderAll_cons, List.append_assoc, List.append_assoc] at h
    obtain ⟨rfl, hrest⟩ :=
      render_append_inj ho ho' (above_renderAll hos hr) (above_renderAll hos' hs) h
    obtain ⟨rfl, rfl⟩ := renderAll_append_inj hos hos' hr hs hrest
    exact ⟨rfl, rfl⟩

end

/-- Outlines are read back from their text. -/
theorem eq_of_renderAll_eq {os os' : List Outline} (hos : ∀ o ∈ os, o.Lined)
    (hos' : ∀ o ∈ os', o.Lined) (h : renderAll 0 os = renderAll 0 os') : os = os' :=
  (renderAll_append_inj hos hos' .nil .nil
    (by rw [List.append_nil, List.append_nil, h])).1

end Outline

end SchemaLang
