import SchemaLang.Proofs.Patterns

/-!
# The longest match

At the front of a text a lexer takes the longest word that fits a pattern.  `Lexeme.next` goes
through the text once and never looks back; `isLongest_next` and `next_eq_of_isLongest` say that
it finds the longest match all the same, and `wins_next` and `kind_eq_of_wins` that it finds the
kind that wins among those of the match.
-/

namespace SchemaLang

open Pattern Lexeme

namespace Lexeme

/-! ### Cutting takes all that a pattern can -/

theorem isPrefix_takeWhile {p : Char → Bool} {u cs : List Char} (hu : ∀ c ∈ u, p c)
    (h : u <+: cs) : u <+: cs.takeWhile p := by
  obtain ⟨t, rfl⟩ := h
  rw [List.takeWhile_append_of_pos hu]
  exact List.prefix_append _ _

theorem isPrefix_parts {u parts cs : List Char} (hu : ∀ x ∈ u, isNameChar x)
    (hparts : IsParts parts) (h : u ++ parts <+: cs) :
    u ++ parts <+: cs.takeWhile isNameChar ++ (dottedParts (cs.dropWhile isNameChar)).1 := by
  induction hparts generalizing u cs with
  | nil =>
      rw [List.append_nil] at h ⊢
      exact (isPrefix_takeWhile hu h).trans (List.prefix_append _ _)
  | @cons c v parts hc hv _ ih =>
      obtain ⟨t, rfl⟩ := h
      obtain ⟨htake, hdrop⟩ := span_append hu
        (show ∀ x ∈ ('.' :: c :: (v ++ parts ++ t)).head?, isNameChar x = false by
          simp [isNameChar, isNameStart, isDigit])
      have hmore := ih hv (List.prefix_append (v ++ parts) t)
      rw [List.append_assoc, List.cons_append, List.cons_append, htake, hdrop, dottedParts,
        if_pos hc]
      simpa using hmore

theorem IsName.isPrefix_name {w cs : List Char} {c : Char} (h : IsName w) (hw : w <+: c :: cs) :
    isNameStart c ∧ w <+: (name c cs).1.text := by
  cases h with
  | @intro d u parts hd hu hparts =>
      obtain ⟨rfl, hmore⟩ := List.cons_prefix_cons.mp hw
      refine ⟨hd, ?_⟩
      have hname : (name d cs).1.text =
        d :: (cs.takeWhile isNameChar ++ (dottedParts (cs.dropWhile isNameChar)).1) := rfl
      rw [hname, List.cons_prefix_cons]
      exact ⟨rfl, isPrefix_parts hu hparts hmore⟩

theorem IsExponent.isPrefix_exponent {e : List Char} (h : IsExponent e) (t : List Char) :
    e <+: (exponent (e ++ t)).1 := by
  cases h with
  | none => exact List.nil_prefix
  | @unsigned mark ds hmark hds =>
      have hmark : (mark = 'e' || mark = 'E') = true := by simpa [IsMark] using hmark
      obtain ⟨hne, hall⟩ := hds
      cases ds with
      | nil => exact absurd rfl hne
      | cons d ds =>
          have hd := hall d List.mem_cons_self
          have hsign : (d = '+' || d = '-') = false := by
            simp only [isDigit, Bool.and_eq_true, decide_eq_true_eq] at hd
            simp only [Bool.or_eq_false_iff, decide_eq_false_iff_not]
            constructor <;> rintro rfl <;> simp at hd
          rw [List.cons_append, List.cons_append]
          cases hmore : ds ++ t with
          | nil =>
              obtain ⟨rfl, rfl⟩ := List.append_eq_nil_iff.mp hmore
              simp [exponent, hmark, hd]
          | cons x rest =>
              have hdigits : d :: ds <+: (d :: x :: rest).takeWhile isDigit :=
                isPrefix_takeWhile hall ⟨t, by rw [List.cons_append, hmore]⟩
              simp only [exponent, hmark, hsign, hd, Bool.false_and, if_true, Bool.false_eq_true,
                if_false, List.cons_prefix_cons, true_and]
              exact hdigits
  | @signed mark sign ds hmark hsign hds =>
      have hmark : (mark = 'e' || mark = 'E') = true := by simpa [IsMark] using hmark
      have hsign : (sign = '+' || sign = '-') = true := by simpa using hsign
      obtain ⟨hne, hall⟩ := hds
      cases ds with
      | nil => exact absurd rfl hne
      | cons d ds =>
          obtain ⟨hd, hds⟩ := List.forall_mem_cons.mp hall
          simp only [List.cons_append, exponent, hmark, hsign, hd, Bool.and_self, if_true,
            List.cons_prefix_cons, true_and]
          exact isPrefix_takeWhile hds (List.prefix_append ds t)

theorem IsDigits.isPrefix_number {w cs : List Char} {c : Char} (h : IsDigits w)
    (hw : w <+: c :: cs) : isDigit c ∧ w <+: (number c cs).1.text := by
  obtain ⟨hne, hall⟩ := h
  cases w with
  | nil => exact absurd rfl hne
  | cons d ds =>
      obtain ⟨rfl, hmore⟩ := List.cons_prefix_cons.mp hw
      obtain ⟨hd, hds⟩ := List.forall_mem_cons.mp hall
      have hdigits := isPrefix_takeWhile hds hmore
      refine ⟨hd, ?_⟩
      unfold number
      dsimp only
      split
      · split
        · rw [List.cons_append, List.cons_append, List.cons_prefix_cons, List.append_assoc]
          exact ⟨rfl, hdigits.trans (List.prefix_append _ _)⟩
        · exact List.cons_prefix_cons.mpr ⟨rfl, hdigits⟩
      · exact List.cons_prefix_cons.mpr ⟨rfl, hdigits⟩

theorem isPrefix_fraction {ds e : List Char} (hds : ∀ c ∈ ds, isDigit c) (he : IsExponent e)
    (t : List Char) : ds ++ e <+: (ds ++ (e ++ t)).takeWhile isDigit ++
      (exponent ((ds ++ (e ++ t)).dropWhile isDigit)).1 := by
  cases hcase : e with
  | nil =>
      rw [List.append_nil]
      exact (isPrefix_takeWhile hds (List.prefix_append _ _)).trans (List.prefix_append _ _)
  | cons mark more =>
      have hmark : ∀ c ∈ e.head?, isDigit c = false := Decimal.isDigit_head?_of_isExponent he
      obtain ⟨htake, hdrop⟩ := span_append hds
        (show ∀ c ∈ (e ++ t).head?, isDigit c = false by simpa [hcase] using hmark)
      rw [← hcase, htake, hdrop, List.prefix_append_right_inj]
      exact he.isPrefix_exponent t

theorem IsDecimal.isPrefix_number {w cs : List Char} {c : Char} (h : IsDecimal w)
    (hw : w <+: c :: cs) : isDigit c ∧ w <+: (number c cs).1.text := by
  cases h with
  | @intro whole fraction e hwhole hfraction he =>
      obtain ⟨hne, hall⟩ := hwhole
      obtain ⟨hne', hall'⟩ := hfraction
      cases whole with
      | nil => exact absurd rfl hne
      | cons d ds =>
      cases fraction with
      | nil => exact absurd rfl hne'
      | cons f fs =>
          obtain ⟨hd, hds⟩ := List.forall_mem_cons.mp hall
          obtain ⟨hf, hfs⟩ := List.forall_mem_cons.mp hall'
          obtain ⟨rfl, t, rfl⟩ := List.cons_prefix_cons.mp hw
          obtain ⟨htake, hdrop⟩ := span_append hds
            (show ∀ x ∈ ('.' :: f :: (fs ++ (e ++ t))).head?, isDigit x = false by simp [isDigit])
          have hfraction := isPrefix_fraction hfs he t
          refine ⟨hd, ?_⟩
          simp only [List.append_eq, List.append_assoc, List.cons_append] at hfraction ⊢
          simp only [number, htake, hdrop, hf, if_true]
          simpa using hfraction

/-- A quotation at the front of a text is cut off as a whole. -/
theorem IsQuoted.quoted_eq {w cs : List Char} {c : Char} (h : IsQuoted w) (hw : w <+: c :: cs) :
    c = '"' ∧ (quoted cs).1 = ⟨.string, w⟩ := by
  cases h with
  | @intro body hbody =>
      obtain ⟨rfl, t, rfl⟩ := List.cons_prefix_cons.mp hw
      obtain ⟨htake, hdrop⟩ := span_append hbody
        (show ∀ x ∈ ('"' :: t).head?, isQuotable x = false by simp [isQuotable])
      refine ⟨rfl, ?_⟩
      simp [quoted, htake, hdrop]

end Lexeme

/-! ### The kinds of texts that fit -/

/-- The kinds of tokens that are words of the language. -/
def keywords : List TokenKind :=
  [.packageKeyword, .useKeyword, .classKeyword, .structKeyword, .enumKeyword]

namespace Lexeme

theorem keyword?_eq_some_iff {w : List Char} {kind : TokenKind} :
    keyword? w = some kind ↔ kind ∈ keywords ∧ w ∈ kind.pattern := by
  constructor
  · intro h
    unfold keyword? at h
    repeat' split at h
    all_goals cases h
    all_goals simp [keywords, TokenKind.pattern, *]
  · rintro ⟨hkind, hw⟩
    simp only [keywords, List.mem_cons, List.not_mem_nil, or_false] at hkind
    rcases hkind with rfl | rfl | rfl | rfl | rfl <;> cases hw <;> rfl

theorem isName_intro {c : Char} {u : List Char} (hc : isNameStart c) (hu : ∀ x ∈ u, isNameChar x) :
    IsName (c :: u) := by
  have hname : IsName (c :: (u ++ [])) := .intro hc hu .nil
  rwa [List.append_nil] at hname

/-- The keywords are names as far as their characters go. -/
theorem isName_of_keyword? {w : List Char} {kind : TokenKind} (h : keyword? w = some kind) :
    IsName w ∧ '.' ∉ w := by
  obtain ⟨hkind, hw⟩ := keyword?_eq_some_iff.mp h
  simp only [keywords, List.mem_cons, List.not_mem_nil, or_false] at hkind
  rcases hkind with rfl | rfl | rfl | rfl | rfl <;> cases hw <;>
    exact ⟨isName_intro rfl (List.all_eq_true.mp rfl), by decide⟩

theorem mem_pattern_cases {kind : TokenKind} {w : List Char} (h : w ∈ kind.pattern) :
    (IsName w ∧ (kind = .identifier ∨ keyword? w = some kind)) ∨ (kind = .integer ∧ IsDigits w) ∨
      (kind = .float ∧ IsDecimal w) ∨ (kind = .string ∧ IsQuoted w) ∨
      ∃ c, w = [c] ∧ punctuation? c = some kind := by
  by_cases hkeyword : kind ∈ keywords
  · have hword := keyword?_eq_some_iff.mpr ⟨hkeyword, h⟩
    exact .inl ⟨(isName_of_keyword? hword).1, .inr hword⟩
  cases kind with
  | identifier => exact .inl ⟨mem_dotted.mp h, .inl rfl⟩
  | integer => exact .inr (.inl ⟨rfl, mem_digits.mp h⟩)
  | float => exact .inr (.inr (.inl ⟨rfl, mem_decimal.mp h⟩))
  | string => exact .inr (.inr (.inr (.inl ⟨rfl, mem_quotation.mp h⟩)))
  | invalid => exact absurd h (Language.notMem_zero w)
  | packageKeyword | useKeyword | classKeyword | structKeyword | enumKeyword =>
      exact absurd hkeyword (by decide)
  | _ => exact .inr (.inr (.inr (.inr ⟨_, h, rfl⟩)))

theorem mem_pattern_of_punctuation? {c : Char} {kind : TokenKind}
    (h : punctuation? c = some kind) : [c] ∈ kind.pattern := by
  unfold punctuation? at h
  split at h <;> cases h <;> rfl

/-! ### What is cut off fits -/

theorem isParts_dottedParts (cs : List Char) : IsParts (dottedParts cs).1 := by
  fun_induction dottedParts cs with
  | case1 c cs h more ih => exact .cons h (forall_mem_takeWhile _ _) ih
  | case2 => exact .nil
  | case3 => exact .nil

theorem IsParts.mem_dot {parts : List Char} (h : IsParts parts) (hne : parts ≠ []) :
    '.' ∈ parts := by
  cases h with
  | nil => exact absurd rfl hne
  | cons => exact List.mem_cons_self

theorem isName_name {c : Char} (hc : isNameStart c) (cs : List Char) :
    IsName (name c cs).1.text :=
  .intro hc (forall_mem_takeWhile _ _) (isParts_dottedParts _)

theorem dottedParts_of_head? {cs : List Char} (h : cs.head? ≠ some '.') :
    dottedParts cs = ([], cs) := by
  rw [dottedParts.eq_def]
  split
  · exact absurd rfl h
  · rfl

/-- The kind of a name depends on the whole name and on whether a dot comes next. -/
theorem kind_name (c : Char) (cs : List Char) :
    (name c cs).1.kind = if (name c cs).2.head? = some '.' then .identifier
      else (keyword? (name c cs).1.text).getD .identifier := by
  by_cases hdot : (cs.dropWhile isNameChar).head? = some '.'
  · have hkind : (name c cs).1.kind = .identifier := by simp only [name, hdot, if_true]
    rw [hkind]
    split
    · rfl
    rename_i hrest
    have hparts : (dottedParts (cs.dropWhile isNameChar)).1 ≠ [] := by
      intro hnil
      have hbehind := dottedParts_append (cs.dropWhile isNameChar)
      rw [hnil, List.nil_append] at hbehind
      exact hrest ((congrArg List.head? hbehind).trans hdot)
    have hmem : '.' ∈ (name c cs).1.text :=
      List.mem_append_right _ ((isParts_dottedParts _).mem_dot hparts)
    have hnone : keyword? (name c cs).1.text = none := by
      refine Option.eq_none_iff_forall_not_mem.mpr fun kind hword => ?_
      exact (isName_of_keyword? hword).2 hmem
    rw [hnone]
    rfl
  · simp only [name, hdot, if_false, dottedParts_of_head? hdot, List.append_nil]

end Lexeme

/-! ### The longest match -/

/-- A comment or a token of some kind. -/
def Fits (w : List Char) : Prop :=
  w ∈ comment ∨ ∃ kind, w ∈ TokenKind.pattern kind

/-- The word is the longest that fits at the front of the text, and the rest stands behind it. -/
structure IsLongest (text word rest : List Char) : Prop where
  split : text = word ++ rest
  fits : Fits word
  longest : ∀ w, w <+: text → Fits w → w.length ≤ word.length

/-- The kind of a longest match.  A keyword wins over an identifier, except in front of a dot. -/
inductive Wins (word rest : List Char) : TokenKind → Prop
  | keyword {kind : TokenKind} (hkind : kind ∈ keywords) (hword : word ∈ kind.pattern)
      (hrest : rest.head? ≠ some '.') : Wins word rest kind
  | identifier (hword : word ∈ TokenKind.identifier.pattern)
      (hkeyword : ∀ kind ∈ keywords, word ∈ kind.pattern → rest.head? = some '.') :
      Wins word rest .identifier
  | other {kind : TokenKind} (hkind : kind ∉ TokenKind.identifier :: keywords)
      (hword : word ∈ kind.pattern) : Wins word rest kind

theorem Wins.mem_pattern {word rest : List Char} {kind : TokenKind} (h : Wins word rest kind) :
    word ∈ kind.pattern := by
  cases h with
  | keyword _ hword => exact hword
  | identifier hword => exact hword
  | other _ hword => exact hword

theorem ne_invalid_of_mem_pattern {w : List Char} {kind : TokenKind} (h : w ∈ kind.pattern) :
    kind ≠ .invalid := by
  rintro rfl
  exact Language.notMem_zero w h

namespace Lexeme

/-! ### What is cut off has its kind -/

theorem wins_name {c : Char} (hc : isNameStart c) (cs : List Char) :
    Wins (name c cs).1.text (name c cs).2 (name c cs).1.kind := by
  have hname := mem_dotted.mpr (isName_name hc cs)
  rw [kind_name]
  split
  · rename_i hdot
    exact .identifier hname fun _ _ _ => hdot
  · rename_i hdot
    cases hword : keyword? (name c cs).1.text with
    | none =>
        refine .identifier hname fun kind hkind hmem => ?_
        have hsome := keyword?_eq_some_iff.mpr ⟨hkind, hmem⟩
        rw [hword] at hsome
        cases hsome
    | some kind =>
        obtain ⟨hkind, hmem⟩ := keyword?_eq_some_iff.mp hword
        exact .keyword hkind hmem hdot

theorem kind_number (c : Char) (cs : List Char) :
    (number c cs).1.kind = .integer ∨ (number c cs).1.kind = .float := by
  unfold number
  dsimp only
  repeat' split
  all_goals simp

theorem wins_number {c : Char} (hc : isDigit c) (cs : List Char) (rest : List Char) :
    Wins (number c cs).1.text rest (number c cs).1.kind := by
  have hshape := hasShape_number hc cs
  rcases kind_number c cs with hkind | hkind
  · rw [HasShape, hkind] at hshape
    rw [hkind]
    exact .other (by decide) (mem_digits.mpr hshape)
  · rw [HasShape, hkind] at hshape
    rw [hkind]
    exact .other (by decide) (mem_decimal.mpr hshape)

theorem wins_quoted {cs : List Char} (h : (quoted cs).1.kind ≠ .invalid) :
    Wins (quoted cs).1.text (quoted cs).2 (quoted cs).1.kind := by
  have hshape := hasShape_quoted cs
  have hkind : (quoted cs).1.kind = .string := by
    unfold quoted at h ⊢
    split <;> simp_all
  rw [HasShape, hkind] at hshape
  rw [hkind]
  exact .other (by decide) (mem_quotation.mpr hshape)

theorem wins_punctuation {c : Char} {kind : TokenKind} (h : punctuation? c = some kind)
    (rest : List Char) : Wins [c] rest kind := by
  refine .other ?_ (mem_pattern_of_punctuation? h)
  unfold punctuation? at h
  split at h <;> cases h <;> decide

theorem next_of_isNameStart {c : Char} (h : isNameStart c) (cs : List Char) :
    next c cs = name c cs := if_pos h

theorem next_of_isDigit {c : Char} (h : isDigit c) (cs : List Char) :
    next c cs = number c cs := by
  have hname : ¬ isNameStart c := by
    intro hname
    simp only [isDigit, isNameStart, Bool.and_eq_true, Bool.or_eq_true, decide_eq_true_eq,
      Char.le_def, UInt32.le_iff_toNat_le, Char.reduceVal, UInt32.reduceToNat] at h hname
    rcases hname with (hname | hname) | rfl
    · omega
    · omega
    · simp at h
  rw [next, if_neg hname, if_pos h]

theorem next_quote (cs : List Char) : next '"' cs = quoted cs := rfl

theorem next_of_punctuation? {c : Char} {kind : TokenKind} (h : punctuation? c = some kind)
    (cs : List Char) : next c cs = (⟨kind, [c]⟩, cs) := by
  unfold punctuation? at h
  split at h <;> cases h <;> rfl

/-- A lexeme that is not invalid is the text of its kind. -/
theorem wins_next {c : Char} {cs : List Char} (h : (next c cs).1.kind ≠ .invalid) :
    Wins (next c cs).1.text (next c cs).2 (next c cs).1.kind := by
  by_cases hname : isNameStart c
  · rw [next_of_isNameStart hname]
    exact wins_name hname cs
  by_cases hdigit : isDigit c
  · rw [next_of_isDigit hdigit]
    exact wins_number hdigit cs _
  by_cases hquote : c = '"'
  · subst hquote
    rw [next_quote] at h ⊢
    exact wins_quoted h
  · have hnext : next c cs = (⟨(punctuation? c).getD .invalid, [c]⟩, cs) := by
      rw [next, if_neg hname, if_neg hdigit, if_neg hquote]
    rw [hnext] at h ⊢
    cases hkind : punctuation? c with
    | none => simp [hkind] at h
    | some kind => exact wins_punctuation hkind cs

/-- What fits the pattern of a token at the front of a text is cut off, or more than that. -/
theorem isPrefix_next {kind : TokenKind} {w cs : List Char} {c : Char} (h : w ∈ kind.pattern)
    (hw : w <+: c :: cs) : w <+: (next c cs).1.text ∧ (next c cs).1.kind ≠ .invalid := by
  rcases mem_pattern_cases h with ⟨hname, -⟩ | ⟨-, hdigits⟩ | ⟨-, hdecimal⟩ | ⟨-, hquoted⟩ |
    ⟨d, rfl, hd⟩
  · obtain ⟨hc, htext⟩ := hname.isPrefix_name hw
    rw [next_of_isNameStart hc]
    exact ⟨htext, ne_invalid_of_mem_pattern (wins_name hc cs).mem_pattern⟩
  · obtain ⟨hc, htext⟩ := hdigits.isPrefix_number hw
    rw [next_of_isDigit hc]
    exact ⟨htext, ne_invalid_of_mem_pattern (wins_number hc cs []).mem_pattern⟩
  · obtain ⟨hc, htext⟩ := hdecimal.isPrefix_number hw
    rw [next_of_isDigit hc]
    exact ⟨htext, ne_invalid_of_mem_pattern (wins_number hc cs []).mem_pattern⟩
  · obtain ⟨rfl, hlexeme⟩ := hquoted.quoted_eq hw
    rw [next_quote, hlexeme]
    exact ⟨List.prefix_refl _, by simp⟩
  · obtain ⟨rfl, -⟩ := List.cons_prefix_cons.mp hw
    rw [next_of_punctuation? hd]
    exact ⟨List.prefix_refl _, ne_invalid_of_mem_pattern (mem_pattern_of_punctuation? hd)⟩

theorem not_isDigits_of_isDecimal {w : List Char} (h : IsDecimal w) : ¬ IsDigits w := by
  rintro ⟨-, hall⟩
  cases h with
  | intro =>
      have hpoint := hall '.' (by simp)
      exact absurd hpoint (by decide)

/-- No other kind than its own wins a lexeme. -/
theorem kind_eq_of_wins {c : Char} {cs : List Char} {kind : TokenKind}
    (h : Wins (next c cs).1.text (next c cs).2 kind) : (next c cs).1.kind = kind := by
  have hfront : (next c cs).1.text <+: c :: cs := ⟨_, next_append c cs⟩
  cases h with
  | keyword hkind hword hrest =>
      have hkeyword := keyword?_eq_some_iff.mpr ⟨hkind, hword⟩
      have hc := ((isName_of_keyword? hkeyword).1.isPrefix_name hfront).1
      rw [next_of_isNameStart hc] at hrest hkeyword ⊢
      rw [kind_name, if_neg hrest, hkeyword]
      rfl
  | identifier hword hkeyword =>
      have hc := ((mem_dotted.mp hword).isPrefix_name hfront).1
      rw [next_of_isNameStart hc] at hkeyword ⊢
      rw [kind_name]
      split
      · rfl
      · rename_i hrest
        cases hsome : keyword? (name c cs).1.text with
        | none => rfl
        | some kind =>
            obtain ⟨hkind, hmem⟩ := keyword?_eq_some_iff.mp hsome
            exact absurd (hkeyword kind hkind hmem) hrest
  | other hkind hword =>
      simp only [List.mem_cons, not_or] at hkind
      rcases mem_pattern_cases hword with ⟨-, hid | hkeyword⟩ | ⟨rfl, hdigits⟩ | ⟨rfl, hdecimal⟩ |
        ⟨rfl, hquoted⟩ | ⟨d, htext, hd⟩
      · exact absurd hid hkind.1
      · exact absurd (keyword?_eq_some_iff.mp hkeyword).1 hkind.2
      · have hc := (hdigits.isPrefix_number hfront).1
        rw [next_of_isDigit hc] at hdigits ⊢
        have hshape := hasShape_number hc cs
        rcases kind_number c cs with hinteger | hfloat
        · exact hinteger
        · rw [HasShape, hfloat] at hshape
          exact absurd hdigits (not_isDigits_of_isDecimal hshape)
      · have hc := (hdecimal.isPrefix_number hfront).1
        rw [next_of_isDigit hc] at hdecimal ⊢
        have hshape := hasShape_number hc cs
        rcases kind_number c cs with hinteger | hfloat
        · rw [HasShape, hinteger] at hshape
          exact absurd hshape (not_isDigits_of_isDecimal hdecimal)
        · exact hfloat
      · obtain ⟨rfl, hlexeme⟩ := hquoted.quoted_eq hfront
        rw [next_quote, hlexeme]
      · rw [htext] at hfront
        obtain ⟨rfl, -⟩ := List.cons_prefix_cons.mp hfront
        rw [next_of_punctuation? hd]

/-! ### The lexeme at the front is the longest match -/

/-- The text starts with a comment. -/
theorem isPrefix_of_mem_comment {w : List Char} (h : w ∈ comment) : ['/', '/'] <+: w := by
  obtain ⟨u, -, rfl⟩ := mem_word_mul.mp h
  exact List.prefix_append _ _

/-- Where no comment starts, only tokens fit. -/
theorem exists_mem_pattern {text w : List Char} (hcomment : ¬ ['/', '/'] <+: text)
    (hw : w <+: text) (h : Fits w) : ∃ kind, w ∈ TokenKind.pattern kind := by
  rcases h with h | h
  · exact absurd ((isPrefix_of_mem_comment h).trans hw) hcomment
  · exact h

theorem isLongest_next {c : Char} {cs : List Char} (hcomment : ¬ ['/', '/'] <+: c :: cs)
    (h : (next c cs).1.kind ≠ .invalid) :
    IsLongest (c :: cs) (next c cs).1.text (next c cs).2 where
  split := (next_append c cs).symm
  fits := .inr ⟨_, (wins_next h).mem_pattern⟩
  longest w hw hfits := by
    obtain ⟨kind, hkind⟩ := exists_mem_pattern hcomment hw hfits
    exact (isPrefix_next hkind hw).1.length_le

/-- The longest match of its kind is what is cut off. -/
theorem next_eq_of_isLongest {c : Char} {cs word rest : List Char} {kind : TokenKind}
    (hcomment : ¬ ['/', '/'] <+: c :: cs) (h : IsLongest (c :: cs) word rest)
    (hkind : Wins word rest kind) : next c cs = (⟨kind, word⟩, rest) := by
  have hfront : word <+: c :: cs := ⟨rest, h.split.symm⟩
  obtain ⟨htext, hvalid⟩ := isPrefix_next hkind.mem_pattern hfront
  have hlongest := isLongest_next hcomment hvalid
  have hlength := h.longest _ ⟨_, hlongest.split.symm⟩ hlongest.fits
  have hword : word = (next c cs).1.text :=
    htext.eq_of_length (Nat.le_antisymm htext.length_le hlength)
  have hrest : rest = (next c cs).2 := by
    have hsplit := h.split.symm.trans hlongest.split
    rwa [hword, List.append_cancel_left_eq] at hsplit
  subst hword hrest
  rw [← kind_eq_of_wins hkind]

/-- Nothing fits at the front of a text from which an invalid lexeme is cut. -/
theorem not_fits_of_invalid {c : Char} {cs w : List Char} (hcomment : ¬ ['/', '/'] <+: c :: cs)
    (h : (next c cs).1.kind = .invalid) (hw : w <+: c :: cs) : ¬ Fits w := by
  intro hfits
  obtain ⟨kind, hkind⟩ := exists_mem_pattern hcomment hw hfits
  exact (isPrefix_next hkind hw).2 h

end Lexeme

/-! ### Where nothing fits -/

/-- The text goes on with a new line, or not at all. -/
def LineEnds (text : List Char) : Prop :=
  ∀ c ∈ text.head?, c = '\n'

/-- What is taken from the front of a text where nothing fits: one character, but from an open quote
on the rest of the line. -/
inductive Rejected : List Char → List Char → List Char → Prop
  | character {c : Char} {cs : List Char} (hc : c ≠ '"') : Rejected (c :: cs) [c] cs
  | quote {line rest : List Char} (hline : '\n' ∉ line) (hrest : LineEnds rest) :
      Rejected ('"' :: (line ++ rest)) ('"' :: line) rest

/-- A line is taken off as a whole. -/
theorem span_line {line rest : List Char} (hline : '\n' ∉ line) (hrest : LineEnds rest) :
    (line ++ rest).takeWhile Tokens.inComment = line ∧
      (line ++ rest).dropWhile Tokens.inComment = rest := by
  refine span_append (fun c hc => ?_) fun c hc => ?_
  · have hne : c ≠ '\n' := fun h => hline (h ▸ hc)
    simpa [Tokens.inComment] using hne
  · simpa [Tokens.inComment] using hrest c hc

theorem lineEnds_dropWhile (cs : List Char) : LineEnds (cs.dropWhile Tokens.inComment) := by
  intro c hc
  have hstop := List.head?_dropWhile_not Tokens.inComment cs
  rw [Option.mem_def.mp hc] at hstop
  simpa [Tokens.inComment] using hstop

theorem Rejected.unique {text word rest word' rest' : List Char} (h : Rejected text word rest)
    (h' : Rejected text word' rest') : word' = word ∧ rest' = rest := by
  cases h with
  | character hc =>
      cases h' with
      | character => exact ⟨rfl, rfl⟩
      | quote => exact absurd rfl hc
  | @quote line rest hline hrest =>
      generalize htext : '"' :: (line ++ rest) = text at h'
      cases h' with
      | character hc => exact absurd (List.cons.inj htext).1.symm hc
      | @quote line' rest' hline' hrest' =>
          obtain ⟨htake, hdrop⟩ := span_line hline hrest
          obtain ⟨htake', hdrop'⟩ := span_line hline' hrest'
          rw [(List.cons.inj htext).2] at htake hdrop
          exact ⟨congrArg _ (htake'.symm.trans htake), hdrop'.symm.trans hdrop⟩

/-- A quotation that is not closed on its line takes the rest of the line. -/
theorem Lexeme.rejected_quoted {cs : List Char} (h : (quoted cs).1.kind = .invalid) :
    Rejected ('"' :: cs) (quoted cs).1.text (quoted cs).2 := by
  have hsplit := List.takeWhile_append_dropWhile (p := isQuotable) (l := cs)
  have hstop := List.head?_dropWhile_not isQuotable cs
  have hline : '\n' ∉ cs.takeWhile isQuotable := fun hmem =>
    absurd (forall_mem_takeWhile isQuotable cs _ hmem) (by decide)
  unfold quoted at h ⊢
  split at h
  · cases h
  · rename_i behind hquote
    have hrest : LineEnds (cs.dropWhile isQuotable) := by
      intro c hc
      rw [Option.mem_def.mp hc] at hstop
      have hc' : c = '"' ∨ c = '\n' := by
        simpa [isQuotable, Classical.or_iff_not_imp_left] using hstop
      rcases hc' with rfl | rfl
      · obtain ⟨rest, hrest⟩ := List.head?_eq_some_iff.mp hc
        exact absurd hrest (hquote rest)
      · rfl
    have hrejected := Rejected.quote hline hrest
    rwa [hsplit] at hrejected

theorem Lexeme.rejected_next {c : Char} {cs : List Char} (h : (next c cs).1.kind = .invalid) :
    Rejected (c :: cs) (next c cs).1.text (next c cs).2 := by
  by_cases hname : isNameStart c
  · rw [next_of_isNameStart hname] at h
    exact absurd h (ne_invalid_of_mem_pattern (wins_name hname cs).mem_pattern)
  by_cases hdigit : isDigit c
  · rw [next_of_isDigit hdigit] at h
    exact absurd h (ne_invalid_of_mem_pattern (wins_number hdigit cs []).mem_pattern)
  by_cases hquote : c = '"'
  · subst hquote
    exact rejected_quoted h
  · have hnext : next c cs = (⟨(punctuation? c).getD .invalid, [c]⟩, cs) := by
      rw [next, if_neg hname, if_neg hdigit, if_neg hquote]
    rw [hnext]
    exact .character hquote

end SchemaLang
