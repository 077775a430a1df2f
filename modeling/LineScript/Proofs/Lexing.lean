/-
# Cutting texts into tokens

Three facts on tokens are needed everywhere.

* A text is read in three modes, and whether it ends inside a literal can be told by one pass over
  its characters (`Mode.after`).
* If a text ends outside literals, then a newline behind it cuts the tokens: what is read up to
  there is as if the text ended there (`lex_append_newline_of_some`,
  `lex_append_newline_of_none`).
* Words and brackets joined by spaces are read back as they were (`tokens_joined`).
-/
import Mathlib.Tactic.Common
import LineScript.Token

namespace LineScript

/-! ### Modes -/

/-- How the characters of a script are being read. -/
inductive Mode where
  /-- Outside comments and literals. -/
  | word
  /-- In a comment. -/
  | comment
  /-- In a literal. -/
  | literal
deriving DecidableEq, Repr

namespace Mode

/-- The mode behind a character. -/
def step : Mode → Char → Mode
  | word, c =>
    match role c with
    | .hash => comment
    | .brace => literal
    | _ => word
  | comment, c => if c = '\n' then word else comment
  | literal, c => if c = '}' then word else literal

/-- The mode behind a text. -/
def after (m : Mode) (cs : Text) : Mode :=
  cs.foldl step m

@[simp] lemma after_nil (m : Mode) : m.after [] = m := rfl

@[simp] lemma after_cons (m : Mode) (c : Char) (cs : Text) :
    m.after (c :: cs) = (m.step c).after cs := rfl

end Mode

/-- The text ends outside literals. -/
def EndsOutside (cs : Text) : Prop :=
  Mode.word.after cs ≠ .literal

instance (cs : Text) : Decidable (EndsOutside cs) :=
  inferInstanceAs (Decidable (_ ≠ _))

lemma endsOutside_nil : EndsOutside [] := by decide

/-- Induction for the first token of a text: a comment may be skipped at once. -/
theorem Text.induction_on_length {motive : Text → Prop} (nil : motive [])
    (cons : ∀ c cs, (∀ ds : Text, ds.length ≤ cs.length → motive ds) → motive (c :: cs))
    (cs : Text) : motive cs := by
  induction hn : cs.length using Nat.strongRecOn generalizing cs with
  | ind n ih =>
    subst hn
    cases cs with
    | nil => exact nil
    | cons c cs => exact cons c cs fun ds hds => ih _ (Nat.lt_succ_of_le hds) ds rfl

lemma after_comment_ne_literal_iff (cs : Text) :
    Mode.comment.after cs ≠ .literal ↔ EndsOutside (skipComment cs) := by
  induction cs with
  | nil => decide
  | cons c cs ih =>
    by_cases hc : c = '\n'
    · subst hc
      rfl
    · simpa [Mode.step, skipComment, hc] using ih

lemma closed_of_after_literal {cs : Text} (h : Mode.literal.after cs ≠ .literal) : '}' ∈ cs := by
  induction cs with
  | nil => exact absurd rfl h
  | cons c cs ih =>
    by_cases hc : c = '}'
    · simp [hc]
    · simp only [Mode.after_cons, Mode.step, hc, if_false] at h
      exact List.mem_cons_of_mem c (ih h)

lemma literal_cons_of_ne {c : Char} (h : c ≠ '}') (cs : Text) :
    literal (c :: cs) = ⟨c :: (literal cs).text, (literal cs).rest, (literal cs).looked⟩ := by
  simp [literal, h]

lemma endsOutside_rest_literal {cs : Text} (h : Mode.literal.after cs ≠ .literal) :
    EndsOutside (literal cs).rest := by
  induction cs with
  | nil => exact absurd rfl h
  | cons c cs ih =>
    by_cases hc : c = '}'
    · subst hc
      exact h
    · simp only [Mode.after_cons, Mode.step, hc, if_false] at h
      rw [literal_cons_of_ne hc]
      exact ih h

lemma endsOutside_rest_word {cs : Text} (h : EndsOutside cs) : EndsOutside (word cs).rest := by
  induction cs with
  | nil => exact h
  | cons c cs ih =>
    have hstep : Mode.word.after (c :: cs) ≠ .literal := h
    cases hr : role c with
    | solo =>
      rw [word_of_solo cs hr]
      exact h
    | brace =>
      rw [word_of_brace cs hr]
      exact h
    | hash =>
      simp only [Mode.after_cons, Mode.step, hr] at hstep
      rw [word_of_hash cs hr]
      exact (after_comment_ne_literal_iff cs).mp hstep
    | blank =>
      simp only [Mode.after_cons, Mode.step, hr] at hstep
      rw [word_of_blank cs hr]
      exact hstep
    | null =>
      simp only [Mode.after_cons, Mode.step, hr] at hstep
      rw [word_of_null cs hr]
      exact ih hstep
    | plain =>
      simp only [Mode.after_cons, Mode.step, hr] at hstep
      rw [word_of_plain cs hr]
      exact ih hstep

/-- What follows the first token of a text ends outside literals if the text does. -/
lemma endsOutside_rest_lex {cs : Text} (h : EndsOutside cs) : EndsOutside (lex cs).rest := by
  induction cs using Text.induction_on_length with
  | nil => exact h
  | cons c cs ih =>
    have hstep : Mode.word.after (c :: cs) ≠ .literal := h
    cases hr : role c with
    | solo =>
      simp only [Mode.after_cons, Mode.step, hr] at hstep
      rw [lex_of_solo cs hr]
      exact hstep
    | brace =>
      simp only [Mode.after_cons, Mode.step, hr] at hstep
      rw [lex_of_brace cs hr]
      exact endsOutside_rest_literal hstep
    | hash =>
      simp only [Mode.after_cons, Mode.step, hr] at hstep
      rw [lex_of_hash cs hr]
      exact ih _ (length_skipComment_le cs) ((after_comment_ne_literal_iff cs).mp hstep)
    | blank =>
      simp only [Mode.after_cons, Mode.step, hr] at hstep
      rw [lex_of_blank cs hr]
      exact ih cs (Nat.le_refl _) hstep
    | null =>
      simp only [Mode.after_cons, Mode.step, hr] at hstep
      rw [lex_of_null cs hr]
      exact ih cs (Nat.le_refl _) hstep
    | plain =>
      simp only [Mode.after_cons, Mode.step, hr] at hstep
      rw [lex_of_plain cs hr]
      exact endsOutside_rest_word hstep

/-! ### What is taken off a text -/

/-- What is read up to a character ends with that character. -/
lemma eq_of_dropWhile_ne {a c : Char} {cs rest : Text}
    (h : cs.dropWhile (· ≠ a) = c :: rest) : c = a := by
  have hc := List.head?_dropWhile_not (· ≠ a) cs
  rw [h] at hc
  simpa using hc

lemma skipComment_suffix (cs : Text) : skipComment cs <:+ cs :=
  List.dropWhile_suffix _

lemma rest_literal_suffix (cs : Text) : (literal cs).rest <:+ cs :=
  (List.tail_suffix _).trans (List.dropWhile_suffix _)

lemma rest_word_suffix (cs : Text) : (word cs).rest <:+ cs := by
  induction cs with
  | nil => exact List.suffix_rfl
  | cons c cs ih =>
    cases hr : role c with
    | solo =>
      have hrest : (word (c :: cs)).rest = c :: cs := by rw [word_of_solo cs hr]
      exact ⟨[], hrest⟩
    | brace =>
      have hrest : (word (c :: cs)).rest = c :: cs := by rw [word_of_brace cs hr]
      exact ⟨[], hrest⟩
    | hash =>
      rw [word_of_hash cs hr]
      exact (skipComment_suffix cs).trans (List.suffix_cons c cs)
    | blank =>
      rw [word_of_blank cs hr]
      exact List.suffix_cons c cs
    | null =>
      rw [word_of_null cs hr]
      exact ih.trans (List.suffix_cons c cs)
    | plain =>
      rw [word_of_plain cs hr]
      exact ih.trans (List.suffix_cons c cs)

lemma rest_lex_suffix (cs : Text) : (lex cs).rest <:+ cs := by
  induction cs using Text.induction_on_length with
  | nil => exact List.suffix_rfl
  | cons c cs ih =>
    have hcons : cs <:+ c :: cs := List.suffix_cons c cs
    cases hr : role c with
    | solo =>
      rw [lex_of_solo cs hr]
      exact hcons
    | brace =>
      rw [lex_of_brace cs hr]
      exact (rest_literal_suffix cs).trans hcons
    | hash =>
      rw [lex_of_hash cs hr]
      exact ((ih _ (length_skipComment_le cs)).trans (skipComment_suffix cs)).trans hcons
    | blank =>
      rw [lex_of_blank cs hr]
      exact (ih cs (Nat.le_refl _)).trans hcons
    | null =>
      rw [lex_of_null cs hr]
      exact (ih cs (Nat.le_refl _)).trans hcons
    | plain =>
      rw [lex_of_plain cs hr]
      exact (rest_word_suffix cs).trans hcons

/-- A word and what follows it are made of characters of the text, in their order. -/
lemma text_append_rest_word_sublist (cs : Text) :
    ((word cs).text ++ (word cs).rest).Sublist cs := by
  induction cs with
  | nil => exact .slnil
  | cons c cs ih =>
    have hcons : cs.Sublist (c :: cs) := List.sublist_cons_self c cs
    cases hr : role c with
    | solo =>
      rw [word_of_solo cs hr]
      exact .refl _
    | brace =>
      rw [word_of_brace cs hr]
      exact .refl _
    | hash =>
      rw [word_of_hash cs hr]
      exact (skipComment_suffix cs).sublist.trans hcons
    | blank =>
      rw [word_of_blank cs hr]
      exact hcons
    | null =>
      rw [word_of_null cs hr]
      exact ih.trans hcons
    | plain =>
      rw [word_of_plain cs hr]
      exact ih.cons_cons c

/-- A token and what follows it are made of characters of the text, in their order. -/
lemma token_append_rest_sublist {cs t : Text} (h : (lex cs).token = some t) :
    (t ++ (lex cs).rest).Sublist cs := by
  induction cs using Text.induction_on_length with
  | nil => exact nomatch h
  | cons c cs ih =>
    have hcons : cs.Sublist (c :: cs) := List.sublist_cons_self c cs
    cases hr : role c with
    | solo =>
      rw [lex_of_solo cs hr] at h ⊢
      obtain rfl := Option.some.inj h
      exact .refl _
    | brace =>
      rw [lex_of_brace cs hr] at h ⊢
      obtain rfl := Option.some.inj h
      have hparts := (List.tail_sublist (cs.dropWhile (· ≠ '}'))).append_left
        (cs.takeWhile (· ≠ '}'))
      rw [List.takeWhile_append_dropWhile] at hparts
      exact hparts.trans hcons
    | hash =>
      rw [lex_of_hash cs hr] at h ⊢
      exact ((ih _ (length_skipComment_le cs) h).trans (skipComment_suffix cs).sublist).trans hcons
    | blank =>
      rw [lex_of_blank cs hr] at h ⊢
      exact (ih cs (Nat.le_refl _) h).trans hcons
    | null =>
      rw [lex_of_null cs hr] at h ⊢
      exact (ih cs (Nat.le_refl _) h).trans hcons
    | plain =>
      rw [lex_of_plain cs hr] at h ⊢
      obtain rfl := Option.some.inj h
      exact (text_append_rest_word_sublist cs).cons_cons c

/-- A token is made of characters of the text. -/
lemma token_subset {cs t : Text} (h : (lex cs).token = some t) : t ⊆ cs :=
  ((List.sublist_append_left t _).trans (token_append_rest_sublist h)).subset

/-! ### A newline behind a text -/

section Newline

variable (a b : Text)

lemma skipComment_append_newline :
    skipComment (a ++ '\n' :: b) = skipComment a ++ '\n' :: b := by
  induction a with
  | nil => rfl
  | cons c a ih =>
    by_cases hc : c = '\n'
    · subst hc
      rfl
    · simpa [skipComment, hc] using ih

lemma literal_append {a : Text} (h : '}' ∈ a) :
    literal (a ++ b) = ⟨(literal a).text, (literal a).rest ++ b, (literal a).looked⟩ := by
  induction a with
  | nil => exact absurd h List.not_mem_nil
  | cons c a ih =>
    by_cases hc : c = '}'
    · subst hc
      rfl
    · have ha : '}' ∈ a := (List.mem_cons.mp h).resolve_left (Ne.symm hc)
      rw [List.cons_append, literal_cons_of_ne hc, literal_cons_of_ne hc, ih ha]

lemma word_append_newline :
    word (a ++ '\n' :: b)
      = ⟨(word a).text, (word a).rest ++ '\n' :: b, (word a).looked⟩ := by
  induction a with
  | nil => rfl
  | cons c a ih =>
    rw [List.cons_append]
    cases hr : role c with
    | solo =>
      rw [word_of_solo _ hr, word_of_solo _ hr]
      rfl
    | brace =>
      rw [word_of_brace _ hr, word_of_brace _ hr]
      rfl
    | hash =>
      rw [word_of_hash _ hr, word_of_hash _ hr, skipComment_append_newline]
    | blank =>
      rw [word_of_blank _ hr, word_of_blank _ hr]
    | null =>
      rw [word_of_null _ hr, word_of_null _ hr, ih]
    | plain =>
      rw [word_of_plain _ hr, word_of_plain _ hr, ih]

/-- What `lex` does on a text with a newline and more behind it. -/
def Lexeme.appendNewline (l : Lexeme) : Lexeme :=
  match l.token with
  | some t => ⟨some t, l.rest ++ '\n' :: b, l.looked⟩
  | none => ⟨some newline, b, false⟩

lemma lex_append_newline {a : Text} (h : EndsOutside a) :
    lex (a ++ '\n' :: b) = (lex a).appendNewline b := by
  induction a using Text.induction_on_length with
  | nil => rfl
  | cons c a ih =>
    have hstep : Mode.word.after (c :: a) ≠ .literal := h
    rw [List.cons_append]
    cases hr : role c with
    | solo =>
      rw [lex_of_solo _ hr, lex_of_solo _ hr]
      rfl
    | brace =>
      -- the literal is closed in `a`, so what follows does not change it
      simp only [Mode.after_cons, Mode.step, hr] at hstep
      rw [lex_of_brace _ hr, lex_of_brace _ hr, literal_append _ (closed_of_after_literal hstep)]
      rfl
    | hash =>
      -- a comment at the end of `a` stops at the newline behind it
      simp only [Mode.after_cons, Mode.step, hr] at hstep
      rw [lex_of_hash _ hr, lex_of_hash _ hr, skipComment_append_newline]
      exact ih _ (length_skipComment_le a) ((after_comment_ne_literal_iff a).mp hstep)
    | blank =>
      simp only [Mode.after_cons, Mode.step, hr] at hstep
      rw [lex_of_blank _ hr, lex_of_blank _ hr]
      exact ih a (Nat.le_refl _) hstep
    | null =>
      simp only [Mode.after_cons, Mode.step, hr] at hstep
      rw [lex_of_null _ hr, lex_of_null _ hr]
      exact ih a (Nat.le_refl _) hstep
    | plain =>
      rw [lex_of_plain _ hr, lex_of_plain _ hr, word_append_newline]
      rfl

lemma lex_append_newline_of_some {a t : Text} (h : EndsOutside a) (ht : (lex a).token = some t) :
    lex (a ++ '\n' :: b) = ⟨some t, (lex a).rest ++ '\n' :: b, (lex a).looked⟩ := by
  rw [lex_append_newline b h, Lexeme.appendNewline, ht]

lemma lex_append_newline_of_none {a : Text} (h : EndsOutside a) (ht : (lex a).token = none) :
    lex (a ++ '\n' :: b) = ⟨some newline, b, false⟩ := by
  rw [lex_append_newline b h, Lexeme.appendNewline, ht]

end Newline

/-! ### All tokens -/

lemma tokens_of_none {cs : Text} (h : (lex cs).token = none) : tokens cs = [] := by
  rw [tokens]
  split
  · rfl
  · rename_i t ht
    simp [h] at ht

lemma tokens_of_some {cs t : Text} (h : (lex cs).token = some t) :
    tokens cs = t :: tokens (lex cs).rest := by
  rw [tokens]
  split
  · rename_i ht
    simp [h] at ht
  · rename_i t' ht
    rw [h] at ht
    obtain rfl : t = t' := Option.some.inj ht
    rfl

@[simp] lemma tokens_nil : tokens [] = [] := tokens_of_none rfl

lemma tokens_congr {cs ds : Text} (h : lex cs = lex ds) : tokens cs = tokens ds := by
  cases ht : (lex cs).token with
  | none => rw [tokens_of_none ht, tokens_of_none (h ▸ ht)]
  | some t =>
    have ht' : (lex ds).token = some t := h ▸ ht
    rw [tokens_of_some ht, tokens_of_some ht', h]

/-! ### Joined tokens -/

/-- The characters that are not part of a word. -/
def delimiters : List Char := [' ', '\t', '\r', '\n', '[', ']', '{', '#', '\x00']

lemma role_eq_plain_iff (c : Char) : role c = .plain ↔ c ∉ delimiters := by
  unfold role delimiters
  simp only [List.mem_cons, List.not_mem_nil, or_false, not_or]
  constructor
  · intro h
    split at h
    · exact nomatch h
    split at h
    · exact nomatch h
    split at h
    · exact nomatch h
    split at h
    · exact nomatch h
    split at h
    · exact nomatch h
    · tauto
  · rintro ⟨h₁, h₂, h₃, h₄, h₅, h₆, h₇, h₈, h₉⟩
    simp [h₁, h₂, h₃, h₄, h₅, h₆, h₇, h₈, h₉]

/-- A token that is not empty and holds no delimiters. -/
def IsWord (t : Text) : Prop :=
  t ≠ [] ∧ ∀ c ∈ t, c ∉ delimiters

/-- A token that is read back from joined tokens: a bracket, a newline or a word. -/
def IsPlain (t : Text) : Prop :=
  t = openBlock ∨ t = closeBlock ∨ t = newline ∨ IsWord t

instance (t : Text) : Decidable (IsWord t) :=
  have : Decidable (∀ c ∈ t, c ∉ delimiters) := List.decidableBAll _ t
  inferInstanceAs (Decidable (_ ∧ _))

instance (t : Text) : Decidable (IsPlain t) :=
  inferInstanceAs (Decidable (_ ∨ _))

/-- The tokens of a block as one text, each followed by a space. -/
def joined (ts : List Text) : Text :=
  ts.flatMap (· ++ [' '])

@[simp] lemma joined_nil : joined [] = [] := rfl

@[simp] lemma joined_cons (t : Text) (ts : List Text) :
    joined (t :: ts) = t ++ ' ' :: joined ts := by
  simp [joined]

/-- Plain characters belong to the word that goes on behind them. -/
lemma word_append_of_plain {t : Text} (h : ∀ c ∈ t, c ∉ delimiters) (cs : Text) :
    word (t ++ cs) = ⟨t ++ (word cs).text, (word cs).rest, (word cs).looked⟩ := by
  induction t with
  | nil => rfl
  | cons c t ih =>
    have hc : role c = .plain := (role_eq_plain_iff c).mpr (h c List.mem_cons_self)
    have ht := ih fun d hd => h d (List.mem_cons_of_mem c hd)
    rw [List.cons_append, word_of_plain _ hc, ht]
    rfl

/-- A word at the front begins the first token, which goes on as far as a word behind it does. -/
lemma lex_append_of_isWord {t : Text} (h : IsWord t) (cs : Text) :
    lex (t ++ cs) = ⟨some (t ++ (word cs).text), (word cs).rest, (word cs).looked⟩ := by
  obtain ⟨hne, h⟩ := h
  obtain ⟨c, t, rfl⟩ := List.exists_cons_of_ne_nil hne
  have hc : role c = .plain := (role_eq_plain_iff c).mpr (h c List.mem_cons_self)
  rw [List.cons_append, lex_of_plain _ hc,
    word_append_of_plain (fun d hd => h d (List.mem_cons_of_mem c hd))]
  rfl

lemma word_append_space {t : Text} (h : ∀ c ∈ t, c ∉ delimiters) (cs : Text) :
    word (t ++ ' ' :: cs) = ⟨t, cs, false⟩ := by
  rw [word_append_of_plain h, word_of_blank cs (by decide), List.append_nil]

lemma tokens_space_cons (cs : Text) : tokens (' ' :: cs) = tokens cs :=
  tokens_congr (lex_of_blank cs (by decide))

lemma tokens_append_space {t : Text} (h : IsPlain t) (cs : Text) :
    tokens (t ++ ' ' :: cs) = t :: tokens cs := by
  rcases h with rfl | rfl | rfl | h
  · rw [← tokens_space_cons cs]
    exact tokens_of_some rfl
  · rw [← tokens_space_cons cs]
    exact tokens_of_some rfl
  · rw [← tokens_space_cons cs]
    exact tokens_of_some rfl
  · have hlex : lex (t ++ ' ' :: cs) = ⟨some t, cs, false⟩ := by
      rw [lex_append_of_isWord h, word_of_blank cs (by decide), List.append_nil]
    rw [tokens_of_some (by rw [hlex]), hlex]

/-- Brackets, newlines and words are read back from the text they are joined to. -/
theorem tokens_joined {ts : List Text} (h : ∀ t ∈ ts, IsPlain t) : tokens (joined ts) = ts := by
  induction ts with
  | nil => exact tokens_nil
  | cons t ts ih =>
    rw [joined_cons, tokens_append_space (h t List.mem_cons_self),
      ih fun s hs => h s (List.mem_cons_of_mem t hs)]

end LineScript
