/-
# Tokens of a script

A script is a text: a list of characters.  It is cut into tokens, which are texts again;
nothing about the kind of a token is kept.  Each character has a role outside literals:

* `[`, `]` and the newline end a word and are tokens of their own;
* `{` ends a word and opens a literal, which runs verbatim up to the next `}`;
* `#` opens a comment, which runs up to the newline and does not include it;
* space, tab and carriage return separate words;
* the null character is dropped, also within a word;
* every other character belongs to a word.

`lex` takes the first token off a text.  It is a recursion on the text, and so are the three
readers it is built from: `word`, `literal` and `skipComment`.  Each of them also says whether
it had to look at a character (or at the end of the text) that it leaves in place, which is all
the lookahead there is.
-/

namespace LineScript

/-- The texts of scripts, values, names and tokens. -/
abbrev Text := List Char

/-- What a character does to the token under way, outside literals. -/
inductive Role where
  /-- A bracket or a newline: a token of its own. -/
  | solo
  /-- The brace that opens a literal. -/
  | brace
  /-- The hash that opens a comment. -/
  | hash
  /-- A separator of words. -/
  | blank
  /-- A character that is dropped. -/
  | null
  /-- A character of a word. -/
  | plain
deriving DecidableEq, Repr

/-- The role of a character. -/
def role (c : Char) : Role :=
  if c = '[' ∨ c = ']' ∨ c = '\n' then .solo
  else if c = '{' then .brace
  else if c = '#' then .hash
  else if c = ' ' ∨ c = '\t' ∨ c = '\r' then .blank
  else if c = '\x00' then .null
  else .plain

/-- The token that ends a line. -/
def newline : Text := ['\n']

/-- The token that opens a block. -/
def openBlock : Text := ['[']

/-- The token that closes a block. -/
def closeBlock : Text := [']']

/-- A piece taken off the front of a text. -/
structure Piece where
  /-- The characters that make up the piece. -/
  text : Text
  /-- What follows it. -/
  rest : Text
  /-- The end of the piece was found by looking at what follows and leaving it in place. -/
  looked : Bool
deriving DecidableEq, Repr

/-- What is left of a text from its next newline on. -/
def skipComment (cs : Text) : Text :=
  cs.dropWhile (· ≠ '\n')

/-- The literal whose opening brace has just been read: everything up to the closing brace, or
up to the end of the text if there is none. -/
def literal (cs : Text) : Piece where
  text := cs.takeWhile (· ≠ '}')
  rest := (cs.dropWhile (· ≠ '}')).tail
  looked := (cs.dropWhile (· ≠ '}')).isEmpty

/-- The rest of a word of which at least one character has been read. -/
def word : Text → Piece
  | [] => ⟨[], [], true⟩
  | c :: cs =>
    match role c with
    | .solo | .brace => ⟨[], c :: cs, true⟩
    | .hash => ⟨[], skipComment cs, true⟩
    | .blank => ⟨[], cs, false⟩
    | .null => word cs
    | .plain =>
      let w := word cs
      { w with text := c :: w.text }

/-- The first token of a text, with what follows it. -/
structure Lexeme where
  /-- The token; `none` if the text holds no further one. -/
  token : Option Text
  /-- What follows the token. -/
  rest : Text
  /-- The end of the token was found by looking at what follows and leaving it in place. -/
  looked : Bool
deriving DecidableEq, Repr

/-- A piece as a lexeme. -/
def Piece.toLexeme (p : Piece) : Lexeme :=
  ⟨some p.text, p.rest, p.looked⟩

/-- Takes the first token off a text. -/
def lex : Text → Lexeme
  | [] => ⟨none, [], true⟩
  | c :: cs =>
    match role c with
    | .solo => ⟨some [c], cs, false⟩
    | .brace => (literal cs).toLexeme
    | .hash =>
      match skipComment cs with
      | [] => ⟨none, [], true⟩
      | n :: rest => ⟨some [n], rest, false⟩
    | .blank | .null => lex cs
    | .plain =>
      let w := word cs
      ⟨some (c :: w.text), w.rest, w.looked⟩

/-! ### One equation per role -/

theorem word_cons (c : Char) (cs : Text) :
    word (c :: cs) =
      match role c with
      | .solo | .brace => ⟨[], c :: cs, true⟩
      | .hash => ⟨[], skipComment cs, true⟩
      | .blank => ⟨[], cs, false⟩
      | .null => word cs
      | .plain => ⟨c :: (word cs).text, (word cs).rest, (word cs).looked⟩ :=
  rfl

theorem lex_cons (c : Char) (cs : Text) :
    lex (c :: cs) =
      match role c with
      | .solo => ⟨some [c], cs, false⟩
      | .brace => (literal cs).toLexeme
      | .hash =>
        match skipComment cs with
        | [] => ⟨none, [], true⟩
        | n :: rest => ⟨some [n], rest, false⟩
      | .blank | .null => lex cs
      | .plain => ⟨some (c :: (word cs).text), (word cs).rest, (word cs).looked⟩ :=
  rfl

section Equations

variable {c : Char} (cs : Text)

theorem word_of_solo (h : role c = .solo) : word (c :: cs) = ⟨[], c :: cs, true⟩ := by
  simp only [word_cons, h]

theorem word_of_brace (h : role c = .brace) : word (c :: cs) = ⟨[], c :: cs, true⟩ := by
  simp only [word_cons, h]

theorem word_of_hash (h : role c = .hash) : word (c :: cs) = ⟨[], skipComment cs, true⟩ := by
  simp only [word_cons, h]

theorem word_of_blank (h : role c = .blank) : word (c :: cs) = ⟨[], cs, false⟩ := by
  simp only [word_cons, h]

theorem word_of_null (h : role c = .null) : word (c :: cs) = word cs := by
  simp only [word_cons, h]

theorem word_of_plain (h : role c = .plain) :
    word (c :: cs) = ⟨c :: (word cs).text, (word cs).rest, (word cs).looked⟩ := by
  simp only [word_cons, h]

theorem lex_of_solo (h : role c = .solo) : lex (c :: cs) = ⟨some [c], cs, false⟩ := by
  simp only [lex_cons, h]

theorem lex_of_brace (h : role c = .brace) : lex (c :: cs) = (literal cs).toLexeme := by
  simp only [lex_cons, h]

theorem lex_of_blank (h : role c = .blank) : lex (c :: cs) = lex cs := by
  simp only [lex_cons, h]

theorem lex_of_null (h : role c = .null) : lex (c :: cs) = lex cs := by
  simp only [lex_cons, h]

theorem lex_of_plain (h : role c = .plain) :
    lex (c :: cs) = ⟨some (c :: (word cs).text), (word cs).rest, (word cs).looked⟩ := by
  simp only [lex_cons, h]

/-- A comment amounts to what follows it. -/
theorem lex_of_hash (h : role c = .hash) : lex (c :: cs) = lex (skipComment cs) := by
  rw [lex_cons, h]
  cases hs : skipComment cs with
  | nil => rfl
  | cons n rest =>
    have hn := List.head?_dropWhile_not (· ≠ '\n') cs
    rw [show cs.dropWhile (· ≠ '\n') = n :: rest from hs] at hn
    obtain rfl : n = '\n' := by simpa using hn
    rfl

end Equations

/-! ### Every token takes something off the text -/

theorem length_dropWhile_le (p : Char → Bool) (cs : Text) :
    (cs.dropWhile p).length ≤ cs.length :=
  (List.dropWhile_sublist p).length_le

theorem length_skipComment_le (cs : Text) : (skipComment cs).length ≤ cs.length :=
  length_dropWhile_le _ cs

theorem length_rest_literal_le (cs : Text) : (literal cs).rest.length ≤ cs.length := by
  have h := length_dropWhile_le (· ≠ '}') cs
  simp only [literal, List.length_tail]
  omega

theorem length_rest_word_le (cs : Text) : (word cs).rest.length ≤ cs.length := by
  induction cs with
  | nil => exact Nat.le_refl _
  | cons c cs ih =>
    have h := length_skipComment_le cs
    cases hr : role c <;>
      simp [word_of_solo, word_of_brace, word_of_hash, word_of_blank, word_of_null,
        word_of_plain, hr] <;> omega

/-- A token given means that at least one character was taken. -/
theorem length_rest_lex_lt {cs t : Text} (h : (lex cs).token = some t) :
    (lex cs).rest.length < cs.length := by
  induction hn : cs.length using Nat.strongRecOn generalizing cs with
  | ind n ih =>
    subst hn
    cases cs with
    | nil => exact nomatch (show none = some t from h)
    | cons c cs =>
      have hs := length_skipComment_le cs
      have hl := length_rest_literal_le cs
      have hw := length_rest_word_le cs
      cases hr : role c with
      | solo => simp [lex_of_solo, hr]
      | brace => simp [lex_of_brace, hr, Piece.toLexeme]; omega
      | hash =>
        rw [lex_of_hash cs hr] at h ⊢
        have := ih _ (by simp; omega) h rfl
        simp only [List.length_cons]
        omega
      | blank =>
        rw [lex_of_blank cs hr] at h ⊢
        have := ih _ (by simp) h rfl
        simp only [List.length_cons]
        omega
      | null =>
        rw [lex_of_null cs hr] at h ⊢
        have := ih _ (by simp) h rfl
        simp only [List.length_cons]
        omega
      | plain => simp [lex_of_plain, hr]; omega

/-- No token given means that nothing is left. -/
theorem rest_lex_of_token_eq_none {cs : Text} (h : (lex cs).token = none) :
    (lex cs).rest = [] := by
  induction hn : cs.length using Nat.strongRecOn generalizing cs with
  | ind n ih =>
    subst hn
    cases cs with
    | nil => rfl
    | cons c cs =>
      have hs := length_skipComment_le cs
      cases hr : role c with
      | solo => simp [lex_of_solo, hr] at h
      | brace => simp [lex_of_brace, hr, Piece.toLexeme] at h
      | hash =>
        rw [lex_of_hash cs hr] at h ⊢
        exact ih _ (by simp; omega) h rfl
      | blank =>
        rw [lex_of_blank cs hr] at h ⊢
        exact ih _ (by simp) h rfl
      | null =>
        rw [lex_of_null cs hr] at h ⊢
        exact ih _ (by simp) h rfl
      | plain => simp [lex_of_plain, hr] at h

theorem length_rest_lex_le (cs : Text) : (lex cs).rest.length ≤ cs.length := by
  cases h : (lex cs).token with
  | none => simp [rest_lex_of_token_eq_none h]
  | some t => exact Nat.le_of_lt (length_rest_lex_lt h)

/-- All the tokens of a text, in order. -/
def tokens (cs : Text) : List Text :=
  match h : (lex cs).token with
  | none => []
  | some t =>
    have : (lex cs).rest.length < cs.length := length_rest_lex_lt h
    t :: tokens (lex cs).rest
termination_by cs.length

end LineScript
