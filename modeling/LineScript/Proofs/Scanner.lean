/-
# The lexical grammar as an automaton

Tokens are pulled off a text one at a time, and what ends a word without belonging to it is left in
place.  This file describes the same grammar from the other side: an automaton is pushed through the
text, one character after the other, and hands out each token when it is complete.  It knows nothing
of the text but the character it is given; all it keeps is its mode and the token under way.

`next_follows_scanner` says that a reader gives exactly the tokens of the automaton, and that it
comes to an end.  The proof follows the automaton until it is back at its start: a comment, a
literal and a word each bring it there with at most one token handed out (`scan_comment`,
`scan_literal`, `scan_word`).
-/
import Mathlib.Logic.Function.Iterate
import LineScript.Proofs.Blocks

namespace LineScript

/-- A state of the automaton. -/
structure Scanner where
  /-- How the next character is read. -/
  mode : Mode
  /-- The token under way. -/
  held : Text
deriving DecidableEq, Repr

namespace Scanner

/-- The state between tokens. -/
def start : Scanner := ⟨.word, []⟩

/-- A word under way is handed out unless it is empty. -/
def flush (held : Text) : List Text :=
  if held = [] then [] else [held]

/-- The tokens that a character completes outside comments and literals, and the state behind it. -/
def stepWord (held : Text) (c : Char) : List Text × Scanner :=
  if c = ' ' ∨ c = '\t' ∨ c = '\r' then (flush held, start)
  else if c = '\n' ∨ c = '[' ∨ c = ']' then (flush held ++ [[c]], start)
  else if c = '{' then (flush held, ⟨.literal, []⟩)
  else if c = '#' then ([], ⟨.comment, held⟩)
  else if c = '\x00' then ([], ⟨.word, held⟩)
  else ([], ⟨.word, held ++ [c]⟩)

/-- The tokens that a character completes, and the state behind it. -/
def step (s : Scanner) (c : Char) : List Text × Scanner :=
  match s.mode with
  | .word => stepWord s.held c
  | .comment => if c = '\n' then stepWord s.held c else ([], s)
  | .literal => if c = '}' then ([s.held], start) else ([], ⟨.literal, s.held ++ [c]⟩)

/-- The token that is completed by the end of the text. -/
def finish (s : Scanner) : List Text :=
  match s.mode with
  | .word | .comment => flush s.held
  | .literal => [s.held]

/-- The tokens handed out on a text, in one pass. -/
def scan (s : Scanner) : Text → List Text
  | [] => s.finish
  | c :: cs => (s.step c).1 ++ (s.step c).2.scan cs

@[simp] lemma flush_nil : flush [] = [] := rfl

lemma flush_of_ne_nil {held : Text} (h : held ≠ []) : flush held = [held] := if_neg h

@[simp] lemma scan_start_nil : start.scan [] = [] := rfl

/-- The characters by their roles. -/
lemma stepWord_eq (held : Text) (c : Char) :
    stepWord held c =
      match role c with
      | .solo => (flush held ++ [[c]], start)
      | .brace => (flush held, ⟨.literal, []⟩)
      | .hash => ([], ⟨.comment, held⟩)
      | .blank => (flush held, start)
      | .null => ([], ⟨.word, held⟩)
      | .plain => ([], ⟨.word, held ++ [c]⟩) := by
  unfold stepWord role
  split_ifs <;> grind

lemma scan_word_cons (held : Text) (c : Char) (cs : Text) :
    scan ⟨.word, held⟩ (c :: cs) = (stepWord held c).1 ++ (stepWord held c).2.scan cs := rfl

lemma scan_start_cons (c : Char) (cs : Text) :
    start.scan (c :: cs) = (stepWord [] c).1 ++ (stepWord [] c).2.scan cs := rfl

/-! ### Back to the start -/

/-- A comment amounts to what follows it, with the word under way kept. -/
lemma scan_comment (held cs : Text) :
    scan ⟨.comment, held⟩ cs = scan ⟨.word, held⟩ (skipComment cs) := by
  induction cs with
  | nil => rfl
  | cons c cs ih =>
    by_cases hc : c = '\n'
    · subst hc
      rfl
    · simpa [scan, step, skipComment, hc] using ih

/-- A literal is handed out as a whole. -/
lemma scan_literal (held cs : Text) :
    scan ⟨.literal, held⟩ cs = (held ++ (literal cs).text) :: start.scan (literal cs).rest := by
  induction cs generalizing held with
  | nil => simp [scan, finish, literal]
  | cons c cs ih =>
    by_cases hc : c = '}'
    · subst hc
      simp [scan, step, literal]
    · rw [literal_cons_of_ne hc, scan, step]
      simp [hc, ih]

/-- Behind a comment there is the end of the text or a newline, and either completes a word. -/
lemma scan_word_skipComment {held : Text} (h : held ≠ []) (cs : Text) :
    scan ⟨.word, held⟩ (skipComment cs) = held :: start.scan (skipComment cs) := by
  cases hs : skipComment cs with
  | nil => exact flush_of_ne_nil h
  | cons n rest =>
    obtain rfl := eq_of_dropWhile_ne hs
    rw [scan_word_cons, scan_start_cons, stepWord_eq, stepWord_eq]
    simp [role, flush_of_ne_nil h]

/-- A word under way is handed out with the rest of it that `word` reads. -/
lemma scan_word {held : Text} (h : held ≠ []) (cs : Text) :
    scan ⟨.word, held⟩ cs = (held ++ (word cs).text) :: start.scan (word cs).rest := by
  induction cs generalizing held with
  | nil => simp [scan, finish, word, flush_of_ne_nil h]
  | cons c cs ih =>
    rw [scan_word_cons, stepWord_eq]
    cases hr : role c with
    | solo =>
      -- the character is left in place, and handed out from the start
      rw [word_of_solo cs hr, scan_start_cons, stepWord_eq, hr]
      simp [flush_of_ne_nil h]
    | brace =>
      rw [word_of_brace cs hr, scan_start_cons, stepWord_eq, hr]
      simp [flush_of_ne_nil h]
    | hash =>
      rw [word_of_hash cs hr]
      simp [scan_comment, scan_word_skipComment h]
    | blank =>
      rw [word_of_blank cs hr]
      simp [flush_of_ne_nil h]
    | null =>
      rw [word_of_null cs hr]
      simpa using ih h
    | plain =>
      rw [word_of_plain cs hr]
      simpa using ih (show held ++ [c] ≠ [] by simp)

/-- From the start, the automaton hands out the first token and is back at the start behind it. -/
lemma scan_start (cs : Text) :
    start.scan cs =
      match (lex cs).token with
      | none => []
      | some t => t :: start.scan (lex cs).rest := by
  induction cs using Text.induction_on_length with
  | nil => rfl
  | cons c cs ih =>
    rw [scan_start_cons, stepWord_eq]
    cases hr : role c with
    | solo => simp [lex_of_solo cs hr]
    | brace => simp [lex_of_brace cs hr, Piece.toLexeme, scan_literal]
    | hash =>
      rw [lex_of_hash cs hr, ← ih _ (length_skipComment_le cs)]
      exact scan_comment [] cs
    | blank =>
      rw [lex_of_blank cs hr, ← ih cs (Nat.le_refl _)]
      rfl
    | null =>
      rw [lex_of_null cs hr, ← ih cs (Nat.le_refl _)]
      rfl
    | plain =>
      rw [lex_of_plain cs hr]
      simpa using scan_word (List.cons_ne_nil c []) cs

/-- The tokens of a text are those that the automaton hands out. -/
theorem scan_eq_tokens (cs : Text) : start.scan cs = tokens cs := by
  induction cs using Text.induction_on_length with
  | nil => rw [scan_start_nil, tokens_nil]
  | cons c cs ih =>
    rw [scan_start]
    cases ht : (lex (c :: cs)).token with
    | none => rw [tokens_of_none ht]
    | some t =>
      have hlt := length_rest_lex_lt ht
      rw [tokens_of_some ht, ih _ (Nat.le_of_lt_succ hlt)]

end Scanner

/-! ### One token after the other -/

namespace Reader

/-- The reader once so many tokens have been asked for. -/
def behind (r : Reader) (n : Nat) : Reader :=
  (fun r => r.next.2)^[n] r

lemma behind_succ (r : Reader) (n : Nat) : r.behind (n + 1) = r.next.2.behind n := rfl

lemma rest_behind (r : Reader) (n : Nat) : (r.behind n).rest = dropTokens n r.rest := by
  induction n generalizing r with
  | zero => rfl
  | succ n ih => rw [behind_succ, ih, rest_next, dropTokens]

/-- The answers of a reader are its tokens in order, and then there is none any more. -/
lemma next_behind (r : Reader) (n : Nat) : (r.behind n).next.1 = (tokens r.rest)[n]? := by
  have hfirst : ∀ cs, (lex cs).token = (tokens cs).head? := by
    intro cs
    cases ht : (lex cs).token with
    | none => rw [tokens_of_none ht, List.head?_nil]
    | some t => rw [tokens_of_some ht, List.head?_cons]
  calc (r.behind n).next.1 = (lex (dropTokens n r.rest)).token := by
        rw [← rest_behind]
        rfl
    _ = (tokens r.rest)[n]? := by
        rw [hfirst, tokens_dropTokens, List.head?_drop]

end Reader

/-- A reader gives the tokens that the automaton hands out in one pass over what is left of the
text, and after them none, however often it is asked.  It gives none only when no character remains,
and each token takes at least one character off the front. -/
theorem next_follows_scanner (r : Reader) :
    (∀ n, (r.behind n).next.1 = (Scanner.start.scan r.rest)[n]?) ∧
      (r.next.1 = none → r.next.2.rest = [] ∧ ∀ n, (r.next.2.behind n).next.1 = none) ∧
      ∀ t, r.next.1 = some t → r.next.2.rest <:+ r.rest ∧
        r.next.2.rest.length < r.rest.length := by
  refine ⟨fun n => ?_, fun hnone => ?_, fun t ht => ?_⟩
  · rw [Reader.next_behind, Scanner.scan_eq_tokens]
  · have hrest : r.next.2.rest = [] := rest_lex_of_token_eq_none hnone
    refine ⟨hrest, fun n => ?_⟩
    rw [Reader.next_behind, hrest, tokens_nil, List.getElem?_nil]
  · exact ⟨rest_lex_suffix r.rest, length_rest_lex_lt ht⟩

end LineScript
