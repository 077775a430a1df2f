/-
# Spelling out tokens

Nothing about the kind of a token is kept, so one may ask which texts are tokens at all.  A text
without a closing brace is the content of a literal, and a text without delimiters is a word.
These are all: a text that holds a closing brace as well as a delimiter is not a token of any script
(`spellable_of_mem_tokens`).  Conversely, any list of spellable texts is printed in such a way that
it is read back (`tokens_printed`).  So the lists of tokens of scripts are exactly the lists of
spellable texts: `tokens_round_trip`.
-/
import LineScript.Proofs.Lexing

namespace LineScript

/-- The text can be written as one token: it holds no closing brace, or no delimiter. -/
def Spellable (t : Text) : Prop :=
  '}' ∉ t ∨ ∀ c ∈ t, c ∉ delimiters

instance (t : Text) : Decidable (Spellable t) :=
  have : Decidable (∀ c ∈ t, c ∉ delimiters) := List.decidableBAll _ t
  inferInstanceAs (Decidable (_ ∨ _))

/-- A text written as one token: in braces, unless it holds a closing brace itself. -/
def spelled (t : Text) : Text :=
  if '}' ∈ t then t else '{' :: (t ++ ['}'])

/-- Texts written as tokens, with a space between neighbours. -/
def printed (ts : List Text) : Text :=
  [' '].intercalate (ts.map spelled)

lemma spellable_nil : Spellable [] := by decide

/-! ### Tokens are spellable -/

lemma not_mem_delimiters_of_mem_word {c : Char} {cs : Text} (h : c ∈ (word cs).text) :
    c ∉ delimiters := by
  induction cs with
  | nil => simp [word] at h
  | cons d cs ih =>
    cases hr : role d with
    | solo => simp [word_of_solo cs hr] at h
    | brace => simp [word_of_brace cs hr] at h
    | hash => simp [word_of_hash cs hr] at h
    | blank => simp [word_of_blank cs hr] at h
    | null =>
      rw [word_of_null cs hr] at h
      exact ih h
    | plain =>
      rw [word_of_plain cs hr] at h
      rcases List.mem_cons.mp h with rfl | h
      · exact (role_eq_plain_iff c).mp hr
      · exact ih h

lemma closeBrace_not_mem_literal (cs : Text) : '}' ∉ (literal cs).text := by
  intro h
  simpa using List.all_eq_true.mp List.all_takeWhile _ h

/-- The first token of a text is spellable. -/
lemma spellable_of_lex {cs t : Text} (h : (lex cs).token = some t) : Spellable t := by
  induction cs using Text.induction_on_length with
  | nil => exact nomatch h
  | cons c cs ih =>
    cases hr : role c with
    | solo =>
      rw [lex_of_solo cs hr] at h
      obtain rfl := Option.some.inj h
      left
      intro hmem
      obtain rfl := List.mem_singleton.mp hmem
      exact absurd hr (by decide)
    | brace =>
      rw [lex_of_brace cs hr] at h
      obtain rfl := Option.some.inj h
      exact .inl (closeBrace_not_mem_literal cs)
    | hash =>
      rw [lex_of_hash cs hr] at h
      exact ih _ (length_skipComment_le cs) h
    | blank =>
      rw [lex_of_blank cs hr] at h
      exact ih cs (Nat.le_refl _) h
    | null =>
      rw [lex_of_null cs hr] at h
      exact ih cs (Nat.le_refl _) h
    | plain =>
      rw [lex_of_plain cs hr] at h
      obtain rfl := Option.some.inj h
      right
      intro d hd
      rcases List.mem_cons.mp hd with rfl | hd
      · exact (role_eq_plain_iff d).mp hr
      · exact not_mem_delimiters_of_mem_word hd

/-- Every token of a text is spellable. -/
theorem spellable_of_mem_tokens {cs t : Text} (h : t ∈ tokens cs) : Spellable t := by
  induction cs using Text.induction_on_length with
  | nil => simp at h
  | cons c cs ih =>
    cases ht : (lex (c :: cs)).token with
    | none => simp [tokens_of_none ht] at h
    | some s =>
      have hlt := length_rest_lex_lt ht
      rw [tokens_of_some ht] at h
      rcases List.mem_cons.mp h with rfl | h
      · exact spellable_of_lex ht
      · exact ih _ (Nat.le_of_lt_succ hlt) h

/-! ### Spellable texts are read back -/

/-- A literal is read up to its closing brace. -/
lemma lex_braced {t : Text} (h : '}' ∉ t) (cs : Text) :
    lex ('{' :: (t ++ '}' :: cs)) = ⟨some t, cs, false⟩ := by
  have hall : ∀ c ∈ t, decide (c ≠ '}') = true := by
    intro c hc
    simp only [decide_eq_true_eq]
    rintro rfl
    exact h hc
  have hlit : literal (t ++ '}' :: cs) = ⟨t, cs, false⟩ := by
    simp only [literal, List.takeWhile_append_of_pos hall, List.dropWhile_append_of_pos hall]
    simp
  rw [lex_of_brace _ (by decide), hlit]
  rfl

lemma tokens_braced {t : Text} (h : '}' ∉ t) (cs : Text) :
    tokens ('{' :: (t ++ '}' :: cs)) = t :: tokens cs := by
  rw [tokens_of_some (by rw [lex_braced h]), lex_braced h]

lemma word_nil : word [] = ⟨[], [], true⟩ := rfl

lemma word_eq_self {t : Text} (h : ∀ c ∈ t, c ∉ delimiters) : word t = ⟨t, [], true⟩ := by
  have hword := word_append_of_plain h []
  rwa [word_nil, List.append_nil] at hword

lemma tokens_word {t : Text} (h : IsWord t) : tokens t = [t] := by
  have hlex := lex_append_of_isWord h []
  rw [word_nil, List.append_nil] at hlex
  rw [tokens_of_some (by rw [hlex]), hlex, tokens_nil]

lemma Spellable.isWord {t : Text} (h : Spellable t) (hmem : '}' ∈ t) : IsWord t :=
  ⟨List.ne_nil_of_mem hmem, h.resolve_left (not_not_intro hmem)⟩

/-- A text that is spelled out is one token. -/
lemma tokens_spelled {t : Text} (h : Spellable t) : tokens (spelled t) = [t] := by
  by_cases hmem : '}' ∈ t
  · rw [spelled, if_pos hmem, tokens_word (h.isWord hmem)]
  · rw [spelled, if_neg hmem, tokens_braced hmem [], tokens_nil]

/-- A text that is spelled out in front of a space is one token. -/
lemma tokens_spelled_append_space {t : Text} (h : Spellable t) (cs : Text) :
    tokens (spelled t ++ ' ' :: cs) = t :: tokens cs := by
  by_cases hmem : '}' ∈ t
  · rw [spelled, if_pos hmem, tokens_append_space (.inr (.inr (.inr (h.isWord hmem))))]
  · rw [spelled, if_neg hmem, List.cons_append, List.append_assoc, List.singleton_append,
      tokens_braced hmem, tokens_space_cons]

lemma printed_singleton (t : Text) : printed [t] = spelled t := by
  simp [printed]

lemma printed_cons_cons (t u : Text) (ts : List Text) :
    printed (t :: u :: ts) = spelled t ++ ' ' :: printed (u :: ts) := by
  simp [printed, List.intercalate_cons_cons]

/-- A list of spellable texts is read back as it was printed, whichever texts are neighbours. -/
theorem tokens_printed {ts : List Text} (h : ∀ t ∈ ts, Spellable t) : tokens (printed ts) = ts := by
  induction ts with
  | nil => exact tokens_nil
  | cons t ts ih =>
    have ht : Spellable t := h t List.mem_cons_self
    cases ts with
    | nil => rw [printed_singleton, tokens_spelled ht]
    | cons u us =>
      rw [printed_cons_cons, tokens_spelled_append_space ht,
        ih fun s hs => h s (List.mem_cons_of_mem t hs)]

/-- The lists of tokens are exactly the lists of spellable texts.  Printing is right inverse to
reading on these lists, so the tokens of a script, once printed, are read back. -/
theorem tokens_round_trip :
    (∀ ts, (∃ cs, tokens cs = ts) ↔ ∀ t ∈ ts, Spellable t) ∧
      (∀ ts, (∀ t ∈ ts, Spellable t) → tokens (printed ts) = ts) ∧
      ∀ cs, tokens (printed (tokens cs)) = tokens cs := by
  refine ⟨fun ts => ⟨?_, fun h => ⟨printed ts, tokens_printed h⟩⟩, fun ts => tokens_printed,
    fun cs => tokens_printed fun t => spellable_of_mem_tokens⟩
  rintro ⟨cs, rfl⟩ t ht
  exact spellable_of_mem_tokens ht

/-- An empty token, brackets, a newline, a hash and a word with a closing brace are printed and read
back; a closing brace with a space is no token of any script. -/
theorem unlike_tokens_round_trip :
    let ts := [[], openBlock, "a\x7db\x7d".toList, newline, "# \x7b $x".toList, closeBlock]
    (∀ t ∈ ts, Spellable t) ∧
      printed ts = "\x7b\x7d \x7b[\x7d a\x7db\x7d \x7b\n\x7d \x7b# \x7b $x\x7d \x7b]\x7d".toList ∧
      tokens (printed ts) = ts ∧ ¬ ∃ cs, tokens cs = ["\x7d ".toList] := by
  intro ts
  have hts : ∀ t ∈ ts, Spellable t := by decide
  obtain ⟨himage, hprinted, -⟩ := tokens_round_trip
  refine ⟨hts, by decide, hprinted ts hts, ?_⟩
  rw [himage]
  decide

end LineScript
