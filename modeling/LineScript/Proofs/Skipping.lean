/-
# Discarding a line, in characters and in tokens

The rest of a line is discarded character by character, up to the next newline, while everything
else goes by tokens.  The two agree unless the newline that is found stands in a literal, where it
is no token of its own.  That depends on the literals that open on the line under way:
`literalsOnLine_iff` says that none of them holds a newline if and only if the text up to its first
newline ends outside literals, and then that newline is the first newline token
(`tokens_tail_skipComment`).

`skipLine_agrees_with_tokens` says this for a reader behind any number of its tokens.
-/
import LineScript.Proofs.Recovery
import LineScript.Proofs.Session
import Mathlib.Data.List.Induction

namespace LineScript

/-! ### Literals on a line -/

/-- Every newline of the text stands in a literal. -/
def NewlinesInLiterals (cs : Text) : Prop :=
  ∀ a b, cs = a ++ '\n' :: b → Mode.word.after a = .literal

/-- No literal of the text that opens before its first newline outside literals holds a newline. -/
def LiteralsOnLine (cs : Text) : Prop :=
  ∀ before inner, cs = before ++ '{' :: inner → Mode.word.after before = .word →
    NewlinesInLiterals before → '\n' ∉ (literal inner).text

lemma Mode.after_append (m : Mode) (a b : Text) : m.after (a ++ b) = (m.after a).after b :=
  List.foldl_append

/-- A text that ends inside a literal has a place where that literal opens. -/
lemma exists_open_of_after_eq_literal {a : Text} (h : Mode.word.after a = .literal) :
    ∃ before inner, a = before ++ '{' :: inner ∧ Mode.word.after before = .word ∧
      '}' ∉ inner := by
  induction a using List.reverseRecOn with
  | nil => cases h
  | append_singleton a c ih =>
    rw [Mode.after_append] at h
    cases hm : Mode.word.after a with
    | word =>
      rw [hm] at h
      cases hr : role c with
      | brace => exact ⟨a, [], by rw [eq_of_role_eq_brace hr], hm, List.not_mem_nil⟩
      | solo | hash | blank | null | plain => simp [Mode.step, hr] at h
    | comment =>
      rw [hm] at h
      by_cases hc : c = '\n' <;> simp [Mode.step, hc] at h
    | literal =>
      have hc : c ≠ '}' := by
        rintro rfl
        rw [hm] at h
        cases h
      obtain ⟨before, inner, rfl, hbefore, hinner⟩ := ih hm
      refine ⟨before, inner ++ [c], by simp, hbefore, ?_⟩
      simp [hinner, hc.symm]

lemma newline_mem_literal {inner b : Text} (h : '}' ∉ inner) :
    '\n' ∈ (literal (inner ++ '\n' :: b)).text := by
  have hinner : ∀ c ∈ inner, decide (c ≠ '}') = true := by
    intro c hc
    rw [decide_eq_true_eq]
    rintro rfl
    exact h hc
  rw [literal, List.takeWhile_append_of_pos hinner]
  simp

lemma newline_not_mem_literal {inner b : Text} (h : '}' ∈ inner) (hnl : '\n' ∉ inner) :
    '\n' ∉ (literal (inner ++ b)).text := by
  rw [literal_append b h]
  intro hmem
  exact hnl ((List.takeWhile_sublist _).subset hmem)

/-- With the first newline of a text given, the literals on its line hold no newline if and only if
the text in front of it ends outside literals. -/
lemma literalsOnLine_append_newline {a b : Text} (ha : '\n' ∉ a) :
    LiteralsOnLine (a ++ '\n' :: b) ↔ EndsOutside a := by
  constructor
  · intro h hliteral
    obtain ⟨before, inner, rfl, hbefore, hinner⟩ := exists_open_of_after_eq_literal hliteral
    refine h before (inner ++ '\n' :: b) (by simp) hbefore ?_ (newline_mem_literal hinner)
    rintro c d rfl
    simp at ha
  · intro h before inner htext hbefore hnewlines
    rcases List.append_eq_append_iff.mp htext with ⟨a', rfl, hb⟩ | ⟨c', rfl, hinner⟩
    · -- the newline is part of what stands before the literal, and outside literals
      cases a' with
      | nil => simp at hb
      | cons c a' =>
        obtain ⟨rfl, -⟩ := List.cons.inj hb
        exact absurd (hnewlines a a' rfl) h
    · -- the literal opens in front of the newline, and is closed there
      cases c' with
      | nil => simp at hinner
      | cons c c' =>
        obtain ⟨rfl, rfl⟩ := List.cons.inj hinner
        have hclosed : Mode.literal.after c' ≠ .literal := by
          have hafter : Mode.word.after (before ++ '{' :: c') = Mode.literal.after c' := by
            rw [Mode.after_append, hbefore]
            rfl
          exact hafter ▸ h
        have hnl : '\n' ∉ c' := fun hmem => ha (by simp [hmem])
        exact newline_not_mem_literal (closed_of_after_literal hclosed) hnl

lemma literalsOnLine_iff (cs : Text) :
    LiteralsOnLine cs ↔ ('\n' ∈ cs → EndsOutside (cs.takeWhile (· ≠ '\n'))) := by
  by_cases hnl : '\n' ∈ cs
  · obtain ⟨a, b, rfl, ha⟩ := List.eq_append_cons_of_mem hnl
    have htake : (a ++ '\n' :: b).takeWhile (· ≠ '\n') = a := by
      rw [List.takeWhile_append_of_pos (ne_newline_of_not_mem ha)]
      simp
    rw [literalsOnLine_append_newline ha, htake, imp_iff_right hnl]
  · refine iff_of_true ?_ (fun h => absurd h hnl)
    rintro before inner rfl - - hmem
    have hinner : '\n' ∈ inner := (List.takeWhile_sublist _).subset hmem
    exact hnl (by simp [hinner])

instance (cs : Text) : Decidable (LiteralsOnLine cs) :=
  decidable_of_iff _ (literalsOnLine_iff cs).symm

/-! ### The tokens behind a line -/

lemma subset_of_mem_tokens {cs t : Text} (h : t ∈ tokens cs) : t ⊆ cs := by
  induction cs using Text.induction_on_length with
  | nil => simp at h
  | cons c cs ih =>
    cases ht : (lex (c :: cs)).token with
    | none => simp [tokens_of_none ht] at h
    | some s =>
      rw [tokens_of_some ht] at h
      rcases List.mem_cons.mp h with rfl | h
      · exact token_subset ht
      · have hlt := length_rest_lex_lt ht
        exact List.Subset.trans (ih _ (Nat.le_of_lt_succ hlt) h) (rest_lex_suffix (c :: cs)).subset

lemma newline_not_mem_tokens {a : Text} (ha : '\n' ∉ a) :
    ∀ t ∈ tokens a, decide (t ≠ newline) = true := by
  intro t ht
  rw [decide_eq_true_eq]
  rintro rfl
  exact ha (subset_of_mem_tokens ht (List.mem_singleton_self _))

/-- Behind the first newline of a text are the tokens behind its first newline token. -/
lemma tokens_tail_skipComment {cs : Text} (h : LiteralsOnLine cs) :
    tokens (skipComment cs).tail = ((tokens cs).dropWhile (· ≠ newline)).tail := by
  by_cases hnl : '\n' ∈ cs
  · obtain ⟨a, b, rfl, ha⟩ := List.eq_append_cons_of_mem hnl
    have hskip : skipComment (a ++ '\n' :: b) = '\n' :: b := by
      rw [skipComment, List.dropWhile_append_of_pos (ne_newline_of_not_mem ha)]
      rfl
    rw [hskip, tokens_append_newline b ((literalsOnLine_append_newline ha).mp h),
      List.dropWhile_append_of_pos (newline_not_mem_tokens ha)]
    rfl
  · have hskip : skipComment cs = [] :=
      List.dropWhile_eq_nil_iff.mpr (ne_newline_of_not_mem hnl)
    rw [hskip, List.dropWhile_eq_nil_iff.mpr (newline_not_mem_tokens hnl), List.tail_nil,
      List.tail_nil, tokens_nil]

/-! ### Readers behind tokens -/

/-- A reader of the text that has given so many tokens, and may have been asked at any time whether
anything is left. -/
inductive Given (text : Text) : Nat → Reader → Prop
  | start : Given text 0 (.ofText text)
  | look {k : Nat} {r : Reader} : Given text k r → Given text k r.isExhausted.2
  | next {k : Nat} {r : Reader} {t : Text} :
      Given text k r → r.next.1 = some t → Given text (k + 1) r.next.2

namespace Given

variable {text : Text} {k : Nat} {r : Reader}

lemma rest_eq (h : Given text k r) : r.rest = dropTokens k text := by
  induction h with
  | start => rfl
  | look _ ih => exact ih
  | @next k r t _ _ ih => rw [Reader.rest_next, ih, dropTokens_add k 1]; rfl

/-- The line is under way unless nothing has been given yet or a newline was given last. -/
lemma midLine_eq_false_iff (h : Given text k r) :
    r.midLine = false ↔ k = 0 ∨ (tokens text)[k - 1]? = some newline := by
  induction h with
  | start => simp [Reader.ofText]
  | look _ ih => exact ih
  | @next k r t hr ht _ =>
    have htoken : (tokens text)[k]? = some t := by
      rw [← List.head?_drop, ← tokens_dropTokens, ← hr.rest_eq, tokens_of_some ht,
        List.head?_cons]
    have hmid : r.next.2.midLine = decide (t ≠ newline) := by
      show (lex r.rest).token.any (· ≠ newline) = _
      rw [show (lex r.rest).token = some t from ht]
      rfl
    simp [hmid, htoken]

end Given

/-- A reader that has given no token yet, or a newline last, has nothing to discard.  Otherwise, if
no literal that opens on the line under way holds a newline, then discarding the rest of the line
leaves the tokens behind the next newline token, and none if there is no such token.  To discard the
rest of the line once more changes nothing. -/
theorem skipLine_agrees_with_tokens {text : Text} {k : Nat} {r : Reader} (h : Given text k r) :
    (k = 0 ∨ (tokens text)[k - 1]? = some newline → r.skipLine = r) ∧
    (¬(k = 0 ∨ (tokens text)[k - 1]? = some newline) → LiteralsOnLine r.rest →
      tokens r.skipLine.rest = (((tokens text).drop k).dropWhile (· ≠ newline)).tail) ∧
    r.skipLine.skipLine = r.skipLine := by
  refine ⟨fun hstart => ?_, fun hmid hline => ?_, ?_⟩
  · exact Reader.skipLine_of_not_midLine (h.midLine_eq_false_iff.mpr hstart)
  · have hmid : r.midLine = true := by
      rwa [← h.midLine_eq_false_iff, Bool.not_eq_false] at hmid
    rw [rest_skipLine_of_midLine hmid, tokens_tail_skipComment hline, h.rest_eq,
      tokens_dropTokens]
  · exact Reader.skipLine_of_not_midLine r.midLine_skipLine

/-- The line is under way behind a literal with a newline.  What follows are brackets, a literal and
a comment with a brace, and a newline; in between the reader is asked whether anything is left. -/
theorem line_discarded_behind_literal :
    let text := "a \x7bb\nc\x7d [d] \x7be\x7d f # \x7b g\n\nh".toList
    let r := (Reader.ofText text).next.2.isExhausted.2.next.2
    Given text 2 r ∧ LiteralsOnLine r.rest ∧ tokens r.skipLine.rest = [newline, ['h']] ∧
      r.skipLine.skipLine = r.skipLine := by
  intro text r
  have hgiven : Given text 2 r := .next (.look (.next .start (t := ['a']) (by decide)))
    (t := "b\nc".toList) (by decide)
  have hline : LiteralsOnLine r.rest := by decide
  have htokens : tokens text = ["a", "b\nc", "[", "d", "]", "e", "f", "\n", "\n", "h"].map
      String.toList := by decide +kernel
  obtain ⟨-, hskip, hagain⟩ := skipLine_agrees_with_tokens hgiven
  rw [htokens] at hskip
  exact ⟨hgiven, hline, hskip (by decide) hline, hagain⟩

end LineScript
