/-
# The bracket that closes a block

`splitBlock` walks through a list of tokens with a counter of the brackets that are open.  This file
says where it stops without the counter: a closing bracket matches if there are as many opening as
closing brackets before it (`Closes`), and a block ends at the first bracket that matches
(`splitBlock_of_closes`, `splitBlock_eq_none`).  Up to there the counter is the difference of the
two numbers, so that nothing is ever taken off a counter that is zero (`foldl_deeper_add_count`).

`collect_finds_matching_bracket` puts this together with what `collect` does on a reader.
-/
import LineScript.Proofs.Scanner
import Mathlib.Data.Nat.Find

namespace LineScript

/-- The token at place `i` is a closing bracket that matches, if `depth` brackets are open in front
of the first token: with these, as many brackets have been opened before it as closed. -/
def Closes (depth : Nat) (ts : List Text) (i : Nat) : Prop :=
  ts[i]? = some closeBlock ∧
    depth + (ts.take i).count openBlock = (ts.take i).count closeBlock

instance (depth : Nat) (ts : List Text) (i : Nat) : Decidable (Closes depth ts i) :=
  inferInstanceAs (Decidable (_ ∧ _))

section Closes

variable {depth i : Nat} {t : Text} {ts : List Text}

lemma not_closes_nil : ¬Closes depth [] i := by
  rintro ⟨h, -⟩
  simp at h

lemma closes_cons_zero : Closes depth (t :: ts) 0 ↔ t = closeBlock ∧ depth = 0 := by
  simp [Closes]

/-- A token moves the counter by the bracket that it is. -/
lemma deeper_add_count (ht : ¬(t = closeBlock ∧ depth = 0)) (ts : List Text) :
    deeper depth t + (t :: ts).count closeBlock + ts.count openBlock =
      depth + (t :: ts).count openBlock + ts.count closeBlock := by
  by_cases hc : t = closeBlock
  · have hd : depth ≠ 0 := fun hd => ht ⟨hc, hd⟩
    have hne : closeBlock ≠ openBlock := by decide
    subst hc
    rw [deeper, if_pos rfl, List.count_cons_self, List.count_cons_of_ne hne]
    omega
  by_cases ho : t = openBlock
  · subst ho
    rw [deeper, if_neg hc, if_pos rfl, List.count_cons_self, List.count_cons_of_ne hc]
    omega
  · rw [deeper, if_neg hc, if_neg ho, List.count_cons_of_ne hc, List.count_cons_of_ne ho]
    omega

lemma closes_cons_succ (ht : ¬(t = closeBlock ∧ depth = 0)) :
    Closes depth (t :: ts) (i + 1) ↔ Closes (deeper depth t) ts i := by
  have hcount := deeper_add_count ht (ts.take i)
  rw [Closes, Closes, List.getElem?_cons_succ, List.take_succ_cons]
  refine and_congr_right fun _ => ?_
  omega

/-- The block ends at the first bracket that matches. -/
lemma splitBlock_of_closes (h : Closes depth ts i) (hfirst : ∀ j < i, ¬Closes depth ts j) :
    splitBlock depth ts = some (ts.take i, ts.drop (i + 1)) := by
  induction ts generalizing depth i with
  | nil => exact absurd h not_closes_nil
  | cons t ts ih =>
    cases i with
    | zero =>
      obtain ⟨rfl, rfl⟩ := closes_cons_zero.mp h
      exact splitBlock_closeBlock ts
    | succ i =>
      have ht : ¬(t = closeBlock ∧ depth = 0) := by
        intro ht
        exact hfirst 0 (Nat.succ_pos i) (closes_cons_zero.mpr ht)
      have hrest : ∀ j < i, ¬Closes (deeper depth t) ts j := by
        intro j hj hclose
        exact hfirst (j + 1) (Nat.succ_lt_succ hj) ((closes_cons_succ ht).mpr hclose)
      rw [splitBlock_cons ht, ih ((closes_cons_succ ht).mp h) hrest]
      rfl

/-- If no bracket matches, the block has no end. -/
lemma splitBlock_eq_none (h : ∀ i, ¬Closes depth ts i) : splitBlock depth ts = none := by
  induction ts generalizing depth with
  | nil => rfl
  | cons t ts ih =>
    have ht : ¬(t = closeBlock ∧ depth = 0) := fun ht => h 0 (closes_cons_zero.mpr ht)
    have hrest : ∀ i, ¬Closes (deeper depth t) ts i := by
      intro i hclose
      exact h (i + 1) ((closes_cons_succ ht).mpr hclose)
    rw [splitBlock_cons ht, ih hrest]
    rfl

/-- As long as no bracket has matched, the counter is what has been opened less what has been
closed. -/
lemma foldl_deeper_add_count {n : Nat} (h : ∀ i < n, ¬Closes depth ts i) :
    (ts.take n).foldl deeper depth + (ts.take n).count closeBlock =
      depth + (ts.take n).count openBlock := by
  induction ts generalizing depth n with
  | nil => simp
  | cons t ts ih =>
    cases n with
    | zero => simp
    | succ n =>
      have ht : ¬(t = closeBlock ∧ depth = 0) := by
        intro ht
        exact h 0 (Nat.succ_pos n) (closes_cons_zero.mpr ht)
      have hrest : ∀ i < n, ¬Closes (deeper depth t) ts i := by
        intro i hi hclose
        exact h (i + 1) (Nat.succ_lt_succ hi) ((closes_cons_succ ht).mpr hclose)
      have hcount := deeper_add_count ht (ts.take n)
      have hfold := ih hrest
      rw [List.take_succ_cons, List.foldl_cons]
      omega

end Closes

/-- A block of a reader is closed if and only if some closing bracket has as many opening as closing
brackets before it.  If so, then at the first such bracket: what is collected is the tokens before
it, each followed by a space, and the reader is where it would be after it has been asked for these
tokens and the bracket, so that the tokens behind the bracket remain.  Otherwise all tokens are
collected, the reader is used up, and the block fails with an error that holds what was collected.
Up to the bracket the counter with what has been closed is what has been opened, so it never falls
below zero.  If the tokens collected are brackets, newlines and words, they are read back from the
text they are joined to. -/
theorem collect_finds_matching_bracket (r : Reader) (w : World) :
    let ts := tokens r.rest
    let c := collect 0 r w
    (c.closed = true ↔ ∃ i, Closes 0 ts i) ∧
    (∀ i, Closes 0 ts i → (∀ j < i, ¬Closes 0 ts j) →
      c.code = joined (ts.take i) ∧
      c.reader.rest = (r.behind (i + 1)).rest ∧
      tokens c.reader.rest = ts.drop (i + 1) ∧
      ((∀ t ∈ ts.take i, IsPlain t) → tokens c.code = ts.take i)) ∧
    ((∀ i, ¬Closes 0 ts i) →
      c.code = joined ts ∧ c.reader.rest = [] ∧
      (∀ nested, (evalBlock nested r w).outcome = .error (.unclosedBlock (joined ts))) ∧
      ((∀ t ∈ ts, IsPlain t) → tokens c.code = ts)) ∧
    ∀ n, (∀ i < n, ¬Closes 0 ts i) →
      (ts.take n).foldl deeper 0 + (ts.take n).count closeBlock = (ts.take n).count openBlock := by
  intro ts c
  have hfound : ∀ i, Closes 0 ts i → (∀ j < i, ¬Closes 0 ts j) → c.closed = true ∧
      c.code = joined (ts.take i) ∧ c.reader.rest = dropTokens (i + 1) r.rest := by
    intro i hi hfirst
    obtain ⟨hlt, -⟩ := List.getElem?_eq_some_iff.mp hi.1
    obtain ⟨hclosed, hcode, hrest⟩ := collect_of_split w (splitBlock_of_closes hi hfirst)
    rw [List.length_take_of_le (Nat.le_of_lt hlt)] at hrest
    exact ⟨hclosed, hcode, hrest⟩
  refine ⟨⟨fun hclosed => ?_, ?_⟩, ?_, ?_, ?_⟩
  · by_contra hnone
    obtain ⟨hopen, -⟩ := collect_of_unmatched w (splitBlock_eq_none (not_exists.mp hnone))
    exact Bool.false_ne_true (hopen.symm.trans hclosed)
  · intro hex
    have hfirst : ∀ j < Nat.find hex, ¬Closes 0 ts j := fun j hj => Nat.find_min hex hj
    exact (hfound _ (Nat.find_spec hex) hfirst).1
  · intro i hi hfirst
    obtain ⟨-, hcode, hrest⟩ := hfound i hi hfirst
    refine ⟨hcode, ?_, ?_, fun hplain => ?_⟩
    · rw [hrest, Reader.rest_behind]
    · rw [hrest, tokens_dropTokens]
    · rw [hcode, tokens_joined hplain]
  · intro hnone
    obtain ⟨hopen, hcode, hrest⟩ := collect_of_unmatched w (splitBlock_eq_none hnone)
    refine ⟨hcode, hrest, fun nested => ?_, fun hplain => ?_⟩
    · rw [evalBlock_of_unclosed r w nested hopen, hcode]
    · rw [hcode, tokens_joined hplain]
  · intro n hn
    rw [foldl_deeper_add_count hn, Nat.zero_add]

/-- A block that has another one and a newline inside and a bracket in its comment, and a block
whose only closing bracket belongs to the one inside. -/
theorem blocks_with_and_without_end :
    let w : World := ⟨.initial none, {}⟩
    let r : Reader := .ofText "+ 1 [* 2\n 3]# ]\n] [4".toList
    let inner := ["+", "1", "[", "*", "2", "\n", "3", "]", "\n"].map String.toList
    let r' : Reader := .ofText "a [b]".toList
    (Closes 0 (tokens r.rest) 9 ∧ (∀ j < 9, ¬Closes 0 (tokens r.rest) j) ∧
      (collect 0 r w).code = joined inner ∧ tokens (collect 0 r w).code = inner ∧
      tokens (collect 0 r w).reader.rest = [openBlock, ['4']]) ∧
    (∀ i, ¬Closes 0 (tokens r'.rest) i) ∧ (collect 0 r' w).code = "a [ b ] ".toList := by
  intro w r inner r'
  obtain ⟨-, hfound, -⟩ := collect_finds_matching_bracket r w
  obtain ⟨hiff, -, hmissing, -⟩ := collect_finds_matching_bracket r' w
  have htokens : tokens r.rest = inner ++ [closeBlock, openBlock, ['4']] := by decide +kernel
  have hcloses : Closes 0 (tokens r.rest) 9 := by
    rw [htokens]
    decide
  have hfirst : ∀ j < 9, ¬Closes 0 (tokens r.rest) j := by
    rw [htokens]
    decide
  have hnone : ∀ i, ¬Closes 0 (tokens r'.rest) i := by
    intro i hi
    exact absurd (hiff.mpr ⟨i, hi⟩) (by decide +kernel)
  obtain ⟨hcode, -, hbehind, hplain⟩ := hfound 9 hcloses hfirst
  rw [htokens] at hcode hbehind hplain
  refine ⟨⟨hcloses, hfirst, hcode, hplain (by decide), hbehind⟩, hnone, ?_⟩
  rw [(hmissing hnone).1]
  decide +kernel

end LineScript
