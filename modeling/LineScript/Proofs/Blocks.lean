/-
# Matching brackets

`splitBlock` finds the bracket that closes a block in a list of tokens.  Collecting a block from a
reader does the same on the tokens that the reader would give, joins those before the bracket, and
leaves the reader right behind it (`collect_of_split`, `collect_of_unmatched`).
-/
import LineScript.Proofs.Steps
import LineScript.Proofs.Lexing

namespace LineScript

/-- The tokens before and behind the bracket that closes a block in which `depth` further brackets
are open; `none` if there is no such bracket. -/
def splitBlock (depth : Nat) : List Text → Option (List Text × List Text)
  | [] => none
  | t :: ts =>
    if t = closeBlock ∧ depth = 0 then some ([], ts)
    else (splitBlock (deeper depth t) ts).map fun (inner, after) => (t :: inner, after)

/-- What is left of a text when so many tokens have been taken off it. -/
def dropTokens : Nat → Text → Text
  | 0, cs => cs
  | n + 1, cs => dropTokens n (lex cs).rest

lemma dropTokens_add (m n : Nat) (cs : Text) :
    dropTokens (m + n) cs = dropTokens n (dropTokens m cs) := by
  induction m generalizing cs with
  | zero => rw [Nat.zero_add]; rfl
  | succ m ih =>
    rw [Nat.succ_add]
    exact ih (lex cs).rest

lemma dropTokens_suffix (n : Nat) (cs : Text) : dropTokens n cs <:+ cs := by
  induction n generalizing cs with
  | zero => exact List.suffix_rfl
  | succ n ih => exact (ih (lex cs).rest).trans (rest_lex_suffix cs)

lemma endsOutside_dropTokens {cs : Text} (h : EndsOutside cs) (n : Nat) :
    EndsOutside (dropTokens n cs) := by
  induction n generalizing cs with
  | zero => exact h
  | succ n ih => exact ih (endsOutside_rest_lex h)

lemma tokens_dropTokens (n : Nat) (cs : Text) : tokens (dropTokens n cs) = (tokens cs).drop n := by
  induction n generalizing cs with
  | zero => rfl
  | succ n ih =>
    rw [dropTokens, ih]
    cases ht : (lex cs).token with
    | none => rw [tokens_of_none ht, rest_lex_of_token_eq_none ht, tokens_nil, List.drop_nil,
        List.drop_nil]
    | some t => rw [tokens_of_some ht, List.drop_succ_cons]

section Split

variable {depth : Nat} {ts inner after : List Text}

lemma deeper_zero {t : Text} (h : t ≠ openBlock) : deeper 0 t = 0 := by
  simp [deeper, h]

lemma deeper_succ {t : Text} (h : ¬ (t = closeBlock ∧ depth = 0)) :
    deeper (depth + 1) t = deeper depth t + 1 := by
  unfold deeper
  split
  · have : depth ≠ 0 := fun hd => h ⟨‹_›, hd⟩
    omega
  split <;> rfl

lemma splitBlock_closeBlock (ts : List Text) : splitBlock 0 (closeBlock :: ts) = some ([], ts) := by
  simp [splitBlock]

lemma splitBlock_cons {t : Text} (h : ¬ (t = closeBlock ∧ depth = 0)) (ts : List Text) :
    splitBlock depth (t :: ts) =
      (splitBlock (deeper depth t) ts).map fun (inner, after) => (t :: inner, after) := by
  rw [splitBlock, if_neg h]

/-- Induction along the tokens of a closed block. -/
theorem splitBlock_induction {motive : Nat → List Text → List Text → Prop}
    (close : motive 0 (closeBlock :: after) [])
    (cons : ∀ {depth t ts inner}, ¬ (t = closeBlock ∧ depth = 0) →
      motive (deeper depth t) ts inner → motive depth (t :: ts) (t :: inner))
    (h : splitBlock depth ts = some (inner, after)) : motive depth ts inner := by
  induction ts generalizing depth inner with
  | nil => exact nomatch h
  | cons t ts ih =>
    by_cases ht : t = closeBlock ∧ depth = 0
    · obtain ⟨rfl, rfl⟩ := ht
      rw [splitBlock_closeBlock] at h
      obtain ⟨rfl, rfl⟩ := Prod.mk.inj (Option.some.inj h)
      exact close
    · rw [splitBlock_cons ht] at h
      obtain ⟨⟨inner', after'⟩, hs, heq⟩ := Option.map_eq_some_iff.mp h
      obtain ⟨rfl, rfl⟩ := Prod.mk.inj heq
      exact cons ht (ih hs)

/-- The three parts of a list of tokens that holds the end of the block. -/
lemma eq_of_splitBlock (h : splitBlock depth ts = some (inner, after)) :
    ts = inner ++ closeBlock :: after := by
  refine splitBlock_induction (motive := fun _ ts inner => ts = inner ++ closeBlock :: after)
    rfl ?_ h
  intro depth t ts inner _ ih
  rw [ih]
  rfl

/-- Where a block ends does not depend on what follows it. -/
lemma splitBlock_append (h : splitBlock depth ts = some (inner, after)) (after' : List Text) :
    splitBlock depth (inner ++ closeBlock :: after') = some (inner, after') := by
  refine splitBlock_induction (motive := fun depth _ inner =>
    splitBlock depth (inner ++ closeBlock :: after') = some (inner, after'))
    (splitBlock_closeBlock after') ?_ h
  intro depth t ts inner ht ih
  rw [List.cons_append, splitBlock_cons ht, ih]
  rfl

/-- Behind a closed block as many brackets are open as before it. -/
lemma foldl_deeper_of_split (h : splitBlock depth ts = some (inner, after)) :
    ts.foldl deeper (depth + 1) = after.foldl deeper 0 := by
  refine splitBlock_induction (motive := fun depth ts _ =>
    ts.foldl deeper (depth + 1) = after.foldl deeper 0) rfl ?_ h
  intro depth t ts inner ht ih
  rw [List.foldl_cons, deeper_succ ht, ih]

/-- If every bracket is closed at the end, then so is a block that is open. -/
lemma exists_split_of_foldl (h : ts.foldl deeper (depth + 1) = 0) :
    ∃ inner after, splitBlock depth ts = some (inner, after) := by
  induction ts generalizing depth with
  | nil => exact absurd h (Nat.succ_ne_zero _)
  | cons t ts ih =>
    by_cases ht : t = closeBlock ∧ depth = 0
    · obtain ⟨rfl, rfl⟩ := ht
      exact ⟨[], ts, splitBlock_closeBlock ts⟩
    · rw [List.foldl_cons, deeper_succ ht] at h
      obtain ⟨inner, after, hs⟩ := ih h
      exact ⟨t :: inner, after, by rw [splitBlock_cons ht, hs]; rfl⟩

end Split

/-! ### Collecting -/

section Collect

variable {depth : Nat} {r : Reader} (w : World)

/-- If the block has an end, the tokens before it are joined and the reader is left behind it. -/
lemma collect_of_split {inner after : List Text}
    (h : splitBlock depth (tokens r.rest) = some (inner, after)) :
    (collect depth r w).closed = true ∧ (collect depth r w).code = joined inner ∧
      (collect depth r w).reader.rest = dropTokens (inner.length + 1) r.rest := by
  induction r using Reader.induction_on_rest generalizing depth inner w with
  | step r ih =>
    rw [collect_eq, token_pull]
    cases ht : (lex r.rest).token with
    | none =>
      rw [tokens_of_none ht] at h
      exact nomatch h
    | some t =>
      rw [tokens_of_some ht] at h
      dsimp only
      by_cases hc : t = closeBlock ∧ depth = 0
      · obtain ⟨rfl, rfl⟩ := hc
        rw [splitBlock_closeBlock] at h
        obtain ⟨rfl, rfl⟩ := Prod.mk.inj (Option.some.inj h)
        simp only [and_self, if_true, true_and, joined_nil, rest_pull]
        rfl
      · rw [splitBlock_cons hc, ← rest_pull r w] at h
        obtain ⟨⟨inner', after'⟩, hs, heq⟩ := Option.map_eq_some_iff.mp h
        obtain ⟨rfl, rfl⟩ := Prod.mk.inj heq
        obtain ⟨hclosed, hcode, hrest⟩ := ih _ (length_rest_pull_lt ht) (pull r w).world hs
        rw [if_neg hc]
        refine ⟨hclosed, ?_, ?_⟩
        · rw [joined_cons, ← hcode]
        · rw [rest_pull] at hrest
          exact hrest

/-- If the block has no end, all tokens are joined and the reader is used up. -/
lemma collect_of_unmatched (h : splitBlock depth (tokens r.rest) = none) :
    (collect depth r w).closed = false ∧ (collect depth r w).code = joined (tokens r.rest) ∧
      (collect depth r w).reader.rest = [] := by
  induction r using Reader.induction_on_rest generalizing depth w with
  | step r ih =>
    rw [collect_eq, token_pull]
    cases ht : (lex r.rest).token with
    | none =>
      refine ⟨rfl, ?_, ?_⟩
      · rw [tokens_of_none ht]
        rfl
      · exact (rest_pull r w).trans (rest_lex_of_token_eq_none ht)
    | some t =>
      rw [tokens_of_some ht] at h ⊢
      dsimp only
      by_cases hc : t = closeBlock ∧ depth = 0
      · obtain ⟨rfl, rfl⟩ := hc
        rw [splitBlock_closeBlock] at h
        exact nomatch h
      · rw [splitBlock_cons hc, ← rest_pull r w] at h
        obtain ⟨hclosed, hcode, hrest⟩ :=
          ih _ (length_rest_pull_lt ht) (pull r w).world (Option.map_eq_none_iff.mp h)
        rw [if_neg hc]
        refine ⟨hclosed, ?_, hrest⟩
        rw [joined_cons, ← rest_pull r w, ← hcode]

/-- Behind a closed block, part of a line is under way. -/
lemma midLine_collect (h : (collect depth r w).closed = true) :
    (collect depth r w).reader.midLine = true := by
  induction r using Reader.induction_on_rest generalizing depth w with
  | step r ih =>
    rw [collect_eq] at h ⊢
    cases ht : (pull r w).token with
    | none =>
      rw [ht] at h
      exact nomatch h
    | some t =>
      rw [ht] at h
      dsimp only at h ⊢
      by_cases hc : t = closeBlock ∧ depth = 0
      · rw [if_pos hc]
        obtain ⟨rfl, -⟩ := hc
        rw [token_pull] at ht
        rw [midLine_pull, ht]
        decide
      · rw [if_neg hc] at h ⊢
        exact ih _ (length_rest_pull_lt ht) (pull r w).world h

/-- A reader whose input does not fail leaves the world alone. -/
lemma collect_of_fault_eq_none (depth : Nat) (h : r.fault = none) :
    (collect depth r w).world = w ∧ (collect depth r w).reader.fault = none := by
  induction r using Reader.induction_on_rest generalizing depth with
  | step r ih =>
    have hp := pull_of_fault_eq_none w h
    have hfault : (pull r w).reader.fault = none := by rw [hp]; exact h
    have hworld : (pull r w).world = w := by rw [hp]
    rw [collect_eq]
    split
    · exact ⟨hworld, hfault⟩
    · rename_i t ht
      split
      · exact ⟨hworld, hfault⟩
      · rw [hworld]
        exact ih _ (length_rest_pull_lt ht) (deeper depth t) hfault

end Collect
end LineScript
