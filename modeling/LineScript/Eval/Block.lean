/-
# Collecting a block

A block runs from an opening bracket to the closing bracket that matches it.  Its tokens are
joined to a text again, each followed by one space, and that text is what gets evaluated.
-/

import LineScript.Eval.World

namespace LineScript

/-- What was collected of a block. -/
structure Collected where
  /-- The bracket that closes the block was found. -/
  closed : Bool
  /-- The tokens before it, each followed by a space; all of them if it was not found. -/
  code : Text
  /-- The reader behind the block. -/
  reader : Reader
  /-- The world, with the failure of the input noted if it was met. -/
  world : World

/-- The number of brackets open inside the block once a token has been collected. -/
def deeper (depth : Nat) (t : Text) : Nat :=
  if t = closeBlock then depth - 1
  else if t = openBlock then depth + 1
  else depth

/-- Collects a block in which `depth` further brackets are open. -/
def collect (depth : Nat) (r : Reader) (w : World) : Collected :=
  match h : pull r w with
  | ⟨none, r', w'⟩ => ⟨false, [], r', w'⟩
  | ⟨some t, r', w'⟩ =>
    if t = closeBlock ∧ depth = 0 then ⟨true, [], r', w'⟩
    else
      have : r'.rest.length < r.rest.length := length_lt_of_pull h
      let c := collect (deeper depth t) r' w'
      { c with code := t ++ ' ' :: c.code }
termination_by r.rest.length

theorem length_rest_collect_le (depth : Nat) (r : Reader) (w : World) :
    (collect depth r w).reader.rest.length ≤ r.rest.length := by
  fun_induction collect depth r w with
  | case1 depth r w r' w' h => exact length_le_of_pull h
  | case2 depth r w t r' w' h _ => exact length_le_of_pull h
  | case3 depth r w t r' w' h _ this c ih => exact Nat.le_trans ih (Nat.le_of_lt this)

end LineScript
