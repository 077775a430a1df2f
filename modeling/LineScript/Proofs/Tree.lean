/-
# Units as trees

The evaluator reads a unit token by token and evaluates each block from text that was joined again
from its tokens, and read again, at every level of nesting.  Here a unit is turned into a tree once,
and the tree is walked from left to right.  Where the blocks hold only brackets, newlines and words,
both give the same result (`run_unit_agrees_with_tree`).

The walk `UnitTree.eval` needs no bound on the nesting of blocks; commands are run by a parameter.
Between it and the evaluator stands `UnitTree.within`, a walk that counts the levels of nesting in
the same way as the evaluator does.
-/
import LineScript.Proofs.Blocks
import LineScript.Proofs.Depth
import LineScript.Proofs.InputFailure

namespace LineScript

/-! ### The tokens of a unit -/

/-- The tokens before the newline that ends a unit in which `depth` brackets are open; all of them
if there is no such newline. -/
def unitTokens (depth : Nat) : List Text → List Text
  | [] => []
  | t :: ts => if t = newline ∧ depth = 0 then [] else t :: unitTokens (deeper depth t) ts

/-- The tokens of the first unit of a text. -/
def firstUnit (cs : Text) : List Text :=
  unitTokens 0 (tokens cs)

/-- What is left of a text behind its first unit and the newline that ends it. -/
def behindUnit (cs : Text) : Text :=
  dropTokens ((firstUnit cs).length + 1) cs

/-- In every block that is closed, all tokens are brackets, newlines or words. -/
def BlocksPlain : List Text → Prop
  | [] => True
  | t :: ts =>
    (t = openBlock → ∀ block ∈ splitBlock 0 ts, ∀ s ∈ block.1, IsPlain s) ∧ BlocksPlain ts

instance decidableBlocksPlain : (ts : List Text) → Decidable (BlocksPlain ts)
  | [] => inferInstanceAs (Decidable True)
  | _ :: ts =>
    have := decidableBlocksPlain ts
    have : Decidable (∀ block ∈ splitBlock 0 ts, ∀ s ∈ block.1, IsPlain s) :=
      match splitBlock 0 ts with
      | none => .isTrue fun _ h => nomatch h
      | some block =>
        decidable_of_iff (∀ s ∈ block.1, IsPlain s)
          ⟨fun h _ hb => Option.some.inj hb ▸ h, fun h => h block rfl⟩
    inferInstanceAs (Decidable (_ ∧ _))

section UnitTokens

variable {depth : Nat} {ts inner after : List Text}

lemma mem_of_mem_unitTokens {t : Text} (h : t ∈ unitTokens depth ts) : t ∈ ts := by
  induction ts generalizing depth with
  | nil => exact h
  | cons s ts ih =>
    rw [unitTokens] at h
    split at h
    · exact absurd h List.not_mem_nil
    · rcases List.mem_cons.mp h with rfl | h
      · exact List.mem_cons_self
      · exact List.mem_cons_of_mem s (ih h)

lemma unitTokens_cons_of_ne {t : Text} (hnl : t ≠ newline) (hb : t ≠ openBlock)
    (ts : List Text) : unitTokens 0 (t :: ts) = t :: unitTokens 0 ts := by
  rw [unitTokens, if_neg (fun h => hnl h.1), deeper_zero hb]

lemma unitTokens_openBlock (ts : List Text) :
    unitTokens 0 (openBlock :: ts) = openBlock :: unitTokens 1 ts := by
  rw [unitTokens, if_neg (fun h => absurd h.1 (by decide))]
  rfl

lemma unitTokens_succ_cons (t : Text) (ts : List Text) :
    unitTokens (depth + 1) (t :: ts) = t :: unitTokens (deeper (depth + 1) t) ts := by
  rw [unitTokens, if_neg (fun h => absurd h.2 (Nat.succ_ne_zero _))]

/-- A newline in a block does not end the unit; the unit goes on behind the block. -/
lemma unitTokens_of_split (h : splitBlock depth ts = some (inner, after)) :
    unitTokens (depth + 1) ts = inner ++ closeBlock :: unitTokens 0 after := by
  refine splitBlock_induction (motive := fun depth ts inner =>
    unitTokens (depth + 1) ts = inner ++ closeBlock :: unitTokens 0 after) ?_ ?_ h
  · exact unitTokens_succ_cons closeBlock after
  · intro depth t ts inner ht ih
    rw [unitTokens_succ_cons, deeper_succ ht, ih]
    rfl

/-- A block without end makes everything behind it part of the unit. -/
lemma unitTokens_of_unmatched (h : splitBlock depth ts = none) :
    unitTokens (depth + 1) ts = ts := by
  induction ts generalizing depth with
  | nil => rfl
  | cons t ts ih =>
    by_cases ht : t = closeBlock ∧ depth = 0
    · obtain ⟨rfl, rfl⟩ := ht
      rw [splitBlock_closeBlock] at h
      exact nomatch h
    · rw [splitBlock_cons ht] at h
      rw [unitTokens_succ_cons, deeper_succ ht, ih (Option.map_eq_none_iff.mp h)]

lemma BlocksPlain.forall_mem (h : BlocksPlain (openBlock :: ts))
    (hs : splitBlock 0 ts = some (inner, after)) : ∀ t ∈ inner, IsPlain t :=
  h.1 rfl (inner, after) hs

lemma BlocksPlain.of_append {before : List Text} (h : BlocksPlain (before ++ ts)) :
    BlocksPlain ts := by
  induction before with
  | nil => exact h
  | cons t before ih => exact ih h.2

lemma blocksPlain_of_forall (h : ∀ t ∈ ts, IsPlain t) : BlocksPlain ts := by
  induction ts with
  | nil => trivial
  | cons t ts ih =>
    have hts : ∀ s ∈ ts, IsPlain s := fun s hs => h s (List.mem_cons_of_mem t hs)
    refine ⟨?_, ih hts⟩
    rintro - ⟨inner, after⟩ hb s hs
    have hmem : s ∈ inner ++ closeBlock :: after := List.mem_append_left _ hs
    rw [← eq_of_splitBlock hb] at hmem
    exact hts s hmem

end UnitTokens

section FirstUnit

variable {cs t : Text}

lemma firstUnit_of_none (h : (lex cs).token = none) : firstUnit cs = [] := by
  rw [firstUnit, tokens_of_none h]
  rfl

lemma firstUnit_of_newline (h : (lex cs).token = some newline) : firstUnit cs = [] := by
  rw [firstUnit, tokens_of_some h]
  rfl

lemma firstUnit_of_token (h : (lex cs).token = some t) (hnl : t ≠ newline) (hb : t ≠ openBlock) :
    firstUnit cs = t :: firstUnit (lex cs).rest := by
  rw [firstUnit, tokens_of_some h, unitTokens_cons_of_ne hnl hb]
  rfl

lemma firstUnit_of_openBlock (h : (lex cs).token = some openBlock) :
    firstUnit cs = openBlock :: unitTokens 1 (tokens (lex cs).rest) := by
  rw [firstUnit, tokens_of_some h, unitTokens_openBlock]

lemma behindUnit_of_nil (h : firstUnit cs = []) : behindUnit cs = (lex cs).rest := by
  rw [behindUnit, h]
  rfl

lemma behindUnit_of_cons {ts : List Text} (h : firstUnit cs = t :: ts) :
    behindUnit cs = dropTokens (ts.length + 1) (lex cs).rest := by
  rw [behindUnit, h]
  rfl

/-- The first unit of a text that starts with a block goes on behind the block. -/
lemma firstUnit_of_split {inner after : List Text} (h : (lex cs).token = some openBlock)
    (hs : splitBlock 0 (tokens (lex cs).rest) = some (inner, after)) {ds : Text}
    (hds : ds = dropTokens (inner.length + 1) (lex cs).rest) :
    firstUnit cs = openBlock :: (inner ++ closeBlock :: firstUnit ds) ∧
      behindUnit cs = behindUnit ds := by
  have hafter : tokens ds = after := by
    rw [hds, tokens_dropTokens, eq_of_splitBlock hs, List.append_cons]
    exact List.drop_left' (by simp)
  have hunit : firstUnit cs = openBlock :: (inner ++ closeBlock :: firstUnit ds) := by
    rw [firstUnit_of_openBlock h, unitTokens_of_split hs, firstUnit, hafter]
  refine ⟨hunit, ?_⟩
  rw [behindUnit_of_cons hunit, behindUnit, hds, ← dropTokens_add]
  congr 1
  simp only [List.length_append, List.length_cons]
  omega

end FirstUnit

/-! ### Trees -/

/-- A unit as a tree: its items from left to right. -/
inductive UnitTree where
  /-- No further item. -/
  | done
  /-- A token that stands for itself. -/
  | word (t : Text) (next : UnitTree)
  /-- The value of a variable. -/
  | value (name : Text) (next : UnitTree)
  /-- A block, which gives its value. -/
  | block (inner next : UnitTree)
  /-- A block that is never closed; `code` is all that follows. -/
  | unclosed (code : Text)
deriving DecidableEq, Repr

namespace UnitTree

/-- The item that a token other than a bracket makes up, in front of further ones. -/
def single (t : Text) (next : UnitTree) : UnitTree :=
  match t with
  | '$' :: name => value name next
  | _ => word t next

/-- The tree of a list of tokens, up to the first newline that is in no block. -/
def ofTokens (ts : List Text) : UnitTree :=
  match ts with
  | [] => done
  | t :: ts =>
    if t = [] then ofTokens ts
    else if t = newline then done
    else if t = openBlock then
      match h : splitBlock 0 ts with
      | some (inner, after) =>
        have := congrArg List.length (eq_of_splitBlock h)
        block (ofTokens inner) (ofTokens after)
      | none => unclosed (joined ts)
    else single t (ofTokens ts)
termination_by ts.length
decreasing_by all_goals simp_all <;> omega

section OfTokens

variable {t : Text} {ts inner after : List Text}

lemma ofTokens_nil : ofTokens [] = done := by
  rw [ofTokens]

lemma ofTokens_empty (ts : List Text) : ofTokens ([] :: ts) = ofTokens ts := by
  rw [ofTokens, if_pos rfl]

lemma ofTokens_newline (ts : List Text) : ofTokens (newline :: ts) = done := by
  rw [ofTokens, if_neg (by decide), if_pos rfl]

lemma ofTokens_of_split (h : splitBlock 0 ts = some (inner, after)) :
    ofTokens (openBlock :: ts) = block (ofTokens inner) (ofTokens after) := by
  rw [ofTokens, if_neg (by decide), if_neg (by decide), if_pos rfl]
  split
  · rename_i inner' after' h'
    rw [h] at h'
    obtain ⟨rfl, rfl⟩ := Prod.mk.inj (Option.some.inj h')
    rfl
  · rename_i h'
    rw [h] at h'
    exact nomatch h'

lemma ofTokens_of_unmatched (h : splitBlock 0 ts = none) :
    ofTokens (openBlock :: ts) = unclosed (joined ts) := by
  rw [ofTokens, if_neg (by decide), if_neg (by decide), if_pos rfl]
  split
  · rename_i h'
    rw [h] at h'
    exact nomatch h'
  · rfl

lemma ofTokens_value (name : Text) (ts : List Text) :
    ofTokens (('$' :: name) :: ts) = value name (ofTokens ts) := by
  rw [ofTokens, if_neg (by simp), if_neg (by simp [newline]), if_neg (by simp [openBlock])]
  rfl

lemma ofTokens_word (hne : t ≠ []) (hnl : t ≠ newline) (hb : t ≠ openBlock)
    (hv : ∀ name, t ≠ '$' :: name) (ts : List Text) :
    ofTokens (t :: ts) = word t (ofTokens ts) := by
  rw [ofTokens, if_neg hne, if_neg hnl, if_neg hb]
  unfold single
  split
  · exact absurd rfl (hv _)
  · rfl

/-- The tree ends where the unit does. -/
lemma ofTokens_unitTokens (ts : List Text) : ofTokens (unitTokens 0 ts) = ofTokens ts := by
  induction hn : ts.length using Nat.strongRecOn generalizing ts with
  | ind n ih =>
    subst hn
    cases ts with
    | nil => rfl
    | cons t ts =>
      have ih' : ofTokens (unitTokens 0 ts) = ofTokens ts := ih _ (by simp) ts rfl
      by_cases hb : t = openBlock
      · subst hb
        rw [unitTokens_openBlock]
        cases hs : splitBlock 0 ts with
        | none => rw [unitTokens_of_unmatched hs]
        | some block =>
          obtain ⟨inner, after⟩ := block
          have hlen := congrArg List.length (eq_of_splitBlock hs)
          have hafter : ofTokens (unitTokens 0 after) = ofTokens after :=
            ih _ (by simp at hlen ⊢; omega) after rfl
          rw [unitTokens_of_split hs, ofTokens_of_split (splitBlock_append hs _),
            ofTokens_of_split hs, hafter]
      by_cases hnl : t = newline
      · subst hnl
        rw [ofTokens_newline]
        exact ofTokens_nil
      rw [unitTokens_cons_of_ne hnl hb]
      by_cases hne : t = []
      · subst hne
        rw [ofTokens_empty, ofTokens_empty, ih']
      by_cases hv : ∃ name, t = '$' :: name
      · obtain ⟨name, rfl⟩ := hv
        rw [ofTokens_value, ofTokens_value, ih']
      · have hv' : ∀ name, t ≠ '$' :: name := fun name h => hv ⟨name, h⟩
        rw [ofTokens_word hne hnl hb hv', ofTokens_word hne hnl hb hv', ih']

end OfTokens

/-! ### Walking a tree -/

/-- How commands are run. -/
abbrev Calls := Text → List Text → World → Answer

/-- Runs the command that a list of arguments makes up; without arguments the value is empty. -/
def call (calls : Calls) (args : List Text) (w : World) : Answer :=
  match args with
  | [] => ⟨.ok [], w⟩
  | command :: args => calls command args w

/-- Evaluates the items from left to right behind the arguments found so far, and then runs the
command. -/
def eval (calls : Calls) : UnitTree → List Text → World → Answer
  | done, args, w => call calls args w
  | word t next, args, w => next.eval calls (args ++ [t]) w
  | value name next, args, w =>
    match w.scope.values.get? name with
    | some v => next.eval calls (args ++ [v]) w
    | none => ⟨.error (.unknownVariable name), w⟩
  | block inner next, args, w =>
    (inner.eval calls [] w).bind fun v w => next.eval calls (args ++ [v]) w
  | unclosed code, _, w => ⟨.error (.unclosedBlock code), w⟩

/-- As `eval`, with the evaluation of the blocks given. -/
def evalBy (calls : Calls) (inside : UnitTree → World → Answer) :
    UnitTree → List Text → World → Answer
  | done, args, w => call calls args w
  | word t next, args, w => next.evalBy calls inside (args ++ [t]) w
  | value name next, args, w =>
    match w.scope.values.get? name with
    | some v => next.evalBy calls inside (args ++ [v]) w
    | none => ⟨.error (.unknownVariable name), w⟩
  | block inner next, args, w =>
    (inside inner w).bind fun v w => next.evalBy calls inside (args ++ [v]) w
  | unclosed code, _, w => ⟨.error (.unclosedBlock code), w⟩

/-- The walk with so many levels of nesting allowed. -/
def within (files : Files) : Nat → UnitTree → World → Answer
  | 0, _, w => ⟨.unfinished, w⟩
  | depth + 1, tree, w => tree.evalBy (dispatch files depth) (within files depth) [] w

/-! ### Reading and walking at one level -/

/-- A run of a unit ends as the walk does, and leaves the reader behind the unit if it succeeds. -/
structure Matches (x : Run Text) (a : Answer) (behind : Text) : Prop where
  outcome_eq : x.outcome = a.outcome
  world_eq : x.world = a.world
  rest_eq : ∀ v, x.outcome = .ok v → x.reader.rest = behind

variable {files : Files} {nested : Evaluation} {inside : UnitTree → World → Answer}

lemma matches_perform (args : List Text) {r : Reader} (w : World) {behind : Text}
    (h : r.rest = behind) :
    Matches (perform nested files args r w) (call (dispatchWith files nested) args w) behind := by
  refine ⟨?_, ?_, fun _ _ => (congrArg Reader.rest (reader_perform ..)).trans h⟩
  · cases args <;> rfl
  · cases args <;> rfl

lemma bind_argument_bind_perform (x : Run Text) (args : List Text) :
    ((x.bind fun v r w => (arguments nested r w).map (v :: ·)).bind
      fun as => perform nested files (args ++ as)) =
    x.bind fun v r w => (arguments nested r w).bind
      fun as => perform nested files (args ++ [v] ++ as) := by
  simp only [Run.bind_bind, Run.map_bind, List.append_assoc, List.singleton_append]

/-- If the evaluation of joined blocks agrees with that of their trees, then so does the evaluation
of a unit, behind any arguments found before. -/
lemma matches_arguments
    (hin : ∀ ts, (∀ t ∈ ts, IsPlain t) → ∀ w,
      nested.answer .unit (.ofText (joined ts)) w = inside (ofTokens ts) w)
    (r : Reader) (hf : r.fault = none) (hp : BlocksPlain (firstUnit r.rest))
    (args : List Text) (w : World) :
    Matches ((arguments nested r w).bind fun as => perform nested files (args ++ as))
      ((ofTokens (firstUnit r.rest)).evalBy (dispatchWith files nested) inside args w)
      (behindUnit r.rest) := by
  -- the walk carries the arguments found so far, and so they are carried along here
  induction r using Reader.induction_on_rest generalizing args w with
  | step r ih =>
    have hpull := pull_of_fault_eq_none w hf
    have htok : (pull r w).token = (lex r.rest).token := token_pull r w
    by_cases hend : (lex r.rest).token = none ∨ (lex r.rest).token = some newline
    · -- the unit ends here, and the command is run
      have hunit : firstUnit r.rest = [] := hend.elim firstUnit_of_none firstUnit_of_newline
      rw [arguments_of_end _ _ _ (htok ▸ hend), hpull, hunit, behindUnit_of_nil hunit, ofTokens_nil]
      rw [Run.bind_ok, List.append_nil]
      exact matches_perform args w rfl
    obtain ⟨t, ht⟩ : ∃ t, (lex r.rest).token = some t :=
      Option.ne_none_iff_exists'.mp fun h => hend (.inl h)
    have hnl : t ≠ newline := fun h => hend (.inr (h ▸ ht))
    have hlt : r.next.2.rest.length < r.rest.length := length_rest_lex_lt ht
    by_cases hb : t = openBlock
    · subst hb
      rw [arguments_of_token _ _ _ (htok.trans ht) (by decide) hnl, hpull, argument_openBlock,
        bind_argument_bind_perform]
      have hunit := firstUnit_of_openBlock ht
      obtain ⟨hworld, hfault⟩ := collect_of_fault_eq_none w 0 (show r.next.2.fault = none from hf)
      cases hs : splitBlock 0 (tokens (lex r.rest).rest) with
      | none =>
        obtain ⟨hclosed, hcode, -⟩ := collect_of_unmatched w (r := r.next.2) hs
        rw [evalBlock_of_unclosed _ _ _ hclosed, hcode, hworld, hunit, unitTokens_of_unmatched hs,
          ofTokens_of_unmatched hs]
        exact ⟨rfl, rfl, fun _ h => nomatch h⟩
      | some split =>
        obtain ⟨inner, after⟩ := split
        obtain ⟨hclosed, hcode, hrest⟩ := collect_of_split w (r := r.next.2) hs
        obtain ⟨hunit, hbehind⟩ := firstUnit_of_split ht hs hrest
        have hle : (collect 0 r.next.2 w).reader.rest.length ≤ r.next.2.rest.length :=
          length_rest_collect_le 0 r.next.2 w
        rw [hunit] at hp
        have hplain := hp.forall_mem (splitBlock_append hs _)
        have hp' := (BlocksPlain.of_append hp.2).2
        rw [evalBlock_of_closed _ _ _ hclosed, hcode, hworld, hin inner hplain, hunit, hbehind,
          ofTokens_of_split (splitBlock_append hs _), evalBy]
        -- the block is the same on both sides; the rest of the unit starts where it has ended
        rcases inside (ofTokens inner) w with ⟨value | e | -, w'⟩
        · exact ih _ (Nat.lt_of_le_of_lt hle hlt) hfault hp' (args ++ [value]) w'
        · exact ⟨rfl, rfl, fun _ h => nomatch h⟩
        · exact ⟨rfl, rfl, fun _ h => nomatch h⟩
    have hunit := firstUnit_of_token ht hnl hb
    have hbehind : behindUnit r.rest = behindUnit r.next.2.rest := behindUnit_of_cons hunit
    have hp' : BlocksPlain (firstUnit r.next.2.rest) := by
      rw [hunit] at hp
      exact hp.2
    rw [hunit, hbehind]
    by_cases hne : t = []
    · subst hne
      rw [ofTokens_empty, arguments_of_empty _ _ _ (htok.trans ht), hpull]
      exact ih _ hlt hf hp' args w
    rw [arguments_of_token _ _ _ (htok.trans ht) hne hnl, hpull, bind_argument_bind_perform]
    by_cases hv : ∃ name, t = '$' :: name
    · obtain ⟨name, rfl⟩ := hv
      rw [argument_variable, ofTokens_value, evalBy]
      cases w.scope.values.get? name with
      | none => exact ⟨rfl, rfl, fun _ h => nomatch h⟩
      | some v => exact ih _ hlt hf hp' (args ++ [v]) w
    · have hv' : ∀ name, t ≠ '$' :: name := fun name h => hv ⟨name, h⟩
      rw [argument_word _ _ _ hv' hb, ofTokens_word hne hnl hb hv']
      exact ih _ hlt hf hp' (args ++ [t]) w

/-- The evaluator is the walk that counts levels as it does. -/
lemma matches_run (files : Files) (depth : Nat) (r : Reader) (hf : r.fault = none)
    (hp : BlocksPlain (firstUnit r.rest)) (w : World) :
    Matches (run files depth .unit r w)
      (within files depth (ofTokens (firstUnit r.rest)) w) (behindUnit r.rest) := by
  induction depth generalizing r w with
  | zero => exact ⟨rfl, rfl, fun _ h => nomatch h⟩
  | succ depth ih =>
    -- joined tokens are read back as they were, so the level below evaluates the tree of the block
    have hin : ∀ ts, (∀ t ∈ ts, IsPlain t) → ∀ w,
        (run files depth).answer .unit (.ofText (joined ts)) w
          = within files depth (ofTokens ts) w := by
      intro ts hts w
      have hunit : firstUnit (joined ts) = unitTokens 0 ts := by
        rw [firstUnit, tokens_joined hts]
      have hplain : BlocksPlain (firstUnit (joined ts)) := by
        rw [hunit]
        exact blocksPlain_of_forall fun t ht => hts t (mem_of_mem_unitTokens ht)
      have h := ih (.ofText (joined ts)) rfl hplain w
      rw [Reader.rest_ofText, hunit, ofTokens_unitTokens] at h
      exact (Answer.mk.injEq ..).mpr ⟨h.outcome_eq, h.world_eq⟩
    change Matches (evalUnit files (run files depth) r w) _ _
    rw [evalUnit_eq]
    exact matches_arguments hin r hf hp [] w

/-! ### Levels of nesting in a tree -/

/-- How deeply blocks are nested in a tree. -/
def height : UnitTree → Nat
  | done => 0
  | word _ next => next.height
  | value _ next => next.height
  | block inner next => max (inner.height + 1) next.height
  | unclosed _ => 0

lemma call_of_le (files : Files) {depth depth' : Nat} (hle : depth ≤ depth') {args : List Text}
    {w : World} (h : (call (dispatch files depth) args w).outcome ≠ .unfinished) :
    call (dispatch files depth') args w = call (dispatch files depth) args w := by
  cases args with
  | nil => rfl
  | cons command args => exact dispatch_of_le files hle h

/-- A walk that ends within its levels is the walk without levels. -/
lemma eval_of_within (files : Files) {depth depth' : Nat} (hle : depth ≤ depth') {tree : UnitTree}
    {w : World} (h : (within files depth tree w).outcome ≠ .unfinished) :
    tree.eval (dispatch files depth') [] w = within files depth tree w := by
  induction depth generalizing tree w with
  | zero => exact absurd rfl h
  | succ depth ih =>
    have hlt : depth ≤ depth' := Nat.le_of_succ_le hle
    -- inside a level the induction is on the tree, for all arguments found before
    suffices hby : ∀ args w,
        (tree.evalBy (dispatch files depth) (within files depth) args w).outcome ≠ .unfinished →
          tree.eval (dispatch files depth') args w
          = tree.evalBy (dispatch files depth) (within files depth) args w from hby [] w h
    clear h
    induction tree with
    | done => exact fun args w h => call_of_le files hlt h
    | word t next ih_next => exact fun args w h => ih_next _ w h
    | value name next ih_next =>
      intro args w h
      rw [eval]
      rw [evalBy] at h ⊢
      cases hv : w.scope.values.get? name with
      | none => rfl
      | some v => rw [hv] at h; exact ih_next _ w h
    | block inner next ih_inner ih_next =>
      intro args w h
      rw [eval]
      rw [evalBy] at h ⊢
      rw [ih hlt (Answer.ended_of_bind h)]
      exact Answer.bind_congr_of_ended h fun v w' => ih_next _ w'
    | unclosed code => exact fun args w h => rfl

/-- A walk without levels that ends does so within enough of them. -/
lemma within_of_eval (files : Files) {depth : Nat} {tree : UnitTree} {args : List Text} {w : World}
    (h : (tree.eval (dispatch files depth) args w).outcome ≠ .unfinished) {depth' : Nat}
    (hle : depth + tree.height ≤ depth') :
    tree.evalBy (dispatch files depth') (within files depth') args w
      = tree.eval (dispatch files depth) args w := by
  induction tree generalizing args w depth' with
  | done => exact call_of_le files hle h
  | word t next ih => exact ih h hle
  | value name next ih =>
    rw [evalBy]
    rw [eval] at h ⊢
    cases hv : w.scope.values.get? name with
    | none => rfl
    | some v => rw [hv] at h; exact ih h hle
  | block inner next ih_inner ih_next =>
    rw [height] at hle
    have hnext : depth + next.height ≤ depth' := by omega
    obtain ⟨k, rfl⟩ : ∃ k, depth' = k + 1 := ⟨depth' - 1, by omega⟩
    rw [evalBy]
    rw [eval] at h ⊢
    rw [within, ih_inner (Answer.ended_of_bind h) (show depth + inner.height ≤ k by omega)]
    exact Answer.bind_congr_of_ended h fun v w' h' => ih_next h' hnext
  | unclosed code => rfl

end UnitTree

/-! ### The evaluator agrees with the walk -/

/-- The tree of the first unit of a text. -/
def unitTree (cs : Text) : UnitTree :=
  .ofTokens (firstUnit cs)

/-- A run of a unit from a reader comes to the same as the walk over its tree: the same value or
error, the same names, the same script output and notes, and on success the reader is left behind
the unit.  Only the note on a failure of the reader's own input is not made by the walk. -/
structure Agrees (r : Reader) (x : Run Text) (a : Answer) : Prop where
  outcome_eq : x.outcome = a.outcome
  scope_eq : x.world.scope = a.world.scope
  console_eq : x.world.console.quiet = a.world.console.quiet
  world_eq : r.fault = none → x.world = a.world
  rest_eq : ∀ v, x.outcome = .ok v → x.reader.rest = behindUnit r.rest

lemma agrees_within (files : Files) (depth : Nat) (r : Reader) (w : World)
    (hp : BlocksPlain (firstUnit r.rest)) :
    Agrees r (run files depth .unit r w) ((unitTree r.rest).within files depth w) := by
  -- a reader whose input fails is compared with one on the same characters that does not fail
  have h := UnitTree.matches_run files depth (.ofText r.rest) rfl hp w
  obtain ⟨ho, hr, hw⟩ :=
    run_congr_quiet files depth .unit r (.ofText r.rest) rfl (rfl : w.quiet = w.quiet)
  rw [h.world_eq] at hw
  refine ⟨ho.trans h.outcome_eq, World.scope_eq_of_quiet_eq hw, congrArg World.console hw, ?_, ?_⟩
  · intro hf
    exact (UnitTree.matches_run files depth r hf hp w).world_eq
  · intro v hv
    exact hr.trans (h.rest_eq v (ho ▸ hv))

/-- The evaluator agrees with the walk over the tree of a unit, provided that in closed blocks there
are only brackets, newlines and words.  If the evaluator ends, then so does the walk, in the same
way; and if the walk ends, then so does the evaluator, as soon as it is allowed the levels that the
blocks take besides those that the commands take. -/
theorem run_unit_agrees_with_tree (files : Files) (r : Reader) (w : World)
    (hp : BlocksPlain (firstUnit r.rest)) :
    (∀ depth, (run files depth .unit r w).outcome ≠ .unfinished →
      Agrees r (run files depth .unit r w)
        ((unitTree r.rest).eval (dispatch files depth) [] w)) ∧
    (∀ depth, ((unitTree r.rest).eval (dispatch files depth) [] w).outcome ≠ .unfinished →
      ∀ depth', depth + (unitTree r.rest).height < depth' →
        Agrees r (run files depth' .unit r w)
          ((unitTree r.rest).eval (dispatch files depth) [] w)) := by
  constructor
  · intro depth h
    have ha := agrees_within files depth r w hp
    rw [ha.outcome_eq] at h
    rwa [UnitTree.eval_of_within files (Nat.le_refl depth) h]
  · intro depth h depth' hlt
    obtain ⟨k, rfl⟩ : ∃ k, depth' = k + 1 := ⟨depth' - 1, by omega⟩
    have ha := agrees_within files (k + 1) r w hp
    rwa [UnitTree.within, UnitTree.within_of_eval files h (Nat.le_of_lt_succ hlt)] at ha

/-- A unit with nested blocks, a line end in a block, an empty literal and a second unit. -/
theorem nested_blocks_agree_with_tree :
    let r := Reader.ofText "set x [+ 1 [* 2 3]\nputs y] {}\nputs $x".toList
    let w : World := ⟨.initial none, {}⟩
    let x := run (fun _ => .error .notFound) 3 .unit r w
    BlocksPlain (firstUnit r.rest) ∧ x.outcome = .ok "7".toList ∧
      Agrees r x ((unitTree r.rest).eval (dispatch (fun _ => .error .notFound) 3) [] w) := by
  refine ⟨by decide +kernel, by decide +kernel, ?_⟩
  exact (run_unit_agrees_with_tree _ _ _ (by decide +kernel)).1 3 (by decide +kernel)

end LineScript
