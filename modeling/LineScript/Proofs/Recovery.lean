/-
# Where the interactive loop goes on after an error

After a failed unit the rest of the line under way is discarded, so that the next unit should start
at a line.  It does so with one exception.  Tokens carry no kind, and so the literal that holds a
newline and nothing else ends a unit like a newline does.  If the command of such a unit fails, no
line is under way and nothing is discarded: the loop goes on right behind the literal, in the middle
of a line.  `recovery_at_line_start_iff` says that this is the only case.
-/
import LineScript.Proofs.Blocks
import LineScript.Repl

namespace LineScript

/-! ### Places in a text -/

/-- The literal that holds a newline and nothing else. -/
def newlineLiteral : Text := ['{', '\n', '}']

/-- A rest of the text is the start of a line: it is empty, or right behind a newline. -/
def LineStart (text rest : Text) : Prop :=
  ∃ before, text = before ++ rest ∧ (rest = [] ∨ newline <:+ before)

/-- A rest of the text that is not empty is right behind the literal that holds a newline. -/
def BehindNewlineLiteral (text rest : Text) : Prop :=
  ∃ before, text = before ++ rest ∧ rest ≠ [] ∧ newlineLiteral <:+ before

section Places

variable {a text rest : Text}

lemma lineStart_nil (text : Text) : LineStart text [] :=
  ⟨text, (List.append_nil text).symm, .inl rfl⟩

lemma LineStart.of_suffix (h : LineStart a rest) (hs : a <:+ text) : LineStart text rest := by
  obtain ⟨front, rfl⟩ := hs
  obtain ⟨before, rfl, hrest⟩ := h
  refine ⟨front ++ before, (List.append_assoc _ _ _).symm, ?_⟩
  rcases hrest with hnil | hnl
  · exact .inl hnil
  · exact .inr (hnl.trans (List.suffix_append _ _))

lemma BehindNewlineLiteral.of_suffix (h : BehindNewlineLiteral a rest) (hs : a <:+ text) :
    BehindNewlineLiteral text rest := by
  obtain ⟨front, rfl⟩ := hs
  obtain ⟨before, rfl, hne, hlit⟩ := h
  exact ⟨front ++ before, (List.append_assoc _ _ _).symm, hne,
    hlit.trans (List.suffix_append _ _)⟩

/-- A place behind the literal is no start of a line. -/
lemma BehindNewlineLiteral.not_lineStart (h : BehindNewlineLiteral text rest) :
    ¬LineStart text rest := by
  rintro ⟨before', htext, hrest⟩
  obtain ⟨before, rfl, hne, u, hu⟩ := h
  obtain rfl : before = before' := List.append_cancel_right htext
  rcases hrest with hnil | ⟨v, hv⟩
  · exact hne hnil
  · have hlast := congrArg List.getLast? (hu.trans hv.symm)
    simp [newlineLiteral, newline] at hlast

end Places

/-- A place where a unit ends: the start of a line, or right behind the literal that holds a
newline. -/
def UnitEnd (text rest : Text) : Prop :=
  LineStart text rest ∨ BehindNewlineLiteral text rest

lemma UnitEnd.of_suffix {a text rest : Text} (h : UnitEnd a rest) (hs : a <:+ text) :
    UnitEnd text rest := by
  rcases h with h | h
  · exact .inl (h.of_suffix hs)
  · exact .inr (h.of_suffix hs)

lemma eq_of_role_eq_brace {c : Char} (h : role c = .brace) : c = '{' := by
  unfold role at h
  split_ifs at h with _ hc
  exact hc

/-- A literal that gives a newline token is closed, or runs to the end of the text. -/
lemma unitEnd_literal {cs : Text} (h : (literal cs).text = newline) :
    UnitEnd ('{' :: cs) (literal cs).rest := by
  have hcs : cs = newline ++ cs.dropWhile (· ≠ '}') := by
    rw [← h]
    exact (List.takeWhile_append_dropWhile).symm
  cases hd : cs.dropWhile (· ≠ '}') with
  | nil =>
    have hrest : (literal cs).rest = [] := by rw [literal, hd, List.tail_nil]
    rw [hrest]
    exact .inl (lineStart_nil _)
  | cons c rest =>
    obtain rfl := eq_of_dropWhile_ne hd
    have hrest : (literal cs).rest = rest := by rw [literal, hd, List.tail_cons]
    rw [hrest]
    rw [hd] at hcs
    by_cases hnil : rest = []
    · rw [hnil]
      exact .inl (lineStart_nil _)
    · exact .inr ⟨newlineLiteral, by rw [hcs]; rfl, hnil, List.suffix_rfl⟩

/-- Behind a newline token is the start of a line, or the place behind the literal. -/
lemma unitEnd_of_newline {cs : Text} (h : (lex cs).token = some newline) :
    UnitEnd cs (lex cs).rest := by
  induction cs using Text.induction_on_length with
  | nil => exact nomatch h
  | cons c cs ih =>
    have hcons : cs <:+ c :: cs := List.suffix_cons c cs
    cases hr : role c with
    | solo =>
      rw [lex_of_solo cs hr] at h ⊢
      exact .inl ⟨[c], rfl, .inr (Option.some.inj h ▸ List.suffix_rfl)⟩
    | brace =>
      obtain rfl := eq_of_role_eq_brace hr
      rw [lex_of_brace cs hr] at h ⊢
      exact unitEnd_literal (Option.some.inj h)
    | hash =>
      -- the newline that ends a comment is the token
      rw [lex_of_hash cs hr] at h ⊢
      exact (ih _ (length_skipComment_le cs) h).of_suffix ((skipComment_suffix cs).trans hcons)
    | blank =>
      rw [lex_of_blank cs hr] at h ⊢
      exact (ih cs (Nat.le_refl _) h).of_suffix hcons
    | null =>
      rw [lex_of_null cs hr] at h ⊢
      exact (ih cs (Nat.le_refl _) h).of_suffix hcons
    | plain =>
      rw [lex_of_plain cs hr] at h
      obtain rfl : c = '\n' := (List.cons.inj (Option.some.inj h)).1
      exact absurd hr (by decide)

/-! ### Where a unit leaves the reader -/

/-- Discarding the rest of a line under way leads to the start of a line. -/
lemma lineStart_skipLine {r : Reader} (h : r.midLine = true) :
    LineStart r.rest r.skipLine.rest := by
  rw [rest_skipLine_of_midLine h]
  cases hs : skipComment r.rest with
  | nil => exact lineStart_nil _
  | cons c rest =>
    obtain rfl := eq_of_dropWhile_ne hs
    obtain ⟨front, hfront⟩ := skipComment_suffix r.rest
    rw [hs] at hfront
    refine ⟨front ++ newline, ?_, .inr (List.suffix_append _ _)⟩
    rw [← hfront, List.append_assoc]
    rfl

/-- A reader that has been left in the middle of a line, or where a unit ends. -/
structure LeftAt (text : Text) (r : Reader) : Prop where
  suffix : r.rest <:+ text
  place : r.midLine = true ∨ UnitEnd text r.rest

lemma LeftAt.of_suffix {a text : Text} {r : Reader} (h : LeftAt a r) (hs : a <:+ text) :
    LeftAt text r := by
  refine ⟨h.suffix.trans hs, ?_⟩
  rcases h.place with hmid | hend
  · exact .inl hmid
  · exact .inr (hend.of_suffix hs)

lemma leftAt_of_rest_eq_nil {text : Text} {r : Reader} (h : r.rest = []) : LeftAt text r := by
  refine ⟨?_, .inr (.inl ?_)⟩
  · rw [h]
    exact List.nil_suffix
  · rw [h]
    exact lineStart_nil text

/-- With the rest of the line under way discarded, a line starts, unless the reader had been left
right behind the literal that holds a newline. -/
lemma LeftAt.lineStart_skipLine_iff {text : Text} {r : Reader} (h : LeftAt text r) :
    LineStart text r.skipLine.rest ↔
      ¬(r.midLine = false ∧ BehindNewlineLiteral text r.rest) := by
  constructor
  · rintro hstart ⟨hmid, hbehind⟩
    rw [Reader.skipLine_of_not_midLine hmid] at hstart
    exact hbehind.not_lineStart hstart
  · intro hnot
    cases hmid : r.midLine with
    | true => exact (lineStart_skipLine hmid).of_suffix h.suffix
    | false =>
      rw [Reader.skipLine_of_not_midLine hmid]
      rcases h.place with hmid' | hstart | hbehind
      · exact absurd (hmid.symm.trans hmid') Bool.false_ne_true
      · exact hstart
      · exact absurd ⟨hmid, hbehind⟩ hnot

section Units

variable (r : Reader) (w : World) (nested : Evaluation)

/-- A block leaves the reader in the middle of a line, or at the end if it is not closed. -/
lemma leftAt_evalBlock : LeftAt r.rest (evalBlock nested r w).reader := by
  cases hs : splitBlock 0 (tokens r.rest) with
  | some split =>
    obtain ⟨inner, after⟩ := split
    obtain ⟨hclosed, -, hrest⟩ := collect_of_split w hs
    rw [evalBlock_of_closed _ _ _ hclosed, Run.reader_ofAnswer]
    refine ⟨?_, .inl (midLine_collect w hclosed)⟩
    rw [hrest]
    exact dropTokens_suffix _ _
  | none =>
    obtain ⟨hclosed, -, hrest⟩ := collect_of_unmatched w hs
    rw [evalBlock_of_unclosed _ _ _ hclosed]
    exact leftAt_of_rest_eq_nil hrest

lemma leftAt_argument (t : Text) (hr : r.midLine = true) :
    LeftAt r.rest (argument nested t r w).reader := by
  by_cases hb : t = openBlock
  · rw [hb, argument_openBlock]
    exact leftAt_evalBlock r w nested
  by_cases hv : ∃ name, t = '$' :: name
  · obtain ⟨name, rfl⟩ := hv
    rw [argument_variable]
    cases w.scope.values.get? name with
    | none => exact ⟨List.suffix_rfl, .inl hr⟩
    | some value => exact ⟨List.suffix_rfl, .inl hr⟩
  · rw [argument_word _ _ _ (fun name h => hv ⟨name, h⟩) hb]
    exact ⟨List.suffix_rfl, .inl hr⟩

/-- However the arguments of a unit end, the reader is in the middle of a line or where a unit
ends. -/
lemma leftAt_arguments : LeftAt r.rest (arguments nested r w).reader := by
  induction r using Reader.induction_on_rest generalizing w with
  | step r ih =>
    have hrest : (pull r w).reader.rest = (lex r.rest).rest := rest_pull r w
    have hsuffix : (pull r w).reader.rest <:+ r.rest := hrest ▸ rest_lex_suffix r.rest
    cases ht : (pull r w).token with
    | none =>
      rw [arguments_of_end r w nested (.inl ht)]
      exact leftAt_of_rest_eq_nil (hrest.trans (rest_lex_of_token_eq_none ht))
    | some t =>
      have hlt := length_rest_pull_lt ht
      by_cases hnl : t = newline
      · subst hnl
        rw [arguments_of_end r w nested (.inr ht)]
        exact ⟨hsuffix, .inr (hrest ▸ unitEnd_of_newline ht)⟩
      by_cases hne : t = []
      · subst hne
        rw [arguments_of_empty r w nested ht]
        exact (ih _ hlt _).of_suffix hsuffix
      · have hmid : (pull r w).reader.midLine = true := by
          rw [midLine_pull, ← token_pull r w, ht]
          simpa using hnl
        have harg := leftAt_argument (pull r w).reader (pull r w).world nested t hmid
        rw [arguments_of_token r w nested ht hne hnl]
        generalize argument nested t (pull r w).reader (pull r w).world = x at harg ⊢
        obtain ⟨o, r', w'⟩ := x
        -- an argument that fails leaves the reader where it stopped
        cases o with
        | ok value =>
          have hlt' := Nat.lt_of_le_of_lt harg.suffix.length_le hlt
          rw [Run.bind_ok, Run.reader_map]
          exact (ih r' hlt' w').of_suffix (harg.suffix.trans hsuffix)
        | error e => exact harg.of_suffix hsuffix
        | unfinished => exact harg.of_suffix hsuffix

end Units

namespace Repl

variable (files : Files) (depth : Nat)

/-- The runs of units that the loop makes from a reader on. -/
inductive UnitRun : Reader → World → Run Text → Prop
  /-- The unit of the first round, behind the prompt. -/
  | here {r : Reader} {w w' : World} : w.emit .reply prompt = (true, w') → r.rest ≠ [] →
      UnitRun r w (run files depth .unit (look r w').reader (look r w').world)
  /-- A unit of a later round. -/
  | later {r r' : Reader} {w w' : World} {x : Run Text} : round files depth r w = .next r' w' →
      UnitRun r' w' x → UnitRun r w x

variable {files depth} {r : Reader} {w : World}

/-- A unit that ends leaves the reader in the middle of a line or where a unit ends. -/
lemma leftAt_run_unit (h : (run files depth .unit r w).outcome ≠ .unfinished) :
    LeftAt r.rest (run files depth .unit r w).reader := by
  cases depth with
  | zero => exact absurd rfl h
  | succ depth =>
    show LeftAt r.rest (evalUnit files (run files depth) r w).reader
    rw [reader_evalUnit]
    exact leftAt_arguments r w (run files depth)

lemma rest_skipLine_suffix (r : Reader) : r.skipLine.rest <:+ r.rest := by
  cases h : r.midLine with
  | true =>
    rw [rest_skipLine_of_midLine h]
    exact (List.tail_suffix _).trans (skipComment_suffix _)
  | false => exact ⟨[], congrArg Reader.rest (Reader.skipLine_of_not_midLine h)⟩

lemma rest_skip (r : Reader) (w : World) : (skip r w).1.rest = r.skipLine.rest :=
  rest_observe r.skipLine w

lemma suffix_of_respond {x : Run Text} {r' : Reader} {w' : World}
    (h : respond x = .next r' w') : x.outcome ≠ .unfinished ∧ r'.rest <:+ x.reader.rest := by
  obtain ⟨o, r, w⟩ := x
  cases o with
  | ok value =>
    rw [reader_of_goOn h]
    exact ⟨nofun, List.suffix_rfl⟩
  | error e =>
    have hr : r' = (skip r w).1 := reader_of_goOn h
    rw [hr, rest_skip]
    exact ⟨nofun, rest_skipLine_suffix r⟩
  | unfinished => exact nomatch h

/-- A round that is followed by another one leaves a rest of the text. -/
lemma suffix_of_round {r' : Reader} {w' : World} (h : round files depth r w = .next r' w') :
    r'.rest <:+ r.rest := by
  unfold round at h
  split at h
  · exact nomatch h
  split at h
  · split at h <;> exact nomatch h
  · rename_i r₁ w₁ hl
    obtain ⟨hend, hsuffix⟩ := suffix_of_respond h
    have hunit := (leftAt_run_unit hend).suffix
    rw [rest_of_look hl] at hunit
    exact hsuffix.trans hunit

/-- Every unit that fails in the loop leaves the reader in the middle of a line or where a unit
ends. -/
lemma UnitRun.leftAt {x : Run Text} (h : UnitRun files depth r w x)
    (hx : x.outcome ≠ .unfinished) : LeftAt r.rest x.reader := by
  induction h with
  | @here r w w' _ _ =>
    have hleft := leftAt_run_unit hx
    rwa [rest_look] at hleft
  | later hround _ ih => exact (ih hx).of_suffix (suffix_of_round hround)

/-- After a unit that failed, the loop goes on at the start of a line or at the end of the input,
unless the unit had been read to its end, that end was a literal with nothing but a newline in it,
and there is something behind that literal. -/
theorem recovery_at_line_start_iff {s : ByteStream} {x : Run Text} {e : Error}
    (h : UnitRun files depth (.ofStream s) w x) (hx : x.outcome = .error e) :
    LineStart s.decodeAll.text (skip x.reader x.world).1.rest ↔
      ¬(x.reader.midLine = false ∧ BehindNewlineLiteral s.decodeAll.text x.reader.rest) := by
  have hleft : LeftAt s.decodeAll.text x.reader := h.leftAt (by rw [hx]; exact nofun)
  rw [rest_skip]
  exact hleft.lineStart_skipLine_iff

/-- Behind a command that fails, the rest of its last line is evaluated, since the command ended
with the literal. -/
theorem evaluated_behind_newline_literal :
    let files : Files := fun _ => .error .notFound
    let text := "nope \x7b\n\x7d set x 1\n".toList
    let s : ByteStream := ⟨[.bytes (Utf8.encode text)], none⟩
    let w : World := ⟨.initial none, {}⟩
    (∃ x, UnitRun files 2 (.ofStream s) w x ∧ x.outcome = .error (.unknownCommand "nope".toList) ∧
      ¬LineStart s.decodeAll.text (skip x.reader x.world).1.rest) ∧
    (loop files 2 (.ofStream s) w).world.scope.values.get? "x".toList = some "1".toList := by
  intro files text s w
  let w' := (w.emit .reply prompt).2
  let x := run files 2 .unit (look (.ofStream s) w').reader (look (.ofStream s) w').world
  have hrun : UnitRun files 2 (.ofStream s) w x := .here rfl (by decide +kernel)
  have hx : x.outcome = .error (.unknownCommand "nope".toList) := by decide +kernel
  refine ⟨⟨x, hrun, hx, ?_⟩, by decide +kernel⟩
  rw [recovery_at_line_start_iff hrun hx, not_not]
  exact ⟨by decide +kernel, "nope \x7b\n\x7d".toList, by decide +kernel, by decide +kernel,
    "nope ".toList, by decide +kernel⟩

end Repl
end LineScript
