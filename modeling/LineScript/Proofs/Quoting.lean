/-
# Quoted words and values of variables

Nothing about the kind of a token is kept, so it is not plain that a text can be handed to a command
at all.  There are two safe ways.  A literal hands over its content, unless the content is empty or
would be taken for a newline, a block or a variable.  A variable hands over its value, whatever the
value may be: it is not cut into tokens again.

A line of such words, with one space between neighbours, runs the command that the first word stands
for with the arguments that the other words stand for (`quoted_line_dispatches`).  Nothing behind
the newline of the line has been looked at then, so it does not matter what follows.
-/
import LineScript.Proofs.Spelling
import LineScript.Proofs.Continuation

namespace LineScript

/-- A word of a line that is safe to write: a literal, or a variable to be replaced by its value. -/
inductive LineWord where
  /-- The literal with this content. -/
  | braced (content : Text)
  /-- The value of this variable. -/
  | value (name : Text)
deriving DecidableEq, Repr

namespace LineWord

/-- The word as it is written. -/
def source : LineWord → Text
  | braced content => '{' :: (content ++ ['}'])
  | value name => '$' :: name

/-- The token that the word is read as. -/
def token : LineWord → Text
  | braced content => content
  | value name => '$' :: name

/-- The word stands for the argument, where the namespace says what the variables are bound to. -/
inductive StandsFor (n : Namespace) : LineWord → Text → Prop
  | braced {content : Text} (not_nil : content ≠ []) (not_closed : '}' ∉ content)
      (not_variable : content.head? ≠ some '$') (not_open : content ≠ openBlock)
      (not_newline : content ≠ newline) : StandsFor n (.braced content) content
  | value {name v : Text} (plain : ∀ c ∈ name, c ∉ delimiters)
      (bound : n.values.get? name = some v) : StandsFor n (.value name) v

/-- The words with a space between neighbours. -/
def line (words : List LineWord) : Text :=
  [' '].intercalate (words.map source)

lemma line_singleton (x : LineWord) : line [x] = x.source := by
  simp [line]

lemma line_cons_cons (x y : LineWord) (words : List LineWord) :
    line (x :: y :: words) = x.source ++ ' ' :: line (y :: words) := by
  simp [line, List.intercalate_cons_cons]

section Reading

variable {n : Namespace} {x : LineWord} {v : Text}

lemma StandsFor.token_ne_nil (h : x.StandsFor n v) : x.token ≠ [] := by
  cases h with
  | braced not_nil => exact not_nil
  | value => exact List.cons_ne_nil _ _

lemma StandsFor.token_ne_newline (h : x.StandsFor n v) : x.token ≠ newline := by
  cases h with
  | braced _ _ _ _ not_newline => exact not_newline
  | value => exact fun h => absurd (List.cons.inj h).1 (by decide)

/-- The word is read as its token in front of a space or a newline.  A space may be read along with
it, which makes no difference for the next token. -/
lemma StandsFor.lex_source (h : x.StandsFor n v) {c : Char} (hc : c = ' ' ∨ c = '\n') (cs : Text) :
    (lex (x.source ++ c :: cs)).token = some x.token ∧
      lex (lex (x.source ++ c :: cs)).rest = lex (c :: cs) := by
  cases h with
  | braced _ not_closed =>
    have hlex : lex (source (.braced v) ++ c :: cs) = ⟨some v, c :: cs, false⟩ := by
      rw [source, List.cons_append, List.append_assoc]
      exact lex_braced not_closed (c :: cs)
    rw [hlex]
    exact ⟨rfl, rfl⟩
  | @value name _ plain =>
    have hlex : lex (source (.value name) ++ c :: cs)
        = ⟨some ('$' :: (word (name ++ c :: cs)).text), (word (name ++ c :: cs)).rest,
          (word (name ++ c :: cs)).looked⟩ := lex_of_plain _ (by decide)
    rw [hlex]
    rcases hc with rfl | rfl
    · rw [word_append_space plain]
      exact ⟨rfl, (lex_of_blank cs (by decide)).symm⟩
    · rw [word_append_newline, word_eq_self plain]
      exact ⟨rfl, rfl⟩

variable (nested : Evaluation) {w : World}

/-- The token of the word gives the argument as it is. -/
lemma StandsFor.argument_token (h : x.StandsFor w.scope v) (r : Reader) :
    argument nested x.token r w = ⟨.ok v, r, w⟩ := by
  cases h with
  | braced _ _ not_variable not_open =>
    refine argument_word r w nested ?_ not_open
    rintro name rfl
    exact not_variable rfl
  | value _ bound => rw [token, argument_variable, bound]

/-- The word gives one argument, before those that follow. -/
lemma StandsFor.arguments_source (h : x.StandsFor w.scope v) {c : Char} (hc : c = ' ' ∨ c = '\n')
    (cs : Text) :
    arguments nested (.ofText (x.source ++ c :: cs)) w =
      (arguments nested (.ofText (c :: cs)) w).map (v :: ·) := by
  obtain ⟨htoken, hrest⟩ := h.lex_source hc cs
  let r : Reader := .ofText (x.source ++ c :: cs)
  have hpull : pull r w = ⟨some x.token, r.next.2, w⟩ := by
    rw [pull_of_fault_eq_none w rfl, ← htoken]
    rfl
  have htail : arguments nested r.next.2 w = arguments nested (.ofText (c :: cs)) w :=
    arguments_congr_of_lex w nested rfl rfl hrest
  rw [arguments_of_token r w nested (by rw [hpull]) h.token_ne_nil h.token_ne_newline, hpull,
    h.argument_token, Run.bind_ok, htail]

/-- The arguments on a line of words are what the words stand for, and they are read up to the
newline. -/
lemma arguments_line {words : List LineWord} {values : List Text}
    (h : List.Forall₂ (StandsFor w.scope) words values) (rest : Text) :
    arguments nested (.ofText (line words ++ '\n' :: rest)) w = ⟨.ok values, .ofText rest, w⟩ := by
  induction h with
  | nil =>
    have hpull : pull (.ofText ('\n' :: rest)) w = ⟨some newline, .ofText rest, w⟩ :=
      pull_of_fault_eq_none w rfl
    show arguments nested (.ofText ('\n' :: rest)) w = _
    rw [arguments_of_end _ w nested (.inr (by rw [hpull])), hpull]
  | @cons x v words values hx hwords ih =>
    cases words with
    | nil =>
      rw [line_singleton, hx.arguments_source nested (.inr rfl)]
      exact congrArg (Run.map _) ih
    | cons y words =>
      have hspace : arguments nested (.ofText (' ' :: (line (y :: words) ++ '\n' :: rest))) w
          = ⟨.ok values, .ofText rest, w⟩ :=
        (arguments_congr_of_lex w nested rfl rfl (lex_of_blank _ (by decide))).trans ih
      rw [line_cons_cons, List.append_assoc, List.cons_append,
        hx.arguments_source nested (.inl rfl), hspace]
      rfl

end Reading

end LineWord

/-- The reader is somewhere in a text, or in the text of a byte stream. -/
def Reader.InInput (r : Reader) : Prop :=
  r.fault = none ∨ ∃ s : ByteStream, r.rest <:+ s.decodeAll.text ∧ r.fault = s.decodeAll.fault

/-- Behind a newline of its input, a reader has not come to a failure that cuts a character short:
the newline is not such a character. -/
lemma Reader.InInput.cutsSome {r : Reader} (h : r.InInput) {front rest : Text}
    (hr : r.rest = front ++ '\n' :: rest) : CutsSome rest r.fault := by
  rcases h with hnone | ⟨s, ⟨before, hs⟩, hfault⟩
  · rw [hnone]
    exact nofun
  · rintro f hf hcut rfl
    rw [hfault, s.fault_decodeAll, Option.mem_def, Option.map_eq_some_iff] at hf
    obtain ⟨reason, -, rfl⟩ := hf
    rw [hr, s.decodeAll_eq.1, ← List.append_assoc] at hs
    have hwhole : Utf8.endsCut s.bytes = false :=
      endsCut_of_behindDelimiter (.inr ⟨before ++ front, '\n', hs.symm, by decide⟩)
    exact Bool.false_ne_true (hwhole.symm.trans hcut)

/-- A line of literals and variables runs the command that its first word stands for, with what the
other words stand for as arguments.  The reader is left behind the newline, and nothing of what
follows has been looked at. -/
theorem quoted_line_dispatches (files : Files) (depth : Nat) {words : List LineWord}
    {command : Text} {args : List Text} {rest : Text} {r : Reader} {w : World}
    (hr : r.rest = LineWord.line words ++ '\n' :: rest) (hin : r.InInput)
    (hwords : List.Forall₂ (LineWord.StandsFor w.scope) words (command :: args)) :
    run files (depth + 1) .unit r w =
      .ofAnswer (dispatch files depth command args w) { rest, fault := r.fault } := by
  -- the line alone, with its newline, is read without meeting the end
  let alone : Reader := { r with rest := LineWord.line words ++ newline, fault := none }
  have hfollowed : r = alone.followedBy rest r.fault := by
    have hrest : r.rest = alone.rest ++ rest := by
      rw [hr, List.append_cons]
      rfl
    rw [Reader.followedBy, ← hrest]
  have halone : run files (depth + 1) .unit alone w
      = .ofAnswer (dispatch files depth command args w) (.ofText []) := by
    have htext : arguments (run files depth) alone w
        = arguments (run files depth) (.ofText (LineWord.line words ++ newline)) w :=
      arguments_congr_of_rest w _ rfl rfl rfl
    show evalUnit files _ alone w = _
    rw [evalUnit_eq, htext, newline, LineWord.arguments_line _ hwords]
    rfl
  have hsame := (continued_run_unit alone.rest (hin.cutsSome hr) (r := alone) rfl w files
    (depth + 1)).same (by rw [halone]; rfl)
  rw [← hfollowed, halone] at hsame
  exact hsame

/-- A variable gives the command.  Its arguments are a literal that looks like a comment with
brackets and a newline, and a value that looks like a script, of a variable named by a brace.  The
input behind the line is a bracket that is never closed, and then a failure. -/
theorem line_of_unlike_words :
    let files : Files := fun _ => .error .notFound
    let words : List LineWord := [.value "c".toList, .braced "# ]\n[".toList, .value "\x7d".toList]
    let rest := "[ puts ".toList
    let s : ByteStream :=
      ⟨[.bytes (Utf8.encode (LineWord.line words ++ '\n' :: rest)), .failure "gone".toList], none⟩
    let w : World :=
      ⟨((Namespace.initial none).setVariable "c".toList "set".toList).setVariable "\x7d".toList
        "$x \x7d [puts \x7b\n".toList, {}⟩
    let args := ["# ]\n[".toList, "$x \x7d [puts \x7b\n".toList]
    LineWord.line words = "$c \x7b# ]\n[\x7d $\x7d".toList ∧
      run files 1 .unit (.ofStream s) w =
        .ofAnswer (dispatch files 0 "set".toList args w)
          { rest, fault := some ⟨"gone".toList, false⟩ } ∧
      (dispatch files 0 "set".toList args w).world.scope.values.get? "# ]\n[".toList =
        some "$x \x7d [puts \x7b\n".toList := by
  intro files words rest s w args
  have hwords : List.Forall₂ (LineWord.StandsFor w.scope) words ("set".toList :: args) :=
    .cons (.value (show IsWord "c".toList by decide).2 (by decide +kernel))
      (.cons (.braced (by decide) (by decide) (by decide) (by decide) (by decide))
        (.cons (.value (show IsWord "\x7d".toList by decide).2 (by decide +kernel)) .nil))
  have hrest : (Reader.ofStream s).rest = LineWord.line words ++ '\n' :: rest := by decide +kernel
  have hfault : (Reader.ofStream s).fault = some ⟨"gone".toList, false⟩ := by decide +kernel
  have hrun := quoted_line_dispatches files 0 hrest (.inr ⟨s, List.suffix_rfl, rfl⟩) hwords
  rw [hfault] at hrun
  exact ⟨by decide, hrun, by decide +kernel⟩

end LineScript
