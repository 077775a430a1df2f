/-
# The interactive loop, line by line

If each line of the input is self-contained, then the loop evaluates the lines one by one, each as
a text of its own, whatever comes of them: `loop_over_lines`.  A line that fails may do so at any of
its tokens, or at its command, when its newline has been read already.  In each case the reader is
left at the next line once the rest of the failed line has been discarded (`settled_unit`).
-/
import LineScript.Proofs.Decoding
import LineScript.Proofs.Lines
import LineScript.Proofs.Output
import LineScript.Repl

namespace LineScript

/-! ### Where a line leaves the reader -/

lemma ne_newline_of_not_mem {a : Text} (ha : '\n' ∉ a) : ∀ c ∈ a, decide (c ≠ '\n') = true := by
  intro c hc
  rw [decide_eq_true_eq]
  rintro rfl
  exact ha hc

/-- The rest of a line under way is discarded up to the next line. -/
lemma rest_skipLine_of_append {r : Reader} {a b : Text} (hr : r.midLine = true) (ha : '\n' ∉ a)
    (hrest : r.rest = a ++ '\n' :: b) : r.skipLine.rest = b := by
  have hskip : skipComment r.rest = '\n' :: b := by
    rw [hrest, skipComment, List.dropWhile_append_of_pos (ne_newline_of_not_mem ha)]
    rfl
  rw [rest_skipLine_of_midLine hr, hskip, List.tail_cons]

/-- The last line is discarded up to the end. -/
lemma rest_skipLine_of_last {r : Reader} (hr : r.midLine = true) (hrest : '\n' ∉ r.rest) :
    r.skipLine.rest = [] := by
  have hskip : skipComment r.rest = [] :=
    List.dropWhile_eq_nil_iff.mpr (ne_newline_of_not_mem hrest)
  rw [rest_skipLine_of_midLine hr, hskip, List.tail_nil]

/-- The run has used up one line: the reader is at `b` as it is if the run succeeded, and in any
case once the rest of the line under way has been discarded. -/
structure Settled {α : Type} (b : Text) (x : Run α) : Prop where
  fault_eq : x.reader.fault = none
  rest_skipLine : x.reader.skipLine.rest = b
  rest_eq : ∀ v, x.outcome = .ok v → x.reader.rest = b

namespace Parallel

variable {α : Type} {a b : Text} {x y : Run α}

/-- A line that stands alone is used up. -/
lemma settled_left (h : Parallel b a x y) (ha : '\n' ∉ a) : Settled [] x := by
  by_cases hx : ∃ v, x.outcome = .ok v
  · obtain ⟨v, hv⟩ := hx
    rcases h.ended v hv with ⟨hmem, -⟩ | ⟨hrest, hfault, -⟩
    · exact absurd hmem ha
    · refine ⟨hfault, ?_, fun _ _ => hrest⟩
      have hle := x.reader.length_rest_skipLine_le
      rw [hrest] at hle
      exact List.length_eq_zero_iff.mp (Nat.le_zero.mp hle)
  · have hstop : ∀ v, x.outcome ≠ .ok v := fun v hv => hx ⟨v, hv⟩
    obtain ⟨hsuffix, hext, hmid, -⟩ := h.stopped hstop
    refine ⟨hext.fault_left, ?_, fun v hv => absurd hv (hstop v)⟩
    exact rest_skipLine_of_last hmid fun hmem => ha (hsuffix.subset hmem)

/-- A line in front of another one is used up with its newline. -/
lemma settled_right (h : Parallel b a x y) (ha : '\n' ∉ a) : Settled b y := by
  by_cases hx : ∃ v, x.outcome = .ok v
  · obtain ⟨v, hv⟩ := hx
    rcases h.ended v hv with ⟨hmem, -⟩ | ⟨-, -, hrest, hfault, hmid⟩
    · exact absurd hmem ha
    · refine ⟨hfault, ?_, fun _ _ => hrest⟩
      rw [Reader.skipLine_of_not_midLine hmid, hrest]
  · have hstop : ∀ v, x.outcome ≠ .ok v := fun v hv => hx ⟨v, hv⟩
    obtain ⟨hsuffix, hext, -, hmid⟩ := h.stopped hstop
    refine ⟨hext.fault_right, ?_, fun v hv => absurd (h.outcome_eq ▸ hv) (hstop v)⟩
    exact rest_skipLine_of_append hmid (fun hmem => ha (hsuffix.subset hmem)) hext.rest_eq

end Parallel

section Units

variable {line b : Text} {r : Reader} (files : Files) (nested : Evaluation) (w : World)

lemma Settled.bind_perform {x : Run (List Text)} (h : Settled b x) :
    Settled b (x.bind (perform nested files)) := by
  obtain ⟨o, r, w⟩ := x
  cases o with
  | ok args =>
    have hreader : (perform nested files args r w).reader = r :=
      reader_perform r w nested files args
    refine ⟨?_, ?_, fun _ _ => ?_⟩
    · rw [Run.bind_ok, hreader]
      exact h.fault_eq
    · rw [Run.bind_ok, hreader]
      exact h.rest_skipLine
    · rw [Run.bind_ok, hreader]
      exact h.rest_eq args rfl
  | error e => exact ⟨h.fault_eq, h.rest_skipLine, fun _ hv => nomatch hv⟩
  | unfinished => exact ⟨h.fault_eq, h.rest_skipLine, fun _ hv => nomatch hv⟩

/-- A unit has the same result wherever its arguments are read from. -/
lemma answer_bind_perform {x y : Run (List Text)} (ho : y.outcome = x.outcome)
    (hw : y.world = x.world) :
    (y.bind (perform nested files)).answer = (x.bind (perform nested files)).answer := by
  obtain ⟨o, r, w⟩ := x
  obtain ⟨o', r', w'⟩ := y
  obtain rfl : o' = o := ho
  obtain rfl : w' = w := hw
  cases o' with
  | ok args =>
    rw [Run.bind_ok, Run.bind_ok, perform_eq_ofAnswer files nested w' args r' r]
    rfl
  | error e => rfl
  | unfinished => rfl

/-- The reader is at a line, behind which there is nothing, or a newline and then `b`. -/
def AtLine (line b : Text) (r : Reader) : Prop :=
  r.fault = none ∧ (r.rest = line ∧ line ≠ [] ∧ b = [] ∨ r.rest = line ++ '\n' :: b)

/-- A self-contained line is evaluated as if it stood alone, and used up. -/
lemma settled_unit (hline : SelfContained line) (hnl : '\n' ∉ line) (hr : AtLine line b r) :
    (evalUnit files nested r w).answer = (evalUnit files nested (.ofText line) w).answer ∧
      Settled b (evalUnit files nested r w) := by
  rw [evalUnit_eq, evalUnit_eq]
  obtain ⟨hf, ⟨hrest, -, rfl⟩ | hrest⟩ := hr
  · -- the last line: what is known about it in front of a newline is used for the line alone
    have hext : Extends [] r (.ofText (line ++ ['\n'])) :=
      ⟨hf, rfl, hrest ▸ hline, by rw [hrest]; rfl⟩
    have hpar := parallel_arguments nested w hext
    rw [hrest] at hpar
    rw [arguments_congr_of_rest w nested (r := .ofText line) rfl hf hrest.symm]
    exact ⟨rfl, (hpar.settled_left hnl).bind_perform files nested⟩
  · have hext : Extends b (.ofText line) r := ⟨rfl, hf, hline, hrest⟩
    have hpar := parallel_arguments nested w hext
    exact ⟨answer_bind_perform files nested hpar.outcome_eq hpar.world_eq,
      (hpar.settled_right hnl).bind_perform files nested⟩

end Units

/-! ### The channels of the loop -/

/-- The channels for replies and for errors take any number of bytes. -/
structure World.Open (w : World) : Prop where
  reply : w.console.room.reply = none
  complaint : w.console.room.complaint = none

lemma Console.room_write_script (c : Console) (bs : List UInt8) :
    (c.write .script bs).2.room.reply = c.room.reply ∧
      (c.write .script bs).2.room.complaint = c.room.complaint := by
  induction bs generalizing c with
  | nil => exact ⟨rfl, rfl⟩
  | cons b bs ih =>
    rw [write]
    split
    · exact ⟨rfl, rfl⟩
    · exact ih _

namespace World.Open

variable {w : World}

/-- Evaluation leaves the channels of the loop alone. -/
lemma of_grows {w' : World} (h : w.Open) (hg : w.console.Grows w'.console) : w'.Open := by
  have hroom : ∀ {c d : Console}, c.Grows d →
      d.room.reply = c.room.reply ∧ d.room.complaint = c.room.complaint := by
    intro c d hcd
    induction hcd with
    | refl => exact ⟨rfl, rfl⟩
    | note n _ ih => exact ih
    | put bs _ ih =>
      rename_i d _
      obtain ⟨hreply, hcomplaint⟩ := d.room_write_script bs
      exact ⟨hreply.trans ih.1, hcomplaint.trans ih.2⟩
  obtain ⟨hreply, hcomplaint⟩ := hroom hg
  exact ⟨hreply.trans h.reply, hcomplaint.trans h.complaint⟩

lemma run (h : w.Open) (files : Files) (depth : Nat) (extent : Extent) (r : Reader) :
    (LineScript.run files depth extent r w).world.Open :=
  h.of_grows (grows_run files depth extent r w)

lemma on_eq_none (h : w.Open) {channel : Channel} (hc : channel ≠ .script) :
    w.console.room.on channel = none := by
  cases channel with
  | script => exact absurd rfl hc
  | reply => exact h.reply
  | complaint => exact h.complaint

/-- The channels of the loop take everything. -/
lemma emit (h : w.Open) {channel : Channel} (hc : channel ≠ .script) (t : Text) :
    ∃ v, w.emit channel t = (true, v) ∧ v.Open := by
  have hwrite := Console.write_of_on_eq_none (h.on_eq_none hc) (Utf8.encode t)
  have hok : (w.emit channel t).1 = true := congrArg Prod.fst hwrite
  have hroom : (w.emit channel t).2.console.room = w.console.room :=
    congrArg (·.2.room) hwrite
  refine ⟨(w.emit channel t).2, Prod.ext hok rfl, ?_, ?_⟩
  · exact (congrArg Room.reply hroom).trans h.reply
  · exact (congrArg Room.complaint hroom).trans h.complaint

end World.Open

/-- The lines make up the text: each of them is followed by a newline, but the last one need not be
if it is not empty. -/
inductive Spells : List Text → Text → Prop
  | nil : Spells [] []
  | last {line : Text} : line ≠ [] → Spells [line] line
  | cons {line : Text} {lines : List Text} {text : Text} :
      Spells lines text → Spells (line :: lines) (line ++ '\n' :: text)

namespace Repl

/-! ### Sessions -/

/-- A session in which each line is evaluated as a text of its own, in the world that the line
before it has left: the prompt `>> `, then the value of the line, or the message of its error behind
`error: `, on a line of its own; and at the end the prompt and a newline. -/
def session (files : Files) (depth : Nat) : List Text → World → Ending × World
  | [], w => (.finished, ((w.emit .reply ">> ".toList).2.emit .reply newline).2)
  | line :: lines, w =>
    match (run files depth).answer .unit (.ofText line) (w.emit .reply ">> ".toList).2 with
    | ⟨.ok value, w⟩ => session files depth lines (w.emit .reply (value ++ newline)).2
    | ⟨.error e, w⟩ =>
      session files depth lines (w.emit .complaint ("error: ".toList ++ e.message ++ newline)).2
    | ⟨.unfinished, w⟩ => (.unfinished, w)

/-- The result of the loop, less the place of the reader. -/
def Result.summary (x : Result) : Ending × World :=
  (x.ending, x.world)

section Rounds

variable (files : Files) (depth : Nat) {r : Reader} {w : World}

lemma loop_of_next {r' : Reader} {w' : World} (h : round files depth r w = .next r' w') :
    loop files depth r w = loop files depth r' w' := by
  rw [loop]
  split <;> rename_i h' <;> rw [h] at h' <;> cases h'
  rfl

lemma loop_of_stop {ending : Ending} {r' : Reader} {w' : World}
    (h : round files depth r w = .stop ending r' w') :
    loop files depth r w = ⟨ending, r', w'⟩ := by
  rw [loop]
  split <;> rename_i h' <;> rw [h] at h' <;> cases h'
  rfl

/-- At the end of the input the loop writes the prompt and a newline. -/
lemma loop_of_rest_eq_nil (hw : w.Open) (hf : r.fault = none) (hr : r.rest = []) :
    (loop files depth r w).summary = session files depth [] w := by
  obtain ⟨w₁, hprompt, hopen⟩ := hw.emit (show Channel.reply ≠ .script by decide) prompt
  obtain ⟨w₂, hnewline, -⟩ := hopen.emit (show Channel.reply ≠ .script by decide) newline
  have hround : round files depth r w = .stop .finished r.isExhausted.2 w₂ := by
    rw [round, hprompt]
    simp only [look_of_fault_eq_none w₁ hf, hr, List.isEmpty_nil, hnewline]
  rw [prompt] at hprompt
  rw [loop_of_stop files depth hround, session, hprompt, hnewline]
  rfl

/-- Where something is left a unit is evaluated behind the prompt. -/
lemma round_of_rest_ne_nil {w₁ : World} (hprompt : w.emit .reply prompt = (true, w₁))
    (hf : r.fault = none) (hr : r.rest ≠ []) :
    round files depth r w = respond (run files depth .unit r.isExhausted.2 w₁) := by
  rw [round, hprompt]
  simp only [look_of_fault_eq_none w₁ hf, List.isEmpty_eq_false_iff.mpr hr]

/-- One line of a session. -/
lemma loop_of_atLine {line b : Text} {lines : List Text} (hline : SelfContained line)
    (hnl : '\n' ∉ line) (hr : AtLine line b r) (hw : w.Open)
    (hnext : ∀ r' w', r'.fault = none → r'.rest = b → w'.Open →
      (loop files depth r' w').summary = session files depth lines w') :
    (loop files depth r w).summary = session files depth (line :: lines) w := by
  obtain ⟨w₁, hprompt, hopen⟩ := hw.emit (show Channel.reply ≠ .script by decide) prompt
  have hne : r.rest ≠ [] := by
    obtain ⟨-, ⟨hrest, hne, -⟩ | hrest⟩ := hr
    · rw [hrest]
      exact hne
    · rw [hrest]
      simp
  have hround := round_of_rest_ne_nil files depth hprompt hr.1 hne
  rw [prompt] at hprompt
  have hopen' := hopen.run files depth .unit r.isExhausted.2
  rw [session, hprompt]
  cases depth with
  | zero =>
    rw [loop_of_stop files 0 hround]
    rfl
  | succ depth =>
    obtain ⟨hanswer, hsettled⟩ := settled_unit files (run files depth) w₁ hline hnl
      (show AtLine line b r.isExhausted.2 from hr)
    change (run files (depth + 1) .unit r.isExhausted.2 w₁).answer
      = (run files (depth + 1)).answer .unit (.ofText line) w₁ at hanswer
    change Settled b (run files (depth + 1) .unit r.isExhausted.2 w₁) at hsettled
    rw [← hanswer]
    generalize run files (depth + 1) .unit r.isExhausted.2 w₁ = x at hround hsettled hopen' ⊢
    obtain ⟨o, r', w'⟩ := x
    cases o with
    | ok value =>
      obtain ⟨w₂, hemit, hopen₂⟩ :=
        hopen'.emit (show Channel.reply ≠ .script by decide) (value ++ newline)
      have hround' : round files (depth + 1) r w = .next r' w₂ := by
        rw [hround]
        simp only [respond, hemit, goOn]
      rw [loop_of_next _ _ hround',
        hnext r' w₂ hsettled.fault_eq (hsettled.rest_eq value rfl) hopen₂]
      simp only [Run.answer, hemit]
    | error e =>
      -- the next round starts where the rest of the failed line has been discarded
      obtain ⟨w₂, hemit, hopen₂⟩ :=
        hopen'.emit (show Channel.complaint ≠ .script by decide) (errorLine e)
      have hfault : r'.skipLine.fault = none := (fault_skipLine r').trans hsettled.fault_eq
      have hround' : round files (depth + 1) r w = .next r'.skipLine w₂ := by
        rw [hround]
        simp only [respond, skip, observe_of_fault_eq_none w' hfault, hemit, goOn]
      rw [loop_of_next _ _ hround', hnext _ w₂ hfault hsettled.rest_skipLine hopen₂]
      show _ = session files (depth + 1) lines (w'.emit .complaint (errorLine e)).2
      rw [hemit]
    | unfinished =>
      rw [loop_of_stop _ _ hround]
      rfl

end Rounds

lemma loop_of_spells (files : Files) (depth : Nat) {lines : List Text} {text : Text}
    (ht : Spells lines text) (hlines : ∀ line ∈ lines, SelfContained line ∧ '\n' ∉ line)
    {r : Reader} {w : World} (hf : r.fault = none) (hr : r.rest = text) (hw : w.Open) :
    (loop files depth r w).summary = session files depth lines w := by
  induction ht generalizing r w with
  | nil => exact loop_of_rest_eq_nil files depth hw hf hr
  | @last line hne =>
    obtain ⟨hline, hnl⟩ := hlines line List.mem_cons_self
    refine loop_of_atLine files depth hline hnl ⟨hf, .inl ⟨hr, hne, rfl⟩⟩ hw ?_
    intro r' w' hf' hr' hw'
    exact loop_of_rest_eq_nil files depth hw' hf' hr'
  | @cons line lines text _ ih =>
    obtain ⟨hline, hnl⟩ := hlines line List.mem_cons_self
    refine loop_of_atLine files depth hline hnl ⟨hf, .inr hr⟩ hw ?_
    intro r' w' hf' hr' hw'
    exact ih (fun l hl => hlines l (List.mem_cons_of_mem _ hl)) hf' hr' hw'

/-- If all lines are self-contained, the loop is a session: each line is evaluated once, as a text
of its own, in the world that the line before it has left, whether that line failed or not.  It
does not matter in which fills the bytes of the lines come. -/
theorem loop_over_lines (files : Files) (depth : Nat) {lines : List Text} {text : Text}
    (hlines : ∀ line ∈ lines, SelfContained line ∧ '\n' ∉ line) (htext : Spells lines text)
    {s : ByteStream} (hbytes : s.bytes = Utf8.encode text) (hs : s.failure? = none)
    {w : World} (hw : w.Open) :
    (loop files depth (.ofStream s) w).summary = session files depth lines w := by
  obtain ⟨hdecoded, hfault⟩ := s.decodeAll_eq
  rw [hbytes, Utf8.decode_encode] at hdecoded
  rw [hs, Option.map_eq_none_iff] at hfault
  exact loop_of_spells files depth htext hlines hfault hdecoded hw

/-- A session in which lines fail at a variable, in a block and at a command. -/
theorem session_with_failing_lines :
    let files : Files := fun _ => .error .notFound
    let a := "puts [+ $y 1] [set x 2]".toList
    let b := "nope [set x [+ 1 3]] # [".toList
    let c := "puts $x".toList
    let lines := [a, b, [], c]
    let text := a ++ '\n' :: (b ++ '\n' :: ([] ++ '\n' :: c))
    let bytes := Utf8.encode text
    let s : ByteStream := ⟨[.bytes (bytes.take 9), .interrupted, .bytes (bytes.drop 9)], none⟩
    let w : World := ⟨.initial none, {}⟩
    (∀ line ∈ lines, SelfContained line ∧ '\n' ∉ line) ∧ Spells lines text ∧
      s.bytes = Utf8.encode text ∧ s.failure? = none ∧ w.Open ∧
      bytesOn .script (session files 5 lines w).2.console.journal.reverse =
        Utf8.encode "4\n".toList ∧
      (loop files 5 (.ofStream s) w).summary = session files 5 lines w := by
  intro files a b c lines text bytes s w
  have hlines : ∀ line ∈ lines, SelfContained line ∧ '\n' ∉ line := by decide +kernel
  have htext : Spells lines text := .cons (.cons (.cons (.last (by decide))))
  have hbytes : s.bytes = Utf8.encode text := by decide +kernel
  have hw : w.Open := ⟨rfl, rfl⟩
  exact ⟨hlines, htext, hbytes, rfl, hw, by decide +kernel,
    loop_over_lines files 5 hlines htext hbytes rfl hw⟩

end Repl
end LineScript
