/-
# The interactive loop and whole scripts

A script can be evaluated as a whole, or be given to the interactive loop.  In both cases its units
are evaluated one after the other.  The evaluation of the whole keeps the value of the last unit and
ends with the first error; the loop shows every value and goes on behind an error.

`Units` are units that succeed one after the other.  A whole script is such units up to its end, or
up to a unit that does not succeed (`units_of_evalBody`).  Each of them is a round of the loop,
which shows its value (`Units.rounds`), since a unit does not depend on what the loop has shown
before (`World.Alike.unitAt`).  So up to the first error both come to the same:
`loop_agrees_with_body`.
-/
import LineScript.Proofs.Rounds

namespace LineScript

open Repl (unitAt)

/-! ### Worlds alike -/

/-- The worlds are the same for scripts: the names, the room, and the output of scripts.  What has
been noted, and what the loop has shown, may differ. -/
structure World.Alike (w v : World) : Prop where
  scope_eq : v.scope = w.scope
  room_eq : v.console.room = w.console.room
  output_eq : v.output = w.output

namespace World.Alike

variable {w v : World}

lemma refl (w : World) : w.Alike w :=
  ⟨rfl, rfl, rfl⟩

lemma note (h : w.Alike v) (n : Note) : (w.note n).Alike (v.note n) := by
  refine ⟨h.scope_eq, h.room_eq, ?_⟩
  show (v.console.note n).bytes .script = (w.console.note n).bytes .script
  rw [Console.bytes_note, Console.bytes_note]
  exact h.output_eq

/-- What the loop shows makes no difference to scripts. -/
lemma of_shows {v' : World} {channel : Channel} {t : Text} (h : w.Alike v)
    (hv : v.Shows channel t v') (hc : channel ≠ .script) : w.Alike v' :=
  ⟨hv.scope_eq.trans h.scope_eq, hv.room_eq.trans h.room_eq,
    (hv.bytes_of_ne hc).trans h.output_eq⟩

lemma of_note (h : w.Alike v) (n : Note) : w.Alike (v.note n) :=
  ⟨h.scope_eq, h.room_eq, (Console.bytes_note _ _ _).trans h.output_eq⟩

/-- Discarding the rest of a line makes no difference to scripts. -/
lemma skip (h : w.Alike v) (r : Reader) : w.Alike (skip r v).2 := by
  unfold LineScript.skip observe
  split
  · exact h.of_note _
  · exact h

lemma look (h : w.Alike v) (r : Reader) :
    (look r v).reader = (look r w).reader ∧ (look r w).world.Alike (look r v).world := by
  unfold LineScript.look observe
  dsimp only
  split
  · exact ⟨rfl, h.note _⟩
  · exact ⟨rfl, h⟩

/-- Evaluation cannot tell the worlds apart. -/
lemma run (h : w.Alike v) (files : Files) (depth : Nat) (extent : Extent) (r : Reader) :
    (run files depth extent r v).outcome = (run files depth extent r w).outcome ∧
      (run files depth extent r v).reader = (run files depth extent r w).reader ∧
      (run files depth extent r w).world.Alike (run files depth extent r v).world := by
  have hw : w = w.cleared.onto w.console.journal := rfl
  have hv : v = w.cleared.onto v.console.journal := by
    obtain ⟨scope, journal, room⟩ := v
    obtain rfl : scope = w.scope := h.scope_eq
    obtain rfl : room = w.console.room := h.room_eq
    rfl
  have houtput : bytesOn .script v.console.journal.reverse
      = bytesOn .script w.console.journal.reverse := h.output_eq
  have hrunw := run_onto files depth extent r w.cleared w.console.journal
  have hrunv := run_onto files depth extent r w.cleared v.console.journal
  rw [← hw] at hrunw
  rw [← hv] at hrunv
  rw [hrunw, hrunv]
  refine ⟨rfl, rfl, rfl, rfl, ?_⟩
  rw [World.output_onto, World.output_onto, houtput]

lemma unitAt (h : w.Alike v) (files : Files) (depth : Nat) (r : Reader) :
    (unitAt files depth r v).outcome = (unitAt files depth r w).outcome ∧
      (unitAt files depth r v).reader = (unitAt files depth r w).reader ∧
      (unitAt files depth r w).world.Alike (unitAt files depth r v).world := by
  obtain ⟨hreader, hworld⟩ := h.look r
  unfold Repl.unitAt
  rw [hreader]
  exact hworld.run files depth .unit _

end World.Alike

namespace Repl

/-! ### Units one after the other -/

/-- Units that succeed one after the other, with their values. -/
inductive Units (files : Files) (depth : Nat) :
    Reader → World → List Text → Reader → World → Prop
  | nil (r : Reader) (w : World) : Units files depth r w [] r w
  | cons {r r₁ r' : Reader} {w w₁ w' : World} {value : Text} {values : List Text} :
      r.rest ≠ [] → unitAt files depth r w = ⟨.ok value, r₁, w₁⟩ →
      Units files depth r₁ w₁ values r' w' → Units files depth r w (value :: values) r' w'

/-- What the loop shows for units with the given values: each value on a line of its own, behind the
prompt. -/
def transcript (values : List Text) : Text :=
  values.flatMap fun value => ">> ".toList ++ value ++ newline

variable {files : Files} {depth : Nat} {r r₁ : Reader} {w w₁ v : World}

/-- A whole script is made up of units that succeed, up to its end or to a unit that does not
succeed. -/
lemma units_of_evalBody (files : Files) (depth : Nat) (last : Text) (r : Reader) (w : World) :
    let x := evalBody files (run files depth) last r w
    ∃ values r' w', Units files (depth + 1) r w values r' w' ∧
      ((r'.rest = [] ∧ x = ⟨.ok (values.getLastD last), (look r' w').reader, (look r' w').world⟩) ∨
        (r'.rest ≠ [] ∧ x = unitAt files (depth + 1) r' w' ∧ ∀ value, x.outcome ≠ .ok value)) := by
  induction r using Reader.induction_on_rest generalizing last w with
  | step r ih =>
    by_cases hr : r.rest = []
    · refine ⟨[], r, w, .nil r w, .inl ⟨hr, ?_⟩⟩
      rw [evalBody_of_rest_eq_nil _ _ _ _ _ hr, List.getLastD_nil]
    · have hlt := length_rest_evalUnit_look_lt w (run files depth) files hr
      have hbody : evalBody files (run files depth) last r w =
          (unitAt files (depth + 1) r w).bind (evalBody files (run files depth)) :=
        evalBody_of_rest_ne_nil r w (run files depth) files last hr
      change (unitAt files (depth + 1) r w).reader.rest.length < r.rest.length at hlt
      rw [hbody]
      rcases hunit : unitAt files (depth + 1) r w with ⟨o, r₁, w₁⟩
      rw [hunit] at hlt
      cases o with
      | ok value =>
        obtain ⟨values, r', w', hunits, hend⟩ := ih r₁ hlt value w₁
        refine ⟨value :: values, r', w', .cons hr hunit hunits, ?_⟩
        rw [List.getLastD_cons]
        exact hend
      | error e => exact ⟨[], r, w, .nil r w, .inr ⟨hr, hunit.symm, nofun⟩⟩
      | unfinished => exact ⟨[], r, w, .nil r w, .inr ⟨hr, hunit.symm, nofun⟩⟩

/-! ### Units as rounds of the loop -/

lemma opened_unitAt (h : w.Open) (files : Files) (depth : Nat) (r : Reader) :
    (unitAt files depth r w).world.Open :=
  World.Open.run (Invariant.holds_look (I := .opened) h r) files depth .unit _

/-- A unit writes to the channel for the output of scripts only. -/
lemma bytes_unitAt {channel : Channel} (hc : channel ≠ .script) (files : Files) (depth : Nat)
    (r : Reader) (w : World) :
    (unitAt files depth r w).world.console.bytes channel = w.console.bytes channel := by
  have hlook : w.console.Grows (look r w).world.console :=
    Invariant.holds_look (I := .growth w.console) (.refl _) r
  exact (hlook.trans (grows_run files depth .unit _ _)).bytes_eq hc

/-- A round shows the prompt, and then its unit goes as without it. -/
lemma exists_round_eq_respond {o : Outcome Text} (h : w.Alike v) (hv : v.Open) (hr : r.rest ≠ [])
    (hunit : unitAt files depth r w = ⟨o, r₁, w₁⟩) :
    ∃ v₁, round files depth r v = respond ⟨o, r₁, v₁⟩ ∧ w₁.Alike v₁ ∧ v₁.Open ∧
      v₁.console.bytes .complaint = v.console.bytes .complaint ∧
      v₁.console.bytes .reply = v.console.bytes .reply ++ Utf8.encode prompt := by
  have hreply : Channel.reply ≠ .script := by decide
  obtain ⟨v', hemit, hopen⟩ := hv.emit hreply prompt
  have hprompt := hv.shows hreply hemit
  obtain ⟨ho, hreader, hworld⟩ := (h.of_shows hprompt hreply).unitAt files depth r
  rw [hunit] at ho hreader hworld
  refine ⟨(unitAt files depth r v').world, ?_, hworld, opened_unitAt hopen files depth r, ?_, ?_⟩
  · rw [round_of_prompt hemit hr, ← (show _ = o from ho), ← (show _ = r₁ from hreader)]
  · rw [bytes_unitAt (by decide), hprompt.bytes_of_ne (by decide)]
  · rw [bytes_unitAt hreply, hprompt.bytes_eq]

/-- A unit that succeeds is a round that shows its value. -/
lemma round_of_ok {value : Text} (h : w.Alike v) (hv : v.Open) (hr : r.rest ≠ [])
    (hunit : unitAt files depth r w = ⟨.ok value, r₁, w₁⟩) :
    ∃ v₁, round files depth r v = .next r₁ v₁ ∧ w₁.Alike v₁ ∧ v₁.Open ∧
      v₁.console.bytes .complaint = v.console.bytes .complaint ∧
      v₁.console.bytes .reply =
        v.console.bytes .reply ++ Utf8.encode (prompt ++ value ++ newline) := by
  have hne : Channel.reply ≠ .script := by decide
  obtain ⟨v₁, hround, halike, hopen, hcomplaint, hreply⟩ := exists_round_eq_respond h hv hr hunit
  obtain ⟨v₂, hemit, hopen₂⟩ := hopen.emit hne (value ++ newline)
  have hvalue := hopen.shows hne hemit
  refine ⟨v₂, ?_, halike.of_shows hvalue hne, hopen₂, ?_, ?_⟩
  · rw [hround]
    simp only [respond, hemit, goOn]
  · rw [hvalue.bytes_of_ne (by decide), hcomplaint]
  · rw [hvalue.bytes_eq, hreply]
    simp only [Utf8.encode_append, List.append_assoc]

/-- A unit that fails is a round that shows its error. -/
lemma round_of_error {e : Error} (h : w.Alike v) (hv : v.Open) (hr : r.rest ≠ [])
    (hunit : unitAt files depth r w = ⟨.error e, r₁, w₁⟩) :
    ∃ r₂ v₂, round files depth r v = .next r₂ v₂ ∧ w₁.Alike v₂ ∧
      v₂.console.bytes .complaint = v.console.bytes .complaint ++ Utf8.encode (errorLine e) := by
  have hne : Channel.complaint ≠ .script := by decide
  obtain ⟨v₁, hround, halike, hopen, hcomplaint, -⟩ := exists_round_eq_respond h hv hr hunit
  -- the rest of the failed line is discarded before the error is shown
  have hopen₁ : (skip r₁ v₁).2.Open := Invariant.holds_observe (I := .opened) hopen r₁.skipLine
  have hgrows : v₁.console.Grows (skip r₁ v₁).2.console :=
    Invariant.holds_observe (I := .growth v₁.console) (.refl _) r₁.skipLine
  obtain ⟨v₂, hemit, -⟩ := hopen₁.emit hne (errorLine e)
  have herror := hopen₁.shows hne hemit
  refine ⟨(skip r₁ v₁).1, v₂, ?_, (halike.skip r₁).of_shows herror hne, ?_⟩
  · rw [hround]
    simp only [respond, hemit, goOn]
  · rw [herror.bytes_eq, hgrows.bytes_eq hne, hcomplaint]

/-- Units that succeed one after the other are rounds that show their values. -/
lemma Units.rounds {values : List Text} {r' : Reader} {w' : World}
    (h : Units files depth r w values r' w') (halike : w.Alike v) (hv : v.Open) :
    ∃ v', Rounds files depth r v r' v' ∧ w'.Alike v' ∧ v'.Open ∧
      v'.console.bytes .complaint = v.console.bytes .complaint ∧
      v'.console.bytes .reply = v.console.bytes .reply ++ Utf8.encode (transcript values) := by
  induction h generalizing v with
  | nil r w => exact ⟨v, .refl r v, halike, hv, rfl, (List.append_nil _).symm⟩
  | cons hr hunit _ ih =>
    obtain ⟨v₁, hround, halike₁, hopen₁, hcomplaint₁, hreply₁⟩ := round_of_ok halike hv hr hunit
    obtain ⟨v', hrounds, halike', hopen', hcomplaint, hreply⟩ := ih halike₁ hopen₁
    refine ⟨v', .head hround hrounds, halike', hopen', hcomplaint.trans hcomplaint₁, ?_⟩
    rw [hreply, hreply₁, List.append_assoc, ← Utf8.encode_append]
    rfl

/-- At the end of the input the loop shows the prompt and a newline. -/
lemma loop_of_end (h : w.Alike v) (hv : v.Open) (files : Files) (depth : Nat) (hr : r.rest = []) :
    (loop files depth r v).ending = .finished ∧
      (look r w).world.Alike (loop files depth r v).world ∧
      (loop files depth r v).world.console.bytes .complaint = v.console.bytes .complaint ∧
      (loop files depth r v).world.console.bytes .reply =
        v.console.bytes .reply ++ Utf8.encode (prompt ++ newline) := by
  have hreply : Channel.reply ≠ .script := by decide
  obtain ⟨v₁, hemit, hopen₁⟩ := hv.emit hreply prompt
  have hprompt := hv.shows hreply hemit
  obtain ⟨-, halike⟩ := (h.of_shows hprompt hreply).look r
  have hopen₂ : (look r v₁).world.Open := Invariant.holds_look (I := .opened) hopen₁ r
  have hgrows : v₁.console.Grows (look r v₁).world.console :=
    Invariant.holds_look (I := .growth v₁.console) (.refl _) r
  obtain ⟨v₂, hemit', -⟩ := hopen₂.emit hreply newline
  have hnewline := hopen₂.shows hreply hemit'
  rw [loop_of_stop files depth (round_of_end hemit hr hemit')]
  refine ⟨rfl, halike.of_shows hnewline hreply, ?_, ?_⟩
  · rw [hnewline.bytes_of_ne (by decide), hgrows.bytes_eq (by decide),
      hprompt.bytes_of_ne (by decide)]
  · rw [hnewline.bytes_eq, hgrows.bytes_eq hreply, hprompt.bytes_eq, Utf8.encode_append,
      List.append_assoc]

/-- A script that succeeds as a whole succeeds in the loop, which then writes no error, shows the
value of each unit and leaves the same names and the same output; the value of the script is that of
its last unit.  If the script fails as a whole, then its error is the first one that the loop shows,
and up to that point the names and the output are those of the whole. -/
theorem loop_agrees_with_body (files : Files) (depth : Nat) (s : ByteStream) {w : World}
    (hw : w.Open) :
    let x := (run files depth).answer .body (.ofStream s) w
    let y := loop files depth (.ofStream s) w
    (s.failure? = none → x = evalText files depth (Utf8.decode s.bytes) w) ∧
    (∀ value, x.outcome = .ok value →
      y.ending = .finished ∧ x.world.Alike y.world ∧
      y.world.console.bytes .complaint = w.console.bytes .complaint ∧
      ∃ values r' w', Units files depth (.ofStream s) w values r' w' ∧ r'.rest = [] ∧
        value = values.getLastD [] ∧
        y.world.console.bytes .reply =
          w.console.bytes .reply ++ Utf8.encode (transcript values ++ ">> ".toList ++ newline)) ∧
    ∀ e, x.outcome = .error e →
      ∃ r₁ w₁ r₂ w₂, Rounds files depth (.ofStream s) w r₁ w₁ ∧
        round files depth r₁ w₁ = .next r₂ w₂ ∧ x.world.Alike w₂ ∧
        w₁.console.bytes .complaint = w.console.bytes .complaint ∧
        w₂.console.bytes .complaint =
          w.console.bytes .complaint ++
            Utf8.encode ("error: ".toList ++ e.message ++ newline) ∧
        w₂.console.bytes .complaint <+: y.world.console.bytes .complaint := by
  intro x y
  refine ⟨fun hs => ?_, ?_⟩
  · show (run files depth).answer .body (.ofStream s) w = _
    rw [ofStream_of_failure_eq_none hs]
    rfl
  cases depth with
  | zero => exact ⟨nofun, nofun⟩
  | succ depth =>
    obtain ⟨values, r', w', hunits, hend⟩ := units_of_evalBody files depth [] (.ofStream s) w
    obtain ⟨v', hrounds, halike, hopen, hcomplaint, hreply⟩ := hunits.rounds (.refl w) hw
    have hx : x = (evalBody files (run files depth) [] (.ofStream s) w).answer := rfl
    have hy : y = loop files (depth + 1) r' v' := hrounds.loop_eq
    rcases hend with ⟨hrest, hbody⟩ | ⟨hrest, hbody, hstop⟩
    · rw [hbody] at hx
      rw [hx, hy]
      refine ⟨fun value hvalue => ?_, nofun⟩
      obtain rfl := Outcome.ok.inj hvalue
      obtain ⟨hending, hworld, hcomplaint', hreply'⟩ :=
        loop_of_end halike hopen files (depth + 1) hrest
      refine ⟨hending, hworld, hcomplaint'.trans hcomplaint, values, r', w', hunits, hrest, rfl, ?_⟩
      rw [hreply', hreply, List.append_assoc, ← Utf8.encode_append, List.append_assoc, prompt]
    · refine ⟨fun value hvalue => absurd hvalue (hstop value), fun e he => ?_⟩
      rw [hbody] at hx
      rw [hx] at he ⊢
      rcases hunit : unitAt files (depth + 1) r' w' with ⟨o, r₁, w₁⟩
      rw [hunit] at he
      obtain rfl : o = .error e := he
      obtain ⟨r₂, v₂, hround, halike₂, herror⟩ := round_of_error halike hopen hrest hunit
      rw [hcomplaint] at herror
      refine ⟨r', v', r₂, v₂, hrounds, hround, halike₂, hcomplaint, herror, ?_⟩
      rw [hy, loop_of_next files _ hround]
      exact bytes_prefix_loop files _ r₂ v₂ .complaint

/-- A script with a literal over two lines, a blank line, a comment and a literal that is not
closed, and a script whose third unit fails in its middle. -/
theorem loop_beside_whole_scripts :
    let files : Files := fun _ => .error .notFound
    let w : World := ⟨.initial none, {}⟩
    let s : ByteStream :=
      ⟨[.bytes (Utf8.encode "set x \x7ba\nb\x7d\n\n# no unit\nputs $x\nset y \x7bc".toList)], none⟩
    let t : ByteStream :=
      ⟨[.bytes (Utf8.encode "puts a\nset x 1\nputs $x [nope] [set x 2]\nputs $z".toList)], none⟩
    let x := (run files 4).answer .body (.ofStream s) w
    let x' := (run files 4).answer .body (.ofStream t) w
    let y := loop files 4 (.ofStream s) w
    let y' := loop files 4 (.ofStream t) w
    w.Open ∧ x.outcome = .ok "c".toList ∧ x.world.Alike y.world ∧
      y.world.console.bytes .complaint = [] ∧
      (∃ values r' w', Units files 4 (.ofStream s) w values r' w' ∧
        "c".toList = values.getLastD [] ∧
        y.world.console.bytes .reply = Utf8.encode (transcript values ++ ">> ".toList ++ newline)) ∧
      x'.outcome = .error (.unknownCommand "nope".toList) ∧
      Utf8.encode "error: undeclared command nope\n".toList <+:
        y'.world.console.bytes .complaint := by
  intro files w s t x x' y y'
  have hw : w.Open := ⟨rfl, rfl⟩
  have hx : x.outcome = .ok "c".toList := by decide +kernel
  have hx' : x'.outcome = .error (.unknownCommand "nope".toList) := by decide +kernel
  obtain ⟨-, hok, -⟩ := loop_agrees_with_body files 4 s hw
  obtain ⟨-, -, herror⟩ := loop_agrees_with_body files 4 t hw
  obtain ⟨-, halike, hcomplaint, values, r', w', hunits, -, hvalue, hreply⟩ := hok _ hx
  obtain ⟨r₁, w₁, r₂, w₂, -, -, -, -, hline, hprefix⟩ := herror _ hx'
  rw [hline] at hprefix
  exact ⟨hw, hx, halike, hcomplaint, ⟨values, r', w', hunits, hvalue, hreply⟩, hx', hprefix⟩

end Repl
end LineScript
