/-
# Input that comes in parts

The interactive loop looks at its input no further than it has to.  Behind a unit that has not met
the end of its input, nothing that follows has been looked at (`eq_ofText_of_round`), and so the
unit goes the same way whatever follows (`round_followedBy`).

Hence, if a first part of the input is used up by units that do not meet its end, then the loop over
the whole input is the loop over the first part and then the loop over the second one
(`loop_over_parts`), whether the second part goes on, ends, or fails.
-/
import LineScript.Proofs.Lookahead
import LineScript.Proofs.Rounds
import LineScript.Proofs.Stream

namespace LineScript

/-! ### Behind a token -/

/-- Part of a line is under way, or the end has been met, or nothing that follows has been looked
at. -/
def Reader.Stopped (r : Reader) : Prop :=
  r.midLine = true ∨ r.metEnd = true ∨ r.looked = false

lemma lex_stopped (cs : Text) :
    (lex cs).token.any (· ≠ newline) = true ∨ ((lex cs).rest = [] ∧ (lex cs).looked = true) ∨
      (lex cs).looked = false := by
  induction cs using Text.induction_on_length with
  | nil => exact .inr (.inl ⟨rfl, rfl⟩)
  | cons c cs ih =>
    cases hr : role c with
    | solo =>
      rw [lex_of_solo cs hr]
      exact .inr (.inr rfl)
    | brace =>
      -- only a literal that is not closed looks at the end
      rw [lex_of_brace cs hr]
      simp only [Piece.toLexeme, literal]
      cases cs.dropWhile (· ≠ '}') with
      | nil => exact .inr (.inl ⟨rfl, rfl⟩)
      | cons d rest => exact .inr (.inr rfl)
    | hash =>
      rw [lex_of_hash cs hr]
      exact ih _ (length_skipComment_le cs)
    | blank =>
      rw [lex_of_blank cs hr]
      exact ih cs (Nat.le_refl _)
    | null =>
      rw [lex_of_null cs hr]
      exact ih cs (Nat.le_refl _)
    | plain =>
      have hne : c :: (word cs).text ≠ newline := by
        intro h
        obtain rfl : c = '\n' := (List.cons.inj h).1
        exact absurd hr (by decide)
      rw [lex_of_plain cs hr]
      exact .inl (by simpa using hne)

section Stopped

variable (r : Reader) (w : World) (nested : Evaluation)

lemma stopped_pull : (pull r w).reader.Stopped := by
  have hlooked : (pull r w).reader.looked = (lex r.rest).looked := by
    unfold pull observe
    dsimp only
    split <;> rfl
  unfold Reader.Stopped
  rw [midLine_pull, Reader.metEnd_iff, rest_pull, hlooked]
  exact lex_stopped r.rest

lemma stopped_collect (depth : Nat) : (collect depth r w).reader.Stopped := by
  induction r using Reader.induction_on_rest generalizing depth w with
  | step r ih =>
    have hpull := stopped_pull r w
    rw [collect_eq]
    split
    · exact hpull
    · rename_i t ht
      split
      · exact hpull
      · exact ih _ (length_rest_pull_lt ht) _ _

lemma stopped_argument (t : Text) (h : r.Stopped) : (argument nested t r w).reader.Stopped := by
  unfold argument
  split
  · split <;> exact h
  · split
    · have hcollect := stopped_collect r w 0
      unfold evalBlock
      dsimp only
      split <;> exact hcollect
    · exact h

lemma stopped_arguments : (arguments nested r w).reader.Stopped := by
  induction r using Reader.induction_on_rest generalizing w with
  | step r ih =>
    have hpull := stopped_pull r w
    rw [arguments_eq]
    split
    · exact hpull
    · rename_i t ht
      have hlt := length_rest_pull_lt ht
      split
      · exact ih _ hlt _
      split
      · exact hpull
      · have harg := stopped_argument _ (pull r w).world nested t hpull
        have hle := length_rest_argument_le nested t (pull r w).reader (pull r w).world
        generalize argument nested t (pull r w).reader (pull r w).world = x at harg hle ⊢
        obtain ⟨o, r₁, w₁⟩ := x
        cases o with
        | ok value => exact ih r₁ (Nat.lt_of_le_of_lt hle hlt) w₁
        | error e => exact harg
        | unfinished => exact harg

/-- No line is under way behind a unit that has been read to its end. -/
lemma midLine_arguments {args : List Text} (h : (arguments nested r w).outcome = .ok args) :
    (arguments nested r w).reader.midLine = false := by
  induction r using Reader.induction_on_rest generalizing w args with
  | step r ih =>
    have hmid : (pull r w).reader.midLine = (pull r w).token.any (· ≠ newline) := midLine_pull r w
    rw [arguments_eq] at h ⊢
    split
    · rename_i ht
      rw [hmid, ht]
      rfl
    · rename_i t ht
      rw [ht] at h
      have hlt := length_rest_pull_lt ht
      dsimp only at h
      split_ifs at h ⊢ with hnil hnl
      · exact ih _ hlt _ h
      · rw [hmid, ht, hnl]
        rfl
      · obtain ⟨value, -, hbind⟩ := Run.ok_of_bind h
        rw [hbind] at h ⊢
        obtain ⟨rest, hrest⟩ := Run.ok_of_map h
        have hle := length_rest_argument_le nested t (pull r w).reader (pull r w).world
        exact ih _ (Nat.lt_of_le_of_lt hle hlt) _ hrest

/-- Where a unit has ended, at its end or with an error. -/
lemma stopped_run_unit (files : Files) (depth : Nat)
    (h : (run files depth .unit r w).outcome ≠ .unfinished) :
    (run files depth .unit r w).reader.Stopped ∧
      ∀ value, (run files depth .unit r w).outcome = .ok value →
        (run files depth .unit r w).reader.midLine = false := by
  cases depth with
  | zero => exact absurd rfl h
  | succ depth =>
    show (evalUnit files (run files depth) r w).reader.Stopped ∧
      ∀ value, (evalUnit files (run files depth) r w).outcome = .ok value →
        (evalUnit files (run files depth) r w).reader.midLine = false
    rw [reader_evalUnit]
    refine ⟨stopped_arguments r w _, fun value hv => ?_⟩
    rw [evalUnit_eq] at hv
    obtain ⟨args, hargs, -⟩ := Run.ok_of_bind hv
    exact midLine_arguments r w _ hargs

/-- With the rest of the line under way discarded, nothing that follows has been looked at, unless
the end has been met. -/
lemma looked_skipLine {r : Reader} (h : r.Stopped) (hend : r.skipLine.metEnd = false) :
    r.skipLine.looked = false := by
  cases hm : r.midLine with
  | true =>
    cases hs : skipComment r.rest with
    | nil => simp [Reader.skipLine, Reader.metEnd, hm, hs] at hend
    | cons c rest => simp [Reader.skipLine, hm, hs]
  | false =>
    rw [Reader.skipLine_of_not_midLine hm] at hend ⊢
    rcases h with hmid | hmet | hlooked
    · exact absurd (hm.symm.trans hmid) Bool.false_ne_true
    · exact absurd (hend.symm.trans hmet) Bool.false_ne_true
    · exact hlooked

end Stopped

/-! ### Rounds of the loop -/

namespace Repl

variable {files : Files} {depth : Nat} {r r' : Reader} {w w' : World}

/-- What a round does whose input does not fail. -/
lemma round_eq_next_of_fault_eq_none (hr : r.fault = none)
    (h : round files depth r w = .next r' w') :
    ∃ w₁, w.emit .reply prompt = (true, w₁) ∧ r.rest ≠ [] ∧
      respond (run files depth .unit r.isExhausted.2 w₁) = .next r' w' := by
  obtain ⟨w₁, hprompt, hne, hrespond⟩ := round_eq_next h
  rw [unitAt, look_of_fault_eq_none w₁ hr] at hrespond
  exact ⟨w₁, hprompt, hne, hrespond⟩

/-- No reader of an input that does not fail comes to a failure. -/
lemma fault_run_unit (hr : r.fault = none) (w : World) :
    (run files depth .unit r w).reader.fault = none := by
  have hnone : CutsSome [] none := nofun
  exact (continued_run_unit [] hnone hr w files depth).fault_eq

/-- Behind a round that has not met the end of the input, the loop is at the start of what is left:
nothing of it has been looked at, and no line is under way. -/
lemma eq_ofText_of_round (hr : r.fault = none) (h : round files depth r w = .next r' w')
    (hend : r'.metEnd = false) : r' = .ofText r'.rest := by
  obtain ⟨w₁, -, -, hrespond⟩ := round_eq_next_of_fault_eq_none hr h
  have hfault : (run files depth .unit r.isExhausted.2 w₁).reader.fault = none :=
    fault_run_unit (r := r.isExhausted.2) hr w₁
  have hstopped := stopped_run_unit r.isExhausted.2 w₁ files depth
  generalize run files depth .unit r.isExhausted.2 w₁ = x at hrespond hfault hstopped
  have key : r'.fault = none ∧ r'.midLine = false ∧ r'.looked = false := by
    rcases respond_eq_next hrespond with ⟨value, ho, rfl, -⟩ | ⟨e, ho, hskip, -⟩
    · obtain ⟨hstop, hmid⟩ := hstopped (by rw [ho]; exact nofun)
      have hskip := Reader.skipLine_of_not_midLine (hmid value ho)
      have hlooked := looked_skipLine hstop (hskip.symm ▸ hend)
      rw [hskip] at hlooked
      exact ⟨hfault, hmid value ho, hlooked⟩
    · obtain ⟨hstop, -⟩ := hstopped (by rw [ho]; exact nofun)
      have hnone : x.reader.skipLine.fault = none := (fault_skipLine _).trans hfault
      rw [skip, observe_of_fault_eq_none _ hnone] at hskip
      subst hskip
      exact ⟨hnone, x.reader.midLine_skipLine, looked_skipLine hstop hend⟩
  obtain ⟨rest, looked, midLine, fault⟩ := r'
  obtain ⟨rfl, rfl, rfl⟩ := key
  rfl

variable {b : Text} {fault : Option ByteStream.Fault} (hf : CutsSome b fault)
include hf

lemma look_followedBy (hr : r.rest ≠ []) (w : World) :
    look (r.followedBy b fault) w = ⟨false, r.isExhausted.2.followedBy b fault, w⟩ := by
  have hend : r.isExhausted.2.metEnd = false := Reader.metEnd_eq_false_iff.mpr (.inl hr)
  have hexhausted : (r.followedBy b fault).isExhausted
      = (false, r.isExhausted.2.followedBy b fault) := by
    have hne : (r.rest ++ b).isEmpty = false := by simp [hr]
    simp only [Reader.isExhausted, Reader.followedBy, hne]
  simp only [look, hexhausted, observe_followedBy hf hend]

/-- What came of a unit is shown in the same way whatever follows. -/
lemma respond_followedBy {text : Text} {x y : Run Text} (hx : Continued text b fault r x y)
    (hr : r.Placed text) (h : respond x = .next r' w') (hend : r'.metEnd = false) :
    respond y = .next (r'.followedBy b fault) w' ∧ r'.Placed text := by
  obtain ⟨o, s, v⟩ := x
  rcases respond_eq_next h with ⟨value, ho, rfl, hemit⟩ | ⟨e, ho, rfl, hemit⟩
  · obtain rfl : o = .ok value := ho
    rw [hx.same hend]
    simp only [respond, hemit, goOn]
    exact ⟨trivial, hx.placed hr⟩
  · obtain rfl : o = .error e := ho
    have hskip := continued_skip text hf hx.fault_eq v
    have hmet : s.metEnd = false := by
      by_contra hmet
      rw [Bool.not_eq_false] at hmet
      exact Bool.false_ne_true (hend.symm.trans (hskip.met hmet))
    have hsame := hskip.same hend
    have hreader : (skip (s.followedBy b fault) v).1 = (skip s v).1.followedBy b fault :=
      congrArg Run.reader hsame
    have hworld : (skip (s.followedBy b fault) v).2 = (skip s v).2 := congrArg Run.world hsame
    rw [hx.same hmet]
    simp only [respond, hreader, hworld, hemit, goOn]
    exact ⟨trivial, hskip.placed (hx.placed hr)⟩

/-- A round that does not meet the end of the input goes the same way whatever follows. -/
lemma round_followedBy (hr : r.fault = none) (h : round files depth r w = .next r' w')
    (hend : r'.metEnd = false) :
    round files depth (r.followedBy b fault) w = .next (r'.followedBy b fault) w' ∧
      r'.Placed r.rest := by
  obtain ⟨w₁, hprompt, hne, hrespond⟩ := round_eq_next_of_fault_eq_none hr h
  have hplaced : r.isExhausted.2.Placed r.rest := ⟨List.suffix_rfl, nofun⟩
  have hunit := continued_run_unit r.rest hf (r := r.isExhausted.2) hr w₁ files depth
  rw [round, hprompt]
  simp only [look_followedBy hf hne]
  exact respond_followedBy hf hunit hplaced hrespond hend

omit hf in
/-- Only the last round can meet the end of the input. -/
lemma Rounds.metEnd_eq_false (h : Rounds files depth r w r' w') (hend : r'.metEnd = false) :
    r.metEnd = false := by
  cases h with
  | refl => exact hend
  | head hround _ =>
    obtain ⟨-, -, hne, -⟩ := round_eq_next hround
    exact Reader.metEnd_eq_false_iff.mpr (.inl hne)

/-- Rounds that do not meet the end of the input go the same way whatever follows, and end at the
start of what is left. -/
lemma Rounds.followedBy (h : Rounds files depth r w r' w') (hr : r = .ofText r.rest)
    (hend : r'.metEnd = false) :
    Rounds files depth (r.followedBy b fault) w (r'.followedBy b fault) w' ∧
      r' = .ofText r'.rest ∧ (r' = r ∨ BehindDelimiter r.rest r'.rest) := by
  induction h with
  | refl => exact ⟨.refl _ _, hr, .inl rfl⟩
  | @head r r₁ r' w w₁ w' hround hrounds ih =>
    have hfault : r.fault = none := by rw [hr]; rfl
    have hend₁ := hrounds.metEnd_eq_false hend
    have htext := eq_ofText_of_round hfault hround hend₁
    obtain ⟨hfirst, hplaced⟩ := round_followedBy hf hfault hround hend₁
    obtain ⟨hlater, htext', hbehind⟩ := ih htext hend
    refine ⟨.head hfirst hlater, htext', .inr ?_⟩
    rcases hbehind with rfl | hbehind
    · exact hplaced.behind (by rw [htext]; rfl)
    · exact hbehind.of_suffix hplaced.suffix

end Repl

/-! ### Streams in two parts -/

/-- The stream is the first stream, which does not fail, followed by the second one; it does not
matter in which fills the bytes come. -/
structure ByteStream.Joins (u s t : ByteStream) : Prop where
  failure_first : s.failure? = none
  bytes_eq : u.bytes = s.bytes ++ t.bytes
  failure_eq : u.failure? = t.failure?

/-- A failure that cuts a character short comes behind at least that character. -/
lemma cutsSome_decodeAll (s : ByteStream) : CutsSome s.decodeAll.text s.decodeAll.fault := by
  intro f hf hcut
  rw [s.fault_decodeAll, Option.mem_def, Option.map_eq_some_iff] at hf
  obtain ⟨reason, -, rfl⟩ := hf
  rw [s.decodeAll_eq.1]
  intro hnil
  have hlast := Utf8.getLast?_decode_of_endsCut hcut
  rw [hnil] at hlast
  exact nomatch hlast

/-- Bytes do not end in the middle of a character if their text is empty or ends with a
delimiter. -/
lemma endsCut_of_behindDelimiter {bs : List UInt8}
    (h : Utf8.decode bs = [] ∨ BehindDelimiter (Utf8.decode bs) []) : Utf8.endsCut bs = false := by
  by_contra hcut
  rw [Bool.not_eq_false] at hcut
  have hlast := Utf8.getLast?_decode_of_endsCut hcut
  rcases h with hnil | ⟨front, c, htext, hc⟩
  · rw [hnil] at hlast
    exact nomatch hlast
  · rw [htext, List.getLast?_concat] at hlast
    obtain rfl := Option.some.inj hlast
    exact absurd hc (by decide)

/-- If the first part does not end in the middle of a character, the characters of the second part
follow those of the first one. -/
lemma ofStream_of_joins {u s t : ByteStream} (h : u.Joins s t)
    (hcut : Utf8.endsCut s.bytes = false) :
    Reader.ofStream u =
      (Reader.ofStream s).followedBy t.decodeAll.text t.decodeAll.fault := by
  have htext : u.decodeAll.text = s.decodeAll.text ++ t.decodeAll.text := by
    rw [u.decodeAll_eq.1, s.decodeAll_eq.1, t.decodeAll_eq.1, h.bytes_eq,
      Utf8.decode_append (.inl hcut)]
  have hfault : u.decodeAll.fault = t.decodeAll.fault := by
    rw [u.fault_decodeAll, t.fault_decodeAll, h.failure_eq, h.bytes_eq,
      Utf8.endsCut_append hcut]
  rw [Reader.ofStream, htext, hfault]
  rfl

namespace Repl

variable {files : Files} {depth : Nat} {r r' : Reader} {w w' : World}

/-- A result of the loop composed of two: what the first one shows, less the newline at the end of
its input, and then what the second one shows, less its first prompt `>> `.  All else is as in the
second one. -/
structure Result.Composed (z x y : Result) : Prop where
  finished : x.ending = .finished
  entries : ∃ events more, x.world.entries = events ++ shown .reply newline ∧
    y.world.entries = shown .reply ">> ".toList ++ more ∧ z.world.entries = events ++ more
  ending_eq : z.ending = y.ending
  scope_eq : z.world.scope = y.world.scope
  room_eq : z.world.console.room = y.world.console.room

/-- The loop that finds more input, compared with the loop that finds the end. -/
lemma composed_of_end (files : Files) (depth : Nat) (r : Reader) (hw : w.Open) :
    let x := loop files depth (.ofText []) w
    (loop files depth r w).Composed x (loop files depth r x.world.cleared) := by
  intro x
  have hreply : Channel.reply ≠ .script := by decide
  obtain ⟨w₁, hprompt, hopen⟩ := hw.emit hreply prompt
  obtain ⟨w₂, hnewline, -⟩ := hopen.emit hreply newline
  have hshows₁ := hw.shows hreply hprompt
  have hshows₂ := hopen.shows hreply hnewline
  have hsummary : x.summary = (.finished, w₂) := by
    show (loop files depth (.ofText []) w).summary = _
    rw [loop_of_rest_eq_nil files depth hw rfl rfl, session, ← prompt, hprompt, hnewline]
  obtain ⟨hfinished, hworld⟩ := Prod.mk.inj hsummary
  have hcleared : x.world.cleared = w.cleared := by
    rw [hworld]
    simp only [World.cleared, hshows₂.scope_eq, hshows₂.room_eq, hshows₁.scope_eq, hshows₁.room_eq]
  -- without its past, the loop starts with the prompt
  obtain ⟨v, hv, -⟩ := World.Open.emit (w := w.cleared) ⟨hw.reply, hw.complaint⟩ hreply prompt
  have hshows := World.Open.shows (w := w.cleared) ⟨hw.reply, hw.complaint⟩ hreply hv
  have hstart := entries_prefix_loop files depth r w.cleared
  rw [hv, hshows.entries_eq] at hstart
  obtain ⟨more, hmore⟩ := hstart
  have honto := loop_onto w.console.journal files depth r w.cleared
  rw [World.cleared_onto] at honto
  rw [hcleared, honto]
  refine ⟨hfinished, ⟨w₁.entries, more, ?_, hmore.symm, ?_⟩, rfl, rfl, rfl⟩
  · rw [hworld, hshows₂.entries_eq]
  · rw [World.entries_onto, ← hmore, hshows₁.entries_eq, ← List.append_assoc]
    rfl

/-- Rounds go one way: if some of them lead to the end of the input, then from every place on the
way the others do. -/
lemma Rounds.of_rest_eq_nil {r₁ : Reader} {w₁ : World} (h₁ : Rounds files depth r w r₁ w₁)
    (h : Rounds files depth r w r' w') (hrest : r'.rest = []) :
    Rounds files depth r₁ w₁ r' w' := by
  induction h₁ with
  | refl => exact h
  | head hround _ ih =>
    cases h with
    | refl =>
      obtain ⟨-, -, hne, -⟩ := round_eq_next hround
      exact absurd hrest hne
    | head hround' h =>
      obtain ⟨rfl, rfl⟩ := Round.next.inj (hround.symm.trans hround')
      exact ih h

/-- The characters of the whole input, if the first part is used up. -/
lemma ofStream_of_rounds {u s t : ByteStream} (hu : u.Joins s t)
    (h : Rounds files depth (.ofStream s) w r' w') (hrest : r'.rest = [])
    (hend : r'.metEnd = false) :
    Reader.ofStream u = (Reader.ofStream s).followedBy t.decodeAll.text t.decodeAll.fault := by
  have hs := ofStream_of_failure_eq_none hu.failure_first
  rw [hs] at h
  obtain ⟨-, -, hbehind⟩ := h.followedBy (cutsSome_decodeAll t) rfl hend
  refine ofStream_of_joins hu (endsCut_of_behindDelimiter ?_)
  rw [hrest] at hbehind
  refine hbehind.imp_left fun heq => ?_
  rw [heq] at hrest
  exact hrest

/-- Rounds over the first part that do not meet its end are rounds over the whole input. -/
lemma Rounds.over_whole {u s t : ByteStream} (hs : s.failure? = none)
    (hu : Reader.ofStream u = (Reader.ofStream s).followedBy t.decodeAll.text t.decodeAll.fault)
    (h : Rounds files depth (.ofStream s) w r' w') (hend : r'.metEnd = false) :
    r' = .ofText r'.rest ∧ Rounds files depth (.ofStream u) w
      (r'.followedBy t.decodeAll.text t.decodeAll.fault) w' := by
  have hstart : Reader.ofStream s = .ofText (Reader.ofStream s).rest := by
    rw [ofStream_of_failure_eq_none hs]
    rfl
  obtain ⟨hwhole, hplace, -⟩ := h.followedBy (cutsSome_decodeAll t) hstart hend
  rw [← hu] at hwhole
  exact ⟨hplace, hwhole⟩

/-- If units that do not meet the end of their input use up a first part of the input, then the loop
over the whole input is composed of the loop over the first part and the loop over the second one,
in the world that the first part has left.  To every place to which the units of the first part
lead, the loop over the whole input comes too, in the same world, and nothing behind that place has
been looked at by then. -/
theorem loop_over_parts {u s t : ByteStream} (hu : u.Joins s t) (hw : w.Open)
    (hrounds : Rounds files depth (.ofStream s) w r' w') (hrest : r'.rest = [])
    (hend : r'.metEnd = false) :
    let x := loop files depth (.ofStream s) w
    let y := loop files depth (.ofStream t) x.world.cleared
    (loop files depth (.ofStream u) w).Composed x y ∧
      ∀ r₁ w₁, Rounds files depth (.ofStream s) w r₁ w₁ → r₁.looked = false ∧
        Rounds files depth (.ofStream u) w
          (r₁.followedBy t.decodeAll.text t.decodeAll.fault) w₁ := by
  intro x y
  have hjoin := ofStream_of_rounds hu hrounds hrest hend
  obtain ⟨hplace, hwhole⟩ := hrounds.over_whole hu.failure_first hjoin hend
  rw [hrest] at hplace
  subst hplace
  have hx : x = loop files depth (.ofText []) w' := hrounds.loop_eq
  have hz : loop files depth (.ofStream u) w = loop files depth (.ofStream t) w' := hwhole.loop_eq
  have hcomposed := composed_of_end files depth (.ofStream t) (hrounds.opened hw)
  rw [← hx, ← hz] at hcomposed
  refine ⟨hcomposed, fun r₁ w₁ h₁ => ?_⟩
  have hend₁ := (h₁.of_rest_eq_nil hrounds hrest).metEnd_eq_false hend
  obtain ⟨hplace₁, hwhole₁⟩ := h₁.over_whole hu.failure_first hjoin hend₁
  exact ⟨by rw [hplace₁]; rfl, hwhole₁⟩

/-- An input whose first part has a literal and a block over two lines, a line that fails in its
middle and one that fails at its command.  The second part fails in the middle of a line. -/
theorem second_part_fails :
    let files : Files := fun _ => .error .notFound
    let first := Utf8.encode "set x \x7bé\n\x7d\n$y [set z 5]\nnope [\n] # [\n".toList
    let second := Utf8.encode "puts $x\nputs $".toList
    let reason := "read failed".toList
    let s : ByteStream := ⟨[.bytes first], none⟩
    let t : ByteStream := ⟨[.bytes second, .failure reason, .bytes first], none⟩
    let u : ByteStream := ⟨[.bytes (first.take 8), .interrupted, .bytes (first.drop 8 ++ second),
      .failure reason], none⟩
    let w : World := ⟨.initial none, {}⟩
    let x := loop files 5 (.ofStream s) w
    let z := loop files 5 (.ofStream u) w
    u.Joins s t ∧ w.Open ∧
      (∃ r' w', Rounds files 5 (.ofStream s) w r' w' ∧ r'.rest = [] ∧ r'.metEnd = false ∧
        r'.looked = false ∧ Rounds files 5 (.ofStream u) w
          (r'.followedBy t.decodeAll.text t.decodeAll.fault) w') ∧
      z.Composed x (loop files 5 (.ofStream t) x.world.cleared) ∧
      bytesOn .script z.world.entries = Utf8.encode "é\n\n".toList ∧
      z.world.scope.values.get? "z".toList = none := by
  intro files first second reason s t u w x z
  have hu : u.Joins s t := ⟨rfl, by decide +kernel, rfl⟩
  have hw : w.Open := ⟨rfl, rfl⟩
  let x₁ := round files 5 (.ofStream s) w
  let x₂ := round files 5 x₁.reader x₁.world
  let x₃ := round files 5 x₂.reader x₂.world
  have hrounds : Rounds files 5 (.ofStream s) w x₃.reader x₃.world :=
    .of_isNext (by decide +kernel) (.of_isNext (by decide +kernel)
      (.of_isNext (by decide +kernel) (.refl _ _)))
  have hrest : x₃.reader.rest = [] := by decide +kernel
  have hend : x₃.reader.metEnd = false := by decide +kernel
  obtain ⟨hcomposed, hplaces⟩ := loop_over_parts hu hw hrounds hrest hend
  obtain ⟨hlooked, hwhole⟩ := hplaces _ _ hrounds
  exact ⟨hu, hw, ⟨_, _, hrounds, hrest, hend, hlooked, hwhole⟩, hcomposed, by decide +kernel,
    by decide +kernel⟩

end Repl

end LineScript
