/-
# Rounds of the interactive loop

The loop is a sequence of rounds.  This file says once what a round does (`round_eq_next`,
`respond_eq_next`), and what carries over from evaluation to rounds and to the whole loop.

* An invariant of evaluation that is not touched by writing holds behind every round (`holds_round`,
  `holds_loop`).
* The loop does not look at what has been written and noted before (`loop_onto`).
-/
import LineScript.Proofs.Session

namespace LineScript

/-- An input that does not fail is read as the text of its bytes. -/
lemma ofStream_of_failure_eq_none {s : ByteStream} (h : s.failure? = none) :
    Reader.ofStream s = .ofText (Utf8.decode s.bytes) := by
  obtain ⟨htext, hfault⟩ := s.decodeAll_eq
  rw [h, Option.map_eq_none_iff] at hfault
  rw [Reader.ofStream, htext, hfault]
  rfl

/-! ### What is shown -/

/-- The entries that a text makes on a channel. -/
def shown (channel : Channel) (t : Text) : List Entry :=
  (Utf8.encode t).map (.byte channel)

/-- The second world is the first one with a text shown on a channel. -/
structure World.Shows (w : World) (channel : Channel) (t : Text) (v : World) : Prop where
  scope_eq : v.scope = w.scope
  room_eq : v.console.room = w.console.room
  entries_eq : v.entries = w.entries ++ shown channel t

lemma bytesOn_shown_of_ne {channel other : Channel} (h : channel ≠ other) (t : Text) :
    bytesOn other (shown channel t) = [] := by
  simp [bytesOn, shown, h]

namespace World.Shows

variable {w v : World} {channel : Channel} {t : Text} (h : w.Shows channel t v)
include h

lemma bytes_eq : v.console.bytes channel = w.console.bytes channel ++ Utf8.encode t := by
  show bytesOn channel v.entries = _
  rw [h.entries_eq, bytesOn_append, shown, bytesOn_map_byte]
  rfl

lemma bytes_of_ne {other : Channel} (hne : channel ≠ other) :
    v.console.bytes other = w.console.bytes other := by
  show bytesOn other v.entries = _
  rw [h.entries_eq, bytesOn_append, bytesOn_shown_of_ne hne, List.append_nil]
  rfl

end World.Shows

lemma World.Open.shows {w v : World} (h : w.Open) {channel : Channel} (hc : channel ≠ .script)
    {t : Text} (hv : w.emit channel t = (true, v)) : w.Shows channel t v := by
  have hwrite := Console.write_of_on_eq_none (h.on_eq_none hc) (Utf8.encode t)
  rw [World.emit, Console.writeText, hwrite] at hv
  obtain rfl := (Prod.mk.inj hv).2
  refine ⟨rfl, rfl, ?_⟩
  simp [World.entries, shown]

/-- The channels of the loop take everything. -/
def Invariant.opened : Invariant where
  holds := World.Open
  admits _ := True
  note _ h := ⟨h.reply, h.complaint⟩
  put {w} t h := by
    obtain ⟨hreply, hcomplaint⟩ := w.console.room_write_script (Utf8.encode t)
    exact ⟨hreply.trans h.reply, hcomplaint.trans h.complaint⟩
  set _ _ h := ⟨h.reply, h.complaint⟩
  define _ _ h := ⟨h.reply, h.complaint⟩
  leave _ h := ⟨h.reply, h.complaint⟩
  admits_put _ _ _ := trivial
  admits_host _ _ _ := trivial
  admits_other _ := trivial

lemma Console.journal_suffix_write (c : Console) (channel : Channel) (bs : List UInt8) :
    c.journal <:+ (c.write channel bs).2.journal := by
  induction bs generalizing c with
  | nil => exact List.suffix_rfl
  | cons b bs ih =>
    rw [write]
    split
    · exact List.suffix_rfl
    · exact (List.suffix_cons (.byte channel b) c.journal).trans (ih ⟨_ :: c.journal, _⟩)

/-- The given entries are the oldest ones of the journal. -/
def Invariant.recorded (past : List Entry) : Invariant where
  holds w := past <:+ w.console.journal
  admits _ := True
  note _ h := h.trans (List.suffix_cons _ _)
  put _ h := h.trans (Console.journal_suffix_write _ _ _)
  set _ _ h := h
  define _ _ h := h
  leave _ h := h
  admits_put _ _ _ := trivial
  admits_host _ _ _ := trivial
  admits_other _ := trivial

namespace Repl

variable {files : Files} {depth : Nat} {r r' : Reader} {w w' : World}

/-! ### What a round does -/

lemma goOn_eq_next {x : Bool × World} (h : goOn r x = .next r' w') : r' = r ∧ x = (true, w') := by
  obtain ⟨ok, v⟩ := x
  cases ok with
  | false => exact nomatch h
  | true =>
    obtain ⟨rfl, rfl⟩ := Round.next.inj h
    exact ⟨rfl, rfl⟩

/-- The loop goes on behind a unit that succeeded or failed, once that has been shown. -/
lemma respond_eq_next {x : Run Text} (h : respond x = .next r' w') :
    (∃ value, x.outcome = .ok value ∧ r' = x.reader ∧
      x.world.emit .reply (value ++ newline) = (true, w')) ∨
    ∃ e, x.outcome = .error e ∧ r' = (skip x.reader x.world).1 ∧
      (skip x.reader x.world).2.emit .complaint (errorLine e) = (true, w') := by
  obtain ⟨o, s, v⟩ := x
  cases o with
  | ok value => exact .inl ⟨value, rfl, goOn_eq_next h⟩
  | error e => exact .inr ⟨e, rfl, goOn_eq_next h⟩
  | unfinished => exact nomatch h

/-- The unit at a reader, evaluated after a look at the reader. -/
def unitAt (files : Files) (depth : Nat) (r : Reader) (w : World) : Run Text :=
  run files depth .unit (look r w).reader (look r w).world

/-- Behind the prompt a unit is evaluated, if something is left. -/
lemma round_of_prompt (hprompt : w.emit .reply prompt = (true, w')) (hr : r.rest ≠ []) :
    round files depth r w = respond (unitAt files depth r w') := by
  have hexhausted : (look r w').exhausted = false := List.isEmpty_eq_false_iff.mpr hr
  rw [round, hprompt, unitAt]
  dsimp only
  generalize look r w' = l at hexhausted ⊢
  obtain ⟨exhausted, r₁, w₁⟩ := l
  obtain rfl : exhausted = false := hexhausted
  rfl

/-- Where nothing is left, a newline is shown behind the prompt. -/
lemma round_of_end {w₁ w₂ : World} (hprompt : w.emit .reply prompt = (true, w₁)) (hr : r.rest = [])
    (hnewline : (look r w₁).world.emit .reply newline = (true, w₂)) :
    round files depth r w = .stop .finished (look r w₁).reader w₂ := by
  have hexhausted : (look r w₁).exhausted = true := List.isEmpty_iff.mpr hr
  rw [round, hprompt]
  dsimp only
  generalize look r w₁ = l at hexhausted hnewline ⊢
  obtain ⟨exhausted, r₁, v⟩ := l
  obtain rfl : exhausted = true := hexhausted
  simp only [hnewline]

/-- A round that is followed by another one shows the prompt and evaluates a unit. -/
lemma round_eq_next (h : round files depth r w = .next r' w') :
    ∃ w₁, w.emit .reply prompt = (true, w₁) ∧ r.rest ≠ [] ∧
      respond (unitAt files depth r w₁) = .next r' w' := by
  have hne : r.rest ≠ [] := by
    intro hnil
    have hlt := length_lt_of_round h
    rw [hnil] at hlt
    exact Nat.not_lt_zero _ hlt
  rcases hemit : w.emit .reply prompt with ⟨ok, w₁⟩
  cases ok with
  | false => simp [round, hemit] at h
  | true =>
    rw [round_of_prompt hemit hne] at h
    exact ⟨w₁, rfl, hne, h⟩

variable (files depth) in
/-- Some rounds of the loop lead from one place and world to another. -/
inductive Rounds : Reader → World → Reader → World → Prop
  | refl (r : Reader) (w : World) : Rounds r w r w
  | head {r r₁ r' : Reader} {w w₁ w' : World} :
      round files depth r w = .next r₁ w₁ → Rounds r₁ w₁ r' w' → Rounds r w r' w'

/-- Another round follows. -/
def Round.isNext : Round → Bool
  | .next _ _ => true
  | .stop _ _ _ => false

/-- The reader that a round leaves. -/
def Round.reader : Round → Reader
  | .next r _ => r
  | .stop _ r _ => r

/-- The world that a round leaves. -/
def Round.world : Round → World
  | .next _ w => w
  | .stop _ _ w => w

lemma Rounds.of_isNext (h : (round files depth r w).isNext = true)
    (h' : Rounds files depth (round files depth r w).reader (round files depth r w).world r' w') :
    Rounds files depth r w r' w' := by
  refine .head ?_ h'
  cases hround : round files depth r w with
  | next r₁ w₁ => rfl
  | stop ending r₁ w₁ => simp [hround, Round.isNext] at h

lemma Rounds.loop_eq (h : Rounds files depth r w r' w') :
    loop files depth r w = loop files depth r' w' := by
  induction h with
  | refl => rfl
  | head hround _ ih => rw [loop_of_next files depth hround, ih]

/-! ### Invariants -/

lemma world_goOn (r : Reader) (x : Bool × World) : (goOn r x).world = x.2 := by
  obtain ⟨ok, w⟩ := x
  cases ok <;> rfl

section Invariants

variable {I : Invariant}
  (hemit : ∀ {w : World} (channel : Channel) (t : Text), I.holds w → I.holds (w.emit channel t).2)
include hemit

lemma holds_respond {x : Run Text} (h : I.holds x.world) : I.holds (respond x).world := by
  have hskip : I.holds (skip x.reader x.world).2 := Invariant.holds_observe h x.reader.skipLine
  unfold respond
  split
  · rw [world_goOn]
    exact hemit _ _ h
  · rw [world_goOn]
    exact hemit _ _ hskip
  · exact h

/-- What holds behind the prompt holds behind the round. -/
lemma holds_round (files : Files) (depth : Nat) (r : Reader)
    (h : I.holds (w.emit .reply prompt).2) : I.holds (round files depth r w).world := by
  unfold round
  rcases hprompt : w.emit .reply prompt with ⟨ok, w₁⟩
  rw [hprompt] at h
  cases ok with
  | false => exact h
  | true =>
    have hlook : I.holds (look r w₁).world := Invariant.holds_look h r
    dsimp only
    generalize look r w₁ = x at hlook ⊢
    obtain ⟨exhausted, r₁, w₂⟩ := x
    cases exhausted with
    | true =>
      have hend := hemit .reply newline hlook
      dsimp only
      rcases hnewline : World.emit w₂ .reply newline with ⟨ok, w₃⟩
      rw [hnewline] at hend
      cases ok <;> exact hend
    | false => exact holds_respond hemit (I.sound_run files depth .unit r₁ hlook).holds

lemma Rounds.holds (hr : Rounds files depth r w r' w') (h : I.holds w) : I.holds w' := by
  induction hr with
  | refl => exact h
  | @head r r₁ r' w w₁ w' hround _ ih =>
    have hnext := holds_round hemit files depth r (hemit .reply prompt h)
    rw [hround] at hnext
    exact ih hnext

/-- What holds behind the first prompt holds behind the loop. -/
lemma holds_loop (h : I.holds (w.emit .reply prompt).2) :
    I.holds (loop files depth r w).world := by
  induction r using Reader.induction_on_rest generalizing w with
  | step r ih =>
    have hround := holds_round hemit files depth r h
    cases hnext : round files depth r w with
    | next r' w' =>
      rw [loop_of_next files depth hnext]
      rw [hnext] at hround
      exact ih r' (length_lt_of_round hnext) (hemit .reply prompt hround)
    | stop ending r' w' =>
      rw [loop_of_stop files depth hnext]
      rwa [hnext] at hround

end Invariants

lemma Rounds.opened (h : Rounds files depth r w r' w') (hw : w.Open) : w'.Open := by
  refine h.holds (I := .opened) (fun {v} channel t hv => ?_) hw
  cases channel with
  | script => exact Invariant.opened.put t hv
  | reply =>
    obtain ⟨v', hemit, hopen⟩ := hv.emit (show Channel.reply ≠ .script by decide) t
    exact hemit ▸ hopen
  | complaint =>
    obtain ⟨v', hemit, hopen⟩ := hv.emit (show Channel.complaint ≠ .script by decide) t
    exact hemit ▸ hopen

/-- The journal of the loop starts with what was there behind the first prompt. -/
lemma entries_prefix_loop (files : Files) (depth : Nat) (r : Reader) (w : World) :
    (w.emit .reply prompt).2.entries <+: (loop files depth r w).world.entries := by
  rw [World.entries, World.entries, List.reverse_prefix]
  exact holds_loop (I := .recorded _) (fun _ _ h => h.trans (Console.journal_suffix_write _ _ _))
    List.suffix_rfl

/-- The loop takes nothing back that has been written. -/
lemma bytes_prefix_loop (files : Files) (depth : Nat) (r : Reader) (w : World) (channel : Channel) :
    w.console.bytes channel <+: (loop files depth r w).world.console.bytes channel := by
  have hprompt := w.console.bytes_write_isPrefix channel .reply (Utf8.encode prompt)
  exact hprompt.trans ((entries_prefix_loop files depth r w).filterMap _)

/-! ### The past -/

variable (past : List Entry)

/-- What a round comes to, on top of a past. -/
def Round.onto : Round → Round
  | .next r w => .next r (w.onto past)
  | .stop ending r w => .stop ending r (w.onto past)

lemma observe_onto (r : Reader) (w : World) :
    observe r (w.onto past) = ((observe r w).1, (observe r w).2.onto past) := by
  unfold observe
  split <;> rfl

lemma look_onto (r : Reader) (w : World) :
    look r (w.onto past) = { look r w with world := (look r w).world.onto past } := by
  simp only [look, observe_onto]

lemma goOn_emit_onto (r : Reader) (w : World) (channel : Channel) (t : Text) :
    goOn r ((w.onto past).emit channel t) = (goOn r (w.emit channel t)).onto past := by
  rw [World.onto_emit]
  rcases w.emit channel t with ⟨ok, v⟩
  cases ok <;> rfl

lemma respond_onto (x : Run Text) :
    respond ⟨x.outcome, x.reader, x.world.onto past⟩ = (respond x).onto past := by
  obtain ⟨o, r, w⟩ := x
  cases o with
  | ok value => exact goOn_emit_onto past r w _ _
  | error e =>
    simp only [respond, skip, observe_onto]
    exact goOn_emit_onto past _ _ _ _
  | unfinished => rfl

lemma round_onto (r : Reader) (w : World) :
    round files depth r (w.onto past) = (round files depth r w).onto past := by
  unfold round
  rw [World.onto_emit]
  rcases w.emit .reply prompt with ⟨ok, w₁⟩
  cases ok with
  | false => rfl
  | true =>
    dsimp only
    rw [look_onto]
    rcases look r w₁ with ⟨exhausted, r₁, w₂⟩
    cases exhausted with
    | true =>
      dsimp only
      rw [World.onto_emit]
      rcases w₂.emit .reply newline with ⟨ok, w₃⟩
      cases ok <;> rfl
    | false =>
      dsimp only
      rw [run_onto]
      exact respond_onto past (run files depth .unit r₁ w₂)

/-- The loop does not look at what has been written and noted before. -/
theorem loop_onto (files : Files) (depth : Nat) (r : Reader) (w : World) :
    loop files depth r (w.onto past) =
      { loop files depth r w with world := (loop files depth r w).world.onto past } := by
  induction r using Reader.induction_on_rest generalizing w with
  | step r ih =>
    have hround : round files depth r (w.onto past) = (round files depth r w).onto past :=
      round_onto past r w
    cases h : round files depth r w with
    | next r' w' =>
      rw [h] at hround
      rw [loop_of_next files depth h, loop_of_next files depth hround]
      exact ih r' (length_lt_of_round h) w'
    | stop ending r' w' =>
      rw [h] at hround
      rw [loop_of_stop files depth h, loop_of_stop files depth hround]

end Repl
end LineScript
