/-
# Sessions with a limit

The interactive loop writes its replies and its errors to channels that may take only so many bytes.
It ends early at the first byte that one of them refuses, and nowhere else: a unit that fails is
reported, and the loop goes on.

A session with limits is compared with the same session without them.  Up to the refused byte the
two have the same journal (`Console.Within`); this goes through the evaluation of units by a
simulation, and through the loop round by round.  Where they part, the session with limits has
stopped right before a byte that would exceed a limit (`Cut`).  So what it has written is the
longest initial part, of all that the other one writes, that stays within the limits
(`limited_session_is_longest_initial`).
-/
import LineScript.Proofs.Lasting
import LineScript.Proofs.Recovery

namespace LineScript

/-! ### Bytes and limits -/

/-- The bytes of a stretch of the journal, each with its channel. -/
def written (entries : List Entry) : List (Channel × UInt8) :=
  entries.filterMap fun
    | .byte channel b => some (channel, b)
    | .note _ => none

/-- The number of bytes for a channel. -/
def amount (channel : Channel) (bytes : List (Channel × UInt8)) : Nat :=
  bytes.countP (·.1 = channel)

/-- No channel gets more bytes than it has room for. -/
def Room.Takes (room : Room) (bytes : List (Channel × UInt8)) : Prop :=
  ∀ channel n, room.on channel = some n → amount channel bytes ≤ n

/-- The longest initial part of a list that has a property. -/
structure LongestInitial {α : Type} (good : List α → Prop) (whole part : List α) : Prop where
  initial : part <+: whole
  holds : good part
  longest : ∀ l, l <+: whole → good l → l <+: part

@[simp] lemma written_append (es es' : List Entry) :
    written (es ++ es') = written es ++ written es' :=
  List.filterMap_append

@[simp] lemma written_byte (channel : Channel) (b : UInt8) :
    written [.byte channel b] = [(channel, b)] := rfl

@[simp] lemma written_note (n : Note) : written [.note n] = [] := rfl

lemma written_prefix {es es' : List Entry} (h : es <+: es') : written es <+: written es' :=
  h.filterMap _

lemma amount_concat (channel other : Channel) (bytes : List (Channel × UInt8)) (b : UInt8) :
    amount channel (bytes ++ [(other, b)]) =
      amount channel bytes + if other = channel then 1 else 0 := by
  simp [amount, List.countP_append, List.countP_cons]

lemma Room.Takes.of_prefix {room : Room} {bytes bytes' : List (Channel × UInt8)}
    (h : room.Takes bytes) (hle : bytes' <+: bytes) : room.Takes bytes' :=
  fun channel n hn => (hle.sublist.countP_le).trans (h channel n hn)

lemma Room.on_spend (room : Room) (channel other : Channel) :
    (room.spend other).on channel =
      if other = channel then (room.on channel).map (· - 1) else room.on channel := by
  cases channel <;> cases other <;> rfl

/-! ### Consoles with a limit and without -/

/-- The entries of the second journal are followed, in the first one, by a byte that exceeds the
limit. -/
structure Cut (limit : Room) (whole part : List Entry) : Prop where
  takes : limit.Takes (written part)
  next : ∃ channel b, part ++ [.byte channel b] <+: whole ∧
    ¬limit.Takes (written part ++ [(channel, b)])

lemma Cut.mono {limit : Room} {whole whole' part : List Entry} (h : Cut limit whole part)
    (hle : whole <+: whole') : Cut limit whole' part := by
  obtain ⟨channel, b, hnext, hfull⟩ := h.next
  exact ⟨h.takes, channel, b, hnext.trans hle, hfull⟩

/-- Where the journals part, the shorter one is the longest part that stays within the limit. -/
lemma Cut.longestInitial {limit : Room} {whole part : List Entry} (h : Cut limit whole part) :
    LongestInitial limit.Takes (written whole) (written part) ∧ written part ≠ written whole := by
  obtain ⟨channel, b, hnext, hfull⟩ := h.next
  have hnext : written part ++ [(channel, b)] <+: written whole := by
    simpa using written_prefix hnext
  refine ⟨⟨(List.prefix_append _ _).trans hnext, h.takes, fun l hl hgood => ?_⟩, fun heq => ?_⟩
  · -- a longer initial part would hold the byte that exceeds the limit
    rcases List.prefix_or_prefix_of_prefix hl hnext with hle | hle
    · rcases List.prefix_concat_iff.mp hle with rfl | hle
      · exact absurd hgood hfull
      · exact hle
    · exact absurd (hgood.of_prefix hle) hfull
  · have hlen := hnext.length_le
    rw [← heq, List.length_append, List.length_singleton] at hlen
    omega

namespace Console

/-- The console once a channel has taken a byte. -/
def push (c : Console) (channel : Channel) (b : UInt8) : Console :=
  ⟨.byte channel b :: c.journal, c.room.spend channel⟩

/-- What has been written, oldest first. -/
def written (c : Console) : List (Channel × UInt8) :=
  LineScript.written c.journal.reverse

@[simp] lemma written_push (c : Console) (channel : Channel) (b : UInt8) :
    (c.push channel b).written = c.written ++ [(channel, b)] := by
  simp [written, push]

@[simp] lemma written_note (c : Console) (n : Note) : (c.note n).written = c.written := by
  simp [written, note]

lemma write_cons_of_room {c : Console} {channel : Channel} (h : c.room.on channel ≠ some 0)
    (b : UInt8) (bs : List UInt8) :
    c.write channel (b :: bs) = (c.push channel b).write channel bs := by
  rw [write, if_neg h]
  rfl

/-- The two consoles show the same.  The channels of the loop take everything in the first one; in
the second one they have a limit, which has not been exceeded so far. -/
structure Within (limit : Room) (c d : Console) : Prop where
  journal_eq : d.journal = c.journal
  script_eq : d.room.on .script = c.room.on .script
  opened : ∀ channel ≠ .script, c.room.on channel = none
  room_eq : ∀ channel ≠ .script,
    d.room.on channel = (limit.on channel).map (· - amount channel c.written)
  unlimited : limit.on .script = none
  takes : limit.Takes c.written

namespace Within

variable {limit : Room} {c d : Console} (h : c.Within limit d)
include h

lemma note (n : Note) : (c.note n).Within limit (d.note n) := by
  have hjournal := congrArg (Entry.note n :: ·) h.journal_eq
  refine ⟨hjournal, h.script_eq, h.opened, ?_, h.unlimited, ?_⟩
  · rw [written_note]
    exact h.room_eq
  · rw [written_note]
    exact h.takes

/-- A channel that has room left is below its limit. -/
lemma amount_lt {channel : Channel} (hroom : d.room.on channel ≠ some 0) {n : Nat}
    (hn : limit.on channel = some n) : amount channel c.written < n := by
  have hchannel : channel ≠ .script := by
    rintro rfl
    exact nomatch h.unlimited.symm.trans hn
  have hle := h.takes channel n hn
  rw [h.room_eq channel hchannel, hn, Option.map_some, ne_eq, Option.some.injEq] at hroom
  omega

/-- A byte that the console with the limit takes leaves it within the limit. -/
lemma push {channel : Channel} (hroom : d.room.on channel ≠ some 0) (b : UInt8) :
    (c.push channel b).Within limit (d.push channel b) := by
  refine ⟨congrArg (Entry.byte channel b :: ·) h.journal_eq, ?_, ?_, ?_, h.unlimited, ?_⟩
  · simp only [Console.push, Room.on_spend, h.script_eq]
  · intro other hother
    simp only [Console.push, Room.on_spend, h.opened other hother, Option.map_none, ite_self]
  · intro other hother
    rw [written_push, amount_concat]
    simp only [Console.push, Room.on_spend, h.room_eq other hother, Option.map_map]
    split
    · exact congrArg (Option.map · _) (funext fun n => Nat.sub_sub n _ 1)
    · rfl
  · intro other n hn
    rw [written_push, amount_concat]
    by_cases heq : channel = other
    · subst heq
      rw [if_pos rfl]
      exact h.amount_lt hroom hn
    · rw [if_neg heq]
      exact h.takes other n hn

/-- A channel of the loop that has no room left has reached its limit. -/
lemma not_takes {channel : Channel} (hchannel : channel ≠ .script)
    (hfull : d.room.on channel = some 0) (b : UInt8) :
    ¬limit.Takes (c.written ++ [(channel, b)]) := by
  intro htakes
  rw [h.room_eq channel hchannel, Option.map_eq_some_iff] at hfull
  obtain ⟨n, hn, hzero⟩ := hfull
  have hle := htakes channel n hn
  rw [amount_concat, if_pos rfl] at hle
  omega

/-- Writing goes the same way on both consoles, until a channel of the loop reaches its limit. -/
lemma write (channel : Channel) (bs : List UInt8) :
    ((d.write channel bs).1 = (c.write channel bs).1 ∧
      (c.write channel bs).2.Within limit (d.write channel bs).2) ∨
    (channel ≠ .script ∧ (d.write channel bs).1 = false ∧
      Cut limit (c.write channel bs).2.journal.reverse (d.write channel bs).2.journal.reverse) := by
  induction bs generalizing c d with
  | nil => exact .inl ⟨rfl, h⟩
  | cons b bs ih =>
    by_cases hd : d.room.on channel = some 0
    · by_cases hchannel : channel = .script
      · subst hchannel
        have hc : c.room.on .script = some 0 := h.script_eq.symm.trans hd
        rw [write_cons_of_full hc, write_cons_of_full hd]
        exact .inl ⟨rfl, h⟩
      · -- the first console takes the byte that the second one refuses
        right
        rw [write_cons_of_full hd, write_of_on_eq_none (h.opened channel hchannel)]
        dsimp only
        rw [h.journal_eq]
        exact ⟨hchannel, rfl, h.takes, channel, b, by simp, h.not_takes hchannel hd b⟩
    · have hc : c.room.on channel ≠ some 0 := by
        by_cases hchannel : channel = .script
        · subst hchannel
          rwa [← h.script_eq]
        · rw [h.opened channel hchannel]
          exact nofun
      rw [write_cons_of_room hc, write_cons_of_room hd]
      exact ih (h.push hd b)

end Within
end Console

/-! ### Evaluation -/

/-- The second world is the first one with a limit for the loop. -/
structure World.Within (limit : Room) (w v : World) : Prop where
  scope_eq : w.scope = v.scope
  console : w.console.Within limit v.console

namespace World.Within

variable {limit : Room} {w v : World} (h : w.Within limit v)
include h

lemma note (n : Note) : (w.note n).Within limit (v.note n) :=
  ⟨h.scope_eq, h.console.note n⟩

lemma entries_eq : v.entries = w.entries :=
  congrArg List.reverse h.console.journal_eq

lemma emit (channel : Channel) (t : Text) :
    ((v.emit channel t).1 = (w.emit channel t).1 ∧
      (w.emit channel t).2.Within limit (v.emit channel t).2) ∨
    (channel ≠ .script ∧ (v.emit channel t).1 = false ∧
      Cut limit (w.emit channel t).2.entries (v.emit channel t).2.entries) := by
  rcases h.console.write channel (Utf8.encode t) with ⟨hok, hwithin⟩ | hcut
  · exact .inl ⟨hok, h.scope_eq, hwithin⟩
  · exact .inr hcut

end World.Within

/-- A world with a limit for the loop, and the same world without. -/
def Simulation.within (limit : Room) : Simulation where
  reads := Eq
  rel := World.Within limit
  lost _ _ _ := False
  lost_grows h _ := h
  reads_refl _ := rfl
  rest_eq h := congrArg Reader.rest h
  reads_pull := pull_of_note (World.Within limit) fun n h => h.note n
  reads_look := look_of_note (World.Within limit) fun n h => h.note n
  rel_note n h := h.note n
  rel_put t h := by
    rcases h.emit .script t with ⟨hok, hwithin⟩ | ⟨hscript, -⟩
    · exact .inl ⟨hok.symm, hwithin⟩
    · exact absurd rfl hscript
  rel_value name h := .inl (by rw [h.scope_eq])
  rel_resolve name h := .inl (by rw [h.scope_eq])
  rel_library h := by rw [h.scope_eq]
  rel_set name value h := ⟨by rw [h.scope_eq], h.console⟩
  rel_define name p h := ⟨by rw [h.scope_eq], h.console⟩
  rel_leave h h' := ⟨h.scope_eq, h'.console⟩

/-- Evaluation does not notice the limits of the loop. -/
lemma run_within {limit : Room} {w v : World} (h : w.Within limit v) (files : Files) (depth : Nat)
    (extent : Extent) (r : Reader) :
    (run files depth extent r v).outcome = (run files depth extent r w).outcome ∧
      (run files depth extent r v).reader = (run files depth extent r w).reader ∧
      (run files depth extent r w).world.Within limit (run files depth extent r v).world := by
  have hrel := (Simulation.within limit).related_run files (Nat.le_refl depth) (.inl rfl) extent
    (rfl : r = r) h
  generalize run files depth extent r w = x, run files depth extent r v = y at hrel ⊢
  cases hrel with
  | same hr hw => exact ⟨rfl, hr.symm, hw⟩
  | error hlost => exact hlost.elim
  | unfinished hlost => exact hlost.elim

/-! ### The interactive loop -/

namespace Repl

variable {limit : Room} {files : Files} {depth : Nat} {r : Reader} {w v : World}

/-- The second round, with the limit, goes like the first one, or it ends the loop at the limit. -/
inductive Round.Within (limit : Room) : Round → Round → Prop
  | next {r : Reader} {w v : World} : w.Within limit v → Within limit (.next r w) (.next r v)
  | stop {ending : Ending} {r : Reader} {w v : World} : w.Within limit v →
      Within limit (.stop ending r w) (.stop ending r v)
  | cut {x : Round} {r : Reader} {v : World} : Cut limit x.world.entries v.entries →
      Within limit x (.stop .channelFailed r v)

/-- Goes on behind what has been written, or ends the loop where a channel failed. -/
def onward (r : Reader) (f : World → Round) : Bool × World → Round
  | (true, w) => f w
  | (false, w) => .stop .channelFailed r w

/-- What a round does behind the prompt. -/
def behindPrompt (files : Files) (depth : Nat) (r : Reader) (w : World) : Round :=
  if (look r w).exhausted then
    onward (look r w).reader (.stop .finished (look r w).reader)
      ((look r w).world.emit .reply newline)
  else respond (unitAt files depth r w)

lemma goOn_eq_onward (r : Reader) (x : Bool × World) : goOn r x = onward r (.next r) x := by
  rcases x with ⟨_ | _, w⟩ <;> rfl

lemma round_eq_onward (files : Files) (depth : Nat) (r : Reader) (w : World) :
    round files depth r w = onward r (behindPrompt files depth r) (w.emit .reply prompt) := by
  rw [round]
  rcases w.emit .reply prompt with ⟨_ | _, w₁⟩
  · rfl
  · dsimp only [onward, behindPrompt, unitAt]
    rcases look r w₁ with ⟨_ | _, r₂, w₂⟩
    · rfl
    · dsimp only
      rcases w₂.emit .reply newline with ⟨_ | _, w₃⟩ <;> rfl

/-- Once something is written, the round with the limit ends there, or both rounds go on. -/
lemma within_onward (h : w.Within limit v) (r : Reader) (channel : Channel) (t : Text)
    {f : World → Round} (hf : ∀ {w v}, w.Within limit v → Round.Within limit (f w) (f v))
    (hlater : (w.emit channel t).2.entries <+: (onward r f (w.emit channel t)).world.entries) :
    Round.Within limit (onward r f (w.emit channel t)) (onward r f (v.emit channel t)) := by
  rcases h.emit channel t with ⟨hok, hwithin⟩ | ⟨-, hfail, hcut⟩
  · generalize w.emit channel t = x, v.emit channel t = y at hok hwithin ⊢
    obtain ⟨ok, w'⟩ := x
    obtain ⟨ok', v'⟩ := y
    obtain rfl : ok' = ok := hok
    cases ok' with
    | true => exact hf hwithin
    | false => exact .stop hwithin
  · generalize v.emit channel t = y at hfail hcut ⊢
    obtain ⟨ok, v'⟩ := y
    obtain rfl : ok = false := hfail
    exact .cut (hcut.mono hlater)

lemma within_goOn (h : w.Within limit v) (r : Reader) (channel : Channel) (t : Text) :
    Round.Within limit (goOn r (w.emit channel t)) (goOn r (v.emit channel t)) := by
  have hworld : (onward r (.next r) (w.emit channel t)).world = (w.emit channel t).2 := by
    rw [← goOn_eq_onward, world_goOn]
  rw [goOn_eq_onward, goOn_eq_onward]
  exact within_onward h r channel t .next ⟨[], by rw [hworld, List.append_nil]⟩

lemma within_respond {x y : Run Text} (houtcome : y.outcome = x.outcome)
    (hreader : y.reader = x.reader) (h : x.world.Within limit y.world) :
    Round.Within limit (respond x) (respond y) := by
  obtain ⟨o, r, w⟩ := x
  obtain ⟨o', r', v⟩ := y
  obtain rfl : o' = o := houtcome
  obtain rfl : r' = r := hreader
  cases o' with
  | ok value => exact within_goOn h r' .reply (value ++ newline)
  | error e =>
    obtain ⟨hskip, hwithin⟩ :=
      Simulation.observe_of_note (World.Within limit) (fun n h => h.note n) r'.skipLine h
    have hgoOn := within_goOn hwithin (observe r'.skipLine w).1 .complaint (errorLine e)
    nth_rewrite 2 [hskip] at hgoOn
    exact hgoOn
  | unfinished => exact .stop h

lemma within_behindPrompt (h : w.Within limit v) (files : Files) (depth : Nat) (r : Reader) :
    Round.Within limit (behindPrompt files depth r w) (behindPrompt files depth r v) := by
  obtain ⟨hreader, hlook⟩ :=
    Simulation.look_of_note (World.Within limit) (fun n h => h.note n) (rfl : r = r) h
  rw [behindPrompt, behindPrompt, exhausted_look, exhausted_look, ← hreader]
  split
  · refine within_onward hlook _ .reply newline .stop ?_
    rcases (look r w).world.emit .reply newline with ⟨_ | _, w'⟩ <;> exact List.prefix_refl _
  · obtain ⟨houtcome, hr, hrun⟩ := run_within hlook files depth .unit (look r w).reader
    rw [unitAt, unitAt, ← hreader]
    exact within_respond houtcome hr hrun

/-- What has been shown behind the prompt is not taken back in the round. -/
lemma entries_prefix_round (files : Files) (depth : Nat) (r : Reader) (w : World) :
    (w.emit .reply prompt).2.entries <+: (round files depth r w).world.entries := by
  rw [World.entries, World.entries, List.reverse_prefix]
  exact holds_round (I := .recorded _) (fun _ _ h => h.trans (Console.journal_suffix_write _ _ _))
    files depth r List.suffix_rfl

lemma within_round (h : w.Within limit v) (files : Files) (depth : Nat) (r : Reader) :
    Round.Within limit (round files depth r w) (round files depth r v) := by
  have hlater := entries_prefix_round files depth r w
  rw [round_eq_onward] at hlater
  rw [round_eq_onward, round_eq_onward]
  exact within_onward h r .reply prompt (within_behindPrompt · files depth r) hlater

lemma entries_prefix_loop_of_start (files : Files) (depth : Nat) (r : Reader) (w : World) :
    w.entries <+: (loop files depth r w).world.entries := by
  refine .trans ?_ (entries_prefix_loop files depth r w)
  rw [World.entries, World.entries, List.reverse_prefix]
  exact Console.journal_suffix_write w.console .reply (Utf8.encode prompt)

/-- The session with the limit goes like the one without, or it ends at the limit. -/
lemma within_loop (h : w.Within limit v) (files : Files) (depth : Nat) (r : Reader) :
    ((loop files depth r v).ending = (loop files depth r w).ending ∧
      (loop files depth r w).world.Within limit (loop files depth r v).world) ∨
    ((loop files depth r v).ending = .channelFailed ∧
      Cut limit (loop files depth r w).world.entries (loop files depth r v).world.entries) := by
  induction r using Reader.induction_on_rest generalizing w v with
  | step r ih =>
    have hround := within_round h files depth r
    generalize hx : round files depth r w = x, hy : round files depth r v = y at hround
    cases hround with
    | next hwithin =>
      rw [loop_of_next files depth hx, loop_of_next files depth hy]
      exact ih _ (length_lt_of_round hx) hwithin
    | stop hwithin =>
      rw [loop_of_stop files depth hx, loop_of_stop files depth hy]
      exact .inl ⟨rfl, hwithin⟩
    | cut hcut =>
      -- the session without the limit may go on, but it takes nothing back
      rw [loop_of_stop files depth hy]
      refine .inr ⟨rfl, hcut.mono ?_⟩
      cases x with
      | next r' w' =>
        rw [loop_of_next files depth hx]
        exact entries_prefix_loop_of_start files depth r' w'
      | stop ending r' w' =>
        rw [loop_of_stop files depth hx]
        exact List.prefix_refl _

/-! ### How the loop ends -/

lemma respond_of_open {x : Run Text} (h : x.world.Open) (hend : x.outcome ≠ .unfinished) :
    ∃ r' w', respond x = .next r' w' ∧ w'.Open := by
  obtain ⟨o, r, w⟩ := x
  cases o with
  | ok value =>
    obtain ⟨v, hemit, hopen⟩ := h.emit (show Channel.reply ≠ .script by decide) (value ++ newline)
    exact ⟨r, v, congrArg (goOn r) hemit, hopen⟩
  | error e =>
    have hskip : (skip r w).2.Open := Invariant.holds_observe (I := .opened) h r.skipLine
    obtain ⟨v, hemit, hopen⟩ :=
      hskip.emit (show Channel.complaint ≠ .script by decide) (errorLine e)
    exact ⟨_, v, congrArg (goOn (skip r w).1) hemit, hopen⟩
  | unfinished => exact absurd rfl hend

/-- Without limits the loop uses up its input, unless it comes to a unit that does not end. -/
lemma ending_loop_of_open (files : Files) (depth : Nat) (r : Reader) (hw : w.Open) :
    (loop files depth r w).ending = .finished ∨
      (loop files depth r w).ending = .unfinished ∧
        ∃ x, UnitRun files depth r w x ∧ x.outcome = .unfinished := by
  induction r using Reader.induction_on_rest generalizing w with
  | step r ih =>
    obtain ⟨w₁, hprompt, hopen⟩ := hw.emit (show Channel.reply ≠ .script by decide) prompt
    have hlook : (look r w₁).world.Open := Invariant.holds_look (I := .opened) hopen r
    by_cases hr : r.rest = []
    · obtain ⟨w₂, hnewline, -⟩ := hlook.emit (show Channel.reply ≠ .script by decide) newline
      rw [loop_of_stop files depth (round_of_end hprompt hr hnewline)]
      exact .inl rfl
    have hround : round files depth r w = respond (unitAt files depth r w₁) :=
      round_of_prompt hprompt hr
    have hunit : UnitRun files depth r w (unitAt files depth r w₁) := .here hprompt hr
    by_cases hend : (unitAt files depth r w₁).outcome = .unfinished
    · rw [respond, hend] at hround
      rw [loop_of_stop files depth hround]
      exact .inr ⟨rfl, _, hunit, hend⟩
    · obtain ⟨r', w', hnext, hopen'⟩ := respond_of_open (hlook.run files depth .unit _) hend
      have hround' : round files depth r w = .next r' w' := hround.trans hnext
      rw [loop_of_next files depth hround']
      rcases ih r' (length_lt_of_round hround') hopen' with hfin | ⟨hunf, x, hx, hxend⟩
      · exact .inl hfin
      · exact .inr ⟨hunf, x, .later hround' hx, hxend⟩

variable (files depth) in
/-- The loop ends with the given result after so many rounds, each of which takes characters from
the input, and one last round. -/
inductive EndsAfter : Nat → Reader → World → Result → Prop
  | stop {ending : Ending} {r r' : Reader} {w w' : World} :
      round files depth r w = .stop ending r' w' → EndsAfter 0 r w ⟨ending, r', w'⟩
  | next {n : Nat} {taken : Text} {r r' : Reader} {w w' : World} {x : Result} :
      round files depth r w = .next r' w' → taken ≠ [] → r.rest = taken ++ r'.rest →
      EndsAfter n r' w' x → EndsAfter (n + 1) r w x

/-- The loop has no more rounds that are followed by others than its input has characters. -/
lemma endsAfter_loop (files : Files) (depth : Nat) (r : Reader) (w : World) :
    ∃ n ≤ r.rest.length, EndsAfter files depth n r w (loop files depth r w) := by
  induction r using Reader.induction_on_rest generalizing w with
  | step r ih =>
    cases hround : round files depth r w with
    | stop ending r' w' =>
      rw [loop_of_stop files depth hround]
      exact ⟨0, Nat.zero_le _, .stop hround⟩
    | next r' w' =>
      have hlt := length_lt_of_round hround
      obtain ⟨n, hn, hends⟩ := ih r' hlt w'
      obtain ⟨taken, htaken⟩ := suffix_of_round hround
      rw [loop_of_next files depth hround]
      refine ⟨n + 1, Nat.lt_of_le_of_lt hn hlt, .next hround ?_ htaken.symm hends⟩
      rintro rfl
      exact Nat.lt_irrefl _ (htaken ▸ hlt)

/-! ### Limited sessions -/

/-- At the start nothing has been written, so the limit is all the room there is. -/
lemma within_withRoom {w : World} (hw : w.console.journal = []) (reply complaint : Option Nat) :
    (w.withRoom none none).Within { reply, complaint } (w.withRoom reply complaint) := by
  have hnone : (w.withRoom none none).console.written = [] := by
    show written w.console.journal.reverse = []
    rw [hw]
    rfl
  refine ⟨rfl, rfl, rfl, ?_, ?_, rfl, ?_⟩
  · rintro (_ | _ | _) h
    · exact absurd rfl h
    · rfl
    · rfl
  · rw [hnone]
    rintro (_ | _ | _) h
    · exact absurd rfl h
    · exact Option.map_id'.symm
    · exact Option.map_id'.symm
  · rw [hnone]
    exact fun _ _ _ => Nat.zero_le _

/-- What the two sessions have in common, if nothing has been written before. -/
lemma longestInitial_loop {w : World} (hw : w.console.journal = []) (files : Files) (depth : Nat)
    (r : Reader) (reply complaint : Option Nat) :
    let full := loop files depth r (w.withRoom none none)
    let limited := loop files depth r (w.withRoom reply complaint)
    LongestInitial (Room.Takes { reply, complaint }) (written full.world.entries)
        (written limited.world.entries) ∧
      (limited.ending = .channelFailed ↔
        written limited.world.entries ≠ written full.world.entries) ∧
      (limited.ending ≠ .channelFailed →
        limited.ending = full.ending ∧ limited.world.scope = full.world.scope) := by
  intro full limited
  rcases within_loop (within_withRoom hw reply complaint) files depth r with
    ⟨hsame, hwithin⟩ | ⟨hfailed, hcut⟩
  · have hopen : full.ending ≠ .channelFailed := by
      rcases ending_loop_of_open files depth r (w := w.withRoom none none) ⟨rfl, rfl⟩ with
        hend | ⟨hend, -⟩
      · exact hend ▸ nofun
      · exact hend ▸ nofun
    have hentries : limited.world.entries = full.world.entries := hwithin.entries_eq
    rw [hentries]
    refine ⟨⟨List.prefix_refl _, hwithin.console.takes, fun l hl _ => hl⟩, ?_, ?_⟩
    · exact ⟨fun h => absurd (hsame.symm.trans h) hopen, fun h => absurd rfl h⟩
    · exact fun _ => ⟨hsame, hwithin.scope_eq.symm⟩
  · obtain ⟨hlongest, hproper⟩ := hcut.longestInitial
    exact ⟨hlongest, ⟨fun _ => hproper, fun _ => hfailed⟩, fun h => absurd hfailed h⟩

/-- The session with limits writes the longest initial part, of all that it would write without
them, in which neither channel exceeds its limit.  It ends with a failed channel just if it would
have written more, and otherwise it ends in the same way and leaves the same names; if its units
end, that is when the input is used up.  In every case it ends, since every round that is followed
by another one takes characters from the input. -/
theorem limited_session_is_longest_initial (files : Files) (depth : Nat) (r : Reader) (w : World)
    (reply complaint : Option Nat) :
    let full := loop files depth r (w.withRoom none none)
    let limited := loop files depth r (w.withRoom reply complaint)
    (∃ whole part, full.world.entries = w.entries ++ whole ∧
      limited.world.entries = w.entries ++ part ∧
      LongestInitial (Room.Takes { reply, complaint }) (written whole) (written part) ∧
      (limited.ending = .channelFailed ↔ written part ≠ written whole)) ∧
    (limited.ending ≠ .channelFailed →
      limited.ending = full.ending ∧ limited.world.scope = full.world.scope) ∧
    ((∀ x, UnitRun files depth r (w.withRoom none none) x → x.outcome ≠ .unfinished) →
      full.ending = .finished) ∧
    ∃ n ≤ r.rest.length, EndsAfter files depth n r (w.withRoom reply complaint) limited := by
  intro full limited
  -- the loop does not look at what has been written before, so let that be nothing
  let x := loop files depth r (w.cleared.withRoom none none)
  let y := loop files depth r (w.cleared.withRoom reply complaint)
  have hfull : full = { x with world := x.world.onto w.console.journal } :=
    loop_onto w.console.journal files depth r (w.cleared.withRoom none none)
  have hlimited : limited = { y with world := y.world.onto w.console.journal } :=
    loop_onto w.console.journal files depth r (w.cleared.withRoom reply complaint)
  obtain ⟨hlongest, hfailed, hsame⟩ :=
    longestInitial_loop (w := w.cleared) rfl files depth r reply complaint
  refine ⟨⟨x.world.entries, y.world.entries, ?_, ?_, hlongest, ?_⟩, ?_, ?_,
    endsAfter_loop files depth r _⟩
  · rw [hfull]
    exact World.entries_onto x.world w.console.journal
  · rw [hlimited]
    exact World.entries_onto y.world w.console.journal
  · rw [hlimited]
    exact hfailed
  · rw [hfull, hlimited]
    exact hsame
  · intro hends
    rcases ending_loop_of_open files depth r (w := w.withRoom none none) ⟨rfl, rfl⟩ with
      hend | ⟨-, u, hu, hunfinished⟩
    · exact hend
    · exact absurd hunfinished (hends u hu)

/-- An error for which there is not enough room ends the session in the middle of its line. -/
theorem session_cut_in_error_line :
    let files : Files := fun _ => .error .notFound
    let r : Reader := .ofText "puts a\nnope\nputs b\n".toList
    let w : World := ⟨.initial none, {}⟩
    let full := loop files 1 r (w.withRoom none none)
    let limited := loop files 1 r (w.withRoom none (some 10))
    LongestInitial (Room.Takes { complaint := some 10 }) (written full.world.entries)
        (written limited.world.entries) ∧
      full.ending = .finished ∧ limited.ending = .channelFailed ∧
      limited.world.console.bytes .script = Utf8.encode "a\n".toList ∧
      limited.world.console.bytes .reply = Utf8.encode ">> \n>> ".toList ∧
      limited.world.console.bytes .complaint = Utf8.encode "error: und".toList := by
  intro files r w full limited
  obtain ⟨⟨whole, part, hwhole, hpart, hlongest, -⟩, -⟩ :=
    limited_session_is_longest_initial files 1 r w none (some 10)
  obtain rfl : full.world.entries = whole := hwhole
  obtain rfl : limited.world.entries = part := hpart
  exact ⟨hlongest, by decide +kernel, by decide +kernel, by decide +kernel, by decide +kernel,
    by decide +kernel⟩

end Repl
end LineScript
