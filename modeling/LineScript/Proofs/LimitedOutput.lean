/-
# Output with a limit

The channel for the output of scripts may take only so many bytes.  An evaluation that writes no
more than that does not notice.  Any other ends at the first byte that does not fit, with an error
that goes through all blocks, calls and loaded scripts; what it has written then is what fits of the
output that it would have written without a limit (`limited_output_is_initial`).

The two evaluations, with the limit and without, are compared by a simulation, in which the one with
the limit is lost at that byte.
-/
import LineScript.Proofs.Output

namespace LineScript

/-- No primitive is a function of the host program. -/
def Namespace.BuiltinsOnly (n : Namespace) : Prop :=
  ∀ name p, n.primitives.get? name = some p → ∃ b, p = .builtin b

lemma Namespace.BuiltinsOnly.register {n : Namespace} (h : n.BuiltinsOnly) (name : Text)
    (b : Builtin) : (n.register name (.builtin b)).BuiltinsOnly := by
  intro other p hp
  change (n.primitives.insert name (.builtin b)).get? other = some p at hp
  rw [Table.get?_insert] at hp
  split at hp
  · exact ⟨b, (Option.some.inj hp).symm⟩
  · exact h other p hp

lemma Namespace.builtinsOnly_initial (library : Option Text) :
    (initial library).BuiltinsOnly := by
  have hall : ∀ (bs : List Builtin) (n : Namespace), n.BuiltinsOnly →
      (bs.foldl (fun n b => n.register b.name (.builtin b)) n).BuiltinsOnly := by
    intro bs
    induction bs with
    | nil => exact fun _ h => h
    | cons b bs ih => exact fun n h => ih _ (h.register b.name b)
  exact hall Builtin.all { library } fun _ _ hp => nomatch hp

/-! ### Without a limit -/

/-- Where script output has no limit and no primitive is a function of the host program, output does
not fail. -/
def Invariant.unlimited : Invariant where
  holds w := w.console.room.script = none ∧ w.scope.BuiltinsOnly
  admits e := ∀ reason, e ≠ .outputFailed reason
  note _ h := h
  put {w} t h := by
    have hroom := ((Console.Grows.refl w.console).put (Utf8.encode t)).room_eq h.1
    exact ⟨(congrArg Room.script hroom).trans h.1, h.2⟩
  set _ _ h := h
  define _ _ h := h
  leave h h' := ⟨h'.1, h.2⟩
  admits_put {w} t h hfail := by
    have hon : w.console.room.on .script = none := h.1
    change (w.console.write .script (Utf8.encode t)).1 = false at hfail
    rw [Console.write_of_on_eq_none hon] at hfail
    exact nomatch hfail
  admits_host {w name f args e} h hp _ := by
    obtain ⟨b, hb⟩ := h.2 name _ (Namespace.resolve_eq_primitive_iff.mp hp).2
    exact nomatch hb
  admits_other h := h

/-! ### With a limit and without -/

/-- The console with room for so many bytes of script output. -/
def Console.limited (c : Console) (room : Nat) : Console :=
  { c with room := { c.room with script := some room } }

/-- The world with room for so many bytes of script output. -/
def World.limited (w : World) (room : Nat) : World :=
  { w with console := w.console.limited room }

namespace Console

variable {c : Console} (h : c.room.script = none) {room : Nat} {bs : List UInt8}
include h

/-- Bytes that fit are written as without a limit. -/
lemma limited_write_of_le (hle : bs.length ≤ room) :
    (c.limited room).write .script bs =
      (true, (c.write .script bs).2.limited (room - bs.length)) := by
  induction bs generalizing c room with
  | nil => rfl
  | cons b bs ih =>
    obtain ⟨k, rfl⟩ : ∃ k, room = k + 1 := ⟨room - 1, by simp at hle; omega⟩
    have hon : c.room.on .script = none := h
    have hlen : k + 1 - (b :: bs).length = k - bs.length := by simp
    rw [write, if_neg (by simp [limited, Room.on]), write, if_neg (by simp [hon]),
      Room.spend_of_on_eq_none hon, hlen]
    exact ih (c := ⟨.byte .script b :: c.journal, c.room⟩) h (Nat.le_of_succ_le_succ hle)

/-- Of bytes that do not fit, those are written that do. -/
lemma limited_write_of_lt (hlt : room < bs.length) :
    (c.limited room).write .script bs =
      (false, (c.write .script (bs.take room)).2.limited 0) := by
  have hlen : (bs.take room).length = room := by simp; omega
  have htake := limited_write_of_le h (Nat.le_of_eq hlen)
  rw [hlen, Nat.sub_self] at htake
  obtain ⟨b, more, hmore⟩ : ∃ b more, bs.drop room = b :: more :=
    List.exists_cons_of_ne_nil (by simp; omega)
  have hfull : (((c.write .script (bs.take room)).2.limited 0).room.on .script) = some 0 := rfl
  conv_lhs => rw [← List.take_append_drop room bs, write_append, htake, hmore]
  exact write_cons_of_full hfull b more

end Console

namespace World

variable {w : World} (h : w.console.room.script = none) {room : Nat} {t : Text}
include h

lemma output_emit_of_unlimited : (w.emit .script t).2.output = w.output ++ Utf8.encode t := by
  have hon : w.console.room.on .script = none := h
  exact Console.bytes_write_of_on_eq_none hon (Utf8.encode t)

/-- A text that fits is written as without a limit. -/
lemma limited_emit_of_le (hle : (Utf8.encode t).length ≤ room) :
    (w.limited room).emit .script t =
      (true, (w.emit .script t).2.limited (room - (Utf8.encode t).length)) := by
  have hwrite := Console.limited_write_of_le h hle
  simp only [emit, limited, Console.writeText, hwrite]

/-- A text that does not fit fails, once all that fits of it is written. -/
lemma limited_emit_of_lt (hlt : room < (Utf8.encode t).length) :
    ((w.limited room).emit .script t).1 = false ∧
      ((w.limited room).emit .script t).2.output = w.output ++ (Utf8.encode t).take room := by
  have hon : w.console.room.on .script = none := h
  have hwrite := Console.limited_write_of_lt h hlt
  simp only [emit, limited, Console.writeText, hwrite, true_and]
  exact Console.bytes_write_of_on_eq_none hon ((Utf8.encode t).take room)

end World

/-- The first world has the same names and the same journal as the second one, and room for what is
missing to so many bytes of script output. -/
structure World.Fits (total : Nat) (w w' : World) : Prop where
  unlimited : w'.console.room.script = none
  le : w'.output.length ≤ total
  eq : w = w'.limited (total - w'.output.length)

namespace World.Fits

variable {total : Nat} {w w' : World}

lemma scope_eq (h : Fits total w w') : w.scope = w'.scope := by
  rw [h.eq]
  rfl

lemma output_eq (h : Fits total w w') : w.output = w'.output := by
  rw [h.eq]
  rfl

lemma note (h : Fits total w w') (n : Note) : Fits total (w.note n) (w'.note n) := by
  have hout : (w'.note n).output = w'.output := w'.console.bytes_note .script n
  refine ⟨h.unlimited, hout ▸ h.le, ?_⟩
  rw [hout, h.eq]
  rfl

/-- What does not depend on the console is done in both worlds alike. -/
lemma withScope (h : Fits total w w') (n : Namespace) :
    Fits total { w with scope := n } { w' with scope := n } :=
  ⟨h.unlimited, h.le, by rw [h.eq]; rfl⟩

/-- A text that fits is written to both worlds. -/
lemma emit_of_le (h : Fits total w w') {t : Text}
    (hle : w'.output.length + (Utf8.encode t).length ≤ total) :
    (w.emit .script t).1 = (w'.emit .script t).1 ∧
      Fits total (w.emit .script t).2 (w'.emit .script t).2 := by
  have hon : w'.console.room.on .script = none := h.unlimited
  have hwrite : w'.console.writeText .script t = _ := Console.write_of_on_eq_none hon _
  have hok : (w'.emit .script t).1 = true := congrArg Prod.fst hwrite
  have hroom : (w'.emit .script t).2.console.room = w'.console.room := congrArg (·.2.room) hwrite
  have hlen : (w'.emit .script t).2.output.length
      = w'.output.length + (Utf8.encode t).length := by
    rw [output_emit_of_unlimited h.unlimited, List.length_append]
  rw [h.eq, limited_emit_of_le h.unlimited (by omega), hok]
  refine ⟨rfl, (congrArg Room.script hroom).trans h.unlimited, hlen ▸ hle, ?_⟩
  rw [hlen, Nat.sub_add_eq]

/-- A text that does not fit fails in the first world, which then holds all that fits. -/
lemma emit_of_lt (h : Fits total w w') {t : Text}
    (hlt : total < w'.output.length + (Utf8.encode t).length) :
    (w.emit .script t).1 = false ∧
      (w.emit .script t).2.output = (w'.emit .script t).2.output.take total := by
  have hle := h.le
  obtain ⟨hfail, hout⟩ := limited_emit_of_lt h.unlimited
    (show total - w'.output.length < (Utf8.encode t).length by omega)
  rw [h.eq, output_emit_of_unlimited h.unlimited, List.take_append, List.take_of_length_le hle]
  exact ⟨hfail, hout⟩

end World.Fits

/-- An evaluation with a limit on script output, and one without: the first is lost once the second
has written more than the limit. -/
def Simulation.limited (total : Nat) : Simulation where
  reads := Eq
  rel := World.Fits total
  lost stop c d := stop = some (.outputFailed Console.fullReason) ∧
    total < (d.bytes .script).length ∧ c.bytes .script = (d.bytes .script).take total
  lost_grows {_ _ d d'} h hg := by
    obtain ⟨hstop, hlt, htake⟩ := h
    obtain ⟨more, hmore⟩ := hg.bytes_isPrefix .script
    refine ⟨hstop, ?_, ?_⟩
    · rw [← hmore, List.length_append]
      omega
    · rw [htake, ← hmore, List.take_append_of_le_length (Nat.le_of_lt hlt)]
  reads_refl _ := rfl
  rest_eq h := congrArg Reader.rest h
  reads_pull := pull_of_note _ fun n h => h.note n
  reads_look := look_of_note _ fun n h => h.note n
  rel_note n h := h.note n
  rel_put {w w'} t h := by
    by_cases hle : w'.output.length + (Utf8.encode t).length ≤ total
    · exact .inl (h.emit_of_le hle)
    · obtain ⟨hfail, htake⟩ := h.emit_of_lt (Nat.lt_of_not_le hle)
      refine .inr ⟨hfail, rfl, ?_, htake⟩
      change total < (w'.emit .script t).2.output.length
      rw [World.output_emit_of_unlimited h.unlimited, List.length_append]
      omega
  rel_value name h := .inl (by rw [h.scope_eq])
  rel_resolve name h := .inl (by rw [h.scope_eq])
  rel_library h := by rw [h.scope_eq]
  rel_set name value h := by
    rw [h.scope_eq]
    exact h.withScope _
  rel_define name p h := by
    rw [h.scope_eq]
    exact h.withScope _
  rel_leave h h' := by
    rw [h.scope_eq]
    exact h'.withScope _

/-- Either all that is written fits, and the limit makes no difference, or the evaluation with the
limit ends where the limit is reached. -/
lemma World.Fits.answer {total : Nat} {w w' : World} (h : Fits total w w') (files : Files)
    (depth : Nat) (q : Request) :
    let limited := q.answer files depth w
    let full := q.answer files depth w'
    (limited.outcome = full.outcome ∧ Fits total limited.world full.world) ∨
      (limited.outcome = .error (.outputFailed Console.fullReason) ∧
        total < full.world.output.length ∧
        limited.world.output = full.world.output.take total) := by
  intro limited full
  rcases (Simulation.limited total).answer_cases files depth q h with
    ⟨ho, hw⟩ | ⟨e, he, hstop, hlt, htake⟩ | ⟨-, hstop, -⟩
  · exact .inl ⟨ho.symm, hw⟩
  · obtain rfl := Option.some.inj hstop
    exact .inr ⟨he, hlt, htake⟩
  · exact nomatch hstop

/-- Without a limit, output does not fail.  With a limit, all is the same if no more is written than
fits; otherwise the evaluation ends because output fails, and what it has written is exactly what
fits.  This holds for all that can be asked for, with any number of levels. -/
theorem limited_output_is_initial (files : Files) (depth : Nat) (q : Request) (limit : Nat)
    {w : World} (hscope : w.scope.BuiltinsOnly) (hroom : w.console.room.script = none) :
    let full := q.answer files depth w
    let limited := q.answer files depth (w.limited limit)
    (∀ reason, full.outcome ≠ .error (.outputFailed reason)) ∧
      ∃ written, full.world.output = w.output ++ written ∧
        (written.length ≤ limit →
          limited.outcome = full.outcome ∧ limited.world.scope = full.world.scope ∧
            limited.world.output = w.output ++ written) ∧
        (limit < written.length →
          limited.outcome = .error (.outputFailed Console.fullReason) ∧
            limited.world.output = w.output ++ written.take limit) := by
  intro full limited
  have hsound := Invariant.unlimited.sound_answer files depth q ⟨hroom, hscope⟩
  refine ⟨fun reason hfail => hsound.admits _ hfail reason rfl, ?_⟩
  obtain ⟨written, hwritten⟩ := (grows_answer files depth q w).bytes_isPrefix .script
  have hout : full.world.output = w.output ++ written := hwritten.symm
  refine ⟨written, hout, ?_⟩
  have hfits : World.Fits (w.output.length + limit) (w.limited limit) w :=
    ⟨hroom, Nat.le_add_right _ _, by rw [Nat.add_sub_cancel_left]⟩
  have hlen : full.world.output.length = w.output.length + written.length := by
    rw [hout, List.length_append]
  rcases hfits.answer files depth q with ⟨ho, hw⟩ | ⟨ho, hlt, htake⟩
  · have hle : full.world.output.length ≤ w.output.length + limit := hw.le
    refine ⟨fun _ => ⟨ho, hw.scope_eq, hw.output_eq.trans hout⟩, fun hlt => ?_⟩
    omega
  · have hlt' : w.output.length + limit < full.world.output.length := hlt
    refine ⟨fun hle => ?_, fun _ => ⟨ho, ?_⟩⟩
    · omega
    · rw [htake, hout, List.take_append, Nat.add_sub_cancel_left,
        List.take_of_length_le (Nat.le_add_right _ _)]

/-- A limit that ends output between two bytes that a procedure writes, in a block. -/
theorem output_cut_in_procedure :
    let files : Files := fun _ => .error .notFound
    let q : Request :=
      .text "proc f \x7bx\x7d \x7bputs $x\x7d\nset y [puts [f 123]]\nset z 1".toList
    let w : World := ⟨.initial none, {}⟩
    let full := q.answer files 4 w
    let limited := q.answer files 4 (w.limited 2)
    w.scope.BuiltinsOnly ∧ w.console.room.script = none ∧
      full.outcome = .ok "1".toList ∧ full.world.output = Utf8.encode "123\n\n".toList ∧
      limited.world.output = Utf8.encode "12".toList ∧
      (∀ reason, full.outcome ≠ .error (.outputFailed reason)) ∧
      ∃ written, full.world.output = w.output ++ written ∧
        (written.length ≤ 2 →
          limited.outcome = full.outcome ∧ limited.world.scope = full.world.scope ∧
            limited.world.output = w.output ++ written) ∧
        (2 < written.length →
          limited.outcome = .error (.outputFailed Console.fullReason) ∧
            limited.world.output = w.output ++ written.take 2) := by
  intro files q w full limited
  have hscope : w.scope.BuiltinsOnly := Namespace.builtinsOnly_initial none
  exact ⟨hscope, rfl, by decide +kernel, by decide +kernel, by decide +kernel,
    limited_output_is_initial files 4 q 2 hscope rfl⟩

end LineScript
