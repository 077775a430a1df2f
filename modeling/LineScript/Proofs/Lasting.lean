/-
# What scripts cannot take away

A script can bind names and write output, but it can neither unbind a name nor take back what was
written, and it does not touch the primitives and the library directory at all.  `World.KeptIn`
collects what is kept.  It is an invariant of evaluation, and the rounds of the interactive loop
keep it too, whether their units succeed or fail; so it holds along every sequence of operations
(`operations_take_nothing_away`).
-/
import LineScript.Proofs.Rounds

namespace LineScript

/-- What scripts cannot take away from the first world is still there in the second one. -/
structure World.KeptIn (w v : World) : Prop where
  primitives_eq : v.scope.primitives = w.scope.primitives
  library_eq : v.scope.library = w.scope.library
  values : ∀ name, w.scope.values.get? name ≠ none → v.scope.values.get? name ≠ none
  procedures : ∀ name, w.scope.procedures.get? name ≠ none → v.scope.procedures.get? name ≠ none
  output : w.output <+: v.output

lemma Table.get?_insert_ne_none {α : Type} {t : Table α} {other : Text}
    (h : t.get? other ≠ none) (name : Text) (a : α) : (t.insert name a).get? other ≠ none := by
  rw [get?_insert]
  split
  · exact nofun
  · exact h

namespace World.KeptIn

variable {w v : World}

lemma refl (w : World) : w.KeptIn w :=
  ⟨rfl, rfl, fun _ h => h, fun _ h => h, List.prefix_refl _⟩

lemma trans {u : World} (h : w.KeptIn v) (h' : v.KeptIn u) : w.KeptIn u where
  primitives_eq := h'.primitives_eq.trans h.primitives_eq
  library_eq := h'.library_eq.trans h.library_eq
  values name hw := h'.values name (h.values name hw)
  procedures name hw := h'.procedures name (h.procedures name hw)
  output := h.output.trans h'.output

/-- What only writes keeps everything. -/
lemma of_bytes {c : Console} (h : w.KeptIn v) (hc : v.output <+: c.bytes .script) :
    w.KeptIn { v with console := c } :=
  ⟨h.primitives_eq, h.library_eq, h.values, h.procedures, h.output.trans hc⟩

lemma emit (h : w.KeptIn v) (channel : Channel) (t : Text) : w.KeptIn (v.emit channel t).2 :=
  h.of_bytes (Console.bytes_write_isPrefix _ _ _ _)

lemma note (h : w.KeptIn v) (n : Note) : w.KeptIn (v.note n) := by
  refine h.of_bytes ?_
  rw [Console.bytes_note]
  exact List.prefix_refl _

end World.KeptIn

/-- All is kept that was there at the start. -/
def Invariant.kept (w : World) : Invariant where
  holds := w.KeptIn
  admits _ := True
  note n h := h.note n
  put t h := h.emit .script t
  set name value h := ⟨h.primitives_eq, h.library_eq,
    fun other hw => Table.get?_insert_ne_none (h.values other hw) name value,
    h.procedures, h.output⟩
  define name p h := ⟨h.primitives_eq, h.library_eq, h.values,
    fun other hw => Table.get?_insert_ne_none (h.procedures other hw) name p, h.output⟩
  leave h h' := ⟨h.primitives_eq, h.library_eq, h.values, h.procedures, h'.output⟩
  admits_put _ _ _ := trivial
  admits_host _ _ _ := trivial
  admits_other _ := trivial

/-! ### The interactive loop -/

namespace Repl

/-- The loop takes nothing away, whatever its input. -/
lemma kept_loop (files : Files) (depth : Nat) (r : Reader) (w : World) :
    w.KeptIn (loop files depth r w).world :=
  holds_loop (I := .kept w) (fun channel t h => h.emit channel t) ((World.KeptIn.refl w).emit _ _)

end Repl

/-! ### Sequences of operations -/

/-- An operation on a world, with the files there are at that time and so many levels of nesting. -/
inductive Operation where
  /-- An evaluation. -/
  | request (files : Files) (depth : Nat) (q : Request)
  /-- The interactive loop over an input, with so much room for replies and for errors. -/
  | session (files : Files) (depth : Nat) (input : ByteStream) (reply complaint : Option Nat)

/-- The world with so much room for the replies and the errors of the interactive loop. -/
def World.withRoom (w : World) (reply complaint : Option Nat) : World :=
  { w with console := { w.console with room := { w.console.room with reply, complaint } } }

/-- The world that an operation leaves, however it ends. -/
def Operation.world : Operation → World → World
  | request files depth q, w => (q.answer files depth w).world
  | session files depth input reply complaint, w =>
    (Repl.loop files depth (.ofStream input) (w.withRoom reply complaint)).world

/-- The world that a sequence of operations leaves. -/
def operate (ops : List Operation) (w : World) : World :=
  ops.foldl (fun w op => op.world w) w

lemma kept_operation (op : Operation) (w : World) : w.KeptIn (op.world w) := by
  cases op with
  | request files depth q => exact ((Invariant.kept w).sound_answer files depth q (.refl w)).holds
  | session files depth input reply complaint =>
    have hroom : w.KeptIn (w.withRoom reply complaint) :=
      (World.KeptIn.refl w).of_bytes (List.prefix_refl _)
    exact hroom.trans (Repl.kept_loop files depth _ _)

lemma kept_operate (ops : List Operation) (w : World) : w.KeptIn (operate ops w) := by
  induction ops generalizing w with
  | nil => exact .refl w
  | cons op ops ih => exact (kept_operation op w).trans (ih (op.world w))

/-- No sequence of operations, whether they succeed or fail, changes the primitives or the library
directory, unbinds a variable or a procedure, or takes back output.  So a command that once means a
procedure never means its primitive again. -/
theorem operations_take_nothing_away (ops : List Operation) (w : World) :
    w.KeptIn (operate ops w) ∧
      ∀ name p, w.scope.resolve name = .procedure p →
        ∃ p', (operate ops w).scope.resolve name = .procedure p' := by
  have hkept := kept_operate ops w
  refine ⟨hkept, fun name p hp => ?_⟩
  rw [Namespace.resolve_eq_procedure_iff] at hp
  have hbound := hkept.procedures name (by rw [hp]; exact nofun)
  obtain ⟨p', hp'⟩ := Option.ne_none_iff_exists'.mp hbound
  exact ⟨p', Namespace.resolve_eq_procedure_iff.mpr hp'⟩

end LineScript
