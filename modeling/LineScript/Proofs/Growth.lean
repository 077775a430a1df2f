/-
# What evaluation does to the console

Evaluation only ever adds to the console: it makes notes, and it writes to the channel for the
output of scripts.  `Console.Grows` is the closure of these two steps.  That the console has grown
from what it was is an invariant, so every evaluation, however it ends, is such a growth
(`grows_run`).
-/
import LineScript.Proofs.Invariant

namespace LineScript

/-- One console comes from another by making notes and writing script output. -/
inductive Console.Grows : Console → Console → Prop
  | refl (c : Console) : Grows c c
  | note {c d : Console} (n : Note) : Grows c d → Grows c (d.note n)
  | put {c d : Console} (bs : List UInt8) : Grows c d → Grows c (d.write .script bs).2

lemma Console.Grows.trans {c d e : Console} (h : c.Grows d) (h' : d.Grows e) : c.Grows e := by
  induction h' with
  | refl => exact h
  | note n _ ih => exact ih.note n
  | put bs _ ih => exact ih.put bs

open Console (Grows)

/-- The console has grown from the given one.  Nothing is said about errors. -/
def Invariant.growth (c : Console) : Invariant where
  holds w := Grows c w.console
  admits _ := True
  note n h := h.note n
  put t h := h.put (Utf8.encode t)
  set _ _ h := h
  define _ _ h := h
  leave _ h := h
  admits_put _ _ _ := trivial
  admits_host _ _ _ := trivial
  admits_other _ := trivial

/-- The evaluation only adds to the console. -/
def Evaluation.OnlyAdds (nested : Evaluation) : Prop :=
  ∀ extent r w, Grows w.console (nested extent r w).world.console

lemma Run.grows_bind {α β : Type} {c : Console} {x : Run α} {f : α → Reader → World → Run β}
    (hx : Grows c x.world.console)
    (hf : ∀ a, x.outcome = .ok a →
      Grows x.world.console (f a x.reader x.world).world.console) :
    Grows c (x.bind f).world.console := by
  have hsound : (Invariant.growth c).Sound x := ⟨hx, fun _ _ => trivial⟩
  exact (hsound.bind fun a ha => ⟨hx.trans (hf a ha), fun _ _ => trivial⟩).holds

section Commands

variable {files : Files} {nested : Evaluation} (hn : nested.OnlyAdds)
include hn

lemma Evaluation.OnlyAdds.growth (c : Console) : (Invariant.growth c).Nested nested :=
  fun extent r w h => ⟨h.trans (hn extent r w), fun _ _ => trivial⟩

lemma grows_dispatchWith (command : Text) (args : List Text) (w : World) :
    Grows w.console (dispatchWith files nested command args w).world.console :=
  (Invariant.sound_dispatchWith (hn.growth _) (Grows.refl _) command args (.ofText [])).holds

lemma grows_arguments (r : Reader) (w : World) :
    Grows w.console (arguments nested r w).world.console :=
  (Invariant.sound_arguments (hn.growth _) (Grows.refl _) r).holds

lemma grows_perform (args : List Text) (r : Reader) (w : World) :
    Grows w.console (perform nested files args r w).world.console :=
  (Invariant.sound_perform (hn.growth _) (Grows.refl _) args r).holds

lemma grows_evalBody (last : Text) (r : Reader) (w : World) :
    Grows w.console (evalBody files nested last r w).world.console :=
  (Invariant.sound_evalBody (hn.growth _) (Grows.refl _) last r).holds

end Commands

/-- Every evaluation only adds to the console. -/
theorem grows_run (files : Files) (depth : Nat) : (run files depth).OnlyAdds :=
  fun extent r w =>
    ((Invariant.growth w.console).sound_run files depth extent r (Grows.refl _)).holds

end LineScript
