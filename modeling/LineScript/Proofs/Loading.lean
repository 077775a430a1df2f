/-
# Loading is evaluating in place

A script file is read as a stream of bytes, in fills, while it is being evaluated.  All the same it
comes to what its decoded text comes to when that is evaluated where the file is loaded
(`load_evaluates_in_place`): a reader over the stream has the characters of that text
(`rest_ofStream_stream`), and neither the notes on opened files nor a failure of the input make a
difference to scripts (`run_alike`).

Which text that is, is said by `scriptNamed` without going through a list of paths and notes.
-/
import LineScript.Proofs.Agreement
import LineScript.Proofs.InputFailure
import LineScript.Proofs.Stream

namespace LineScript

/-! ### The text of a file -/

/-- The script that an opened file holds.  A directory holds no characters. -/
def Content.script : Content → Text
  | file bytes => Utf8.decode bytes
  | directory => []

/-- The script that a name stands for: that of the file with this name or, if that cannot be opened,
of the file with this name in the library directory. -/
def scriptNamed (files : Files) (name : Text) (library : Option Text) : Option Text :=
  match files name, library with
  | .ok content, _ => some content.script
  | .error _, none => none
  | .error _, some dir =>
    match files (joinPath dir name) with
    | .ok content => some content.script
    | .error _ => none

lemma Fill.shows_cut (n : Nat) (bs : List UInt8) : Shows bs (cut n bs) := by
  fun_induction cut n bs with
  | case1 => exact .nil
  | case2 bs h hpos ih =>
    have hne : bs.take (max n 1) ≠ [] := by
      intro hnil
      rcases List.take_eq_nil_iff.mp hnil with hzero | hnil
      · omega
      · exact h hnil
    have hshows := Shows.bytes hne ih
    rwa [List.take_append_drop] at hshows

/-- A reader of an opened file has the characters of its script before it. -/
lemma rest_ofStream_stream (content : Content) :
    (Reader.ofStream content.stream).rest = content.script := by
  have htext : (Reader.ofStream content.stream).rest = Utf8.decode content.stream.bytes :=
    content.stream.decodeAll_eq.1
  rw [htext]
  cases content with
  | file bytes =>
    have hbytes := (Fill.shows_cut Content.bufferSize bytes).before_append []
    rw [List.append_nil, Fill.before, List.append_nil] at hbytes
    exact congrArg Utf8.decode hbytes
  | directory => exact Utf8.decode_nil

/-- The first path that can be opened leads to the script that the name stands for. -/
lemma map_script_findScript (files : Files) (name : Text) (library : Option Text) :
    (findScript files name library).2.map (·.2.script) = scriptNamed files name library := by
  cases hname : files name with
  | ok content => simp [findScript, candidates, openFirst, scriptNamed, hname]
  | error cause =>
    cases library with
    | none => simp [findScript, candidates, openFirst, scriptNamed, hname]
    | some dir =>
      cases hdir : files (joinPath dir name) <;>
        simp [findScript, candidates, openFirst, scriptNamed, hname, hdir]

/-! ### What makes no difference to scripts -/

lemma World.output_quiet (w : World) : w.quiet.output = w.output := by
  simp only [output, Console.bytes, bytesOn, quiet, Console.quiet, ← List.filter_reverse,
    List.filterMap_filter]
  congr 1
  funext e
  rcases e with ⟨channel, b⟩ | n
  · simp [Entry.isInputFailure]
  · simp

namespace World.Alike

variable {w v : World}

lemma trans {u : World} (h : w.Alike v) (h' : v.Alike u) : w.Alike u :=
  ⟨h'.scope_eq.trans h.scope_eq, h'.room_eq.trans h.room_eq, h'.output_eq.trans h.output_eq⟩

lemma of_notes (h : w.Alike v) (ns : List Note) : w.Alike (v.notes ns) := by
  induction ns generalizing v with
  | nil => exact h
  | cons n ns ih => exact ih (h.of_note n)

/-- Notes on failed input make no difference to scripts. -/
lemma of_quiet_eq (h : w.quiet = v.quiet) : w.Alike v := by
  refine ⟨(scope_eq_of_quiet_eq h).symm, ?_, ?_⟩
  · exact congrArg (·.console.room) h.symm
  · rw [← output_quiet, ← h, output_quiet]

end World.Alike

/-- The answers are the same for scripts: the same value or the same error, in worlds that are the
same for scripts. -/
structure Answer.Alike (a b : Answer) : Prop where
  outcome_eq : b.outcome = a.outcome
  world : a.world.Alike b.world

/-- If two answers are the same for scripts, then it is the same to go on behind them in ways that
are the same. -/
lemma Answer.Alike.bind {a b : Answer} {f g : Text → World → Answer} (h : a.Alike b)
    (hfg : ∀ v w w', a = ⟨.ok v, w⟩ → w.Alike w' → (f v w).Alike (g v w')) :
    (a.bind f).Alike (b.bind g) := by
  obtain ⟨o, w⟩ := a
  obtain ⟨o', w'⟩ := b
  obtain ⟨rfl, hworld⟩ := h
  cases o' with
  | ok v => exact hfg v w w' rfl hworld
  | error e => exact ⟨rfl, hworld⟩
  | unfinished => exact ⟨rfl, hworld⟩

/-- For what a script comes to, only its characters, the names and the room matter. -/
theorem run_alike (files : Files) (depth : Nat) (extent : Extent) {r s : Reader} {w v : World}
    (hr : r.rest = s.rest) (h : w.Alike v) :
    ((run files depth).answer extent r w).Alike ((run files depth).answer extent s v) := by
  obtain ⟨ho, -, hquiet⟩ := run_congr_quiet files depth extent r s hr (rfl : w.quiet = w.quiet)
  obtain ⟨ho', -, hworld⟩ := h.run files depth extent s
  exact ⟨ho'.trans ho.symm, (World.Alike.of_quiet_eq hquiet).trans hworld⟩

/-! ### Loading -/

/-- What the script that a name stands for comes to as a text.  A name that stands for nothing has
the empty value. -/
def evalNamed (files : Files) (depth : Nat) (name : Text) (w : World) : Answer :=
  match scriptNamed files name w.scope.library with
  | some code => evalText files depth code w
  | none => ⟨.ok [], w⟩

lemma alike_load (files : Files) (depth : Nat) (name : Text) {w v : World} (h : w.Alike v) :
    (evalNamed files depth name w).Alike (load files depth name v) := by
  have hscript := map_script_findScript files name v.scope.library
  rw [h.scope_eq] at hscript
  rw [evalNamed, ← hscript, load, loadScript, h.scope_eq]
  rcases findScript files name w.scope.library with ⟨ns, _ | ⟨path, content⟩⟩
  · exact ⟨rfl, (h.of_notes ns).of_note _⟩
  · refine run_alike files depth .body ?_ (h.of_notes ns)
    rw [rest_ofStream_stream]
    rfl

/-- Loading a script, directly or by a command, comes to what the decoded text of the first file
that can be opened comes to when it is evaluated in the same namespace: the same value or error,
names and output.  A directory counts as an empty script, and a name under which nothing can be
opened has the empty value and changes nothing. -/
theorem load_evaluates_in_place (files : Files) (depth : Nat) (name : Text) (w : World) :
    (evalNamed files depth name w).Alike (load files depth name w) ∧
      ∀ command, w.scope.resolve command = .primitive (.builtin .load) →
        (evalNamed files depth name w).Alike (dispatch files depth command [name] w) := by
  refine ⟨alike_load files depth name (.refl w), fun command hcommand => ?_⟩
  have hdispatch : dispatch files depth command [name] w =
      load files depth name (w.note (.callingPrimitive command 1)) := by
    rw [dispatch, dispatchWith, hcommand]
    rfl
  rw [hdispatch]
  exact alike_load files depth name ((World.Alike.refl w).of_note _)

/-- A script in the library directory that is not well-formed text, loads another one and a
directory, and fails behind them. -/
theorem nested_script_from_library :
    let files : Files := fun path =>
      if path = "lib/a".toList then
        .ok (.file (Utf8.encode "load b\nload [load d]\nputs ".toList ++ [0xff, 0x78] ++
          Utf8.encode " \nputs $x\n$y".toList))
      else if path = "b".toList then .ok (.file (Utf8.encode "load c\nset x 1".toList))
      else if path = "d".toList then .ok .directory
      else .error .notFound
    let w : World := ⟨.initial (some "lib".toList), {}⟩
    let command := "load".toList
    let name := "a".toList
    w.scope.resolve command = .primitive (.builtin .load) ∧
      (dispatch files 4 command [name] w).outcome = .error (.unknownVariable "y".toList) ∧
      (dispatch files 4 command [name] w).world.scope.values.get? "x".toList = some "1".toList ∧
      (dispatch files 4 command [name] w).world.output = Utf8.encode "\uFFFDx\n1\n".toList := by
  intro files w command name
  have hcommand : w.scope.resolve command = .primitive (.builtin .load) := rfl
  obtain ⟨ho, hworld⟩ := (load_evaluates_in_place files 4 name w).2 command hcommand
  refine ⟨hcommand, ?_, ?_, ?_⟩
  · rw [ho]
    decide +kernel
  · rw [hworld.scope_eq]
    decide +kernel
  · rw [hworld.output_eq]
    decide +kernel

end LineScript
