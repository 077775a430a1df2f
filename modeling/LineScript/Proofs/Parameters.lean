/-
# Parameters and arguments

A procedure keeps its parameter list as a text, which is cut into names at each call.  Names that
are written in order with gaps between them are the parameters (`parameters_eq`).  A call with
another number of arguments fails before anything else happens.  Otherwise the call comes to what
the body comes to in the namespace of the callee, where each parameter has its argument and all
other names mean what they mean to the caller (`call_binds_parameters`).

The namespace of the callee is described by what its names mean, and that is all that matters of a
namespace: evaluation cannot tell apart namespaces in which every name means the same
(`evalText_of_sameNames`).
-/
import LineScript.Proofs.Layout
import LineScript.Proofs.LargerNamespace
import LineScript.Proofs.Loading
import LineScript.Proofs.Spelling

namespace LineScript

/-! ### Parameter lists -/

/-- The characters that may stand between the names of a parameter list. -/
def gaps : List Char := '\n' :: blanks

/-- The text writes the names in order, with one or more gap characters between neighbours and any
number of them in front of the first name and behind the last one. -/
inductive Writes : List Text → Text → Prop
  | nil : Writes [] []
  | gap {c : Char} {names : List Text} {t : Text} (hc : c ∈ gaps) (h : Writes names t) :
      Writes names (c :: t)
  | last {name : Text} (hname : IsWord name) : Writes [name] name
  | cons {name : Text} {c : Char} {names : List Text} {t : Text} (hname : IsWord name)
      (hc : c ∈ gaps) (h : Writes names t) : Writes (name :: names) (name ++ c :: t)

lemma cases_of_mem_gaps {c : Char} (h : c ∈ gaps) : c = '\n' ∨ role c = .blank := by
  rcases List.mem_cons.mp h with rfl | h
  · exact .inl rfl
  · exact .inr (role_of_mem_blanks h)

/-- A name ends at a gap. -/
lemma tokens_append_gap {name : Text} (h : IsWord name) {c : Char} (hc : c ∈ gaps) (t : Text) :
    tokens (name ++ c :: t) = name :: tokens (c :: t) := by
  have hword : (word (c :: t)).text = [] ∧ lex (word (c :: t)).rest = lex (c :: t) := by
    rcases cases_of_mem_gaps hc with rfl | hr
    · exact ⟨rfl, rfl⟩
    · rw [word_of_blank t hr, lex_of_blank t hr]
      exact ⟨rfl, rfl⟩
  have hlex := lex_append_of_isWord h (c :: t)
  rw [hword.1, List.append_nil] at hlex
  rw [tokens_of_some (by rw [hlex]), hlex, tokens_congr hword.2]

lemma parameters_gap {c : Char} (hc : c ∈ gaps) (t : Text) :
    parameters (c :: t) = parameters t := by
  rcases cases_of_mem_gaps hc with rfl | hr
  · have htokens : tokens ('\n' :: t) = newline :: tokens t := tokens_of_some rfl
    rw [parameters, htokens, List.filter_cons_of_neg (by decide)]
    rfl
  · rw [parameters, tokens_congr (lex_of_blank t hr)]
    rfl

lemma parameters_nil : parameters [] = [] := by
  rw [parameters, tokens_nil, List.filter_nil]

/-- The first token of a parameter list is a parameter if it is a word. -/
lemma parameters_of_tokens {name t u : Text} (hname : IsWord name)
    (h : tokens t = name :: tokens u) : parameters t = name :: parameters u := by
  have hne : name ≠ newline := by
    rintro rfl
    exact hname.2 '\n' (by decide) (by decide)
  rw [parameters, h]
  exact List.filter_cons_of_pos (decide_eq_true ⟨hname.1, hne⟩)

/-- The names that a parameter list writes are the parameters. -/
theorem parameters_eq {names : List Text} {t : Text} (h : Writes names t) :
    parameters t = names := by
  induction h with
  | nil => exact parameters_nil
  | gap hc _ ih => rw [parameters_gap hc, ih]
  | last hname =>
    rw [parameters_of_tokens (u := []) hname (by rw [tokens_word hname, tokens_nil]),
      parameters_nil]
  | cons hname hc _ ih =>
    rw [parameters_of_tokens hname (tokens_append_gap hname hc _), parameters_gap hc, ih]

/-! ### What names mean -/

lemma Table.get?_insert_congr {α : Type} {t t' : Table α} (h : ∀ name, t.get? name = t'.get? name)
    (name : Text) (a : α) (other : Text) :
    (t.insert name a).get? other = (t'.insert name a).get? other := by
  rw [get?_insert, get?_insert, h other]

namespace Namespace

/-- Every name means the same in both namespaces. -/
structure SameNames (n n' : Namespace) : Prop where
  values_eq : ∀ name, n.values.get? name = n'.values.get? name
  procedures_eq : ∀ name, n.procedures.get? name = n'.procedures.get? name
  primitives_eq : ∀ name, n.primitives.get? name = n'.primitives.get? name
  library_eq : n.library = n'.library

variable {n n' : Namespace}

lemma SameNames.set (h : n.SameNames n') (name value : Text) :
    (n.setVariable name value).SameNames (n'.setVariable name value) :=
  { h with values_eq := Table.get?_insert_congr h.values_eq name value }

lemma SameNames.define (h : n.SameNames n') (name : Text) (p : Procedure) :
    (n.defineProcedure name p).SameNames (n'.defineProcedure name p) :=
  { h with procedures_eq := Table.get?_insert_congr h.procedures_eq name p }

end Namespace

/-- The worlds show the same, and every name means the same in both. -/
structure World.SameNames (w w' : World) : Prop where
  scope : w.scope.SameNames w'.scope
  console_eq : w.console = w'.console

lemma World.SameNames.note {w w' : World} (h : w.SameNames w') (n : Note) :
    (w.note n).SameNames (w'.note n) :=
  ⟨h.scope, congrArg (·.note n) h.console_eq⟩

/-- The same script in worlds in which every name means the same. -/
def Simulation.sameNames : Simulation where
  reads := Eq
  rel := World.SameNames
  lost _ _ _ := False
  lost_grows h _ := h
  reads_refl _ := rfl
  rest_eq h := congrArg Reader.rest h
  reads_pull := pull_of_note _ fun n h => h.note n
  reads_look := look_of_note _ fun n h => h.note n
  rel_note n h := h.note n
  rel_put {w w'} t h := by
    obtain ⟨scope, console⟩ := w
    obtain ⟨scope', console'⟩ := w'
    obtain rfl : console = console' := h.console_eq
    exact .inl ⟨rfl, h.scope, rfl⟩
  rel_value name h := .inl (h.scope.values_eq name)
  rel_resolve name h :=
    .inl (Namespace.resolve_congr (h.scope.procedures_eq name) (h.scope.primitives_eq name))
  rel_library h := h.scope.library_eq
  rel_set name value h := ⟨h.scope.set name value, h.console_eq⟩
  rel_define name p h := ⟨h.scope.define name p, h.console_eq⟩
  rel_leave h h' := ⟨h.scope, h'.console_eq⟩

/-- A text comes to the same where every name means the same. -/
theorem evalText_of_sameNames (files : Files) (depth : Nat) (code : Text) {w w' : World}
    (h : w.SameNames w') :
    (evalText files depth code w).outcome = (evalText files depth code w').outcome ∧
      (evalText files depth code w).world.SameNames (evalText files depth code w').world := by
  rcases Simulation.sameNames.answer_cases files depth (.text code) h with
    ⟨ho, hw⟩ | ⟨_, -, hlost⟩ | ⟨-, hlost⟩
  · exact ⟨ho.symm, hw⟩
  · exact hlost.elim
  · exact hlost.elim

/-! ### The namespace of the callee -/

namespace Namespace

/-- In the namespace of the callee each parameter has its argument, the last one if its name is
repeated, and everything else means what it means to the caller. -/
structure IsCallee (n : Namespace) (names args : List Text) (callee : Namespace) : Prop where
  parameter : ∀ i name, names[i]? = some name → name ∉ names.drop (i + 1) →
    callee.values.get? name = args[i]?
  value_eq : ∀ name, name ∉ names → callee.values.get? name = n.values.get? name
  procedures_eq : ∀ name, callee.procedures.get? name = n.procedures.get? name
  primitives_eq : ∀ name, callee.primitives.get? name = n.primitives.get? name
  library_eq : callee.library = n.library

lemma bind_cons (n : Namespace) (name a : Text) (names args : List Text) :
    n.bind (name :: names) (a :: args) = (n.setVariable name a).bind names args := rfl

/-- The parameters are bound as the callee needs them. -/
lemma isCallee_bind (n : Namespace) {names args : List Text} (h : args.length = names.length) :
    n.IsCallee names args (n.bind names args) := by
  induction names generalizing args n with
  | nil => exact ⟨fun i name hi => by simp at hi, fun _ _ => rfl, fun _ => rfl, fun _ => rfl, rfl⟩
  | cons p names ih =>
    obtain ⟨a, args, rfl⟩ := List.exists_cons_of_length_eq_add_one h
    obtain ⟨hparam, hvalue, hproc, hprim, hlib⟩ := ih (n.setVariable p a) (Nat.succ.inj h)
    rw [bind_cons]
    refine ⟨fun i name hi hlast => ?_, fun name hname => ?_, hproc, hprim, hlib⟩
    · cases i with
      | zero =>
        obtain rfl : p = name := Option.some.inj hi
        rw [hvalue p hlast]
        exact Table.get?_insert_self _ _ _
      | succ i => exact hparam i name hi hlast
    · obtain ⟨hne, hname⟩ := not_or.mp fun hor => hname (List.mem_cons.mpr hor)
      rw [hvalue name hname]
      exact Table.get?_insert_of_ne _ _ hne

/-- A name in a list has a last place there. -/
lemma exists_last_place {name : Text} {names : List Text} (h : name ∈ names) :
    ∃ i, names[i]? = some name ∧ name ∉ names.drop (i + 1) := by
  induction names with
  | nil => exact absurd h List.not_mem_nil
  | cons p names ih =>
    by_cases hmem : name ∈ names
    · obtain ⟨i, hi, hlast⟩ := ih hmem
      exact ⟨i + 1, hi, hlast⟩
    · obtain rfl : name = p := (List.mem_cons.mp h).resolve_right hmem
      exact ⟨0, rfl, hmem⟩

/-- The description of the callee's namespace says what every name means in it. -/
lemma IsCallee.sameNames {n callee callee' : Namespace} {names args : List Text}
    (h : n.IsCallee names args callee) (h' : n.IsCallee names args callee') :
    callee.SameNames callee' where
  values_eq name := by
    by_cases hmem : name ∈ names
    · obtain ⟨i, hi, hlast⟩ := exists_last_place hmem
      rw [h.parameter i name hi hlast, h'.parameter i name hi hlast]
    · rw [h.value_eq name hmem, h'.value_eq name hmem]
  procedures_eq name := by rw [h.procedures_eq, h'.procedures_eq]
  primitives_eq name := by rw [h.primitives_eq, h'.primitives_eq]
  library_eq := by rw [h.library_eq, h'.library_eq]

end Namespace

lemma dispatch_of_procedure (files : Files) (depth : Nat) {command : Text} {p : Procedure}
    {w : World} (hp : w.scope.resolve command = .procedure p) (args : List Text) :
    dispatch files depth command args w =
      callProcedure (run files depth) command p args
        (w.note (.callingProcedure command args.length)) := by
  rw [dispatch, dispatchWith, hp]

/-- A call with the right number of arguments comes to what the body comes to in the namespace of
the callee, with the names of the caller restored. -/
lemma alike_callProcedure (files : Files) (depth : Nat) (command : Text) {p : Procedure}
    {names args : List Text} {w v : World} {callee : Namespace} (hnames : Writes names p.params)
    (hlen : args.length = names.length) (hcallee : w.scope.IsCallee names args callee)
    (hv : World.Alike w v) :
    Answer.Alike
      ⟨(evalText files depth p.body ⟨callee, w.console⟩).outcome,
        { (evalText files depth p.body ⟨callee, w.console⟩).world with scope := w.scope }⟩
      (callProcedure (run files depth) command p args v) := by
  have hcall : callProcedure (run files depth) command p args v =
      ⟨(evalText files depth p.body { v with scope := v.scope.bind names args }).outcome,
        { (evalText files depth p.body { v with scope := v.scope.bind names args }).world with
          scope := v.scope }⟩ := by
    rw [callProcedure, parameters_eq hnames, if_pos hlen.symm]
    rfl
  have hbound : World.SameNames ⟨callee, w.console⟩ { w with scope := w.scope.bind names args } :=
    ⟨hcallee.sameNames (w.scope.isCallee_bind hlen), rfl⟩
  obtain ⟨ho, hnames'⟩ := evalText_of_sameNames files depth p.body hbound
  have hentry : World.Alike { w with scope := w.scope.bind names args }
      { v with scope := v.scope.bind names args } :=
    ⟨by rw [hv.scope_eq], hv.room_eq, hv.output_eq⟩
  obtain ⟨ho', hworld⟩ :=
    run_alike files depth .body (rfl : (Reader.ofText p.body).rest = _) hentry
  rw [hcall]
  refine ⟨ho'.trans ho.symm, hv.scope_eq, ?_, ?_⟩
  · exact hworld.room_eq.trans (congrArg Console.room hnames'.console_eq.symm)
  · exact hworld.output_eq.trans (congrArg (Console.bytes · .script) hnames'.console_eq.symm)

/-- A call of a procedure whose parameter list writes the given names.  With another number of
arguments it fails with an error that names the command; all that happens is that the call is noted.
With as many arguments as names, it comes to what the body comes to in the namespace of the callee,
with the same value or error and the same output, and leaves the names of the caller as they are. -/
theorem call_binds_parameters (files : Files) (depth : Nat) {command : Text} {names : List Text}
    {p : Procedure} {w : World} (hp : w.scope.resolve command = .procedure p)
    (hnames : Writes names p.params) (args : List Text) :
    (args.length ≠ names.length →
      dispatch files depth command args w =
        ⟨.error (.wrongArity command), w.note (.callingProcedure command args.length)⟩) ∧
    (args.length = names.length →
      (∃ callee, w.scope.IsCallee names args callee) ∧
      ∀ callee, w.scope.IsCallee names args callee →
        let body := evalText files depth p.body ⟨callee, w.console⟩
        Answer.Alike ⟨body.outcome, { body.world with scope := w.scope }⟩
          (dispatch files depth command args w)) := by
  rw [dispatch_of_procedure files depth hp]
  refine ⟨fun hlen => ?_, fun hlen => ⟨⟨_, w.scope.isCallee_bind hlen⟩, fun callee hcallee => ?_⟩⟩
  · rw [callProcedure, parameters_eq hnames, if_neg (Ne.symm hlen)]
  · exact alike_callProcedure files depth command hnames hlen hcallee
      ((World.Alike.refl w).of_note _)

/-- A parameter list of three lines in which one name is repeated.  The body shows the last argument
of that name, and computes with the other argument and with a variable of the caller that has the
name of no parameter. -/
theorem call_with_repeated_parameter :
    let files : Files := fun _ => .error .notFound
    let p : Procedure := ⟨"\n a\t\r\nbc a ".toList, "puts $a\nset x [+ $x $bc]".toList⟩
    let command := "f".toList
    let names := [['a'], ['b', 'c'], ['a']]
    let scope := (Namespace.initial none).defineProcedure command p
    let w : World := ⟨(scope.setVariable ['a'] ['0']).setVariable ['x'] ['5'], {}⟩
    w.scope.resolve command = .procedure p ∧ Writes names p.params ∧
      (dispatch files 3 command [['1'], ['2']] w).outcome = .error (.wrongArity command) ∧
      (dispatch files 3 command [['1'], ['2'], ['3']] w).outcome = .ok ['7'] ∧
      (dispatch files 3 command [['1'], ['2'], ['3']] w).world.output = Utf8.encode ['3', '\n'] ∧
      (dispatch files 3 command [['1'], ['2'], ['3']] w).world.scope = w.scope := by
  intro files p command names scope w
  have hp : w.scope.resolve command = .procedure p := rfl
  have hnames : Writes names p.params :=
    .gap (by decide) (.gap (by decide) (.cons (by decide) (by decide)
      (.gap (by decide) (.gap (by decide) (.cons (by decide) (by decide)
        (.cons (by decide) (by decide) .nil))))))
  have hcall := call_binds_parameters files 3 hp hnames
  obtain ⟨ho, hworld⟩ := (hcall [['1'], ['2'], ['3']]).2 rfl |>.2 _ (w.scope.isCallee_bind rfl)
  refine ⟨hp, hnames, ?_, ?_, ?_, hworld.scope_eq⟩
  · rw [(hcall [['1'], ['2']]).1 (by decide)]
  · rw [ho]
    decide +kernel
  · rw [hworld.output_eq]
    decide +kernel

end LineScript
