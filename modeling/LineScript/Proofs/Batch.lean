/-
# Scripts on the command line

With arguments the program loads one script after the other in one namespace, and the first one
that fails ends it (`loadAll`).  If standard output takes all that is written, then what the program
shows is determined by what these loads come to: standard output is the output of the scripts, and
standard error holds one line, or nothing if no script failed (`shown_conclude`).

Each load comes to what the text of its file comes to, and texts are composed line by line.  So two
scripts are as good as one that holds both of them, with a newline in between
(`batch_is_one_script`).
-/
import Mathlib.Data.List.Basic
import LineScript.Program
import LineScript.Proofs.Lasting
import LineScript.Proofs.LimitedOutput
import LineScript.Proofs.Lines
import LineScript.Proofs.Loading

namespace LineScript
namespace Program

/-- Loads the named scripts one after the other in one namespace.  The first one that fails ends
it. -/
def loadAll (files : Files) (depth : Nat) : List Text → World → Answer
  | [], w => ⟨.ok [], w⟩
  | name :: names, w => (load files depth name w).bind fun _ v => loadAll files depth names v

/-- Ends the program in the way in which the scripts have ended. -/
def conclude : Answer → Status × World
  | ⟨.ok _, w⟩ => (.success, w)
  | ⟨.error e, w⟩ => quit (failureLine e) w
  | ⟨.unfinished, w⟩ => (.unfinished, w)

lemma batch_eq_conclude (files : Files) (depth : Nat) (names : List Text) (w : World) :
    batch files depth names w = conclude (loadAll files depth names w) := by
  induction names generalizing w with
  | nil => rfl
  | cons name names ih =>
    rw [batch, loadAll]
    rcases load files depth name w with ⟨v | e | -, u⟩
    · exact ih u
    · rfl
    · rfl

lemma loadAll_append (files : Files) (depth : Nat) (names more : List Text) (w : World) :
    loadAll files depth (names ++ more) w =
      (loadAll files depth names w).bind fun _ v => loadAll files depth more v := by
  induction names generalizing w with
  | nil => rfl
  | cons name names ih =>
    simp only [List.cons_append, loadAll, ih, Answer.bind_bind]

/-- Nothing is loaded behind a script that fails. -/
lemma loadAll_of_failure {files : Files} {depth : Nat} {names : List Text} {w u : World} {v : Text}
    (h : loadAll files depth names w = ⟨.ok v, u⟩) {name : Text}
    (hname : ∀ v', (load files depth name u).outcome ≠ .ok v') (more : List Text) :
    loadAll files depth (names ++ name :: more) w = load files depth name u := by
  rw [loadAll_append, h, Answer.bind, loadAll]
  generalize load files depth name u = a at hname ⊢
  rcases a with ⟨v' | e | -, u'⟩
  · exact absurd rfl (hname v')
  · rfl
  · rfl

/-- Loading scripts keeps an invariant. -/
lemma sound_loadAll (I : Invariant) (files : Files) (depth : Nat) (names : List Text) {w : World}
    (h : I.holds w) (r : Reader) : I.Sound (.ofAnswer (loadAll files depth names w) r) := by
  induction names generalizing w with
  | nil => exact Invariant.sound_ok h []
  | cons name names ih =>
    have hload : I.Sound (.ofAnswer (load files depth name w) r) :=
      Invariant.sound_loadScript (I.sound_run files depth) h name r
    rw [loadAll]
    generalize load files depth name w = a at hload
    rcases a with ⟨v | e | -, u⟩
    · exact ih hload.holds
    · exact hload
    · exact hload

/-! ### What the program shows -/

/-- Nothing but the output of scripts has been written, errors can be shown, and no script has
failed because its output was not taken. -/
structure Clean (a : Answer) : Prop where
  reply : a.world.console.bytes .reply = []
  complaint : a.world.console.bytes .complaint = []
  opened : a.world.Open
  taken : ∀ reason, a.outcome ≠ .error (.outputFailed reason)

lemma clean_loadAll (files : Files) (depth : Nat) (names : List Text) (home : Option Text) :
    Clean (loadAll files depth names (start home {})) := by
  let w := start home {}
  have hunlimited := sound_loadAll .unlimited files depth names (w := w)
    ⟨rfl, Namespace.builtinsOnly_initial _⟩ (.ofText [])
  have hgrows : w.console.Grows (loadAll files depth names w).world.console :=
    (sound_loadAll (.growth w.console) files depth names (w := w) (.refl _) (.ofText [])).holds
  have hopen : w.Open := ⟨rfl, rfl⟩
  refine ⟨hgrows.bytes_eq (by decide), hgrows.bytes_eq (by decide), hopen.of_grows hgrows, ?_⟩
  exact fun reason he => hunlimited.admits _ he reason rfl

/-- Standard output is the output of scripts if nothing else has been written to it. -/
lemma standardOutput_eq_output {w : World} (h : w.console.bytes .reply = []) :
    standardOutput w = w.output := by
  rw [Console.bytes, bytesOn, List.filterMap_eq_nil_iff] at h
  refine List.filterMap_congr fun e he => ?_
  have hreply := h e he
  rcases e with ⟨channel, b⟩ | n
  · cases channel with
    | script => rfl
    | reply => exact absurd hreply (Option.some_ne_none b)
    | complaint => rfl
  · rfl

/-- Only a failure of the output itself is shown in another way than the interactive loop shows
errors. -/
lemma failureLine_eq_errorLine {e : Error} (h : ∀ reason, e ≠ .outputFailed reason) :
    failureLine e = Repl.errorLine e := by
  cases e with
  | outputFailed reason => exact absurd rfl (h reason)
  | _ => rfl

/-- The status with which the program ends. -/
def statusOf : Outcome Text → Status
  | .ok _ => .success
  | .error _ => .failure
  | .unfinished => .unfinished

/-- What is shown on standard error. -/
def complaintOf : Outcome Text → Text
  | .error e => Repl.errorLine e
  | _ => []

lemma success_iff {o : Outcome Text} :
    ((statusOf o).code = 0 ∧ Utf8.encode (complaintOf o) = []) ↔ ∃ v, o = .ok v := by
  cases o <;> simp [statusOf, complaintOf, Status.code]

lemma statusOf_eq_unfinished_iff {o : Outcome Text} :
    statusOf o = .unfinished ↔ o = .unfinished := by
  cases o <;> simp [statusOf]

/-- What the program shows is determined by how the scripts have ended and what they have
written. -/
lemma shown_conclude {a : Answer} (h : Clean a) :
    (conclude a).1 = statusOf a.outcome ∧ standardOutput (conclude a).2 = a.world.output ∧
      standardError (conclude a).2 = Utf8.encode (complaintOf a.outcome) := by
  rcases a with ⟨v | e | -, w⟩
  · exact ⟨rfl, standardOutput_eq_output h.reply, h.complaint⟩
  · have hline : failureLine e = Repl.errorLine e :=
      failureLine_eq_errorLine fun reason he => h.taken reason (congrArg Outcome.error he)
    have hc : Channel.complaint ≠ .script := by decide
    obtain ⟨v, hemit, -⟩ : ∃ v, w.emit .complaint (Repl.errorLine e) = (true, v) ∧ v.Open :=
      h.opened.emit hc (Repl.errorLine e)
    have hshows := h.opened.shows hc hemit
    have hreply : v.console.bytes .reply = [] :=
      (hshows.bytes_of_ne (by decide)).trans h.reply
    have hcomplaint : v.console.bytes .complaint = Utf8.encode (Repl.errorLine e) := by
      rw [hshows.bytes_eq, h.complaint, List.nil_append]
    have hconclude : conclude ⟨.error e, w⟩ = (.failure, v) := by
      rw [conclude, quit, hline, hemit]
    rw [hconclude, standardOutput_eq_output hreply]
    exact ⟨rfl, hshows.bytes_of_ne hc, hcomplaint⟩
  · exact ⟨rfl, standardOutput_eq_output h.reply, h.complaint⟩

lemma shown_execute (files : Files) (depth : Nat) {args : List Text} (hargs : args ≠ [])
    (input : Reader) (home : Option Text) :
    let x := execute files depth args input (start home {})
    let a := loadAll files depth args (start home {})
    x.1 = statusOf a.outcome ∧ standardOutput x.2 = a.world.output ∧
      standardError x.2 = Utf8.encode (complaintOf a.outcome) := by
  have hexecute : execute files depth args input (start home {})
      = conclude (loadAll files depth args (start home {})) := by
    obtain ⟨name, names, rfl⟩ := List.exists_cons_of_ne_nil hargs
    exact batch_eq_conclude files depth _ _
  rw [hexecute]
  exact shown_conclude (clean_loadAll files depth args home)

/-! ### Two scripts as one -/

section Joined

variable (files : Files) (depth : Nat)

/-- Evaluates the texts of the named scripts one after the other in one namespace. -/
def evalAll : List Text → World → Answer
  | [], w => ⟨.ok [], w⟩
  | name :: names, w => (evalNamed files depth name w).bind fun _ v => evalAll names v

/-- Scripts come to what their texts come to. -/
lemma alike_loadAll (names : List Text) {w v : World} (h : w.Alike v) :
    (evalAll files depth names w).Alike (loadAll files depth names v) := by
  induction names generalizing w v with
  | nil => exact ⟨rfl, h⟩
  | cons name names ih => exact (alike_load files depth name h).bind fun _ _ _ _ hv => ih hv

/-- Scripts do not move the library directory. -/
lemma library_evalText (code : Text) (w : World) :
    (evalText files depth code w).world.scope.library = w.scope.library :=
  ((Invariant.kept w).sound_run files depth .body (.ofText code) (.refl w)).holds.library_eq

variable {files} {name₁ name₂ name₃ code₁ code₂ : Text} {w : World}

/-- The texts of two scripts come to what the text of a script comes to that holds both. -/
lemma evalAll_pair (h₁ : scriptNamed files name₁ w.scope.library = some code₁)
    (h₂ : scriptNamed files name₂ w.scope.library = some code₂)
    (h₃ : scriptNamed files name₃ w.scope.library = some (code₁ ++ '\n' :: code₂))
    (hself : SelfContained code₁) (hne : code₂ ≠ []) :
    evalAll files depth [name₁, name₂] w = evalAll files depth [name₃] w := by
  have hlibrary := library_evalText files depth code₁ w
  simp only [evalAll, evalNamed, h₁, h₃, evalText_append_newline files depth hself hne,
    Answer.bind_bind]
  -- the second name is looked up where the first script has left the library directory
  generalize evalText files depth code₁ w = first at hlibrary ⊢
  rcases first with ⟨v | e | -, u⟩
  · have hu : scriptNamed files name₂ u.scope.library = some code₂ := hlibrary.symm ▸ h₂
    simp only [Answer.bind, hu]
  · rfl
  · rfl

end Joined

/-- With arguments the program loads the named scripts in order in one namespace, up to the first
one that fails; a name under which nothing can be opened is no failure.  Standard output is what
these scripts have written.  The program ends with status 0 and nothing on standard error if and
only if no script has failed; otherwise it ends with status 1 and the error on standard error.
Hence two scripts, of which the first one is self-contained, make the program show the same as one
script that holds both with a newline in between. -/
theorem batch_is_one_script (files : Files) (depth : Nat) (home : Option Text) (input : Reader) :
    let w := start home {}
    (∀ args, args ≠ [] →
      let x := execute files depth args input w
      let a := loadAll files depth args w
      standardOutput x.2 = a.world.output ∧
        (x.1.code = 0 ∧ standardError x.2 = [] ↔ ∃ v, a.outcome = .ok v) ∧
        (∀ e, a.outcome = .error e → x.1.code = 1 ∧
          standardError x.2 = Utf8.encode ("error: ".toList ++ e.message ++ newline)) ∧
        (x.1 = .unfinished ↔ a.outcome = .unfinished) ∧
        ∀ done name more v u, args = done ++ name :: more →
          loadAll files depth done w = ⟨.ok v, u⟩ →
          (∀ v', (load files depth name u).outcome ≠ .ok v') → a = load files depth name u) ∧
      (∀ name v, scriptNamed files name v.scope.library = none →
        (load files depth name v).outcome = .ok [] ∧ v.Alike (load files depth name v).world) ∧
      ∀ name₁ name₂ name₃ code₁ code₂,
        scriptNamed files name₁ (libraryOfHome home) = some code₁ →
        scriptNamed files name₂ (libraryOfHome home) = some code₂ →
        scriptNamed files name₃ (libraryOfHome home) = some (code₁ ++ '\n' :: code₂) →
        SelfContained code₁ → code₂ ≠ [] →
        let y := execute files depth [name₁, name₂] input w
        let z := execute files depth [name₃] input w
        y.1 = z.1 ∧ standardOutput y.2 = standardOutput z.2 ∧
          standardError y.2 = standardError z.2 := by
  intro w
  refine ⟨fun args hargs => ?_, fun name v hname => ?_, ?_⟩
  · obtain ⟨hstatus, houtput, herror⟩ := shown_execute files depth hargs input home
    refine ⟨houtput, ?_⟩
    rw [hstatus, herror]
    refine ⟨success_iff, fun e he => ?_, statusOf_eq_unfinished_iff, ?_⟩
    · rw [he]
      exact ⟨rfl, rfl⟩
    · rintro done name more v u rfl hdone hname
      exact loadAll_of_failure hdone hname more
  · have hload := alike_load files depth name (.refl v)
    rw [evalNamed, hname] at hload
    exact ⟨hload.outcome_eq, hload.world⟩
  · intro name₁ name₂ name₃ code₁ code₂ h₁ h₂ h₃ hself hne
    obtain ⟨hstatus, houtput, herror⟩ :=
      shown_execute files depth (List.cons_ne_nil name₁ [name₂]) input home
    obtain ⟨hstatus', houtput', herror'⟩ :=
      shown_execute files depth (List.cons_ne_nil name₃ []) input home
    have hpair := alike_loadAll files depth [name₁, name₂] (.refl w)
    have hone := alike_loadAll files depth [name₃] (.refl w)
    rw [← evalAll_pair depth (w := w) h₁ h₂ h₃ hself hne] at hone
    show _ ∧ _ ∧ _
    rw [hstatus, hstatus', houtput, houtput', herror, herror', hpair.outcome_eq, hone.outcome_eq,
      hpair.world.output_eq, hone.world.output_eq]
    exact ⟨rfl, rfl, rfl⟩

/-- The first script ends with a comment in which a bracket is not closed, and the second one fails
in its middle.  The script that holds both is found in the library directory. -/
theorem two_scripts_and_their_union :
    let code₁ := "proc f \x7by\x7d \x7bputs $y\x7d\nset x [+ 1 1\n] # [".toList
    let code₂ := "f $x\n$nope\nputs never".toList
    let files : Files := fun path =>
      if path = "a".toList then .ok (.file (Utf8.encode code₁))
      else if path = "b".toList then .ok (.file (Utf8.encode code₂))
      else if path = "home/.skicl/c".toList then .ok (.file (Utf8.encode (code₁ ++ '\n' :: code₂)))
      else .error .notFound
    let w := start (some "home".toList) {}
    let x := execute files 4 ["a".toList, "missing".toList, "b".toList] (.ofText []) w
    let y := execute files 4 ["a".toList, "b".toList] (.ofText []) w
    let z := execute files 4 ["c".toList] (.ofText []) w
    standardOutput x.2 = Utf8.encode "2\n".toList ∧ x.1.code = 1 ∧
      standardError x.2 = Utf8.encode "error: undeclared identifier nope\n".toList ∧
      SelfContained code₁ ∧ code₂ ≠ [] ∧ y.1 = z.1 ∧ standardOutput y.2 = standardOutput z.2 ∧
      standardError y.2 = standardError z.2 := by
  intro code₁ code₂ files w x y z
  let args := ["a".toList, "missing".toList, "b".toList]
  obtain ⟨hshown, -, hjoined⟩ := batch_is_one_script files 4 (some "home".toList) (.ofText [])
  obtain ⟨houtput, -, herror, -⟩ := hshown args (List.cons_ne_nil _ _)
  have hload := alike_loadAll files 4 args (.refl w)
  have hfailed : (loadAll files 4 args w).outcome = .error (.unknownVariable "nope".toList) := by
    rw [hload.outcome_eq]
    decide +kernel
  have hwritten : (loadAll files 4 args w).world.output = Utf8.encode "2\n".toList := by
    rw [hload.world.output_eq]
    decide +kernel
  have hself : SelfContained code₁ := by decide +kernel
  obtain ⟨hcode, hline⟩ := herror _ hfailed
  refine ⟨houtput.trans hwritten, hcode, hline, hself, by decide, ?_⟩
  exact hjoined "a".toList "b".toList "c".toList code₁ code₂ (by decide +kernel)
    (by decide +kernel) (by decide +kernel) hself (by decide)

end Program
end LineScript
