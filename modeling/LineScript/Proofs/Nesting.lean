/-
# How deeply blocks are nested

The text of a block is joined from its tokens, and then read again.  It may be longer than its
source, and it may have more tokens: a literal loses its braces, and brackets in it come alive.  But
no bracket is made up, and the bracket that opened the block is gone (`count_collect`).  So blocks
are nested no more deeply than there are opening brackets in the text.

If there are no procedures, and neither `proc` nor `load`, then blocks are all that is nested.  So
evaluation ends as soon as more levels are allowed than the text has opening brackets
(`bounded_run`), and it does not get further down (`Task.Shallow.of_leadsTo`).
-/
import LineScript.Proofs.Blocks
import LineScript.Proofs.Depth
import LineScript.Proofs.SpelledValues

namespace LineScript

/-! ### No opening bracket is made up -/

lemma count_openBlock : openBlock.count '[' = 1 := rfl

section Counting

variable (r : Reader) (w : World)

lemma count_pull {t : Text} (h : (pull r w).token = some t) :
    t.count '[' + (pull r w).reader.rest.count '[' ≤ r.rest.count '[' := by
  rw [rest_pull, ← List.count_append]
  exact (token_append_rest_sublist h).count_le '['

lemma count_rest_pull_le : (pull r w).reader.rest.count '[' ≤ r.rest.count '[' := by
  rw [rest_pull]
  exact (rest_lex_suffix r.rest).sublist.count_le '['

/-- The text of a block and what follows the block hold no more opening brackets than the source
of both. -/
lemma count_collect (depth : Nat) :
    (collect depth r w).code.count '[' + (collect depth r w).reader.rest.count '[' ≤
      r.rest.count '[' := by
  induction r using Reader.induction_on_rest generalizing depth w with
  | step r ih =>
    have hpull := count_rest_pull_le r w
    rw [collect_eq]
    split
    · rwa [List.count_nil, Nat.zero_add]
    · rename_i t ht
      split
      · rwa [List.count_nil, Nat.zero_add]
      · have htoken := count_pull r w ht
        have hrest := ih _ (length_rest_pull_lt ht) (pull r w).world (deeper depth t)
        have hcode (code : Text) : (t ++ ' ' :: code).count '[' = t.count '[' + code.count '[' := by
          simp
        dsimp only
        rw [hcode]
        omega

lemma rest_collect_suffix (depth : Nat) : (collect depth r w).reader.rest <:+ r.rest := by
  cases hs : splitBlock depth (tokens r.rest) with
  | none =>
    rw [(collect_of_unmatched w hs).2.2]
    exact List.nil_suffix
  | some split =>
    rw [(collect_of_split w hs).2.2]
    exact dropTokens_suffix _ _

end Counting

/-! ### Namespaces without procedures -/

/-- The namespace has no procedures, and no primitives but builtins that neither define a procedure
nor load a script. -/
structure Namespace.Flat (n : Namespace) : Prop where
  procedures : ∀ name, n.procedures.get? name = none
  primitives : ∀ name p, n.primitives.get? name = some p →
    ∃ b, p = .builtin b ∧ b ≠ .proc ∧ b ≠ .load

namespace Namespace

lemma flat_empty : empty.Flat where
  procedures _ := rfl
  primitives _ _ h := nomatch h

variable {n : Namespace}

lemma Flat.resolve_ne_procedure (h : n.Flat) (name : Text) (p : Procedure) :
    n.resolve name ≠ .procedure p := by
  rw [Ne, resolve_eq_procedure_iff, h.procedures name]
  exact (Option.some_ne_none p).symm

lemma Flat.builtin_of_resolve (h : n.Flat) {name : Text} {p : Primitive}
    (hp : n.resolve name = .primitive p) : ∃ b, p = .builtin b ∧ b ≠ .proc ∧ b ≠ .load :=
  h.primitives name p (resolve_eq_primitive_iff.mp hp).2

lemma Flat.setVariable (h : n.Flat) (name value : Text) : (n.setVariable name value).Flat :=
  ⟨h.procedures, h.primitives⟩

lemma Flat.register (h : n.Flat) (name : Text) {b : Builtin} (hproc : b ≠ .proc)
    (hload : b ≠ .load) : (n.register name (.builtin b)).Flat := by
  refine ⟨h.procedures, fun other p hp => ?_⟩
  change (n.primitives.insert name (.builtin b)).get? other = some p at hp
  rw [Table.get?_insert] at hp
  split at hp
  · exact ⟨b, (Option.some.inj hp).symm, hproc, hload⟩
  · exact h.primitives other p hp

end Namespace

/-- The run leaves a namespace without procedures and at most so many opening brackets, and under
the given condition it ends. -/
structure Run.Bounded {α : Type} (n : Nat) (P : Prop) (x : Run α) : Prop where
  flat : x.world.scope.Flat
  count_le : x.reader.rest.count '[' ≤ n
  ended : P → x.outcome ≠ .unfinished

namespace Run.Bounded

variable {α β : Type} {n m : Nat} {P Q : Prop} {r : Reader} {w : World}

lemma ok (h : w.scope.Flat) (hr : r.rest.count '[' ≤ n) (a : α) : Bounded n P ⟨.ok a, r, w⟩ :=
  ⟨h, hr, fun _ => nofun⟩

lemma error (h : w.scope.Flat) (hr : r.rest.count '[' ≤ n) (e : Error) :
    Bounded n P (⟨.error e, r, w⟩ : Run α) :=
  ⟨h, hr, fun _ => nofun⟩

lemma mono {x : Run α} (h : x.Bounded n P) (hn : n ≤ m) (hQ : Q → P) : x.Bounded m Q :=
  ⟨h.flat, h.count_le.trans hn, fun hq => h.ended (hQ hq)⟩

lemma map {x : Run α} (h : x.Bounded n P) (f : α → β) : (x.map f).Bounded n P := by
  rcases x with ⟨a | e | -, r, w⟩
  · exact .ok h.flat h.count_le (f a)
  · exact .error h.flat h.count_le e
  · exact ⟨h.flat, h.count_le, fun hP => absurd rfl (h.ended hP)⟩

lemma bind {x : Run α} (h : x.Bounded n P) {f : α → Reader → World → Run β}
    (hf : ∀ a, (f a x.reader x.world).Bounded n P) : (x.bind f).Bounded n P := by
  rcases x with ⟨a | e | -, r, w⟩
  · exact hf a
  · exact .error h.flat h.count_le e
  · exact ⟨h.flat, h.count_le, fun hP => absurd rfl (h.ended hP)⟩

end Run.Bounded

/-- In a namespace without procedures, the evaluation ends on scripts with fewer opening brackets
than that. -/
def Evaluation.EndsBelow (nested : Evaluation) (levels : Nat) : Prop :=
  ∀ extent r {w : World}, w.scope.Flat →
    (nested extent r w).Bounded (r.rest.count '[') (r.rest.count '[' < levels)

section Walk

variable {files : Files} {nested : Evaluation} {levels : Nat} {w : World}

lemma bounded_putLine (h : w.scope.Flat) (t : Text) (r : Reader) (P : Prop) :
    (Run.ofAnswer (putLine t w) r).Bounded (r.rest.count '[') P := by
  rw [putLine]
  rcases hemit : w.emit .script (t ++ newline) with ⟨ok, v⟩
  have hv : v.scope.Flat := by rwa [World.scope_of_emit hemit]
  cases ok with
  | true => exact .ok hv (Nat.le_refl _) []
  | false => exact .error hv (Nat.le_refl _) _

lemma bounded_ofExcept (h : w.scope.Flat) (x : Except Error Text) (r : Reader) (P : Prop) :
    Run.Bounded (r.rest.count '[') P ⟨.ofExcept x, r, w⟩ := by
  cases x with
  | ok v => exact .ok h (Nat.le_refl _) v
  | error e => exact .error h (Nat.le_refl _) e

/-- Only `proc` and `load` lead to further evaluations. -/
lemma bounded_performBuiltin (h : w.scope.Flat) {b : Builtin} (hproc : b ≠ .proc)
    (hload : b ≠ .load) (args : List Text) (r : Reader) (P : Prop) :
    (Run.ofAnswer (performBuiltin files nested b args w) r).Bounded (r.rest.count '[') P := by
  unfold performBuiltin
  split
  · exact bounded_putLine h _ r P
  · exact .ok (h.setVariable _ _) (Nat.le_refl _) _
  · exact absurd rfl hproc
  · exact absurd rfl hload
  · exact bounded_ofExcept h _ r P
  · exact bounded_ofExcept h _ r P
  · exact .error h (Nat.le_refl _) _

/-- Where there are no procedures, a command begins no evaluation. -/
lemma bounded_dispatchWith (h : w.scope.Flat) (command : Text) (args : List Text) (r : Reader)
    (P : Prop) :
    (Run.ofAnswer (dispatchWith files nested command args w) r).Bounded (r.rest.count '[') P := by
  unfold dispatchWith
  split
  · rename_i p hp
    exact absurd hp (h.resolve_ne_procedure command p)
  · rename_i p hp
    obtain ⟨b, rfl, hproc, hload⟩ := h.builtin_of_resolve hp
    exact bounded_performBuiltin (w := w.note _) h hproc hload args r P
  · exact .error h (Nat.le_refl _) _

variable (hn : nested.EndsBelow levels) (h : w.scope.Flat) (r : Reader)
include hn h

/-- A block is one bracket shorter than its source, so one level less will do. -/
lemma bounded_argument (t : Text) :
    (argument nested t r w).Bounded (r.rest.count '[')
      (t.count '[' + r.rest.count '[' ≤ levels) := by
  by_cases hv : ∃ name, t = '$' :: name
  · obtain ⟨name, rfl⟩ := hv
    rw [argument_variable]
    split
    · exact .ok h (Nat.le_refl _) _
    · exact .error h (Nat.le_refl _) _
  by_cases hb : t = openBlock
  · subst hb
    have hcollect : (collect 0 r w).world.scope.Flat := by rwa [scope_collect]
    have hcount := count_collect r w 0
    rw [argument_openBlock]
    cases hc : (collect 0 r w).closed with
    | true =>
      have hblock := hn .unit (.ofText (collect 0 r w).code) hcollect
      rw [evalBlock_of_closed _ _ _ hc]
      refine ⟨hblock.flat, (Nat.le_add_left _ _).trans hcount, fun hle => hblock.ended ?_⟩
      rw [count_openBlock] at hle
      rw [Reader.rest_ofText]
      omega
    | false =>
      rw [evalBlock_of_unclosed _ _ _ hc]
      exact .error hcollect ((Nat.le_add_left _ _).trans hcount) _
  · rw [argument_word _ _ _ (fun name heq => hv ⟨name, heq⟩) hb]
    exact .ok h (Nat.le_refl _) t

lemma bounded_arguments :
    (arguments nested r w).Bounded (r.rest.count '[') (r.rest.count '[' ≤ levels) := by
  induction r using Reader.induction_on_rest generalizing w with
  | step r ih =>
    have hpull : (pull r w).world.scope.Flat := by rwa [scope_pull]
    have hcount := count_rest_pull_le r w
    rw [arguments_eq]
    split
    · exact .ok hpull hcount []
    · rename_i t ht
      have hlt := length_rest_pull_lt ht
      have htoken := count_pull r w ht
      split
      · exact (ih _ hlt hpull).mono hcount hcount.trans
      split
      · exact .ok hpull hcount []
      · have harg := bounded_argument hn hpull (pull r w).reader t
        refine (harg.mono hcount htoken.trans).bind fun value => ?_
        have hle := length_rest_argument_le nested t (pull r w).reader (pull r w).world
        have hrest := ih _ (Nat.lt_of_le_of_lt hle hlt) harg.flat
        have hleft := harg.count_le.trans hcount
        exact (hrest.mono hleft hleft.trans).map _

lemma bounded_evalUnit :
    (evalUnit files nested r w).Bounded (r.rest.count '[') (r.rest.count '[' ≤ levels) := by
  have hargs := bounded_arguments hn h r
  rw [evalUnit_eq]
  refine hargs.bind fun args => ?_
  cases args with
  | nil => exact .ok hargs.flat hargs.count_le []
  | cons command args =>
    exact (bounded_dispatchWith hargs.flat command args _ _).mono hargs.count_le id

lemma bounded_evalBody (last : Text) :
    (evalBody files nested last r w).Bounded (r.rest.count '[') (r.rest.count '[' ≤ levels) := by
  induction r using Reader.induction_on_rest generalizing last w with
  | step r ih =>
    have hlook : (look r w).world.scope.Flat := by rwa [scope_look]
    have hcount : (look r w).reader.rest.count '[' ≤ r.rest.count '[' := by rw [rest_look]
    by_cases hr : r.rest = []
    · rw [evalBody_of_rest_eq_nil _ _ _ _ _ hr]
      exact .ok hlook hcount last
    · have hunit : (evalUnit files nested (look r w).reader (look r w).world).Bounded _ _ :=
        bounded_evalUnit hn hlook _
      rw [evalBody_of_rest_ne_nil _ _ _ _ _ hr]
      refine (hunit.mono hcount hcount.trans).bind fun value => ?_
      have hrest := ih _ (length_rest_evalUnit_look_lt w nested files hr) hunit.flat value
      have hleft := hunit.count_le.trans hcount
      exact hrest.mono hleft hleft.trans

end Walk

/-- In a namespace without procedures, evaluation ends if more levels are allowed than there are
opening brackets. -/
theorem bounded_run (files : Files) (levels : Nat) : (run files levels).EndsBelow levels := by
  induction levels with
  | zero => exact fun _ r _ h => ⟨h, Nat.le_refl _, fun hlt => absurd hlt (Nat.not_lt_zero _)⟩
  | succ levels ih =>
    intro extent r w h
    cases extent with
    | unit => exact (bounded_evalUnit ih h r).mono (Nat.le_refl _) Nat.le_of_lt_succ
    | body => exact (bounded_evalBody ih h r []).mono (Nat.le_refl _) Nat.le_of_lt_succ

/-! ### How far down an evaluation gets -/

namespace Task

/-- The task has no procedures to call, and it is further down only as far as brackets have been
taken off the `n` of them with which an evaluation with so many levels began. -/
def Shallow (levels n : Nat) : Task → Prop
  | script depth _ r w => w.scope.Flat ∧ levels + r.rest.count '[' ≤ depth + n
  | units depth _ r w | reading depth r w =>
    w.scope.Flat ∧ levels + r.rest.count '[' ≤ depth + 1 + n
  | command _ _ _ w => w.scope.Flat
  | loading .. => False

variable {files : Files} {levels n : Nat} {task task' : Task}

/-- One more level down means one bracket less. -/
lemma Shallow.of_starts (h : task.Shallow levels n) (hs : task.Starts files task') :
    task'.Shallow levels n := by
  cases hs with
  | body depth r w => exact h
  | unit depth last w _ =>
    refine ⟨by rw [scope_look]; exact h.1, ?_⟩
    rw [rest_look]
    exact h.2
  | @nextUnit depth last r r' w w' value _ hrun =>
    have hlook : (look r w).world.scope.Flat := by rw [scope_look]; exact h.1
    have hunit := bounded_run files (depth + 1) .unit (look r w).reader hlook
    rw [hrun, rest_look] at hunit
    exact ⟨hunit.flat, (Nat.add_le_add_left hunit.count_le _).trans h.2⟩
  | line depth r w => exact h
  | @command depth r r' w w' name args hread =>
    have hargs := bounded_arguments (bounded_run files depth) h.1 r
    rw [hread] at hargs
    exact hargs.flat
  | @empty depth r w _ =>
    have hcount := count_rest_pull_le r w
    exact ⟨by rw [scope_pull]; exact h.1, (Nat.add_le_add_left hcount _).trans h.2⟩
  | @block depth r w c ht hc _ =>
    have htoken := count_pull r w ht
    have hcount := count_collect (pull r w).reader (pull r w).world 0
    have hscope := scope_collect (pull r w).reader (pull r w).world 0
    rw [hc] at hcount hscope
    rw [count_openBlock] at htoken
    obtain ⟨hflat, hle⟩ := h
    refine ⟨by rwa [hscope, scope_pull], ?_⟩
    rw [Reader.rest_ofText]
    omega
  | @nextArgument depth r r' w w' t value ht _ _ hvalue =>
    have hpull : (pull r w).world.scope.Flat := by rw [scope_pull]; exact h.1
    have harg := bounded_argument (bounded_run files depth) hpull (pull r w).reader t
    rw [hvalue] at harg
    have hleft := harg.count_le.trans (count_rest_pull_le r w)
    exact ⟨harg.flat, (Nat.add_le_add_left hleft _).trans h.2⟩
  | @call depth name args w p hp => exact absurd hp (Namespace.Flat.resolve_ne_procedure h name p)
  | @load depth name file w hp =>
    obtain ⟨b, hb, -, hload⟩ := Namespace.Flat.builtin_of_resolve h hp
    exact absurd (Primitive.builtin.inj hb).symm hload
  | file => exact h.elim

lemma Shallow.of_leadsTo (h : task.Shallow levels n) (hl : task.LeadsTo files task') :
    task'.Shallow levels n := by
  induction hl with
  | refl => exact h
  | tail _ hs ih => exact ih.of_starts hs

end Task

/-- The text of a block holds fewer opening brackets than its source with the bracket that opens
the block.  So in a namespace without procedures every evaluation ends, however many levels beyond
the number of opening brackets are allowed, and none of the scripts in its course is further down
than by that number of levels. -/
theorem nesting_bounded_by_brackets (files : Files) :
    (∀ r w, let c := collect 0 r w
      ∃ inside, r.rest = inside ++ c.reader.rest ∧
        c.code.count '[' < (openBlock ++ inside).count '[') ∧
      ∀ (extent : Extent) (r : Reader) (w : World), w.scope.Flat →
        (∃ x : Run Text, x.outcome ≠ .unfinished ∧
          ∀ levels, r.rest.count '[' < levels → run files levels extent r w = x) ∧
        ∀ levels depth extent' r' w',
          (Task.script levels extent r w).LeadsTo files (.script depth extent' r' w') →
          levels ≤ depth + r.rest.count '[' := by
  refine ⟨fun r w => ?_, fun extent r w hflat => ⟨?_, fun levels depth extent' r' w' hl => ?_⟩⟩
  · obtain ⟨inside, hinside⟩ := rest_collect_suffix r w 0
    have hcount := count_collect r w 0
    rw [← hinside, List.count_append] at hcount
    refine ⟨inside, hinside.symm, ?_⟩
    rw [List.count_append, count_openBlock]
    omega
  · let least := r.rest.count '[' + 1
    have hended := (bounded_run files least extent r hflat).ended (Nat.lt_succ_self _)
    exact ⟨run files least extent r w, hended, fun levels hlt => run_of_le files hlt hended⟩
  · have hstart : (Task.script levels extent r w).Shallow levels (r.rest.count '[') :=
      ⟨hflat, Nat.le_refl _⟩
    obtain ⟨-, hle⟩ := hstart.of_leadsTo hl
    exact (Nat.le_add_right _ _).trans hle

/-- The literal in the block becomes a block itself when the text of the outer block is read.  So
there are blocks two levels down, as many as there are opening brackets. -/
theorem literal_becomes_block :
    let files : Files := fun _ => .error .notFound
    let n := Namespace.empty.register "set".toList (.builtin .set)
    let w : World := ⟨n, {}⟩
    let r := Reader.ofText "set y [set x \x7b[set z 1]\x7d]\n".toList
    n.Flat ∧ r.rest.count '[' = 2 ∧
      (∀ levels, 2 < levels → (run files levels .unit r w).outcome = .ok "1".toList) ∧
      (run files 2 .unit r w).outcome = .unfinished ∧
      ∀ levels depth extent r' w',
        (Task.script levels .unit r w).LeadsTo files (.script depth extent r' w') →
        levels ≤ depth + 2 := by
  intro files n w r
  have hflat : n.Flat := Namespace.flat_empty.register _ (by decide) (by decide)
  obtain ⟨⟨x, -, hx⟩, hdown⟩ := (nesting_bounded_by_brackets files).2 .unit r w hflat
  have hcount : r.rest.count '[' = 2 := by decide
  have hthree : (run files 3 .unit r w).outcome = .ok "1".toList := by decide +kernel
  rw [hcount] at hx
  refine ⟨hflat, hcount, fun levels hlt => ?_, by decide +kernel, hdown⟩
  rw [hx levels hlt, ← hx 3 (by decide), hthree]

end LineScript
