/-
# Larger namespaces

A namespace can be enlarged by names that mean nothing in it.  An evaluation that misses no name
goes in the larger namespace as it does in the smaller one, whatever it defines on the way; and the
names it leaves there are those that it leaves in the smaller one, laid over those that the larger
one had from the start (`answer_of_isPart`).

The evaluation in the smaller namespace counts as lost when it misses a name.
-/
import LineScript.Proofs.Requests

namespace LineScript

/-! ### Tables and namespaces over others -/

/-- A table is another one laid over a base: it binds a name as the upper table does if that binds
it, and as the base does otherwise. -/
def Table.IsOverlay {α : Type} (whole upper base : Table α) : Prop :=
  ∀ name, whole.get? name = (upper.get? name).or (base.get? name)

namespace Table.IsOverlay

variable {α : Type} {whole upper base : Table α}

/-- What is bound in the upper table is bound in the whole. -/
lemma insert (h : whole.IsOverlay upper base) (name : Text) (a : α) :
    (whole.insert name a).IsOverlay (upper.insert name a) base := by
  intro other
  rw [get?_insert, get?_insert]
  split
  · rfl
  · exact h other

lemma of_subset (h : ∀ name a, upper.get? name = some a → base.get? name = some a) :
    base.IsOverlay upper base := by
  intro name
  cases hu : upper.get? name with
  | none => rfl
  | some a => exact h name a hu

lemma get?_of_some (h : whole.IsOverlay upper base) {name : Text} {a : α}
    (hu : upper.get? name = some a) : whole.get? name = some a := by
  rw [h name, hu]
  rfl

lemma get?_of_none (h : whole.IsOverlay upper base) {name : Text}
    (hu : upper.get? name = none) : whole.get? name = base.get? name := by
  rw [h name, hu]
  rfl

end Table.IsOverlay

/-- A namespace is another one laid over a base, table by table. -/
structure Namespace.IsOverlay (whole upper base : Namespace) : Prop where
  values : whole.values.IsOverlay upper.values base.values
  procedures : whole.procedures.IsOverlay upper.procedures base.procedures
  primitives : whole.primitives.IsOverlay upper.primitives base.primitives
  library_eq : whole.library = upper.library

/-- A namespace is part of another one, which binds all its names in the same way, and besides them
only variables that it does not know and commands that mean nothing in it. -/
structure Namespace.IsPart (n n' : Namespace) : Prop where
  values : ∀ name v, n.values.get? name = some v → n'.values.get? name = some v
  procedures : ∀ name p, n.procedures.get? name = some p → n'.procedures.get? name = some p
  primitives : ∀ name p, n.primitives.get? name = some p → n'.primitives.get? name = some p
  resolve_eq : ∀ name, n.resolve name ≠ .unbound → n'.resolve name = n.resolve name
  library_eq : n'.library = n.library

lemma Namespace.resolve_congr {n n' : Namespace} {name : Text}
    (hp : n'.procedures.get? name = n.procedures.get? name)
    (hq : n'.primitives.get? name = n.primitives.get? name) :
    n'.resolve name = n.resolve name := by
  simp only [resolve, hp, hq]

namespace Namespace.IsPart

variable {n n' : Namespace} {name : Text}

lemma refl (n : Namespace) : n.IsPart n :=
  ⟨fun _ _ h => h, fun _ _ h => h, fun _ _ h => h, fun _ _ => rfl, rfl⟩

/-- A variable can be added that the part does not know. -/
lemma setVariable (h : n.IsPart n') (hname : n.values.get? name = none) (value : Text) :
    n.IsPart (n'.setVariable name value) := by
  refine ⟨fun other v hv => ?_, h.procedures, h.primitives, h.resolve_eq, h.library_eq⟩
  have hne : other ≠ name := by
    rintro rfl
    rw [hname] at hv
    exact nomatch hv
  exact (Table.get?_insert_of_ne _ _ hne).trans (h.values other v hv)

/-- A procedure can be added whose name means nothing in the part. -/
lemma defineProcedure (h : n.IsPart n') (hname : n.resolve name = .unbound) (p : Procedure) :
    n.IsPart (n'.defineProcedure name p) := by
  refine ⟨h.values, fun other q hq => ?_, h.primitives, fun other hb => ?_, h.library_eq⟩
  · have hne : other ≠ name := by
      rintro rfl
      rw [resolve_eq_procedure_iff.mpr hq] at hname
      exact nomatch hname
    exact (Table.get?_insert_of_ne _ _ hne).trans (h.procedures other q hq)
  · have hne : other ≠ name := by
      rintro rfl
      exact hb hname
    rw [← h.resolve_eq other hb]
    exact resolve_congr (Table.get?_insert_of_ne _ _ hne) rfl

/-- A primitive can be added whose name means nothing in the part. -/
lemma register (h : n.IsPart n') (hname : n.resolve name = .unbound) (p : Primitive) :
    n.IsPart (n'.register name p) := by
  refine ⟨h.values, h.procedures, fun other q hq => ?_, fun other hb => ?_, h.library_eq⟩
  · have hne : other ≠ name := by
      rintro rfl
      rw [(resolve_eq_unbound_iff.mp hname).2] at hq
      exact nomatch hq
    exact (Table.get?_insert_of_ne _ _ hne).trans (h.primitives other q hq)
  · have hne : other ≠ name := by
      rintro rfl
      exact hb hname
    rw [← h.resolve_eq other hb]
    exact resolve_congr rfl (Table.get?_insert_of_ne _ _ hne)

end Namespace.IsPart

/-! ### Evaluation in a namespace and in one laid over a base -/

/-- The second world shows the same as the first one, and its names are those of the first one laid
over a base.  The base has no procedure that would come before a primitive of the first world. -/
structure World.Over (base : Namespace) (w w' : World) : Prop where
  console_eq : w'.console = w.console
  scope : w'.scope.IsOverlay w.scope base
  visible : ∀ {name p}, w.scope.resolve name = .primitive p → base.procedures.get? name = none

namespace World.Over

variable {base : Namespace} {w w' : World} (h : w.Over base w')
include h

/-- A command means the same in both worlds, unless it means nothing in the first one. -/
lemma resolve_eq {name : Text} (hb : w.scope.resolve name ≠ .unbound) :
    w'.scope.resolve name = w.scope.resolve name := by
  cases hr : w.scope.resolve name with
  | procedure p =>
    rw [Namespace.resolve_eq_procedure_iff] at hr ⊢
    exact h.scope.procedures.get?_of_some hr
  | primitive p =>
    have hbase := h.visible hr
    rw [Namespace.resolve_eq_primitive_iff] at hr ⊢
    refine ⟨?_, h.scope.primitives.get?_of_some hr.2⟩
    rw [h.scope.procedures.get?_of_none hr.1, hbase]
  | unbound => exact absurd hr hb

lemma set (name value : Text) :
    Over base { w with scope := w.scope.setVariable name value }
      { w' with scope := w'.scope.setVariable name value } where
  console_eq := h.console_eq
  scope := ⟨h.scope.values.insert name value, h.scope.procedures, h.scope.primitives,
    h.scope.library_eq⟩
  visible := h.visible

lemma define (name : Text) (p : Procedure) :
    Over base { w with scope := w.scope.defineProcedure name p }
      { w' with scope := w'.scope.defineProcedure name p } where
  console_eq := h.console_eq
  scope := ⟨h.scope.values, h.scope.procedures.insert name p, h.scope.primitives,
    h.scope.library_eq⟩
  visible {other q} hq := by
    -- the primitives that are left visible were so before
    rw [Namespace.resolve_eq_primitive_iff] at hq
    obtain ⟨hnone, hprim⟩ := hq
    change (w.scope.procedures.insert name p).get? other = none at hnone
    rw [Table.get?_insert] at hnone
    split at hnone
    · exact nomatch hnone
    · exact h.visible (Namespace.resolve_eq_primitive_iff.mpr ⟨hnone, hprim⟩)

end World.Over

/-- The same script in a namespace and in that namespace laid over a base: the first evaluation is
lost when it misses a name. -/
def Simulation.over (base : Namespace) : Simulation where
  reads := Eq
  rel := World.Over base
  lost stop _ _ := ∃ name, stop = some (.unknownVariable name) ∨ stop = some (.unknownCommand name)
  lost_grows h _ := h
  reads_refl _ := rfl
  rest_eq h := congrArg Reader.rest h
  reads_pull := pull_of_note _ fun n h => ⟨congrArg (·.note n) h.console_eq, h.scope, h.visible⟩
  reads_look := look_of_note _ fun n h => ⟨congrArg (·.note n) h.console_eq, h.scope, h.visible⟩
  rel_note n h := ⟨congrArg (·.note n) h.console_eq, h.scope, h.visible⟩
  rel_put {w w'} t h := by
    refine .inl ⟨?_, ?_, h.scope, h.visible⟩
    · change (w.console.writeText .script t).1 = (w'.console.writeText .script t).1
      rw [h.console_eq]
    · change (w'.console.writeText .script t).2 = (w.console.writeText .script t).2
      rw [h.console_eq]
  rel_value {w w'} name h := by
    cases hv : w.scope.values.get? name with
    | none => exact .inr ⟨rfl, name, .inl rfl⟩
    | some v => exact .inl (h.scope.values.get?_of_some hv).symm
  rel_resolve {w w'} name h := by
    by_cases hb : w.scope.resolve name = .unbound
    · exact .inr ⟨hb, name, .inr rfl⟩
    · exact .inl (h.resolve_eq hb).symm
  rel_library h := h.scope.library_eq.symm
  rel_set name value h := h.set name value
  rel_define name p h := h.define name p
  rel_leave h h' := ⟨h'.console_eq, h.scope, h.visible⟩

lemma Namespace.IsPart.over {n : Namespace} {w : World} (h : w.scope.IsPart n) :
    w.Over n { w with scope := n } where
  console_eq := rfl
  scope := ⟨.of_subset h.values, .of_subset h.procedures, .of_subset h.primitives, h.library_eq⟩
  visible {name p} hp := by
    have hn := h.resolve_eq name (by rw [hp]; exact nofun)
    rw [hp, resolve_eq_primitive_iff] at hn
    exact hn.1

/-- An evaluation that ends, and not because a name is missing, ends in the same way in a larger
namespace and shows the same there.  The names it leaves are those that it leaves in the smaller
namespace, laid over those of the larger one. -/
theorem answer_of_isPart (files : Files) (depth : Nat) (q : Request) {w : World} {n : Namespace}
    (hn : w.scope.IsPart n)
    (hend : (q.answer files depth w).outcome ≠ .unfinished)
    (hvalue : ∀ name, (q.answer files depth w).outcome ≠ .error (.unknownVariable name))
    (hcommand : ∀ name, (q.answer files depth w).outcome ≠ .error (.unknownCommand name)) :
    let small := q.answer files depth w
    let large := q.answer files depth { w with scope := n }
    large.outcome = small.outcome ∧ large.world.console = small.world.console ∧
      large.world.scope.IsOverlay small.world.scope n := by
  intro small large
  rcases (Simulation.over n).answer_cases files depth q hn.over with
    ⟨ho, hw⟩ | ⟨e, he, name, hstop⟩ | ⟨hu, -⟩
  · exact ⟨ho, hw.console_eq, hw.scope⟩
  · rcases hstop with hstop | hstop
    · rw [Option.some.inj hstop] at he
      exact absurd he (hvalue name)
    · rw [Option.some.inj hstop] at he
      exact absurd he (hcommand name)
  · exact absurd hu hend

/-- A script that binds names for itself which a larger namespace binds otherwise, and that fails
with an operand. -/
theorem own_names_in_larger_namespace :
    let files : Files := fun _ => .error .notFound
    let q : Request :=
      .text "proc g \x7ba\x7d \x7bset y $a\nputs $y\x7d\nset z [g $x]\n+ 1 $x".toList
    let w : World := ⟨(Namespace.initial none).setVariable "x".toList "one".toList, {}⟩
    let n := ((w.scope.setVariable "y".toList "2".toList).defineProcedure "g".toList
      ⟨[], "puts 3".toList⟩).register "add".toList (.builtin (.arithmetic .add))
    let small := q.answer files 4 w
    let large := q.answer files 4 { w with scope := n }
    w.scope.IsPart n ∧ small.outcome = .error (.notNumber "one".toList) ∧
      large.outcome = small.outcome ∧ large.world.console = small.world.console ∧
      large.world.scope.IsOverlay small.world.scope n := by
  intro files q w n small large
  have hpart : w.scope.IsPart n :=
    (((Namespace.IsPart.refl _).setVariable rfl _).defineProcedure rfl _).register rfl _
  have hsmall : small.outcome = .error (.notNumber "one".toList) := by decide +kernel
  refine ⟨hpart, hsmall, ?_⟩
  exact answer_of_isPart files 4 q hpart (hsmall ▸ nofun) (fun _ => hsmall ▸ nofun)
    fun _ => hsmall ▸ nofun

end LineScript
