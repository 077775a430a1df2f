/-
# The texts that count as numbers

The operators take those texts as numbers that a regular expression describes, `Decimal.numeral`: an
optional sign; digits with an optional point among or behind them, or a point with digits behind it;
and optionally an exponent, which is a mark with an optional sign and digits.

Texts are read from left to right without going back, while the expression leaves open how a text is
cut.  Both come to the same (`isSome_read?_iff`), since what follows a part never begins like the
part itself: an exponent begins neither with a digit nor with a point, so that the digits taken off
a text are those of any way to cut it (`Cut.take_append`), and a number without its sign does not
begin with a sign (`mem_sign_mul`).
-/
import LineScript.Eval.Run
import Mathlib.Computability.RegularExpressions
import Mathlib.Tactic.IntervalCases

namespace LineScript

namespace Decimal

open RegularExpression

/-! ### The expression -/

/-- One of the given characters. -/
def oneOf (cs : Text) : RegularExpression Char := (cs.map char).sum

/-- The expression may be left out. -/
def optional (P : RegularExpression Char) : RegularExpression Char := 1 + P

/-- The expression stands there once or several times. -/
def oneOrMore (P : RegularExpression Char) : RegularExpression Char := P * P.star

def digits : Text := "0123456789".toList

def signs : Text := ['+', '-']

def digit : RegularExpression Char := oneOf digits

def point : RegularExpression Char := oneOf ['.']

def sign : RegularExpression Char := optional (oneOf signs)

/-- The part of a number between its sign and its exponent. -/
def coefficient : RegularExpression Char :=
  oneOrMore digit * (optional point * digit.star) + point * oneOrMore digit

def exponent : RegularExpression Char := oneOf ['e', 'E'] * (sign * oneOrMore digit)

/-- The texts that are numbers. -/
def numeral : RegularExpression Char := sign * (coefficient * optional exponent)

/-! ### Texts that match -/

section Matching

variable {cs s : Text} {P : RegularExpression Char}

lemma mem_oneOf : s ∈ (oneOf cs).matches' ↔ ∃ c ∈ cs, s = [c] := by
  induction cs with
  | nil => simp [oneOf]
  | cons c cs ih =>
    have hsum : oneOf (c :: cs) = char c + oneOf cs := rfl
    rw [hsum, matches'_add, Language.mem_add, ih, List.exists_mem_cons_iff]
    rfl

lemma mem_optional : s ∈ (optional P).matches' ↔ s = [] ∨ s ∈ P.matches' := Iff.rfl

lemma mem_oneOf_mul :
    s ∈ (oneOf cs * P).matches' ↔ ∃ c ∈ cs, ∃ u ∈ P.matches', s = c :: u := by
  rw [matches'_mul, Language.mem_mul]
  constructor
  · rintro ⟨a, ha, u, hu, rfl⟩
    obtain ⟨c, hc, rfl⟩ := mem_oneOf.mp ha
    exact ⟨c, hc, u, hu, rfl⟩
  · rintro ⟨c, hc, u, hu, rfl⟩
    exact ⟨[c], mem_oneOf.mpr ⟨c, hc, rfl⟩, u, hu, rfl⟩

lemma mem_optional_oneOf_mul :
    s ∈ (optional (oneOf cs) * P).matches' ↔
      s ∈ P.matches' ∨ ∃ c ∈ cs, ∃ u ∈ P.matches', s = c :: u := by
  have hadd : (optional (oneOf cs) * P).matches' = P.matches' + (oneOf cs * P).matches' := by
    rw [optional, matches'_mul, matches'_mul, matches'_add, matches'_epsilon, add_mul, one_mul]
  rw [hadd, Language.mem_add, mem_oneOf_mul]

lemma mem_star_oneOf : s ∈ (oneOf cs).star.matches' ↔ ∀ c ∈ s, c ∈ cs := by
  rw [matches'_star, Language.mem_kstar]
  constructor
  · rintro ⟨parts, rfl, hparts⟩ c hc
    obtain ⟨part, hpart, hc⟩ := List.mem_flatten.mp hc
    obtain ⟨d, hd, rfl⟩ := mem_oneOf.mp (hparts part hpart)
    exact List.mem_singleton.mp hc ▸ hd
  · intro hs
    refine ⟨s.map ([·]), (List.flatMap_singleton' s).symm, fun part hpart => ?_⟩
    obtain ⟨c, hc, rfl⟩ := List.mem_map.mp hpart
    exact mem_oneOf.mpr ⟨c, hs c hc, rfl⟩

lemma mem_oneOrMore_oneOf :
    s ∈ (oneOrMore (oneOf cs)).matches' ↔ s ≠ [] ∧ ∀ c ∈ s, c ∈ cs := by
  rw [oneOrMore, mem_oneOf_mul]
  constructor
  · rintro ⟨c, hc, u, hu, rfl⟩
    exact ⟨List.cons_ne_nil c u, List.forall_mem_cons.mpr ⟨hc, mem_star_oneOf.mp hu⟩⟩
  · rintro ⟨hne, hs⟩
    obtain ⟨c, u, rfl⟩ := List.exists_cons_of_ne_nil hne
    obtain ⟨hc, hu⟩ := List.forall_mem_cons.mp hs
    exact ⟨c, hc, u, mem_star_oneOf.mpr hu, rfl⟩

end Matching

lemma mem_digits_iff {c : Char} : c ∈ digits ↔ c.isDigit = true := by
  constructor
  · intro h
    have hall : digits.all Char.isDigit = true := by decide
    exact List.all_eq_true.mp hall c h
  · intro h
    obtain ⟨hlow, hhigh⟩ : 48 ≤ c.toNat ∧ c.toNat ≤ 57 := Char.isDigit_iff_toNat.mp h
    rw [← Char.ofNat_toNat c]
    generalize c.toNat = n at hlow hhigh
    interval_cases n <;> decide

lemma not_mem_digits_of_mem_signs {c : Char} (h : c ∈ signs) : c ∉ '.' :: digits := by
  rcases List.mem_pair.mp h with rfl | rfl
  · decide
  · decide

/-! ### Reading from left to right -/

lemma takeSign_cases (s : Text) :
    (∃ c ∈ signs, s = c :: (takeSign s).2) ∨
      (takeSign s).2 = s ∧ ∀ c ∈ signs, ∀ u, s ≠ c :: u := by
  unfold takeSign
  split
  · exact .inl ⟨'+', by decide, rfl⟩
  · exact .inl ⟨'-', by decide, rfl⟩
  · rename_i hplus hminus
    refine .inr ⟨rfl, fun c hc u hs => ?_⟩
    rcases List.mem_pair.mp hc with rfl | rfl
    · exact hplus u hs
    · exact hminus u hs

/-- Where no sign may follow a sign, the one that is taken off is the optional one. -/
lemma mem_sign_mul {P : RegularExpression Char}
    (hP : ∀ c ∈ signs, ∀ u, c :: u ∉ P.matches') (s : Text) :
    s ∈ (sign * P).matches' ↔ (takeSign s).2 ∈ P.matches' := by
  rw [sign, mem_optional_oneOf_mul]
  rcases takeSign_cases s with ⟨c, hc, hs⟩ | ⟨hs, hno⟩
  · constructor
    · rintro (h | ⟨d, -, u, hu, hd⟩)
      · exact absurd (hs ▸ h) (hP c hc _)
      · rw [(List.cons.inj (hs.symm.trans hd)).2]
        exact hu
    · exact fun h => .inr ⟨c, hc, _, h, hs⟩
  · rw [hs]
    exact or_iff_left fun ⟨c, hc, u, _, h⟩ => hno c hc u h

lemma isSome_readExponent?_cons (c : Char) (cs : Text) :
    (readExponent? (c :: cs)).isSome = true ↔
      c ∈ ['e', 'E'] ∧ (takeSign cs).2 ≠ [] ∧ ∀ d ∈ (takeSign cs).2, d ∈ digits := by
  rw [readExponent?, List.mem_pair]
  simp only [mem_digits_iff, ← List.all_eq_true]
  split_ifs <;> simp_all

lemma isSome_readExponent?_iff (s : Text) :
    (readExponent? s).isSome = true ↔ s ∈ (optional exponent).matches' := by
  have hno : ∀ c ∈ signs, ∀ u, c :: u ∉ (oneOrMore digit).matches' := by
    intro c hc u hu
    have hdigit : c ∈ digits := (mem_oneOrMore_oneOf.mp hu).2 c List.mem_cons_self
    exact not_mem_digits_of_mem_signs hc (List.mem_cons_of_mem _ hdigit)
  cases s with
  | nil => exact iff_of_true rfl (.inl rfl)
  | cons c cs =>
    rw [isSome_readExponent?_cons, mem_optional, exponent, mem_oneOf_mul, ← mem_oneOrMore_oneOf]
    constructor
    · rintro ⟨hc, hcs⟩
      exact .inr ⟨c, hc, cs, (mem_sign_mul hno cs).mpr hcs, rfl⟩
    · rintro (h | ⟨d, hd, u, hu, h⟩)
      · exact nomatch h
      · obtain ⟨rfl, rfl⟩ := List.cons.inj h
        exact ⟨hd, (mem_sign_mul hno cs).mp hu⟩

/-- The text is cut into digits and, behind a point that may be missing, further digits. -/
structure Cut (s whole fraction : Text) : Prop where
  whole_digits : ∀ c ∈ whole, c ∈ digits
  fraction_digits : ∀ c ∈ fraction, c ∈ digits
  text_eq : s = whole ++ '.' :: fraction ∨ fraction = [] ∧ s = whole

section Cut

variable {s whole fraction : Text}

/-- A coefficient has at least one digit, on either side of the point. -/
lemma exists_cut_of_mem (h : s ∈ coefficient.matches') :
    ∃ whole fraction, Cut s whole fraction ∧ ¬(whole = [] ∧ fraction = []) := by
  rcases h with ⟨whole, hwhole, u, hu, rfl⟩ | h
  · obtain ⟨hne, hwhole⟩ := mem_oneOrMore_oneOf.mp hwhole
    rcases mem_optional_oneOf_mul.mp hu with hu | ⟨c, hc, fraction, hfraction, rfl⟩
    · have hall := List.forall_mem_append.mpr ⟨hwhole, mem_star_oneOf.mp hu⟩
      exact ⟨whole ++ u, [], ⟨hall, nofun, .inr ⟨rfl, rfl⟩⟩,
        fun hnil => hne (List.append_eq_nil_iff.mp hnil.1).1⟩
    · obtain rfl := List.mem_singleton.mp hc
      exact ⟨whole, fraction, ⟨hwhole, mem_star_oneOf.mp hfraction, .inl rfl⟩,
        fun hnil => hne hnil.1⟩
  · obtain ⟨c, hc, fraction, hfraction, rfl⟩ := mem_oneOf_mul.mp h
    obtain ⟨hne, hfraction⟩ := mem_oneOrMore_oneOf.mp hfraction
    obtain rfl := List.mem_singleton.mp hc
    exact ⟨[], fraction, ⟨nofun, hfraction, .inl rfl⟩, fun hnil => hne hnil.2⟩

lemma Cut.mem_coefficient (h : Cut s whole fraction) (hne : ¬(whole = [] ∧ fraction = [])) :
    s ∈ coefficient.matches' := by
  have hpoint : '.' ∈ ['.'] := List.mem_singleton_self _
  by_cases hw : whole = []
  · subst hw
    have hf : fraction ≠ [] := fun hf => hne ⟨rfl, hf⟩
    obtain rfl := h.text_eq.resolve_right fun hr => hf hr.1
    have hfraction := mem_oneOrMore_oneOf.mpr ⟨hf, h.fraction_digits⟩
    exact .inr (mem_oneOf_mul.mpr ⟨'.', hpoint, fraction, hfraction, rfl⟩)
  · have hwhole := mem_oneOrMore_oneOf.mpr ⟨hw, h.whole_digits⟩
    have hfraction := mem_star_oneOf.mpr h.fraction_digits
    rcases h.text_eq with rfl | ⟨rfl, rfl⟩
    · refine .inl ⟨whole, hwhole, '.' :: fraction, ?_, rfl⟩
      exact mem_optional_oneOf_mul.mpr (.inr ⟨'.', hpoint, fraction, hfraction, rfl⟩)
    · refine .inl ⟨s, hwhole, [], ?_, List.append_nil s⟩
      exact mem_optional_oneOf_mul.mpr (.inl hfraction)

/-- A coefficient begins with a digit or a point. -/
lemma exists_cons_of_mem_coefficient (h : s ∈ coefficient.matches') :
    ∃ c ∈ '.' :: digits, ∃ u, s = c :: u := by
  rcases h with ⟨whole, hwhole, u, -, rfl⟩ | h
  · obtain ⟨c, hc, v, -, rfl⟩ := mem_oneOf_mul.mp hwhole
    exact ⟨c, List.mem_cons_of_mem _ hc, v ++ u, rfl⟩
  · obtain ⟨c, hc, u, -, rfl⟩ := mem_oneOf_mul.mp h
    exact ⟨c, List.mem_cons.mpr (.inl (List.mem_singleton.mp hc)), u, rfl⟩

end Cut

lemma head_of_mem_exponent {c : Char} {u : Text} (h : c :: u ∈ (optional exponent).matches') :
    c ∉ '.' :: digits := by
  obtain ⟨d, hd, v, -, hcons⟩ := mem_oneOf_mul.mp (h.resolve_left (List.cons_ne_nil c u))
  obtain ⟨rfl, rfl⟩ := List.cons.inj hcons
  rcases List.mem_pair.mp hd with rfl | rfl
  · decide
  · decide

lemma append_takeDigits (t : Text) : (takeDigits t).1 ++ (takeDigits t).2 = t :=
  List.takeWhile_append_dropWhile

lemma mem_digits_of_mem_takeDigits {t : Text} {c : Char} (h : c ∈ (takeDigits t).1) : c ∈ digits :=
  mem_digits_iff.mpr (List.all_eq_true.mp List.all_takeWhile c h)

lemma takeDigits_append {ds u : Text} (hds : ∀ c ∈ ds, c ∈ digits)
    (hu : ∀ c v, u = c :: v → c ∉ digits) : takeDigits (ds ++ u) = (ds, u) := by
  have hds : ∀ c ∈ ds, c.isDigit = true := fun c hc => mem_digits_iff.mp (hds c hc)
  rw [takeDigits, List.takeWhile_append_of_pos hds, List.dropWhile_append_of_pos hds]
  cases u with
  | nil => rw [List.takeWhile_nil, List.dropWhile_nil, List.append_nil]
  | cons c v =>
    have hc : ¬c.isDigit = true := fun hc => hu c v rfl (mem_digits_iff.mpr hc)
    rw [List.takeWhile_cons_of_neg hc, List.dropWhile_cons_of_neg hc, List.append_nil]

lemma takeFraction_of_ne {u : Text} (h : ∀ v, u ≠ '.' :: v) : takeFraction u = ([], u) := by
  unfold takeFraction
  split
  · exact absurd rfl (h _)
  · rfl

/-- What is taken off a text is a cut of what stands before the rest. -/
lemma exists_cut_take (t : Text) :
    ∃ s, Cut s (takeDigits t).1 (takeFraction (takeDigits t).2).1 ∧
      s ++ (takeFraction (takeDigits t).2).2 = t := by
  have ht := append_takeDigits t
  have hwhole : ∀ c ∈ (takeDigits t).1, c ∈ digits := fun c => mem_digits_of_mem_takeDigits
  by_cases hpoint : ∃ v, (takeDigits t).2 = '.' :: v
  · obtain ⟨v, hv⟩ := hpoint
    rw [hv] at ht ⊢
    refine ⟨_, ⟨hwhole, fun c => mem_digits_of_mem_takeDigits, .inl rfl⟩, ?_⟩
    rw [List.append_assoc, List.cons_append, takeFraction, append_takeDigits, ht]
  · rw [takeFraction_of_ne (not_exists.mp hpoint)]
    exact ⟨_, ⟨hwhole, nofun, .inr ⟨rfl, rfl⟩⟩, ht⟩

/-- If the rest begins neither with a digit nor with a point, then any cut of what stands before it
is what is taken off. -/
lemma Cut.take_append {s whole fraction rest : Text} (h : Cut s whole fraction)
    (hrest : ∀ c u, rest = c :: u → c ∉ '.' :: digits) :
    (takeDigits (s ++ rest)).1 = whole ∧
      takeFraction (takeDigits (s ++ rest)).2 = (fraction, rest) := by
  have hdigit : ∀ c u, rest = c :: u → c ∉ digits :=
    fun c u hu hc => hrest c u hu (List.mem_cons_of_mem _ hc)
  rcases h.text_eq with rfl | ⟨rfl, rfl⟩
  · rw [List.append_assoc, takeDigits_append h.whole_digits (by rintro c v ⟨⟩; decide)]
    exact ⟨rfl, takeDigits_append h.fraction_digits hdigit⟩
  · rw [takeDigits_append h.whole_digits hdigit]
    exact ⟨rfl, takeFraction_of_ne fun v hv => hrest '.' v hv List.mem_cons_self⟩

lemma isSome_read?_eq (s : Text) :
    (read? s).isSome = true ↔
      ¬((takeDigits (takeSign s).2).1 = [] ∧
          (takeFraction (takeDigits (takeSign s).2).2).1 = []) ∧
        (readExponent? (takeFraction (takeDigits (takeSign s).2).2).2).isSome = true := by
  rw [read?, Option.isSome_map]
  simp only [Numeral.read?]
  split_ifs with h
  · exact iff_of_false Bool.false_ne_true fun hr => hr.1 h
  · rw [Option.isSome_map]
    exact (and_iff_right h).symm

/-- A text is read as a number if and only if it matches. -/
theorem isSome_read?_iff (s : Text) : (read? s).isSome = true ↔ s ∈ numeral.matches' := by
  have hno : ∀ c ∈ signs, ∀ u, c :: u ∉ (coefficient * optional exponent).matches' := by
    rintro c hc u ⟨t, ht, e, -, happend⟩
    obtain ⟨d, hd, v, rfl⟩ := exists_cons_of_mem_coefficient ht
    obtain rfl : d = c := (List.cons.inj happend).1
    exact not_mem_digits_of_mem_signs hc hd
  rw [numeral, mem_sign_mul hno, isSome_read?_eq, matches'_mul, Language.mem_mul]
  constructor
  · rintro ⟨hne, hexp⟩
    obtain ⟨t, hcut, happend⟩ := exists_cut_take (takeSign s).2
    exact ⟨t, hcut.mem_coefficient hne, _, (isSome_readExponent?_iff _).mp hexp, happend⟩
  · rintro ⟨t, ht, e, he, happend⟩
    obtain ⟨whole, fraction, hcut, hne⟩ := exists_cut_of_mem ht
    have hrest : ∀ c u, e = c :: u → c ∉ '.' :: digits :=
      fun c u hu => head_of_mem_exponent (hu ▸ he)
    obtain ⟨hwhole, hfraction⟩ := hcut.take_append hrest
    rw [← happend, hwhole, hfraction]
    exact ⟨hne, (isSome_readExponent?_iff e).mpr he⟩

/-- Texts that come close to numbers, or are numbers elsewhere. -/
example :
    ∀ s ∈ ["", "-", ".", "e5", "1e", "1e+", "1.2.3", " 3", "3 ", "3\n", "0x10", "1_000", "inf",
      "NaN", "infinity", "\u0663"], s.toList ∉ numeral.matches' := by
  decide +kernel

/-- No text is read as a datum that is not a number. -/
lemma isNaN_of_read? {s : Text} {x : Binary64} (h : read? s = some x) : x.isNaN = false := by
  obtain ⟨n, -, rfl⟩ := Option.map_eq_some_iff.mp h
  exact decide_eq_false (Nat.not_lt.mpr (nearest_le_infinity n.coefficient n.exponent))

end Decimal

/-! ### The operators -/

/-- The builtins that take two numbers: the arithmetic operators and the comparisons. -/
inductive Builtin.IsOperator : Builtin → Prop
  | arithmetic (op : Arithmetic) : IsOperator (.arithmetic op)
  | comparison (op : Comparison) : IsOperator (.comparison op)

lemma number_of_mem {a : Text} (h : a ∈ Decimal.numeral.matches') : ∃ x, number a = .ok x := by
  obtain ⟨x, hx⟩ := Option.isSome_iff_exists.mp ((Decimal.isSome_read?_iff a).mpr h)
  exact ⟨x, by rw [number, hx]⟩

lemma number_of_not_mem {a : Text} (h : a ∉ Decimal.numeral.matches') :
    number a = .error (.notNumber a) := by
  have hnone : Decimal.read? a = none :=
    Option.not_isSome_iff_eq_none.mp fun hs => h ((Decimal.isSome_read?_iff a).mp hs)
  rw [number, hnone]

/-- A command that stands for a builtin is noted, and then the builtin is performed. -/
lemma dispatch_builtin (files : Files) (depth : Nat) {w : World} {command : Text} {b : Builtin}
    (h : w.scope.resolve command = .primitive (.builtin b)) (args : List Text) :
    dispatch files depth command args w = performBuiltin files (run files depth) b args
      (w.note (.callingPrimitive command args.length)) := by
  show dispatchWith .. = _
  rw [dispatchWith, h]
  rfl

/-- A builtin that hands the numbers it is given over to a function gives the value of this
function. -/
lemma outcome_of_withNumbers (files : Files) (depth : Nat) {w : World} {command : Text} {b : Builtin}
    (h : w.scope.resolve command = .primitive (.builtin b)) {s t : Text} {x y : Binary64}
    {f : Binary64 → Binary64 → Text}
    (hf : ∀ nested v, performBuiltin files nested b [s, t] v = ⟨.ofExcept (withNumbers s t f), v⟩)
    (hs : Decimal.read? s = some x) (ht : Decimal.read? t = some y) :
    (dispatch files depth command [s, t] w).outcome = .ok (f x y) := by
  have hx : number s = .ok x := by rw [number, hs]
  have hy : number t = .ok y := by rw [number, ht]
  rw [dispatch_builtin files depth h, hf, withNumbers, hx, hy]
  rfl

section Operators

variable {b : Builtin} (h : b.IsOperator) (files : Files) (nested : Evaluation) (w : World)
include h

lemma performBuiltin_of_length_ne {args : List Text} (hlen : args.length ≠ 2) :
    performBuiltin files nested b args w = ⟨.error (.wrongArity b.name), w⟩ := by
  cases h <;> match args, hlen with
  | [], _ | [_], _ | _ :: _ :: _ :: _, _ => rfl

lemma performBuiltin_pair (x y : Text) :
    ∃ f, performBuiltin files nested b [x, y] w = ⟨.ofExcept (withNumbers x y f), w⟩ := by
  cases h with
  | arithmetic op => exact ⟨_, rfl⟩
  | comparison op => exact ⟨_, rfl⟩

end Operators

section Dispatch

variable {b : Builtin} (hb : b.IsOperator) (files : Files) (depth : Nat) {w : World}
  {command : Text} (h : w.scope.resolve command = .primitive (.builtin b))
include hb h

/-- What an operator comes to: it gives a value if it has two arguments and both are numbers.  All
that happens in the world is that the call is noted. -/
lemma operator_cases (args : List Text) :
    ∃ o, dispatch files depth command args w =
        ⟨o, w.note (.callingPrimitive command args.length)⟩ ∧
      (args.length ≠ 2 ∧ o = .error (.wrongArity b.name) ∨
        (args.length = 2 ∧ ∃ a, args.find? (· ∉ Decimal.numeral.matches') = some a ∧
          o = .error (.notNumber a)) ∨
        (args.length = 2 ∧ args.find? (· ∉ Decimal.numeral.matches') = none ∧
          ∃ value, o = .ok value)) := by
  rw [dispatch_builtin files depth h]
  by_cases hlen : args.length = 2
  · obtain ⟨x, y, rfl⟩ := List.length_eq_two.mp hlen
    obtain ⟨f, hf⟩ := performBuiltin_pair hb files (run files depth)
      (w.note (.callingPrimitive command [x, y].length)) x y
    refine ⟨_, hf, .inr ?_⟩
    rw [withNumbers]
    by_cases hx : x ∈ Decimal.numeral.matches'
    · obtain ⟨m, hm⟩ := number_of_mem hx
      by_cases hy : y ∈ Decimal.numeral.matches'
      · obtain ⟨n, hn⟩ := number_of_mem hy
        rw [hm, hn]
        exact .inr ⟨rfl, by simp [hx, hy], f m n, rfl⟩
      · rw [hm, number_of_not_mem hy]
        exact .inl ⟨rfl, y, by simp [hx, hy], rfl⟩
    · rw [number_of_not_mem hx]
      exact .inl ⟨rfl, x, by simp [hx], rfl⟩
  · exact ⟨_, performBuiltin_of_length_ne hb files _ _ hlen, .inl ⟨hlen, rfl⟩⟩

/-- An operator gives a value if and only if it has two arguments and both are numbers. -/
lemma exists_value_iff (args : List Text) :
    (∃ value, (dispatch files depth command args w).outcome = .ok value) ↔
      args.length = 2 ∧ ∀ arg ∈ args, arg ∈ Decimal.numeral.matches' := by
  have hall : (∀ arg ∈ args, arg ∈ Decimal.numeral.matches') ↔
      args.find? (· ∉ Decimal.numeral.matches') = none := by
    simp
  obtain ⟨o, hdispatch, hcases⟩ := operator_cases hb files depth h args
  rw [hdispatch, hall]
  rcases hcases with ⟨hlen, rfl⟩ | ⟨hlen, arg, hfind, rfl⟩ | ⟨hlen, hfind, value, rfl⟩
  · simp [hlen]
  · rw [hfind]
    simp
  · rw [hfind]
    simp [hlen]

end Dispatch

/-- A text is read as a number if and only if it matches the expression for numbers, and what is
read is a number.  Hence an operator that does not have two arguments fails with an error that names
it.  With two arguments, it fails with an error that names the first one that does not match if
there is one, and gives a value if there is none.  In each case all that happens is that the call is
noted. -/
theorem operators_take_numerals :
    (∀ s, (Decimal.read? s).isSome = true ↔ s ∈ Decimal.numeral.matches') ∧
    (∀ s x, Decimal.read? s = some x → x.isNaN = false) ∧
    ∀ (files : Files) (depth : Nat) (w : World) (command : Text) (b : Builtin), b.IsOperator →
      w.scope.resolve command = .primitive (.builtin b) → ∀ args : List Text,
        let a := dispatch files depth command args w
        (a.outcome = .error (.wrongArity b.name) ↔ args.length ≠ 2) ∧
        (∀ arg, a.outcome = .error (.notNumber arg) ↔
          args.length = 2 ∧ args.find? (· ∉ Decimal.numeral.matches') = some arg) ∧
        ((∃ value, a.outcome = .ok value) ↔
          args.length = 2 ∧ ∀ arg ∈ args, arg ∈ Decimal.numeral.matches') ∧
        a.world = w.note (.callingPrimitive command args.length) := by
  refine ⟨Decimal.isSome_read?_iff, fun s x => Decimal.isNaN_of_read?, ?_⟩
  intro files depth w command b hb hcommand args a
  obtain ⟨o, ha, hcases⟩ := operator_cases hb files depth hcommand args
  have hvalue := exists_value_iff hb files depth hcommand args
  have hworld : a.world = w.note (.callingPrimitive command args.length) := congrArg Answer.world ha
  have houtcome : a.outcome = o := congrArg Answer.outcome ha
  rw [houtcome]
  refine ⟨?_, fun arg => ?_, houtcome ▸ hvalue, hworld⟩
  · rcases hcases with ⟨hlen, rfl⟩ | ⟨hlen, arg, hfind, rfl⟩ | ⟨hlen, hfind, value, rfl⟩
    · simp [hlen]
    · simp [hlen]
    · simp [hlen]
  · rcases hcases with ⟨hlen, rfl⟩ | ⟨hlen, arg, hfind, rfl⟩ | ⟨hlen, hfind, value, rfl⟩
    · simp [hlen]
    · rw [hfind]
      simp [hlen]
    · rw [hfind]
      simp

/-- A comparison with too few arguments, with a second argument that has two points, with two
arguments that do not match, and with two numbers. -/
theorem comparison_of_near_numerals :
    let files : Files := fun _ => .error .notFound
    let w : World := ⟨.initial none, {}⟩
    let command := "<=".toList
    let b : Builtin := .comparison .le
    let outcome := fun args => (dispatch files 0 command args w).outcome
    b.IsOperator ∧ w.scope.resolve command = .primitive (.builtin b) ∧
      outcome [['1']] = .error (.wrongArity command) ∧
      outcome ["-2.5e+5".toList, "1.2.3".toList] = .error (.notNumber "1.2.3".toList) ∧
      outcome ["1e".toList, "inf".toList] = .error (.notNumber "1e".toList) ∧
      ∃ value, outcome ["+1.E3".toList, ".5".toList] = .ok value := by
  intro files w command b outcome
  have hb : b.IsOperator := .comparison .le
  have hcommand : w.scope.resolve command = .primitive (.builtin b) := rfl
  have h := operators_take_numerals.2.2 files 0 w command b hb hcommand
  refine ⟨hb, hcommand, ?_, ?_, ?_, ?_⟩
  · exact (h _).1.mpr (by decide)
  · exact ((h _).2.1 _).mpr (by decide +kernel)
  · exact ((h _).2.1 _).mpr (by decide +kernel)
  · exact (h _).2.2.1.mpr (by decide +kernel)

end LineScript
