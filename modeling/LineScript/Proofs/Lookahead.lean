/-
# What follows does not matter before it is looked at

A reader looks at no more of its text than it has to.  As long as it has not met the end of the
text, everything goes the same way whatever else follows the text, be it further characters or a
failure of the input.  This is shown for a token (`lex_append`), and then for everything that reads
tokens, up to a whole unit (`continued_run_unit`).

A reader that has not looked at what follows is right behind a character that ends tokens
(`Reader.Placed`).  In particular the character in front of it is not a replacement for bytes that
might go on behind it.
-/
import Mathlib.Data.List.TakeWhile
import LineScript.Proofs.Lines

namespace LineScript

/-! ### Tokens -/

section Tokens

variable {a : Text} (b : Text)

lemma skipComment_append (h : skipComment a ≠ []) : skipComment (a ++ b) = skipComment a ++ b := by
  have hne : (a.dropWhile (· ≠ '\n')).isEmpty = false := List.isEmpty_eq_false_iff.mpr h
  rw [skipComment, List.dropWhile_append, hne]
  rfl

lemma word_append (h : (word a).rest ≠ [] ∨ (word a).looked = false) :
    word (a ++ b) = ⟨(word a).text, (word a).rest ++ b, (word a).looked⟩ := by
  induction a with
  | nil => simp [word] at h
  | cons c a ih =>
    rw [List.cons_append]
    cases hr : role c with
    | solo =>
      rw [word_of_solo _ hr, word_of_solo _ hr]
      rfl
    | brace =>
      rw [word_of_brace _ hr, word_of_brace _ hr]
      rfl
    | hash =>
      rw [word_of_hash _ hr] at h
      have hne : skipComment a ≠ [] := by simpa using h
      rw [word_of_hash _ hr, word_of_hash _ hr, skipComment_append b hne]
    | blank => rw [word_of_blank _ hr, word_of_blank _ hr]
    | null =>
      rw [word_of_null _ hr] at h
      rw [word_of_null _ hr, word_of_null _ hr, ih h]
    | plain =>
      rw [word_of_plain _ hr] at h
      rw [word_of_plain _ hr, word_of_plain _ hr, ih h]

/-- A token does not depend on what follows a text whose end has not been met. -/
lemma lex_append (h : (lex a).rest ≠ [] ∨ (lex a).looked = false) :
    lex (a ++ b) = ⟨(lex a).token, (lex a).rest ++ b, (lex a).looked⟩ := by
  induction a using Text.induction_on_length with
  | nil => simp [lex] at h
  | cons c a ih =>
    rw [List.cons_append]
    cases hr : role c with
    | solo => rw [lex_of_solo _ hr, lex_of_solo _ hr]
    | brace =>
      -- a literal that is not closed meets the end
      have hclosed : '}' ∈ a := by
        by_contra hmem
        have hall : a.dropWhile (· ≠ '}') = [] := by
          rw [List.dropWhile_eq_nil_iff]
          intro d hd
          rw [decide_eq_true_eq]
          rintro rfl
          exact hmem hd
        rw [lex_of_brace _ hr, Piece.toLexeme, literal, hall] at h
        simp at h
      rw [lex_of_brace _ hr, lex_of_brace _ hr, literal_append _ hclosed]
      rfl
    | hash =>
      rw [lex_of_hash _ hr] at h
      have hne : skipComment a ≠ [] := by
        intro hnil
        rw [hnil] at h
        simp [lex] at h
      rw [lex_of_hash _ hr, lex_of_hash _ hr, skipComment_append b hne]
      exact ih _ (length_skipComment_le a) h
    | blank =>
      rw [lex_of_blank _ hr] at h
      rw [lex_of_blank _ hr, lex_of_blank _ hr]
      exact ih a (Nat.le_refl _) h
    | null =>
      rw [lex_of_null _ hr] at h
      rw [lex_of_null _ hr, lex_of_null _ hr]
      exact ih a (Nat.le_refl _) h
    | plain =>
      rw [lex_of_plain _ hr] at h
      rw [lex_of_plain _ hr, lex_of_plain _ hr, word_append b h]

end Tokens

/-! ### Places behind a token -/

/-- A rest of the text is right behind a character that ends tokens. -/
def BehindDelimiter (text rest : Text) : Prop :=
  ∃ front c, text = front ++ c :: rest ∧ c ∈ '}' :: delimiters

section Places

variable {a text rest : Text}

lemma BehindDelimiter.of_suffix (h : BehindDelimiter a rest) (hs : a <:+ text) :
    BehindDelimiter text rest := by
  obtain ⟨before, rfl⟩ := hs
  obtain ⟨front, c, rfl, hc⟩ := h
  exact ⟨before ++ front, c, (List.append_assoc _ _ _).symm, hc⟩

lemma behindDelimiter_cons {c : Char} (h : role c ≠ .plain) (cs : Text) :
    BehindDelimiter (c :: cs) cs := by
  refine ⟨[], c, rfl, List.mem_cons_of_mem _ ?_⟩
  by_contra hc
  exact h ((role_eq_plain_iff c).mpr hc)

/-- What is left behind the first of the given characters is right behind that character. -/
lemma behindDelimiter_dropWhile {c : Char} (hc : c ∈ '}' :: delimiters) {cs : Text}
    (h : cs.dropWhile (· ≠ c) ≠ []) : BehindDelimiter cs (cs.dropWhile (· ≠ c)).tail := by
  obtain ⟨d, rest, hd⟩ := List.exists_cons_of_ne_nil h
  obtain rfl := eq_of_dropWhile_ne hd
  refine ⟨cs.takeWhile (· ≠ d), d, ?_, hc⟩
  rw [hd, List.tail_cons, ← hd]
  exact List.takeWhile_append_dropWhile.symm

lemma behindDelimiter_word (h : (word a).looked = false) : BehindDelimiter a (word a).rest := by
  induction a with
  | nil => simp [word] at h
  | cons c a ih =>
    have hcons : a <:+ c :: a := List.suffix_cons c a
    cases hr : role c with
    | solo => simp [word_of_solo a hr] at h
    | brace => simp [word_of_brace a hr] at h
    | hash => simp [word_of_hash a hr] at h
    | blank =>
      rw [word_of_blank a hr]
      exact behindDelimiter_cons (by simp [hr]) a
    | null =>
      rw [word_of_null a hr] at h ⊢
      exact (ih h).of_suffix hcons
    | plain =>
      rw [word_of_plain a hr] at h ⊢
      exact (ih h).of_suffix hcons

lemma behindDelimiter_lex (h : (lex a).looked = false) : BehindDelimiter a (lex a).rest := by
  induction a using Text.induction_on_length with
  | nil => simp [lex] at h
  | cons c a ih =>
    have hcons : a <:+ c :: a := List.suffix_cons c a
    cases hr : role c with
    | solo =>
      rw [lex_of_solo a hr]
      exact behindDelimiter_cons (by simp [hr]) a
    | brace =>
      rw [lex_of_brace a hr] at h ⊢
      have hclosed : a.dropWhile (· ≠ '}') ≠ [] := List.isEmpty_eq_false_iff.mp h
      exact (behindDelimiter_dropWhile List.mem_cons_self hclosed).of_suffix hcons
    | hash =>
      rw [lex_of_hash a hr] at h ⊢
      have hskip := ih _ (length_skipComment_le a) h
      exact hskip.of_suffix ((skipComment_suffix a).trans hcons)
    | blank =>
      rw [lex_of_blank a hr] at h ⊢
      exact (ih a (Nat.le_refl _) h).of_suffix hcons
    | null =>
      rw [lex_of_null a hr] at h ⊢
      exact (ih a (Nat.le_refl _) h).of_suffix hcons
    | plain =>
      rw [lex_of_plain a hr] at h ⊢
      exact (behindDelimiter_word h).of_suffix hcons

end Places

namespace Reader

/-- The reader is in the text.  If it has not looked at what follows, it is right behind a character
that ends tokens. -/
structure Placed (text : Text) (r : Reader) : Prop where
  suffix : r.rest <:+ text
  behind : r.looked = false → BehindDelimiter text r.rest

/-- The reader of a longer text: further characters follow, and then maybe a failure. -/
def followedBy (r : Reader) (b : Text) (fault : Option ByteStream.Fault) : Reader :=
  { r with rest := r.rest ++ b, fault }

lemma metEnd_eq_false_iff {r : Reader} : r.metEnd = false ↔ r.rest ≠ [] ∨ r.looked = false := by
  cases hr : r.rest <;> cases hl : r.looked <;> simp [metEnd, hr, hl]

lemma metEnd_iff {r : Reader} : r.metEnd = true ↔ r.rest = [] ∧ r.looked = true := by
  cases hr : r.rest <;> cases hl : r.looked <;> simp [metEnd, hr, hl]

end Reader

/-! ### Readers of a longer text -/

section Continuation

variable (b : Text) (fault : Option ByteStream.Fault)

/-- A failure that cuts the last character short comes behind some character. -/
def CutsSome : Prop :=
  ∀ f ∈ fault, f.cutsLast = true → b ≠ []

variable {b fault}

/-- A failure behind the further characters is not met before the end of the text is. -/
lemma observe_followedBy (hf : CutsSome b fault) {r : Reader} (h : r.metEnd = false) (w : World) :
    observe (r.followedBy b fault) w = (r.followedBy b fault, w) := by
  have hnone : (r.followedBy b fault).faultMet? = none := by
    cases fault with
    | none => rfl
    | some f =>
      have hcut := hf f rfl
      rw [Reader.metEnd_eq_false_iff] at h
      simp only [Reader.faultMet?, Reader.followedBy, Option.bind_some, List.length_append]
      refine if_neg (Nat.not_lt.mpr ?_)
      have hb : f.cutsLast.toNat ≤ b.length := by
        cases hc : f.cutsLast with
        | false => exact Nat.zero_le _
        | true => exact List.length_pos_iff.mpr (hcut hc)
      have hr : r.looked.toNat ≤ r.rest.length := by
        cases hl : r.looked with
        | false => exact Nat.zero_le _
        | true => exact List.length_pos_iff.mpr (h.resolve_right (by simp [hl]))
      omega
  rw [observe, hnone]

/-- A run from the reader of a text, and one from the reader of a longer text.  They go the same way
unless the first one meets the end of the text. -/
structure Continued (text b : Text) (fault : Option ByteStream.Fault) {α : Type} (r : Reader)
    (x y : Run α) : Prop where
  fault_eq : x.reader.fault = none
  placed : r.Placed text → x.reader.Placed text
  met : r.metEnd = true → x.reader.metEnd = true
  same : x.reader.metEnd = false → y = ⟨x.outcome, x.reader.followedBy b fault, x.world⟩

namespace Continued

variable {α β : Type} {text : Text} {r : Reader}

/-- What does not read goes the same way. -/
lemma still (hr : r.fault = none) (o : Outcome α) (w : World) :
    Continued text b fault r ⟨o, r, w⟩ ⟨o, r.followedBy b fault, w⟩ :=
  ⟨hr, id, id, fun _ => rfl⟩

lemma map {x y : Run α} (h : Continued text b fault r x y) (g : α → β) :
    Continued text b fault r (x.map g) (y.map g) := by
  refine ⟨h.fault_eq, h.placed, h.met, fun hend => ?_⟩
  rw [h.same hend]
  rfl

/-- The end, once met, stays met; so if it has not been met behind both parts of a run, it has not
been met behind the first part either. -/
lemma bind {x y : Run α} {g : α → Reader → World → Run β} (h : Continued text b fault r x y)
    (hg : ∀ v, x.outcome = .ok v → Continued text b fault x.reader (g v x.reader x.world)
      (g v (x.reader.followedBy b fault) x.world)) :
    Continued text b fault r (x.bind g) (y.bind g) := by
  obtain ⟨o, s, w⟩ := x
  cases o with
  | ok v =>
    have hv := hg v rfl
    refine ⟨hv.fault_eq, fun hp => hv.placed (h.placed hp), fun hm => hv.met (h.met hm), ?_⟩
    intro hend
    have hfirst : s.metEnd = false := by
      by_contra hmet
      rw [Bool.not_eq_false] at hmet
      exact Bool.false_ne_true (hend.symm.trans (hv.met hmet))
    rw [h.same hfirst, Run.bind_ok]
    exact hv.same hend
  | error e =>
    refine ⟨h.fault_eq, h.placed, h.met, fun hend => ?_⟩
    rw [h.same hend]
    rfl
  | unfinished =>
    refine ⟨h.fault_eq, h.placed, h.met, fun hend => ?_⟩
    rw [h.same hend]
    rfl

end Continued

/-- Taking a token, as a run. -/
def pullRun (r : Reader) (w : World) : Run (Option Text) :=
  ⟨.ok (pull r w).token, (pull r w).reader, (pull r w).world⟩

/-- Collecting a block, as a run: whether it is closed, and its code. -/
def collectRun (depth : Nat) (r : Reader) (w : World) : Run (Bool × Text) :=
  let c := collect depth r w
  ⟨.ok (c.closed, c.code), c.reader, c.world⟩

/-- Discarding the rest of a line, as a run. -/
def skipRun (r : Reader) (w : World) : Run Unit :=
  ⟨.ok (), (skip r w).1, (skip r w).2⟩

lemma collectRun_eq (depth : Nat) (r : Reader) (w : World) :
    collectRun depth r w =
      (pullRun r w).bind fun t r₁ w₁ =>
        match t with
        | none => ⟨.ok (false, []), r₁, w₁⟩
        | some t =>
          if t = closeBlock ∧ depth = 0 then ⟨.ok (true, []), r₁, w₁⟩
          else (collectRun (deeper depth t) r₁ w₁).map fun c => (c.1, t ++ ' ' :: c.2) := by
  rw [collectRun, collect_eq, pullRun, Run.bind_ok]
  cases (pull r w).token with
  | none => rfl
  | some t =>
    dsimp only
    split <;> rfl

lemma arguments_eq_bind (nested : Evaluation) (r : Reader) (w : World) :
    arguments nested r w =
      (pullRun r w).bind fun t r₁ w₁ =>
        match t with
        | none => ⟨.ok [], r₁, w₁⟩
        | some t =>
          if t = [] then arguments nested r₁ w₁
          else if t = newline then ⟨.ok [], r₁, w₁⟩
          else
            (argument nested t r₁ w₁).bind fun value r₂ w₂ =>
              (arguments nested r₂ w₂).map (value :: ·) := by
  refine (arguments_eq r w nested).trans ?_
  unfold pullRun
  generalize pull r w = p
  obtain ⟨t, r₁, w₁⟩ := p
  cases t <;> rfl

lemma evalBlock_eq (nested : Evaluation) (r : Reader) (w : World) :
    evalBlock nested r w =
      (collectRun 0 r w).bind fun c r₁ w₁ =>
        if c.1 then .ofAnswer (nested.answer .unit (.ofText c.2) w₁) r₁
        else ⟨.error (.unclosedBlock c.2), r₁, w₁⟩ := rfl

variable (text : Text) (hf : CutsSome b fault) {r : Reader} (hr : r.fault = none) (w : World)
  (nested : Evaluation)
include hf hr

lemma continued_pull :
    Continued text b fault r (pullRun r w) (pullRun (r.followedBy b fault) w) := by
  have hpull : pullRun r w = ⟨.ok (lex r.rest).token, r.next.2, w⟩ := by
    rw [pullRun, pull_of_fault_eq_none w hr]
  rw [hpull]
  refine ⟨hr, fun hp => ⟨(rest_lex_suffix r.rest).trans hp.suffix, fun hl => ?_⟩, fun hm => ?_,
    fun hend => ?_⟩
  · exact (behindDelimiter_lex hl).of_suffix hp.suffix
  · obtain ⟨hnil, -⟩ := Reader.metEnd_iff.mp hm
    simp [Reader.metEnd, Reader.next, hnil, lex]
  · have hlex := lex_append b (Reader.metEnd_eq_false_iff.mp hend)
    have hnext : (r.followedBy b fault).next
        = ((lex r.rest).token, r.next.2.followedBy b fault) := by
      simp only [Reader.next, Reader.followedBy, hlex]
    simp only [pullRun, pull, hnext, observe_followedBy hf hend]

lemma continued_collect (depth : Nat) :
    Continued text b fault r (collectRun depth r w)
      (collectRun depth (r.followedBy b fault) w) := by
  induction r using Reader.induction_on_rest generalizing depth w with
  | step r ih =>
    have hpull := continued_pull text hf hr w
    rw [collectRun_eq, collectRun_eq]
    refine hpull.bind fun t ht => ?_
    cases t with
    | none => exact .still hpull.fault_eq _ _
    | some t =>
      have hlt : (pull r w).reader.rest.length < r.rest.length :=
        length_rest_pull_lt (Outcome.ok.inj ht)
      dsimp only
      split
      · exact .still hpull.fault_eq _ _
      · exact (ih _ hlt hpull.fault_eq _ (deeper depth t)).map _

lemma continued_argument (t : Text) :
    Continued text b fault r (argument nested t r w)
      (argument nested t (r.followedBy b fault) w) := by
  by_cases hb : t = openBlock
  · have hcollect := continued_collect text hf hr w 0
    rw [hb, argument_openBlock, argument_openBlock, evalBlock_eq, evalBlock_eq]
    refine hcollect.bind fun c _ => ?_
    split
    · exact .still hcollect.fault_eq _ _
    · exact .still hcollect.fault_eq _ _
  by_cases hv : ∃ name, t = '$' :: name
  · obtain ⟨name, rfl⟩ := hv
    rw [argument_variable, argument_variable]
    cases w.scope.values.get? name with
    | none => exact .still hr _ _
    | some value => exact .still hr _ _
  · have hv' : ∀ name, t ≠ '$' :: name := fun name h => hv ⟨name, h⟩
    rw [argument_word _ _ _ hv' hb, argument_word _ _ _ hv' hb]
    exact .still hr _ _

lemma continued_arguments :
    Continued text b fault r (arguments nested r w)
      (arguments nested (r.followedBy b fault) w) := by
  induction r using Reader.induction_on_rest generalizing w with
  | step r ih =>
    have hpull := continued_pull text hf hr w
    rw [arguments_eq_bind, arguments_eq_bind]
    refine hpull.bind fun t ht => ?_
    cases t with
    | none => exact .still hpull.fault_eq _ _
    | some t =>
      have hlt : (pull r w).reader.rest.length < r.rest.length :=
        length_rest_pull_lt (Outcome.ok.inj ht)
      dsimp only
      split
      · exact ih _ hlt hpull.fault_eq _
      split
      · exact .still hpull.fault_eq _ _
      · have harg := continued_argument text hf hpull.fault_eq (pullRun r w).world nested t
        refine harg.bind fun value _ => (ih _ ?_ harg.fault_eq _).map _
        exact Nat.lt_of_le_of_lt (length_rest_argument_le nested t _ _) hlt

/-- A unit goes the same way whatever follows the text, unless it meets the end of the text. -/
theorem continued_run_unit (files : Files) (depth : Nat) :
    Continued text b fault r (run files depth .unit r w)
      (run files depth .unit (r.followedBy b fault) w) := by
  cases depth with
  | zero => exact .still hr _ _
  | succ depth =>
    have hargs := continued_arguments text hf hr w (run files depth)
    show Continued text b fault r (evalUnit files _ r w) (evalUnit files _ _ w)
    rw [evalUnit_eq, evalUnit_eq]
    refine hargs.bind fun args _ => ?_
    cases args with
    | nil => exact .still hargs.fault_eq _ _
    | cons command args => exact .still hargs.fault_eq _ _

omit hf hr in
/-- Discarding the rest of a line stops at its newline. -/
lemma skipLine_followedBy (hend : r.skipLine.metEnd = false) :
    (r.followedBy b fault).skipLine = r.skipLine.followedBy b fault := by
  cases hm : r.midLine with
  | false =>
    have hm' : (r.followedBy b fault).midLine = false := hm
    rw [Reader.skipLine_of_not_midLine hm, Reader.skipLine_of_not_midLine hm']
  | true =>
    have hne : skipComment r.rest ≠ [] := by
      intro hnil
      simp [Reader.skipLine, hm, hnil, Reader.metEnd] at hend
    obtain ⟨c, line, hline⟩ := List.exists_cons_of_ne_nil hne
    simp [Reader.skipLine, Reader.followedBy, hm, skipComment_append b hne, hline]

/-- The rest of a failed line is discarded in the same way whatever follows the text, unless this
meets the end of the text. -/
lemma continued_skip :
    Continued text b fault r (skipRun r w) (skipRun (r.followedBy b fault) w) := by
  have hskip : skipRun r w = ⟨.ok (), r.skipLine, w⟩ := by
    rw [skipRun, skip, observe_of_fault_eq_none w ((fault_skipLine r).trans hr)]
  rw [hskip]
  refine ⟨(fault_skipLine r).trans hr, fun hp => ?_, fun hm => ?_, fun hend => ?_⟩
  · cases hm : r.midLine with
    | false => rwa [Reader.skipLine_of_not_midLine hm]
    | true =>
      have hrest := rest_skipLine_of_midLine hm
      refine ⟨?_, fun hl => ?_⟩
      · rw [hrest]
        exact (List.tail_suffix _).trans ((skipComment_suffix _).trans hp.suffix)
      · have hne : skipComment r.rest ≠ [] := by simpa [Reader.skipLine, hm] using hl
        rw [hrest]
        exact (behindDelimiter_dropWhile (by decide) hne).of_suffix hp.suffix
  · obtain ⟨hnil, hlooked⟩ := Reader.metEnd_iff.mp hm
    cases hm' : r.midLine <;> simp [Reader.metEnd, Reader.skipLine, hm', hnil, hlooked, skipComment]
  · simp only [skipRun, skip, skipLine_followedBy hend, observe_followedBy hf hend]

end Continuation

end LineScript
