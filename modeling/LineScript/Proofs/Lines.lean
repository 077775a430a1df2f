/-
# Scripts line by line

A text is self-contained if it ends outside literals and all blocks in it are closed.  Then a
newline behind it ends its last unit, whatever follows: reading the units of the text, in front of
a newline and more text, goes exactly as if the text were alone (`parallel_arguments`).  So scripts
are composed line by line: `evalText_append_newline` evaluates a self-contained text and then, if
that succeeds, what follows it.
-/
import LineScript.Proofs.Blocks

namespace LineScript

/-- The text ends outside literals, and all brackets opened in it are closed. -/
structure SelfContained (a : Text) : Prop where
  endsOutside : EndsOutside a
  balanced : (tokens a).foldl deeper 0 = 0

instance (a : Text) : Decidable (SelfContained a) :=
  decidable_of_iff (EndsOutside a ∧ (tokens a).foldl deeper 0 = 0)
    ⟨fun h => ⟨h.1, h.2⟩, fun h => ⟨h.1, h.2⟩⟩

section Newline

variable {a : Text} (b : Text)

lemma tokens_append_newline (h : EndsOutside a) :
    tokens (a ++ '\n' :: b) = tokens a ++ newline :: tokens b := by
  induction hn : a.length using Nat.strongRecOn generalizing a with
  | ind n ih =>
    subst hn
    cases ht : (lex a).token with
    | none =>
      have hlex := lex_append_newline_of_none b h ht
      rw [tokens_of_none ht, tokens_of_some (by rw [hlex]), hlex]
      rfl
    | some t =>
      have hlex := lex_append_newline_of_some b h ht
      rw [tokens_of_some ht, tokens_of_some (by rw [hlex]), hlex]
      rw [ih _ (length_rest_lex_lt ht) (endsOutside_rest_lex h) rfl]
      rfl

lemma dropTokens_append_newline (h : EndsOutside a) {n : Nat} (hn : n ≤ (tokens a).length) :
    dropTokens n (a ++ '\n' :: b) = dropTokens n a ++ '\n' :: b := by
  induction n generalizing a with
  | zero => rfl
  | succ n ih =>
    cases ht : (lex a).token with
    | none =>
      rw [tokens_of_none ht] at hn
      exact absurd hn (Nat.not_succ_le_zero n)
    | some t =>
      rw [tokens_of_some ht] at hn
      rw [dropTokens, dropTokens, lex_append_newline_of_some b h ht]
      exact ih (endsOutside_rest_lex h) (Nat.le_of_succ_le_succ hn)

end Newline

lemma SelfContained.rest_lex {a t : Text} (h : SelfContained a) (ht : (lex a).token = some t)
    (hb : t ≠ openBlock) : SelfContained (lex a).rest := by
  have hbal := h.balanced
  rw [tokens_of_some ht, List.foldl_cons, deeper_zero hb] at hbal
  exact ⟨endsOutside_rest_lex h.endsOutside, hbal⟩

/-- Behind a block a self-contained text is self-contained again. -/
lemma SelfContained.split {a : Text} (h : SelfContained a) (ht : (lex a).token = some openBlock) :
    ∃ inner after, splitBlock 0 (tokens (lex a).rest) = some (inner, after) ∧
      SelfContained (dropTokens (inner.length + 1) (lex a).rest) := by
  have hbal := h.balanced
  rw [tokens_of_some ht, List.foldl_cons] at hbal
  obtain ⟨inner, after, hs⟩ :=
    exists_split_of_foldl (show (tokens (lex a).rest).foldl deeper (0 + 1) = 0 from hbal)
  refine ⟨inner, after, hs, endsOutside_dropTokens (endsOutside_rest_lex h.endsOutside) _, ?_⟩
  have hafter : (tokens (lex a).rest).drop (inner.length + 1) = after := by
    rw [eq_of_splitBlock hs, List.append_cons]
    exact List.drop_left' (by simp)
  rw [tokens_dropTokens, hafter, ← foldl_deeper_of_split hs]
  exact hbal

/-! ### Reading a text alone and in front of a newline -/

/-- One reader reads a self-contained text, the other one the same text with a newline and `b`
behind it. -/
structure Extends (b : Text) (r s : Reader) : Prop where
  fault_left : r.fault = none
  fault_right : s.fault = none
  selfContained : SelfContained r.rest
  rest_eq : s.rest = r.rest ++ '\n' :: b

/-- A run on a text alone and one in front of a newline and `b` go the same way.  If they stop in
between, they do so at the same place of a line that is under way.  If they succeed, then they are
at the same place behind a newline of the text, or the first one has used up the text and the
second one the newline behind it. -/
structure Parallel {α : Type} (b a : Text) (x y : Run α) : Prop where
  outcome_eq : y.outcome = x.outcome
  world_eq : y.world = x.world
  stopped : (∀ v, x.outcome ≠ .ok v) → x.reader.rest <:+ a ∧ Extends b x.reader y.reader ∧
    x.reader.midLine = true ∧ y.reader.midLine = true
  ended : ∀ v, x.outcome = .ok v →
    ('\n' ∈ a ∧ Extends b x.reader y.reader) ∨
    (x.reader.rest = [] ∧ x.reader.fault = none ∧ y.reader.rest = b ∧ y.reader.fault = none ∧
      y.reader.midLine = false)

namespace Parallel

variable {α β : Type} {a b : Text}

lemma of_suffix {a' : Text} {x y : Run α} (h : Parallel b a' x y) (hs : a' <:+ a) :
    Parallel b a x y := by
  refine ⟨h.outcome_eq, h.world_eq, fun hx => ?_, fun v hv => ?_⟩
  · obtain ⟨hsuffix, hrest⟩ := h.stopped hx
    exact ⟨hsuffix.trans hs, hrest⟩
  · rcases h.ended v hv with ⟨hmem, hext⟩ | hend
    · exact .inl ⟨hs.subset hmem, hext⟩
    · exact .inr hend

lemma map {x y : Run α} (h : Parallel b a x y) (f : α → β) : Parallel b a (x.map f) (y.map f) := by
  obtain ⟨o, r, w⟩ := x
  obtain ⟨o', s, w'⟩ := y
  obtain rfl : o' = o := h.outcome_eq
  refine ⟨rfl, h.world_eq, fun hx => h.stopped fun v hv => ?_, fun v hv => ?_⟩
  · obtain rfl : o' = .ok v := hv
    exact hx (f v) rfl
  · cases o' with
    | ok v => exact h.ended v rfl
    | error e => exact nomatch hv
    | unfinished => exact nomatch hv

lemma fault_left {x y : Run α} (h : Parallel b a x y) : x.reader.fault = none := by
  by_cases hx : ∃ v, x.outcome = .ok v
  · obtain ⟨v, hv⟩ := hx
    rcases h.ended v hv with ⟨-, hext⟩ | ⟨-, hfault, -⟩
    · exact hext.fault_left
    · exact hfault
  · exact (h.stopped fun v hv => hx ⟨v, hv⟩).2.1.fault_left

/-- Goes on in parallel behind one argument. -/
lemma bind_of_extends {o : Outcome α} {r s : Reader} {w : World}
    {f : α → Reader → World → Run β} (hs : r.rest <:+ a) (hext : Extends b r s)
    (hmid : r.midLine = true ∧ s.midLine = true)
    (hf : ∀ v, Parallel b r.rest (f v r w) (f v s w)) :
    Parallel b a (Run.bind ⟨o, r, w⟩ f) (Run.bind ⟨o, s, w⟩ f) := by
  cases o with
  | ok v => exact (hf v).of_suffix hs
  | error e => exact ⟨rfl, rfl, fun _ => ⟨hs, hext, hmid⟩, fun _ h => nomatch h⟩
  | unfinished => exact ⟨rfl, rfl, fun _ => ⟨hs, hext, hmid⟩, fun _ h => nomatch h⟩

end Parallel

section Reading

variable {b : Text} {r s : Reader} (nested : Evaluation) (w : World)

/-- Taking a token off a text alone and in front of a newline. -/
lemma Extends.pull {t : Text} (h : Extends b r s) (ht : (lex r.rest).token = some t) :
    LineScript.pull r w = ⟨some t, r.next.2, w⟩ ∧ LineScript.pull s w = ⟨some t, s.next.2, w⟩ ∧
      s.next.2.rest = r.next.2.rest ++ '\n' :: b := by
  have hlex := lex_append_newline_of_some b h.selfContained.endsOutside ht
  refine ⟨?_, ?_, ?_⟩
  · rw [pull_of_fault_eq_none w h.fault_left, ht]
  · rw [pull_of_fault_eq_none w h.fault_right, h.rest_eq, hlex]
  · rw [Reader.rest_next, Reader.rest_next, h.rest_eq, hlex]

/-- A block that is closed in the text is the same in front of a newline. -/
lemma extends_evalBlock {inner after : List Text} (hf : r.fault = none) (hf' : s.fault = none)
    (ho : EndsOutside r.rest) (hrest : s.rest = r.rest ++ '\n' :: b)
    (hs : splitBlock 0 (tokens r.rest) = some (inner, after))
    (hself : SelfContained (dropTokens (inner.length + 1) r.rest)) :
    ∃ answer r' s', Extends b r' s' ∧ r'.rest <:+ r.rest ∧
      (r'.midLine = true ∧ s'.midLine = true) ∧
      evalBlock nested r w = .ofAnswer answer r' ∧ evalBlock nested s w = .ofAnswer answer s' := by
  have hs' : splitBlock 0 (tokens s.rest) = some (inner, after ++ newline :: tokens b) := by
    rw [hrest, tokens_append_newline b ho, eq_of_splitBlock hs, List.append_assoc]
    exact splitBlock_append hs _
  obtain ⟨hclosed, hcode, hdrop⟩ := collect_of_split w hs
  obtain ⟨hclosed', hcode', hdrop'⟩ := collect_of_split w hs'
  obtain ⟨hworld, hfault⟩ := collect_of_fault_eq_none w 0 hf
  obtain ⟨hworld', hfault'⟩ := collect_of_fault_eq_none w 0 hf'
  have hlen : inner.length + 1 ≤ (tokens r.rest).length := by
    rw [eq_of_splitBlock hs, List.length_append, List.length_cons]
    omega
  refine ⟨nested.answer .unit (.ofText (joined inner)) w, (collect 0 r w).reader,
    (collect 0 s w).reader, ⟨hfault, hfault', ?_, ?_⟩, ?_,
    ⟨midLine_collect w hclosed, midLine_collect w hclosed'⟩, ?_, ?_⟩
  · rw [hdrop]
    exact hself
  · rw [hdrop', hdrop, hrest, dropTokens_append_newline b ho hlen]
  · rw [hdrop]
    exact dropTokens_suffix _ _
  · rw [evalBlock_of_closed _ _ _ hclosed, hcode, hworld]
  · rw [evalBlock_of_closed _ _ _ hclosed', hcode', hworld']

/-- The argument that a token stands for is the same in front of a newline. -/
lemma extends_argument {t : Text} (h : Extends b r s) (ht : (lex r.rest).token = some t)
    (hnl : t ≠ newline) :
    ∃ o v r' s', Extends b r' s' ∧ r'.rest <:+ r.rest ∧
      (r'.midLine = true ∧ s'.midLine = true) ∧
      argument nested t r.next.2 w = ⟨o, r', v⟩ ∧ argument nested t s.next.2 w = ⟨o, s', v⟩ := by
  obtain ⟨hpull, hpull', hrest⟩ := h.pull w ht
  have hmid : r.next.2.midLine = true ∧ s.next.2.midLine = true := by
    have hr := midLine_pull r w
    have hs := midLine_pull s w
    rw [← token_pull r w, hpull] at hr
    rw [← token_pull s w, hpull'] at hs
    constructor
    · simpa [hnl] using hr
    · simpa [hnl] using hs
  have hsuffix : r.next.2.rest <:+ r.rest := rest_lex_suffix r.rest
  by_cases hb : t = openBlock
  · subst hb
    obtain ⟨inner, after, hs, hself⟩ := h.selfContained.split ht
    obtain ⟨answer, r', s', hext, hr', hmid', hblock, hblock'⟩ := extends_evalBlock nested w
      (r := r.next.2) (s := s.next.2) h.fault_left h.fault_right
      (endsOutside_rest_lex h.selfContained.endsOutside) hrest hs hself
    refine ⟨answer.outcome, answer.world, r', s', hext, hr'.trans hsuffix, hmid', ?_, ?_⟩
    · rw [argument_openBlock, hblock, Run.ofAnswer]
    · rw [argument_openBlock, hblock', Run.ofAnswer]
  · have hext : Extends b r.next.2 s.next.2 :=
      ⟨h.fault_left, h.fault_right, h.selfContained.rest_lex ht hb, hrest⟩
    by_cases hv : ∃ name, t = '$' :: name
    · obtain ⟨name, rfl⟩ := hv
      rw [argument_variable, argument_variable]
      cases w.scope.values.get? name with
      | none => exact ⟨_, _, _, _, hext, hsuffix, hmid, rfl, rfl⟩
      | some value => exact ⟨_, _, _, _, hext, hsuffix, hmid, rfl, rfl⟩
    · have hv' : ∀ name, t ≠ '$' :: name := fun name h => hv ⟨name, h⟩
      rw [argument_word _ _ _ hv' hb, argument_word _ _ _ hv' hb]
      exact ⟨_, _, _, _, hext, hsuffix, hmid, rfl, rfl⟩

/-- The arguments of a unit are the same in front of a newline. -/
lemma parallel_arguments (h : Extends b r s) :
    Parallel b r.rest (arguments nested r w) (arguments nested s w) := by
  induction r using Reader.induction_on_rest generalizing s w with
  | step r ih =>
    cases ht : (lex r.rest).token with
    | none =>
      -- the text is used up, and the second reader finds the newline behind it
      have hlex := lex_append_newline_of_none b h.selfContained.endsOutside ht
      have hpull : pull r w = ⟨none, r.next.2, w⟩ := by
        rw [pull_of_fault_eq_none w h.fault_left, ht]
      have hpull' : pull s w = ⟨some newline, s.next.2, w⟩ := by
        rw [pull_of_fault_eq_none w h.fault_right, h.rest_eq, hlex]
      rw [arguments_of_end r w _ (.inl (by rw [hpull])), hpull,
        arguments_of_end s w _ (.inr (by rw [hpull'])), hpull']
      refine ⟨rfl, rfl, fun hx => absurd rfl (hx []), fun v _ => .inr ⟨?_, ?_, ?_, ?_, ?_⟩⟩
      · exact rest_lex_of_token_eq_none ht
      · exact h.fault_left
      · rw [Reader.rest_next, h.rest_eq, hlex]
      · exact h.fault_right
      · simp [Reader.next, h.rest_eq, hlex]
    | some t =>
      obtain ⟨hpull, hpull', hrest⟩ := h.pull w ht
      have hlt : r.next.2.rest.length < r.rest.length := length_rest_lex_lt ht
      have hsuffix : r.next.2.rest <:+ r.rest := rest_lex_suffix r.rest
      by_cases hnl : t = newline
      · subst hnl
        have hext : Extends b r.next.2 s.next.2 :=
          ⟨h.fault_left, h.fault_right, h.selfContained.rest_lex ht (by decide), hrest⟩
        rw [arguments_of_end r w _ (.inr (by rw [hpull])), hpull,
          arguments_of_end s w _ (.inr (by rw [hpull'])), hpull']
        refine ⟨rfl, rfl, fun hx => absurd rfl (hx []), fun v _ => .inl ⟨?_, hext⟩⟩
        exact token_subset ht List.mem_cons_self
      by_cases hne : t = []
      · subst hne
        have hext : Extends b r.next.2 s.next.2 :=
          ⟨h.fault_left, h.fault_right, h.selfContained.rest_lex ht (by decide), hrest⟩
        rw [arguments_of_empty r w _ (by rw [hpull]), hpull,
          arguments_of_empty s w _ (by rw [hpull']), hpull']
        exact (ih _ hlt w hext).of_suffix hsuffix
      · obtain ⟨o, v, r', s', hext, hr', hmid, harg, harg'⟩ := extends_argument nested w h ht hnl
        have hlt' : r'.rest.length < r.rest.length := by
          have hle := length_rest_argument_le nested t r.next.2 w
          rw [harg] at hle
          exact Nat.lt_of_le_of_lt hle hlt
        rw [arguments_of_token r w _ (by rw [hpull]) hne hnl, hpull, harg,
          arguments_of_token s w _ (by rw [hpull']) hne hnl, hpull', harg']
        exact .bind_of_extends hr' hext hmid fun value => (ih r' hlt' v hext).map _

end Reading

/-! ### Bodies -/

/-- The result of a run, less the place of the reader. -/
def Run.answer (x : Run Text) : Answer :=
  ⟨x.outcome, x.world⟩

section Bodies

variable {b : Text} {r s : Reader} (files : Files) (nested : Evaluation) (w : World)

/-- A command leaves the reader alone, and does not depend on it. -/
lemma perform_eq_ofAnswer (args : List Text) (r r' : Reader) :
    perform nested files args r w = .ofAnswer (perform nested files args r' w).answer r := by
  cases args <;> rfl

/-- Where something is left of a body, the value of the units before does not matter. -/
lemma evalBody_congr_of_rest (last last' : Text) (hf : r.fault = none) (hf' : s.fault = none)
    (h : r.rest = s.rest) (hne : s.rest ≠ []) :
    evalBody files nested last r w = evalBody files nested last' s w := by
  rw [evalBody_of_rest_ne_nil _ _ _ _ _ (h ▸ hne), evalBody_of_rest_ne_nil _ _ _ _ _ hne,
    look_of_fault_eq_none w hf, look_of_fault_eq_none w hf', evalUnit_eq, evalUnit_eq,
    arguments_congr_of_rest w nested (show r.isExhausted.2.fault = none from hf)
      (show s.isExhausted.2.fault = none from hf') h]

/-- A body is its first unit, and then the units behind that. -/
lemma evalBody_eq_bind_arguments (last : Text) (hf : r.fault = none) (hne : r.rest ≠ []) :
    evalBody files nested last r w =
      (arguments nested r w).bind fun args r₁ w₁ =>
        (perform nested files args r₁ w₁).bind (evalBody files nested) := by
  rw [evalBody_of_rest_ne_nil _ _ _ _ _ hne, look_of_fault_eq_none w hf, evalUnit_eq,
    Run.bind_bind, arguments_congr_of_rest w nested
      (show r.isExhausted.2.fault = none from hf) hf rfl]

/-- Behind the newline, what is left is the body `b`. -/
lemma evalBody_behind_newline (hb : b ≠ []) (last : Text) (hrest : s.rest = b)
    (hf : s.fault = none) :
    (evalBody files nested last s w).answer = (evalBody files nested [] (.ofText b) w).answer := by
  subst hrest
  exact congrArg Run.answer (evalBody_congr_of_rest files nested w last [] hf rfl rfl hb)

lemma evalBody_append_newline (h : Extends b r s) (hb : b ≠ []) (last : Text) :
    (evalBody files nested last s w).answer =
      (evalBody files nested last r w).answer.bind fun _ w' =>
        (evalBody files nested [] (.ofText b) w').answer := by
  -- induction on what is left of the text alone; both readers move on by one unit at a time
  induction r using Reader.induction_on_rest generalizing s w last with
  | step r ih =>
    have hne : s.rest ≠ [] := by simp [h.rest_eq]
    have hpar := parallel_arguments nested w h
    rw [evalBody_eq_bind_arguments files nested w last h.fault_right hne]
    generalize arguments nested s w = y at hpar ⊢
    obtain ⟨o, s', w'⟩ := y
    by_cases hnil : r.rest = []
    · -- there is no unit in the text, but one without arguments in front of the newline
      have hx : arguments nested r w = ⟨.ok [], r.next.2, w⟩ := by
        rw [arguments_of_end r w nested (.inl (by rw [token_pull, hnil]; rfl)),
          pull_of_fault_eq_none w h.fault_left]
      rw [hx, hnil] at hpar
      obtain rfl : o = .ok [] := hpar.outcome_eq
      obtain rfl : w' = w := hpar.world_eq
      rw [evalBody_of_rest_eq_nil _ _ _ _ _ hnil, look_of_fault_eq_none _ h.fault_left]
      rcases hpar.ended [] rfl with ⟨hmem, -⟩ | ⟨-, -, hrest, hf, -⟩
      · exact absurd hmem List.not_mem_nil
      · exact evalBody_behind_newline files nested w' hb [] hrest hf
    · have hlt := length_rest_arguments_lt nested w hnil
      rw [evalBody_eq_bind_arguments files nested w last h.fault_left hnil]
      generalize arguments nested r w = x at hpar hlt ⊢
      obtain ⟨o', r', w''⟩ := x
      obtain rfl : o = o' := hpar.outcome_eq
      obtain rfl : w' = w'' := hpar.world_eq
      cases o with
      | error e => rfl
      | unfinished => rfl
      | ok args =>
        rw [Run.bind_ok, Run.bind_ok, perform_eq_ofAnswer files nested w' args s' r',
          perform_eq_ofAnswer files nested w' args r' r']
        generalize (perform nested files args r' w').answer = answer
        obtain ⟨o, v⟩ := answer
        cases o with
        | error e => rfl
        | unfinished => rfl
        | ok value =>
          rcases hpar.ended args rfl with ⟨-, hext⟩ | ⟨hr, hf, hrest, hf', -⟩
          · exact ih r' hlt v hext value
          · change (evalBody files nested value s' v).answer = _
            rw [evalBody_behind_newline files nested v hb value hrest hf', Run.ofAnswer,
              Run.bind_ok, evalBody_of_rest_eq_nil _ _ _ _ _ hr, look_of_fault_eq_none _ hf]
            rfl

end Bodies

/-- Scripts are composed line by line.  A self-contained text with a newline and a further text
behind it is evaluated like the two one after the other; if the first one fails, nothing of the
second one is evaluated. -/
theorem evalText_append_newline (files : Files) (depth : Nat) {a b : Text}
    (ha : SelfContained a) (hb : b ≠ []) (w : World) :
    evalText files depth (a ++ '\n' :: b) w =
      (evalText files depth a w).bind fun _ w' => evalText files depth b w' := by
  cases depth with
  | zero => rfl
  | succ depth =>
    have hext : Extends b (.ofText a) (.ofText (a ++ '\n' :: b)) := ⟨rfl, rfl, ha, rfl⟩
    exact evalBody_append_newline files (run files depth) w hext hb []

/-- A text with a comment, a bracket too many, a literal and a block that go over several lines. -/
theorem procedure_then_call_by_lines :
    let files : Files := fun _ => .error .notFound
    let a := "# [ \x7b\nproc f \x7by\x7d \x7bset z ]\n+ $y 1\x7d\nset x [+ 1 2\n 3] # end".toList
    let b := "f $x\n".toList
    let w : World := ⟨.initial none, {}⟩
    SelfContained a ∧ b ≠ [] ∧ (evalText files 4 (a ++ '\n' :: b) w).outcome = .ok "4".toList ∧
      evalText files 4 (a ++ '\n' :: b) w =
        (evalText files 4 a w).bind fun _ w' => evalText files 4 b w' := by
  refine ⟨by decide +kernel, by decide, by decide +kernel, ?_⟩
  exact evalText_append_newline _ 4 (by decide +kernel) (by decide) _

end LineScript
