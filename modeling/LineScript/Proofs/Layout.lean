/-
# Layout

Outside literals it does not matter how a script is laid out: how wide the space between two words
is, whether a line ends with a carriage return in front of its newline, and whether there is a
comment at its end.  A null character does not matter for the tokens either
(`layout_makes_no_difference`).

Two texts are read alike if they give the same tokens (`ReadAlike`).  That is not enough for the
same evaluation, since what is looked at between two units is not a token but whether any character
is left.  So texts that are read alike also have to end together behind each token that ends a unit.

A change of the layout is made somewhere in a text.  What stands before it ends in one of the modes
of reading.  If the two texts from there on are read alike in every mode but that of a literal, then
so are the whole texts: `alikeIn_append` goes through what stands before the change, character by
character from the back.
-/
import LineScript.Proofs.Lines

namespace LineScript

/-! ### Texts that are read alike -/

/-- Two texts are read alike: they give the same tokens, and behind each token that ends a unit the
relation `E` holds between what is left of them. -/
inductive ReadAlike (E : Text → Text → Prop) : Text → Text → Prop
  /-- No token is left. -/
  | done {x y : Text} (hx : (lex x).token = none) (hy : (lex y).token = none) : ReadAlike E x y
  /-- Both texts give the same token. -/
  | token {x y t : Text} (hx : (lex x).token = some t) (hy : (lex y).token = some t)
      (hend : t = newline → E (lex x).rest (lex y).rest)
      (hrest : ReadAlike E (lex x).rest (lex y).rest) : ReadAlike E x y

/-- The texts end together: both are used up, or neither is. -/
def EndTogether (x y : Text) : Prop :=
  x = [] ↔ y = []

namespace ReadAlike

variable {E : Text → Text → Prop} {x y : Text}

lemma refl (hE : ∀ x, E x x) (x : Text) : ReadAlike E x x := by
  induction x using Text.induction_on_length with
  | nil => exact .done rfl rfl
  | cons c x ih =>
    cases ht : (lex (c :: x)).token with
    | none => exact .done ht ht
    | some t =>
      have hlt := length_rest_lex_lt ht
      exact .token ht ht (fun _ => hE _) (ih _ (Nat.le_of_lt_succ hlt))

/-- Of a text only the token to come and what follows it matter. -/
lemma of_lex_eq {x' y' : Text} (h : ReadAlike E x y) (hx : lex x' = lex x) (hy : lex y' = lex y) :
    ReadAlike E x' y' := by
  cases h with
  | done htx hty => exact .done (hx ▸ htx) (hy ▸ hty)
  | token htx hty hend hrest =>
    rw [← hx, ← hy] at hend hrest
    exact .token (hx ▸ htx) (hy ▸ hty) hend hrest

lemma token_eq (h : ReadAlike E x y) : (lex y).token = (lex x).token := by
  cases h with
  | done hx hy => rw [hx, hy]
  | token hx hy _ _ => rw [hx, hy]

lemma rest (h : ReadAlike E x y) : ReadAlike E (lex x).rest (lex y).rest := by
  cases h with
  | done hx hy =>
    rw [rest_lex_of_token_eq_none hx, rest_lex_of_token_eq_none hy]
    exact .done rfl rfl
  | token _ _ _ hrest => exact hrest

lemma dropTokens (h : ReadAlike E x y) (n : Nat) :
    ReadAlike E (dropTokens n x) (dropTokens n y) := by
  induction n generalizing x y with
  | zero => exact h
  | succ n ih => exact ih h.rest

theorem tokens_eq (h : ReadAlike E x y) : tokens x = tokens y := by
  induction h with
  | done hx hy => rw [tokens_of_none hx, tokens_of_none hy]
  | token hx hy _ _ ih => rw [tokens_of_some hx, tokens_of_some hy, ih]

/-- Behind a token that ends a unit the relation holds. -/
lemma rest_of_newline (h : ReadAlike E x y) (ht : (lex x).token = some newline) :
    E (lex x).rest (lex y).rest := by
  cases h with
  | done hx _ =>
    rw [hx] at ht
    exact nomatch ht
  | token hx _ hend _ =>
    rw [hx] at ht
    exact hend (Option.some.inj ht)

end ReadAlike

/-! ### A change behind other text -/

section Modes

variable {E : Text → Text → Prop} {x y : Text}

/-- Two texts are read alike if their first characters are read in the given mode. -/
def AlikeIn (E : Text → Text → Prop) : Mode → Text → Text → Prop
  | .word, x, y =>
    E x y ∧ ReadAlike E x y ∧
      (word x).text = (word y).text ∧ ReadAlike E (word x).rest (word y).rest
  | .comment, x, y => ReadAlike E (skipComment x) (skipComment y)
  | .literal, x, y =>
    (literal x).text = (literal y).text ∧
      E (literal x).rest (literal y).rest ∧ ReadAlike E (literal x).rest (literal y).rest

/-- The texts are read alike as soon as a word or a comment behind which they stand has the same end
in both. -/
lemma alikeIn_of_lex_eq (hE : ∀ x, E x x) (hend : E x y) (hlex : lex x = lex y)
    (htext : (word x).text = (word y).text) (hword : lex (word x).rest = lex (word y).rest)
    (hcomment : lex (skipComment x) = lex (skipComment y)) {m : Mode} (hm : m ≠ .literal) :
    AlikeIn E m x y := by
  cases m with
  | word =>
    exact ⟨hend, (ReadAlike.refl hE y).of_lex_eq hlex rfl, htext,
      (ReadAlike.refl hE _).of_lex_eq hword rfl⟩
  | comment => exact (ReadAlike.refl hE _).of_lex_eq hcomment rfl
  | literal => exact absurd rfl hm

variable (hcons : ∀ c x y, E (c :: x) (c :: y))
include hcons

/-- One character in front of two texts, outside comments and literals. -/
lemma alikeIn_word_cons {c : Char} (h : AlikeIn E (Mode.word.step c) x y) :
    AlikeIn E .word (c :: x) (c :: y) := by
  cases hr : role c with
  | solo =>
    simp only [Mode.step, hr] at h
    obtain ⟨hend, halike, -, -⟩ := h
    have hlex : ReadAlike E (c :: x) (c :: y) :=
      .token (by rw [lex_of_solo x hr]) (by rw [lex_of_solo y hr])
        (by rw [lex_of_solo x hr, lex_of_solo y hr]; exact fun _ => hend)
        (by rw [lex_of_solo x hr, lex_of_solo y hr]; exact halike)
    refine ⟨hcons c x y, hlex, ?_⟩
    rw [word_of_solo x hr, word_of_solo y hr]
    exact ⟨rfl, hlex⟩
  | brace =>
    simp only [Mode.step, hr] at h
    obtain ⟨htext, hend, halike⟩ := h
    have hlex : ReadAlike E (c :: x) (c :: y) :=
      .token (t := (literal x).text) (by rw [lex_of_brace x hr]; rfl)
        (by rw [lex_of_brace y hr, htext]; rfl)
        (by rw [lex_of_brace x hr, lex_of_brace y hr]; exact fun _ => hend)
        (by rw [lex_of_brace x hr, lex_of_brace y hr]; exact halike)
    refine ⟨hcons c x y, hlex, ?_⟩
    rw [word_of_brace x hr, word_of_brace y hr]
    exact ⟨rfl, hlex⟩
  | hash =>
    simp only [Mode.step, hr] at h
    refine ⟨hcons c x y, h.of_lex_eq (lex_of_hash x hr) (lex_of_hash y hr), ?_⟩
    rw [word_of_hash x hr, word_of_hash y hr]
    exact ⟨rfl, h⟩
  | blank =>
    simp only [Mode.step, hr] at h
    obtain ⟨-, halike, -, -⟩ := h
    refine ⟨hcons c x y, halike.of_lex_eq (lex_of_blank x hr) (lex_of_blank y hr), ?_⟩
    rw [word_of_blank x hr, word_of_blank y hr]
    exact ⟨rfl, halike⟩
  | null =>
    simp only [Mode.step, hr] at h
    obtain ⟨-, halike, hword⟩ := h
    refine ⟨hcons c x y, halike.of_lex_eq (lex_of_null x hr) (lex_of_null y hr), ?_⟩
    rw [word_of_null x hr, word_of_null y hr]
    exact hword
  | plain =>
    simp only [Mode.step, hr] at h
    obtain ⟨-, -, htext, halike⟩ := h
    have hne : c :: (word x).text ≠ newline := by
      intro heq
      obtain rfl : c = '\n' := (List.cons.inj heq).1
      exact absurd hr (by decide)
    refine ⟨hcons c x y, .token (t := c :: (word x).text) (by rw [lex_of_plain x hr])
      (by rw [lex_of_plain y hr, htext]) (fun heq => absurd heq hne)
      (by rw [lex_of_plain x hr, lex_of_plain y hr]; exact halike), ?_⟩
    rw [word_of_plain x hr, word_of_plain y hr, htext]
    exact ⟨rfl, halike⟩

/-- One character in front of two texts, in any mode. -/
lemma alikeIn_cons {m : Mode} {c : Char} (h : AlikeIn E (m.step c) x y) :
    AlikeIn E m (c :: x) (c :: y) := by
  cases m with
  | word => exact alikeIn_word_cons hcons h
  | comment =>
    by_cases hc : c = '\n'
    · -- the newline that ends the comment is a token
      subst hc
      have hword : AlikeIn E .word ('\n' :: x) ('\n' :: y) := alikeIn_word_cons hcons h
      exact hword.2.1
    · simp only [Mode.step, hc, if_false] at h
      simpa [AlikeIn, skipComment, hc] using h
  | literal =>
    by_cases hc : c = '}'
    · subst hc
      exact ⟨rfl, h.1, h.2.1⟩
    · simp only [Mode.step, hc, if_false] at h
      obtain ⟨htext, hrest⟩ := h
      rw [AlikeIn, literal_cons_of_ne hc, literal_cons_of_ne hc, htext]
      exact ⟨rfl, hrest⟩

/-- Texts that are read alike outside literals are so behind a text that ends outside literals. -/
lemma alikeIn_append {a : Text} (h : ∀ m ≠ Mode.literal, AlikeIn E m x y) {m : Mode}
    (ha : m.after a ≠ .literal) : AlikeIn E m (a ++ x) (a ++ y) := by
  induction a generalizing m with
  | nil => exact h m ha
  | cons c a ih => exact alikeIn_cons hcons (ih ha)

theorem readAlike_append {a : Text} (ha : EndsOutside a)
    (h : ∀ m ≠ Mode.literal, AlikeIn E m x y) : ReadAlike E (a ++ x) (a ++ y) :=
  (alikeIn_append hcons h ha).2.1

end Modes

/-! ### Evaluation -/

/-- Two readers go in step: their texts are read alike and end together behind each unit. -/
structure InStep (r s : Reader) : Prop where
  fault_left : r.fault = none
  fault_right : s.fault = none
  alike : ReadAlike EndTogether r.rest s.rest

section Evaluation

variable {r s : Reader} (nested : Evaluation) (w : World)

lemma InStep.next (h : InStep r s) : InStep r.next.2 s.next.2 :=
  ⟨h.fault_left, h.fault_right, h.alike.rest⟩

/-- Both readers give the same token, and no more is noted than before. -/
lemma InStep.pull (h : InStep r s) :
    pull r w = ⟨(lex r.rest).token, r.next.2, w⟩ ∧
      pull s w = ⟨(lex r.rest).token, s.next.2, w⟩ := by
  refine ⟨pull_of_fault_eq_none w h.fault_left, ?_⟩
  rw [pull_of_fault_eq_none w h.fault_right, h.alike.token_eq]

/-- A block is closed for both readers or for neither, and its code is the same. -/
lemma InStep.evalBlock (h : InStep r s) :
    ∃ answer r' s', InStep r' s' ∧ evalBlock nested r w = .ofAnswer answer r' ∧
      evalBlock nested s w = .ofAnswer answer s' := by
  obtain ⟨hworld, hfault⟩ := collect_of_fault_eq_none w 0 h.fault_left
  obtain ⟨hworld', hfault'⟩ := collect_of_fault_eq_none w 0 h.fault_right
  have htokens := h.alike.tokens_eq
  cases hs : splitBlock 0 (tokens r.rest) with
  | some split =>
    obtain ⟨inner, after⟩ := split
    obtain ⟨hclosed, hcode, hrest⟩ := collect_of_split w hs
    obtain ⟨hclosed', hcode', hrest'⟩ := collect_of_split w (htokens ▸ hs)
    refine ⟨nested.answer .unit (.ofText (joined inner)) w, (collect 0 r w).reader,
      (collect 0 s w).reader, ⟨hfault, hfault', ?_⟩, ?_, ?_⟩
    · rw [hrest, hrest']
      exact h.alike.dropTokens _
    · rw [evalBlock_of_closed _ _ _ hclosed, hcode, hworld]
    · rw [evalBlock_of_closed _ _ _ hclosed', hcode', hworld']
  | none =>
    obtain ⟨hclosed, hcode, hrest⟩ := collect_of_unmatched w hs
    obtain ⟨hclosed', hcode', hrest'⟩ := collect_of_unmatched w (htokens ▸ hs)
    refine ⟨⟨.error (.unclosedBlock (joined (tokens r.rest))), w⟩, (collect 0 r w).reader,
      (collect 0 s w).reader, ⟨hfault, hfault', ?_⟩, ?_, ?_⟩
    · rw [hrest, hrest']
      exact .done rfl rfl
    · rw [evalBlock_of_unclosed _ _ _ hclosed, hcode, hworld]
      rfl
    · rw [evalBlock_of_unclosed _ _ _ hclosed', hcode', hworld', htokens]
      rfl

/-- A token stands for the same argument. -/
lemma InStep.argument (h : InStep r s) (t : Text) :
    ∃ answer r' s', InStep r' s' ∧ argument nested t r w = .ofAnswer answer r' ∧
      argument nested t s w = .ofAnswer answer s' := by
  by_cases hb : t = openBlock
  · subst hb
    rw [argument_openBlock, argument_openBlock]
    exact h.evalBlock nested w
  by_cases hv : ∃ name, t = '$' :: name
  · obtain ⟨name, rfl⟩ := hv
    rw [argument_variable, argument_variable]
    cases w.scope.values.get? name with
    | none => exact ⟨⟨_, w⟩, r, s, h, rfl, rfl⟩
    | some value => exact ⟨⟨_, w⟩, r, s, h, rfl, rfl⟩
  · have hword : ∀ name, t ≠ '$' :: name := fun name ht => hv ⟨name, ht⟩
    rw [argument_word _ _ _ hword hb, argument_word _ _ _ hword hb]
    exact ⟨⟨.ok t, w⟩, r, s, h, rfl, rfl⟩

/-- The arguments of a unit are the same, and behind the unit the texts end together. -/
lemma InStep.arguments (h : InStep r s) :
    ∃ o v r' s', InStep r' s' ∧ (∀ args, o = .ok args → EndTogether r'.rest s'.rest) ∧
      arguments nested r w = ⟨o, r', v⟩ ∧ arguments nested s w = ⟨o, s', v⟩ := by
  induction r using Reader.induction_on_rest generalizing s w with
  | step r ih =>
    obtain ⟨hpull, hpull'⟩ := h.pull w
    rw [arguments_eq r, arguments_eq s, hpull, hpull']
    cases ht : (lex r.rest).token with
    | none =>
      have ht' := h.alike.token_eq.trans ht
      refine ⟨.ok [], w, r.next.2, s.next.2, h.next, fun _ _ => ?_, rfl, rfl⟩
      rw [Reader.rest_next, Reader.rest_next, rest_lex_of_token_eq_none ht,
        rest_lex_of_token_eq_none ht']
      exact Iff.rfl
    | some t =>
      have hlt : r.next.2.rest.length < r.rest.length := length_rest_lex_lt ht
      dsimp only
      split_ifs with hne hnl
      · exact ih _ hlt w h.next
      · subst hnl
        exact ⟨.ok [], w, r.next.2, s.next.2, h.next, fun _ _ => h.alike.rest_of_newline ht,
          rfl, rfl⟩
      · obtain ⟨answer, r', s', hstep, harg, harg'⟩ := h.next.argument nested w t
        have hlt' : r'.rest.length < r.rest.length := by
          have hle := length_rest_argument_le nested t r.next.2 w
          rw [harg] at hle
          exact Nat.lt_of_le_of_lt hle hlt
        rw [harg, harg']
        obtain ⟨o, v⟩ := answer
        cases o with
        | error e => exact ⟨.error e, v, r', s', hstep, nofun, rfl, rfl⟩
        | unfinished => exact ⟨.unfinished, v, r', s', hstep, nofun, rfl, rfl⟩
        | ok value =>
          obtain ⟨o, u, r₂, s₂, hstep₂, hend, hargs, hargs'⟩ := ih r' hlt' v hstep
          refine ⟨o.map (value :: ·), u, r₂, s₂, hstep₂, fun args hok => ?_, ?_, ?_⟩
          · cases o with
            | ok args' => exact hend args' rfl
            | error e => exact nomatch hok
            | unfinished => exact nomatch hok
          · exact congrArg (Run.map _) hargs
          · exact congrArg (Run.map _) hargs'

/-- Readers that go in step, and end together, come to the same. -/
lemma InStep.evalBody (files : Files) (h : InStep r s) (hend : EndTogether r.rest s.rest)
    (last : Text) :
    (evalBody files nested last r w).answer = (evalBody files nested last s w).answer := by
  induction r using Reader.induction_on_rest generalizing s w last with
  | step r ih =>
    by_cases hnil : r.rest = []
    · rw [evalBody_of_rest_eq_nil _ _ _ _ _ hnil, evalBody_of_rest_eq_nil _ _ _ _ _ (hend.mp hnil),
        look_of_fault_eq_none w h.fault_left, look_of_fault_eq_none w h.fault_right]
      rfl
    · have hnil' : s.rest ≠ [] := fun hs => hnil (hend.mpr hs)
      have hlt := length_rest_arguments_lt nested w hnil
      obtain ⟨o, v, r', s', hstep, hend', hargs, hargs'⟩ := h.arguments nested w
      rw [evalBody_eq_bind_arguments files nested w last h.fault_left hnil,
        evalBody_eq_bind_arguments files nested w last h.fault_right hnil', hargs, hargs']
      rw [hargs] at hlt
      cases o with
      | error e => rfl
      | unfinished => rfl
      | ok args =>
        rw [Run.bind_ok, Run.bind_ok, perform_eq_ofAnswer files nested v args s' r',
          perform_eq_ofAnswer files nested v args r' r']
        generalize (perform nested files args r' v).answer = answer
        obtain ⟨o, u⟩ := answer
        cases o with
        | error e => rfl
        | unfinished => rfl
        | ok value => exact ih r' hlt u hstep (hend' args rfl) value

end Evaluation

/-- Texts that are read alike, and end together, come to the same. -/
theorem evalText_of_readAlike (files : Files) (depth : Nat) (w : World) {x y : Text}
    (h : ReadAlike EndTogether x y) (hend : EndTogether x y) :
    evalText files depth x w = evalText files depth y w := by
  cases depth with
  | zero => rfl
  | succ depth =>
    have hstep : InStep (.ofText x) (.ofText y) := ⟨rfl, rfl, h⟩
    exact hstep.evalBody (run files depth) w files hend []

/-! ### Changes of the layout -/

/-- The characters that separate words. -/
def blanks : List Char := [' ', '\t', '\r']

lemma role_of_mem_blanks {c : Char} (h : c ∈ blanks) : role c = .blank := by
  simp only [blanks, List.mem_cons, List.not_mem_nil, or_false] at h
  rcases h with rfl | rfl | rfl <;> decide

/-- Two pieces of a script that differ in layout alone. -/
inductive SameLayout : Text → Text → Prop
  /-- A line may end with a carriage return in front of its newline. -/
  | lineEnd : SameLayout ['\r', '\n'] newline
  /-- A comment may stand at the end of a line. -/
  | comment {c : Text} (h : '\n' ∉ c) : SameLayout ('#' :: (c ++ newline)) newline
  /-- The space between words may be of any kind and width. -/
  | space {s s' : Text} (hne : s ≠ []) (hne' : s' ≠ []) (h : ∀ c ∈ s, c ∈ blanks)
      (h' : ∀ c ∈ s', c ∈ blanks) : SameLayout s s'

/-- A comment does not end as long as there is no newline. -/
lemma skipComment_append_of_not_mem {c : Text} (h : '\n' ∉ c) (b : Text) :
    skipComment (c ++ b) = skipComment b :=
  List.dropWhile_append_of_pos fun _ hd => by simpa using ne_of_mem_of_not_mem hd h

section Space

variable {s : Text} (h : ∀ c ∈ s, c ∈ blanks) (b : Text)
include h

lemma lex_append_of_blanks : lex (s ++ b) = lex b := by
  induction s with
  | nil => rfl
  | cons c s ih =>
    rw [List.cons_append, lex_of_blank _ (role_of_mem_blanks (h c List.mem_cons_self))]
    exact ih fun d hd => h d (List.mem_cons_of_mem c hd)

/-- Space ends a word, and amounts to what follows it. -/
lemma word_append_of_blanks (hne : s ≠ []) :
    (word (s ++ b)).text = [] ∧ lex (word (s ++ b)).rest = lex b := by
  obtain ⟨c, s, rfl⟩ := List.exists_cons_of_ne_nil hne
  rw [List.cons_append, word_of_blank _ (role_of_mem_blanks (h c List.mem_cons_self))]
  exact ⟨rfl, lex_append_of_blanks (fun d hd => h d (List.mem_cons_of_mem c hd)) b⟩

end Space

namespace SameLayout

variable {x y : Text}

lemma ne_nil (h : SameLayout x y) : x ≠ [] ∧ y ≠ [] := by
  cases h with
  | lineEnd => exact ⟨List.cons_ne_nil _ _, List.cons_ne_nil _ _⟩
  | comment => exact ⟨List.cons_ne_nil _ _, List.cons_ne_nil _ _⟩
  | space hne hne' => exact ⟨hne, hne'⟩

lemma endTogether (h : SameLayout x y) (a b : Text) : EndTogether (a ++ x ++ b) (a ++ y ++ b) := by
  obtain ⟨hx, hy⟩ := h.ne_nil
  simp [EndTogether, hx, hy]

/-- Outside literals, pieces that differ in layout alone are read alike in front of any text. -/
lemma alikeIn (h : SameLayout x y) (b : Text) {m : Mode} (hm : m ≠ .literal) :
    AlikeIn EndTogether m (x ++ b) (y ++ b) := by
  have hend : EndTogether (x ++ b) (y ++ b) := h.endTogether [] b
  cases h with
  | lineEnd => exact alikeIn_of_lex_eq (fun _ => Iff.rfl) hend rfl rfl rfl rfl hm
  | @comment c hc =>
    have hskip : skipComment (c ++ newline ++ b) = '\n' :: b := by
      rw [List.append_assoc, skipComment_append_of_not_mem hc]
      rfl
    have hword : word ('#' :: (c ++ newline ++ b)) = ⟨[], '\n' :: b, true⟩ := by
      rw [word_of_hash _ (by decide), hskip]
    refine alikeIn_of_lex_eq (fun _ => Iff.rfl) hend ?_ ?_ ?_ (congrArg lex hskip) hm
    · exact (lex_of_hash _ (by decide)).trans (congrArg lex hskip)
    · exact congrArg Piece.text hword
    · exact congrArg (fun p => lex p.rest) hword
  | space hne hne' hs hs' =>
    have hcomment : ∀ {s : Text}, (∀ c ∈ s, c ∈ blanks) → skipComment (s ++ b) = skipComment b :=
      fun hs => skipComment_append_of_not_mem (fun hmem => absurd (hs _ hmem) (by decide)) b
    obtain ⟨htext, hrest⟩ := word_append_of_blanks hs b hne
    obtain ⟨htext', hrest'⟩ := word_append_of_blanks hs' b hne'
    refine alikeIn_of_lex_eq (fun _ => Iff.rfl) hend ?_ ?_ ?_ ?_ hm
    · rw [lex_append_of_blanks hs, lex_append_of_blanks hs']
    · rw [htext, htext']
    · rw [hrest, hrest']
    · rw [hcomment hs, hcomment hs']

end SameLayout

lemma readAlike_null {a : Text} (ha : EndsOutside a) (b : Text) :
    ReadAlike (fun _ _ => True) (a ++ '\x00' :: b) (a ++ b) := by
  have hrole : role '\x00' = .null := by decide
  have hword : word ('\x00' :: b) = word b := word_of_null b hrole
  refine readAlike_append (fun _ _ _ => trivial) ha fun m hm => ?_
  exact alikeIn_of_lex_eq (fun _ => trivial) trivial (lex_of_null b hrole) (by rw [hword])
    (by rw [hword]) rfl hm

/-- Behind a text that ends outside literals, a null character makes no difference to the tokens.
Neither does a carriage return in front of a newline, a comment in front of one, or the kind and
width of the space between words; and these make no difference to what the text comes to in any
world either: the outcome with its value or error, the names, and all that is shown. -/
theorem layout_makes_no_difference {a : Text} (ha : EndsOutside a) (b : Text) :
    tokens (a ++ '\x00' :: b) = tokens (a ++ b) ∧
      ∀ x y, SameLayout x y →
        tokens (a ++ x ++ b) = tokens (a ++ y ++ b) ∧
        ∀ files depth w,
          evalText files depth (a ++ x ++ b) w = evalText files depth (a ++ y ++ b) w := by
  refine ⟨(readAlike_null ha b).tokens_eq, fun x y h => ?_⟩
  have hcons : ∀ (c : Char) (u v : Text), EndTogether (c :: u) (c :: v) :=
    fun c u v => iff_of_false (List.cons_ne_nil c u) (List.cons_ne_nil c v)
  have halike : ReadAlike EndTogether (a ++ x ++ b) (a ++ y ++ b) := by
    rw [List.append_assoc, List.append_assoc]
    exact readAlike_append hcons ha fun m hm => h.alikeIn b hm
  exact ⟨halike.tokens_eq, fun files depth w =>
    evalText_of_readAlike files depth w halike (h.endTogether a b)⟩

/-- Behind a word in an open block: a null character joins it with the next word, wide space is like
a single one, and a comment with a bracket and a brace is like the newline that ends it, which ends
the unit of the block. -/
theorem layout_in_open_block :
    let files : Files := fun _ => .error .notFound
    let w : World := ⟨.initial none, {}⟩
    let a := "set x [+ 1".toList
    let b := "2]".toList
    EndsOutside a ∧ tokens (a ++ '\x00' :: b) = tokens (a ++ b) ∧
      SameLayout "\t \r".toList [' '] ∧ SameLayout "# ] \x7b$y\n".toList newline ∧
      (evalText files 3 (a ++ "\t \r".toList ++ b) w).outcome = .ok ['3'] ∧
      (evalText files 3 (a ++ "# ] \x7b$y\n".toList ++ b) w).outcome =
        .error (.wrongArity ['+']) := by
  intro files w a b
  have ha : EndsOutside a := by decide +kernel
  have hspace : SameLayout "\t \r".toList [' '] :=
    .space (by decide) (by decide) (by simp [blanks]) (by simp [blanks])
  have hcomment : SameLayout "# ] \x7b$y\n".toList newline :=
    .comment (show '\n' ∉ " ] \x7b$y".toList by decide +kernel)
  obtain ⟨hnull, hlayout⟩ := layout_makes_no_difference ha b
  refine ⟨ha, hnull, hspace, hcomment, ?_, ?_⟩
  · rw [(hlayout _ _ hspace).2]
    decide +kernel
  · rw [(hlayout _ _ hcomment).2]
    decide +kernel

/-- A null character does make a difference to evaluation: behind the last newline of a script it
makes up a further unit, which is blank. -/
example :
    let files : Files := fun _ => .error .notFound
    let w : World := ⟨.initial none, {}⟩
    (evalText files 1 "set x 1\n".toList w).outcome = .ok ['1'] ∧
      (evalText files 1 "set x 1\n\x00".toList w).outcome = .ok [] := by
  decide +kernel

end LineScript
