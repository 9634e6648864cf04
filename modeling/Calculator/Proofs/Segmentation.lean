import Calculator.Proofs.LexicalGrammar

/-!
# Cutting an expression into lexemes

An expression is cut from the left: the longest lexeme that starts at the front of
the text is cut off, and then the text behind it is cut, up to where no lexeme
starts.  `Segmentation` states this rule on the lexical grammar alone.  The rule
determines the lexemes, because a lexeme is known by its length and its text has one
token, and the tokens of an expression are the ones that it gives.

A lexeme that is the longest in front of some text is also the longest in front of
less of that text.  So the part of an expression that was cut is cut in the same
way on its own.
-/

namespace Calculator

/-!
## The rule

Lexemes are cut off the front, each the longest that starts there, up to a character at which
none starts.  The rule speaks of texts only and knows nothing of the scanner.
-/

def StartsLexeme (cs : List Char) : Prop :=
  ∃ text token, IsLexeme text token ∧ text <+: cs

/-- A lexeme at the front of a text where no longer one starts. -/
structure IsLongest (text : List Char) (token : Option Token) (cs : List Char) : Prop where
  isLexeme : IsLexeme text token
  isPrefix : text <+: cs
  longest : ∀ other token', IsLexeme other token' → other <+: cs → other.length ≤ text.length

/-- A text, the lexemes that it is cut into, each with its token, and the part that is not cut. -/
inductive Segmentation : List Char → List (List Char × Option Token) → List Char → Prop where
  | stop {cs : List Char} : ¬ StartsLexeme cs → Segmentation cs [] cs
  | cut {text cs rest : List Char} {token : Option Token}
      {lexemes : List (List Char × Option Token)} :
      IsLongest text token (text ++ cs) → Segmentation cs lexemes rest →
      Segmentation (text ++ cs) ((text, token) :: lexemes) rest

variable {cs rest text : List Char} {token : Option Token}
  {lexemes : List (List Char × Option Token)}

/-! ## The longest lexeme is determined -/

theorem IsLongest.unique {other : List Char} {token' : Option Token}
    (h : IsLongest text token cs) (hother : IsLongest other token' cs) :
    other = text ∧ token' = token := by
  have hlength : other.length = text.length :=
    Nat.le_antisymm (h.longest other token' hother.isLexeme hother.isPrefix)
      (hother.longest text token h.isLexeme h.isPrefix)
  have htext : other = text :=
    (List.prefix_of_prefix_length_le hother.isPrefix h.isPrefix hlength.le).eq_of_length hlength
  subst htext
  exact ⟨rfl, hother.isLexeme.token_unique h.isLexeme⟩

theorem IsLongest.of_prefix {before after : List Char} (h : IsLongest text token (text ++ after))
    (hbefore : before <+: after) : IsLongest text token (text ++ before) := by
  refine ⟨h.isLexeme, List.prefix_append _ _, ?_⟩
  intro other token' hother hprefix
  apply h.longest other token' hother
  exact hprefix.trans ((List.prefix_append_right_inj text).mpr hbefore)

theorem prefix_append_cons {other before after : List Char} {c : Char}
    (h : other <+: before ++ c :: after) : other <+: before ∨ before ++ [c] <+: other := by
  have hwhole : before ++ [c] <+: before ++ c :: after := ⟨after, by simp⟩
  rcases List.prefix_or_prefix_of_prefix h hwhole with hother | hreach
  · rcases List.prefix_concat_iff.mp hother with rfl | hshort
    · exact Or.inr (List.prefix_refl _)
    · exact Or.inl hshort
  · exact Or.inr hreach

theorem IsLongest.append_cons {c : Char} {after : List Char}
    (h : IsLongest text token (text ++ cs))
    (hreach : ∀ other token', IsLexeme other token' → ¬ (text ++ cs) ++ [c] <+: other) :
    IsLongest text token (text ++ (cs ++ c :: after)) := by
  refine ⟨h.isLexeme, List.prefix_append _ _, ?_⟩
  intro other token' hother hprefix
  rw [← List.append_assoc] at hprefix
  rcases prefix_append_cons hprefix with hshort | hlong
  · exact h.longest other token' hother hshort
  · exact absurd hlong (hreach other token' hother)

theorem not_startsLexeme_append_cons {c : Char} {after : List Char} (h : ¬ StartsLexeme cs)
    (hreach : ∀ other token', IsLexeme other token' → ¬ cs ++ [c] <+: other) :
    ¬ StartsLexeme (cs ++ c :: after) := by
  intro hstarts
  rcases hstarts with ⟨other, token', hother, hprefix⟩
  rcases prefix_append_cons hprefix with hshort | hlong
  · exact h ⟨other, token', hother, hshort⟩
  · exact hreach other token' hother hlong

theorem not_startsLexeme_nil : ¬ StartsLexeme [] := by
  intro h
  rcases h with ⟨text, token, hlexeme, hprefix⟩
  exact hlexeme.ne_nil (List.prefix_nil.mp hprefix)

theorem IsLongest.startsLexeme (h : IsLongest text token cs) : StartsLexeme cs :=
  ⟨text, token, h.isLexeme, h.isPrefix⟩

/-! ## Segmentations -/

namespace Segmentation

theorem text_append (h : Segmentation cs lexemes rest) : lexemes.flatMap Prod.fst ++ rest = cs := by
  induction h with
  | stop _ => rfl
  | cut _ _ ih => rw [List.flatMap_cons, List.append_assoc, ih]

theorem not_startsLexeme (h : Segmentation cs lexemes rest) : ¬ StartsLexeme rest := by
  induction h with
  | stop hstop => exact hstop
  | cut _ _ ih => exact ih

theorem isLexeme_of_mem (h : Segmentation cs lexemes rest) :
    ∀ lexeme ∈ lexemes, IsLexeme lexeme.1 lexeme.2 := by
  induction h with
  | stop _ => simp
  | cut hlongest _ ih =>
      rw [List.forall_mem_cons]
      exact ⟨hlongest.isLexeme, ih⟩

theorem unique {lexemes' : List (List Char × Option Token)} {rest' : List Char}
    (h : Segmentation cs lexemes rest) (hother : Segmentation cs lexemes' rest') :
    lexemes' = lexemes ∧ rest' = rest := by
  induction h generalizing lexemes' with
  | stop hstop =>
      cases hother with
      | stop _ => exact ⟨rfl, rfl⟩
      | cut hlongest _ => exact absurd hlongest.startsLexeme hstop
  | @cut text cs _ _ _ hlongest _ ih =>
      generalize hcs : text ++ cs = whole at hother hlongest
      cases hother with
      | stop hstop => exact absurd hlongest.startsLexeme hstop
      | cut hlongest' hrest' =>
          rcases hlongest.unique hlongest' with ⟨rfl, rfl⟩
          rcases List.append_cancel_left hcs with rfl
          rcases ih hrest' with ⟨rfl, rfl⟩
          exact ⟨rfl, rfl⟩

theorem cut_part (h : Segmentation cs lexemes rest) :
    Segmentation (lexemes.flatMap Prod.fst) lexemes [] := by
  induction h with
  | stop _ => exact .stop not_startsLexeme_nil
  | cut hlongest hrest ih =>
      have hpart : IsLongest _ _ _ := hlongest.of_prefix ⟨_, hrest.text_append⟩
      exact .cut hpart ih

end Segmentation

/-! ## The scanner follows the rule -/

namespace Lexeme

def piece (lexeme : Lexeme) : List Char × Option Token :=
  (lexeme.text, lexeme.token?)

theorem isLongest_of_scan? {lexeme : Lexeme} (h : scan? cs = some (lexeme, rest)) :
    IsLongest lexeme.text lexeme.token? cs := by
  refine ⟨isLexeme_of_scan? h, ⟨rest, text_append_of_scan? h⟩, ?_⟩
  intro other token hother hprefix
  rcases hprefix with ⟨after, rfl⟩
  rcases exists_scan?_append hother after with ⟨found, _, hscan, hlength⟩
  rw [h] at hscan
  cases hscan
  exact hlength

theorem not_startsLexeme_of_scan? (h : scan? cs = none) : ¬ StartsLexeme cs := by
  intro hstarts
  rcases hstarts with ⟨text, token, hlexeme, after, rfl⟩
  rcases exists_scan?_append hlexeme after with ⟨_, _, hscan, _⟩
  rw [h] at hscan
  cases hscan

theorem exists_segmentation_segmentAfter (done : List Lexeme) (cs : List Char) :
    ∃ lexemes rest, segmentAfter done cs = (done.reverse ++ lexemes, rest) ∧
      Segmentation cs (lexemes.map piece) rest := by
  fun_induction segmentAfter done cs with
  | case1 done cs lexeme after hscan ih =>
      rcases ih with ⟨lexemes, rest, hsegment, hrest⟩
      have hlongest := isLongest_of_scan? hscan
      refine ⟨lexeme :: lexemes, rest, ?_, ?_⟩
      · rw [hsegment, List.reverse_cons, List.append_assoc]
        rfl
      · rw [← text_append_of_scan? hscan] at hlongest ⊢
        exact .cut hlongest hrest
  | case2 done cs hscan =>
      refine ⟨[], cs, ?_, .stop (not_startsLexeme_of_scan? hscan)⟩
      rw [List.append_nil]

theorem segmentation_segment (cs : List Char) :
    Segmentation cs ((segment cs).1.map piece) (segment cs).2 := by
  rcases exists_segmentation_segmentAfter [] cs with ⟨lexemes, rest, hsegment, hrest⟩
  rw [segment, hsegment]
  exact hrest

theorem utf8ByteSize_ofList_cons (c : Char) (cs : List Char) :
    (String.ofList (c :: cs)).utf8ByteSize = c.utf8Size + (String.ofList cs).utf8ByteSize := by
  rw [String.ofList_cons, String.utf8ByteSize_append, String.utf8ByteSize_singleton]

theorem byteLength_eq (cs : List Char) : byteLength cs = (String.ofList cs).utf8ByteSize := by
  have hfold : ∀ n, cs.foldl (fun n c => n + c.utf8Size) n =
      n + (String.ofList cs).utf8ByteSize := by
    induction cs with
    | nil => simp
    | cons c cs ih =>
        intro n
        rw [List.foldl_cons, ih, utf8ByteSize_ofList_cons, Nat.add_assoc]
  rw [byteLength, hfold, Nat.zero_add]

end Lexeme

/-! ## Tokens -/

section

variable {source : String}

theorem tokenize_of_cut (h : Segmentation source.toList lexemes []) :
    tokenize source = .ok (lexemes.filterMap Prod.snd) := by
  rcases h.unique (Lexeme.segmentation_segment source.toList) with ⟨hlexemes, hrest⟩
  rw [tokenize]
  split
  · rename_i found hsegment
    rw [hsegment] at hlexemes
    rw [← hlexemes, List.filterMap_map]
    rfl
  · rename_i hsegment
    rw [hsegment] at hrest
    cases hrest

theorem tokenize_of_stuck {c : Char} (h : Segmentation source.toList lexemes (c :: rest)) :
    tokenize source =
      .error (.unexpected c (String.ofList (lexemes.flatMap Prod.fst)).utf8ByteSize) := by
  rcases h.unique (Lexeme.segmentation_segment source.toList) with ⟨hlexemes, hrest⟩
  rw [tokenize]
  split
  · rename_i hsegment
    rw [hsegment] at hrest
    cases hrest
  · rename_i found d after hsegment
    rw [hsegment] at hlexemes hrest
    cases hrest
    rw [← hlexemes, List.flatMap_map, ← Lexeme.byteLength_eq]
    rfl

theorem exists_segmentation (source : String) :
    ∃ lexemes rest, Segmentation source.toList lexemes rest :=
  ⟨_, _, Lexeme.segmentation_segment source.toList⟩

theorem tokenize_eq_ok_iff (h : Segmentation source.toList lexemes rest) (tokens : List Token) :
    tokenize source = .ok tokens ↔ rest = [] ∧ tokens = lexemes.filterMap Prod.snd := by
  cases rest with
  | nil =>
      rw [tokenize_of_cut h]
      constructor
      · intro htokens
        cases htokens
        exact ⟨rfl, rfl⟩
      · intro htokens
        rw [htokens.2]
  | cons c rest =>
      rw [tokenize_of_stuck h]
      constructor
      · intro htokens
        cases htokens
      · intro htokens
        cases htokens.1

theorem tokenize_eq_error_iff (h : Segmentation source.toList lexemes rest) (c : Char)
    (position : Nat) :
    tokenize source = .error (.unexpected c position) ↔
      rest.head? = some c ∧
        position = (String.ofList (lexemes.flatMap Prod.fst)).utf8ByteSize := by
  cases rest with
  | nil =>
      rw [tokenize_of_cut h]
      constructor
      · intro herror
        cases herror
      · intro herror
        cases herror.1
  | cons d rest =>
      rw [tokenize_of_stuck h]
      constructor
      · intro herror
        cases herror
        exact ⟨rfl, rfl⟩
      · intro herror
        cases herror.1
        rw [herror.2]

end

/-!
## Tokens without lexemes

Texts that are cut into different lexemes can have the same tokens, so it is often enough
to know the tokens that have been cut off.
-/

section

variable {tokens tokens' : List Token} {rest' : List Char}

/-- Whether some tokens are cut off the front of a text, and what is left behind them. -/
def Yields (cs : List Char) (tokens : List Token) (rest : List Char) : Prop :=
  ∃ lexemes, Segmentation cs lexemes rest ∧ lexemes.filterMap Prod.snd = tokens

namespace Yields

theorem exists_of_text (cs : List Char) : ∃ tokens rest, Yields cs tokens rest :=
  ⟨_, _, _, Lexeme.segmentation_segment cs, rfl⟩

theorem unique (h : Yields cs tokens rest) (hother : Yields cs tokens' rest') :
    tokens' = tokens ∧ rest' = rest := by
  rcases h with ⟨lexemes, hcut, rfl⟩
  rcases hother with ⟨lexemes', hcut', rfl⟩
  rcases hcut.unique hcut' with ⟨rfl, rfl⟩
  exact ⟨rfl, rfl⟩

theorem nil_of_not_startsLexeme (h : ¬ StartsLexeme cs) : Yields cs [] cs :=
  ⟨[], .stop h, rfl⟩

theorem cons_of_isLongest (hlongest : IsLongest text token (text ++ cs))
    (h : Yields cs tokens rest) : Yields (text ++ cs) (token.toList ++ tokens) rest := by
  rcases h with ⟨lexemes, hcut, rfl⟩
  refine ⟨(text, token) :: lexemes, .cut hlongest hcut, ?_⟩
  rw [List.filterMap_cons]
  cases token <;> rfl

theorem not_startsLexeme (h : Yields cs tokens rest) : ¬ StartsLexeme rest := by
  rcases h with ⟨lexemes, hcut, _⟩
  exact hcut.not_startsLexeme

theorem exists_text (h : Yields cs tokens rest) : ∃ before, before ++ rest = cs := by
  rcases h with ⟨lexemes, hcut, _⟩
  exact ⟨_, hcut.text_append⟩

end Yields

theorem tokenize_of_yields {source : String} (h : Yields source.toList tokens []) :
    tokenize source = .ok tokens := by
  rcases h with ⟨lexemes, hcut, rfl⟩
  exact tokenize_of_cut hcut

theorem tokenize_of_yields_cons {source : String} {c : Char} {before : List Char}
    (h : Yields source.toList tokens (c :: rest)) (htext : before ++ c :: rest = source.toList) :
    tokenize source = .error (.unexpected c (String.ofList before).utf8ByteSize) := by
  rcases h with ⟨lexemes, hcut, rfl⟩
  have hbefore : lexemes.flatMap Prod.fst = before :=
    List.append_cancel_right (hcut.text_append.trans htext.symm)
  rw [tokenize_of_stuck hcut, hbefore]

end

theorem IsLexeme.read?_number {text : List Char} {value : Float}
    (h : IsLexeme text (some (.number value))) :
    Numeral.read? (String.ofList text) = some value ∨
      ∃ numeral x, text = numeral ++ ['%'] ∧ Numeral.read? (String.ofList numeral) = some x ∧
        value = x / 100 := by
  cases h with
  | number hwell => exact Or.inl (Numeral.read?_text hwell)
  | percent hwell => exact Or.inr ⟨_, _, rfl, Numeral.read?_text hwell, rfl⟩

/-- The rule cuts every expression in one way, which gives its tokens or its error. -/
theorem tokenize_eq_longest_segmentation (source : String) :
    ∃ lexemes rest, Segmentation source.toList lexemes rest ∧
      (∀ lexemes' rest', Segmentation source.toList lexemes' rest' →
        lexemes' = lexemes ∧ rest' = rest) ∧
      lexemes.flatMap Prod.fst ++ rest = source.toList ∧
      (∀ tokens, tokenize source = .ok tokens ↔
        rest = [] ∧ tokens = lexemes.filterMap Prod.snd) ∧
      (∀ c position, tokenize source = .error (.unexpected c position) ↔
        rest.head? = some c ∧
          position = (String.ofList (lexemes.flatMap Prod.fst)).utf8ByteSize) ∧
      ¬ StartsLexeme rest ∧
      tokenize (String.ofList (lexemes.flatMap Prod.fst)) = .ok (lexemes.filterMap Prod.snd) ∧
      ∀ text value, (text, some (.number value)) ∈ lexemes →
        Numeral.read? (String.ofList text) = some value ∨
          ∃ numeral x, text = numeral ++ ['%'] ∧
            Numeral.read? (String.ofList numeral) = some x ∧ value = x / 100 := by
  rcases exists_segmentation source with ⟨lexemes, rest, h⟩
  have hpart : Segmentation (String.ofList (lexemes.flatMap Prod.fst)).toList lexemes [] := by
    rw [String.toList_ofList]
    exact h.cut_part
  refine ⟨lexemes, rest, h, ?_, h.text_append, tokenize_eq_ok_iff h, tokenize_eq_error_iff h,
    h.not_startsLexeme, ?_, ?_⟩
  · intro lexemes' rest' hother
    exact h.unique hother
  · rw [tokenize_eq_ok_iff hpart]
    exact ⟨rfl, rfl⟩
  · intro text value hmem
    exact (h.isLexeme_of_mem _ hmem).read?_number

end Calculator
