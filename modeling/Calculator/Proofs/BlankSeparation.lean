import Calculator.Proofs.Segmentation
import Calculator.Proofs.Sequencing

/-!
# Blanks between expressions

A lexeme with a blank in it is a run of blanks.  So where blanks stand between two texts,
no lexeme reaches from one text into the other, and the whole has the tokens of the first
text and then those of the second.  The lexemes need not be those of the two texts, since
blanks at the end of the first one or at the start of the second one are in one run with
the blanks between them.  But runs of blanks have no tokens, so it does not matter how the
blanks of a text are divided.
-/

namespace Calculator

/-! ## Lexemes with blanks -/

section

variable {c : Char} {cs after run text rest rest' : List Char} {token : Option Token}
  {tokens tokens' : List Token} {lexemes : List (List Char × Option Token)}

theorem Lexeme.isBlank_eq_false {p : Char → Bool} (hp : List.any [' ', '\t', '\n'] p = false)
    (h : p c = true) : isBlank c = false := by
  apply Bool.eq_false_iff.mpr
  intro hblank
  rw [List.any_eq_false] at hp
  rcases isBlank_iff.mp hblank with rfl | rfl | rfl <;> exact hp _ (by simp) h

theorem IsLexeme.isBlank_eq_isNone (h : IsLexeme text token) (hc : c ∈ text) :
    Lexeme.isBlank c = token.isNone := by
  have hnumeral : ∀ {n : Numeral}, n.WellFormed → c ∈ n.text → Lexeme.isBlank c = false := by
    intro n hwell hmem
    apply Lexeme.isBlank_eq_false
      (p := fun c => c.isDigit || ['.', 'e', 'E', '+', '-'].contains c) (by decide)
    simpa using Numeral.mem_text hwell hmem
  cases h with
  | blanks _ hall => exact Lexeme.isBlank_iff.mpr (hall c hc)
  | number hwell => exact hnumeral hwell hc
  | percent hwell =>
      rcases List.mem_append.mp hc with hc | hc
      · exact hnumeral hwell hc
      · rw [List.mem_singleton.mp hc]
        rfl
  | name hstart hrest =>
      have hname : Lexeme.isNameChar c = true := by
        rcases List.mem_cons.mp hc with rfl | hc
        · exact Lexeme.isNameChar_iff.mpr (hstart.imp_right Or.inl)
        · exact Lexeme.isNameChar_iff.mpr (hrest c hc)
      exact Lexeme.isBlank_eq_false (by decide) hname
  | operator hmem =>
      rw [List.mem_singleton.mp hc]
      exact Lexeme.isBlank_eq_false (by decide) (Lexeme.isSymbol_operator hmem).1
  | suffix | openParen | closeParen | comma =>
      rw [List.mem_singleton.mp hc]
      rfl

theorem isLongest_blanks (hne : run ≠ []) (hrun : ∀ c ∈ run, Lexeme.isBlank c = true)
    (hstop : ∀ c ∈ cs.head?, Lexeme.isBlank c = false) : IsLongest run none (run ++ cs) := by
  refine ⟨.blanks hne fun c hc => Lexeme.isBlank_iff.mp (hrun c hc), List.prefix_append _ _, ?_⟩
  intro other token' hother hprefix
  cases cs with
  | nil =>
      rw [List.append_nil] at hprefix
      exact hprefix.length_le
  | cons d cs =>
      rcases prefix_append_cons hprefix with hshort | hreach
      · exact hshort.length_le
      · -- such a lexeme would have a blank in it, and a character that is none
        rcases List.exists_mem_of_ne_nil run hne with ⟨c, hc⟩
        have hblank := hother.isBlank_eq_isNone (hreach.subset (List.mem_append_left _ hc))
        have hother_d := hother.isBlank_eq_isNone (hreach.subset (by simp : d ∈ run ++ [d]))
        rw [hstop d rfl, ← hblank, hrun c hc] at hother_d
        cases hother_d

/-!
## Runs of blanks

A run of blanks is a lexeme without a token, and no other lexeme reaches into it.  So what
stands before it and what stands behind it are cut as they are alone.
-/

namespace Yields

theorem of_dropWhile_isBlank (h : Yields (cs.dropWhile Lexeme.isBlank) tokens rest) :
    Yields cs tokens rest := by
  by_cases hnil : cs.takeWhile Lexeme.isBlank = []
  · rw [← List.takeWhile_append_dropWhile (p := Lexeme.isBlank) (l := cs), hnil]
    exact h
  · have hstop : ∀ c ∈ (cs.dropWhile Lexeme.isBlank).head?, Lexeme.isBlank c = false := by
      intro c hc
      have hhead := List.head?_dropWhile_not Lexeme.isBlank cs
      rw [hc] at hhead
      exact hhead
    have hlongest := isLongest_blanks hnil (fun c hc => List.mem_takeWhile_imp hc) hstop
    have hcut := cons_of_isLongest hlongest h
    rw [List.takeWhile_append_dropWhile] at hcut
    exact hcut

theorem blanks_append (hrun : ∀ c ∈ run, Lexeme.isBlank c = true) (h : Yields cs tokens rest) :
    Yields (run ++ cs) tokens rest := by
  rcases exists_of_text (cs.dropWhile Lexeme.isBlank) with ⟨tokens', rest', hdrop⟩
  rcases h.unique (of_dropWhile_isBlank hdrop) with ⟨rfl, rfl⟩
  apply of_dropWhile_isBlank
  rw [List.dropWhile_append_of_pos hrun]
  exact hdrop

theorem append_blank (hblank : Lexeme.isBlank c = true) (h : Segmentation cs lexemes rest)
    (hafter : Yields (rest ++ c :: after) tokens rest') :
    Yields (cs ++ c :: after) (lexemes.filterMap Prod.snd ++ tokens) rest' := by
  induction h with
  | stop _ => exact hafter
  | @cut text cs rest token lexemes hlongest _ ih =>
      rw [List.append_assoc]
      cases token with
      | none =>
          apply blanks_append _ (ih hafter)
          intro d hd
          exact hlongest.isLexeme.isBlank_eq_isNone hd
      | some token =>
          show Yields _ ((some token).toList ++ (lexemes.filterMap Prod.snd ++ tokens)) rest'
          refine cons_of_isLongest (hlongest.append_cons ?_) (ih hafter)
          intro other token' hother hreach
          -- such a lexeme would be made of blanks, and so would the lexeme in front of it
          rcases List.exists_mem_of_ne_nil text hlongest.isLexeme.ne_nil with ⟨d, hd⟩
          have hother_c := hother.isBlank_eq_isNone (hreach.subset (by simp : c ∈ _))
          have hother_d := hother.isBlank_eq_isNone (hreach.subset (by simp [hd] : d ∈ _))
          have htext_d := hlongest.isLexeme.isBlank_eq_isNone hd
          rw [hother_d, ← hother_c, hblank] at htext_d
          cases htext_d

theorem append_blanks_of_nil (hne : run ≠ []) (hrun : ∀ c ∈ run, Lexeme.isBlank c = true)
    (h : Yields cs tokens []) (hafter : Yields after tokens' rest') :
    Yields (cs ++ run ++ after) (tokens ++ tokens') rest' := by
  rcases h with ⟨lexemes, hcut, rfl⟩
  have hbehind := hafter.blanks_append hrun
  cases run with
  | nil => exact absurd rfl hne
  | cons c run =>
      rw [List.append_assoc]
      exact append_blank (hrun c List.mem_cons_self) hcut hbehind

theorem append_blanks_of_cons (hne : run ≠ []) (hrun : ∀ c ∈ run, Lexeme.isBlank c = true)
    (h : Yields cs tokens (c :: rest)) (after : List Char) :
    Yields (cs ++ run ++ after) tokens (c :: rest ++ run ++ after) := by
  rcases h with ⟨lexemes, hcut, rfl⟩
  cases run with
  | nil => exact absurd rfl hne
  | cons d run =>
      have hblank : Lexeme.isBlank d = true := hrun d List.mem_cons_self
      have hstop : ¬ StartsLexeme (c :: rest ++ d :: (run ++ after)) := by
        apply not_startsLexeme_append_cons hcut.not_startsLexeme
        intro other token' hother hreach
        -- such a lexeme would be made of blanks, and the first of them would start one
        have hother_d := hother.isBlank_eq_isNone (hreach.subset (by simp : d ∈ _))
        have hother_c := hother.isBlank_eq_isNone (hreach.subset (by simp : c ∈ _))
        rw [← hother_d, hblank, Lexeme.isBlank_iff] at hother_c
        apply hcut.not_startsLexeme
        refine ⟨[c], none, .blanks (List.cons_ne_nil c []) ?_, rest, rfl⟩
        simpa using hother_c
      have hwhole := append_blank hblank hcut (nil_of_not_startsLexeme hstop)
      rw [List.append_nil] at hwhole
      simpa using hwhole

end Yields

end

/-! ## Expressions with blanks between them -/

def IsBlankText (text : String) : Prop :=
  ∀ c ∈ text.toList, c = ' ' ∨ c = '\t' ∨ c = '\n'

/-- The same error with more bytes in front of its character. -/
def LexicalError.shift (bytes : Nat) : LexicalError → LexicalError
  | unexpected character position => unexpected character (bytes + position)

theorem tokenize_append {blanks : String} (hne : blanks ≠ "") (hblanks : IsBlankText blanks)
    (first second : String) :
    tokenize (first ++ blanks ++ second) = (do
      let tokens ← tokenize first
      let more ← (tokenize second).mapError (.shift (first ++ blanks).utf8ByteSize)
      return tokens ++ more) := by
  have hrun : ∀ c ∈ blanks.toList, Lexeme.isBlank c = true := by
    intro c hc
    exact Lexeme.isBlank_iff.mpr (hblanks c hc)
  have hne' : blanks.toList ≠ [] := mt String.toList_eq_nil_iff.mp hne
  have hwhole : (first ++ blanks ++ second).toList =
      first.toList ++ blanks.toList ++ second.toList := by
    rw [String.toList_append, String.toList_append]
  rcases Yields.exists_of_text first.toList with ⟨tokens, rest, hfirst⟩
  cases rest with
  | cons c rest =>
      have hcut := hfirst.append_blanks_of_cons hne' hrun second.toList
      rcases hfirst.exists_text with ⟨before, hbefore⟩
      rw [← hwhole] at hcut
      rw [tokenize_of_yields_cons hfirst hbefore]
      apply tokenize_of_yields_cons hcut
      rw [hwhole, ← hbefore]
      simp
  | nil =>
      rcases Yields.exists_of_text second.toList with ⟨more, rest, hsecond⟩
      have hcut := hfirst.append_blanks_of_nil hne' hrun hsecond
      rw [← hwhole] at hcut
      rw [tokenize_of_yields hfirst, Sequencing.ok_bind]
      cases rest with
      | nil =>
          rw [tokenize_of_yields hcut, tokenize_of_yields hsecond]
          rfl
      | cons c rest =>
          rcases hsecond.exists_text with ⟨before, hbefore⟩
          have hbefore' : (first ++ blanks).toList ++ before ++ c :: rest =
              (first ++ blanks ++ second).toList := by
            rw [List.append_assoc, hbefore, hwhole, String.toList_append]
          rw [tokenize_of_yields_cons hsecond hbefore, tokenize_of_yields_cons hcut hbefore']
          rw [String.ofList_append, String.utf8ByteSize_append, String.ofList_toList]
          rfl

theorem tokenize_append_eq_ok_iff {blanks : String} (hne : blanks ≠ "")
    (hblanks : IsBlankText blanks) (first second : String) (tokens : List Token) :
    tokenize (first ++ blanks ++ second) = .ok tokens ↔
      ∃ left right, tokenize first = .ok left ∧ tokenize second = .ok right ∧
        tokens = left ++ right := by
  rw [tokenize_append hne hblanks, Sequencing.bind_eq_ok]
  constructor
  · intro h
    rcases h with ⟨left, hleft, hrest⟩
    rcases Sequencing.bind_eq_ok.mp hrest with ⟨right, hright, htokens⟩
    rw [Sequencing.mapError_eq_ok] at hright
    cases htokens
    exact ⟨left, right, hleft, hright, rfl⟩
  · intro h
    rcases h with ⟨left, right, hleft, hright, rfl⟩
    refine ⟨left, hleft, ?_⟩
    rw [hright]
    rfl

theorem tokenize_empty : tokenize "" = .ok [] :=
  tokenize_of_yields (Yields.nil_of_not_startsLexeme not_startsLexeme_nil)

/-- Tokenizing two texts with blanks between them comes to tokenizing the two in turn. -/
theorem tokenize_append_blanks {blanks : String} (hne : blanks ≠ "")
    (hblanks : IsBlankText blanks) :
    (∀ first second error, tokenize first = .error error →
      tokenize (first ++ blanks ++ second) = .error error) ∧
    (∀ first second tokens c position, tokenize first = .ok tokens →
      tokenize second = .error (.unexpected c position) →
      tokenize (first ++ blanks ++ second) =
        .error (.unexpected c (first.utf8ByteSize + blanks.utf8ByteSize + position))) ∧
    (∀ first second tokens more, tokenize first = .ok tokens → tokenize second = .ok more →
      tokenize (first ++ blanks ++ second) = .ok (tokens ++ more)) ∧
    (∀ first second other tokens, other ≠ "" → IsBlankText other →
      (tokenize (first ++ other ++ second) = .ok tokens ↔
        tokenize (first ++ blanks ++ second) = .ok tokens)) ∧
    (∀ text tokens, tokenize (blanks ++ text) = .ok tokens ↔ tokenize text = .ok tokens) ∧
    (∀ text tokens, tokenize (text ++ blanks) = .ok tokens ↔ tokenize text = .ok tokens) := by
  refine ⟨?_, ?_, ?_, ?_, ?_, ?_⟩
  · intro first second error hfirst
    rw [tokenize_append hne hblanks, hfirst]
    rfl
  · intro first second tokens c position hfirst hsecond
    rw [tokenize_append hne hblanks, hfirst, hsecond, String.utf8ByteSize_append]
    rfl
  · intro first second tokens more hfirst hsecond
    rw [tokenize_append hne hblanks, hfirst, hsecond]
    rfl
  · intro first second other tokens hne' hother
    rw [tokenize_append_eq_ok_iff hne' hother, tokenize_append_eq_ok_iff hne hblanks]
  · intro text tokens
    have hends := tokenize_append_eq_ok_iff hne hblanks "" text tokens
    rw [String.empty_append] at hends
    rw [hends, tokenize_empty]
    simp
  · intro text tokens
    have hends := tokenize_append_eq_ok_iff hne hblanks text "" tokens
    rw [String.append_empty] at hends
    rw [hends, tokenize_empty]
    simp

/-- The text `2e+5%` is one number, and with a blank before the `5` it is four tokens. -/
theorem tokenize_append_blanks_of_exponent :
    " \t" ≠ "" ∧ IsBlankText " \t" ∧
      tokenize "2e+5%" = .ok [.number 2000] ∧
      tokenize ("2e+" ++ " \t" ++ "5%") =
        .ok ([.number 2, .name "e", .operator '+'] ++ [.number 0.05]) := by
  have hne : " \t" ≠ "" := by decide
  have hblanks : IsBlankText " \t" := by simp [IsBlankText]
  have hfirst : tokenize "2e+" = .ok [.number 2, .name "e", .operator '+'] :=
    Sequencing.eq_ok_of_toOption (by decide +kernel)
  have hsecond : tokenize "5%" = .ok [.number 0.05] :=
    Sequencing.eq_ok_of_toOption (by decide +kernel)
  have hwhole : tokenize "2e+5%" = .ok [.number 2000] :=
    Sequencing.eq_ok_of_toOption (by decide +kernel)
  exact ⟨hne, hblanks, hwhole,
    (tokenize_append_blanks hne hblanks).2.2.1 "2e+" "5%" _ _ hfirst hsecond⟩

end Calculator
