import Calculator.Proofs.Independence

/-!
# Letter case

The case of letters matters nowhere in an expression.  Names are folded when they are
read, and the mark of an exponent is a letter that does not count for the value.  But a
letter starts a name in one place and an exponent in another, so it has to be shown that
texts which differ in nothing else are cut at the same places.  Such a text is a lexeme
whenever the other one is, and for the same token.  So the two have lexemes of the same
length at their fronts, the longest ones among them, and then the same again.
-/

namespace Calculator

/-! ## Characters in either case -/

theorem isUpper_iff {c : Char} : c.isUpper = true ↔ 65 ≤ c.toNat ∧ c.toNat ≤ 90 := by
  unfold Char.isUpper
  rw [decide_eq_true_eq, ge_iff_le, UInt32.le_iff_toNat_le, UInt32.le_iff_toNat_le]
  exact Iff.rfl

theorem isLower_iff {c : Char} : c.isLower = true ↔ 97 ≤ c.toNat ∧ c.toNat ≤ 122 := by
  unfold Char.isLower
  rw [Bool.and_eq_true, decide_eq_true_eq, decide_eq_true_eq, ge_iff_le,
    UInt32.le_iff_toNat_le, UInt32.le_iff_toNat_le]
  exact Iff.rfl

theorem isAlpha_iff {c : Char} : c.isAlpha = true ↔ c.isUpper = true ∨ c.isLower = true := by
  unfold Char.isAlpha
  rw [Bool.or_eq_true]

theorem toNat_toLower_of_isUpper {c : Char} (h : c.isUpper = true) :
    c.toLower.toNat = c.toNat + 32 := by
  have hbounds := isUpper_iff.mp h
  have hcondition : c.val ≥ 'A'.val ∧ c.val ≤ 'Z'.val := of_decide_eq_true h
  unfold Char.toLower
  rw [dif_pos hcondition]
  show (c.val + 32).toNat = c.toNat + 32
  have hsum : c.val.toNat + (32 : UInt32).toNat < 2 ^ 32 := by
    show c.toNat + 32 < 2 ^ 32
    omega
  rw [UInt32.toNat_add, Nat.mod_eq_of_lt hsum]
  rfl

theorem toLower_of_not_isUpper {c : Char} (h : ¬ c.isUpper = true) : c.toLower = c := by
  have hcondition : ¬ (c.val ≥ 'A'.val ∧ c.val ≤ 'Z'.val) := fun hc => h (decide_eq_true hc)
  exact dif_neg hcondition

theorem isAlpha_of_toLower_eq_of_isUpper {c d : Char} (hc : c.isUpper = true)
    (h : c.toLower = d.toLower) : d.isAlpha = true := by
  rw [isAlpha_iff]
  by_cases hd : d.isUpper = true
  · exact Or.inl hd
  · have hbounds := isUpper_iff.mp hc
    rw [toLower_of_not_isUpper hd] at h
    rw [isLower_iff, ← h, toNat_toLower_of_isUpper hc]
    omega

theorem eq_or_isAlpha_of_toLower_eq {c d : Char} (h : c.toLower = d.toLower) :
    c = d ∨ c.isAlpha = true ∧ d.isAlpha = true := by
  have hupper : ∀ {c : Char}, c.isUpper = true → c.isAlpha = true := by
    intro c hc
    exact isAlpha_iff.mpr (Or.inl hc)
  by_cases hc : c.isUpper = true
  · exact Or.inr ⟨hupper hc, isAlpha_of_toLower_eq_of_isUpper hc h⟩
  · by_cases hd : d.isUpper = true
    · exact Or.inr ⟨isAlpha_of_toLower_eq_of_isUpper hd h.symm, hupper hd⟩
    · rw [toLower_of_not_isUpper hc, toLower_of_not_isUpper hd] at h
      exact Or.inl h

theorem utf8Size_eq_of_toLower_eq {c d : Char} (h : c.toLower = d.toLower) :
    c.utf8Size = d.utf8Size := by
  have hletter : ∀ {c : Char}, c.isAlpha = true → c.utf8Size = 1 := by
    intro c hc
    rw [isAlpha_iff, isUpper_iff, isLower_iff] at hc
    apply Char.utf8Size_eq_one_iff.mpr
    rw [UInt32.le_iff_toNat_le]
    show c.toNat ≤ 127
    omega
  rcases eq_or_isAlpha_of_toLower_eq h with rfl | ⟨hc, hd⟩
  · rfl
  · rw [hletter hc, hletter hd]

/-! ## Texts in either case -/

/-- Whether two texts differ in the case of their ASCII letters only. -/
def SameLetters (cs cs' : List Char) : Prop :=
  cs.map Char.toLower = cs'.map Char.toLower

namespace SameLetters

variable {c : Char} {cs cs' left left' right right' text rest : List Char}

theorem symm (h : SameLetters cs cs') : SameLetters cs' cs :=
  Eq.symm h

theorem length_eq (h : SameLetters cs cs') : cs.length = cs'.length := by
  have hlength := congrArg List.length h
  rw [List.length_map, List.length_map] at hlength
  exact hlength

theorem exists_cons (h : SameLetters (c :: cs) text) :
    ∃ d cs', text = d :: cs' ∧ c.toLower = d.toLower ∧ SameLetters cs cs' := by
  rcases List.map_eq_cons_iff.mp (Eq.symm h) with ⟨d, cs', rfl, hd, hcs⟩
  exact ⟨d, cs', rfl, hd.symm, hcs.symm⟩

theorem exists_append (h : SameLetters (left ++ right) text) :
    ∃ left' right', text = left' ++ right' ∧ SameLetters left left' ∧
      SameLetters right right' := by
  have hmap : text.map Char.toLower = left.map Char.toLower ++ right.map Char.toLower := by
    rw [← List.map_append]
    exact Eq.symm h
  rcases List.map_eq_append_iff.mp hmap with ⟨left', right', rfl, hleft, hright⟩
  exact ⟨left', right', rfl, hleft.symm, hright.symm⟩

/-- In texts of one length and fold, what is in front of the same rest is in the same place. -/
theorem of_append (h : SameLetters (left ++ right) (left' ++ right'))
    (hright : SameLetters right right') : SameLetters left left' := by
  unfold SameLetters at h hright ⊢
  rw [List.map_append, List.map_append, hright] at h
  exact List.append_cancel_right h

theorem eq_of_not_isAlpha (h : SameLetters cs cs') (hcs : ∀ c ∈ cs, c.isAlpha = false) :
    cs' = cs := by
  induction cs generalizing cs' with
  | nil => exact List.length_eq_zero_iff.mp h.length_eq.symm
  | cons c cs ih =>
      rw [List.forall_mem_cons] at hcs
      rcases h.exists_cons with ⟨d, cs', rfl, hd, hrest⟩
      rcases eq_or_isAlpha_of_toLower_eq hd with rfl | ⟨hc, _⟩
      · rw [ih hrest hcs.2]
      · rw [hcs.1] at hc
        cases hc

theorem eq_singleton (h : SameLetters [c] cs) (hc : c.isAlpha = false) : cs = [c] := by
  apply h.eq_of_not_isAlpha
  intro d hd
  rw [List.mem_singleton.mp hd]
  exact hc

theorem forall_mem {p : Char → Bool} (hp : ∀ c, c.isAlpha = true → p c = true)
    (h : SameLetters cs cs') (hcs : ∀ c ∈ cs, p c = true) : ∀ c ∈ cs', p c = true := by
  induction cs generalizing cs' with
  | nil =>
      rw [List.length_eq_zero_iff.mp h.length_eq.symm]
      simp
  | cons c cs ih =>
      rw [List.forall_mem_cons] at hcs
      rcases h.exists_cons with ⟨d, cs', rfl, hd, hrest⟩
      rw [List.forall_mem_cons]
      refine ⟨?_, ih hrest hcs.2⟩
      rcases eq_or_isAlpha_of_toLower_eq hd with rfl | ⟨_, hd⟩
      · exact hcs.1
      · exact hp d hd

theorem utf8ByteSize_eq (h : SameLetters cs cs') :
    (String.ofList cs).utf8ByteSize = (String.ofList cs').utf8ByteSize := by
  induction cs generalizing cs' with
  | nil => rw [List.length_eq_zero_iff.mp h.length_eq.symm]
  | cons c cs ih =>
      rcases h.exists_cons with ⟨d, cs', rfl, hd, hrest⟩
      rw [Lexeme.utf8ByteSize_ofList_cons, Lexeme.utf8ByteSize_ofList_cons, ih hrest,
        utf8Size_eq_of_toLower_eq hd]

end SameLetters

/-! ## Lexemes in either case -/

section

variable {c : Char} {cs cs' rest text text' : List Char} {token : Option Token}
  {tokens : List Token}

theorem isAlpha_eq_false_of_isDigit (h : c.isDigit = true) : c.isAlpha = false := by
  have hname := (Lexeme.not_isBlank_of_numeralStart (Or.inl h)).2.1
  rw [Lexeme.isNameStart, Bool.or_eq_false_iff] at hname
  exact hname.1

theorem mark_of_toLower_eq {mark mark' : Char} (h : mark = 'e' ∨ mark = 'E')
    (hmark : mark.toLower = mark'.toLower) : mark' = 'e' ∨ mark' = 'E' := by
  have hfold : mark'.toLower = 'e' := by
    rw [← hmark]
    rcases h with rfl | rfl <;> rfl
  by_cases hupper : mark'.isUpper = true
  · have hnat := toNat_toLower_of_isUpper hupper
    rw [hfold] at hnat
    exact Or.inr (Char.toNat_inj.mp (Nat.add_right_cancel hnat.symm))
  · rw [toLower_of_not_isUpper hupper] at hfold
    exact Or.inl hfold

theorem Exponent.exists_of_sameLetters {e : Exponent} (h : e.WellFormed)
    (hsame : SameLetters e.text cs) :
    ∃ e' : Exponent, e'.WellFormed ∧ e'.text = cs ∧ e'.value = e.value := by
  rcases hsame.exists_cons with ⟨mark, cs', rfl, hmark, hrest⟩
  have htail : cs' = e.sign.toList ++ e.digits := by
    apply hrest.eq_of_not_isAlpha
    intro c hc
    rcases List.mem_append.mp hc with hsign | hdigit
    · rcases h.sign c (Option.mem_toList.mp hsign) with rfl | rfl <;> rfl
    · exact isAlpha_eq_false_of_isDigit (h.digits c hdigit)
  refine ⟨⟨mark, e.sign, e.digits⟩, ⟨?_, h.sign, h.digits_ne_nil, h.digits⟩, ?_, rfl⟩
  · exact mark_of_toLower_eq h.mark hmark
  · rw [htail]
    rfl

theorem Numeral.exists_of_sameLetters {n : Numeral} (h : n.WellFormed)
    (hsame : SameLetters n.text cs) :
    ∃ n' : Numeral, n'.WellFormed ∧ n'.text = cs ∧ n'.value = n.value := by
  rw [text_eq] at hsame
  rcases hsame.exists_append with ⟨mantissa, rest, rfl, hmantissa, hexponent⟩
  have hdigits : mantissa = n.mantissaText := by
    apply hmantissa.eq_of_not_isAlpha
    intro c hc
    rcases List.mem_append.mp hc with hwhole | hfraction
    · exact isAlpha_eq_false_of_isDigit (h.whole c hwhole)
    · cases hn : n.fraction with
      | none =>
          rw [hn] at hfraction
          cases hfraction
      | some digits =>
          rw [hn] at hfraction
          rcases List.mem_cons.mp hfraction with rfl | hdigit
          · rfl
          · exact isAlpha_eq_false_of_isDigit (h.fraction digits hn c hdigit)
  cases hn : n.exponent with
  | none =>
      rw [hn] at hexponent
      refine ⟨n, h, ?_, rfl⟩
      rw [text_eq, hdigits, hn, hexponent.eq_of_not_isAlpha nofun]
  | some e =>
      rw [hn] at hexponent
      rcases Exponent.exists_of_sameLetters (h.exponent e hn) hexponent with
        ⟨e', hwell, htext, hvalue⟩
      refine ⟨{ n with exponent := some e' }, ⟨h.whole, h.fraction, h.mantissa, ?_⟩, ?_, ?_⟩
      · intro e'' he
        cases he
        exact hwell
      · rw [text_eq, hdigits, ← htext]
        rfl
      · rw [value, value, hn]
        simp [hvalue]

theorem IsLexeme.of_sameLetters (h : IsLexeme text token) (hsame : SameLetters text text') :
    IsLexeme text' token := by
  cases h with
  | number hwell =>
      rcases Numeral.exists_of_sameLetters hwell hsame with ⟨n, hwell', rfl, hvalue⟩
      rw [← hvalue]
      exact .number hwell'
  | percent hwell =>
      rcases hsame.exists_append with ⟨numeral, percent, rfl, hnumeral, hpercent⟩
      rcases Numeral.exists_of_sameLetters hwell hnumeral with ⟨n, hwell', rfl, hvalue⟩
      rw [hpercent.eq_singleton rfl, ← hvalue]
      exact .percent hwell'
  | name hstart hrest =>
      have hname := hsame
      rcases hsame.exists_cons with ⟨d, cs', rfl, hd, hsame'⟩
      unfold SameLetters at hname
      rw [hname]
      refine .name ?_ ?_
      · rcases eq_or_isAlpha_of_toLower_eq hd with rfl | ⟨_, hd⟩
        · exact hstart
        · exact Or.inl hd
      · intro c hc
        apply Lexeme.isNameChar_iff.mp
        apply hsame'.forall_mem (fun c hc => Lexeme.isNameChar_iff.mpr (Or.inl hc)) _ c hc
        intro c hc
        exact Lexeme.isNameChar_iff.mpr (hrest c hc)
  | blanks hne hall =>
      rw [hsame.eq_of_not_isAlpha]
      · exact .blanks hne hall
      · intro c hc
        rcases hall c hc with rfl | rfl | rfl <;> rfl
  | operator hmem =>
      rename_i c
      have hsymbol : c.isAlpha = false :=
        Lexeme.eq_false_of_isSymbol rfl (Lexeme.isSymbol_operator hmem).1
      rw [hsame.eq_singleton hsymbol]
      exact .operator hmem
  | suffix =>
      rw [hsame.eq_singleton rfl]
      exact .suffix
  | openParen =>
      rw [hsame.eq_singleton rfl]
      exact .openParen
  | closeParen =>
      rw [hsame.eq_singleton rfl]
      exact .closeParen
  | comma =>
      rw [hsame.eq_singleton rfl]
      exact .comma

theorem StartsLexeme.of_sameLetters (h : StartsLexeme cs) (hsame : SameLetters cs cs') :
    StartsLexeme cs' := by
  rcases h with ⟨text, token, hlexeme, after, rfl⟩
  rcases hsame.exists_append with ⟨text', after', rfl, htext, _⟩
  exact ⟨text', token, hlexeme.of_sameLetters htext, List.prefix_append text' after'⟩

theorem IsLongest.of_sameLetters (h : IsLongest text token (text ++ cs))
    (htext : SameLetters text text') (hsame : SameLetters (text ++ cs) (text' ++ cs')) :
    IsLongest text' token (text' ++ cs') := by
  refine ⟨h.isLexeme.of_sameLetters htext, List.prefix_append _ _, ?_⟩
  intro other token' hother hprefix
  rcases hprefix with ⟨after, hafter⟩
  rw [← hafter] at hsame
  rcases hsame.symm.exists_append with ⟨other', after', heq, hother', _⟩
  have hlength := h.longest other' token' (hother.of_sameLetters hother') ⟨after', heq.symm⟩
  rw [← hother'.length_eq, htext.length_eq] at hlength
  exact hlength

theorem Yields.of_sameLetters (h : Yields cs tokens rest) (hsame : SameLetters cs cs') :
    ∃ rest', Yields cs' tokens rest' ∧ SameLetters rest rest' := by
  rcases h with ⟨lexemes, hcut, rfl⟩
  induction hcut generalizing cs' with
  | stop hstop =>
      have hstop' : ¬ StartsLexeme cs' := fun hstarts => hstop (hstarts.of_sameLetters hsame.symm)
      exact ⟨cs', nil_of_not_startsLexeme hstop', hsame⟩
  | @cut text cs rest token lexemes hlongest _ ih =>
      rcases hsame.exists_append with ⟨text', after, rfl, htext, hafter⟩
      rcases ih hafter with ⟨rest', hyields, hrest⟩
      refine ⟨rest', ?_, hrest⟩
      rw [List.filterMap_cons]
      have hcons := cons_of_isLongest (hlongest.of_sameLetters htext hsame) hyields
      cases token <;> exact hcons

end

/-! ## Expressions in either case -/

theorem startsLexeme_of_isAlpha {c : Char} (h : c.isAlpha = true) (cs : List Char) :
    StartsLexeme (c :: cs) :=
  ⟨[c], _, .name (Or.inl h) nofun, cs, rfl⟩

theorem tokenize_of_sameLetters {source other : String}
    (h : SameLetters source.toList other.toList) : tokenize source = tokenize other := by
  rcases Yields.exists_of_text source.toList with ⟨tokens, rest, hsource⟩
  rcases hsource.of_sameLetters h with ⟨rest', hother, hrest⟩
  cases rest with
  | nil =>
      rw [List.length_eq_zero_iff.mp hrest.length_eq.symm] at hother
      rw [tokenize_of_yields hsource, tokenize_of_yields hother]
  | cons c rest =>
      rcases hrest.exists_cons with ⟨d, rest', rfl, hd, _⟩
      rcases hsource.exists_text with ⟨before, hbefore⟩
      rcases hother.exists_text with ⟨before', hbefore'⟩
      rw [← hbefore, ← hbefore'] at h
      rw [tokenize_of_yields_cons hsource hbefore, tokenize_of_yields_cons hother hbefore']
      rcases eq_or_isAlpha_of_toLower_eq hd with rfl | ⟨hletter, _⟩
      · rw [(h.of_append hrest).utf8ByteSize_eq]
      · exact absurd (startsLexeme_of_isAlpha hletter rest) hsource.not_startsLexeme

/-- Expressions with the same letters have the same tokens and the same value or failure. -/
theorem evaluate_of_sameLetters {source other : String}
    (h : SameLetters source.toList other.toList) :
    tokenize source = tokenize other ∧
    (∀ environment, evaluate environment source = evaluate environment other) ∧
    (¬ Says CallsRandom source → ∀ unit answer draws draws',
      evaluate ⟨unit, answer, draws⟩ source = evaluate ⟨unit, answer, draws'⟩ other) := by
  have htokens := tokenize_of_sameLetters h
  have hevaluate : ∀ environment, evaluate environment source = evaluate environment other := by
    intro environment
    rw [evaluate_eq, evaluate_eq, htokens]
  refine ⟨htokens, hevaluate, ?_⟩
  intro hrand unit answer draws draws'
  rw [← hevaluate]
  exact evaluate_of_not_says hrand (Or.inl rfl) (Or.inl rfl)

theorem evaluate_of_sameLetters_of_exponent :
    SameLetters "2E3-PI+2Ex".toList "2e3-Pi+2eX".toList ∧
      tokenize "2E3-PI+2Ex" = .ok [.number 2000, .operator '-', .name "pi", .operator '+',
        .number 2, .name "ex"] ∧
      tokenize "2E3-PI+2Ex" = tokenize "2e3-Pi+2eX" ∧
      ¬ Says CallsRandom "2E3-PI+2Ex" ∧
      evaluate ⟨.degrees, 4, default⟩ "2E3-PI+2Ex" =
        evaluate ⟨.degrees, 4, .ofStream fun _ => 0.5⟩ "2e3-Pi+2eX" := by
  have hsame : SameLetters "2E3-PI+2Ex".toList "2e3-Pi+2eX".toList := by
    unfold SameLetters
    decide
  have htokens : tokenize "2E3-PI+2Ex" = .ok [.number 2000, .operator '-', .name "pi",
      .operator '+', .number 2, .name "ex"] :=
    Sequencing.eq_ok_of_toOption (by decide +kernel)
  have hrand : ¬ Says CallsRandom "2E3-PI+2Ex" := by decide +kernel
  have hequal := evaluate_of_sameLetters hsame
  exact ⟨hsame, htokens, hequal.1, hrand, hequal.2.2 hrand .degrees 4 _ _⟩

end Calculator
