import Calculator.Proofs.AnswerSubstitution
import Calculator.Proofs.Segmentation
import Calculator.Proofs.SessionLog
import Calculator.Proofs.SurplusValues

/-!
# Evaluations one after the other

The text of one expression can be written, in parentheses, for the name of the
previous answer in the text of another.  The lexemes of both stay what they were,
because a parenthesis is a lexeme of its own and never part of another one.  So the
expression that comes out has the tokens of the substitution, and a session that
evaluates it has the answer of a session that evaluates the two in sequence.
-/

namespace Calculator

/-! ## Lexemes next to parentheses -/

section

variable {c : Char} {cs after text inner rest : List Char} {token : Option Token}
  {lexemes more : List (List Char × Option Token)}

theorem IsLexeme.eq_singleton (h : IsLexeme text token) (hparen : c = '(' ∨ c = ')')
    (hc : c ∈ text) : text = [c] := by
  have hclass : c.isDigit = false ∧ c.isAlpha = false ∧
      c ∉ ['.', 'e', 'E', '+', '-', '%', '_', ' ', '\t', '\n'] := by
    rcases hparen with rfl | rfl <;> decide
  simp only [List.mem_cons, List.not_mem_nil, or_false, not_or] at hclass
  cases h with
  | number hwell =>
      have hnumeral := Numeral.mem_text hwell hc
      simp [hclass] at hnumeral
  | percent hwell =>
      rcases List.mem_append.mp hc with hc | hc
      · have hnumeral := Numeral.mem_text hwell hc
        simp [hclass] at hnumeral
      · simp [hclass] at hc
  | name hstart hrest =>
      rcases List.mem_cons.mp hc with rfl | hc
      · simp [hclass] at hstart
      · have hname := hrest c hc
        simp [hclass] at hname
  | blanks _ hall =>
      have hblank := hall c hc
      simp [hclass] at hblank
  | operator | suffix | openParen | closeParen | comma =>
      rw [List.mem_singleton.mp hc]

theorem IsLongest.append_paren (h : IsLongest text token (text ++ cs))
    (hparen : c = '(' ∨ c = ')') : IsLongest text token (text ++ (cs ++ c :: after)) := by
  apply h.append_cons
  intro other token' hother hreach
  have hc : c ∈ other := hreach.subset (by simp)
  have htext := List.length_pos_iff.mpr h.isLexeme.ne_nil
  have hlength := hreach.length_le
  rw [hother.eq_singleton hparen hc] at hlength
  simp only [List.length_append, List.length_singleton] at hlength
  omega

theorem isLongest_paren (hlexeme : IsLexeme [c] token) (hparen : c = '(' ∨ c = ')')
    (cs : List Char) : IsLongest [c] token ([c] ++ cs) := by
  refine ⟨hlexeme, List.prefix_append _ _, ?_⟩
  intro other token' hother hprefix
  have hc : c ∈ other := by
    cases other with
    | nil => exact absurd rfl hother.ne_nil
    | cons d other =>
        rw [(List.cons_prefix_cons.mp hprefix).1]
        exact List.mem_cons_self
  rw [hother.eq_singleton hparen hc]

theorem Segmentation.append_paren (h : Segmentation cs lexemes []) (hparen : c = '(' ∨ c = ')')
    (hafter : Segmentation (c :: after) more rest) :
    Segmentation (cs ++ c :: after) (lexemes ++ more) rest := by
  generalize hend : ([] : List Char) = last at h
  induction h with
  | stop _ =>
      cases hend
      exact hafter
  | cut hlongest _ ih =>
      rw [List.append_assoc]
      exact .cut (hlongest.append_paren hparen) (ih hend)

theorem Segmentation.parenthesized (h : Segmentation inner lexemes [])
    (hafter : Segmentation after more rest) :
    Segmentation ('(' :: inner ++ [')'] ++ after)
      ((['('], some .openParen) :: lexemes ++ [([')'], some .closeParen)] ++ more) rest := by
  have hclose : Segmentation (')' :: after) (([')'], some .closeParen) :: more) rest :=
    .cut (isLongest_paren .closeParen (Or.inr rfl) after) hafter
  have hinside := h.append_paren (Or.inr rfl) hclose
  have hopen := Segmentation.cut (isLongest_paren .openParen (Or.inl rfl) _) hinside
  rw [List.append_assoc, List.append_assoc]
  exact hopen

end

/-! ## The text of a substituted expression -/

def Lexeme.withAnswer (inner : List Char) (lexeme : Lexeme) : List Char :=
  if lexeme.token? = some (.name "ans") then '(' :: inner ++ [')'] else lexeme.text

/-- The text of an expression with another one wherever it has the previous answer. -/
def substituteSource (inner source : String) : String :=
  String.ofList ((Lexeme.segment source.toList).1.flatMap (Lexeme.withAnswer inner.toList))

namespace Segmentation

def withAnswer (inner : List (List Char × Option Token)) (lexeme : List Char × Option Token) :
    List (List Char × Option Token) :=
  if lexeme.2 = some (.name "ans") then
    (['('], some .openParen) :: inner ++ [([')'], some .closeParen)]
  else [lexeme]

variable {cs innerText : List Char} {inner lexemes : List (List Char × Option Token)}

/-- Up to where the texts differ, a parenthesis is the first character that is new. -/
theorem exists_common_prefix (inner lexemes : List (List Char × Option Token)) :
    ∃ common, common <+: lexemes.flatMap Prod.fst ∧
      ((lexemes.flatMap (withAnswer inner)).flatMap Prod.fst = common ∨
        ∃ after, (lexemes.flatMap (withAnswer inner)).flatMap Prod.fst =
          common ++ '(' :: after) := by
  induction lexemes with
  | nil => exact ⟨[], List.prefix_refl _, Or.inl rfl⟩
  | cons lexeme lexemes ih =>
      rw [List.flatMap_cons, List.flatMap_cons, List.flatMap_append, withAnswer]
      split
      · exact ⟨[], List.nil_prefix, Or.inr ⟨_, rfl⟩⟩
      · rcases ih with ⟨common, hprefix, hcommon⟩
        have hprefix' := (List.prefix_append_right_inj lexeme.1).mpr hprefix
        rw [List.flatMap_singleton]
        refine ⟨lexeme.1 ++ common, hprefix', ?_⟩
        rcases hcommon with heq | ⟨after, heq⟩
        · exact Or.inl (congrArg (lexeme.1 ++ ·) heq)
        · refine Or.inr ⟨after, ?_⟩
          rw [heq, List.append_assoc]

theorem substituted (hinner : Segmentation innerText inner []) (h : Segmentation cs lexemes []) :
    Segmentation ((lexemes.flatMap (withAnswer inner)).flatMap Prod.fst)
      (lexemes.flatMap (withAnswer inner)) [] := by
  have htext : inner.flatMap Prod.fst = innerText := by
    rw [← hinner.text_append, List.append_nil]
  generalize hend : ([] : List Char) = last at h
  induction h with
  | stop _ =>
      subst hend
      exact .stop not_startsLexeme_nil
  | @cut text cs rest token lexemes hlongest hrest ih =>
      subst hend
      rw [List.flatMap_cons, List.flatMap_append]
      by_cases htoken : token = some (.name "ans")
      · have hparenthesized := hinner.parenthesized (ih rfl)
        rw [← htext] at hparenthesized
        rw [withAnswer, if_pos htoken]
        rw [List.flatMap_append, List.flatMap_cons]
        exact hparenthesized
      · rw [withAnswer, if_neg htoken, List.flatMap_singleton]
        refine .cut ?_ (ih rfl)
        have hcs := hrest.text_append
        rw [List.append_nil] at hcs
        rcases exists_common_prefix inner lexemes with ⟨common, hprefix, hcommon⟩
        rw [hcs] at hprefix
        have hshort := hlongest.of_prefix hprefix
        rcases hcommon with heq | ⟨after, heq⟩
        · rw [heq]
          exact hshort
        · rw [heq]
          exact hshort.append_paren (Or.inl rfl)

theorem tokens_withAnswer (inner lexemes : List (List Char × Option Token)) :
    (lexemes.flatMap (withAnswer inner)).filterMap Prod.snd =
      substituteAnswer (inner.filterMap Prod.snd) (lexemes.filterMap Prod.snd) := by
  induction lexemes with
  | nil => rfl
  | cons lexeme lexemes ih =>
      rcases lexeme with ⟨text, token⟩
      rw [List.flatMap_cons, List.filterMap_append, ih, withAnswer]
      cases token with
      | none => rfl
      | some token =>
          show _ = (token :: lexemes.filterMap Prod.snd).flatMap _
          rw [List.flatMap_cons, Token.withAnswer]
          by_cases htoken : token = .name "ans"
          · rw [if_pos (congrArg some htoken), if_pos htoken, List.filterMap_append]
            rfl
          · rw [if_neg fun heq => htoken (Option.some.inj heq), if_neg htoken]
            rfl

end Segmentation

theorem Lexeme.text_withAnswer {inner : List (List Char × Option Token)} {innerText : List Char}
    (h : inner.flatMap Prod.fst = innerText) (lexeme : Lexeme) :
    (Segmentation.withAnswer inner lexeme.piece).flatMap Prod.fst =
      lexeme.withAnswer innerText := by
  unfold Segmentation.withAnswer withAnswer
  show List.flatMap _ (if lexeme.token? = some (.name "ans") then _ else _) = _
  split
  · rw [List.flatMap_append, List.flatMap_cons, h]
    rfl
  · exact List.flatMap_singleton _ _

theorem tokenize_substituteSource {first second : String} {firstTokens secondTokens : List Token}
    (hfirst : tokenize first = .ok firstTokens) (hsecond : tokenize second = .ok secondTokens) :
    tokenize (substituteSource first second) = .ok (substituteAnswer firstTokens secondTokens) := by
  have hinner := Lexeme.segmentation_segment first.toList
  have houter := Lexeme.segmentation_segment second.toList
  rcases (tokenize_eq_ok_iff hinner firstTokens).mp hfirst with ⟨hend, rfl⟩
  rcases (tokenize_eq_ok_iff houter secondTokens).mp hsecond with ⟨hend', rfl⟩
  rw [hend] at hinner
  rw [hend'] at houter
  have hinnerText := hinner.text_append
  rw [List.append_nil] at hinnerText
  have hcut := hinner.substituted houter
  rw [List.flatMap_assoc, List.flatMap_map] at hcut
  rw [← Segmentation.tokens_withAnswer]
  apply tokenize_of_cut
  rw [substituteSource, String.toList_ofList]
  rw [← funext (Lexeme.text_withAnswer hinnerText)]
  exact hcut

/-! ## Sessions -/

namespace Session

theorem pi_not_mem_spellPi (expression : String) : 'π' ∉ (spellPi expression).toList := by
  rw [spellPi, String.toList_ofList, List.mem_flatMap]
  intro h
  rcases h with ⟨c, _, hc⟩
  split at hc
  · exact absurd hc (by decide)
  · rename_i hne
    exact hne (List.mem_singleton.mp hc).symm

theorem spellPi_of_not_mem {expression : String} (h : 'π' ∉ expression.toList) :
    spellPi expression = expression := by
  have hchars : ∀ cs : List Char, 'π' ∉ cs →
      cs.flatMap (fun c => if c = 'π' then ['p', 'i'] else [c]) = cs := by
    intro cs hcs
    induction cs with
    | nil => rfl
    | cons c cs ih =>
        rw [List.mem_cons, not_or] at hcs
        rw [List.flatMap_cons, if_neg (Ne.symm hcs.1), ih hcs.2]
        rfl
  rw [spellPi, hchars _ h, String.ofList_toList]

theorem preview_eq_ok {s : Session} {draws : Draws} {expression source : String}
    {tokens : List Token} {program : Program} {value : Float}
    (hsource : spellPi expression = source) (htokens : tokenize source = .ok tokens)
    (hprogram : arrange tokens = .ok program)
    (h : program.evaluate (s.environment draws) = .ok value) :
    s.preview draws expression = .ok value := by
  rw [preview, hsource, evaluate_of_arrange htokens hprogram]
  exact h

theorem pi_not_mem_substituteSource {first second : String} (hfirst : 'π' ∉ first.toList)
    (hsecond : 'π' ∉ second.toList) : 'π' ∉ (substituteSource first second).toList := by
  rw [substituteSource, String.toList_ofList, List.mem_flatMap]
  intro h
  rcases h with ⟨lexeme, hlexeme, hmem⟩
  rw [Lexeme.withAnswer] at hmem
  split at hmem
  · rcases List.mem_append.mp hmem with hmem | hmem
    · rcases List.mem_cons.mp hmem with heq | hmem
      · exact absurd heq (by decide)
      · exact hfirst hmem
    · exact absurd hmem (by decide)
  · apply hsecond
    rw [← Lexeme.segment_text second.toList]
    exact List.mem_append_left _ (List.mem_flatMap.mpr ⟨lexeme, hlexeme, hmem⟩)

end Session

/-! ## Evaluations in sequence -/

def CallsRandom (tokens : List Token) : Prop :=
  [.name "rand", .openParen] <:+: tokens

theorem not_calls_rand_of_arrange {tokens : List Token} {program : Program}
    (hblank : .blank ∉ tokens) (hprogram : arrange tokens = .ok program)
    (hrand : ¬ CallsRandom tokens) : .calls "rand" ∉ program.mentions := by
  intro hmem
  apply hrand
  exact Role.infix_of_calls ((mentions_perm_of_arrange hblank hprogram).mem_iff.mpr hmem)

theorem ne_nil_of_evaluate {environment : Environment} {tokens : List Token} {program : Program}
    {value : Float} (hprogram : arrange tokens = .ok program)
    (h : program.evaluate environment = .ok value) : tokens ≠ [] := by
  intro hnil
  rw [hnil] at hprogram
  cases hprogram
  cases Program.depth?_of_evaluate h

theorem exists_program_of_evaluate {environment : Environment} {source : String}
    {tokens : List Token} {value : Float} (htokens : tokenize source = .ok tokens)
    (h : evaluate environment source = .ok value) :
    ∃ program, arrange tokens = .ok program ∧ program.evaluate environment = .ok value := by
  rcases evaluate_eq_ok.mp h with ⟨tokens', program, htokens', hprogram, hvalue⟩
  rw [htokens] at htokens'
  cases htokens'
  exact ⟨program, hprogram, hvalue⟩

/-- The second of two expressions has the same value with the first in it. -/
theorem evaluate_substituteAnswer {first second : String} {firstTokens secondTokens : List Token}
    {unit : AngleUnit} {answer value result : Float} {draws draws' : Draws}
    (hfirst : tokenize first = .ok firstTokens) (hsecond : tokenize second = .ok secondTokens)
    (hrand : ¬ CallsRandom firstTokens) (hrand' : ¬ CallsRandom secondTokens)
    (hvalue : evaluate ⟨unit, answer, draws⟩ first = .ok value)
    (hresult : evaluate ⟨unit, value, draws'⟩ second = .ok result) :
    (∃ program, arrange (substituteAnswer firstTokens secondTokens) = .ok program ∧
      ∀ other, program.evaluate ⟨unit, answer, other⟩ = .ok result) ∧
    tokenize (substituteSource first second) = .ok (substituteAnswer firstTokens secondTokens) ∧
    ∀ (s : Session) (expression next : String), s.unit = unit → s.answer = answer →
      Session.spellPi expression = first → Session.spellPi next = second →
      ∀ drawn drawn' other : Draws,
        (s.afterAll [⟨.evaluate expression, drawn⟩, ⟨.evaluate next, drawn'⟩]).answer = result ∧
          (s.after ⟨.evaluate (substituteSource first second), other⟩).answer = result := by
  rcases exists_program_of_evaluate hfirst hvalue with ⟨inner, hinner, hvalue'⟩
  rcases exists_program_of_evaluate hsecond hresult with ⟨outer, houter, hresult'⟩
  have hblank := blank_not_mem_of_tokenize hfirst
  have hblank' := blank_not_mem_of_tokenize hsecond
  have hcalls := not_calls_rand_of_arrange hblank hinner hrand
  have hcalls' := not_calls_rand_of_arrange hblank' houter hrand'
  have harrange := arrange_substituteAnswer hblank (ne_nil_of_evaluate hinner hvalue') hinner
    hblank' (ne_nil_of_evaluate houter hresult') houter (known_of_evaluate hblank' houter hresult')
  have htokens := tokenize_substituteSource hfirst hsecond
  have hwhole : ∀ environment : Environment, environment.unit = unit →
      environment.answer = answer → Program.evaluate environment
        (outer.flatMap (Instruction.withAnswer inner)) = .ok result := by
    intro environment hunit hanswer
    have hafter : (⟨unit, value, draws'⟩ : Environment).unit =
        (⟨unit, answer, draws⟩ : Environment).unit := rfl
    exact Program.evaluate_withAnswer hvalue' hcalls hresult' hcalls' hafter hunit hanswer
  refine ⟨⟨_, harrange, fun other => hwhole ⟨unit, answer, other⟩ rfl rfl⟩, htokens, ?_⟩
  intro s expression next hunit hanswer hexpression hnext drawn drawn' other
  constructor
  · have hpreview : s.preview drawn expression = .ok value :=
      Session.preview_eq_ok hexpression hfirst hinner
        (Program.evaluate_of_not_rand hvalue' hcalls hunit hanswer)
    have hpreview' : (s.record expression value).preview drawn' next = .ok result :=
      Session.preview_eq_ok hnext hsecond houter
        (Program.evaluate_of_not_rand hresult' hcalls' hunit rfl)
    show ((s.after ⟨.evaluate expression, drawn⟩).after
      ⟨.evaluate next, drawn'⟩).answer = result
    rw [Session.after_evaluate_ok hpreview, Session.after_evaluate_ok hpreview']
    rfl
  · have hpi : 'π' ∉ (substituteSource first second).toList := by
      rw [← hexpression, ← hnext]
      exact Session.pi_not_mem_substituteSource (Session.pi_not_mem_spellPi expression)
        (Session.pi_not_mem_spellPi next)
    have hpreview : s.preview other (substituteSource first second) = .ok result :=
      Session.preview_eq_ok (Session.spellPi_of_not_mem hpi) htokens harrange
        (hwhole (s.environment other) hunit hanswer)
    rw [Session.after_evaluate_ok hpreview]
    rfl

theorem evaluate_substituteAnswer_of_factorial :
    evaluate ⟨.radians, 0, default⟩ "1+2" = .ok 3 ∧
      evaluate ⟨.radians, 3, default⟩ "2*ans!-ans" = .ok 9 ∧
      ∃ first second program, tokenize "1+2" = .ok first ∧ tokenize "2*ans!-ans" = .ok second ∧
        ¬ CallsRandom first ∧ ¬ CallsRandom second ∧
        arrange (substituteAnswer first second) = .ok program ∧
        ∀ other, program.evaluate ⟨.radians, 0, other⟩ = .ok 9 := by
  have hfirst : tokenize "1+2" = .ok [.number 1, .operator '+', .number 2] :=
    Sequencing.eq_ok_of_toOption (by decide +kernel)
  have hsecond : tokenize "2*ans!-ans" =
      .ok [.number 2, .operator '*', .name "ans", .suffix '!', .operator '-', .name "ans"] :=
    Sequencing.eq_ok_of_toOption (by decide +kernel)
  have hrand : ¬ CallsRandom [.number 1, .operator '+', .number 2] := by
    unfold CallsRandom
    decide +kernel
  have hrand' : ¬ CallsRandom
      [.number 2, .operator '*', .name "ans", .suffix '!', .operator '-', .name "ans"] := by
    unfold CallsRandom
    decide +kernel
  have hvalue : evaluate ⟨.radians, 0, default⟩ "1+2" = .ok 3 :=
    Sequencing.eq_ok_of_toOption (by decide +kernel)
  have hresult : evaluate ⟨.radians, 3, default⟩ "2*ans!-ans" = .ok 9 :=
    Sequencing.eq_ok_of_toOption (by decide +kernel)
  rcases (evaluate_substituteAnswer hfirst hsecond hrand hrand' hvalue hresult).1 with
    ⟨program, hprogram, hwhole⟩
  exact ⟨hvalue, hresult, _, _, program, hfirst, hsecond, hrand, hrand', hprogram, hwhole⟩

end Calculator
