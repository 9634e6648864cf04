import Calculator.Decimal.Numeral
import Calculator.Failure
import Calculator.Token

/-!
# Lexemes

An expression is cut into lexemes from the left, each the longest that starts
where the one before it ends: numerals with an adjacent percent sign, names,
single symbols, and runs of blanks.  A numeral is read when it is cut, and one that
could not be read would not be cut.  `segment` returns the lexemes and the part of
the text that could not be cut, which is empty or starts where no lexeme does.
`tokenize` takes the tokens of the lexemes.

The main statements are `text_append_of_scan?` and `segment_text`: cutting loses
nothing.
-/

namespace Calculator

inductive Lexeme where
  /-- A numeral, what it was read as, and whether a percent sign stands behind it. -/
  | number (numeral : Numeral) (value : Float) (percent : Bool)
  | name (text : List Char)
  | symbol (character : Char)
  | blanks (text : List Char)
  deriving Repr, DecidableEq

namespace Lexeme

/-! ## Characters -/

def isBlank (c : Char) : Bool :=
  c = ' ' || c = '\t' || c = '\n'

def isNameStart (c : Char) : Bool :=
  c.isAlpha || c = '_'

def isNameChar (c : Char) : Bool :=
  isNameStart c || c.isDigit

def isSymbol (c : Char) : Bool :=
  (Token.ofSymbol? c).isSome

def byteLength (cs : List Char) : Nat :=
  cs.foldl (fun n c => n + c.utf8Size) 0

/-! ## Text and token of a lexeme -/

def text : Lexeme → List Char
  | number numeral _ percent => numeral.text ++ (if percent then ['%'] else [])
  | name text => text
  | symbol character => [character]
  | blanks text => text

/-- The token that a lexeme stands for; blanks stand for none, and names are in lower case. -/
def token? : Lexeme → Option Token
  | number _ value percent => some (.number (if percent then value / 100 else value))
  | name text => some (.name (String.ofList (text.map Char.toLower)))
  | symbol character => Token.ofSymbol? character
  | blanks _ => none

/-! ## Cutting -/

def withPercent (numeral : Numeral) (value : Float) : List Char → Lexeme × List Char
  | '%' :: rest => (number numeral value true, rest)
  | rest => (number numeral value false, rest)

/-- The number at the front of a text and the text after it, if the number can be read. -/
def scanNumber? (cs : List Char) : Option (Lexeme × List Char) :=
  (Numeral.scan? cs).bind fun (numeral, rest) =>
    (Numeral.read? (String.ofList numeral.text)).map fun value => withPercent numeral value rest

def scan? : List Char → Option (Lexeme × List Char)
  | [] => none
  | c :: cs =>
      if isBlank c then some (blanks (c :: cs.takeWhile isBlank), cs.dropWhile isBlank)
      else if isNameStart c then
        some (name (c :: cs.takeWhile isNameChar), cs.dropWhile isNameChar)
      else if isSymbol c then some (symbol c, cs)
      else scanNumber? (c :: cs)

theorem text_append_withPercent (numeral : Numeral) (value : Float) (cs : List Char) :
    (withPercent numeral value cs).1.text ++ (withPercent numeral value cs).2 =
      numeral.text ++ cs := by
  unfold withPercent
  split <;> simp [text]

theorem text_ne_nil_of_withPercent {numeral : Numeral} (h : numeral.text ≠ []) (value : Float)
    (cs : List Char) : (withPercent numeral value cs).1.text ≠ [] := by
  unfold withPercent
  split <;> simp [text, h]

theorem exists_of_scanNumber? {cs rest : List Char} {lexeme : Lexeme}
    (h : scanNumber? cs = some (lexeme, rest)) :
    ∃ numeral value after, Numeral.scan? cs = some (numeral, after) ∧
      Numeral.read? (String.ofList numeral.text) = some value ∧
      withPercent numeral value after = (lexeme, rest) := by
  rcases Option.bind_eq_some_iff.mp h with ⟨⟨numeral, after⟩, hnumeral, hread⟩
  rcases Option.map_eq_some_iff.mp hread with ⟨value, hvalue, heq⟩
  exact ⟨numeral, value, after, hnumeral, hvalue, heq⟩

theorem text_append_of_scan? {cs rest : List Char} {lexeme : Lexeme}
    (h : scan? cs = some (lexeme, rest)) : lexeme.text ++ rest = cs := by
  cases cs with
  | nil => simp [scan?] at h
  | cons c cs =>
      simp only [scan?] at h
      split at h
      · cases h
        simp [text]
      · split at h
        · cases h
          simp [text]
        · split at h
          · cases h
            rfl
          · rcases exists_of_scanNumber? h with ⟨numeral, value, after, hnumeral, _, heq⟩
            have happend := text_append_withPercent numeral value after
            rw [heq] at happend
            rw [happend, Numeral.text_append_of_scan? hnumeral]

theorem text_ne_nil_of_scan? {cs rest : List Char} {lexeme : Lexeme}
    (h : scan? cs = some (lexeme, rest)) : lexeme.text ≠ [] := by
  cases cs with
  | nil => simp [scan?] at h
  | cons c cs =>
      simp only [scan?] at h
      split at h
      · cases h
        simp [text]
      · split at h
        · cases h
          simp [text]
        · split at h
          · cases h
            simp [text]
          · rcases exists_of_scanNumber? h with ⟨numeral, value, after, hnumeral, _, heq⟩
            have hne := Numeral.text_ne_nil_of_scan? hnumeral
            have hlexeme := text_ne_nil_of_withPercent hne value after
            rw [heq] at hlexeme
            exact hlexeme

theorem length_lt_of_scan? {cs rest : List Char} {lexeme : Lexeme}
    (h : scan? cs = some (lexeme, rest)) : rest.length < cs.length := by
  have hpos := List.length_pos_iff.2 (text_ne_nil_of_scan? h)
  rw [← text_append_of_scan? h, List.length_append]
  omega

def segmentAfter (done : List Lexeme) (cs : List Char) : List Lexeme × List Char :=
  match _h : scan? cs with
  | some (lexeme, rest) => segmentAfter (lexeme :: done) rest
  | none => (done.reverse, cs)
termination_by cs.length
decreasing_by exact length_lt_of_scan? ‹_›

def segment (cs : List Char) : List Lexeme × List Char :=
  segmentAfter [] cs

theorem segmentAfter_text (done : List Lexeme) (cs : List Char) :
    (segmentAfter done cs).1.flatMap text ++ (segmentAfter done cs).2 =
      done.reverse.flatMap text ++ cs := by
  fun_induction segmentAfter done cs with
  | case1 done cs lexeme rest h ih =>
      rw [ih, ← text_append_of_scan? h]
      simp
  | case2 done cs h => rfl

theorem segment_text (cs : List Char) :
    (segment cs).1.flatMap text ++ (segment cs).2 = cs :=
  segmentAfter_text [] cs

end Lexeme

/-! ## Tokens of an expression -/

/--
The tokens of an expression.  The first character that starts no lexeme is an
error, at the number of bytes that were cut before it.
-/
def tokenize (source : String) : Except LexicalError (List Token) :=
  match Lexeme.segment source.toList with
  | (lexemes, []) => .ok (lexemes.filterMap Lexeme.token?)
  | (lexemes, c :: _) =>
      .error (.unexpected c (Lexeme.byteLength (lexemes.flatMap Lexeme.text)))

end Calculator
