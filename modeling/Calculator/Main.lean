import Calculator.CommandLine

/-!
# The program

Reads arguments and lines, prints replies as they come, and returns the status.  Every
evaluation gets a stream of random numbers with a seed of its own.
-/

namespace Calculator
namespace Terminal

/-! ## Random numbers -/

def mix (word : UInt64) : UInt64 :=
  let word := (word ^^^ (word >>> 30)) * 0xBF58476D1CE4E5B9
  let word := (word ^^^ (word >>> 27)) * 0x94D049BB133111EB
  word ^^^ (word >>> 31)

/-- Multiples of `2 ^ (-53)` below one, by an odd step near the golden section of a word. -/
def stream (seed : UInt64) (index : Nat) : Float :=
  let word := mix (seed + 0x9E3779B97F4A7C15 * UInt64.ofNat (index + 1))
  Float.ofNat (word >>> 11).toNat / 9007199254740992

def freshDraws : IO Draws := do
  let bytes ← IO.getRandomBytes 8
  let seed := bytes.foldl (fun seed byte => seed * 256 + byte.toUInt64) 0
  return .ofStream (stream seed)

/-! ## Input and output -/

def say (text : String) : IO Unit := do
  let output ← IO.getStdout
  output.putStr text
  output.flush

partial def converse (input : IO.FS.Stream) (s : Session) : IO Unit := do
  let line ← input.getLine
  if line.isEmpty then return
  let r := Dialogue.reply s ⟨line, ← freshDraws⟩
  say r.text
  unless r.ended do converse input r.session

def interact (s : Session) : IO UInt32 := do
  try
    say (Dialogue.prompt s)
    converse (← IO.getStdin) s
    return 0
  catch error =>
    IO.eprintln s!"Failed to read input: {error}"
    return 1

def conclude (outcome : CommandLine.Outcome) : IO UInt32 := do
  IO.print outcome.output
  IO.eprint outcome.errors
  return UInt32.ofNat outcome.status

def run (arguments : List String) : IO UInt32 := do
  match CommandLine.task arguments with
  | .refuse => conclude CommandLine.refusal
  | .calculate s expression => conclude (CommandLine.calculate s (← freshDraws) expression)
  | .converse s => interact s

end Terminal
end Calculator

def main (arguments : List String) : IO UInt32 :=
  Calculator.Terminal.run arguments
