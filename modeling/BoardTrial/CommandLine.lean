import BoardTrial.RuleText.Sketch
import BoardTrial.Text.Listing

/-!
# Reading a rule from the command line

The first argument is the text of a rule, in which a backslash followed by `n` ends a step. The rule
is printed written out by its constructors, or what is wrong with its text is reported.

This module models the program that reads one rule: what it prints, on which stream, and its exit
code.
-/

namespace BoardTrial

namespace CommandLine

/-- What a command leaves behind. -/
structure Output where
  /-- The exit code. -/
  exit : Nat
  /-- What it printed. -/
  out : String
  /-- What it printed as errors. -/
  err : String
  deriving DecidableEq

/-- The text in which each backslash followed by `n` is a newline. -/
def breakLines : List Char → List Char
  | '\\' :: 'n' :: cs => '\n' :: breakLines cs
  | c :: cs => c :: breakLines cs
  | [] => []

/-- Reads the rule that the arguments give. -/
def readRule : List String → Output
  | [] => ⟨1, "", "Please provide rule text to parse as the first argument.\n"⟩
  | arg :: _ =>
    let src := String.ofList (breakLines arg.toList)
    match Rule.read src with
    | .ok r => ⟨0, r.outline.block 0 ++ "\n", ""⟩
    | .error ds => ⟨1, "", report src ds⟩

end CommandLine

end BoardTrial
