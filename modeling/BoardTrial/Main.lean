import BoardTrial.CommandLine
import BoardTrial.Console

/-!
# The program

`read <rule>` prints a rule written out, or reports what is wrong with it. `play [two-sizes]` holds
a conversation on the console.
-/

namespace BoardTrial.Program

/-- A name that no other trial has. -/
def freshName : IO String := do
  let bytes ← IO.getRandomBytes 16
  return String.join (bytes.toList.map fun b =>
    String.ofList (Nat.toDigits 16 (b.toNat + 256) |>.drop 1))

/-- Prints what the console says; `begun` is when the trial began. -/
def say (begun : Nat) (pieces : List Piece) : IO Unit := do
  for piece in pieces do
    match piece with
    | .out s => IO.print s
    | .err s => IO.eprint s
    | .elapsed => IO.print (toString ((← IO.monoMsNow) - begun))
  (← IO.getStdout).flush

/-- Reads lines and answers them until they end. -/
partial def listen (l : Layout) (begun : Nat) (mode : Console.Mode) : IO Unit := do
  let line ← (← IO.getStdin).getLine
  let name ← freshName
  if line.isEmpty then
    say begun (Console.farewell l name mode)
  else
    let (next, pieces) := Console.turn l name mode line.toList
    say begun pieces
    let begun ← match mode, next with
      | .rule _, .play _ _ _ => IO.monoMsNow
      | _, _ => pure begun
    listen l begun next

/-- Holds a conversation on a board. -/
def play (args : List String) : IO UInt32 := do
  let (mode, pieces) := Console.opening
  say 0 pieces
  listen (Console.layoutOf args) 0 mode
  return 0

/-- Reads the rule that the arguments give. -/
def readRule (args : List String) : IO UInt32 := do
  let o := CommandLine.readRule args
  IO.print o.out
  IO.eprint o.err
  return o.exit.toUInt32

end BoardTrial.Program

/-- The command line of the program. -/
def main : List String → IO UInt32
  | "read" :: args => BoardTrial.Program.readRule args
  | "play" :: args => BoardTrial.Program.play args
  | _ => do
    IO.eprintln "usage: read <rule> | play [two-sizes]"
    return 2
