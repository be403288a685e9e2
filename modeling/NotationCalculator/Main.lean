import NotationCalculator.Console

/-!
# The console as a program

Reads standard input line by line and writes each reaction of the console as it comes.
-/
namespace NotationCalculator.Console

/-- Answers the lines that are left, until the console ends. -/
partial def converse (input output : IO.FS.Stream) (c : Calculator) : IO Unit := do
  output.putStr prompt
  output.flush
  let raw ← input.getLine
  if raw.isEmpty then output.putStr "\n"
  else match react c raw with
    | .next written c =>
      output.putStr written
      converse input output c
    | .quit => return
    | .failure e => throw (IO.userError e.message)

end NotationCalculator.Console

def main : IO Unit := do
  let output ← IO.getStdout
  output.putStr NotationCalculator.Console.banner
  NotationCalculator.Console.converse (← IO.getStdin) output NotationCalculator.Console.start
  output.flush
