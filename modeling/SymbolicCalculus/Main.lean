import SymbolicCalculus.CommandLine.Run

/-!
# The program

Reads what the command line needs and prints what it comes to.
-/

set_option autoImplicit false

namespace SymbolicCalculus.CommandLine

def readFiles : List String → IO (List (String × String))
  | [] => pure []
  | name :: rest => do
    let others ← readFiles rest
    try
      let text ← IO.FS.readFile name
      pure ((name, text) :: others)
    catch _ => pure others

def execute (words : List String) : IO UInt32 := do
  let files ← readFiles (filesOf words)
  let stdin ← if readsStdin words then (← IO.getStdin).readToEnd else pure ""
  let outcome := run ⟨stdin, fun name => files.lookup name, "unknown"⟩ words
  IO.print outcome.stdout
  IO.eprint outcome.stderr
  pure (if outcome.exit = 0 then 0 else 1)

end SymbolicCalculus.CommandLine

def main (words : List String) : IO UInt32 :=
  SymbolicCalculus.CommandLine.execute words
