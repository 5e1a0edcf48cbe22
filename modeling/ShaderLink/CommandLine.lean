import ShaderLink.Commands
import ShaderLink.Yaml.Reader

/-!
# The command line

The arguments of the program name a command, its operand and its options.  A run starts from a folder
of files and ends with an exit code, the texts that were written, and the folder as it is then.
-/

namespace ShaderLink.CommandLine

open Commands

/-! ## Arguments -/

/-- What arguments ask for: options, and the operands between them. -/
structure Arguments extends Options where
  operands : List Text := []

namespace Arguments

/-- Sets the option of a letter to a value. -/
def set (o : Arguments) (letter : Char) (value : Text) : Option Arguments :=
  match letter with
  | 'l' => some { o with libraries := o.libraries ++ [value] }
  | 'p' => some { o with plugins := o.plugins ++ [value] }
  | 'o' => some { o with output := some value }
  | _ => none

/-- The letter of an option's long name. -/
def letterOf (name : Text) : Option Char :=
  [("library", 'l'), ("plugin", 'p'), ("output", 'o'), ("verbose", 'v')].findSome? fun p =>
    if p.1.toList == name then some p.2 else none

/-- The option needs a value. -/
def takesValue (letter : Char) : Bool := letter != 'v'

/-- What letters behind one dash ask for, and the one that still needs a value, if any. -/
def letters : Text → Arguments → Option (Arguments × Option Char)
  | [], o => some (o, none)
  | c :: t, o =>
    if c = 'v' then letters t { o with isVerbose := true }
    else if t.isEmpty then some (o, some c)
    else (o.set c t).map (·, none)

/-- What one argument asks for, and the option that needs the next one, if any. -/
def argument (a : Text) (o : Arguments) : Option (Arguments × Option Char) :=
  match a with
  | '-' :: '-' :: t => do
    let name := t.takeWhile (· != '=')
    let letter ← letterOf name
    match t.drop name.length with
    | [] => if takesValue letter then some (o, some letter)
            else some ({ o with isVerbose := true }, none)
    | _ :: value => if takesValue letter then (o.set letter value).map (·, none) else none
  | '-' :: c :: t => letters (c :: t) o
  | _ => some ({ o with operands := o.operands ++ [a] }, none)

/-- What arguments ask for; nothing if they cannot be understood.  All arguments behind a double
dash are operands. -/
def read : List Text → Option Char → Arguments → Option Arguments
  | [], none, o => some o
  | [], some _, _ => none
  | a :: as, some letter, o => do read as none (← o.set letter a)
  | a :: as, none, o =>
    if a = ['-', '-'] then some { o with operands := o.operands ++ as }
    else do
      let (o, waiting) ← argument a o
      read as waiting o

/-- The request of a command; nothing if the command does not take its arguments.  Plugins and a
file to write are for linking only. -/
def request (command : Text) (args : List Text) : Option Commands.Request := do
  let o ← read args none {}
  match o.operands with
  | [operand] =>
    if command = "resolve".toList then some (.resolve operand o.toOptions)
    else if command = "inspect".toList && o.plugins.isEmpty && o.output.isNone then
      some (.inspect operand o.toOptions)
    else none
  | _ => none

end Arguments

/-- What arguments ask for, if they can be understood.  The command comes first, or behind a double
dash. -/
def request : List Text → Option Commands.Request
  | ['-', '-'] :: command :: args | command :: args => Arguments.request command args
  | [] => none

/-- How to call the program. -/
def usage : Text :=
  ("Usage: resolve SHADER [-l FOLDER]... [-p PLUGIN]... [-o FILE] [-v]\n" ++
   "       inspect FOLDER [-l FOLDER]... [-v]\n").toList

/-! ## Runs -/

/-- How a run ended. -/
structure Ending where
  code : Nat
  shown : Text := []
  log : Text := []
  escaped : Option Fault := none
  root : Folder

/-- Control sequences that change colours. -/
def colourForm : Pattern :=
  Pattern.lit (Char.ofNat 27) ++ Pattern.lit '[' ++ Pattern.many (Pattern.oneOf ";?0123456789") ++
  Pattern.one Char.isAlpha

/-- Runs a command to its end. -/
def finish (root : Folder) (o : Options) (c : Command Output) : Ending :=
  let (result, store) := c {}
  let log := colourForm.erase (logText o.isVerbose store.notices)
  match result with
  | .ok output => { code := 0, shown := colourForm.erase output.shown, log, root := output.root }
  | .error .reported => { code := 1, log, root }
  | .error (.escaped fault) => { code := 1, log, escaped := some fault, root }

/-- Runs the program on a folder of files with the given arguments. -/
def run (root : Folder) (args : List Text) : Ending :=
  match request args with
  | none => { code := 2, log := usage, root }
  | some r =>
    if r.paths.any fun p => (Route.ofText p).hasNull then
      { code := 1, escaped := some Cause.nullInPath.fault, root }
    else finish root r.options (perform root r)

end ShaderLink.CommandLine
