import GrammarOutline.CommandLine.Options
import GrammarOutline.CommandLine.Usage
import GrammarOutline.Files.Access
import GrammarOutline.Resources
import GrammarOutline.Text.Order

/-!
# Running a command

A command reads a grammar and definitions, converts them and writes the lines of the outcome to a
file or to the output. What goes wrong with the input is reported on the error channel, and an error
of the file that is written ends the run.
-/
namespace GrammarOutline.CommandLine

/-- What a run leaves behind: its status, what it wrote to its two channels, and the error that
ended it if it has no status. -/
structure Outcome where
  status : Except FileFault Nat
  out : String
  err : String

/-- The line above the report of a fault. -/
def tag : Fault.Kind → String
  | .lexical => "[LEX ERROR]"
  | .syntactic => "[SYNTAX ERROR]"
  | .invariant => "[GRAMMAR ERROR]"
  | .resource => "[RESOURCE ERROR]"
  | .grammar => "[ERROR]"

def unlines (lines : List String) : String := String.join (lines.map (· ++ "\n"))

/-- The summary of a conversion: how many definitions there are, the recursive components, and the
names that were inlined. -/
def summary (c : Conversion) : List String :=
  let references := (Table.ofList (c.all.map fun d => (d.name, d.body))).map fun _ e => e.references
  let graph := Graph.ofReferences references
  let recursive := c.components.filter graph.isRecursiveGroup
  ["[DEBUG] definitions ready | yacc=" ++ toString c.definitions.length ++
      " extra=" ++ toString c.extra.length,
    "[DEBUG] components=" ++ toString c.components.length ++
      " recursive=" ++ toString recursive.length] ++
  recursive.map (fun names => "  \x7b" ++ ", ".intercalate names ++ "\x7d") ++
  ["[DEBUG] trivial=" ++ toString c.trivial.length ++ " inlined=" ++ toString c.inlined.length] ++
  if c.inlined.isEmpty then [] else ["  " ++ ", ".intercalate (Text.sorted c.inlined)]

variable {m : Type → Type} [Monad m]

/-- Writes the lines of a conversion to a file, and says so on the output. -/
def emit (files : FileAccess m) (path : String) (c : Conversion) (err : String) : m Outcome := do
  match ← files.write (Path.ofString path) (unlines c.lines).toUTF8.toList with
  | .error fault => return ⟨.error fault, "", err⟩
  | .ok () =>
    return ⟨.ok 0,
      "[EMIT] definitions=" ++ toString c.all.length ++ " -> " ++ path ++ "\n", err⟩

def convert (files : FileAccess m) (options : Options) : m Outcome := do
  match ← Conversion.ofResources files.readText options.grammar (some options.extra)
      options.policy with
  | .error d => return ⟨.ok 2, "", unlines [tag d.fault.kind, d.message]⟩
  | .ok c =>
    let err := if options.debug then unlines (summary c) else ""
    let path := options.output.getD ""
    if path.isEmpty then return ⟨.ok 0, unlines c.lines, err⟩
    else emit files path c err

def run (files : FileAccess m) (words : List String) : m Outcome :=
  match Options.read words with
  | .error .help => return ⟨.ok 0, help, ""⟩
  | .error (.refused reason) => return ⟨.ok 2, "", refusal reason⟩
  | .ok options => convert files options

end GrammarOutline.CommandLine
