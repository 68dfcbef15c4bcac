import GrammarOutline.Expr.Inline
import GrammarOutline.Text.Decimal
import GrammarOutline.Text.Quoted

/-!
# Options of the command line

Words of a command are options or arguments. An option may be shortened as long as only one has that
beginning, options of one letter may be joined in one word, and a value may stand in the word of its
option or be the next word. After a word of two dashes there are only arguments.
-/
namespace GrammarOutline.CommandLine

/-- What options ask for. -/
inductive Switch where
  | help
  | output
  | maxAlternatives
  | maxSequence
  | dropInlined
  | debug
  deriving DecidableEq

namespace Switch

/-- The ways to write options, in order. -/
def spellings : List (String × Switch) :=
  [("-h", .help), ("--help", .help), ("-o", .output), ("--output", .output),
   ("--max-alternatives", .maxAlternatives), ("--max-sequence", .maxSequence),
   ("--drop-inlined", .dropInlined), ("-D", .debug), ("--debug", .debug)]

def ofSpelling? (text : String) : Option Switch := spellings.lookup text

def takesValue : Switch → Bool
  | .output | .maxAlternatives | .maxSequence => true
  | .help | .dropInlined | .debug => false

/-- An option in a message: all the ways to write it. -/
def label (s : Switch) : String :=
  "/".intercalate ((spellings.filter fun entry => entry.2 = s).map Prod.fst)

end Switch

/-- What a word of a command is. After an option the word may go on: with a value, or with further
options where the option is written `short`, as one letter. -/
inductive Word where
  | argument
  | separator
  | option (switch : Switch) (short : Bool) (rest : Option (List Char))
  | unknown
  deriving DecidableEq

namespace Word

/-- Whether a word looks like a negative number: a dash and decimal digits, with at most one point
before the last of them. A line feed may end it. -/
def isNegativeNumber : List Char → Bool
  | '-' :: rest =>
    let number := if rest.getLast? = some '\n' then rest.dropLast else rest
    let isDigit (c : Char) : Bool := (Text.digitValue? c).isSome
    match number.dropWhile isDigit with
    | [] => !number.isEmpty
    | c :: fraction => c = '.' && !fraction.isEmpty && fraction.all isDigit
  | _ => false

/-- Whether an option is written with one dash. -/
def isShort (spelling : String) : Bool := spelling.utf8ByteSize = 2

/-- What stands after the first equals sign of a word. -/
def afterSign? (text : List Char) : Option (List Char) :=
  match text.dropWhile (· != '=') with
  | [] => none
  | _ :: rest => some rest

/-- The options that a word may mean when it is no spelling, each with the rest of the word. Two
dashes start the beginning of a long option, one dash a short one that the rest follows at once. -/
def candidates (text : List Char) : List (String × Switch × Option (List Char)) :=
  if text.take 2 = ['-', '-'] then
    let beginning := text.takeWhile (· != '=')
    (Switch.spellings.filter fun entry => beginning.isPrefixOf entry.1.toList).map fun entry =>
      (entry.1, entry.2, afterSign? text)
  else
    (Switch.spellings.filter fun entry => entry.1.toList = text.take 2).map fun entry =>
      (entry.1, entry.2, some (text.drop 2))

/-- What a word is, or why it is refused. -/
def classify (text : String) : Except String Word :=
  if text.toList.head? ≠ some '-' then .ok .argument
  else
    match Switch.ofSpelling? text with
    | some switch => .ok (.option switch (isShort text) none)
    | none =>
      if text = "-" then .ok .argument
      else
        let spelling := String.ofList (text.toList.takeWhile (· != '='))
        match afterSign? text.toList, Switch.ofSpelling? spelling with
        | some rest, some switch => .ok (.option switch (isShort spelling) (some rest))
        | _, _ =>
          match candidates text.toList with
          | [(spelling, switch, rest)] => .ok (.option switch (isShort spelling) rest)
          | [] =>
            if isNegativeNumber text.toList || text.toList.contains ' ' then .ok .argument
            else .ok .unknown
          | several =>
            .error ("ambiguous option: " ++ text ++ " could match " ++
              ", ".intercalate (several.map Prod.fst))

def classifyAll : List String → Except String (List (Word × String))
  | [] => .ok []
  | text :: texts =>
    if text = "--" then .ok ((.separator, text) :: texts.map (.argument, ·))
    else (classify text).bind fun word => (classifyAll texts).map ((word, text) :: ·)

end Word

/-- What a command asks for. -/
structure Options where
  grammar : String
  extra : String
  output : Option String
  policy : InlinePolicy
  debug : Bool
  deriving DecidableEq

/-- Why a command asks for no conversion: it asks for help, or it is wrong. -/
inductive Stop where
  | help
  | refused (reason : String)
  deriving DecidableEq

/-- What was read of a command. -/
structure Reading where
  grammar : Option String := none
  extra : Option String := none
  output : Option String := none
  policy : InlinePolicy := {}
  debug : Bool := false
  unrecognized : List String := []
  /-- A separator was passed that belongs to the next argument. -/
  leading : Bool := false
  /-- The last word was an argument that found its place, so that a separator belongs to it. -/
  settled : Bool := false

namespace Reading

/-- Adds a word that has no meaning. -/
def unexpected (r : Reading) (text : String) : Reading :=
  { r with unrecognized := r.unrecognized ++ [text], settled := false }

/-- Takes an argument. The first is the grammar and the second the definitions. Two dashes that do
not follow a separator of their own are taken away and leave an empty name. -/
def argument (r : Reading) (text : String) : Reading :=
  let value := if text = "--" && !r.leading then "" else text
  match r.grammar, r.extra with
  | none, _ => { r with grammar := some value, leading := false, settled := true }
  | some _, none => { r with extra := some value, leading := false, settled := true }
  | some _, some _ => r.unexpected text

/-- Passes a separator. Without an argument to belong to, it has no meaning. -/
def separator (r : Reading) : Reading :=
  if r.settled then { r with settled := false }
  else if r.extra.isSome then r.unexpected "--"
  else { r with leading := true }

/-- The value that takes an option back. -/
def takenBack : String := "--"

/-- Reads the value of an option that is a whole number, which is `default` when the option is taken
back. -/
def number (switch : Switch) (default : Int) (value : String) : Except Stop Int :=
  if value = takenBack then .ok default
  else
    match Text.integer? value with
    | some n => .ok n
    | none => .error (.refused
        ("argument " ++ switch.label ++ ": invalid int value: " ++ Text.quote value))

/-- Takes an option with its value, which is empty for an option without one. Two dashes as a value
take back what the option asked for. -/
def option (r : Reading) (switch : Switch) (value : String) : Except Stop Reading :=
  let r := { r with settled := false }
  match switch with
  | .help => .error .help
  | .output => .ok { r with output := if value = takenBack then none else some value }
  | .maxAlternatives => (number switch ({} : InlinePolicy).maxAlternatives value).map fun n =>
    { r with policy := { r.policy with maxAlternatives := n } }
  | .maxSequence => (number switch ({} : InlinePolicy).maxSequence value).map fun n =>
    { r with policy := { r.policy with maxSequence := n } }
  | .dropInlined => .ok { r with policy := { r.policy with dropInlined := true } }
  | .debug => .ok { r with debug := true }

def optionAll (r : Reading) : List (Switch × String) → Except Stop Reading
  | [] => .ok r
  | (switch, value) :: rest => (r.option switch value).bind (·.optionAll rest)

end Reading

/-- The options that are joined in a word: those that are complete, and the last one if its value is
the next word. -/
structure Joined where
  complete : List (Switch × String)
  waiting : Option Switch := none
  deriving DecidableEq

namespace Joined

/-- The refusal of a rest that means nothing after an option. -/
def ignored (switch : Switch) (rest : List Char) : String :=
  "argument " ++ switch.label ++ ": ignored explicit argument " ++ Text.quote (String.ofList rest)

/-- An option whose word ends after it. -/
def last (switch : Switch) : Joined :=
  if switch.takesValue then ⟨[], some switch⟩ else ⟨[(switch, "")], none⟩

/-- Puts an option before others. -/
def cons (switch : Switch) (j : Joined) : Joined :=
  { j with complete := (switch, "") :: j.complete }

/-- Takes the rest of a word apart that follows an option. It is the value of an option that has
one. After a short option without a value it starts with the letter of another one. -/
def ofRest (switch : Switch) (short : Bool) (rest : List Char) : Except String Joined :=
  if switch.takesValue then .ok ⟨[(switch, String.ofList rest)], none⟩
  else
    match rest with
    | [] => .error (ignored switch [])
    | c :: more =>
      match if short then Switch.ofSpelling? (String.ofList ['-', c]) else none with
      | none => .error (ignored switch (c :: more))
      | some next =>
        match more with
        | [] => .ok (cons switch (last next))
        | d :: more => (ofRest next true (d :: more)).map (cons switch)

def ofWord (switch : Switch) (short : Bool) : Option (List Char) → Except String Joined
  | none => .ok (last switch)
  | some rest => ofRest switch short rest

end Joined

namespace Reading

def words (r : Reading) : List (Word × String) → Except Stop Reading
  | [] => .ok r
  | (.argument, text) :: rest => (r.argument text).words rest
  | (.separator, _) :: rest => r.separator.words rest
  | (.unknown, text) :: rest => (r.unexpected text).words rest
  | (.option switch short tail, _) :: rest =>
    match Joined.ofWord switch short tail with
    | .error reason => .error (.refused reason)
    | .ok joined =>
      match joined.waiting with
      | none => (r.optionAll joined.complete).bind (·.words rest)
      | some last =>
        match rest with
        | (.argument, text) :: rest =>
          (r.optionAll (joined.complete ++ [(last, text)])).bind (·.words rest)
        | _ => .error (.refused ("argument " ++ last.label ++ ": expected one argument"))

/-- The options of a command of which everything was read. -/
def finish (r : Reading) : Except Stop Options :=
  match r.grammar, r.extra with
  | some grammar, some extra =>
    if r.unrecognized.isEmpty then .ok ⟨grammar, extra, r.output, r.policy, r.debug⟩
    else .error (.refused ("unrecognized arguments: " ++ " ".intercalate r.unrecognized))
  | grammar, extra =>
    let absent := (if grammar.isNone then ["grammar"] else []) ++
      (if extra.isNone then ["extra"] else [])
    .error (.refused ("the following arguments are required: " ++ ", ".intercalate absent))

end Reading

/-- Reads a command. Words that may mean several options are refused first. -/
def Options.read (words : List String) : Except Stop Options :=
  match Word.classifyAll words with
  | .error reason => .error (.refused reason)
  | .ok words => (Reading.words {} words).bind Reading.finish

end GrammarOutline.CommandLine
