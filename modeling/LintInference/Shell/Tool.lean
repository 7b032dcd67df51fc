import LintInference.Disk
import LintInference.Shell.Reader

/-!
# Tools

The small programs that scripts are made of. A tool takes its arguments and the text on its standard input, writes to
its two outputs, and may change files. What it leaves of its input is there for the next one.

Arguments are options, single letters after a dash, and operands; options may come after operands. An argument that is
no option of the tool is complained about (`Tool.withOptions`).
-/

namespace LintInference.Shell

/-! ## Bytes and texts -/

/-- Bytes as characters. -/
def Raw.ofBytes (bytes : Bytes) : Raw := bytes.map fun b => Char.ofNat b.toNat

/-- The bytes that the characters stand for. -/
def Raw.toBytes (t : Raw) : Bytes := t.map fun c => c.toNat.toUInt8

/-- The bytes of a text as characters. -/
def Raw.ofString (s : String) : Raw := Raw.ofBytes (Text.toBytes s)

/-- The text that the bytes spell. -/
def Raw.toString (t : Raw) : String := Text.ofBytesLossy (Raw.toBytes t)

/-- The decimal digits of a number. -/
def Raw.ofNat (n : Nat) : Raw := (ToString.toString n).toList

/-- The lines of a text, each with its end; only the last one may have none. -/
def fullLines (t : Raw) : List Raw :=
  (t.foldr (fun c (ls : List Raw) =>
    if c = '\n' then ['\n'] :: ls
    else match ls with
      | l :: ls => if l = ['\n'] then (c :: l) :: ls else (c :: l) :: ls
      | [] => [[c]]) []).filter (!·.isEmpty)

/-- A line without its end. -/
def chomp (l : Raw) : Raw := if l.getLast? = some '\n' then l.dropLast else l

/-- The value of octal digits at the front, at most so many. -/
def octal (most : Nat) (cs : Raw) : Nat × Raw :=
  let digits := (cs.take most).takeWhile fun c => '0' ≤ c && c ≤ '7'
  (digits.foldl (fun n c => n * 8 + (c.toNat - 48)) 0, cs.drop digits.length)

/-- A byte by its number. -/
def byte (n : Nat) : Char := Char.ofNat (n % 256)

/-- A whole number with an optional sign. -/
def integer? (t : Raw) : Option Int :=
  match t with
  | '-' :: cs => (number? cs).map fun n => -Int.ofNat n
  | '+' :: cs => (number? cs).map Int.ofNat
  | cs => (number? cs).map Int.ofNat

/-! ## Tools -/

/-- What a tool or command leaves behind. -/
structure Outcome where
  output : Raw := []
  errors : Raw := []
  status : Nat := 0
  /-- Was it ended by a signal? -/
  killed : Bool := false
  /-- What it did not read of its input. -/
  rest : Raw := []
  disk : Disk

/-- A tool: arguments, input, files. -/
abbrev Tool := List Raw → Raw → Disk → Outcome

/-- The words for an error, as tools give them. -/
def reason (e : OsError) : Raw :=
  (((e.message.splitOn " (os error").head?).getD "").toList

/-- The content of a file. -/
def fileText (d : Disk) (path : Raw) : Except OsError Raw := (d.read (Raw.toString path)).map Raw.ofBytes

/-- A message of a tool. -/
def complaint (tool : String) (what : List Raw) : Raw :=
  tool.toList ++ what.flatMap (fun t => ": ".toList ++ t) ++ ['\n']

/-- A text in quotes. -/
def inQuotes (t : Raw) : Raw := '\'' :: t ++ ['\'']

/-! ## Arguments -/

/-- The options given to a tool, each with its value, and the operands. -/
structure Arguments where
  options : List (Char × Raw) := []
  operands : List Raw := []

namespace Arguments

/-- Is the option given? -/
def has (a : Arguments) (letter : Char) : Bool := a.options.any (·.1 = letter)

/-- All values of an option. -/
def all (a : Arguments) (letter : Char) : List Raw := (a.options.filter (·.1 = letter)).map (·.2)

/-- The value of an option; the last one counts. -/
def value? (a : Arguments) (letter : Char) : Option Raw := (a.all letter).getLast?

/-- The arguments with one more option. -/
def add (a : Arguments) (letter : Char) (value : Raw) : Arguments :=
  { a with options := a.options ++ [(letter, value)] }

/-- Which arguments a tool takes. -/
structure Form where
  /-- The letters of options without a value. -/
  plain : Raw := []
  /-- The letters of options with a value. -/
  valued : Raw := []
  /-- What is said after a complaint about arguments. -/
  hint : String := ""
  /-- The status after such a complaint. -/
  refused : Nat := 1

/-- Takes the letters of an argument. An option whose value is the next argument is given back. -/
def letters (form : Form) (a : Arguments) : Raw → Except Raw (Arguments × Option Char)
  | [] => .ok (a, none)
  | c :: cs =>
    if form.plain.contains c then letters form (a.add c []) cs
    else if form.valued.contains c then .ok (if cs.isEmpty then (a, some c) else (a.add c cs, none))
    else .error ("invalid option -- ".toList ++ inQuotes [c])

/-- Takes arguments; `awaited` is the option whose value is next, and `ended` says that no more options follow. -/
def take (form : Form) (a : Arguments) (awaited : Option Char) (ended : Bool) : List Raw → Except Raw Arguments
  | [] =>
    match awaited with
    | none => .ok a
    | some c => .error ("option requires an argument -- ".toList ++ inQuotes [c])
  | t :: ts =>
    match awaited, ended, t with
    | some c, _, t => take form (a.add c t) none ended ts
    | none, false, ['-', '-'] => take form a none true ts
    | none, false, '-' :: '-' :: _ => .error ("unrecognized option ".toList ++ inQuotes t)
    | none, false, '-' :: c :: cs =>
      match letters form a (c :: cs) with
      | .ok (a, awaited) => take form a awaited false ts
      | .error e => .error e
    | none, _, t => take form { a with operands := a.operands ++ [t] } none ended ts

end Arguments

/-- A tool with options. -/
def Tool.withOptions (name : String) (form : Arguments.Form) (run : Arguments → Raw → Disk → Outcome) : Tool :=
    fun args input disk =>
  match Arguments.take form {} none false args with
  | .ok a => run a input disk
  | .error e =>
    { errors := complaint name [e] ++ form.hint.toList ++ ("Try '" ++ name ++ " --help' for more information.\n").toList
      status := form.refused, rest := input, disk }

/-- The texts of files in turn; without names, the input. Files that cannot be read are complained about. -/
def gather (tool : String) (names : List Raw) (input : Raw) (disk : Disk) : Raw × Raw × Nat × Raw :=
  if names.isEmpty then (input, [], 0, [])
  else
    names.foldl (fun (t, errors, status, input) name =>
      if name = ['-'] || name = "/dev/stdin".toList then (t ++ input, errors, status, [])
      else if name = "/dev/null".toList then (t, errors, status, input)
      else
        match fileText disk name with
        | .ok content => (t ++ content, errors, status, input)
        | .error e => (t, errors ++ complaint tool [name, reason e], 1, input)) ([], [], 0, input)

end LintInference.Shell
