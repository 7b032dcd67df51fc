import LintInference.Entries

/-!
# Arguments of a command line

A command line is read from left to right against a tree of commands (`Level`): options may stand before and after the
operand of their command, and a word that names a command below leads to it. The first argument that does not fit ends
the reading, and so does an option that asks for help or for the version.

Options with a value take it from the same argument or from the next one; the next one is no value if it begins with a
dash and is longer than that.
-/

namespace LintInference.Command

/-! ## What may be given -/

/-- Which values an option or operand takes. -/
inductive ValueForm where
  /-- Any text. -/
  | text
  /-- A path, which is not empty. -/
  | path
  /-- One of some words. -/
  | word (choices : List String)

/-- Is the text such a value? -/
def ValueForm.admits : ValueForm → String → Bool
  | .text, _ => true
  | .path, v => !v.isEmpty
  | .word choices, v => choices.contains v

/-- How an option is used. -/
inductive OptionForm where
  /-- Without a value, at most once. -/
  | flag
  /-- Without a value, any number of times. -/
  | counter
  /-- With a value, at most once. -/
  | single (value : ValueForm)
  /-- With a value each time. -/
  | many (value : ValueForm)
  /-- Ends the reading; help is wanted. -/
  | help
  /-- Ends the reading; the version is wanted. -/
  | version

/-- An option, with its long name and perhaps a letter. -/
structure OptionRule where
  name : String
  letter : Option Char := none
  form : OptionForm

/-- The values that an option takes, if it takes any. -/
def OptionRule.value? (o : OptionRule) : Option ValueForm :=
  match o.form with
  | .single v => some v
  | .many v => some v
  | _ => none

/-- A command, with those below it. -/
inductive Level where
  | mk (names : List String) (options : List OptionRule) (operand : Option (String × ValueForm))
    (children : List Level) (complete : Bool)

namespace Level

/-- The name of the command, with its other names after it. -/
def names : Level → List String
  | .mk names _ _ _ _ => names

/-- The options of the command. -/
def options : Level → List OptionRule
  | .mk _ options _ _ _ => options

/-- The operand, which has to be given. -/
def operand : Level → Option (String × ValueForm)
  | .mk _ _ operand _ _ => operand

/-- The commands below. -/
def children : Level → List Level
  | .mk _ _ _ children _ => children

/-- May the command stand without one of those below it? -/
def isComplete : Level → Bool
  | .mk _ _ _ _ complete => complete

/-- The command below with a name. -/
def child? (l : Level) (name : String) : Option Level := l.children.find? fun c => c.names.contains name

/-- The command that help is wanted for by a name; wherever there are commands below, `help` is one that can be
named. -/
def topic? (l : Level) (name : String) : Option Level :=
  (l.child? name).or (if name = "help" && !l.children.isEmpty then some (.mk ["help"] [] none [] true) else none)

end Level

/-! ## What was given -/

/-- Why there is no command to carry out. -/
inductive Stop where
  | usage
  | help
  | version
  deriving DecidableEq, Repr

/-- The commands named on the way, and the values given for each option and operand; a flag has an empty value. -/
structure Given where
  path : List String := []
  values : Entries (List String) := []

namespace Given

/-- All values of an option. -/
def all (g : Given) (name : String) : List String := (Entries.get? g.values name).getD []

/-- The value of an option that is given at most once. -/
def value? (g : Given) (name : String) : Option String := (g.all name).head?

/-- Is the option given? -/
def has (g : Given) (name : String) : Bool := !(g.all name).isEmpty

end Given

/-! ## Reading -/

/-- How far the reading has come. -/
structure Reading where
  level : Level
  path : List String := []
  /-- What was given for the commands above. -/
  upper : Entries (List String) := []
  /-- What was given for this command. -/
  own : Entries (List String) := []
  /-- The option whose value comes next. -/
  pending : Option OptionRule := none
  /-- Are all further arguments operands? -/
  trailing : Bool := false
  /-- The command that help is wanted for. -/
  helping : Option Level := none

namespace Reading

/-- Adds a value for an option or operand. -/
def add (r : Reading) (name value : String) : Reading :=
  { r with own := Entries.put r.own name (((Entries.get? r.own name).getD []) ++ [value]) }

/-- Is something given for the name? -/
def has (r : Reading) (name : String) : Bool := r.own.keys.contains name

/-- Takes the value of an option. -/
def accept (r : Reading) (o : OptionRule) (value : String) : Except Stop Reading :=
  match o.form with
  | .single v => if v.admits value && !r.has o.name then .ok (r.add o.name value) else .error .usage
  | .many v => if v.admits value then .ok (r.add o.name value) else .error .usage
  | _ => .error .usage

/-- Takes an option that comes without a value. -/
def acceptPlain (r : Reading) (o : OptionRule) : Except Stop Reading :=
  match o.form with
  | .flag => if r.has o.name then .error .usage else .ok (r.add o.name "")
  | .counter => .ok (r.add o.name "")
  | .help => .error .help
  | .version => .error .version
  | _ => .ok { r with pending := some o }

/-- Takes an operand. -/
def acceptOperand (r : Reading) (value : String) : Except Stop Reading :=
  match r.level.operand with
  | some (name, v) => if v.admits value && !r.has name then .ok (r.add name value) else .error .usage
  | none => .error .usage

/-- Takes an argument that begins with two dashes, without them. -/
def long (r : Reading) (text : List Char) : Except Stop Reading :=
  let (name, rest) := text.span (· ≠ '=')
  match r.level.options.find? (·.name = String.ofList name) with
  | none => .error .usage
  | some o =>
    match rest, o.value? with
    | [], _ => r.acceptPlain o
    | _ :: value, some _ => r.accept o (String.ofList value)
    | _ :: _, none => .error .usage

/-- Takes the letters of an argument that begins with one dash. -/
def short (r : Reading) : List Char → Except Stop Reading
  | [] => .ok r
  | c :: cs =>
    match r.level.options.find? (·.letter = some c) with
    | none => .error .usage
    | some o =>
      match o.value?, cs with
      | some _, '=' :: value => r.accept o (String.ofList value)
      | some _, c :: cs => r.accept o (String.ofList (c :: cs))
      | _, cs => do short (← r.acceptPlain o) cs

/-- The values of a command go before those of the commands above it. -/
def layered (upper own : Entries (List String)) : Entries (List String) :=
  own.foldl (fun m e => Entries.put m e.1 e.2) upper

/-- Goes on to a command below. -/
def enter (r : Reading) (child : Level) : Reading :=
  { level := child, path := r.path ++ [child.names.headD ""], upper := layered r.upper r.own }

/-- Is the argument more than a dash, with a dash at its front? -/
def looksLikeOption (argument : String) : Bool :=
  argument.toList.head? = some '-' && argument ≠ "-"

/-- Takes an argument. -/
def step (r : Reading) (argument : String) : Except Stop Reading :=
  match r.helping, r.pending with
  | some l, _ =>
    match l.topic? argument with
    | some child => .ok { r with helping := some child }
    | none => .error .usage
  | none, some o =>
    if r.trailing || looksLikeOption argument then .error .usage
    else { r with pending := none }.accept o argument
  | none, none =>
    if r.trailing then r.acceptOperand argument
    else if argument = "--" then .ok { r with trailing := true }
    else
      match argument.toList with
      | '-' :: '-' :: text => r.long text
      | '-' :: c :: cs => r.short (c :: cs)
      | _ =>
        match r.level.child? argument with
        | some child => .ok (r.enter child)
        | none =>
          if argument = "help" && !r.level.children.isEmpty then .ok { r with helping := some r.level }
          else r.acceptOperand argument

/-- What was given, after the last argument. -/
def finish (r : Reading) : Except Stop Given :=
  if r.helping.isSome then .error .help
  else if r.pending.isSome then .error .usage
  else if r.level.operand.any fun (name, _) => !r.has name then .error .usage
  else if !r.level.isComplete then .error .usage
  else .ok ⟨r.path, layered r.upper r.own⟩

end Reading

/-- Reads arguments against a tree of commands. -/
def Given.ofArguments (root : Level) (arguments : List String) : Except Stop Given := do
  (← arguments.foldlM Reading.step { level := root }).finish

end LintInference.Command
