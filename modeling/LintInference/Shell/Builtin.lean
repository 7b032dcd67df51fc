import LintInference.Shell.Fields
import LintInference.Shell.State

/-!
# Commands that are part of the shell

Commands that change the state of the script itself. Those that run other commands are not among them.
-/

namespace LintInference.Shell.Builtin

/-- What a command of the shell does, given the line it is on and its arguments. -/
abbrev Effect := Nat → List Raw → State → State

/-- The number that an argument spells, or another one if there is no argument. -/
def count (other : Nat) (args : List Raw) : Nat := (args.head?.bind number?).getD other

/-- Has a status. -/
def succeed (s : State) : State := { s with status := 0 }

/-- Ends the script. -/
def exit : Effect := fun _ args s => { s with status := count s.status args % 256, stop := some .exit }

/-- Ends the function. -/
def leave : Effect := fun _ args s => { s with status := count s.status args % 256, stop := some .leave }

/-- The name and the value of an assignment. -/
def assignment (t : Raw) : String × Option Raw :=
  match t.span (· ≠ '=') with
  | (name, _ :: value) => (String.ofList name, some value)
  | (name, []) => (String.ofList name, none)

/-- Sets variables and shows them to programs. -/
def publish : Effect := fun _ args s =>
  succeed <| args.foldl (fun s t =>
    let (name, value) := assignment t
    let s := match value with
      | some v => s.assign name v
      | none => s
    s.publish name) s

/-- Sets variables. -/
def declare : Effect := fun _ args s =>
  succeed <| args.foldl (fun s t =>
    match assignment t with
    | (name, some v) => s.assign name v
    | (name, none) => s.assign name []) s

/-- Takes variables away. -/
def unset : Effect := fun _ args s =>
  succeed <| args.foldl (fun s t => if t.head? = some '-' then s else s.unset (String.ofList t)) s

/-- Drops parameters. -/
def shift : Effect := fun line args s =>
  let n := count 1 args
  if n ≤ s.parameters.length then succeed { s with parameters := s.parameters.drop n }
  else { s.complain line ["shift", "can't shift that many"] 2 with stop := some .exit }

/-- Changes options and parameters. -/
def set : Effect := fun _ args s =>
  succeed (change s args)
where
  /-- Takes one argument after the other; the first one that is no option begins the parameters. -/
  change (s : State) : List Raw → State
    | [] => s
    | t :: ts =>
      if t = ['-', '-'] then { s with parameters := ts }
      else
        match t with
        | '-' :: letters => change (if letters.contains 'e' then { s with strict := true } else s) ts
        | '+' :: letters => change (if letters.contains 'e' then { s with strict := false } else s) ts
        | _ => { s with parameters := t :: ts }

/-- Changes the working directory. -/
def changeDirectory : Effect := fun line args s =>
  let path := Raw.toString (args.head?.getD ((s.value? "HOME").getD ['/']))
  match s.disk.lookUp path with
  | .ok (place, .directory) =>
    succeed { s with
      disk := { s.disk with workingDirectory := place }, bindings := s.bindings.filter (·.1 ≠ "PWD") }
  | _ => s.complain line ["cd", "can't cd to " ++ path] 2

/-- The first field of a text and what follows it. -/
def firstField (separators t : Raw) : Raw × Raw :=
  let (field, rest) := t.span (!separators.contains ·)
  let blanks := separators.filter Splitting.isBlank
  match rest.dropWhile blanks.contains with
  | c :: cs => if separators.contains c then (field, cs.dropWhile blanks.contains) else (field, c :: cs)
  | [] => (field, [])
/-- Gives the fields of a text to variables; the last one gets all that is left. -/
def distribute (separators : Raw) (s : State) : List String → Raw → State
  | [], _ => s
  | [name], t =>
    let blank := fun c => separators.contains c && Splitting.isBlank c
    s.assign name (t.reverse.dropWhile blank).reverse
  | name :: names, t =>
    let (field, rest) := firstField separators t
    distribute separators (s.assign name field) names rest

/-- A line in which a backslash only protects the character after it. -/
def unprotect : Raw → Raw
  | '\\' :: c :: cs => c :: unprotect cs
  | ['\\'] => []
  | c :: cs => c :: unprotect cs
  | [] => []

/-- Reads a line. -/
def read : Effect := fun _ args s =>
  let names := (args.filter fun t => t.head? ≠ some '-').map String.ofList
  let (line, rest) := s.input.span (· ≠ '\n')
  let line := if args.contains ['-', 'r'] then line else unprotect line
  let separators := s.separators
  let blank := fun c => separators.contains c && Splitting.isBlank c
  let s := distribute separators { s with input := rest.drop 1 } names (line.dropWhile blank)
  { s with status := if rest.isEmpty then 1 else 0 }

/-- Sends a signal; one to the script itself ends it, unless it is the empty one. -/
def kill : Effect := fun line args s =>
  let (name, targets) := signal args
  if targets.contains State.processNumber then
    if name = ['0'] then succeed s else { s with stop := some .killed }
  else s.complain line ["kill", "No such process"] 1
where
  /-- The signal and the processes it is for. -/
  signal : List Raw → Raw × List Raw
    | ['-', 's'] :: name :: rest => (name, rest)
    | ('-' :: name) :: rest => (name, rest)
    | rest => ("TERM".toList, rest)

/-- Ends loops. -/
def endLoop : Effect := fun _ args s => { succeed s with stop := some (.endLoop (count 1 args)) }

/-- Goes on with the next round of a loop. -/
def nextRound : Effect := fun _ args s => { succeed s with stop := some (.nextRound (count 1 args)) }

/-- The commands by name. -/
def all : List (String × Effect) :=
  [(":", fun _ _ => succeed), ("exit", exit), ("return", leave), ("export", publish), ("local", declare),
    ("readonly", declare), ("unset", unset), ("shift", shift), ("set", set), ("cd", changeDirectory), ("read", read),
    ("kill", kill), ("break", endLoop), ("continue", nextRound), ("trap", fun _ _ => succeed),
    ("wait", fun _ _ => succeed), ("umask", fun _ _ => succeed)]

end LintInference.Shell.Builtin
