import LintInference.Shell.Arithmetic
import LintInference.Shell.Builtin
import LintInference.Shell.Program
import LintInference.Shell.Reader

/-!
# Running scripts

Commands change the state of their script, and words are expanded on the way. A number bounds the steps; a script that
needs more of them than `patience` stops where it is.

Parts of a pipeline run one after the other: what the first one writes is the input of the next.
-/

namespace LintInference.Shell

/-! ## Redirections -/

/-- Where what is written to a descriptor goes. -/
inductive Channel where
  | descriptor (n : Nat)
  | file (place : Place)
  | nowhere

/-- The redirections of a command: where each descriptor leads to, and its own input, if it has one. -/
structure Channels where
  outputs : List (Nat × Channel) := []
  input : Option Raw := none

namespace Channels

/-- Where a descriptor leads to. -/
def find (c : Channels) (descriptor : Nat) : Channel := (c.outputs.lookup descriptor).getD (.descriptor descriptor)

/-- The channels with another one for a descriptor. -/
def redirect (c : Channels) (descriptor : Nat) (channel : Channel) : Channels :=
  { c with outputs := (descriptor, channel) :: c.outputs }

/-- Sends what was written to where it belongs; the chunks come in order. -/
def deliver (c : Channels) : List (Nat × Raw) → State → State
  | [], s => s
  | (descriptor, t) :: chunks, s =>
    deliver c chunks <|
      match c.find descriptor with
      | .descriptor n => s.write n t
      | .nowhere => s
      | .file place =>
        match s.disk.at? place with
        | some (.file old executable) =>
          { s with disk := s.disk.put place (.file (old ++ Raw.toBytes t) executable) }
        | _ => s

/-- What the shell says about a file that it cannot open. -/
def refusal (creating : Bool) (e : OsError) : String :=
  match e with
  | .notFound => if creating then "Directory nonexistent" else "No such file"
  | e => String.ofList (reason e)

/-- Opens a file. -/
def openFile (line : Nat) (c : Channels) (s : State) (descriptor : Nat) (mode : Mode) (path : Raw) :
    Option Channels × State :=
  let name := Raw.toString path
  let failed := fun (creating : Bool) (e : OsError) =>
    (none, s.complain line [(if creating then "cannot create " else "cannot open ") ++ name, refusal creating e] 2)
  match name, mode with
  | "/dev/null", .read => (some { c with input := some [] }, s)
  | "/dev/null", _ => (some (c.redirect descriptor .nowhere), s)
  | "/dev/stdin", .read => (some c, s)
  | "/dev/stdout", _ => (some (c.redirect descriptor (c.find 1)), s)
  | "/dev/stderr", _ => (some (c.redirect descriptor (c.find 2)), s)
  | _, .read =>
    match fileText s.disk path with
    | .ok t => (some { c with input := some t }, s)
    | .error e => failed false e
  | _, mode =>
    let opened := do
      let place ← s.disk.locate name
      let d ←
        match mode, s.disk.at? place with
        | .append, some (.file old _) => s.disk.write name old false
        | _, _ => s.disk.write name [] false
      return (place, d)
    match opened with
    | .ok (place, d) => (some (c.redirect descriptor (.file place)), { s with disk := d })
    | .error e => failed true e

end Channels

/-! ## Ends of loops and functions -/

/-- The state after a round of a loop, and whether the loop goes on. -/
def afterRound (s : State) : State × Bool :=
  match s.stop with
  | none => (s, true)
  | some (.endLoop depth) => ({ s with stop := if depth ≤ 1 then none else some (.endLoop (depth - 1)) }, false)
  | some (.nextRound depth) =>
    if depth ≤ 1 then ({ s with stop := none }, true) else ({ s with stop := some (.nextRound (depth - 1)) }, false)
  | some _ => (s, false)

/-- The state after a function, with the parameters of its caller. -/
def afterCall (s caller : State) : State :=
  { s with parameters := caller.parameters, stop := if s.stop = some .leave then none else s.stop }

/-- Ends a strict script whose last command failed and was not tested. -/
def heed (s : State) : State :=
  if s.strict && !s.tested && s.status ≠ 0 && s.stop.isNone then { s with stop := some .exit } else s

/-- The line that a command is on. -/
def lineOf : Command → Nat
  | .simple line _ _ => line
  | _ => 1

/-- What text became of parts of a word that are to be split after all. -/
def unquotedText : Fragment → Fragment
  | .literal t => .expanded t
  | f => f

/-! ## Running -/

mutual

/-- Expands a part of a word. -/
def expandPart : Nat → Part → State → List Fragment × State
  | 0, _, s => ([], s)
  | n + 1, p, s =>
    let whole := fun (isQuoted : Bool) (t : Raw) => if isQuoted then Fragment.quoted t else .expanded t
    match p with
    | .plain t => ([.literal t], s)
    | .quoted t => ([.quoted t], s)
    | .variable name isQuoted =>
      if name = "@" || (name = "*" && !isQuoted) then
        ((s.parameters.map (whole isQuoted)).intersperse .separator, s)
      else ([whole isQuoted ((s.value? name).getD [])], s)
    | .length name isQuoted =>
      ([whole isQuoted (Raw.ofString (ToString.toString ((s.value? name).getD []).length))], s)
    | .altered name colon how word isQuoted =>
      let value := s.value? name
      let missing := value.isNone || (colon && value = some [])
      let kept := ([whole isQuoted (value.getD [])], s)
      let other := fun (s : State) =>
        let (fs, s) := expand n word s
        (if isQuoted then fs else fs.map unquotedText, s)
      match how with
      | .orElse => if missing then other s else kept
      | .instead => if missing then ([], s) else other s
      | .assign =>
        if missing then
          let (fs, s) := expand n word s
          let t := plainText fs
          ([whole isQuoted t], s.assign name t)
        else kept
      | how =>
        let (fs, s) := expand n word s
        ([whole isQuoted (cutMatch how (patternOf fs) (value.getD []))], s)
    | .output script isQuoted =>
      let sub := runAll n script s.subshell
      let t := ((sub.textOn 1).reverse.dropWhile (· = '\n')).reverse
      ([whole isQuoted t], (s.afterSubshell sub).takeWritten sub (· = 1))
    | .arithmetic w isQuoted =>
      let (fs, s) := expand n w s
      match Arithmetic.value? s.value? (plainText fs) with
      | some (v, target) =>
        let t := Raw.ofString (ToString.toString v)
        ([whole isQuoted t], target.elim s fun name => s.assign name t)
      | none => ([], { s.complain 1 ["arithmetic expression"] 2 with stop := some .exit })

/-- Expands a word. -/
def expand : Nat → Word → State → List Fragment × State
  | 0, _, s => ([], s)
  | _ + 1, [], s => ([], s)
  | n + 1, p :: w, s =>
    let (fs, s) := expandPart n p s
    let (gs, s) := expand n w s
    (fs ++ gs, s)

/-- The text of a word that is not split. -/
def textOf : Nat → Word → State → Raw × State
  | 0, _, s => ([], s)
  | n + 1, w, s =>
    let (fs, s) := expand n w s
    (plainText fs, s)

/-- The fields of words. Parameters in quotes make no field if there are none. -/
def fieldsOfWords : Nat → List Word → State → List Raw × State
  | 0, _, s => ([], s)
  | _ + 1, [], s => ([], s)
  | n + 1, w :: ws, s =>
    let (found, s) :=
      match w with
      | [.quoted [], .variable "@" true] => (s.parameters, s)
      | w =>
        let (fs, s) := expand n w s
        (fieldsOf s.separators fs |>.flatMap s.namesFor, s)
    let (others, s) := fieldsOfWords n ws s
    (found ++ others, s)

/-- Assigns the values of words. -/
def assignAll : Nat → List (String × Word) → State → State
  | 0, _, s => s
  | _ + 1, [], s => s
  | n + 1, (name, w) :: more, s =>
    let (t, s) := textOf n w s
    assignAll n more (s.assign name t)

/-- Opens what the redirections name. -/
def openAll (line : Nat) : Nat → List Redirection → Channels → State → Option Channels × State
  | 0, _, _, s => (none, s)
  | _ + 1, [], c, s => (some c, s)
  | n + 1, r :: rs, c, s =>
    match r with
    | .text w =>
      let (t, s) := textOf n w s
      openAll line n rs { c with input := some t } s
    | .copy descriptor source =>
      let (t, s) := textOf n source s
      let channel := match number? t with
        | some 0 => .descriptor descriptor
        | some source => c.find source
        | none => .nowhere
      openAll line n rs (c.redirect descriptor channel) s
    | .file descriptor mode path =>
      let (t, s) := textOf n path s
      match c.openFile line s descriptor mode t with
      | (some c, s) => openAll line n rs c s
      | (none, s) => (none, s)

/-- Is one of the patterns that of the text? -/
def fits : Nat → List Word → Raw → State → Bool × State
  | 0, _, _, s => (false, s)
  | _ + 1, [], _, s => (false, s)
  | n + 1, p :: ps, t, s =>
    let (fs, s) := expand n p s
    if Glob.matches (patternOf fs) t then (true, s) else fits n ps t s

/-- Runs the first branch for the text. -/
def runChoice : Nat → List (List Word × List Command) → Raw → State → State
  | 0, _, _, s => s
  | _ + 1, [], _, s => { s with status := 0 }
  | n + 1, (ps, body) :: branches, t, s =>
    match fits n ps t s with
    | (true, s) => runAll n body { s with status := 0 }
    | (false, s) => runChoice n branches t s

/-- Runs commands one after the other. -/
def runAll : Nat → List Command → State → State
  | 0, _, s => s
  | _ + 1, [], s => s
  | n + 1, c :: cs, s => if s.stop.isSome then s else runAll n cs (run n c s)

/-- Runs commands whose status is looked at. -/
def runTested : Nat → List Command → State → State
  | 0, _, s => s
  | n + 1, cs, s => { runAll n cs { s with tested := true } with tested := s.tested }

/-- Runs the body for each value of the variable. -/
def runEach (name : String) (body : List Command) : Nat → List Raw → State → State
  | 0, _, s => s
  | _ + 1, [], s => s
  | n + 1, t :: ts, s =>
    match afterRound (runAll n body (s.assign name t)) with
    | (s, true) => runEach name body n ts s
    | (s, false) => s

/-- Runs the commands of a pipeline, each in a subshell of its own. -/
def runPiped : Nat → List Command → State → State
  | 0, _, s => s
  | _ + 1, [], s => s
  | n + 1, [c], s =>
    let sub := run n c s.subshell
    (s.afterSubshell sub).takeWritten sub fun _ => false
  | n + 1, c :: cs, s =>
    let sub := run n c { s.subshell with tested := true }
    let last := runPiped n cs { (s.afterSubshell sub).takeWritten sub (· = 1) with input := sub.textOn 1 }
    { last with input := sub.input }

/-- Runs a command. -/
def run : Nat → Command → State → State
  | 0, _, s => s
  | n + 1, c, s =>
    match c with
    | .simple line assignments words =>
      let (fields, s) := fieldsOfWords n words { s with status := if words.isEmpty then 0 else s.status }
      match fields with
      | [] => heed (assignAll n assignments s)
      | name :: arguments =>
        let own := assignAll n assignments s
        let own := assignments.foldl (fun s a => s.publish a.1) own
        let after := call n line name arguments own
        heed (if assignments.isEmpty then after else after.restore s (assignments.map (·.1)))
    | .redirected body redirections =>
      let line := lineOf body
      match openAll line n redirections {} s with
      | (none, s) => heed s
      | (some channels, s) =>
        let sub := run n body { s with written := [], input := channels.input.getD s.input }
        channels.deliver sub.written.reverse
          { sub with written := s.written, input := if channels.input.isSome then s.input else sub.input }
    | .group body => runAll n body s
    | .subshell body =>
      let sub := runAll n body s.subshell
      heed ((s.afterSubshell sub).takeWritten sub fun _ => false)
    | .conditional test body otherwise =>
      let s := runTested n test s
      if s.stop.isSome then s
      else if s.status = 0 then runAll n body s
      else runAll n otherwise { s with status := 0 }
    | .loop whileTrue test body =>
      let tested := runTested n test s
      if tested.stop.isSome then (afterRound tested).1
      else if (tested.status == 0) = whileTrue then
        match afterRound (runAll n body tested) with
        | (s, true) => run n (.loop whileTrue test body) s
        | (s, false) => s
      else { tested with status := 0 }
    | .each name words body =>
      let (values, s) :=
        match words with
        | some ws => fieldsOfWords n ws s
        | none => (s.parameters, s)
      runEach name body n values { s with status := 0 }
    | .choose word branches =>
      let (t, s) := textOf n word s
      runChoice n branches t s
    | .define name body => { s with functions := Entries.put s.functions name body, status := 0 }
    | .pipeline commands => heed (runPiped n commands s)
    | .negate c =>
      let s := runTested n [c] s
      { s with status := if s.status = 0 then 1 else 0 }
    | .both a b =>
      let s := runTested n [a] s
      if s.stop.isSome || s.status ≠ 0 then s else run n b s
    | .either a b =>
      let s := runTested n [a] s
      if s.stop.isSome || s.status = 0 then s else run n b s

/-- Runs a command by its name: a function, a command of the shell, or a program. -/
def call : Nat → Nat → Raw → List Raw → State → State
  | 0, _, _, _, s => s
  | n + 1, line, name, arguments, s =>
    let known := Raw.toString name
    match Entries.get? s.functions known with
    | some body => afterCall (run n body { s with parameters := arguments }) s
    | none =>
      match Builtin.all.lookup known with
      | some builtin => builtin line arguments s
      | none =>
        match known, arguments with
        | "eval", _ => runText n (List.intercalate [' '] arguments) s
        | ".", path :: _ =>
          match fileText s.disk path with
          | .ok text => afterCall (runText n text s) s
          | .error _ => { s.complain line [".", "cannot open " ++ Raw.toString path, "No such file"] 2 with
              stop := some .exit }
        | "echo", _ => s.take (shellEcho arguments s.input s.disk)
        | "exec", [] => { s with status := 0 }
        | "exec", name :: arguments => { call n line name arguments s with stop := some .exit }
        | "command", _ =>
          match arguments with
          | ['-', 'v'] :: name :: _ =>
            let found := (Program.find s.disk (Raw.toString name) []).toBool
            if found then { s.write 1 (name ++ ['\n']) with status := 0 } else { s with status := 127 }
          | name :: arguments => call n line name arguments s
          | [] => { s with status := 0 }
        | _, _ =>
          match Program.find s.disk known arguments with
          | .ok program => s.take (runProgram n program s)
          | .error .badExecutable =>
            match fileText s.disk name with
            | .ok text => s.take (runProgram n (.script (some text) name arguments false) s)
            | .error _ => { s with status := 126 }
          | .error .permissionDenied => s.complain line [known, "Permission denied"] 126
          | .error _ => s.complain line [known, "not found"] 127

/-- Runs the commands of a text. -/
def runText : Nat → Raw → State → State
  | 0, _, s => s
  | n + 1, text, s =>
    match Script.read text with
    | some script => runAll n script { s with status := 0 }
    | none => { s.complain 1 ["Syntax error"] 2 with stop := some .exit }

/-- Runs a program with the input, the files and the environment of the script that starts it. -/
def runProgram : Nat → Program → State → Outcome
  | 0, _, s => { status := 0, rest := s.input, disk := s.disk }
  | n + 1, program, s =>
    match program with
    | .tool t arguments => t arguments s.input s.disk
    | .within own program => runProgram n program (own.foldl (fun s e => (s.assign e.1 e.2).publish e.1) s)
    | .listing =>
      { output := s.environment.flatMap fun (name, value) => Raw.ofString name ++ '=' :: value ++ ['\n'],
        rest := s.input, disk := s.disk }
    | .script text name parameters strict =>
      let started : State :=
        { disk := s.disk, input := if text.isSome then s.input else [], bindings := s.environment,
          exported := s.exported, name, parameters, strict }
      let ended := runText n (text.getD s.input) started
      { output := ended.textOn 1, errors := ended.textOn 2, rest := ended.input, disk := ended.disk,
        status := if ended.stop = some .killed then 137 else ended.status, killed := ended.stop = some .killed }

end

/-- How many steps a script may take. -/
def patience : Nat := 1000000

end LintInference.Shell
