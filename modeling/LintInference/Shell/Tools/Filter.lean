import LintInference.Shell.Regex
import LintInference.Shell.Tools.Print

/-!
# Tools that filter text

They read the files that they are given, or else their input, and write some of it.
-/

namespace LintInference.Shell

/-- Writes the texts of files. -/
def cat : Tool :=
  .withOptions "cat" { plain := "u".toList } fun a input disk =>
    let (output, errors, status, rest) := gather "cat" a.operands input disk
    { output, errors, status, rest, disk }

/-! ## Parts -/

/-- A number given as an option of its own is the number of lines. -/
def lineCountFirst : List Raw → List Raw
  | ('-' :: digits) :: args => if (number? digits).isSome then ['-', 'n'] :: digits :: args else ('-' :: digits) :: args
  | args => args

/-- Writes the first lines or bytes of files. -/
def head : Tool := fun args =>
  (Tool.withOptions "head" { plain := "q".toList, valued := "cn".toList } fun a input disk =>
    let (t, errors, status, rest) := gather "head" a.operands input disk
    let output := match (a.value? 'c').bind number?, (a.value? 'n').bind number? with
      | some n, _ => t.take n
      | none, n => ((fullLines t).take (n.getD 10)).flatten
    { output, errors, status, rest, disk }) (lineCountFirst args)

/-- Writes the last lines or bytes of files. -/
def tail : Tool := fun args =>
  (Tool.withOptions "tail" { plain := "q".toList, valued := "cn".toList } fun a input disk =>
    let (t, errors, status, rest) := gather "tail" a.operands input disk
    let output := match (a.value? 'c').bind number?, (a.value? 'n').bind number? with
      | some n, _ => t.drop (t.length - n)
      | none, n =>
        let ls := fullLines t
        (ls.drop (ls.length - n.getD 10)).flatten
    { output, errors, status, rest, disk }) (lineCountFirst args)

/-- The fields of a line between delimiters. -/
def fieldsBetween (delimiter : Char) (line : Raw) : List Raw := line.splitOn delimiter

/-- The numbers that a list of numbers and ranges has, up to a limit. -/
def listed (limit : Nat) (t : Raw) : List Nat :=
  (fieldsBetween ',' t).flatMap fun part =>
    match fieldsBetween '-' part with
    | [a] => ((number? a).toList)
    | [a, b] =>
      let first := (number? a).getD 1
      (List.range ((number? b).getD limit + 1 - first)).map (first + ·)
    | _ => []

/-- Writes parts of each line. -/
def cut : Tool :=
  .withOptions "cut" { plain := "s".toList, valued := "cdf".toList } fun a input disk =>
    let (t, errors, status, rest) := gather "cut" a.operands input disk
    let delimiter := ((a.value? 'd').bind (·.head?)).getD '\t'
    let chosen := fun (line : Raw) =>
      match a.value? 'f', a.value? 'c' with
      | some f, _ =>
        let parts := fieldsBetween delimiter line
        if parts.length = 1 then line
        else
          let wanted := listed parts.length f
          List.intercalate [delimiter] ((parts.zipIdx.filter fun p => wanted.contains (p.2 + 1)).map (·.1))
      | none, some c =>
        let wanted := listed line.length c
        (line.zipIdx.filter fun p => wanted.contains (p.2 + 1)).map (·.1)
      | none, none => line
    { output := (fullLines t).flatMap fun l => chosen (chomp l) ++ ['\n'], errors, status, rest, disk }

/-! ## Counts and order -/

/-- Counts lines, words or bytes. -/
def wc : Tool :=
  .withOptions "wc" { plain := "lwmc".toList } fun a input disk =>
    let (t, errors, status, rest) := gather "wc" a.operands input disk
    let words := (t.foldl (fun (n, inWord) c =>
      let blank := c = ' ' || ('\t' ≤ c && c ≤ '\r')
      (if !blank && !inWord then n + 1 else n, !blank)) ((0 : Nat), false)).1
    let counts := [('l', t.count '\n'), ('w', words), ('m', t.length), ('c', t.length)]
    let wanted := if a.options.isEmpty then ['l', 'w', 'c'] else a.options.map (·.1)
    let shown := (counts.filter fun (l, _) => wanted.contains l).map fun (_, n) => Raw.ofNat n
    let width := if a.operands.isEmpty then (if shown.length = 1 then 0 else 7)
      else if shown.length = 1 then 0 else (Raw.ofNat t.length).length
    let shown := shown.map fun n => List.replicate (width - n.length) ' ' ++ n
    { output := List.intercalate [' '] (shown ++ a.operands.take 1) ++ ['\n'], errors, status, rest, disk }

/-- Writes lines in the order of their bytes. -/
def sort : Tool :=
  .withOptions "sort" { plain := "run".toList, refused := 2 } fun a input disk =>
    let (t, errors, status, rest) := gather "sort" a.operands input disk
    let ascending := fun (x y : Raw) =>
      if a.has 'n' then decide ((integer? x).getD 0 ≤ (integer? y).getD 0) else decide (String.ofList x ≤ String.ofList y)
    let ls := ((fullLines t).map chomp).mergeSort ascending
    let ls := if a.has 'u' then ls.eraseDups else ls
    let ls := if a.has 'r' then ls.reverse else ls
    { output := ls.flatMap (· ++ ['\n']), errors, status := if status = 0 then 0 else 2, rest, disk }

/-! ## Bytes -/

/-- A set of bytes, with ranges. -/
def byteSet : Nat → Raw → Raw
  | 0, _ => []
  | n + 1, cs =>
    match cs with
    | [] => []
    | a :: '-' :: b :: cs => (List.range (b.toNat + 1 - a.toNat)).map (fun i => byte (a.toNat + i)) ++ byteSet n cs
    | c :: cs => c :: byteSet n cs

/-- Replaces or drops bytes. -/
def tr : Tool :=
  .withOptions "tr" { plain := "dsc".toList } fun a input disk =>
    let read := fun (t : Raw) =>
      let t := (unescape false (t.length + 1) t).1
      byteSet (t.length + 1) t
    let inSet := fun (set : Raw) (c : Char) => set.contains c != a.has 'c'
    let squeezed := fun (set t : Raw) =>
      (t.foldl (fun (done : Raw) c => if done.head? = some c && inSet set c then done else c :: done) []).reverse
    match a.operands.map read with
    | [set] =>
      if a.has 'd' then { output := input.filter (!inSet set ·), disk }
      else { output := squeezed set input, disk }
    | [set, other] =>
      let last := other.getLast?
      { output := input.map fun c =>
          if a.has 'c' then if set.contains c then c else last.getD c
          else
            match set.idxOf? c with
            | some i => (other[i]?.or last).getD c
            | none => c
        disk }
    | _ => { errors := complaint "tr" ["missing operand".toList], status := 1, rest := input, disk }

/-! ## Searching -/

/-- The texts of all matches in a line. -/
def matchesIn (r : Regex) (depth : Nat) : Nat → Raw → List Raw
  | 0, _ => []
  | n + 1, line =>
    match Regex.search line depth r line with
    | none => []
    | some (front, groups) =>
      let whole := Regex.groupText (line.drop front.length) groups 0
      let rest := line.drop (front.length + max 1 whole.length)
      let others := if rest.isEmpty then [] else matchesIn r depth n rest
      if whole.isEmpty then others else whole :: others

/-- The arguments of a search. -/
def grepForm : Arguments.Form where
  plain := "qcviEFnosxhG".toList
  valued := "em".toList
  hint := "Usage: grep [OPTION]... PATTERNS [FILE]...\n"
  refused := 2

/-- Writes the lines that an expression occurs in. -/
def grep : Tool :=
  .withOptions "grep" grepForm fun a input disk =>
    let (expressions, names) := if a.has 'e' then (a.all 'e', a.operands) else (a.operands.take 1, a.operands.drop 1)
    let fold := fun (t : Raw) => if a.has 'i' then t.map Char.toLower else t
    let readOne := fun (t : Raw) =>
      let r := if a.has 'F' then some (.group 0 [(fold t).map Regex.char]) else Regex.read (a.has 'E') (fold t)
      r.map fun r => if a.has 'x' then .group 0 [[.start, r, .finish]] else r
    match expressions, expressions.mapM readOne with
    | [], _ =>
      { errors := "Usage: grep [OPTION]... PATTERNS [FILE]...\nTry 'grep --help' for more information.\n".toList,
        status := 2, rest := input, disk }
    | _, none => { errors := complaint "grep" ["Invalid regular expression".toList], status := 2, rest := input, disk }
    | _, some rs =>
      let (t, errors, status, rest) := gather "grep" names input disk
      let hits := ((fullLines t).map chomp).zipIdx.filter fun (l, _) =>
        (rs.any fun r => Regex.occursIn r (fold l)) != a.has 'v'
      let hits := match (a.value? 'm').bind number? with
        | some n => hits.take n
        | none => hits
      let shown := fun (l : Raw) =>
        if a.has 'o' then rs.flatMap fun r => matchesIn r (Regex.patience l.length) (l.length + 1) l else [l]
      let output := if a.has 'q' then []
        else if a.has 'c' then Raw.ofNat hits.length ++ ['\n']
        else hits.flatMap fun (l, i) =>
          (shown l).flatMap fun l => (if a.has 'n' then Raw.ofNat (i + 1) ++ [':'] else []) ++ l ++ ['\n']
      { output, errors := if a.has 's' then [] else errors,
        status := if status ≠ 0 then 2 else if hits.isEmpty then 1 else 0, rest, disk }

end LintInference.Shell
