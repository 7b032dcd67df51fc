import LintInference.Shell.Tool

/-!
# The tool that tests

It succeeds if what its arguments ask for is the case: about a text, about two texts or numbers, or about a file.
-/

namespace LintInference.Shell

/-- Is what a test with one operand asks for the case? -/
def unaryTest (disk : Disk) (operator operand : Raw) : Option Bool :=
  let entry := (disk.lookUp (Raw.toString operand)).toOption.map (·.2)
  match String.ofList operator with
  | "-n" => some (!operand.isEmpty)
  | "-z" => some operand.isEmpty
  | "-e" => some entry.isSome
  | "-r" => some entry.isSome
  | "-w" => some entry.isSome
  | "-f" => some (entry.any fun | .file _ _ => true | .directory => false)
  | "-d" => some (entry.any fun | .directory => true | .file _ _ => false)
  | "-s" => some (entry.any fun | .file content _ => !content.isEmpty | .directory => true)
  | "-x" => some (entry.any fun | .file _ executable => executable | .directory => true)
  | "-t" => some false
  | _ => none

/-- Is what a test with two operands asks for the case? -/
def binaryTest (a operator b : Raw) : Option Bool :=
  let numbers := fun (f : Int → Int → Bool) => match integer? a, integer? b with
    | some x, some y => some (f x y)
    | _, _ => none
  match String.ofList operator with
  | "=" => some (a = b)
  | "==" => some (a = b)
  | "!=" => some (a ≠ b)
  | "-eq" => numbers fun x y => x = y
  | "-ne" => numbers fun x y => x ≠ y
  | "-lt" => numbers fun x y => x < y
  | "-le" => numbers fun x y => x ≤ y
  | "-gt" => numbers fun x y => y < x
  | "-ge" => numbers fun x y => y ≤ x
  | _ => none

/-- The value of a test; none if it makes no sense. -/
def testValue (disk : Disk) : Nat → List Raw → Option Bool
  | 0, _ => none
  | n + 1, args =>
    match args with
    | [] => some false
    | [a] => some (!a.isEmpty)
    | [a, b] => if a = ['!'] then some b.isEmpty else unaryTest disk a b
    | [a, op, b] =>
      match binaryTest a op b with
      | some v => some v
      | none => if a = ['!'] then (testValue disk n [op, b]).map (!·) else none
    | args =>
      match args.idxOf? ['-', 'o'], args.idxOf? ['-', 'a'] with
      | some i, _ => do some ((← testValue disk n (args.take i)) || (← testValue disk n (args.drop (i + 1))))
      | none, some i => do some ((← testValue disk n (args.take i)) && (← testValue disk n (args.drop (i + 1))))
      | none, none => if args.head? = some ['!'] then (testValue disk n (args.drop 1)).map (!·) else none

/-- Succeeds if what the arguments ask for is the case. -/
def test : Tool := fun args input disk =>
  match testValue disk (args.length + 1) args with
  | some v => { status := if v then 0 else 1, rest := input, disk }
  | none => { errors := complaint "test" ["unexpected operator".toList], status := 2, rest := input, disk }

end LintInference.Shell
