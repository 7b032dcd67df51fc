import LintInference.Shell.State

/-!
# Arithmetic of scripts

Expressions over whole numbers and variables. An operator binds more strongly the higher its rank is, and operators of
one rank are taken from left to right. A comparison is one if it holds and zero otherwise. An expression as a whole may
be assigned to a variable.
-/

namespace LintInference.Shell.Arithmetic

/-- One for what holds. -/
def truth (b : Bool) : Int := if b then 1 else 0

/-- The operator at the front with its rank; none of its operands is missing, but a division may have no result. -/
def operator? (cs : Raw) : Option (Nat × (Int → Int → Option Int) × Raw) :=
  match cs with
  | '|' :: '|' :: cs => some (1, fun a b => some (truth (a ≠ 0 || b ≠ 0)), cs)
  | '&' :: '&' :: cs => some (2, fun a b => some (truth (a ≠ 0 && b ≠ 0)), cs)
  | '=' :: '=' :: cs => some (3, fun a b => some (truth (a = b)), cs)
  | '!' :: '=' :: cs => some (3, fun a b => some (truth (a ≠ b)), cs)
  | '<' :: '=' :: cs => some (4, fun a b => some (truth (a ≤ b)), cs)
  | '>' :: '=' :: cs => some (4, fun a b => some (truth (b ≤ a)), cs)
  | '<' :: cs => some (4, fun a b => some (truth (a < b)), cs)
  | '>' :: cs => some (4, fun a b => some (truth (b < a)), cs)
  | '+' :: cs => some (5, fun a b => some (a + b), cs)
  | '-' :: cs => some (5, fun a b => some (a - b), cs)
  | '*' :: cs => some (6, fun a b => some (a * b), cs)
  | '/' :: cs => some (6, fun a b => if b = 0 then none else some (a.tdiv b), cs)
  | '%' :: cs => some (6, fun a b => if b = 0 then none else some (a.tmod b), cs)
  | _ => none

/-- Drops white space. -/
def skip (cs : Raw) : Raw := cs.dropWhile fun c => isSpace c || c = '\n'

mutual

/-- The number that digits spell: after `0x` hexadecimal, after `0` octal, else decimal. -/
def numeral? (cs : Raw) : Option (Nat × Raw) :=
  let inBase := fun (base : Nat) (digits : Raw) =>
    digits.foldl (fun n c => n * base + (if c.isDigit then c.toNat - 48 else c.toLower.toNat - 87)) 0
  match cs with
  | '0' :: 'x' :: cs =>
    let (digits, cs) := cs.span fun c => c.isDigit || ('a' ≤ c.toLower && c.toLower ≤ 'f')
    some (inBase 16 digits, cs)
  | '0' :: cs =>
    let (digits, cs) := cs.span Char.isDigit
    some (inBase 8 digits, cs)
  | cs =>
    match cs.span Char.isDigit with
    | ([], _) => none
    | (digits, cs) => some (inBase 10 digits, cs)

/-- The value of an expression whose operators have at least the given rank. -/
def expression (lookUp : String → Option Raw) : Nat → Nat → Raw → Option (Int × Raw)
  | 0, _, _ => none
  | n + 1, rank, cs => do
    let (a, cs) ← operand lookUp n (skip cs)
    further lookUp n rank a cs

/-- The value of an expression that begins with `a`. -/
def further (lookUp : String → Option Raw) : Nat → Nat → Int → Raw → Option (Int × Raw)
  | 0, _, _, _ => none
  | n + 1, rank, a, cs =>
    match operator? (skip cs) with
    | some (r, f, rest) =>
      if r < rank then some (a, cs)
      else do
        let (b, cs) ← expression lookUp n (r + 1) rest
        further lookUp n rank (← f a b) cs
    | none =>
      match skip cs with
      | '?' :: rest =>
        if rank = 0 then do
          let (b, rest) ← expression lookUp n 0 rest
          match skip rest with
          | ':' :: rest => do
            let (c, rest) ← expression lookUp n 0 rest
            some (if a = 0 then c else b, rest)
          | _ => none
        else some (a, cs)
      | _ => some (a, cs)

/-- The value of an operand: a number, a variable, or an expression in brackets, with signs before it. -/
def operand (lookUp : String → Option Raw) : Nat → Raw → Option (Int × Raw)
  | 0, _ => none
  | n + 1, cs =>
    match cs with
    | '-' :: cs => do
      let (a, cs) ← operand lookUp n (skip cs)
      some (-a, cs)
    | '+' :: cs => operand lookUp n (skip cs)
    | '!' :: cs => do
      let (a, cs) ← operand lookUp n (skip cs)
      some (truth (a = 0), cs)
    | '(' :: cs => do
      let (a, cs) ← expression lookUp n 0 cs
      match skip cs with
      | ')' :: cs => some (a, cs)
      | _ => none
    | cs =>
      match numeral? cs with
      | some (v, cs) => some (Int.ofNat v, cs)
      | none =>
        match takeName cs with
        | ([], _) => none
        | (name, cs) => do
          let v := (lookUp (String.ofList name)).getD []
          some (← if v.isEmpty then some 0 else integer? v, cs)

end

/-- The variable that an expression assigns to, and the expression for its new value. -/
def assignment? (cs : Raw) : Option (String × Raw) :=
  match takeName (skip cs) with
  | ([], _) => none
  | (name, rest) =>
    match skip rest with
    | '=' :: '=' :: _ => none
    | '=' :: cs => some (String.ofList name, cs)
    | sign :: '=' :: cs =>
      if "+-*/%".toList.contains sign then some (String.ofList name, name ++ sign :: '(' :: cs ++ [')']) else none
    | _ => none

/-- The value of an expression that assigns nothing. -/
def pureValue? (lookUp : String → Option Raw) (cs : Raw) : Option Int := do
  if (skip cs).isEmpty then some 0
  else
    let (a, rest) ← expression lookUp (4 * cs.length + 4) 0 cs
    if (skip rest).isEmpty then some a else none

/-- The value of an expression, and the variable that gets it, if there is one. -/
def value? (lookUp : String → Option Raw) (cs : Raw) : Option (Int × Option String) :=
  match assignment? cs with
  | some (name, cs) => (pureValue? lookUp cs).map fun v => (v, some name)
  | none => (pureValue? lookUp cs).map fun v => (v, none)

end LintInference.Shell.Arithmetic
