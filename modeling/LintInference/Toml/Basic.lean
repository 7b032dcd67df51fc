import LintInference.Entries

/-!
# TOML documents

`Toml` is a value, `Toml.Table` a table under construction: it remembers how each of its tables came about, since that
decides which later header or dotted key may add to it.
-/

namespace LintInference

/-- A TOML value. -/
inductive Toml where
  | text (value : String)
  | flag (value : Bool)
  | integer (value : Int)
  /-- A number with a fraction or an exponent, an infinity or no number, as it is written. -/
  | float (written : String)
  /-- A date, a time or both, as it is written. -/
  | moment (written : String)
  | array (items : List Toml)
  | table (entries : List (String × Toml))
  deriving Repr

namespace Toml

instance : Inhabited Toml := ⟨.flag false⟩

/-- How a table came about. -/
inductive Origin where
  /-- By a header of its own. -/
  | header
  /-- As a part of the header of a table below it. -/
  | passing
  /-- By a dotted key. -/
  | dotted
  deriving DecidableEq, Repr

/-- What stands under a name of a document under construction. -/
inductive Node where
  /-- A value that is complete. -/
  | value (v : Toml)
  | table (origin : Origin) (entries : List (String × Node))
  /-- Tables with a header in double brackets, the last one first. -/
  | tables (entries : List (List (String × Node)))

/-- The names of a document under construction. -/
abbrev Table := List (String × Node)

mutual

/-- The value of a node. -/
def Node.finish : Node → Toml
  | .value v => v
  | .table _ entries => .table (finishEntries entries)
  | .tables entries => .array (finishAll entries).reverse

/-- The values under the names. -/
def finishEntries : List (String × Node) → List (String × Toml)
  | [] => []
  | (name, node) :: es => (name, node.finish) :: finishEntries es

/-- The tables of a list. -/
def finishAll : List (List (String × Node)) → List Toml
  | [] => []
  | es :: ess => .table (finishEntries es) :: finishAll ess

end

/-! ## Building -/

/-- Changes the table that a header passes through the given names to reach. A name that is not there becomes a table;
of a list of tables, the last one is meant. -/
def Table.through (change : Table → Option Table) : List String → Table → Option Table
  | [], t => change t
  | name :: names, t =>
    match Entries.get? t name with
    | none => (through change names []).map fun inner => t ++ [(name, .table .passing inner)]
    | some (.table origin inner) =>
      (through change names inner).map fun inner => Entries.put t name (.table origin inner)
    | some (.tables (last :: others)) =>
      (through change names last).map fun last => Entries.put t name (.tables (last :: others))
    | some _ => none

/-- Gives a dotted key a value. A table with a header of its own cannot be added to in this way. -/
def Table.assign (v : Toml) : List String → Table → Option Table
  | [], _ => none
  | [name], t => if (Entries.get? t name).isSome then none else some (t ++ [(name, .value v)])
  | name :: names, t =>
    match Entries.get? t name with
    | none => (assign v names []).map fun inner => t ++ [(name, .table .dotted inner)]
    | some (.table .header _) => none
    | some (.table origin inner) => (assign v names inner).map fun inner => Entries.put t name (.table origin inner)
    | some _ => none

/-- Opens the table with a header of the given last name: it must not be there, or be one that was only passed. -/
def Table.openTable (name : String) (t : Table) : Option Table :=
  match Entries.get? t name with
  | none => some (t ++ [(name, .table .header [])])
  | some (.table .passing inner) => some (Entries.put t name (.table .header inner))
  | some _ => none

/-- Opens one more table of a list of tables. -/
def Table.openNext (name : String) (t : Table) : Option Table :=
  match Entries.get? t name with
  | none => some (t ++ [(name, .tables [[]])])
  | some (.tables others) => some (Entries.put t name (.tables ([] :: others)))
  | some _ => none

end Toml

end LintInference
