/-
TOML values and the growth of a document. A table remembers how it came into
being, because that decides who may still add to it.
-/

namespace StackCompiler

/-- How a table was written, which decides whether it may be added to. -/
inductive TableForm where
  | inline
  | header
  | implied
  | dotted
deriving DecidableEq, Repr

/-- A TOML value. The values of floats and dates are not kept. -/
inductive Toml where
  | string (s : String)
  | integer (i : Int)
  | float
  | bool (b : Bool)
  | date
  | array (items : List Toml)
  | table (form : TableForm) (entries : List (String × Toml))
  /-- The tables that headers in double brackets open, the last one apart. -/
  | tables (before : List (List (String × Toml))) (last : List (String × Toml))

namespace Toml

/-- Keys with values, in their order. -/
abbrev Entries := List (String × Toml)

namespace Entries

/-- Puts `v` in the place of the entry `key`. -/
def replace (key : String) (v : Toml) (es : Entries) : Entries :=
  es.map fun (k, old) => if k = key then (k, v) else (k, old)

/-- Adds an entry below dotted keys. `open_` says that the entries may be added to directly. -/
def insert (key : String) (v : Toml) (open_ : Bool) : List String → Entries → Option Entries
  | [], es => if open_ && (es.lookup key).isNone then some (es ++ [(key, v)]) else none
  | p :: path, es =>
    match es.lookup p with
    | none => (insert key v true path []).map fun t => es ++ [(p, .table .dotted t)]
    | some (.table .dotted t) =>
      (insert key v true path t).map fun t => es.replace p (.table .dotted t)
    | some (.table .implied t) =>
      (insert key v false path t).map fun t => es.replace p (.table .implied t)
    | some (.tables before last) =>
      (insert key v false path last).map fun t => es.replace p (.tables before t)
    | some _ => none

/-- Changes the entries that a header path leads to. Missing tables are made; the last of several is meant. -/
def within (change : Entries → Option Entries) : List String → Entries → Option Entries
  | [], es => change es
  | p :: path, es =>
    match es.lookup p with
    | none => (within change path []).map fun t => es ++ [(p, .table .implied t)]
    | some (.table .inline _) => none
    | some (.table form t) => (within change path t).map fun t => es.replace p (.table form t)
    | some (.tables before last) =>
      (within change path last).map fun t => es.replace p (.tables before t)
    | some _ => none

/-- Opens a table by its header; only a table that was passed through may be there. -/
def openTable (key : String) (es : Entries) : Option Entries :=
  match es.lookup key with
  | none => some (es ++ [(key, .table .header [])])
  | some (.table .implied t) => some (es.replace key (.table .header t))
  | some _ => none

def openNext (key : String) (es : Entries) : Option Entries :=
  match es.lookup key with
  | none => some (es ++ [(key, .tables [] [])])
  | some (.tables before last) => some (es.replace key (.tables (before ++ [last]) []))
  | some _ => none

end Entries

/-- The values of a record with the given field names, each missing or present. A record is
written as a table, where other entries are ignored, or as the array of its fields in order, the
last ones possibly missing and more of them ignored. A date has none of the fields. -/
def fields? (names : List String) : Toml → Option (List (Option Toml))
  | table _ entries => some (names.map fun name => entries.lookup name)
  | array items => some (names.zipIdx.map fun (_, i) => items[i]?)
  | tables before last =>
    some (names.zipIdx.map fun (_, i) => ((before ++ [last])[i]?).map (table .header))
  | date => some (names.map fun _ => none)
  | _ => none

def nat? : Toml → Option Nat
  | integer i => if 0 ≤ i then some i.toNat else none
  | _ => none

def bool? : Toml → Option Bool
  | bool b => some b
  | _ => none

def isEmpty : Toml → Bool
  | array items => items.isEmpty
  | table _ entries => entries.isEmpty
  | _ => false

/-- The name of an alternative without content: a string, or a table with one empty entry. -/
def keyword? : Toml → Option String
  | string s => some s
  | table _ [(name, content)] => if content.isEmpty then some name else none
  | _ => none

end Toml
end StackCompiler
