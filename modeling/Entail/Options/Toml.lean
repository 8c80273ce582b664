import Entail.Files
import Entail.Options.Basic
import Entail.Toml.Reader

set_option autoImplicit false

/-! # Options from TOML

Options are a table with one key for each of them, and the solver's options a table inside it. What
is not given keeps its default; a key that is not an option, or a value of another type, is an
error. The options may also be listed in order as an array, from the first one on. -/

namespace Entail

/-- Why options cannot be read. -/
inductive OptionsError where
  /-- the text is not well formed, or does not hold options -/
  | invalid
  /-- the file at this path cannot be read -/
  | unreadable (path : String)
  /-- the text of the file at this path is not well formed, or does not hold options -/
  | invalidFile (path : String)
  deriving DecidableEq, Inhabited

/-- The message of an error. -/
def OptionsError.text : OptionsError → String
  | .invalid => "invalid engine options"
  | .unreadable path => "cannot read options file `" ++ path ++ "`"
  | .invalidFile path => "in options file `" ++ path ++ "`"

namespace Toml

/-- An integer of at least zero. -/
def nat? : Toml → Option Nat
  | .integer n => if 0 ≤ n then some n.toNat else none
  | _ => none

def bool? : Toml → Option Bool
  | .boolean b => some b
  | _ => none

def string? : Toml → Option String
  | .string s => some s
  | _ => none

/-- A choice, by its name or as a table with the name as its only key and an empty table under
    it. -/
def choice? : Toml → Option SolverChoice
  | .string s => SolverChoice.ofText? s
  | .table _ [(name, .table _ [])] => SolverChoice.ofText? name
  | _ => none

end Toml

namespace SmtOptions

/-- The keys, in the order of the array form. -/
def keys : List String :=
  ["solver", "z3_exe", "constraint_timeout_ms", "implication_timeout_ms", "hard_timeout_secs",
    "smt_prelude", "ignore_missing_smtlib_warning", "debug_z3_queries"]

/-- Set one option. -/
def set? (o : SmtOptions) (key : String) (v : Toml) : Option SmtOptions :=
  match key with
  | "solver" => v.choice?.map fun x => { o with solver := x }
  | "z3_exe" => v.string?.map fun x => { o with z3Exe := x }
  | "constraint_timeout_ms" => v.nat?.map fun x => { o with constraintTimeoutMs := x }
  | "implication_timeout_ms" => v.nat?.map fun x => { o with implicationTimeoutMs := x }
  | "hard_timeout_secs" => v.nat?.map fun x => { o with hardTimeoutSecs := x }
  | "smt_prelude" => v.string?.map fun x => { o with smtPrelude := some x }
  | "ignore_missing_smtlib_warning" =>
    v.bool?.map fun x => { o with ignoreMissingSmtlibWarning := x }
  | "debug_z3_queries" => v.bool?.map fun x => { o with debugZ3Queries := x }
  | _ => none

def ofEntries? (entries : Toml.Entries) : Option SmtOptions :=
  entries.foldlM (fun o (key, v) => o.set? key v) {}

/-- The solver's options from a table, or from an array in order. -/
def ofToml? : Toml → Option SmtOptions
  | .table _ entries => ofEntries? entries
  | .array items => ofEntries? (keys.zip items)
  | .tables items => ofEntries? (keys.zip (items.map (Toml.table .header)))
  | _ => none

end SmtOptions

namespace EngineOptions

/-- Set one option. -/
def set? (o : EngineOptions) (key : String) (v : Toml) : Option EngineOptions :=
  match key with
  | "cache_simplifications" => v.bool?.map fun x => { o with cacheSimplifications := x }
  | "cache_implications" => v.bool?.map fun x => { o with cacheImplications := x }
  | "cache_capacity" => v.nat?.map fun x => { o with cacheCapacity := some x }
  | "max_case_splits" => v.nat?.map fun x => { o with maxCaseSplits := x }
  | "debug_formulas" => v.bool?.map fun x => { o with debugFormulas := x }
  | "smt" => (SmtOptions.ofToml? v).map fun x => { o with smt := x }
  | _ => none

/-- The options that a document holds. -/
def ofToml (text : String) : Except OptionsError EngineOptions :=
  match (Toml.document? text).bind fun entries =>
      entries.foldlM (fun o (key, v) => EngineOptions.set? o key v) {} with
  | some o => .ok o
  | none => .error .invalid

/-- The options that a file holds. -/
def ofFile (files : Files) (path : String) : Except OptionsError EngineOptions :=
  match files.read path with
  | .error _ => .error (.unreadable path)
  | .ok text => (ofToml text).mapError fun _ => .invalidFile path

end EngineOptions

end Entail
