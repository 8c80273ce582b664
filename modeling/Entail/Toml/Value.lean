set_option autoImplicit false

/-! # TOML values and tables

Values as a configuration file holds them, and the rules by which keys and table headers fill
tables. A key is given once. A table is opened by one header, by keys that pass through it, or by an
inline value, and which of these it was decides who may still add to it. -/

namespace Entail

/-- How a table came to be. -/
inductive TableOrigin where
  /-- by its own header; the document itself counts as such a table -/
  | header
  /-- on the way to a table with a longer header -/
  | passed
  /-- by a dotted key -/
  | dotted
  /-- as a value between braces -/
  | braces
  deriving DecidableEq, Inhabited

/-- A value. Numbers with a fraction, dates and times are kept as they are written. -/
inductive Toml where
  | string (s : String)
  | integer (n : Int)
  | float (token : String)
  | boolean (b : Bool)
  | moment (token : String)
  | array (items : List Toml)
  | table (origin : TableOrigin) (entries : List (String × Toml))
  /-- tables that share one header, one for each time it stands there -/
  | tables (items : List (List (String × Toml)))

namespace Toml

/-- The entries of a table. -/
abbrev Entries := List (String × Toml)

/-- Put a value in the place of the entry for a key. -/
def replace (key : String) (value : Toml) (entries : Entries) : Entries :=
  entries.map fun entry => if entry.1 == key then (key, value) else entry

/-- Whether keys and headers may pass through a table that is there. -/
def mayPass (dotted : Bool) : TableOrigin → Bool
  | .braces => false
  | .header => !dotted
  | .passed | .dotted => true

/-- Follow a path of keys down from a table of some origin, making the tables that are missing, and
    change the table at its end by `f`. Of tables that share one header the last is followed. -/
def modify (dotted : Bool) (f : TableOrigin → Entries → Option Entries) :
    List String → TableOrigin → Entries → Option Entries
  | [], origin, entries => f origin entries
  | key :: path, _, entries =>
    match entries.lookup key with
    | none =>
      let origin := if dotted then TableOrigin.dotted else .passed
      (modify dotted f path origin []).map fun child => entries ++ [(key, .table origin child)]
    | some (.table origin child) =>
      if mayPass dotted origin then
        (modify dotted f path origin child).map fun child =>
          replace key (.table origin child) entries
      else none
    | some (.tables items) =>
      match items.getLast? with
      | some child =>
        (modify dotted f path .header child).map fun child =>
          replace key (.tables (items.dropLast ++ [child])) entries
      | none => none
    | some _ => none

/-- Add a value for a key that is not there. -/
def addNew (key : String) (value : Toml) (entries : Entries) : Option Entries :=
  if (entries.lookup key).isSome then none else some (entries ++ [(key, value)])

/-- Add a value under a dotted key, given as the keys before the last dot and the last key. Dotted
    keys add to the table they stand in and to tables made by dotted keys. -/
def addPair (path : List String) (key : String) (value : Toml) (entries : Entries) :
    Option Entries :=
  modify true (fun origin entries =>
    if (origin == .dotted) == path.isEmpty then none else addNew key value entries)
    path .header entries

/-- Add a value under a dotted key between braces. There such a key adds to any table, also to one
    that is itself written between braces. -/
def addInside (key : String) (value : Toml) : List String → Entries → Option Entries
  | [], entries => addNew key value entries
  | step :: path, entries =>
    match entries.lookup step with
    | none =>
      (addInside key value path []).map fun child => entries ++ [(step, .table .braces child)]
    | some (.table origin child) =>
      (addInside key value path child).map fun child =>
        replace step (.table origin child) entries
    | some _ => none

/-- Open the table of a header. -/
def openTable (path : List String) (key : String) (root : Entries) : Option Entries :=
  modify false (fun _ entries =>
    match entries.lookup key with
    | none => some (entries ++ [(key, .table .header [])])
    | some (.table .passed child) => some (replace key (.table .header child) entries)
    | some _ => none) path .header root

/-- Open another table of a header that is shared. -/
def openShared (path : List String) (key : String) (root : Entries) : Option Entries :=
  modify false (fun _ entries =>
    match entries.lookup key with
    | none => some (entries ++ [(key, .tables [[]])])
    | some (.tables items) => some (replace key (.tables (items ++ [[]])) entries)
    | some _ => none) path .header root

end Toml

end Entail
