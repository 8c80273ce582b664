import Entail.SortLattice
import Entail.Term.Basic

set_option autoImplicit false

/-! # Vocabularies

A vocabulary holds the sorts with their order and the declared symbols. It computes the sort of an
application: the least result among the signatures that accept the argument sorts. -/

namespace Entail

/-- Sorts and declared symbols. -/
structure Vocabulary where
  lattice : SortLattice
  symbols : List Symbol
  deriving Inhabited

namespace Vocabulary

/-- The sorts with fixed names and no symbols. -/
def initial : Vocabulary := ⟨.builtin, []⟩

def declareSort (voc : Vocabulary) (s : SortName) : Vocabulary :=
  { voc with lattice := voc.lattice.declare s }

def addSubsort (voc : Vocabulary) (big small : SortName) : Vocabulary :=
  { voc with lattice := voc.lattice.addSubsort big small }

/-- Declare a symbol and the sorts of its signatures. A later symbol of the same name replaces an
    earlier one. -/
def declareSymbol (voc : Vocabulary) (symbol : Symbol) : Vocabulary where
  lattice :=
    (symbol.signatures.flatMap fun sig => sig.params ++ [sig.result]).foldl
      SortLattice.declare voc.lattice
  symbols := symbol :: voc.symbols.filter (·.name != symbol.name)

def symbol? (voc : Vocabulary) (name : String) : Option Symbol :=
  voc.symbols.find? (·.name == name)

/-- The parameters accept arguments of the given sorts. -/
def accepts (voc : Vocabulary) (params args : List SortName) : Bool :=
  params.length == args.length &&
    (params.zip args).all fun (p, a) => voc.lattice.isSubsortEq p a

/-- The first sort of a list that lies below all of them. -/
def leastOf? (voc : Vocabulary) (sorts : List SortName) : Option SortName :=
  sorts.find? fun s => sorts.all fun other => voc.lattice.isSubsortEq other s

/-- The first sort of a list that lies above all of them. -/
def greatestOf? (voc : Vocabulary) (sorts : List SortName) : Option SortName :=
  sorts.find? fun s => sorts.all fun other => voc.lattice.isSubsortEq s other

/-- The result sorts of the signatures that accept the argument sorts. -/
def applicableResults (voc : Vocabulary) (symbol : Symbol) (args : List SortName) :
    List SortName :=
  (symbol.signatures.filter fun sig => voc.accepts sig.params args).map (·.result)

/-- The least result sort among the signatures that accept the argument sorts; without one, the
    greatest declared result; and the top sort when there is none of these either. -/
def leastSort (voc : Vocabulary) (symbol : Symbol) (args : List SortName) : SortName :=
  match voc.leastOf? (voc.applicableResults symbol args) with
  | some least => least
  | none => (voc.greatestOf? (symbol.signatures.map (·.result))).getD .k

/-- The signatures into which the arguments could still be narrowed. -/
def possibleSignatures (voc : Vocabulary) (symbol : Symbol) (args : List SortName) :
    List Signature :=
  symbol.signatures.filter fun sig =>
    sig.params.length == args.length &&
      (sig.params.zip args).all fun (p, a) => voc.lattice.haveCommonSubsort p a

/-- The result sorts of the possible signatures, in order of names. -/
def possibleSorts (voc : Vocabulary) (symbol : Symbol) (args : List SortName) : List SortName :=
  Sorted.ofList SortName.cmp ((voc.possibleSignatures symbol args).map (·.result))

/-- Apply a symbol, at the least sort of the application. -/
def apply (voc : Vocabulary) (symbol : Symbol) (args : List Term) : Term :=
  .app symbol args (voc.leastSort symbol (args.map Term.sort))

end Vocabulary

end Entail
