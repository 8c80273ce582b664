import Entail.Proofs.Writing

set_option autoImplicit false

/-! # Queries as problems

A query is read command by command, and comes to a problem: sorts and functions that are declared,
and statements that are asserted. The declarations that a writer collects are read back as they
are. -/

namespace Entail.Smt

/-! ## Problems -/

/-- A function that is declared, with the sorts of its parameters and of its result. Constants are
    functions without parameters. -/
structure FunctionDeclaration where
  name : String
  params : List String
  result : String

/-- What a query declares and asserts. -/
structure Problem where
  sorts : List String
  functions : List FunctionDeclaration
  assertions : List Sexp

namespace Problem

def empty : Problem := ⟨[], [], []⟩

/-- The sorts that can be used. -/
def knownSorts (p : Problem) : List String := ["Int", "Bool"] ++ p.sorts

end Problem

def Sexp.word? : Sexp → Option String
  | .atom w => some w
  | .list _ => none

namespace Problem

/-- Read a command. What is declared is declared before anything is asserted, and with sorts that
    were declared earlier. -/
def add? (p : Problem) : Sexp → Option Problem
  | .list [.atom "declare-sort", .atom name, .atom "0"] =>
    if p.assertions.isEmpty then some { p with sorts := p.sorts ++ [name] } else none
  | .list [.atom "declare-fun", .atom name, .list params, .atom result] => do
    let params ← params.mapM Sexp.word?
    if p.assertions.isEmpty && (result :: params).all p.knownSorts.contains then
      some { p with functions := p.functions ++ [⟨name, params, result⟩] }
    else none
  | .list [.atom "assert", x] => some { p with assertions := p.assertions ++ [x] }
  | .list [.atom "check-sat"] => some p
  | _ => none

/-- Read a query. -/
def read? (text : String) : Option Problem := (read text).bind (·.foldlM add? empty)

end Problem

/-! ## Reading a query -/

def sortSexp (s : String) : Sexp := .list [.atom "declare-sort", .atom s, .atom "0"]

def functionSexp (f : FunctionDeclaration) : Sexp :=
  .list [.atom "declare-fun", .atom f.name, .list (f.params.map .atom), .atom f.result]

/-- The text reads as these S-expressions, also right behind a word. -/
structure Commands (text : String) (xs : List Sexp) : Prop where
  spells : Spells text xs
  delimited : Delimited text.toList

theorem Commands.append {text text' : String} {xs ys : List Sexp} (h : Commands text xs)
    (h' : Commands text' ys) : Commands (text ++ text') (xs ++ ys) where
  spells := h.spells.append h'.spells h'.delimited
  delimited := by
    rw [String.toList_append]
    exact delimited_append h.delimited h'.delimited

/-- A command on a line of its own. -/
theorem commands_line {operator : String} (hoperator : IsWord operator) {texts : List String}
    {xs : List Sexp} (h : List.Forall₂ (fun text x => Spells text [x]) texts xs) :
    Commands (applied operator texts ++ "\n") [.list (.atom operator :: xs)] where
  spells := (spells_applied hoperator h).line
  delimited := by
    rw [applied]
    simp only [String.toList_append]
    exact delimited_cons rfl _

theorem commands_join {α : Type} {text : α → String} {sexp : α → Sexp} {xs : List α}
    (h : ∀ x ∈ xs, Commands (text x) [sexp x]) :
    Commands (String.join (xs.map text)) (xs.map sexp) := by
  induction xs with
  | nil => exact ⟨fun _ _ => rfl, nofun⟩
  | cons x xs ih =>
    rw [List.forall_mem_cons] at h
    rw [List.map_cons, String.join_cons]
    exact h.1.append (ih h.2)

namespace Declarations

variable {d : Declarations}

/-- The functions that are declared, constants first. -/
def functionDeclarations (d : Declarations) : List FunctionDeclaration :=
  d.constants.map (fun c => ⟨c.1, [], c.2⟩) ++ d.functions.map fun f => ⟨f.1, f.2.1, f.2.2⟩

theorem Proper.isWord_of_knows (h : d.Proper) {sort : String} (hsort : d.Knows sort) :
    IsWord sort := by
  rcases hsort with rfl | rfl | hmem
  · exact .of_all rfl
  · exact .of_all rfl
  · obtain ⟨n, rfl⟩ := h.sort_names sort hmem
    exact isWord_sortName n

/-- What is known of a function that is declared. -/
theorem Proper.of_mem_functionDeclarations (h : d.Proper) {f : FunctionDeclaration}
    (hf : f ∈ d.functionDeclarations) :
    ((∃ v, f.name = variableName v) ∨ ∃ g, f.name = functionName g) ∧
      ∀ s ∈ f.result :: f.params, d.Knows s := by
  rcases List.mem_append.mp hf with hf | hf
  · obtain ⟨c, hc, rfl⟩ := List.mem_map.mp hf
    obtain ⟨hname, hsort⟩ := h.constant_names c hc
    exact ⟨.inl hname, List.forall_mem_cons.mpr ⟨hsort, nofun⟩⟩
  · obtain ⟨g, hg, rfl⟩ := List.mem_map.mp hf
    obtain ⟨hname, hparams, hresult⟩ := h.function_names g hg
    exact ⟨.inr hname, List.forall_mem_cons.mpr ⟨hresult, hparams⟩⟩

theorem text_eq (d : Declarations) :
    d.text =
      String.join (d.sorts.map fun s => applied "declare-sort" [s, "0"] ++ "\n") ++
        String.join (d.functionDeclarations.map fun f =>
          applied "declare-fun" [f.name, "(" ++ Text.joinWith " " f.params ++ ")", f.result] ++
            "\n") := by
  apply String.toList_injective
  simp [text, functionDeclarations, applied, Text.joinWith, List.flatMap_map]

theorem Proper.commands (h : d.Proper) :
    Commands d.text (d.sorts.map sortSexp ++ d.functionDeclarations.map functionSexp) := by
  rw [text_eq]
  refine (commands_join fun s hs => ?_).append (commands_join fun f hf => ?_)
  · have hword : IsWord s := h.isWord_of_knows (.inr (.inr hs))
    exact commands_line (.of_all rfl) (.cons hword.spells (.cons (IsWord.of_all rfl).spells .nil))
  · obtain ⟨hname, hsorts⟩ := h.of_mem_functionDeclarations hf
    rw [List.forall_mem_cons] at hsorts
    have hname : IsWord f.name := by
      rcases hname with ⟨v, hv⟩ | ⟨g, hg⟩
      · exact hv ▸ isWord_variableName v
      · exact hg ▸ isWord_functionName g
    have hparams : List.Forall₂ (fun text x => Spells text [x]) f.params
        (f.params.map Sexp.atom) := by
      rw [List.forall₂_map_right_iff, List.forall₂_same]
      exact fun s hs => (h.isWord_of_knows (hsorts.2 s hs)).spells
    exact commands_line (.of_all rfl) (.cons hname.spells (.cons (spells_joinWith hparams).list
      (.cons (h.isWord_of_knows hsorts.1).spells .nil)))

end Declarations

namespace Problem

variable {p : Problem}

theorem foldlM_sorts (hp : p.assertions = []) (sorts : List String) :
    (sorts.map sortSexp).foldlM add? p = some { p with sorts := p.sorts ++ sorts } := by
  induction sorts generalizing p with
  | nil => simp
  | cons s sorts ih =>
    have hadd : add? p (sortSexp s) = some { p with sorts := p.sorts ++ [s] } := by
      simp [sortSexp, add?, hp]
    rw [List.map_cons, List.foldlM_cons, hadd]
    simpa using ih (p := { p with sorts := p.sorts ++ [s] }) hp

theorem mapM_word (words : List String) : (words.map Sexp.atom).mapM Sexp.word? = some words := by
  induction words with
  | nil => rfl
  | cons w words ih => simp [Sexp.word?, ih]

theorem foldlM_functions (hp : p.assertions = []) {fs : List FunctionDeclaration}
    (hfs : ∀ f ∈ fs, ∀ s ∈ f.result :: f.params, s ∈ p.knownSorts) :
    (fs.map functionSexp).foldlM add? p = some { p with functions := p.functions ++ fs } := by
  induction fs generalizing p with
  | nil => simp
  | cons f fs ih =>
    rw [List.forall_mem_cons] at hfs
    have hknown : (f.result :: f.params).all p.knownSorts.contains = true := by
      simpa using hfs.1
    have hadd : add? p (functionSexp f) = some { p with functions := p.functions ++ [f] } := by
      simp only [functionSexp, add?, mapM_word, Option.bind_eq_bind, Option.bind_some, hknown, hp]
      rfl
    rw [List.map_cons, List.foldlM_cons, hadd]
    simpa using ih (p := { p with functions := p.functions ++ [f] }) hp hfs.2

end Problem

/-- The problem with these declarations. -/
def Declarations.problem (d : Declarations) (assertions : List Sexp) : Problem :=
  ⟨d.sorts, d.functionDeclarations, assertions⟩

theorem Declarations.Proper.foldlM_eq {d : Declarations} (hd : d.Proper) (x y : Sexp) :
    List.foldlM Problem.add? Problem.empty
      (d.sorts.map sortSexp ++ d.functionDeclarations.map functionSexp ++
        [.list [.atom "assert", x], .list [.atom "assert", y], .list [.atom "check-sat"]]) =
      some (d.problem [x, y]) := by
  have hknown : ∀ f ∈ d.functionDeclarations, ∀ s ∈ f.result :: f.params,
      s ∈ Problem.knownSorts ⟨[] ++ d.sorts, [], []⟩ := by
    intro f hf s hs
    rcases (hd.of_mem_functionDeclarations hf).2 s hs with rfl | rfl | hs
    · exact .head _
    · exact .tail _ (.head _)
    · exact List.mem_append_right _ hs
  rw [List.foldlM_append, List.foldlM_append, Problem.foldlM_sorts rfl]
  exact congrArg (· >>= _) (Problem.foldlM_functions rfl hknown)

/-- A query that asserts two statements is read as a problem with these. -/
theorem read?_query {d : Declarations} (hd : d.Proper) {premise goal : String} {x y : Sexp}
    (hpremise : Spells premise [x]) (hgoal : Spells goal [y]) :
    Problem.read? (d.text ++ ("(assert " ++ premise ++ ")\n(assert (not " ++ goal ++
      "))\n(check-sat)\n")) = some (d.problem [x, .list [.atom "not", y]]) := by
  have hnot : Spells (applied "not" [goal]) [.list [.atom "not", y]] :=
    spells_applied (.of_all rfl) (.cons hgoal .nil)
  have hassert : IsWord "assert" := .of_all rfl
  have hcheck : IsWord "check-sat" := .of_all rfl
  have hcommands := hd.commands.append <|
    (commands_line hassert (.cons hpremise .nil)).append <|
      (commands_line hassert (.cons hnot .nil)).append
        ⟨hcheck.spells.list.line, delimited_cons rfl _⟩
  have htext : "(assert " ++ premise ++ ")\n(assert (not " ++ goal ++ "))\n(check-sat)\n" =
      applied "assert" [premise] ++ "\n" ++ (applied "assert" [applied "not" [goal]] ++ "\n" ++
        ("(" ++ "check-sat" ++ ")" ++ "\n")) := by
    apply String.toList_injective
    simp [applied, Text.joinWith]
  rw [htext, Problem.read?, hcommands.spells.read_eq]
  exact hd.foldlM_eq _ _

end Entail.Smt
