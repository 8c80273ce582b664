import Entail.Proofs.Applied
import Entail.Proofs.Ordering
import Entail.Proofs.Problems

set_option autoImplicit false

/-! # What the names in a query stand for

In an assertion a name stands for the binders of that name in the innermost quantifier that has any,
and otherwise for what is declared or what a theory knows by that name. All is well if there is just
one such thing, and if it is what the term means that was written. -/

namespace Entail

/-! ## The variables of a formula -/

namespace Formula

theorem Each.var {p : Term → Prop} {φ : Formula} (h : φ.Each p) {v : Variable} (hv : v ∈ φ.vars) :
    p (.var v) := by
  have hwithin : φ.Within (fun v => p (.var v)) fun _ => True :=
    Each.imp (fun t _ ht => by cases t <;> first | exact ht | trivial) φ.within_any h
  exact Within.occurrences hwithin v ((φ.mem_vars_iff v).mp hv)

theorem ascending_vars (φ : Formula) : Sorted.Ascending Variable.cmp φ.vars :=
  Sorted.ascending_ofList φ.occurrences

end Formula

namespace Smt

/-! ## Scopes -/

/-- A binder of a quantifier: a name and its sort. -/
abbrev Binder := String × String

def binderSexp (b : Binder) : Sexp := .list [.atom b.1, .atom b.2]

/-- The names of the theories of integers and truth values. -/
def theoryNames : List String :=
  ["true", "false", "ite", "=", "and", "or", "not", "+", "-", "<", "<="]

/-- Names of theories and numerals have a meaning of their own. -/
def isTheory (w : String) : Bool :=
  theoryNames.contains w || !w.toList.isEmpty && w.toList.all Char.isDigit

/-- What a name can stand for. -/
inductive Referent where
  | theory
  | declared (f : FunctionDeclaration)
  | bound (binder : Binder)

namespace Problem

/-- All that a name stands for, with quantifiers around it, the innermost one first. -/
def referents (p : Problem) (name : String) : List (List Binder) → List Referent
  | [] =>
    (if isTheory name then [.theory] else []) ++
      (p.functions.filter (·.name == name)).map .declared
  | scope :: scopes =>
    match scope.filter (·.1 == name) with
    | [] => p.referents name scopes
    | found => found.map .bound

/-- Each name in an assertion stands for one thing, and each sort is declared once. -/
inductive Closed (p : Problem) : List (List Binder) → Sexp → Prop
  | name {scopes : List (List Binder)} {w : String} {r : Referent}
      (h : p.referents w scopes = [r]) : Closed p scopes (.atom w)
  | list {scopes : List (List Binder)} {xs : List Sexp} (h : ∀ x ∈ xs, Closed p scopes x) :
      Closed p scopes (.list xs)
  | quantifier {scopes : List (List Binder)} {binders : List Binder} {body : Sexp}
      (hsorts : ∀ b ∈ binders, p.knownSorts.count b.2 = 1)
      (hbody : Closed p (binders :: scopes) body) :
      Closed p scopes (.list [.atom "exists", .list (binders.map binderSexp), body])

/-- What the head of a term means is what its name stands for: for a variable of `bound` a binder of
    its sort, for any other variable a constant of its sort, and for a symbol a function with the
    sorts of the arguments and of the result. -/
def Refers (p : Problem) (scopes : List (List Binder)) (bound : VarSet) : Term → Prop
  | .var v =>
    p.referents (variableName v) scopes =
      [if bound.contains v then .bound (variableName v, sortIdentifier v.sort)
        else .declared ⟨variableName v, [], sortIdentifier v.sort⟩]
  | .app f args s =>
    p.referents (functionName f) scopes =
      [.declared ⟨functionName f, args.map fun t => sortIdentifier t.sort, sortIdentifier s⟩]
  | .str _ | .list _ _ => False
  | _ => True

end Problem

/-! ## Looking names up -/

/-- An underscore in the second place tells identifiers from names of theories. -/
theorem isTheory_of_underscore {w : String} (h : w.toList[1]? = some '_') : isTheory w = false := by
  have htheory : ∀ t ∈ theoryNames, t.toList[1]? ≠ some '_' := by decide
  have hcontains : theoryNames.contains w = false := by
    simpa using fun hmem => htheory w hmem h
  have hall : w.toList.all Char.isDigit = false :=
    List.all_eq_false.mpr ⟨'_', List.mem_of_getElem? h, by decide⟩
  rw [isTheory, hcontains, hall, Bool.and_false, Bool.false_or]

theorem isTheory_variableName (v : Variable) : isTheory (variableName v) = false :=
  isTheory_of_underscore (by rw [variableName, mangle, String.toList_append]; rfl)

theorem isTheory_functionName (f : Symbol) : isTheory (functionName f) = false :=
  isTheory_of_underscore (by rw [functionName, mangle, String.toList_append]; rfl)

theorem variableName_ne_functionName (v : Variable) (f : Symbol) :
    variableName v ≠ functionName f := by
  intro heq
  have hhead := congrArg (fun w : String => w.toList.head?) heq
  simp [variableName, functionName, mangle] at hhead

namespace Problem

variable {p : Problem} {scopes : List (List Binder)}

/-- Quantifiers matter only to the names that they bind. -/
theorem referents_of_unbound {name : String}
    (h : ∀ scope ∈ scopes, ∀ b ∈ scope, b.1 ≠ name) :
    p.referents name scopes = p.referents name [] := by
  induction scopes with
  | nil => rfl
  | cons scope scopes ih =>
    rw [List.forall_mem_cons] at h
    have hfilter : scope.filter (·.1 == name) = [] := by
      simpa [List.filter_eq_nil_iff] using fun n s hb => h.1 (n, s) hb
    conv_lhs => rw [referents, hfilter]
    exact ih h.2

/-- The names of theories are left to the theories. -/
def Standard (p : Problem) (scopes : List (List Binder)) : Prop :=
  ∀ w, isTheory w = true → p.referents w scopes = [.theory]

theorem standard_of_names (hp : ∀ f ∈ p.functions, isTheory f.name = false)
    (hscopes : ∀ scope ∈ scopes, ∀ b ∈ scope, isTheory b.1 = false) : p.Standard scopes := by
  intro w hw
  rw [referents_of_unbound fun scope hscope b hb heq => by
    simpa [heq, hw] using hscopes scope hscope b hb]
  have hfilter : p.functions.filter (·.name == w) = [] := by
    refine List.filter_eq_nil_iff.mpr fun f hf heq => ?_
    simpa [eq_of_beq heq, hw] using hp f hf
  rw [referents, if_pos hw, hfilter]
  rfl

theorem referents_declared {name : String} {f : FunctionDeclaration}
    (hname : isTheory name = false) (hfilter : p.functions.filter (·.name == name) = [f]) :
    p.referents name [] = [.declared f] := by
  rw [referents, hname, hfilter]
  rfl

end Problem

namespace Declarations

variable {d : Declarations}

theorem Proper.filter_constant (h : d.Proper) {v : Variable} {sort : String}
    (hmem : (variableName v, sort) ∈ d.constants) :
    d.functionDeclarations.filter (·.name == variableName v) = [⟨variableName v, [], sort⟩] := by
  have hconstants : d.constants.filter (·.1 == variableName v) = [(variableName v, sort)] :=
    h.constants.filter_eq hmem fun c _ => by simp
  have hfunctions : d.functions.filter (·.1 == variableName v) = [] := by
    refine List.filter_eq_nil_iff.mpr fun f hf heq => ?_
    obtain ⟨⟨g, hg⟩, _⟩ := h.function_names f hf
    exact variableName_ne_functionName v g (by rw [← eq_of_beq heq, hg])
  simp [functionDeclarations, List.filter_map, Function.comp_def, hconstants, hfunctions]

theorem Proper.filter_function (h : d.Proper) {f : Symbol} {params : List String} {sort : String}
    (hmem : (functionName f, params, sort) ∈ d.functions) :
    d.functionDeclarations.filter (·.name == functionName f) =
      [⟨functionName f, params, sort⟩] := by
  have hfunctions : d.functions.filter (·.1 == functionName f) = [(functionName f, params, sort)] :=
    h.functions.filter_eq hmem fun c _ => by simp
  have hconstants : d.constants.filter (·.1 == functionName f) = [] := by
    refine List.filter_eq_nil_iff.mpr fun c hc heq => ?_
    obtain ⟨⟨v, hv⟩, _⟩ := h.constant_names c hc
    exact variableName_ne_functionName v f (by rw [← eq_of_beq heq, hv])
  simp [functionDeclarations, List.filter_map, Function.comp_def, hconstants, hfunctions]

theorem Proper.isTheory_name (h : d.Proper) {f : FunctionDeclaration}
    (hf : f ∈ d.functionDeclarations) : isTheory f.name = false := by
  obtain ⟨⟨v, hv⟩ | ⟨g, hg⟩, _⟩ := h.of_mem_functionDeclarations hf
  · rw [hv, isTheory_variableName]
  · rw [hg, isTheory_functionName]

/-- The sorts that are known are there once. -/
theorem Proper.count_sort (h : d.Proper) {sort : String} (hsort : d.Knows sort)
    (assertions : List Sexp) : (d.problem assertions).knownSorts.count sort = 1 := by
  have hnotin {s : String} (hs : s.toList[1]? ≠ some '_') : s ∉ d.sorts := fun hmem => by
    obtain ⟨n, rfl⟩ := h.sort_names s hmem
    exact hs (by rw [sortName, mangle, String.toList_append]; rfl)
  have hbuiltin : ∀ s ∈ ["Int", "Bool"], s ∉ d.sorts :=
    List.forall_mem_cons.mpr ⟨hnotin (by decide), List.forall_mem_singleton.mpr
      (hnotin (by decide))⟩
  refine List.count_eq_one_of_mem (List.nodup_append.mpr ⟨by decide, h.sorts.nodup, ?_⟩) ?_
  · rintro s hs _ hmem rfl
    exact hbuiltin s hs hmem
  · rcases hsort with rfl | rfl | hmem
    · exact .head _
    · exact .tail _ (.head _)
    · exact List.mem_append_right _ hmem

end Declarations

/-! ## What is written is closed -/

namespace Problem

variable {p : Problem} {scopes : List (List Binder)} {bound : VarSet}

theorem Closed.applied {w : String} {r : Referent} (hw : p.referents w scopes = [r])
    {xs : List Sexp} (hxs : ∀ x ∈ xs, p.Closed scopes x) :
    p.Closed scopes (.list (.atom w :: xs)) :=
  .list (List.forall_mem_cons.mpr ⟨.name hw, hxs⟩)

theorem Standard.closed (h : p.Standard scopes) {w : String} (hw : isTheory w = true) :
    p.Closed scopes (.atom w) :=
  .name (h w hw)

theorem isTheory_toString {n : Int} (h : 0 ≤ n) : isTheory (toString n) = true := by
  obtain ⟨m, rfl⟩ := Int.eq_ofNat_of_zero_le h
  have hdigits : (toString m).toList.all Char.isDigit = true := by
    rw [Nat.toString_eq_ofList_toDigits, String.toList_ofList]
    exact List.all_eq_true.mpr fun c => Nat.isDigit_of_mem_toDigits (by decide) (by decide)
  change isTheory (toString m) = true
  rw [isTheory, hdigits]
  simp

theorem closed_integerSexp (h : p.Standard scopes) (n : Int) :
    p.Closed scopes (integerSexp n) := by
  rw [integerSexp]
  split
  · refine Closed.applied (h "-" rfl) (List.forall_mem_singleton.mpr (h.closed ?_))
    exact isTheory_toString (by omega)
  · exact h.closed (isTheory_toString (by omega))

theorem isTheory_operator (op : Builtin) : isTheory (operator op) = true := by cases op <;> rfl

/-- A term is closed if its names stand for what it means. -/
theorem closed_termSexp (hstandard : p.Standard scopes) {t : Term}
    (ht : t.All (p.Refers scopes bound)) : p.Closed scopes (termSexp t) := by
  induction t using Term.ind with
  | var v => exact .name ht
  | bool b => cases b <;> exact hstandard.closed rfl
  | int n => exact closed_integerSexp hstandard n
  | str s => exact ht.elim
  | app f args s ih =>
    obtain ⟨hf, hargs⟩ := (Term.all_app_iff f args s).mp ht
    rw [termSexp, termSexps_eq]
    split
    · exact .name hf
    · exact .applied hf (List.forall_mem_map.mpr fun t ht => ih t ht (hargs t ht))
  | builtin op args ih =>
    obtain ⟨_, hargs⟩ := (Term.all_builtin_iff op args).mp ht
    rw [termSexp, termSexps_eq]
    exact .applied (hstandard _ (isTheory_operator op))
      (List.forall_mem_map.mpr fun t ht => ih t ht (hargs t ht))
  | closed xs _ => exact ht.head.elim
  | framed xs frame _ _ => exact ht.head.elim
  | ite c t e ihc iht ihe =>
    obtain ⟨_, hc, ht, he⟩ := (Term.all_ite_iff c t e).mp ht
    rw [termSexp]
    exact .applied (hstandard "ite" rfl) (by simpa using ⟨ihc hc, iht ht, ihe he⟩)

theorem closed_equalitySexp (hstandard : p.Standard scopes) {e : Equality}
    (he : e.All (p.Refers scopes bound)) : p.Closed scopes (equalitySexp e) :=
  .applied (hstandard "=" rfl)
    (by simpa using ⟨closed_termSexp hstandard he.1, closed_termSexp hstandard he.2⟩)

theorem closed_joinedSexp (hstandard : p.Standard scopes) {operator neutral : String}
    (hoperator : isTheory operator = true) (hneutral : isTheory neutral = true) {xs : List Sexp}
    (hxs : ∀ x ∈ xs, p.Closed scopes x) : p.Closed scopes (joinedSexp operator neutral xs) := by
  match xs with
  | [] => exact hstandard.closed hneutral
  | [x] => exact hxs x (.head _)
  | _ :: _ :: _ => exact .applied (hstandard operator hoperator) hxs

theorem closed_formulaSexp (hstandard : p.Standard scopes) {φ : Formula}
    (hφ : φ.Each (p.Refers scopes bound)) : p.Closed scopes (formulaSexp φ) := by
  induction φ using Formula.ind with
  | falsified w => exact hstandard.closed rfl
  | all s es ds ih =>
    obtain ⟨hs, hes, hds⟩ := (Formula.everywhere_all_iff s es ds).mp hφ
    rw [formulaSexp, disjunctionSexps_eq]
    refine closed_joinedSexp hstandard rfl rfl (List.forall_mem_append.mpr
      ⟨List.forall_mem_map.mpr (List.forall_mem_append.mpr ⟨List.forall_mem_map.mpr ?_, ?_⟩),
        List.forall_mem_map.mpr fun d hd => ?_⟩)
    · exact fun entry hentry => closed_equalitySexp hstandard (hs entry hentry)
    · exact fun e he => closed_equalitySexp hstandard (hes e he)
    · exact closed_joinedSexp hstandard rfl rfl
        (List.forall_mem_map.mpr fun φ hφ => ih d hd φ hφ (hds d hd φ hφ))

end Problem

/-! ## The implication query -/

/-- The binders for the existential variables of a formula. -/
def bindersOf (φ : Formula) (existentials : VarSet) : List Binder :=
  (φ.vars.filter existentials.contains).map fun v => (variableName v, sortIdentifier v.sort)

/-- A formula with its existential variables quantified. -/
def goalSexp (φ : Formula) (existentials : VarSet) : Sexp :=
  if (bindersOf φ existentials).isEmpty then formulaSexp φ
  else .list [.atom "exists", .list ((bindersOf φ existentials).map binderSexp), formulaSexp φ]

/-- The names in the query for an implication stand for what was written: every name in an assertion
    stands for one thing, the names on the left for what is declared, and on the right those of the
    existential variables, and no others, for their own binders. -/
structure Problem.CaptureFree (p : Problem) (left right : Formula) (existentials : VarSet) :
    Prop where
  closed : ∀ x ∈ p.assertions, p.Closed [] x
  left : left.Each (p.Refers [] [])
  right : right.Each (p.Refers [bindersOf right existentials] existentials)

theorem gives_writeBinder {d d' : Declarations} {v : Variable} {text : String} (hd : d.Proper)
    (h : (writeBinder v).Gives d text d') :
    d.Extends d' ∧ Spells text [binderSexp (variableName v, sortIdentifier v.sort)] ∧
      d'.Knows (sortIdentifier v.sort) := by
  obtain ⟨sort, d₁, hsort, h⟩ := Writer.gives_bind h
  obtain ⟨rfl, rfl⟩ := Writer.gives_pure h
  obtain ⟨hextends, rfl, hknows⟩ := gives_writeSort hd hsort
  refine ⟨hextends, ?_, hknows⟩
  have hword : IsWord (sortIdentifier v.sort) := hextends.proper.isWord_of_knows hknows
  simpa [applied, Text.joinWith, binderSexp] using
    spells_applied (isWord_variableName v) (.cons hword.spells .nil)

/-- What a query for an implication says: it reads as the two assertions, and all that occurs in
    them is declared, but for the variables that are bound. -/
theorem read?_implicationQuery {left right : Formula} {existentials : VarSet} {query : String}
    (h : implicationQuery left right existentials = .ok query) :
    ∃ d : Declarations, d.Proper ∧
      Problem.read? query = some (d.problem
        [formulaSexp left, .list [.atom "not", goalSexp right existentials]]) ∧
      left.Each (Declared [] d) ∧
      right.Each (Declared (right.vars.filter existentials.contains) d) ∧
      ∀ b ∈ bindersOf right existentials, d.Knows b.2 := by
  obtain ⟨body, d, hbody, rfl⟩ := query_ok h
  obtain ⟨premise, d₁, hwrite₁, hbody₁⟩ := Writer.gives_bind hbody
  obtain ⟨conclusion, d₂, hwrite₂, hbody₂⟩ := Writer.gives_bind hbody₁
  obtain ⟨hd₁, hpremise, hleft⟩ := gives_writeFormula Declarations.proper_empty hwrite₁
  obtain ⟨hd₂, hconclusion, hright⟩ := gives_writeFormula hd₁.proper hwrite₂
  have hisEmpty : (bindersOf right existentials).isEmpty =
      (right.vars.filter existentials.contains).isEmpty := by rw [bindersOf, List.isEmpty_map]
  dsimp only at hbody₂
  split at hbody₂
  · rename_i hempty
    obtain ⟨rfl, rfl⟩ := Writer.gives_pure hbody₂
    refine ⟨d, hd₂.proper, ?_, each_mono hd₂ hleft, hright, ?_⟩
    · rw [goalSexp, hisEmpty, if_pos hempty]
      exact read?_query hd₂.proper hpremise hconclusion
    · rw [bindersOf, List.isEmpty_iff.mp hempty]
      nofun
  · rename_i hempty
    obtain ⟨binders, d₃, hwrite₃, hbody₃⟩ := Writer.gives_bind hbody₂
    obtain ⟨rfl, rfl⟩ := Writer.gives_pure hbody₃
    obtain ⟨hd₃, hbinders⟩ := Writer.gives_mapM
      (P := fun d v text => Spells text [binderSexp (variableName v, sortIdentifier v.sort)] ∧
        d.Knows (sortIdentifier v.sort))
      (fun h => And.imp_right (Declarations.Knows.mono h.sorts))
      (fun v _ {_ _ _} hd hv => gives_writeBinder hd hv) hd₂.proper hwrite₃
    obtain ⟨hspells, hknows⟩ := forall₂_spells_map hbinders
    have hgoal : Spells (applied "exists" ["(" ++ Text.joinWith " " binders ++ ")", conclusion])
        [goalSexp right existentials] := by
      rw [goalSexp, hisEmpty, if_neg hempty, bindersOf, List.map_map]
      exact spells_applied (.of_all rfl)
        (.cons (spells_joinWith hspells).list (.cons hconclusion .nil))
    refine ⟨d, hd₃.proper, ?_, each_mono (hd₂.trans hd₃) hleft, each_mono hd₃ hright,
      List.forall_mem_map.mpr hknows⟩
    have htext : "(exists (" ++ Text.joinWith " " binders ++ ") " ++ conclusion ++ ")" =
        applied "exists" ["(" ++ Text.joinWith " " binders ++ ")", conclusion] := by
      apply String.toList_injective
      simp [applied, Text.joinWith]
    rw [htext]
    exact read?_query hd₃.proper hpremise hgoal

/-! ## Capture -/

section

variable {d : Declarations} {φ : Formula} {existentials : VarSet} {assertions : List Sexp}

theorem referents_constant (hd : d.Proper) {v : Variable} {sort : String}
    (hmem : (variableName v, sort) ∈ d.constants) :
    (d.problem assertions).referents (variableName v) [] =
      [.declared ⟨variableName v, [], sort⟩] :=
  Problem.referents_declared (isTheory_variableName v) (hd.filter_constant hmem)

theorem referents_function (hd : d.Proper) {f : Symbol} {params : List String} {sort : String}
    (hmem : (functionName f, params, sort) ∈ d.functions) {scopes : List (List Binder)}
    (hscopes : ∀ scope ∈ scopes, ∀ b ∈ scope, ∃ w, b.1 = variableName w) :
    (d.problem assertions).referents (functionName f) scopes =
      [.declared ⟨functionName f, params, sort⟩] := by
  rw [Problem.referents_of_unbound]
  · exact Problem.referents_declared (isTheory_functionName f) (hd.filter_function hmem)
  · intro scope hscope b hb heq
    obtain ⟨w, hw⟩ := hscopes scope hscope b hb
    exact variableName_ne_functionName w f (hw.symm.trans heq)

theorem standard_problem (hd : d.Proper) {scopes : List (List Binder)}
    (hscopes : ∀ scope ∈ scopes, ∀ b ∈ scope, ∃ w, b.1 = variableName w) :
    (d.problem assertions).Standard scopes := by
  refine Problem.standard_of_names (fun f hf => hd.isTheory_name hf) fun scope hscope b hb => ?_
  obtain ⟨w, hw⟩ := hscopes scope hscope b hb
  rw [hw, isTheory_variableName]

theorem bindersOf_names (φ : Formula) (existentials : VarSet) :
    ∀ scope ∈ [bindersOf φ existentials], ∀ b ∈ scope, ∃ w, b.1 = variableName w :=
  List.forall_mem_singleton.mpr (List.forall_mem_map.mpr fun w _ => ⟨w, rfl⟩)

/-- The binders of a name are those of the existential variables of that name. -/
theorem filter_bindersOf (φ : Formula) (existentials : VarSet) (name : String) :
    (bindersOf φ existentials).filter (·.1 == name) =
      (φ.vars.filter fun w => existentials.contains w && variableName w == name).map
        fun w => (variableName w, sortIdentifier w.sort) := by
  rw [bindersOf, List.filter_map, List.filter_filter]
  simp [Bool.and_comm]

/-- Where nothing is bound, the names stand for what is declared. -/
theorem each_refers_nil (hd : d.Proper) (hφ : φ.Each (Declared [] d)) :
    φ.Each ((d.problem assertions).Refers [] []) := by
  refine Formula.Each.imp (fun t _ ht => ?_) φ.within_any hφ
  cases t with
  | var v => exact referents_constant hd (ht.resolve_left List.not_mem_nil)
  | app f args s => exact referents_function hd ht nofun
  | _ => exact ht

/-- If no other variable has the name of an existential variable, the names stand for what they
    mean. -/
theorem each_refers (hd : d.Proper) (hφ : φ.Each (Declared (φ.vars.filter existentials.contains) d))
    (hnames : ∀ v ∈ φ.vars, v ∈ existentials → ∀ w ∈ φ.vars, variableName w = variableName v →
      w = v) :
    φ.Each ((d.problem assertions).Refers [bindersOf φ existentials] existentials) := by
  have hvars := Formula.within_occurrences φ.within_any fun _ hv => hv
  refine Formula.Each.imp (fun t hwithin ht => ?_) hvars hφ
  cases t with
  | var v =>
    have hv : v ∈ φ.vars := (φ.mem_vars_iff v).mpr hwithin
    by_cases hexists : v ∈ existentials
    · -- the variables ascend strictly, so `v` binds its name just once
      have hfilter : φ.vars.filter (fun w => existentials.contains w &&
          variableName w == variableName v) = [v] := by
        refine φ.ascending_vars.filter_eq hv fun w hw => ?_
        rw [Variable.cmp_eq_iff, Bool.and_eq_true, beq_iff_eq, List.contains_iff_mem]
        refine ⟨fun h => hnames v hv hexists w hw h.2, ?_⟩
        rintro rfl
        exact ⟨hexists, rfl⟩
      rw [Problem.Refers, Problem.referents, filter_bindersOf, hfilter]
      simp [hexists]
    · have hunbound : v ∉ φ.vars.filter existentials.contains := fun hmem =>
        hexists (by simpa using (List.mem_filter.mp hmem).2)
      have hconstant := ht.resolve_left hunbound
      rw [Problem.Refers, Problem.referents_of_unbound, referents_constant hd hconstant]
      · simp [hexists]
      · -- a binder of the same name would be of `v` itself
        refine List.forall_mem_singleton.mpr (List.forall_mem_map.mpr fun w hw heq => hexists ?_)
        obtain ⟨hw, hexists⟩ := List.mem_filter.mp hw
        rw [List.contains_iff_mem] at hexists
        rwa [hnames w hw hexists v hv heq.symm]
  | app f args s => exact referents_function hd ht (bindersOf_names φ existentials)
  | _ => exact ht

/-- A variable with the name of an existential variable stands for a binder. If that is what it
    means, the two are one. -/
theorem eq_of_refers {p : Problem}
    (h : φ.Each (p.Refers [bindersOf φ existentials] existentials)) {v w : Variable}
    (hv : v ∈ φ.vars) (hexists : v ∈ existentials) (hw : w ∈ φ.vars)
    (hname : variableName w = variableName v) : w = v := by
  have hrefers := h.var hw
  rw [Problem.Refers, Problem.referents, filter_bindersOf] at hrefers
  have hmem {u : Variable} (hu : u ∈ φ.vars) (hexists : existentials.contains u = true)
      (hname : variableName w = variableName u) :
      u ∈ φ.vars.filter fun u => existentials.contains u && variableName u == variableName w := by
    rw [List.mem_filter, hexists, hname]
    simpa using hu
  have hmemv := hmem hv (by simpa using hexists) hname
  cases hfound : φ.vars.filter fun u =>
      existentials.contains u && variableName u == variableName w with
  | nil =>
    rw [hfound] at hmemv
    exact absurd hmemv List.not_mem_nil
  | cons u rest =>
    rw [hfound] at hrefers hmemv
    obtain ⟨hhead, hrest⟩ := List.cons.inj hrefers
    obtain rfl : rest = [] := by simpa using hrest
    -- were `w` a constant, its name would be hidden by the binder `u`
    have hexistsw : existentials.contains w = true := by
      by_contra hnot
      rw [if_neg hnot] at hhead
      cases hhead
    have hmemw := hmem hw hexistsw rfl
    rw [hfound] at hmemw
    rw [List.mem_singleton.mp hmemw, List.mem_singleton.mp hmemv]

/-- Where the names stand for what is meant, the assertions are closed. -/
theorem captureFree_problem (hd : d.Proper) {left right : Formula}
    (hassertions : assertions =
      [formulaSexp left, .list [.atom "not", goalSexp right existentials]])
    (hleft : left.Each ((d.problem assertions).Refers [] []))
    (hright : right.Each
      ((d.problem assertions).Refers [bindersOf right existentials] existentials))
    (hsorts : ∀ b ∈ bindersOf right existentials, d.Knows b.2) :
    (d.problem assertions).CaptureFree left right existentials := by
  have hstandard : (d.problem assertions).Standard [] := standard_problem hd nofun
  have hgoal : (d.problem assertions).Closed [] (goalSexp right existentials) := by
    rw [goalSexp]
    split
    · rename_i hempty
      rw [List.isEmpty_iff.mp hempty] at hright
      have hright : right.Each ((d.problem assertions).Refers [] existentials) :=
        Formula.Each.imp (fun t _ ht => by cases t <;> exact ht) right.within_any hright
      exact Problem.closed_formulaSexp hstandard hright
    · exact .quantifier (fun b hb => hd.count_sort (hsorts b hb) assertions)
        (Problem.closed_formulaSexp (standard_problem hd (bindersOf_names right existentials))
          hright)
  have hnot : (d.problem assertions).Closed [] (.list [.atom "not", goalSexp right existentials]) :=
    .applied (hstandard "not" rfl) (List.forall_mem_singleton.mpr hgoal)
  subst hassertions
  exact ⟨List.forall_mem_cons.mpr ⟨Problem.closed_formulaSexp hstandard hleft,
    List.forall_mem_singleton.mpr hnot⟩, hleft, hright⟩

end

/-- **The query for an implication is free of capture just where no other variable on the right has
    the name of an existential variable.** A query that is written is read as a problem that asserts
    the left side and denies the quantified right side. If different names of variables on the right
    are written differently, then every name in the assertions stands for one thing and for what was
    meant if and only if each existential variable on the right is the only one of its name there.
    Otherwise the binder captures the other variable: that an identifier stands at one sort is
    checked where constants are declared, and not where variables are bound. -/
theorem implicationQuery_captureFree_iff {left right : Formula} {existentials : VarSet}
    {query : String} (h : implicationQuery left right existentials = .ok query)
    (hmangle : ∀ v ∈ right.vars, ∀ w ∈ right.vars, variableName v = variableName w →
      v.name = w.name) :
    ∃ p, Problem.read? query = some p ∧
      p.assertions = [formulaSexp left, .list [.atom "not", goalSexp right existentials]] ∧
      (p.CaptureFree left right existentials ↔
        ∀ v ∈ right.vars, v ∈ existentials → ∀ w ∈ right.vars, w.name = v.name → w = v) := by
  obtain ⟨d, hd, hread, hleft, hright, hsorts⟩ := read?_implicationQuery h
  refine ⟨_, hread, rfl, fun hfree v hv hexists w hw hname => ?_, fun hnames => ?_⟩
  · exact eq_of_refers hfree.right hv hexists hw (by rw [variableName, variableName, hname])
  · refine captureFree_problem hd rfl (each_refers_nil hd hleft) (each_refers hd hright ?_) hsorts
    exact fun v hv hexists w hw hname => hnames v hv hexists w hw (hmangle w hw v hv hname)

/-! ## Queries with bound variables -/

namespace Shadowed

def x : Variable := ⟨"X", .int⟩

def z : Variable := ⟨"Z", .int⟩

/-- `Y` at the sorts `A` and `B` -/
def y (sort : String) : Variable := ⟨"Y", ⟨sort⟩⟩

/-- `f(X)` -/
def f : Term := .app ⟨"f", .function, [⟨[.int], .int⟩]⟩ [.var x] .int

/-- `f(X) = 1` -/
def left : Formula := .ofEqualities [⟨f, .int 1⟩]

/-- `Z = f(X)` -/
def right : Formula := .ofEqualities [⟨.var z, f⟩]

/-- `Y = Y`, at two sorts -/
def same : Formula := .ofEqualities [⟨.var (y "B"), .var (y "A")⟩]

def query : String :=
  "(declare-fun v_X () Int)\n(declare-fun f_f (Int) Int)\n(assert (= (f_f v_X) 1))\n" ++
    "(assert (not (exists ((v_Z Int)) (= v_Z (f_f v_X)))))\n(check-sat)\n"

/-- A variable that is alone with its name is bound without capture. -/
theorem captureFree_query :
    implicationQuery left right [z] = .ok query ∧
      ∃ p, Problem.read? query = some p ∧ p.CaptureFree left right [z] := by
  have hquery : implicationQuery left right [z] = .ok query := rfl
  have hvars : right.vars = [x, z] := by cbv
  obtain ⟨p, hread, _, hiff⟩ := implicationQuery_captureFree_iff hquery (by
    rw [hvars]
    decide)
  refine ⟨hquery, p, hread, hiff.mpr ?_⟩
  rw [hvars]
  decide

def captured : String :=
  "(declare-sort S_A 0)\n(declare-sort S_B 0)\n(declare-fun v_Y () S_A)\n(assert true)\n" ++
    "(assert (not (exists ((v_Y S_B)) (= v_Y v_Y))))\n(check-sat)\n"

def twofold : String :=
  "(declare-sort S_A 0)\n(declare-sort S_B 0)\n(assert true)\n" ++
    "(assert (not (exists ((v_Y S_A) (v_Y S_B)) (= v_Y v_Y))))\n(check-sat)\n"

theorem not_captureFree_same {p : Problem} {existentials : VarSet}
    (hexists : y "B" ∈ existentials) : ¬p.CaptureFree .top same existentials := by
  intro hfree
  have heq : y "A" = y "B" := eq_of_refers hfree.right (by decide) hexists (by decide) rfl
  exact absurd heq (by decide)

/-- `Y` at the sort `A` is not existential, and stands for the binder of `Y` at the sort `B`; and of
    two binders of one name it cannot be told which one is meant. -/
theorem binder_captures :
    (implicationQuery .top same [y "B"] = .ok captured ∧
      ∃ p, Problem.read? captured = some p ∧
        p.referents (variableName (y "A")) [bindersOf same [y "B"]] =
          [.bound (variableName (y "B"), sortIdentifier ⟨"B"⟩)] ∧
        ¬p.CaptureFree .top same [y "B"]) ∧
    implicationQuery .top same [y "A", y "B"] = .ok twofold ∧
      ∃ p, Problem.read? twofold = some p ∧
        (p.referents (variableName (y "A")) [bindersOf same [y "A", y "B"]]).length = 2 ∧
        ¬p.CaptureFree .top same [y "A", y "B"] := by
  have hcaptured : implicationQuery .top same [y "B"] = .ok captured := rfl
  have htwofold : implicationQuery .top same [y "A", y "B"] = .ok twofold := rfl
  obtain ⟨d, _, hread, _⟩ := read?_implicationQuery hcaptured
  obtain ⟨d', _, hread', _⟩ := read?_implicationQuery htwofold
  exact ⟨⟨hcaptured, _, hread, rfl, not_captureFree_same (.head _)⟩,
    htwofold, _, hread', rfl, not_captureFree_same (.tail _ (.head _))⟩

end Shadowed

end Smt

end Entail
