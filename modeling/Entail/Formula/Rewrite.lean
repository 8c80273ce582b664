import Entail.Formula.Facts

set_option autoImplicit false

/-! # Rewriting formulas

Functions that give a formula in another form: substituting into it, removing parts of it, turning
bindings around, and taking applications of injective symbols apart. -/

namespace Entail

namespace Formula

/-! ## Substitution -/

mutual

/-- Substitute into every part of a formula and evaluate it. Its own bindings come back as
    equalities. -/
def rewrite (voc : Vocabulary) (facts : Facts) (f : Variable → Option Term) : Formula → Formula
  | .falsified w => .falsified w
  | .all s es ds =>
    (top.addEqualities ((s.equalities ++ es).map (Equality.rewrite voc facts f))).addDisjunctions
      (rewriteDisjunctions voc facts f ds)
termination_by structural φ => φ

def rewriteDisjunctions (voc : Vocabulary) (facts : Facts) (f : Variable → Option Term) :
    List (List Formula) → List (List Formula)
  | [] => []
  | d :: ds =>
    Disjunction.ofList (rewriteAlternatives voc facts f d) :: rewriteDisjunctions voc facts f ds
termination_by structural ds => ds

def rewriteAlternatives (voc : Vocabulary) (facts : Facts) (f : Variable → Option Term) :
    List Formula → List Formula
  | [] => []
  | φ :: φs => φ.rewrite voc facts f :: rewriteAlternatives voc facts f φs
termination_by structural φs => φs

end

end Formula

/-- Substitute into every alternative of a disjunction. -/
def Disjunction.rewrite (voc : Vocabulary) (facts : Facts) (f : Variable → Option Term)
    (d : Disjunction) : Disjunction :=
  Disjunction.ofList (Formula.rewriteAlternatives voc facts f d)

namespace Formula

/-! ## Removing parts -/

/-- Drop the binding of `lhs` if it is a variable bound to `rhs`. -/
def unbind (s : Substitution) (lhs rhs : Term) : Substitution :=
  match lhs with
  | .var v => if bindsTo s lhs rhs then s.minus v else s
  | _ => s

/-- Remove an equality, in either orientation, from the equalities and the bindings. -/
def minus (φ : Formula) (e : Equality) : Formula :=
  match φ with
  | .falsified w => .falsified w
  | .all s es ds =>
    .all (unbind (unbind s e.lhs e.rhs) e.rhs e.lhs)
      (Sorted.erase Equality.cmp e.reversed (Sorted.erase Equality.cmp e es)) ds

/-- Drop the bindings of some variables. -/
def removeBindings (φ : Formula) (vars : VarSet) : Formula :=
  match φ with
  | .falsified w => .falsified w
  | .all s es ds => .all (s.minusAll vars) es ds

/-- What `ψ` states beyond `φ`: the bindings, equalities and disjunctions that `φ` does not
    contain. -/
def without (φ ψ : Formula) : Formula :=
  match ψ with
  | .falsified w => .falsified w
  | .all s es ds =>
    .all ⟨s.entries.filter fun (v, t) => !φ.containsEquality ⟨.var v, t⟩⟩
      (es.filter fun e => !φ.containsEquality e)
      (ds.filter fun d => !Sorted.contains Disjunction.cmp d φ.disjunctions)

/-! ## Turning bindings around -/

/-- For every variable of `vars` to which a variable outside `vars` is bound, the first such
    variable. -/
def turnable (vars : VarSet) (s : Substitution) : Substitution :=
  s.entries.foldl (fun turned (key, value) =>
    match value with
    | .var v =>
      if !vars.contains key && vars.contains v && !turned.contains v then
        turned.put v (.var key)
      else turned
    | _ => turned) .empty

/-- A binding turned around if it is one of `turned`, and otherwise renamed by them. -/
def turnBinding (voc : Vocabulary) (facts : Facts) (turned : Substitution)
    (entry : Variable × Term) : Variable × Term :=
  match entry.2 with
  | .var v =>
    if turned.get? v == some (.var entry.1) then (v, .var entry.1)
    else (entry.1, entry.2.rewrite voc facts turned.get?)
  | _ => (entry.1, entry.2.rewrite voc facts turned.get?)

/-- Turn bindings `x ↦ y`, with `y` in `vars` and `x` outside, into `y ↦ x` and rename `y` to `x`
    everywhere else, so that variables of `vars` are bound wherever that is possible. -/
def orient (voc : Vocabulary) (facts : Facts) (φ : Formula) (vars : VarSet) : Formula :=
  match φ with
  | .falsified w => .falsified w
  | .all s es ds =>
    let turned := turnable vars s
    if turned.isEmpty then .all s es ds
    else
      ((top.addBindings (s.entries.map (turnBinding voc facts turned))).addEqualities
        (es.map (Equality.rewrite voc facts turned.get?))).addDisjunctions
        (ds.map (Disjunction.rewrite voc facts turned.get?))

/-! ## Injective symbols -/

mutual

/-- Add `lhs = rhs`; for two applications of one named symbol to equally many arguments, add the
    equations of the arguments instead, the last ones first. -/
def addResolved (names : List String) : Term → Term → Formula → Formula
  | .app f xs s, .app g ys s', φ =>
    if f.same g && xs.length == ys.length && names.contains f.name then
      addResolvedAll names xs ys φ
    else φ.addTerms (.app f xs s) (.app g ys s')
  | t, u, φ => φ.addTerms t u
termination_by structural t => t

def addResolvedAll (names : List String) : List Term → List Term → Formula → Formula
  | x :: xs, y :: ys, φ => addResolved names x y (addResolvedAll names xs ys φ)
  | _, _, φ => φ
termination_by structural xs => xs

end

/-- Take the named symbols as injective: equations between their applications become equations
    between the arguments, repeatedly. The last equality is taken up first. -/
def resolve (φ : Formula) (names : List String) : Formula :=
  match φ with
  | .falsified w => .falsified w
  | .all s es ds => es.foldr (fun e φ => addResolved names e.lhs e.rhs φ) (.all s [] ds)

end Formula

end Entail
