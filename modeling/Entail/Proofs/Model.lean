import Entail.Proofs.Algebra
import Entail.Proofs.Lattice
import Entail.Simplify.Step

set_option autoImplicit false

/-! # Models

A model says which values belong to which sorts. The conditions on models are those that the
subsort order and the signatures of symbols are meant to express. From them follows what
simplification relies on: no value is lost when a variable is replaced by one of the greatest common
subsort, or the arguments of an overloaded constructor are narrowed. -/

namespace Entail

namespace Step

/-- What is known of the sorts to which arguments are narrowed. -/
theorem narrowedSorts_spec {voc : Vocabulary} {target : SortName} {f : Symbol}
    {args sorts : List SortName} (h : narrowedSorts? voc target f args = some sorts) :
    ∃ sig, (voc.possibleSignatures f args).filter (fun sig =>
        voc.lattice.isSubsortEq target sig.result) = [sig] ∧
      sig ∈ f.signatures ∧ sig.params.length = args.length ∧
      glbs? voc.lattice (sig.params.zip args) = some sorts ∧
      voc.lattice.isSubsortEq target (voc.leastSort f sorts) = true := by
  unfold narrowedSorts? at h
  split at h
  · rename_i sig hsig
    split at h
    · rename_i sorts' hglbs
      split at h
      · rename_i hbelow
        obtain rfl := Option.some.inj h
        have hmem : sig ∈ (voc.possibleSignatures f args).filter fun sig =>
            voc.lattice.isSubsortEq target sig.result := by
          rw [hsig]
          exact List.mem_singleton.mpr rfl
        rw [List.mem_filter, Vocabulary.possibleSignatures, List.mem_filter, Bool.and_eq_true,
          beq_iff_eq] at hmem
        exact ⟨sig, hsig, hmem.1.1, hmem.1.2.1, hglbs, hbelow⟩
      · exact absurd h nofun
    · exact absurd h nofun
  · exact absurd h nofun

/-- Greatest lower bounds are taken position by position. -/
theorem forall_glbs {l : SortLattice} {pairs : List (SortName × SortName)} {sorts : List SortName}
    (h : glbs? l pairs = some sorts) :
    List.Forall₂ (fun pair s => l.glb pair.1 pair.2 = some s) pairs sorts := by
  induction pairs generalizing sorts with
  | nil =>
    obtain rfl := Option.some.inj h
    exact List.Forall₂.nil
  | cons pair pairs ih =>
    rw [glbs?] at h
    split at h
    · rename_i s hs
      obtain ⟨rest, hrest, rfl⟩ := Option.map_eq_some_iff.mp h
      exact List.Forall₂.cons hs (ih hrest)
    · exact absurd h nofun

end Step

variable {V : Type}

/-- Values and the sorts they belong to. -/
structure Model (V : Type) extends Algebra V where
  mem : SortName → V → Prop

namespace Model

variable (M : Model V)

/-- The values of the variables of `X` have their sorts. -/
def Respects (X : Variable → Prop) (ρ : Variable → V) : Prop :=
  ∀ v, X v → M.mem v.sort (ρ v)

/-- The top sort has every value, a subsort has fewer, and two sorts share a value only inside a
    common subsort. -/
structure Ordered (l : SortLattice) : Prop where
  top : ∀ v, M.mem .k v
  mono : ∀ a b v, l.isSubsortEq a b = true → M.mem b v → M.mem a v
  meet : ∀ a b v, M.mem a v → M.mem b v →
    ∃ s, l.isSubsortEq a s = true ∧ l.isSubsortEq b s = true ∧ M.mem s v

/-- Tokens and lists have their sorts, and an application of a symbol of `Q` has the least sort for
    the sorts of its arguments. -/
structure Sorted (voc : Vocabulary) (Q : Symbol → Prop) : Prop where
  bool : ∀ b, M.mem .bool (M.bool b)
  int : ∀ n, M.mem .int (M.int n)
  str : ∀ s, M.mem .string (M.str s)
  nil : M.mem .list M.nil
  cons : ∀ v tail, M.mem .list (M.cons v tail)
  app : ∀ f, Q f → ∀ sorts vs, List.Forall₂ M.mem sorts vs →
    M.mem (voc.leastSort f sorts) (M.apply f vs)

/-- An application of an overloaded constructor of `Q` is in a sort only because the sorts of its
    arguments make it so. -/
def Tight (voc : Vocabulary) (Q : Symbol → Prop) : Prop :=
  ∀ f, Q f → f.isConstructor = true → f.isOverloaded = true → ∀ s vs, M.mem s (M.apply f vs) →
    ∃ sorts, List.Forall₂ M.mem sorts vs ∧
      voc.lattice.isSubsortEq s (voc.leastSort f sorts) = true

/-- Replacing sorts of `D` by greatest lower bounds loses no values. -/
structure Lossless (voc : Vocabulary) (Q : Symbol → Prop) (D : SortName → Prop) : Prop where
  glb : ∀ a b g, D a → D b → voc.lattice.glb a b = some g →
    D g ∧ ∀ v, M.mem a v → M.mem b v → M.mem g v
  apart : ∀ a b v, D a → D b → M.mem a v → M.mem b v →
    voc.lattice.haveCommonSubsort a b = true
  narrow : ∀ f target args sorts, Q f → f.isConstructor = true → f.isOverloaded = true →
    (∀ a ∈ args, D a) → voc.lattice.isSubsortEq target (voc.leastSort f args) = false →
    Step.narrowedSorts? voc target f args = some sorts →
    (∀ s ∈ sorts, D s) ∧ ∀ vs, List.Forall₂ M.mem args vs → M.mem target (M.apply f vs) →
      List.Forall₂ M.mem sorts vs

variable {M} {voc : Vocabulary} {Q : Symbol → Prop}

/-- The values that two lists of sorts have in common are in the greatest lower bounds. -/
theorem glbs_spec {D : SortName → Prop} {l : SortLattice}
    (hglb : ∀ a b g, D a → D b → l.glb a b = some g → D g ∧ ∀ v, M.mem a v → M.mem b v → M.mem g v)
    {params args sorts : List SortName} (hparams : ∀ p ∈ params, D p) (hargs : ∀ a ∈ args, D a)
    (hlen : params.length = args.length) (h : Step.glbs? l (params.zip args) = some sorts) :
    (∀ s ∈ sorts, D s) ∧ ∀ vs, List.Forall₂ M.mem params vs → List.Forall₂ M.mem args vs →
      List.Forall₂ M.mem sorts vs := by
  induction params generalizing args sorts with
  | nil =>
    obtain rfl := Option.some.inj h
    exact ⟨nofun, fun vs hvs _ => hvs⟩
  | cons p params ih =>
    cases args with
    | nil => exact absurd hlen nofun
    | cons a args =>
      rw [List.forall_mem_cons] at hparams hargs
      rw [List.zip_cons_cons, Step.glbs?] at h
      split at h
      · rename_i g hg
        obtain ⟨rest, hrest, rfl⟩ := Option.map_eq_some_iff.mp h
        obtain ⟨hD, hmem⟩ := hglb p a g hparams.1 hargs.1 hg
        obtain ⟨hDs, hmems⟩ := ih hparams.2 hargs.2 (Nat.succ.inj hlen) hrest
        refine ⟨List.forall_mem_cons.mpr ⟨hD, hDs⟩, fun vs hps has => ?_⟩
        obtain ⟨v, vs, hp, hps', rfl⟩ := List.forall₂_cons_left_iff.mp hps
        obtain ⟨ha, has⟩ := List.forall₂_cons.mp has
        exact List.Forall₂.cons (hmem v hp ha) (hmems vs hps' has)
      · exact absurd h nofun

theorem Ordered.mem_params {l : SortLattice} (hM : M.Ordered l) {params sorts : List SortName}
    {vs : List V} (h : List.Forall₂ (fun p a => l.isSubsortEq p a = true) params sorts)
    (hvs : List.Forall₂ M.mem sorts vs) : List.Forall₂ M.mem params vs := by
  induction h generalizing vs with
  | nil => exact hvs
  | cons hpa _ ih =>
    obtain ⟨v, vs, hv, hrest, rfl⟩ := List.forall₂_cons_left_iff.mp hvs
    exact List.Forall₂.cons (hM.mono _ _ v hpa hv) (ih hrest)

/-- Sorts that hold the same values have common subsorts, position by position. -/
theorem zip_apart {D : SortName → Prop} {l : SortLattice}
    (hapart : ∀ a b v, D a → D b → M.mem a v → M.mem b v → l.haveCommonSubsort a b = true)
    {params args : List SortName} (hparams : ∀ p ∈ params, D p) (hargs : ∀ a ∈ args, D a)
    {vs : List V} (hps : List.Forall₂ M.mem params vs) (has : List.Forall₂ M.mem args vs) :
    (params.zip args).all (fun (p, a) => l.haveCommonSubsort p a) = true := by
  induction hps generalizing args with
  | nil => rfl
  | cons hp hps ih =>
    obtain ⟨a, args, ha, hrest, rfl⟩ := List.forall₂_cons_right_iff.mp has
    rw [List.forall_mem_cons] at hparams hargs
    rw [List.zip_cons_cons, List.all_cons, Bool.and_eq_true]
    exact ⟨hapart _ _ _ hparams.1 hargs.1 hp ha, ih hparams.2 hargs.2 hrest⟩

/-- If other argument sorts bring an application into a sort, one of the signatures does. -/
theorem tight_signature (hl : voc.lattice.Closed) (hacyclic : voc.lattice.Acyclic)
    {f : Symbol} {target : SortName} {args sorts : List SortName}
    (htarget : voc.lattice.isSubsortEq target (voc.leastSort f args) = false)
    (h : voc.lattice.isSubsortEq target (voc.leastSort f sorts) = true) :
    ∃ sig ∈ f.signatures, voc.accepts sig.params sorts = true ∧
      voc.lattice.isSubsortEq target sig.result = true := by
  rcases voc.leastSort_cases f sorts with ⟨sig, hsig, haccepts, heq⟩ | ⟨_, heq⟩
  · exact ⟨sig, hsig, haccepts, heq ▸ h⟩
  · exfalso
    have hbelow : voc.lattice.isSubsortEq target (voc.leastSort f args) = true := by
      rw [heq] at h
      rcases voc.leastSort_cases f args with ⟨sig, hsig, _, heq'⟩ | ⟨_, heq'⟩
      · rw [heq']
        cases hgreatest : voc.greatestOf? (f.signatures.map (·.result)) with
        | none =>
          rw [hgreatest, Option.getD_none] at h
          exact hacyclic.trans hl h ((voc.lattice.isSubsortEq_iff .k _).mpr (Or.inr (Or.inl rfl)))
        | some s =>
          rw [hgreatest, Option.getD_some] at h
          have hall := List.find?_some hgreatest
          rw [List.all_eq_true] at hall
          exact hacyclic.trans hl h (hall sig.result (List.mem_map_of_mem hsig))
      · rw [heq']
        exact h
    rw [hbelow] at htarget
    exact absurd htarget nofun

/-- In an ordered model whose overloaded constructors are tight, nothing is lost over the known
    sorts. -/
theorem Ordered.lossless (hl : voc.lattice.Closed) (hacyclic : voc.lattice.Acyclic)
    (hM : M.Ordered voc.lattice) (htight : M.Tight voc Q) (hQ : ∀ f, Q f → voc.Knows f) :
    M.Lossless voc Q voc.lattice.Known := by
  have hglb : ∀ a b g, voc.lattice.Known a → voc.lattice.Known b →
      voc.lattice.glb a b = some g →
        voc.lattice.Known g ∧ ∀ v, M.mem a v → M.mem b v → M.mem g v := by
    intro a b g ha hb hg
    obtain ⟨hknown, habove⟩ := hacyclic.glb_spec hl ha hb hg
    refine ⟨hknown, fun v hav hbv => ?_⟩
    obtain ⟨s, has, hbs, hsv⟩ := hM.meet a b v hav hbv
    exact hM.mono g s v (habove s has hbs) hsv
  have hapart : ∀ a b v, voc.lattice.Known a → voc.lattice.Known b → M.mem a v → M.mem b v →
      voc.lattice.haveCommonSubsort a b = true := by
    intro a b v ha hb hav hbv
    obtain ⟨s, has, hbs, _⟩ := hM.meet a b v hav hbv
    exact hl.exists_common ha hb has hbs
  refine ⟨hglb, hapart, ?_⟩
  intro f target args sorts hf hconstructor hoverloaded hargs htarget hsorts
  obtain ⟨sig, hsig, hsigMem, hlen, hglbs, _⟩ := Step.narrowedSorts_spec hsorts
  obtain ⟨hDs, hmems⟩ := glbs_spec hglb (hQ f hf sig hsigMem).1 hargs hlen hglbs
  refine ⟨hDs, fun vs hvs htargetMem => hmems vs ?_ hvs⟩
  -- the signature that puts the value into the target is the only possible one
  obtain ⟨sorts'', hsorts'', hbelow⟩ := htight f hf hconstructor hoverloaded target vs htargetMem
  obtain ⟨sig', hsig', haccepts, hresult⟩ := tight_signature hl hacyclic htarget hbelow
  have hparams := hM.mem_params ((voc.accepts_iff _ _).mp haccepts) hsorts''
  have honly : sig' ∈ (voc.possibleSignatures f args).filter fun sig =>
      voc.lattice.isSubsortEq target sig.result := by
    refine List.mem_filter.mpr ⟨List.mem_filter.mpr ⟨hsig', ?_⟩, hresult⟩
    rw [Bool.and_eq_true, beq_iff_eq, hparams.length_eq, hvs.length_eq]
    exact ⟨rfl, zip_apart hapart (hQ f hf sig' hsig').1 hargs hparams hvs⟩
  rw [hsig, List.mem_singleton] at honly
  exact honly ▸ hparams

end Model

end Entail
