import Entail.Proofs.Applied
import Entail.Proofs.Counting
import Entail.Proofs.Ranks

set_option autoImplicit false

/-! # Simplification ends

Each step brings a worklist nearer to its end, but for those that introduce new variables. The
equalities that come with new variables are the next to be looked at, and each of them is worked off
in a step or two: what is left then has new variables only in the place of old ones of higher rank,
or one for one of the same rank. -/

namespace Entail

namespace SortLattice

/-- Greatest lower bounds with parameters stand for arguments, position by position. -/
theorem Closed.forall_under {l : SortLattice} (hclosed : l.Closed) (hfounded : l.Founded)
    {params args sorts : List SortName} (hlen : params.length = args.length)
    (h : List.Forall₂ (fun pair s => l.glb pair.1 pair.2 = some s) (params.zip args) sorts) :
    List.Forall₂ l.Under args sorts := by
  induction params generalizing args sorts with
  | nil =>
    obtain rfl := List.length_eq_zero_iff.mp hlen.symm
    cases h
    exact List.Forall₂.nil
  | cons p params ih =>
    cases args with
    | nil => exact absurd hlen nofun
    | cons a args =>
      rw [List.zip_cons_cons] at h
      obtain ⟨s, sorts, hs, hrest, rfl⟩ := List.forall₂_cons_left_iff.mp h
      exact List.Forall₂.cons (under_glb hclosed hfounded hs)
        (ih (Nat.succ.inj hlen) hrest)

end SortLattice

namespace Term

/-- What evaluation makes of an application of variables that it leaves alone. -/
theorem evaluate_app_vars (voc : Vocabulary) {facts : Facts} (f : Symbol) {vars : List Variable}
    (s : SortName) (hvars : ∀ x ∈ vars, facts.decide (.var x) = .var x) :
    ((Term.app f (vars.map .var) s).evaluate voc facts).isVar = false ∧
      ((Term.app f (vars.map .var) s).evaluate voc facts).sort =
        voc.leastSort f (vars.map (·.sort)) := by
  have hargs : (vars.map Term.var).map (Term.evaluate voc facts) = vars.map .var := by
    rw [List.map_map]
    exact List.map_congr_left fun x hx => hvars x hx
  have hsort : (voc.apply f (vars.map .var)).sort = voc.leastSort f (vars.map (·.sort)) := by
    rw [Vocabulary.apply, Term.sort, List.map_map]
    rfl
  rw [Term.evaluate, Term.evaluateAll_eq, hargs, ← hsort, Facts.decide]
  split
  · exact ⟨rfl, rfl⟩
  · rename_i hbool
    rw [Bool.or_eq_true, not_or, Bool.not_eq_true', Bool.not_eq_false] at hbool
    split
    · refine ⟨rfl, ?_⟩
      have hname : (voc.apply f (vars.map .var)).sort = .bool := by
        simpa [SortName.isBool] using hbool.2
      rw [hname]
      rfl
    · exact ⟨rfl, rfl⟩

end Term

namespace Worklist

variable {voc : Vocabulary} {mode : SimplifyMode} {w w' : Worklist} {e : Equality}
  {rest : List Equality}

/-! ## Worklists in order -/

/-- The worklist is in order, whatever its variables and symbols. -/
def Orderly (w : Worklist) : Prop := ∃ X, w.Good X fun _ => True

theorem Orderly.next (hw : w.Orderly) (h : w.Leads voc Unifier.structural mode w') :
    w'.Orderly := by
  obtain ⟨X, hw⟩ := hw
  exact ⟨_, (hw.next h).2⟩

theorem Orderly.resolved (hw : w.Orderly) : w.bindings.Resolved := by
  obtain ⟨X, hw⟩ := hw
  exact hw.resolved

/-- The name of a variable that is bound, occurs in an equality or is live is taken. -/
theorem Orderly.taken (hw : w.Orderly) {v : Variable}
    (h : w.bindings.Binds v ∨ (∃ e ∈ w.stated, v ∈ e.occurrences) ∨ v ∈ w.live) :
    v.name ∈ w.fresh.taken := by
  obtain ⟨X, hw⟩ := hw
  have stated {e : Equality} (he : e ∈ w.stated) {v : Variable} (hv : v ∈ e.occurrences) : X v := by
    have hall : e.All (Term.WithinHead X fun _ => True) := by
      rcases List.mem_append.mp he with he | he
      · exact hw.each.visited e he
      · exact hw.each.pending e he
    rcases List.mem_append.mp hv with hv | hv
    · exact Term.Within.occurrences hall.1 v hv
    · exact Term.Within.occurrences hall.2 v hv
  refine hw.names v ?_
  rcases h with ⟨entry, hentry, rfl⟩ | ⟨e, he, hv⟩ | hlive
  · exact (hw.each.bindings entry hentry).1
  · exact stated he hv
  · obtain ⟨e, he, u, hu, hv⟩ := mem_live_iff.mp hlive
    by_cases hbound : w.bindings.Binds u
    · obtain ⟨entry, hentry, rfl⟩ := hbound
      rw [hw.resolved.image_of_mem hentry] at hv
      exact Term.Within.occurrences (hw.each.bindings entry hentry).2 v hv
    · rw [Substitution.image_of_not_binds hbound] at hv
      rw [List.mem_singleton.mp hv]
      exact stated he hu

/-- A variable with a free name is nowhere. -/
theorem Orderly.absent (hw : w.Orderly) (hpending : w.pending = e :: rest) {z : Variable}
    (hname : z.name ∉ w.fresh.taken) :
    ¬w.bindings.Binds z ∧ z ∉ w.live ∧ ∀ e' ∈ w.visited ++ rest, z ∉ e'.occurrences := by
  refine ⟨fun hmem => hname (hw.taken (Or.inl hmem)),
    fun hmem => hname (hw.taken (Or.inr (Or.inr hmem))), fun e' he' hmem =>
      hname (hw.taken (Or.inr (Or.inl ⟨e', ?_, hmem⟩)))⟩
  rw [stated_of_pending hpending]
  rcases List.mem_append.mp he' with he' | he'
  · exact List.mem_append_left _ he'
  · exact List.mem_append_right _ (List.mem_cons_of_mem _ he')

/-! ## One step -/

/-- A step on an equality carries out what was decided about it. -/
theorem leads_cons (hpending : w.pending = e :: rest)
    (h : w.Leads voc Unifier.structural mode w') :
    ∃ step, Step.classify voc Unifier.structural mode w.fresh (w.looked voc e rest) = .ok step ∧
      w.apply voc rest step = .ok w' := by
  rcases next_inl_cases h with ⟨hnone, _⟩ | ⟨e', rest', hsome, hvisit⟩
  · rw [hnone] at hpending
    exact absurd hpending nofun
  · rw [hsome] at hpending
    obtain ⟨rfl, rfl⟩ := List.cons.inj hpending
    exact step_of_visit hvisit

/-- `w'` is `w` with a variable bound to another one instead of the first pending equality. -/
structure Eliminates (w w' : Worklist) (rest : List Equality) (v z : Variable) : Prop where
  visited : w'.visited = w.visited
  pending : w'.pending = rest
  disjunctions : w'.disjunctions = w.disjunctions
  fresh : w'.fresh = w.fresh
  live : w'.live ⊆ w.live.erase v
  image : ∀ u b, w.bindings.image u = .var b →
    w'.bindings.image u = .var (if b = v then z else b)
  binds : ∀ u, w'.bindings.Binds u ↔ u = v ∨ w.bindings.Binds u

theorem eliminates_of_apply (hw : w.bindings.Resolved) (hpending : w.pending = e :: rest)
    {v z : Variable} (hne : v ≠ z) (hv : ¬w.bindings.Binds v) (hz : ¬w.bindings.Binds z)
    (hlive : z ∈ w.live) (h : w.apply voc rest (.bind v (.var z)) = .ok w') :
    Eliminates w w' rest v z := by
  obtain ⟨s, hs, rfl⟩ := apply_bind h
  have hvz : v ∉ (Term.var z).occurrences := fun hmem => hne (List.mem_singleton.mp hmem)
  have hzb : ∀ x ∈ (Term.var z).occurrences, ¬w.bindings.Binds x := fun x hx =>
    List.mem_singleton.mp hx ▸ hz
  refine ⟨rfl, rfl, rfl, rfl, ?_, fun u b hu => ?_, (Substitution.compose_spec hw hv hvz hzb hs).2.1⟩
  · refine live_bind hw hpending ⟨hv, hvz, hzb⟩ (fun x hx => ?_) hs rfl rfl
    rw [List.mem_singleton.mp hx]
    exact hlive
  · exact Substitution.image_compose_var hw hv hne hz hs hu

/-! ## Ending -/

/-- No run from here goes on for ever. -/
def Ends (voc : Vocabulary) (mode : SimplifyMode) (w : Worklist) : Prop :=
  Acc (fun w' w => w.Leads voc Unifier.structural mode w') w

/-- Two variables that both equal one of a smaller sort are bound to it, one after the other. -/
theorem ends_common (hw : w.Orderly) {x y g : Variable}
    (hpending : w.pending = ⟨.var x, .var g⟩ :: ⟨.var y, .var g⟩ :: rest)
    (hdistinct : x ≠ y ∧ x ≠ g ∧ y ≠ g)
    (hunbound : ∀ u, u = x ∨ u = y ∨ u = g → ¬w.bindings.Binds u ∧
      Facts.Silent (w.visited ++ rest) u)
    (hx : voc.lattice.isSubsortEq x.sort g.sort = true ∧ x.sort ≠ g.sort)
    (hy : voc.lattice.isSubsortEq y.sort g.sort = true ∧ y.sort ≠ g.sort)
    (hend : ∀ w₁ w₂, Eliminates w w₁ (⟨.var y, .var g⟩ :: rest) x g → Eliminates w₁ w₂ rest y g →
      w₂.Orderly → Ends voc mode w₂) : Ends voc mode w := by
  obtain ⟨hxy, hxg, hyg⟩ := hdistinct
  have bound {u : Variable} (hu : voc.lattice.isSubsortEq u.sort g.sort = true ∧ u.sort ≠ g.sort)
      {names : FreshNames} {e : Equality} :
      Step.bindVariables voc names u g e = .bind u (.var g) := by
    rcases Step.bindVariables_cases voc names u g e with h | ⟨_, hnot, _⟩ | ⟨hnot, _⟩
    · exact h.2
    · rw [hnot hu.2] at hu
      exact absurd hu.1 nofun
    · rw [hnot] at hu
      exact absurd hu.1 nofun
  have side {w : Worklist} {u : Variable} {rest : List Equality} (hug : u ≠ g) (hw : w.Orderly)
      (hpending : w.pending = ⟨.var u, .var g⟩ :: rest) (hu : ¬w.bindings.Binds u)
      (hg : ¬w.bindings.Binds g) (huSilent : Facts.Silent (w.visited ++ rest) u)
      (hgSilent : Facts.Silent (w.visited ++ rest) g)
      (hsort : voc.lattice.isSubsortEq u.sort g.sort = true ∧ u.sort ≠ g.sort)
      (hend : ∀ w', Eliminates w w' rest u g → w'.Orderly → Ends voc mode w') :
      Ends voc mode w := by
    refine Acc.intro w fun w' hleads => ?_
    have hlooked : w.looked voc ⟨.var u, .var g⟩ rest = ⟨.var u, .var g⟩ :=
      looked_vars (Substitution.image_of_not_binds hu) hu hg huSilent hgSilent
    have hoccurs : g ∈ (w.looked voc ⟨.var u, .var g⟩ rest).occurrences := by
      rw [hlooked]
      exact List.mem_append_right _ (List.mem_singleton.mpr rfl)
    have hglive : g ∈ w.live := (mem_looked voc hw.resolved hpending hoccurs).1
    obtain ⟨step, hstep, happly⟩ := leads_cons hpending hleads
    rw [hlooked] at hstep
    rw [Step.classify_vars hug hstep, bound hsort] at happly
    exact hend w' (eliminates_of_apply hw.resolved hpending hug hu hg hglive happly)
      (hw.next hleads)
  have silent {u : Variable} (hu : u = x ∨ u = y ∨ u = g) :
      Facts.Silent (w.visited ++ ⟨.var y, .var g⟩ :: rest) u := by
    have hrest := (hunbound u hu).2
    rw [Facts.silent_append] at hrest ⊢
    refine ⟨hrest.1, fun hbool e he => ?_⟩
    rcases List.mem_cons.mp he with rfl | he
    · rfl
    · exact hrest.2 hbool e he
  refine side hxg hw hpending (hunbound x (Or.inl rfl)).1 (hunbound g (Or.inr (Or.inr rfl))).1
    (silent (Or.inl rfl)) (silent (Or.inr (Or.inr rfl))) hx fun w₁ hw₁ horder₁ => ?_
  refine side hyg horder₁ hw₁.pending ?_ ?_ ?_ ?_ hy fun w₂ hw₂ horder₂ =>
    hend w₁ w₂ hw₁ hw₂ horder₂
  · rw [hw₁.binds, not_or]
    exact ⟨hxy.symm, (hunbound y (Or.inr (Or.inl rfl))).1⟩
  · rw [hw₁.binds, not_or]
    exact ⟨hxg.symm, (hunbound g (Or.inr (Or.inr rfl))).1⟩
  · rw [hw₁.visited]
    exact (hunbound y (Or.inr (Or.inl rfl))).2
  · rw [hw₁.visited]
    exact (hunbound g (Or.inr (Or.inr rfl))).2

/-- `w'` is `w` with a new variable in the place of two others instead of the first pending
    equality. -/
structure Merges (w w' : Worklist) (rest : List Equality) (x y z : Variable) : Prop where
  orderly : w'.Orderly
  visited : w'.visited = w.visited
  pending : w'.pending = rest
  disjunctions : w'.disjunctions = w.disjunctions
  live : ∀ v ∈ w'.live, v = z ∨ (v ∈ w.live ∧ v ≠ x ∧ v ≠ y)
  image : ∀ u b, w.bindings.image u = .var b →
    w'.bindings.image u = .var (if b = x ∨ b = y then z else b)
  binds : ∀ u, w'.bindings.Binds u → u = x ∨ u = y ∨ w.bindings.Binds u

/-- A new variable of a common subsort comes in the place of two others. -/
theorem ends_merged (hclosed : voc.lattice.Closed) (hfounded : voc.lattice.Founded)
    (hw : w.Orderly) (hpending : w.pending = e :: rest) {x y z : Variable} {names : FreshNames}
    (hlooked : w.looked voc e rest = ⟨.var x, .var y⟩)
    (hxy : voc.lattice.isSubsortEq x.sort y.sort = false)
    (hyx : voc.lattice.isSubsortEq y.sort x.sort = false)
    (hglb : voc.lattice.glb x.sort y.sort = some z.sort) (hname : z.name ∉ w.fresh.taken)
    (hw' : w' = { w with
      fresh := names
      pending := ⟨.var x, .var z⟩ :: ⟨.var y, .var z⟩ :: rest
      progress := true })
    (horderly : w'.Orderly) (hend : ∀ w'', Merges w w'' rest x y z → Ends voc mode w'') :
    Ends voc mode w' := by
  obtain ⟨hxz, hyz, _⟩ := hclosed.glb_of_incomparable hfounded hxy hyx hglb
  obtain ⟨hzunbound, _, hzabsent⟩ := hw.absent hpending hname
  have hold {u : Variable} (hu : u = x ∨ u = y) : u ∈ (w.looked voc e rest).occurrences :=
    Step.mem_occurrences_of_relates (.inl hlooked) (hu.imp_right List.mem_singleton.mpr)
  have hxne : x.sort ≠ z.sort := fun heq => by
    rw [← heq, hyx] at hyz
    exact absurd hyz nofun
  have hyne : y.sort ≠ z.sort := fun heq => by
    rw [← heq, hxy] at hxz
    exact absurd hxz nofun
  have hdistinct : x ≠ y ∧ x ≠ z ∧ y ≠ z := by
    refine ⟨?_, fun heq => hxne (heq ▸ rfl), fun heq => hyne (heq ▸ rfl)⟩
    rintro rfl
    rw [voc.lattice.isSubsortEq_refl] at hxy
    exact absurd hxy nofun
  have hunbound : ∀ u, u = x ∨ u = y ∨ u = z → ¬w.bindings.Binds u ∧
      Facts.Silent (w.visited ++ rest) u := by
    rintro u (hu | hu | rfl)
    · exact (mem_looked voc hw.resolved hpending (hold (Or.inl hu))).2
    · exact (mem_looked voc hw.resolved hpending (hold (Or.inr hu))).2
    · exact ⟨hzunbound, Facts.silent_of_not_mem hzabsent⟩
  have hparts : ∀ part ∈ [(⟨.var x, .var z⟩ : Equality), ⟨.var y, .var z⟩], ∀ v ∈ part.occurrences,
      v ∈ (w.looked voc e rest).occurrences ∨ v ∈ ({z} : Finset Variable) := by
    intro part hpart v hv
    rcases Step.occurrences_common ⟨part, hpart, hv⟩ with hvx | hvy | hvz
    · exact Or.inl (hold (Or.inl hvx))
    · exact Or.inl (hold (Or.inr hvy))
    · exact Or.inr (Finset.mem_singleton.mpr hvz)
  have hgrown : w'.live ⊆ w.live ∪ {z} := by
    refine live_introduce hw.resolved hpending (fun v hv => ?_) hparts ?_ ?_
    · rw [Finset.mem_singleton.mp hv]
      exact hzunbound
    · rw [hw']
    · rw [hw', stated, List.append_assoc]
      rfl
  have hbindings : w'.bindings = w.bindings := by rw [hw']
  have hvisited : w'.visited = w.visited := by rw [hw']
  have hdisjunctions : w'.disjunctions = w.disjunctions := by rw [hw']
  rw [← hbindings, ← hvisited] at hunbound
  refine ends_common horderly (by rw [hw']) hdistinct hunbound ⟨hxz, hxne⟩ ⟨hyz, hyne⟩
    fun w₁ w₂ h₁ h₂ horder₂ => hend w₂ ⟨horder₂, ?_, h₂.pending, ?_, fun v hv => ?_,
      fun u b hu => ?_, fun u hu => ?_⟩
  · rw [h₂.visited, h₁.visited, hvisited]
  · rw [h₂.disjunctions, h₁.disjunctions, hdisjunctions]
  · obtain ⟨hvy, hv⟩ := Finset.mem_erase.mp (h₂.live hv)
    obtain ⟨hvx, hv⟩ := Finset.mem_erase.mp (h₁.live hv)
    rcases Finset.mem_union.mp (hgrown hv) with hv | hv
    · exact Or.inr ⟨hv, hvx, hvy⟩
    · exact Or.inl (Finset.mem_singleton.mp hv)
  · rw [← hbindings] at hu
    rw [h₂.image u _ (h₁.image u b hu)]
    by_cases hbx : b = x
    · rw [if_pos hbx, if_neg hdistinct.2.2.symm, if_pos (Or.inl hbx)]
    · rw [if_neg hbx]
      by_cases hby : b = y
      · rw [if_pos hby, if_pos (Or.inr hby)]
      · rw [if_neg hby, if_neg (not_or.mpr ⟨hbx, hby⟩)]
  · rw [← hbindings]
    rcases (h₂.binds u).mp hu with hu | hu
    · exact Or.inr (Or.inl hu)
    · exact ((h₁.binds u).mp hu).imp_right Or.inr

/-! ## Renaming -/

/-- The equality of a variable and a new one. -/
def renamed (pair : Variable × Variable) : Equality := ⟨.var pair.1, .var pair.2⟩

theorem renamed_zip (vars news : List Variable) : (vars.zip news).map renamed =
    (vars.zip (news.map Term.var)).map fun pair => ⟨.var pair.1, pair.2⟩ := by
  rw [List.zip_map_right, List.map_map]
  rfl

theorem silent_renamed (v : Variable) (pairs : List (Variable × Variable)) :
    Facts.Silent (pairs.map renamed) v := by
  refine Facts.silent_vars v (List.forall_mem_map.mpr fun pair _ => ?_)
  exact ⟨pair.1, pair.2, rfl⟩

/-- The live variables but for the new ones of some pairs. -/
def settled (w : Worklist) (pairs : List (Variable × Variable)) : Finset Variable :=
  w.live.filter fun v => v ∉ pairs.map (·.2)

/-- In the middle of renaming: the first pending equalities equate old variables with new ones of
    sorts that stand for theirs. The live variables but for these new ones come in the place of
    variables of `X`, and what an old variable stands for comes in its place. -/
structure Renaming (l : SortLattice) (X : Finset Variable) (owner : Variable → Variable)
    (w : Worklist) (pairs : List (Variable × Variable)) (rest : List Equality) : Prop where
  orderly : w.Orderly
  pending : w.pending = pairs.map renamed ++ rest
  owned : Owned l X (w.settled pairs) owner
  nodup : (pairs.map (·.2)).Nodup
  old : ∀ pair ∈ pairs, ∃ b, w.bindings.image pair.1 = .var b ∧ owner b = pair.1 ∧
    l.Under pair.1.sort b.sort ∧ Facts.Silent (w.visited ++ rest) b ∧ b ∉ pairs.map (·.2)
  new : ∀ pair ∈ pairs, l.Under pair.1.sort pair.2.sort ∧ ¬w.bindings.Binds pair.2 ∧
    Facts.Silent (w.visited ++ rest) pair.2

section Renaming

variable {l : SortLattice} {X : Finset Variable} {owner : Variable → Variable}
  {a b g z : Variable} {pairs : List (Variable × Variable)}

/-- What an old variable stands for is live. -/
theorem Renaming.mem_live (h : Renaming l X owner w pairs rest) {pair : Variable × Variable}
    (hpair : pair ∈ pairs) (himage : w.bindings.image pair.1 = .var b) : b ∈ w.live := by
  refine mem_live_iff.mpr ⟨renamed pair, ?_, pair.1, ?_, ?_⟩
  · rw [stated, h.pending]
    exact List.mem_append_right _ (List.mem_append_left _ (List.mem_map_of_mem hpair))
  · exact List.mem_append_left _ (List.mem_singleton.mpr rfl)
  · rw [himage]
    exact List.mem_singleton.mpr rfl

/-- Where what the first old variable stands for was replaced by another variable, the others are
    renamed as before. -/
theorem Renaming.replace (h : Renaming l X owner w ((a, z) :: pairs) rest)
    (himage : w.bindings.image a = .var b) (hbz : b ∉ ((a, z) :: pairs).map (·.2))
    (howner : owner b = a) (hunder : l.Under a.sort g.sort) (hrank : l.rank g.sort ≤ l.rank b.sort)
    (hg : g ∉ pairs.map (·.2)) (hgnew : g = z ∨ g = b ∨ g ∉ w.live)
    (hsilent : Facts.Silent (w.visited ++ rest) g)
    (horderly : w'.Orderly) (hpending : w'.pending = pairs.map renamed ++ rest)
    (hvisited : w'.visited = w.visited)
    (hlive : ∀ v ∈ w'.live, v = g ∨ (v ∈ w.live ∧ v ≠ b ∧ v ≠ z))
    (himages : ∀ u c, w.bindings.image u = .var c → c ≠ z →
      w'.bindings.image u = .var (if c = b then g else c))
    (hbinds : ∀ u, w'.bindings.Binds u → u = b ∨ u = z ∨ w.bindings.Binds u) :
    Renaming l X (Function.update owner g (owner b)) w' pairs rest := by
  have hb : b ∈ w.settled ((a, z) :: pairs) :=
    Finset.mem_filter.mpr ⟨h.mem_live (List.mem_cons_self ..) himage, hbz⟩
  rw [List.map_cons, List.mem_cons, not_or] at hbz
  have hnodup := h.nodup
  rw [List.map_cons, List.nodup_cons] at hnodup
  refine ⟨horderly, hpending, (h.owned.replace hb hrank).subset fun v hv => ?_, hnodup.2, ?_, ?_⟩
  · obtain ⟨hv, hnew⟩ := Finset.mem_filter.mp hv
    rcases hlive v hv with rfl | ⟨hv, hvb, hvz⟩
    · exact Finset.mem_insert_self ..
    · refine Finset.mem_insert_of_mem (Finset.mem_erase.mpr ⟨hvb, Finset.mem_filter.mpr ⟨hv, ?_⟩⟩)
      rw [List.map_cons, List.mem_cons, not_or]
      exact ⟨hvz, hnew⟩
  · intro pair hpair
    obtain ⟨c, hpairImage, hpairOwner, hpairUnder, hpairSilent, hnot⟩ :=
      h.old pair (List.mem_cons_of_mem _ hpair)
    have hc := h.mem_live (List.mem_cons_of_mem _ hpair) hpairImage
    rw [List.map_cons, List.mem_cons, not_or] at hnot
    have hafter := himages pair.1 c hpairImage hnot.1
    rw [hvisited]
    by_cases hcb : c = b
    · -- the same old variable once more
      subst hcb
      rw [if_pos rfl] at hafter
      refine ⟨g, hafter, ?_, ?_, hsilent, hg⟩
      · rw [Function.update_self, hpairOwner]
      · rw [← hpairOwner, howner]
        exact hunder
    · rw [if_neg hcb] at hafter
      have hcg : c ≠ g := by
        rintro rfl
        rcases hgnew with heq | heq | hdead
        · exact hnot.1 heq
        · exact hcb heq
        · exact hdead hc
      refine ⟨c, hafter, ?_, hpairUnder, hpairSilent, hnot.2⟩
      rw [Function.update_of_ne hcg]
      exact hpairOwner
  · intro pair hpair
    obtain ⟨hpairUnder, hpairUnbound, hpairSilent⟩ := h.new pair (List.mem_cons_of_mem _ hpair)
    have hmem : pair.2 ∈ pairs.map (·.2) := List.mem_map_of_mem hpair
    rw [hvisited]
    refine ⟨hpairUnder, fun hbound => ?_, hpairSilent⟩
    rcases hbinds pair.2 hbound with heq | heq | hbound
    · exact hbz.2 (heq ▸ hmem)
    · exact hnodup.1 (heq ▸ hmem)
    · exact hpairUnbound hbound

/-- Where an equality between incomparable variables stays, both rank lower than the old one. -/
theorem Renaming.beside (h : Renaming l X owner w ((a, z) :: pairs) rest)
    (himage : w.bindings.image a = .var b) (hbz : b ∉ ((a, z) :: pairs).map (·.2))
    (howner : owner b = a) (hbrank : l.rank b.sort < l.rank a.sort)
    (hzrank : l.rank z.sort < l.rank a.sort) (horderly : w'.Orderly)
    (hpending : w'.pending = pairs.map renamed ++ rest)
    (hvisited : w'.visited = w.visited ++ [⟨.var b, .var z⟩]) (hlive : w'.live ⊆ w.live)
    (hbindings : w'.bindings = w.bindings) :
    Renaming l X (Function.update owner z (owner b)) w' pairs rest := by
  have hb : b ∈ w.settled ((a, z) :: pairs) :=
    Finset.mem_filter.mpr ⟨h.mem_live (List.mem_cons_self ..) himage, hbz⟩
  have silent {v : Variable} (hv : Facts.Silent (w.visited ++ rest) v) :
      Facts.Silent (w'.visited ++ rest) v := by
    rw [Facts.silent_append] at hv ⊢
    rw [hvisited, Facts.silent_append]
    exact ⟨⟨hv.1, silent_renamed v [(b, z)]⟩, hv.2⟩
  have hnodup := h.nodup
  rw [List.map_cons, List.nodup_cons] at hnodup
  have howned : Owned l X (insert z (w.settled ((a, z) :: pairs)))
      (Function.update owner z (owner b)) := by
    refine h.owned.beside hb ?_ ?_
    · rw [howner]
      exact hzrank
    · rw [howner]
      exact hbrank
  refine ⟨horderly, hpending, howned.subset fun v hv => ?_, hnodup.2, ?_, ?_⟩
  · obtain ⟨hv, hnew⟩ := Finset.mem_filter.mp hv
    by_cases hvz : v = z
    · exact hvz ▸ Finset.mem_insert_self ..
    · refine Finset.mem_insert_of_mem (Finset.mem_filter.mpr ⟨hlive hv, ?_⟩)
      rw [List.map_cons, List.mem_cons, not_or]
      exact ⟨hvz, hnew⟩
  · intro pair hpair
    obtain ⟨c, hpairImage, hpairOwner, hpairUnder, hpairSilent, hnot⟩ :=
      h.old pair (List.mem_cons_of_mem _ hpair)
    rw [List.map_cons, List.mem_cons, not_or] at hnot
    rw [hbindings]
    refine ⟨c, hpairImage, ?_, hpairUnder, silent hpairSilent, hnot.2⟩
    rw [Function.update_of_ne hnot.1]
    exact hpairOwner
  · intro pair hpair
    obtain ⟨hpairUnder, hpairUnbound, hpairSilent⟩ := h.new pair (List.mem_cons_of_mem _ hpair)
    rw [hbindings]
    exact ⟨hpairUnder, hpairUnbound, silent hpairSilent⟩

theorem Renaming.pending_cons (h : Renaming l X owner w ((a, z) :: pairs) rest) :
    w.pending = ⟨.var a, .var z⟩ :: (pairs.map renamed ++ rest) := h.pending

/-- The first pair is looked at as the equality of its new variable with `b`, for which the old one
    stands. -/
structure Renaming.Faces (voc : Vocabulary) (owner : Variable → Variable) (w : Worklist)
    (pairs : List (Variable × Variable)) (rest : List Equality) (a z b : Variable) : Prop where
  image : w.bindings.image a = .var b
  owner : owner b = a
  under : voc.lattice.Under a.sort b.sort
  silent : Facts.Silent (w.visited ++ rest) b
  old : b ∉ ((a, z) :: pairs).map (·.2)
  ne : b ≠ z
  unbound : ¬w.bindings.Binds b
  looked : w.looked voc ⟨.var a, .var z⟩ (pairs.map renamed ++ rest) = ⟨.var b, .var z⟩
  live : ∀ v, v = b ∨ v = z → v ∈ w.live

theorem Renaming.exists_faces (h : Renaming voc.lattice X owner w ((a, z) :: pairs) rest) :
    ∃ b, Renaming.Faces voc owner w pairs rest a z b := by
  obtain ⟨b, himage, howner, hunder, hbSilent, hbnew⟩ := h.old (a, z) (List.mem_cons_self ..)
  obtain ⟨_, hz, hzSilent⟩ := h.new (a, z) (List.mem_cons_self ..)
  have hb : ¬w.bindings.Binds b := by
    refine h.orderly.resolved.unbound_image (u := a) ?_
    rw [himage]
    exact List.mem_singleton.mpr rfl
  have silent {v : Variable} (hv : Facts.Silent (w.visited ++ rest) v) :
      Facts.Silent (w.visited ++ (pairs.map renamed ++ rest)) v := by
    rw [Facts.silent_append] at hv
    rw [Facts.silent_append, Facts.silent_append]
    exact ⟨hv.1, silent_renamed v pairs, hv.2⟩
  have hlooked : w.looked voc ⟨.var a, .var z⟩ (pairs.map renamed ++ rest) = ⟨.var b, .var z⟩ :=
    looked_vars himage hb hz (silent hbSilent) (silent hzSilent)
  have hne : b ≠ z := by
    rintro rfl
    exact hbnew (List.mem_cons_self ..)
  refine ⟨b, himage, howner, hunder, hbSilent, hbnew, hne, hb, hlooked, fun v hv => ?_⟩
  have hoccurs : v ∈ (w.looked voc ⟨.var a, .var z⟩ (pairs.map renamed ++ rest)).occurrences :=
    Step.mem_occurrences_of_relates (.inl hlooked) (hv.imp_right List.mem_singleton.mpr)
  exact (mem_looked voc h.orderly.resolved h.pending_cons hoccurs).1

/-- The new variable takes the place of the old one. -/
theorem Renaming.replaced (hclosed : voc.lattice.Closed)
    (h : Renaming voc.lattice X owner w ((a, z) :: pairs) rest)
    (hb : Renaming.Faces voc owner w pairs rest a z b)
    (hbelow : voc.lattice.isSubsortEq b.sort z.sort = true) (horderly : w'.Orderly)
    (helim : Eliminates w w' (pairs.map renamed ++ rest) b z) :
    Renaming voc.lattice X (Function.update owner z (owner b)) w' pairs rest := by
  obtain ⟨hzunder, _, hzSilent⟩ := h.new (a, z) (List.mem_cons_self ..)
  have hnodup := h.nodup
  rw [List.map_cons, List.nodup_cons] at hnodup
  refine h.replace hb.image hb.old hb.owner hzunder (hb.under.rank_le_of_le hclosed hzunder hbelow)
    hnodup.1 (Or.inl rfl) hzSilent horderly helim.pending helim.visited (fun v hv => ?_)
    (fun u c hu _ => helim.image u c hu) fun u hu => ((helim.binds u).mp hu).imp_right Or.inr
  obtain ⟨hvb, hv⟩ := Finset.mem_erase.mp (helim.live hv)
  by_cases hvz : v = z
  · exact Or.inl hvz
  · exact Or.inr ⟨hv, hvb, hvz⟩

/-- The new variable is gone at once. -/
theorem Renaming.dropped (h : Renaming voc.lattice X owner w ((a, z) :: pairs) rest)
    (hb : Renaming.Faces voc owner w pairs rest a z b) (horderly : w'.Orderly)
    (helim : Eliminates w w' (pairs.map renamed ++ rest) z b) :
    Renaming voc.lattice X (Function.update owner b (owner b)) w' pairs rest := by
  have hbnot := hb.old
  rw [List.map_cons, List.mem_cons, not_or] at hbnot
  refine h.replace hb.image hb.old hb.owner hb.under (Nat.le_refl _) hbnot.2 (Or.inr (Or.inl rfl))
    hb.silent horderly helim.pending helim.visited (fun v hv => ?_) (fun u c hu hcz => ?_)
    fun u hu => Or.inr ((helim.binds u).mp hu)
  · obtain ⟨hvz, hv⟩ := Finset.mem_erase.mp (helim.live hv)
    by_cases hvb : v = b
    · exact Or.inl hvb
    · exact Or.inr ⟨hv, hvb, hvz⟩
  · rw [helim.image u c hu, if_neg hcz]
    split_ifs with hcb
    · rw [hcb]
    · rfl

/-- One more new variable takes the place of both. -/
theorem Renaming.merged (h : Renaming voc.lattice X owner w ((a, z) :: pairs) rest)
    (hb : Renaming.Faces voc owner w pairs rest a z b) {y : Variable}
    (hunder : voc.lattice.Under a.sort y.sort)
    (hrank : voc.lattice.rank y.sort ≤ voc.lattice.rank b.sort)
    (hname : y.name ∉ w.fresh.taken) (hmerges : Merges w w' (pairs.map renamed ++ rest) b z y) :
    Renaming voc.lattice X (Function.update owner y (owner b)) w' pairs rest := by
  obtain ⟨_, hdead, habsent⟩ := h.orderly.absent h.pending_cons hname
  have hynew : y ∉ pairs.map (·.2) := by
    intro hmem
    obtain ⟨pair, hpair, rfl⟩ := List.mem_map.mp hmem
    refine habsent (renamed pair) ?_ (List.mem_append_right _ (List.mem_singleton.mpr rfl))
    exact List.mem_append_right _ (List.mem_append_left _ (List.mem_map_of_mem hpair))
  have hsilent : Facts.Silent (w.visited ++ rest) y := by
    refine Facts.silent_of_not_mem fun e he => habsent e ?_
    rcases List.mem_append.mp he with he | he
    · exact List.mem_append_left _ he
    · exact List.mem_append_right _ (List.mem_append_right _ he)
  refine h.replace hb.image hb.old hb.owner hunder hrank hynew (Or.inr (Or.inr hdead)) hsilent
    hmerges.orderly hmerges.pending hmerges.visited hmerges.live (fun u c hu hcz => ?_) hmerges.binds
  rw [hmerges.image u c hu]
  by_cases hcb : c = b
  · rw [if_pos (Or.inl hcb), if_pos hcb]
  · rw [if_neg (not_or.mpr ⟨hcb, hcz⟩), if_neg hcb]

/-- The equality of the two variables stays. -/
theorem Renaming.kept (hclosed : voc.lattice.Closed)
    (h : Renaming voc.lattice X owner w ((a, z) :: pairs) rest)
    (hb : Renaming.Faces voc owner w pairs rest a z b)
    (hbz : voc.lattice.isSubsortEq b.sort z.sort = false)
    (hzb : voc.lattice.isSubsortEq z.sort b.sort = false) (horderly : w'.Orderly)
    (hw' : w' = { w with
      pending := pairs.map renamed ++ rest
      visited := w.visited ++ [⟨.var b, .var z⟩] }) :
    Renaming voc.lattice X (Function.update owner z (owner b)) w' pairs rest := by
  obtain ⟨hzunder, _, _⟩ := h.new (a, z) (List.mem_cons_self ..)
  have hparts : ∀ part ∈ [(⟨.var b, .var z⟩ : Equality)], ∀ v ∈ part.occurrences,
      v ∈ (w.looked voc ⟨.var a, .var z⟩ (pairs.map renamed ++ rest)).occurrences := by
    intro part hpart v hv
    rw [List.mem_singleton.mp hpart, ← hb.looked] at hv
    exact hv
  subst hw'
  exact h.beside hb.image hb.old hb.owner (hb.under.rank_lt hclosed hzunder hbz hzb)
    (hzunder.rank_lt hclosed hb.under hzb hbz) horderly rfl rfl
    (live_replace h.orderly.resolved h.pending_cons hparts rfl rfl) rfl

/-- Renaming comes to an end, with live variables in the place of old ones. -/
theorem ends_renaming (hclosed : voc.lattice.Closed) (hfounded : voc.lattice.Founded)
    (h : Renaming voc.lattice X owner w pairs rest)
    (hend : ∀ w' owner, w'.Orderly → w'.disjunctions = w.disjunctions →
      Owned voc.lattice X w'.live owner → Ends voc mode w') : Ends voc mode w := by
  induction pairs generalizing w owner with
  | nil =>
    refine hend w owner h.orderly rfl (h.owned.subset fun v hv => ?_)
    exact Finset.mem_filter.mpr ⟨hv, nofun⟩
  | cons pair pairs ih =>
    obtain ⟨a, z⟩ := pair
    obtain ⟨b, hb⟩ := h.exists_faces
    obtain ⟨hzunder, hz, _⟩ := h.new (a, z) (List.mem_cons_self ..)
    have onward {w' : Worklist} {owner' : Variable → Variable}
        (h' : Renaming voc.lattice X owner' w' pairs rest)
        (hdisjunctions : w'.disjunctions = w.disjunctions) : Ends voc mode w' :=
      ih h' fun w'' owner'' horder hds => hend w'' owner'' horder (hds.trans hdisjunctions)
    refine Acc.intro w fun w' hleads => ?_
    have horderly := h.orderly.next hleads
    obtain ⟨step, hstep, happly⟩ := leads_cons h.pending_cons hleads
    rw [hb.looked] at hstep
    obtain rfl := Step.classify_vars hb.ne hstep
    rcases Step.bindVariables_cases voc w.fresh b z ⟨.var b, .var z⟩ with
      ⟨hbelow, hbind⟩ | ⟨_, _, hbind⟩ | ⟨hbz, hzb, ⟨g, y, names, hglb, hy, hbind⟩ | hbind⟩
    · rw [hbind] at happly
      have helim := eliminates_of_apply h.orderly.resolved h.pending_cons hb.ne hb.unbound hz
        (hb.live z (Or.inr rfl)) happly
      exact onward (h.replaced hclosed hb hbelow horderly helim) helim.disjunctions
    · rw [hbind] at happly
      have helim := eliminates_of_apply h.orderly.resolved h.pending_cons hb.ne.symm hz hb.unbound
        (hb.live b (Or.inl rfl)) happly
      exact onward (h.dropped hb horderly helim) helim.disjunctions
    · rw [hbind] at happly
      obtain ⟨rfl, hname, _, _⟩ := FreshNames.derive_spec hy
      obtain ⟨hunder, hrank⟩ := hb.under.glb hclosed hfounded hbz hzb hglb
      refine ends_merged hclosed hfounded h.orderly h.pending_cons hb.looked hbz hzb hglb hname
        (Except.ok.inj happly).symm horderly fun w'' hmerges => ?_
      exact onward (h.merged hb hunder hrank hname hmerges) hmerges.disjunctions
    · rw [hbind] at happly
      obtain rfl := Except.ok.inj happly
      exact onward (h.kept hclosed hb hbz hzb horderly rfl) rfl

end Renaming

/-! ## Narrowing -/

/-- An application of variables that nothing is known about is looked at as it is, unless its own
    truth value is known. -/
theorem looked_app {v : Variable} {news : List Variable} (f : Symbol)
    (hunbound : ∀ x, x = v ∨ x ∈ news →
      ¬w.bindings.Binds x ∧ Facts.Silent (w.visited ++ rest) x) :
    ∃ t, w.looked voc ⟨.var v, voc.apply f (news.map .var)⟩ rest = ⟨.var v, t⟩ ∧
      t.isVar = false ∧ t.sort = voc.leastSort f (news.map (·.sort)) ∧
      ∀ x ∈ t.occurrences, x ∈ news := by
  have hleft {x : Variable} (hx : x = v ∨ x ∈ news) :
      (Term.var x).substitute w.bindings.get? = .var x ∧
        Facts.decide (w.restFacts rest) (.var x) = .var x :=
    ⟨Substitution.image_of_not_binds (hunbound x hx).1,
      Facts.decide_of_silent (hunbound x hx).1 (hunbound x hx).2⟩
  have hnews : (voc.apply f (news.map .var)).substitute w.bindings.get? =
      voc.apply f (news.map .var) := by
    have hargs : (news.map Term.var).map (Term.substitute w.bindings.get?) = news.map .var := by
      rw [List.map_map]
      exact List.map_congr_left fun z hz => (hleft (Or.inr hz)).1
    rw [Vocabulary.apply, Term.substitute, Term.substituteAll_eq, hargs]
  obtain ⟨hvar, hsort⟩ := Term.evaluate_app_vars voc f
    (voc.leastSort f ((news.map Term.var).map Term.sort)) fun z hz => (hleft (Or.inr hz)).2
  refine ⟨_, ?_, hvar, hsort, fun x hx => ?_⟩
  · rw [looked, Equality.rewrite, Term.rewrite, Term.rewrite, (hleft (Or.inl rfl)).1, hnews,
      Term.evaluate, (hleft (Or.inl rfl)).2, Vocabulary.apply]
  · have hmem := (Term.mem_evaluate hx).1
    rwa [Step.occurrences_app_vars] at hmem

/-- `w'` is `w` with the parts of narrowing instead of the first pending equality: `v` equals `f` of
    new variables, and the old arguments equal these. -/
structure Narrows (voc : Vocabulary) (w w' : Worklist) (rest : List Equality) (v : Variable)
    (f : Symbol) (vars news : List Variable) : Prop where
  bindings : w'.bindings = w.bindings
  visited : w'.visited = w.visited
  disjunctions : w'.disjunctions = w.disjunctions
  pending : w'.pending =
    ⟨.var v, voc.apply f (news.map .var)⟩ :: ((vars.zip news).map renamed ++ rest)
  live : w'.live ⊆ w.live ∪ news.toFinset
  apart : v ∉ vars
  old : ∀ x, x = v ∨ x ∈ vars →
    x ∈ w.live ∧ ¬w.bindings.Binds x ∧ Facts.Silent (w.visited ++ rest) x
  new : ∀ z ∈ news, z ∉ w.live ∧ ¬w.bindings.Binds z ∧ Facts.Silent (w.visited ++ rest) z
  length : vars.length = news.length
  nodup : news.Nodup
  under : ∀ pair ∈ vars.zip news, voc.lattice.Under pair.1.sort pair.2.sort
  below : voc.lattice.isSubsortEq v.sort (voc.leastSort f (news.map (·.sort))) = true

section Narrows

variable {v : Variable} {f : Symbol} {s : SortName} {vars news : List Variable}

theorem narrows_of_introduced (hclosed : voc.lattice.Closed) (hfounded : voc.lattice.Founded)
    (hw : w.Orderly) (hpending : w.pending = e :: rest) {sorts : List SortName}
    {names : FreshNames}
    (hrel : (w.looked voc e rest).Relates v (.app f (vars.map .var) s)) (hv : v ∉ vars)
    (hsorts : Step.narrowedSorts? voc v.sort f (vars.map (·.sort)) = some sorts)
    (hnews : w.fresh.deriveEach (vars.zip sorts) = (news, names))
    (hw' : w' = { w with
      fresh := names
      pending := ⟨.var v, voc.apply f (news.map .var)⟩ :: ((vars.zip news).map renamed ++ rest)
      progress := true }) :
    Narrows voc w w' rest v f vars news := by
  have hoccurs {x : Variable} (hx : x = v ∨ x ∈ vars) : x ∈ (w.looked voc e rest).occurrences := by
    refine Step.mem_occurrences_of_relates hrel ?_
    rwa [Step.occurrences_app_vars]
  have hnew : ∀ z ∈ news, z ∉ w.live ∧ ¬w.bindings.Binds z ∧
      Facts.Silent (w.visited ++ rest) z := by
    intro z hz
    obtain ⟨hunbound, hdead, habsent⟩ :=
      hw.absent hpending ((FreshNames.deriveEach_spec hnews).2.1 z hz).1
    exact ⟨hdead, hunbound, Facts.silent_of_not_mem habsent⟩
  have hparts : ∀ part ∈ (⟨.var v, voc.apply f (news.map .var)⟩ : Equality) ::
      (vars.zip news).map renamed, ∀ x ∈ part.occurrences,
        x ∈ (w.looked voc e rest).occurrences ∨ x ∈ news.toFinset := by
    rw [renamed_zip]
    intro part hpart x hx
    rcases Step.occurrences_narrowed ⟨part, hpart, hx⟩ with hx | hx | hx
    · exact Or.inl (hoccurs (Or.inl hx))
    · exact Or.inl (hoccurs (Or.inr hx))
    · exact Or.inr (List.mem_toFinset.mpr hx)
  have hlive : w'.live ⊆ w.live ∪ news.toFinset := by
    refine live_introduce hw.resolved hpending
      (fun z hz => (hnew z (List.mem_toFinset.mp hz)).2.1) hparts (by rw [hw']) ?_
    rw [hw', stated, List.append_assoc]
    rfl
  -- the sorts of the new variables are the greatest lower bounds that were found
  obtain ⟨sig, _, _, hparams, hglbs, hbelow⟩ := Step.narrowedSorts_spec hsorts
  have hnewSorts : news.map (·.sort) = sorts := by
    have hsortsLen := Step.narrowed_length hsorts
    rw [List.length_map] at hsortsLen
    rw [(FreshNames.deriveEach_spec hnews).1, List.map_snd_zip hsortsLen.le]
  have hunder : ∀ pair ∈ vars.zip news, voc.lattice.Under pair.1.sort pair.2.sort := by
    have hforall := hclosed.forall_under hfounded hparams (Step.forall_glbs hglbs)
    rw [← hnewSorts, List.forall₂_map_left_iff, List.forall₂_map_right_iff,
      List.forall₂_iff_zip] at hforall
    exact fun pair hpair => hforall.2 hpair
  rw [← hnewSorts] at hbelow
  refine ⟨by rw [hw'], by rw [hw'], by rw [hw'], by rw [hw'], hlive, hv,
    fun x hx => mem_looked voc hw.resolved hpending (hoccurs hx), hnew,
    Step.news_length hsorts hnews, FreshNames.nodup_deriveEach hnews, hunder, hbelow⟩

theorem Narrows.not_mem_news (h : Narrows voc w w' rest v f vars news) {x : Variable}
    (hx : x = v ∨ x ∈ vars) : x ∉ news :=
  fun hmem => (h.new x hmem).1 (h.old x hx).1

/-- The first of the new equalities binds the variable. -/
theorem Narrows.bind (h : Narrows voc w w' rest v f vars news) (horderly : w'.Orderly)
    {w'' : Worklist} (hleads : w'.Leads voc Unifier.structural mode w'') :
    w''.pending = (vars.zip news).map renamed ++ rest ∧ w''.visited = w.visited ∧
      w''.disjunctions = w.disjunctions ∧ w''.live ⊆ w'.live.erase v ∧
      ∀ x, w''.bindings.Binds x ↔ x = v ∨ w.bindings.Binds x := by
  have hunbound : ∀ x, x = v ∨ x ∈ news → ¬w'.bindings.Binds x ∧
      Facts.Silent (w'.visited ++ ((vars.zip news).map renamed ++ rest)) x := by
    intro x hx
    have hfree : ¬w.bindings.Binds x ∧ Facts.Silent (w.visited ++ rest) x :=
      hx.elim (fun hx => (h.old x (Or.inl hx)).2) fun hx => (h.new x hx).2
    obtain ⟨hbinds, hsilent⟩ := hfree
    rw [Facts.silent_append] at hsilent
    rw [h.bindings, h.visited, Facts.silent_append, Facts.silent_append]
    exact ⟨hbinds, hsilent.1, silent_renamed x _, hsilent.2⟩
  obtain ⟨t, hfirst, htvar, htsort, htnews⟩ : ∃ t,
      w'.looked voc ⟨.var v, voc.apply f (news.map .var)⟩ ((vars.zip news).map renamed ++ rest) =
        ⟨.var v, t⟩ ∧ t.isVar = false ∧ t.sort = voc.leastSort f (news.map (·.sort)) ∧
      ∀ x ∈ t.occurrences, x ∈ news := looked_app f hunbound
  obtain ⟨step, hstep, happly⟩ := leads_cons h.pending hleads
  have hfits := fits_of_classify horderly.resolved hstep
  have htlive : ∀ x ∈ t.occurrences, x ∈ w'.live := by
    intro x hx
    have hmem : x ∈ (w'.looked voc ⟨.var v, voc.apply f (news.map .var)⟩
        ((vars.zip news).map renamed ++ rest)).occurrences := by
      rw [hfirst]
      exact List.mem_append_right _ hx
    exact (mem_looked voc horderly.resolved h.pending hmem).1
  rw [hfirst] at hstep
  obtain rfl : step = .bind v t := by
    refine Step.classify_term (.inl rfl) htvar
      (fun hmem => h.not_mem_news (Or.inl rfl) (htnews v hmem)) ?_ hstep
    rw [htsort]
    exact h.below
  obtain ⟨s', hs', rfl⟩ := apply_bind happly
  have hbinds := (Substitution.compose_spec horderly.resolved hfits.1 hfits.2.1 hfits.2.2 hs').2.1
  rw [h.bindings] at hbinds
  exact ⟨rfl, h.visited, h.disjunctions,
    live_bind horderly.resolved h.pending hfits htlive hs' rfl rfl, hbinds⟩

/-- After that the arguments are renamed. -/
theorem Narrows.renaming (h : Narrows voc w w' rest v f vars news) (horderly : w'.Orderly)
    {w'' : Worklist} (hleads : w'.Leads voc Unifier.structural mode w'') :
    Renaming voc.lattice (w.live.erase v) id w'' (vars.zip news) rest := by
  obtain ⟨hpending, hvisited, _, hlive, hbinds⟩ := h.bind horderly hleads
  have hseconds : (vars.zip news).map (·.2) = news := List.map_snd_zip h.length.ge
  refine ⟨horderly.next hleads, hpending, Owned.of_subset fun x hx => ?_, ?_, ?_, ?_⟩
  · obtain ⟨hx, hxnew⟩ := Finset.mem_filter.mp hx
    obtain ⟨hxv, hx⟩ := Finset.mem_erase.mp (hlive hx)
    rw [hseconds] at hxnew
    rcases Finset.mem_union.mp (h.live hx) with hx | hx
    · exact Finset.mem_erase.mpr ⟨hxv, hx⟩
    · exact absurd (List.mem_toFinset.mp hx) hxnew
  · rw [hseconds]
    exact h.nodup
  · intro pair hpair
    have hx := (List.of_mem_zip hpair).1
    obtain ⟨_, hunbound, hsilent⟩ := h.old pair.1 (Or.inr hx)
    have hxv : pair.1 ≠ v := fun heq => h.apart (heq ▸ hx)
    have hfree : ¬w''.bindings.Binds pair.1 :=
      fun hmem => ((hbinds pair.1).mp hmem).elim hxv hunbound
    rw [hvisited, hseconds]
    exact ⟨pair.1, Substitution.image_of_not_binds hfree, rfl, SortLattice.Under.refl _ _, hsilent,
      h.not_mem_news (Or.inr hx)⟩
  · intro pair hpair
    have hz := (List.of_mem_zip hpair).2
    obtain ⟨_, hunbound, hsilent⟩ := h.new pair.2 hz
    have hzv : pair.2 ≠ v := fun heq => h.not_mem_news (Or.inl rfl) (heq ▸ hz)
    rw [hvisited]
    exact ⟨h.under pair hpair, fun hmem => ((hbinds pair.2).mp hmem).elim hzv hunbound, hsilent⟩

/-- Narrowing comes to an end: the variable is bound, and the arguments are renamed. -/
theorem ends_narrowed (hclosed : voc.lattice.Closed) (hfounded : voc.lattice.Founded)
    (h : Narrows voc w w' rest v f vars news) (horderly : w'.Orderly)
    (hend : ∀ w'' owner, w''.Orderly → w''.disjunctions = w.disjunctions →
      Owned voc.lattice (w.live.erase v) w''.live owner → Ends voc mode w'') :
    Ends voc mode w' := by
  refine Acc.intro w' fun w'' hleads => ?_
  obtain ⟨_, _, hdisjunctions, _⟩ := h.bind horderly hleads
  exact ends_renaming hclosed hfounded (h.renaming horderly hleads) fun w₃ owner horder hds howned =>
    hend w₃ owner horder (hds.trans hdisjunctions) howned

end Narrows

/-! ## The whole run -/

/-- Where the pass ends without a result, the worklist is nearer to its end. -/
theorem nearer_of_ended (l : SortLattice) (hpending : w.pending = [])
    (h : Ended voc w (.ok (.inl w'))) : Nearer l w' w := by
  cases h with
  | again hprogress =>
    have hstated : w.stated = w.visited := by rw [stated, hpending, List.append_nil]
    refine nearer_of_live rfl ?_ (Or.inr ⟨?_, Or.inl ⟨rfl, hprogress⟩⟩)
    · rw [live, live, hstated]
      exact Finset.Subset.refl _
    · rw [weight, weight, hstated]
      exact Nat.le_refl _
  | absorbed a habsorb hcollapsed =>
    refine nearer_of_nodes (Nat.lt_of_le_of_lt ?_ ((nodes_absorb habsorb).2 hcollapsed))
    rw [Formula.nodesIn_eq, Formula.nodesIn_eq]
    exact Sorted.sum_dedup_le _ a.disjunctions

/-- A step that brings in no new variables brings the worklist nearer to its end. -/
theorem nearer_of_apply (l : SortLattice) (hw : w.bindings.Resolved)
    (hpending : w.pending = e :: rest) {step : Step}
    (hstep : Step.classify voc Unifier.structural mode w.fresh (w.looked voc e rest) = .ok step)
    (hold : ∀ parts names, step ≠ .introduce parts names)
    (happly : w.apply voc rest step = .ok w') : Nearer l w' w := by
  have hpos : 0 < (w.looked voc e rest).size := Nat.add_pos_left (Term.size_pos _) _
  cases step with
  | drop =>
    have hw' := (Except.ok.inj happly).symm
    have hparts : ∀ part ∈ ([] : List Equality), ∀ v ∈ part.occurrences,
        v ∈ (w.looked voc e rest).occurrences := nofun
    have hbindings : w'.bindings = w.bindings := by rw [hw']
    have hstated : w'.stated = w.visited ++ [] ++ rest := by rw [hw', stated, List.append_nil]
    have hweight := weight_replace hw hpending hparts hbindings hstated
    refine nearer_of_live (by rw [hw']) (live_replace hw hpending hparts hbindings hstated)
      (Or.inl ?_)
    simp only [List.map_nil, List.sum_nil] at hweight
    omega
  | keep kept =>
    have hw' := (Except.ok.inj happly).symm
    obtain rfl := Step.kept_of_classify hstep
    have hparts : ∀ part ∈ [w.looked voc e rest], ∀ v ∈ part.occurrences,
        v ∈ (w.looked voc e rest).occurrences := by
      intro part hpart v hv
      rw [List.mem_singleton.mp hpart] at hv
      exact hv
    have hbindings : w'.bindings = w.bindings := by rw [hw']
    have hstated : w'.stated = w.visited ++ [w.looked voc e rest] ++ rest := by rw [hw', stated]
    have hweight := weight_replace hw hpending hparts hbindings hstated
    refine nearer_of_live (by rw [hw']) (live_replace hw hpending hparts hbindings hstated)
      (Or.inr ⟨?_, Or.inr ⟨by rw [hw'], ?_⟩⟩)
    · simp only [List.map_cons, List.map_nil, List.sum_cons, List.sum_nil] at hweight
      omega
    · rw [hw', hpending, List.length_cons]
      exact Nat.lt_succ_self _
  | split parts ds =>
    have hw' := (Except.ok.inj happly).symm
    obtain ⟨rfl, hsmaller⟩ := Step.size_split hstep
    have hparts := Step.occurrences_split hstep
    have hbindings : w'.bindings = w.bindings := by rw [hw']
    have hstated : w'.stated = w.visited ++ parts ++ rest := by
      rw [hw', stated, List.append_assoc]
    have hweight := weight_replace hw hpending hparts hbindings hstated
    refine nearer_of_live ?_ (live_replace hw hpending hparts hbindings hstated) (Or.inl ?_)
    · rw [hw', List.append_nil]
    · omega
  | introduce parts names => exact absurd rfl (hold parts names)
  | bind v t =>
    have hfits := fits_of_classify hw hstep
    obtain ⟨hrel, _⟩ := Step.relates_of_classify hstep
    have hlive : ∀ x, x = v ∨ x ∈ t.occurrences → x ∈ w.live := fun x hx =>
      (mem_looked voc hw hpending (Step.mem_occurrences_of_relates hrel hx)).1
    obtain ⟨s, hs, hw'⟩ := apply_bind happly
    have hdead : w'.live ⊆ w.live.erase v := live_bind hw hpending hfits
      (fun x hx => hlive x (Or.inr hx)) hs (by rw [hw']) (by rw [hw', stated])
    refine nearer_of_ranks ?_ ((Owned.of_subset hdead).ranks_lt (hlive v (Or.inl rfl)))
    rw [hw']

/-- No run goes on for ever. -/
theorem Orderly.ends (hbuilt : voc.Built) (hw : w.Orderly) : Ends voc mode w := by
  have hclosed := hbuilt.closed
  have hfounded := hbuilt.founded
  induction w using (InvImage.wf (measure voc.lattice) Measure.wellFounded_lower).induction with
  | _ w ih =>
    refine Acc.intro w fun w' hleads => ?_
    have horderly := hw.next hleads
    rcases next_inl_cases hleads with ⟨hpending, hended⟩ | ⟨e, rest, hpending, hvisit⟩
    · exact ih w' (nearer_of_ended voc.lattice hpending hended) horderly
    · obtain ⟨step, hstep, happly⟩ := step_of_visit hvisit
      by_cases hold : ∀ parts names, step ≠ .introduce parts names
      · exact ih w' (nearer_of_apply voc.lattice hw.resolved hpending hstep hold happly) horderly
      · push Not at hold
        obtain ⟨parts, names, rfl⟩ := hold
        have hw' := (Except.ok.inj happly).symm
        have hlist := Step.classified voc mode w.fresh (w.looked voc e rest)
        rw [hstep] at hlist
        cases hlist with
        | common x y s z _ he hglb hz =>
          have hmem (v : Variable) (hv : v = x ∨ v = y) : v ∈ w.live :=
            (mem_looked voc hw.resolved hpending (Step.mem_occurrences_of_relates (.inl he)
              (hv.imp_right List.mem_singleton.mpr))).1
          obtain ⟨rfl, hname, _, _⟩ := FreshNames.derive_spec hz
          rw [he] at hstep
          have hne := Step.ne_of_introduce hstep
          have hbind := Step.classify_vars hne hstep
          rcases Step.bindVariables_cases voc w.fresh x y ⟨.var x, .var y⟩ with
            ⟨_, h⟩ | ⟨_, _, h⟩ | ⟨hxy, hyx, _⟩
          · rw [h] at hbind
            exact absurd hbind nofun
          · rw [h] at hbind
            exact absurd hbind nofun
          · refine ends_merged hclosed hfounded hw hpending he hxy hyx hglb hname hw' horderly
              fun w'' hmerges => ih w'' (nearer_of_ranks hmerges.disjunctions ?_) hmerges.orderly
            -- the new variable comes in the place of the first one, and the second one is gone
            have hrank := ((SortLattice.Under.refl _ x.sort).glb hclosed hfounded hxy hyx hglb).2
            have howned := (Owned.of_subset (Finset.Subset.refl (w.live.erase y))).replace
              (Finset.mem_erase.mpr ⟨hne, hmem x (Or.inl rfl)⟩) hrank
            refine (howned.subset fun v hv => ?_).ranks_lt (hmem y (Or.inr rfl))
            rcases hmerges.live v hv with rfl | ⟨hv, hvx, hvy⟩
            · exact Finset.mem_insert_self ..
            · exact Finset.mem_insert_of_mem
                (Finset.mem_erase.mpr ⟨hvx, Finset.mem_erase.mpr ⟨hvy, hv⟩⟩)
        | narrow v f s vars sorts news _ he _ _ _ hsorts hnews hoccurs =>
          rw [← renamed_zip] at hw'
          have hnarrows := narrows_of_introduced hclosed hfounded hw hpending he hoccurs hsorts hnews
            hw'
          exact ends_narrowed hclosed hfounded hnarrows horderly fun w'' owner horder hds howned =>
            ih w'' (nearer_of_ranks hds (howned.ranks_lt (hnarrows.old v (Or.inl rfl)).1)) horder

/-- A run that ends gives the same result with any number of steps that is large enough. -/
theorem Ends.exists_run (h : Ends voc mode w) :
    ∃ (n : Nat) (result : Except Refutation Formula), ∀ steps, n ≤ steps →
      w.run voc Unifier.structural mode steps = result.mapError .refuted := by
  induction h with
  | intro w _ ih =>
    have enough {result : Except Refutation Formula}
        (h : ∀ steps, w.run voc Unifier.structural mode (steps + 1) = result.mapError .refuted) :
        ∀ steps, 1 ≤ steps →
          w.run voc Unifier.structural mode steps = result.mapError .refuted := by
      intro steps hsteps
      obtain ⟨m, rfl⟩ := Nat.exists_eq_add_of_le' hsteps
      exact h m
    cases hnext : w.next voc Unifier.structural mode with
    | error r =>
      refine ⟨1, .error r, enough fun steps => ?_⟩
      rw [run, hnext]
      rfl
    | ok next =>
      cases next with
      | inr φ =>
        refine ⟨1, .ok φ, enough fun steps => ?_⟩
        rw [run, hnext]
        rfl
      | inl w' =>
        obtain ⟨n, result, hresult⟩ := ih w' hnext
        refine ⟨n + 1, result, fun steps hsteps => ?_⟩
        obtain ⟨m, rfl⟩ := Nat.exists_eq_add_of_le' (Nat.le_trans (Nat.le_add_left 1 n) hsteps)
        rw [run, hnext]
        exact hresult m (Nat.le_of_succ_le_succ hsteps)

end Worklist

/-- Simplification ends: no run goes on for ever, whether looking at equalities, starting passes or
    absorbing disjunctions, and with enough steps there is a formula or a refutation. -/
theorem Formula.simplification_ends {voc : Vocabulary} (hbuilt : voc.Built) (mode : SimplifyMode)
    (φ : Formula) :
    Acc (fun w' w => Worklist.Leads voc Unifier.structural mode w w') (Worklist.ofFormula φ) ∧
      ∃ (n : Nat) (result : Except Refutation Formula), ∀ steps, n ≤ steps →
        φ.simplifyWithin voc Unifier.structural mode steps = result.mapError .refuted := by
  have horderly : (Worklist.ofFormula φ).Orderly := ⟨_, Worklist.good_ofFormula φ.within_any⟩
  have hends : (Worklist.ofFormula φ).Ends voc mode := horderly.ends hbuilt
  exact ⟨hends, hends.exists_run⟩

/-- A formula that is simplified by narrowing. -/
theorem Overloaded.simplification_ends_narrowed :
    Acc (fun w' w => Worklist.Leads vocabulary Unifier.structural .default w w')
        (Worklist.ofFormula formula) ∧
      ∃ (n : Nat) (result : Except Refutation Formula), ∀ steps, n ≤ steps →
        formula.simplifyWithin vocabulary Unifier.structural .default steps =
          result.mapError .refuted :=
  Formula.simplification_ends built .default formula

end Entail
