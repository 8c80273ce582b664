import Entail.Proofs.Arranged
import Entail.Proofs.Live
import Entail.Proofs.Representation

set_option autoImplicit false

/-! # Results that are given back

When a result is simplified, its bindings are found again in their order, then its equalities are
kept, once more if there were bindings, and its disjunctions stay as they are. What can keep this
from happening is named by `Settled`: a fact that is found after a term was looked at may still
change it, and a bound term that was rewritten with later bindings may have become one that the
variable would not be bound to. -/

namespace Entail

/-! ## Bindings in order -/

namespace Substitution

instance transCmp_key : Std.TransCmp fun a b : Variable × Term => a.1.cmp b.1 where
  eq_swap {a b} := Std.OrientedCmp.eq_swap (a := a.1) (b := b.1)
  isLE_trans {a b c} := Std.TransCmp.isLE_trans (a := a.1) (b := b.1) (c := c.1)

/-- The bound variables are in ascending order. -/
abbrev Ascending (s : Substitution) : Prop :=
  Sorted.Ascending (fun a b : Variable × Term => a.1.cmp b.1) s.entries

variable {voc : Vocabulary} {s : Substitution} {v : Variable} {t : Term}

theorem not_binds_empty (v : Variable) : ¬empty.Binds v := fun ⟨_, hentry, _⟩ =>
  absurd hentry List.not_mem_nil

theorem Ascending.extended (hs : s.Ascending) (voc : Vocabulary) (v : Variable) (t : Term) :
    (s.extended voc v t).Ascending :=
  Sorted.ascending_insert _ (List.pairwise_map.mpr hs)

/-- The bindings before a binding are of smaller variables, those after it of others. -/
theorem Ascending.parts (hs : s.Ascending) {done todo : List (Variable × Term)}
    (hparts : s.entries = done ++ (v, t) :: todo) :
    (∀ entry ∈ done, entry.1.cmp v = .lt) ∧ ∀ entry ∈ done ++ todo, entry.1 ≠ v := by
  have hne {a b : Variable} (h : a.cmp b = .lt) : a ≠ b := by
    rintro rfl
    rw [(Variable.cmp_eq_iff a a).mpr rfl] at h
    cases h
  unfold Ascending at hs
  rw [hparts] at hs
  obtain ⟨_, hlater, hbelow⟩ := List.pairwise_append.mp hs
  have hlast : ∀ entry ∈ done, entry.1.cmp v = .lt := fun entry h =>
    hbelow entry h (v, t) (List.mem_cons_self ..)
  exact ⟨hlast, List.forall_mem_append.mpr ⟨fun entry h => hne (hlast entry h),
    fun entry h => (hne ((List.pairwise_cons.mp hlater).1 entry h)).symm⟩⟩

/-- A binding of a larger variable that changes no bound term comes last. -/
theorem extended_eq_append (hlast : ∀ entry ∈ s.entries, entry.1.cmp v = .lt)
    (hsame : ∀ entry ∈ s.entries, entry.2.rewrite voc .unknown (singleton v t).get? = entry.2) :
    s.extended voc v t = ⟨s.entries ++ [(v, t)]⟩ := by
  have hentries : (s.entries.map fun entry =>
      (entry.1, entry.2.rewrite voc .unknown (singleton v t).get?)) = s.entries := by
    conv_rhs => rw [← List.map_id s.entries]
    exact List.map_congr_left fun entry hentry => by rw [hsame entry hentry]; rfl
  rw [Substitution.extended, hentries, Sorted.insert_eq_append hlast]

end Substitution

/-! ## Facts about terms without bound variables -/

namespace Facts

variable {s s' : Substitution} {t : Term}

theorem fromBindings_of_unbound (h : ∀ v ∈ t.occurrences, ¬s.Binds v) : fromBindings s t = none := by
  unfold fromBindings
  split
  · rename_i v
    rw [Substitution.get?_eq_none_of_not_binds (h v (List.mem_singleton.mpr rfl))]
  · rename_i v u
    rw [Substitution.get?_eq_none_of_not_binds (h v (List.mem_cons_self ..))]
  · rfl

/-- A binding that is still an equality says nothing of a term without its variable. -/
theorem fromEquality_binding {v : Variable} (h : v ∉ t.occurrences) (u : Term) :
    fromEquality t ⟨.var v, u⟩ = none := by
  have other {x : Term} (hx : ∀ w ∈ x.occurrences, w ∈ t.occurrences) : (x == .var v) = false := by
    rw [Bool.eq_false_iff]
    intro heq
    have hv : v ∈ x.occurrences :=
      (Term.occurrences_eq_of_beq heq).symm ▸ List.mem_singleton.mpr rfl
    exact h (hx v hv)
  have hside : fromSides t (.var v) u = none := by
    unfold fromSides
    split
    · rw [Term.beq_comm, other fun _ hw => hw]
      rfl
    · rfl
  have hequation : fromEquation t ⟨.var v, u⟩ = none := by
    unfold fromEquation Term.asEquation?
    split
    · rename_i lhs rhs hsides
      split at hsides
      · obtain ⟨rfl, rfl⟩ := Prod.mk.inj (Option.some.inj hsides)
        rw [other fun w hw => List.mem_append_left _ hw,
          other fun w hw => List.mem_append_right _ (List.mem_append_left _ hw), Bool.false_and,
          Bool.and_false]
        rfl
      · cases hsides
    · rfl
  rw [fromEquality, hside, hequation]
  rfl

theorem ofParts_of_ne_not (hnot : ∀ u, t ≠ .builtin .not [u]) (es : List Equality) :
    ofParts s es t = (fromBindings s t).or (es.findSome? (fromEquality t)) := by
  rw [ofParts]
  · cases fromBindings s t <;> rfl
  · exact hnot

/-- Of a term without bound variables bindings say nothing, whether they were found already or are
    equalities that are to be looked at. -/
theorem ofParts_of_unbound (hs : ∀ v ∈ t.occurrences, ¬s.Binds v)
    (hs' : ∀ v ∈ t.occurrences, ¬s'.Binds v) (es : List Equality) :
    ofParts s (s'.equalities ++ es) t = ofParts .empty es t := by
  have told {t : Term} (hs' : ∀ v ∈ t.occurrences, ¬s'.Binds v) :
      (s'.equalities ++ es).findSome? (fromEquality t) = es.findSome? (fromEquality t) := by
    rw [List.findSome?_append, List.findSome?_eq_none_iff.mpr, Option.none_or]
    exact List.forall_mem_map.mpr fun entry hentry =>
      fromEquality_binding (fun hmem => hs' entry.1 hmem ⟨entry, hentry, rfl⟩) entry.2
  have other {t : Term} (hnot : ∀ u, t ≠ .builtin .not [u])
      (hs : ∀ v ∈ t.occurrences, ¬s.Binds v) (hs' : ∀ v ∈ t.occurrences, ¬s'.Binds v) :
      ofParts s (s'.equalities ++ es) t = ofParts .empty es t := by
    rw [ofParts_of_ne_not hnot, ofParts_of_ne_not hnot, fromBindings_of_unbound hs,
      fromBindings_of_unbound fun v _ => Substitution.not_binds_empty v, told hs']
  induction t using Term.ind with
  | builtin op xs ih =>
    by_cases hnot : ∃ x, op = .not ∧ xs = [x]
    · obtain ⟨x, rfl, rfl⟩ := hnot
      have hoccurs : (Term.builtin .not [x]).occurrences = x.occurrences := List.append_nil _
      rw [hoccurs] at hs hs'
      rw [ofParts, ofParts, ih x (List.mem_singleton.mpr rfl) hs hs']
    · refine other (fun u h => hnot ?_) hs hs'
      exact ⟨u, Term.builtin.inj h⟩
  | _ => exact other (fun _ h => by cases h) hs hs'

/-- The same holds of its value. -/
theorem evaluate_of_unbound (voc : Vocabulary) (hs : ∀ v ∈ t.occurrences, ¬s.Binds v)
    (hs' : ∀ v ∈ t.occurrences, ¬s'.Binds v) (es : List Equality) :
    t.evaluate voc (ofParts s (s'.equalities ++ es)) = t.evaluate voc (ofParts .empty es) := by
  refine Term.evaluate_congr
    (Term.shallow_within voc (fun v => ¬s.Binds v ∧ ¬s'.Binds v) fun _ => True) (fun u hu => ?_) ?_
  · have hu := Term.Within.occurrences hu
    rw [decide, decide,
      ofParts_of_unbound (fun v hv => (hu v hv).1) (fun v hv => (hu v hv).2) es]
  · exact Term.within_occurrences (Term.within_any t) fun v hv => ⟨hs v hv, hs' v hv⟩

end Facts

/-! ## Deciding about an equality again -/

namespace Step

variable {voc : Vocabulary} {unifier : Unifier} {mode : SimplifyMode} {names : FreshNames}

/-- Which names are free does not matter for whether there is a way to bind a variable. -/
theorem narrow_cases (voc : Vocabulary) (v : Variable) (t : Term) :
    (∀ names, narrow voc names v t = none) ∨ ∀ names e, narrow voc names v t ≠ some (.keep e) ∧
      narrow voc names v t ≠ none := by
  unfold narrow
  split
  · exact .inr fun _ _ => ⟨nofun, nofun⟩
  · split
    · split
      · exact .inl fun _ => rfl
      · split
        · exact .inl fun _ => rfl
        · split
          · exact .inl fun _ => rfl
          · exact .inr fun _ _ => ⟨nofun, nofun⟩
    · exact .inl fun _ => rfl

theorem bindTerm_of_keep {v : Variable} {t : Term} {e : Equality}
    (h : bindTerm voc names v t e = .ok (.keep e)) (names' : FreshNames) :
    bindTerm voc names' v t e = .ok (.keep e) := by
  unfold bindTerm at h ⊢
  split at h
  · rename_i hoccurs
    rw [if_pos hoccurs]
    rcases narrow_cases voc v t with hnone | hsome
    · rw [hnone names']
      rfl
    · cases hnarrow : narrow voc names v t with
      | none => exact absurd hnarrow (hsome names e).2
      | some step =>
        rw [hnarrow] at h
        obtain rfl := Except.ok.inj h
        exact absurd hnarrow (hsome names e).1
  · rename_i hoccurs
    rw [if_neg hoccurs]
    exact h

theorem bindVariables_of_keep {x y : Variable} {e : Equality}
    (h : bindVariables voc names x y e = .keep e) (names' : FreshNames) :
    bindVariables voc names' x y e = .keep e := by
  unfold bindVariables at h ⊢
  split at h
  · split at h <;> cases h
  · rename_i hsort
    rw [if_neg hsort]
    split at h
    · cases h
    · rename_i hbelow
      rw [if_neg hbelow]
      split at h
      · cases h
      · rename_i habove
        rw [if_neg habove]
        split at h
        · cases h
        · rfl

/-- What is kept is kept whatever names are free. -/
theorem keep_of_keep {e : Equality} (h : classify voc unifier mode names e = .ok (.keep e))
    (names' : FreshNames) : classify voc unifier mode names' e = .ok (.keep e) := by
  unfold classify at h ⊢
  split at h
  · cases h
  · cases h
  · split at h
    · cases h
    · rename_i hsorts
      rw [if_neg hsorts]
      split at h
      · rename_i hrigid
        rw [if_pos hrigid]
        exact h
      · rename_i hrigid
        rw [if_neg hrigid]
        split at h
        · rename_i x y _ _
          rw [bindVariables_of_keep (Except.ok.inj h) names']
        · exact bindTerm_of_keep h names'
        · exact bindTerm_of_keep h names'
        · rfl

/-- Of two variables of one sort the larger is bound. -/
def Oriented (v : Variable) (t : Term) : Prop :=
  ∀ w, t = .var w → v.sort = w.sort → (v.cmp w).isGT = true

/-- The variable would be bound to the term if the two were stated equal: the sort of the term lies
    below that of the variable and is known to do so, and a variable of the same sort is smaller. -/
structure Rebinds (voc : Vocabulary) (v : Variable) (t : Term) : Prop where
  fits : voc.lattice.isSubsortEq v.sort t.sort = true
  common : voc.lattice.haveCommonSubsort v.sort t.sort = true
  oriented : Oriented v t

theorem classify_of_rebinds {v : Variable} {t : Term} (h : Rebinds voc v t)
    (hoccurs : v ∉ t.occurrences) : classify voc unifier mode names ⟨.var v, t⟩ = .ok (.bind v t) := by
  have hne : (Term.var v == t) = false := by
    rw [Bool.eq_false_iff]
    exact fun heq => hoccurs (Term.occurrences_eq_of_beq heq ▸ List.mem_singleton.mpr rfl)
  have htruth : (⟨.var v, t⟩ : Equality).truth = .unknown := by
    have hclash : (Term.var v).clashes t = false := by cases t <;> rfl
    rw [Equality.truth, hne, hclash]
    rfl
  have hcommon : (!voc.lattice.haveCommonSubsort (Term.var v).sort t.sort) = false := by
    rw [Bool.not_eq_false']
    exact h.common
  have hrigid : (⟨.var v, t⟩ : Equality).isSimplifiable mode.patternFolding = false := rfl
  unfold classify
  simp only [htruth, hcommon, hrigid, Bool.false_eq_true, if_false]
  have hnarrow : narrow voc names v t = some (.bind v t) := by
    unfold narrow
    rw [if_pos h.fits]
  have hterm : bindTerm voc names v t ⟨.var v, t⟩ = .ok (.bind v t) := by
    have hoccurs : t.occurs v = false := by
      rw [← Bool.not_eq_true, Term.occurs_iff]
      exact hoccurs
    rw [bindTerm, hoccurs, hnarrow]
    rfl
  cases t with
  | var w =>
    dsimp only
    rw [bindVariables]
    split
    · rename_i hsort
      rw [if_pos (h.oriented w rfl (beq_iff_eq.mp hsort))]
    · have hfits : voc.lattice.isSubsortEq v.sort w.sort = true := h.fits
      rw [if_pos hfits]
  | _ => exact hterm

end Step

/-! ## What a run leaves -/

namespace Worklist

variable {voc : Vocabulary} {unifier : Unifier} {mode : SimplifyMode} {w w' : Worklist}

/-- A step leaves the bindings as they are or adds one, found in an equality that was rewritten. -/
theorem bindings_of_leads (hw : w.bindings.Resolved) (h : w.Leads voc unifier mode w') :
    w'.bindings = w.bindings ∨ ∃ e rest v t,
      Step.classify voc unifier mode w.fresh (w.looked voc e rest) = .ok (.bind v t) ∧
        ¬w.bindings.Binds v ∧ w'.bindings = w.bindings.extended voc v t := by
  rcases next_inl_cases h with ⟨_, hended⟩ | ⟨e, rest, _, hvisited⟩
  · cases hended <;> exact .inl rfl
  · obtain ⟨step, hstep, happly⟩ := step_of_visit hvisited
    cases step with
    | bind v t =>
      obtain ⟨hv, ht, htb⟩ := fits_of_classify hw hstep
      rw [apply, Substitution.compose_singleton_eq voc hw hv ht htb] at happly
      obtain rfl := Except.ok.inj happly
      exact .inr ⟨e, rest, v, t, hstep, hv, rfl⟩
    | _ =>
      obtain rfl := Except.ok.inj happly
      exact .inl rfl

/-- What a variable is bound to is a side of an equality that was rewritten. -/
theorem reduced_of_classify {names : FreshNames} {e : Equality} {rest : List Equality}
    {v : Variable} {t : Term}
    (h : Step.classify voc unifier mode names (w.looked voc e rest) = .ok (.bind v t)) :
    t.Reduced voc := by
  rcases (Step.relates_of_classify h).1 with heq | heq
  · obtain rfl : (w.looked voc e rest).rhs = t := by rw [heq]
    exact Term.reduced_evaluate voc _ _
  · obtain rfl : (w.looked voc e rest).lhs = t := by rw [heq]
    exact Term.reduced_evaluate voc _ _

/-- The bindings are applied everywhere and in order, and the bound terms are reduced. -/
structure Lasting (voc : Vocabulary) (w : Worklist) : Prop where
  current : w.Current
  ordered : w.bindings.Ascending
  values : ∀ entry ∈ w.bindings.entries, entry.2.Reduced voc

theorem Lasting.next (hw : w.Lasting voc) (h : w.Leads voc unifier mode w') : w'.Lasting voc := by
  suffices hbindings : w'.bindings.Ascending ∧ ∀ entry ∈ w'.bindings.entries, entry.2.Reduced voc
    from ⟨hw.current.next h, hbindings.1, hbindings.2⟩
  rcases bindings_of_leads hw.current.resolved h with
    hsame | ⟨e, rest, v, t, hstep, hv, hextended⟩
  · rw [hsame]
    exact ⟨hw.ordered, hw.values⟩
  · rw [hextended]
    refine ⟨hw.ordered.extended voc v t, fun entry hentry => ?_⟩
    rcases (Substitution.mem_extended_iff voc hv t entry).mp hentry with rfl | ⟨old, _, rfl⟩
    · exact reduced_of_classify hstep
    · exact Term.reduced_evaluate voc _ _

theorem lasting_run {φ : Formula}
    (h : Relation.ReflTransGen (Leads voc unifier mode) (ofFormula φ) w) : w.Lasting voc := by
  induction h with
  | refl => exact ⟨current_ofFormula φ, .nil, nofun⟩
  | tail _ hleads ih => exact ih.next hleads

end Worklist

/-! ### Terms that rewriting gives back -/

namespace Term

variable {voc : Vocabulary} {s : Substitution} {t : Term}

/-- Nothing is left to do at the head without facts, and the head is no bound variable. -/
def FixedHead (voc : Vocabulary) (s : Substitution) (t : Term) : Prop :=
  t.ReducedHead voc ∧ t.WithinHead (fun v => ¬s.Binds v) fun _ => True

/-- A reduced term without bound variables. -/
abbrev Fixed (voc : Vocabulary) (s : Substitution) (t : Term) : Prop := t.All (FixedHead voc s)

theorem Fixed.reduced (h : t.Fixed voc s) : t.Reduced voc := All.mono (fun _ hu => hu.1) h

theorem Fixed.unbound (h : t.Fixed voc s) : ∀ v ∈ t.occurrences, ¬s.Binds v :=
  Within.occurrences (All.mono (fun _ hu => hu.2) h)

theorem fixed_of_reduced (h : t.Reduced voc) (hunbound : ∀ v ∈ t.occurrences, ¬s.Binds v) :
    t.Fixed voc s :=
  h.and (within_occurrences (within_any t) hunbound)

theorem Fixed.rewrite_eq (h : t.Fixed voc s) : t.rewrite voc .unknown s.get? = t :=
  h.reduced.rewrite_eq fun v hv => Substitution.get?_eq_none_of_not_binds (h.unbound v hv)

theorem fixed_rewrite (hs : s.Resolved) (facts : Facts) (t : Term) :
    (t.rewrite voc facts s.get?).Fixed voc s := by
  have hwithin : (t.rewrite voc facts s.get?).Within (fun v => True ∧ ¬s.Binds v) fun _ => True :=
    Worklist.within_rewrite hs (fun entry _ => ⟨trivial, within_any entry.2⟩) (within_any t)
  exact (reduced_evaluate voc facts _).and (Within.mono (fun _ hv => hv.2) hwithin)

end Term

theorem Equality.rewrite_eq_of_fixed {voc : Vocabulary} {s : Substitution} {e : Equality}
    (h : e.All (Term.FixedHead voc s)) : e.rewrite voc .unknown s.get? = e := by
  rw [rewrite, Term.Fixed.rewrite_eq h.1, Term.Fixed.rewrite_eq h.2]

namespace Formula

variable {voc : Vocabulary} {unifier : Unifier} {mode : SimplifyMode} {φ S : Formula}

/-- What is known of every result: bindings, equalities and disjunctions are in order, the bindings
    were applied everywhere, the equalities were kept, and without facts nothing is left to do in
    any of its terms. -/
structure Finished (voc : Vocabulary) (unifier : Unifier) (mode : SimplifyMode) (φ : Formula) :
    Prop where
  resolved : φ.bindings.Resolved
  ordered : φ.bindings.Ascending
  values : ∀ entry ∈ φ.bindings.entries, entry.2.Fixed voc φ.bindings
  equalities : Sorted.Ascending Equality.cmp φ.equalities
  sides : ∀ e ∈ φ.equalities, e.All (Term.FixedHead voc φ.bindings)
  kept : ∀ e ∈ φ.equalities, ∃ names, Step.classify voc unifier mode names e = .ok (.keep e)
  disjunctions : Sorted.Ascending Disjunction.cmp φ.disjunctions
  undecided : ∀ d ∈ φ.disjunctions, d.Undecided
  rewritten : ∀ d ∈ φ.disjunctions, d.rewrite voc .unknown φ.bindings.get? = d

/-- What is absorbed was rewritten and put together again, so rewriting gives it back. -/
theorem rewrite_of_absorb {s : Substitution} (hs : s.Resolved) {ds : List Disjunction}
    {a : Worklist.Absorbed} (h : Worklist.absorb voc s ds = .ok a) :
    ∀ d ∈ a.disjunctions, d.rewrite voc .unknown s.get? = d := by
  intro d hd
  obtain ⟨ψ, harranged, hψ⟩ := Worklist.grown_of_absorb grows_arranged h d hd
  obtain ⟨_, hfixed⟩ : (∀ e ∈ a.equalities, e.All (Term.FixedHead voc s)) ∧ _ :=
    Worklist.each_absorb (fun _ => ⟨⟨trivial, trivial, trivial⟩, trivial⟩)
      (fun t _ => Term.fixed_rewrite hs .unknown t) (fun _ _ φ _ => φ.within_any) h
  cases harranged with
  | falsified w => exact absurd hψ List.not_mem_nil
  | all t es ds _ _ _ hdistinct halternatives =>
    refine rewrite_disjunction_eq_self (hdistinct d hψ) fun χ hχ => ?_
    refine rewrite_eq_self (halternatives d hψ χ hχ) ((Worklist.tidy_absorb h d hd).2 χ hχ) ?_
    exact Everywhere.mono (fun _ h => h) (fun _ => Equality.rewrite_eq_of_fixed) (hfixed d hd χ hχ)

theorem finished_simplifyWithin {steps : Nat}
    (h : φ.simplifyWithin voc unifier mode steps = .ok S) : S.Finished voc unifier mode := by
  obtain ⟨last, hsteps, hlast⟩ := Worklist.exists_leads_of_run h
  obtain ⟨hcurrent, hordered, hvalues⟩ := Worklist.lasting_run hsteps
  have hunbound := hcurrent.visited (Worklist.progress_of_next_inr hlast)
  have hvisited : ∀ e ∈ last.visited, e.All (Term.ReducedHead voc) ∧
      ∃ names, Step.classify voc unifier mode names e = .ok (.keep e) := by
    refine Worklist.forall_visited_run (fun w e rest hkeep => ⟨?_, w.fresh, hkeep⟩) (by exact nofun)
      hsteps
    exact ⟨Term.reduced_evaluate voc _ _, Term.reduced_evaluate voc _ _⟩
  obtain ⟨_, a, habsorb, _, rfl⟩ := Worklist.next_inr_cases hlast
  have hmem {d : Disjunction} (hd : d ∈ (ofParts last.bindings last.visited
      (Sorted.dedup Disjunction.cmp a.disjunctions)).disjunctions) : d ∈ a.disjunctions :=
    Sorted.mem_dedup (Sorted.mem_ofListLast hd)
  refine ⟨hcurrent.resolved, hordered, fun entry hentry => ?_, Sorted.ascending_ofListLast _,
    fun e he => ?_, fun e he => (hvisited e (Sorted.mem_ofListLast he)).2,
    Sorted.ascending_ofListLast _, fun d hd => (Worklist.tidy_absorb habsorb d (hmem hd)).1,
    fun d hd => rewrite_of_absorb hcurrent.resolved habsorb d (hmem hd)⟩
  · exact Term.fixed_of_reduced (hvalues entry hentry) (hcurrent.resolved.unbound entry hentry)
  · have he := Sorted.mem_ofListLast he
    obtain ⟨hlhs, hrhs⟩ := (hvisited e he).1
    exact ⟨Term.fixed_of_reduced hlhs fun v hv => hunbound e he v (List.mem_append_left _ hv),
      Term.fixed_of_reduced hrhs fun v hv => hunbound e he v (List.mem_append_right _ hv)⟩

/-! ## What makes a result stay -/

/-- What a formula states besides one of its equalities. -/
def factsBesides (φ : Formula) (e : Equality) : Facts :=
  Facts.ofParts φ.bindings (Sorted.erase Equality.cmp e φ.equalities)

/-- What the rest of the formula states changes no bound term and no side of an equality, and every
    variable would be bound again to its term. -/
structure Settled (voc : Vocabulary) (φ : Formula) : Prop where
  values : ∀ entry ∈ φ.bindings.entries, entry.2.evaluate voc φ.facts = entry.2
  sides : ∀ e ∈ φ.equalities, e.lhs.evaluate voc (φ.factsBesides e) = e.lhs ∧
    e.rhs.evaluate voc (φ.factsBesides e) = e.rhs
  rebinds : ∀ entry ∈ φ.bindings.entries, Step.Rebinds voc entry.1 entry.2

end Formula

/-! ## The second run -/

namespace Worklist

variable {voc : Vocabulary} {unifier : Unifier} {mode : SimplifyMode} {w w' : Worklist}
  {e : Equality} {rest : List Equality}

theorem run_of_leads (h : w.Leads voc unifier mode w') (n : Nat) :
    w.run voc unifier mode (n + 1) = w'.run voc unifier mode n := by
  rw [run, h]

theorem leads_of_step (e : Equality) (rest : List Equality) (step : Step)
    (hpending : w.pending = e :: rest)
    (hstep : Step.classify voc unifier mode w.fresh (w.looked voc e rest) = .ok step)
    (happly : w.apply voc rest step = .ok w') : w.Leads voc unifier mode w' := by
  have hclassify : Step.classify voc unifier mode w.fresh
      (e.rewrite voc (w.restFacts rest) w.bindings.get?) = .ok step := hstep
  have hvisit : w.visit voc unifier mode e rest = .ok w' := by
    rw [visit, hclassify]
    exact happly
  unfold Leads next
  rw [hpending]
  dsimp only
  rw [hvisit]

section Again

variable {σ : Substitution} {es : List Equality} {ds : List Disjunction} (names : FreshNames)
  (progress : Bool) (hfinished : (Formula.all σ es ds).Finished voc unifier mode)
  (hsettled : (Formula.all σ es ds).Settled voc)

include hfinished hsettled

/-- A binding that is still an equality is not changed when it is looked at: no other equality is
    about its variable, and what the formula states changes no bound term. -/
theorem looked_binding {done todo : List (Variable × Term)} {v : Variable} {t : Term}
    (hparts : σ.entries = done ++ (v, t) :: todo) :
    Equality.rewrite voc (Facts.ofParts ⟨done⟩ (Substitution.equalities ⟨todo⟩ ++ es))
      (Substitution.get? ⟨done⟩) ⟨.var v, t⟩ = ⟨.var v, t⟩ := by
  have hentry : (v, t) ∈ σ.entries := by simp [hparts]
  have hdone : ∀ u, Substitution.Binds ⟨done⟩ u → σ.Binds u := fun u ⟨entry, h, heq⟩ =>
    ⟨entry, by simp [hparts, show entry ∈ done from h], heq⟩
  have htodo : ∀ u, Substitution.Binds ⟨todo⟩ u → σ.Binds u := fun u ⟨entry, h, heq⟩ =>
    ⟨entry, by simp [hparts, show entry ∈ todo from h], heq⟩
  have hother := (Substitution.Ascending.parts hfinished.ordered hparts).2
  have hbound : σ.Binds v := ⟨_, hentry, rfl⟩
  have hnew : ¬Substitution.Binds ⟨done⟩ v := fun ⟨entry, h, heq⟩ =>
    hother entry (List.mem_append_left _ h) heq
  have hfixed := hfinished.values (v, t) hentry
  have hunbound : ∀ u ∈ t.occurrences, ¬σ.Binds u := hfixed.unbound
  have hvariable : (Term.var v).rewrite voc
      (Facts.ofParts ⟨done⟩ (Substitution.equalities ⟨todo⟩ ++ es))
      (Substitution.get? ⟨done⟩) = .var v := by
    rw [Term.rewrite, Term.substitute, Substitution.get?_eq_none_of_not_binds hnew]
    refine Facts.decide_of_silent hnew (Facts.silent_append.mpr ⟨?_, ?_⟩)
    · refine Facts.silent_of_not_mem (List.forall_mem_map.mpr fun entry h hmem => ?_)
      rcases List.mem_append.mp hmem with hmem | hmem
      · exact hother entry (List.mem_append_right _ h) (List.mem_singleton.mp hmem).symm
      · have hentry : entry ∈ σ.entries := by simp [hparts, show entry ∈ todo from h]
        exact hfinished.resolved.unbound entry hentry v hmem hbound
    · refine Facts.silent_of_not_mem fun e he hmem => ?_
      rcases List.mem_append.mp hmem with hmem | hmem
      · exact Term.Fixed.unbound (hfinished.sides e he).1 v hmem hbound
      · exact Term.Fixed.unbound (hfinished.sides e he).2 v hmem hbound
  have hterm : t.rewrite voc (Facts.ofParts ⟨done⟩ (Substitution.equalities ⟨todo⟩ ++ es))
      (Substitution.get? ⟨done⟩) = t := by
    have hvalue : t.evaluate voc (Facts.ofParts σ (Substitution.empty.equalities ++ es)) = t :=
      hsettled.values (v, t) hentry
    rw [Facts.evaluate_of_unbound voc hunbound fun u _ => Substitution.not_binds_empty u] at hvalue
    have hfree : ∀ u ∈ t.occurrences, ¬Substitution.Binds ⟨done⟩ u := fun u hu h =>
      hunbound u hu (hdone u h)
    rw [Term.rewrite, Term.substitute_eq_self hfixed.reduced.flat fun u hu =>
        Substitution.get?_eq_none_of_not_binds (hfree u hu),
      Facts.evaluate_of_unbound voc hfree fun u hu h => hunbound u hu (htodo u h), hvalue]
  rw [Equality.rewrite, hvariable, hterm]

/-- The first of the bindings that are still equalities is found. -/
theorem leads_binding {done todo : List (Variable × Term)} {v : Variable} {t : Term}
    (hparts : σ.entries = done ++ (v, t) :: todo) :
    Leads voc unifier mode
      ⟨names, ⟨done⟩, [], Substitution.equalities ⟨(v, t) :: todo⟩ ++ es, ds, progress⟩
      ⟨names, ⟨done ++ [(v, t)]⟩, [], Substitution.equalities ⟨todo⟩ ++ es, ds, true⟩ := by
  have hentry : (v, t) ∈ σ.entries := by simp [hparts]
  have hdone : ∀ entry ∈ done, entry ∈ σ.entries := fun entry h => by simp [hparts, h]
  obtain ⟨hlast, hother⟩ := Substitution.Ascending.parts hfinished.ordered hparts
  have hbound : σ.Binds v := ⟨_, hentry, rfl⟩
  have hunbound := hfinished.resolved.unbound (v, t) hentry
  refine leads_of_step ⟨.var v, t⟩ (Substitution.equalities ⟨todo⟩ ++ es) (.bind v t) rfl ?_ ?_
  · refine (congrArg (Step.classify voc unifier mode names) ?_).trans
      (Step.classify_of_rebinds (hsettled.rebinds (v, t) hentry) fun hmem => hunbound v hmem hbound)
    exact looked_binding hfinished hsettled hparts
  · have hcomposed : Substitution.compose voc .unknown ⟨done⟩ (.singleton v t) =
        .ok ⟨done ++ [(v, t)]⟩ := by
      rw [Substitution.compose_singleton_eq voc (hfinished.resolved.subset hdone),
        Substitution.extended_eq_append hlast fun entry h => ?_]
      · refine (hfinished.values entry (hdone entry h)).reduced.rewrite_eq fun u hu => ?_
        rw [Substitution.get?_singleton, if_neg]
        rintro rfl
        exact hfinished.resolved.unbound entry (hdone entry h) u hu hbound
      · exact fun ⟨entry, h, heq⟩ => hother entry (List.mem_append_left _ h) heq
      · exact fun hmem => hunbound v hmem hbound
      · exact fun u hu ⟨entry, h, heq⟩ => hunbound u hu ⟨entry, hdone entry h, heq⟩
    rw [apply, hcomposed]

/-- The first of the equalities that are to be looked at is kept. -/
theorem leads_kept {seen : List Equality} (hparts : es = seen ++ e :: rest) :
    Leads voc unifier mode ⟨names, σ, seen, e :: rest, ds, progress⟩
      ⟨names, σ, seen ++ [e], rest, ds, progress⟩ := by
  have he : e ∈ es := by simp [hparts]
  have hrest : Sorted.erase Equality.cmp e es = seen ++ rest := by
    have hascending : Sorted.Ascending Equality.cmp es := hfinished.equalities
    rw [hparts] at hascending ⊢
    exact hascending.erase_append
  have hfixed := hfinished.sides e he
  have side {t : Term} (ht : t.Fixed voc σ)
      (hevaluate : t.evaluate voc (Facts.ofParts σ (Sorted.erase Equality.cmp e es)) = t) :
      t.rewrite voc (Facts.ofParts σ (seen ++ rest)) σ.get? = t := by
    rw [Term.rewrite, Term.substitute_eq_self ht.reduced.flat fun v hv =>
      Substitution.get?_eq_none_of_not_binds (ht.unbound v hv), ← hrest, hevaluate]
  have hlooked : e.rewrite voc (Facts.ofParts σ (seen ++ rest)) σ.get? = e := by
    obtain ⟨hlhs, hrhs⟩ := hsettled.sides e he
    rw [Equality.rewrite, side hfixed.1 hlhs, side hfixed.2 hrhs]
  obtain ⟨names', hkept⟩ := hfinished.kept e he
  refine leads_of_step e rest (.keep e) rfl ?_ rfl
  exact (congrArg (Step.classify voc unifier mode names) hlooked).trans
    (Step.keep_of_keep hkept names)

/-- All bindings are found again, in their order. -/
theorem run_bindings (n : Nat) (todo done : List (Variable × Term))
    (hparts : σ.entries = done ++ todo) : ∃ progress', run voc unifier mode (todo.length + n)
      ⟨names, ⟨done⟩, [], Substitution.equalities ⟨todo⟩ ++ es, ds, progress⟩ =
        run voc unifier mode n ⟨names, σ, [], es, ds, progress'⟩ := by
  induction todo generalizing done progress with
  | nil =>
    obtain ⟨entries⟩ := σ
    obtain rfl : entries = done := hparts.trans (List.append_nil done)
    refine ⟨progress, ?_⟩
    rw [List.length_nil, Nat.zero_add]
    rfl
  | cons entry todo ih =>
    obtain ⟨v, t⟩ := entry
    have hleads := leads_binding names progress hfinished hsettled hparts
    obtain ⟨progress', hrun⟩ := ih true (done ++ [(v, t)]) (by rw [hparts, List.append_assoc]; rfl)
    refine ⟨progress', ?_⟩
    rw [List.length_cons, Nat.add_right_comm, run_of_leads hleads, hrun]

/-- All equalities are kept. -/
theorem run_kept (n : Nat) (rest seen : List Equality) (hparts : es = seen ++ rest) :
    run voc unifier mode (rest.length + n) ⟨names, σ, seen, rest, ds, progress⟩ =
      run voc unifier mode n ⟨names, σ, es, [], ds, progress⟩ := by
  induction rest generalizing seen with
  | nil =>
    rw [List.length_nil, Nat.zero_add, hparts, List.append_nil]
  | cons e rest ih =>
    have hleads := leads_kept names progress hfinished hsettled hparts
    rw [List.length_cons, Nat.add_right_comm, run_of_leads hleads,
      ih (seen ++ [e]) (by rw [hparts, List.append_assoc]; rfl)]

omit hsettled in
/-- Every disjunction is given back. -/
theorem absorb_finished : absorb voc σ ds = .ok ⟨[], ds, false⟩ := by
  have hadded : ∀ d ∈ ds, Formula.top.addDisjunction (d.rewrite voc .unknown σ.get?) =
      .all .empty [] [d] := by
    intro d hd
    have hrewritten : d.rewrite voc .unknown σ.get? = d := hfinished.rewritten d hd
    rw [hrewritten]
    exact Formula.addDisjunctions_of_undecided
      (List.forall_mem_singleton.mpr (hfinished.undecided d hd)) .empty []
      (List.pairwise_singleton ..)
  clear hfinished
  induction ds with
  | nil => rfl
  | cons d ds ih =>
    rw [List.forall_mem_cons] at hadded
    rw [absorb, hadded.1, ih hadded.2]
    rfl

omit hsettled in
/-- When all equalities were kept, the last pass ends with the formula. -/
theorem next_finished : next voc unifier mode ⟨names, σ, es, [], ds, false⟩ =
    .ok (.inr (.all σ es ds)) := by
  have hdisjunctions : Sorted.Ascending Disjunction.cmp ds := hfinished.disjunctions
  have hdedup : Sorted.dedup Disjunction.cmp ds = ds :=
    Sorted.dedup_of_pairwise (hdisjunctions.imp fun hlt heq => by
      rw [Std.OrientedCmp.gt_of_lt hlt] at heq
      cases heq)
  have hform : Formula.ofParts σ es ds = .all σ es ds := by
    have hequalities : Sorted.Ascending Equality.cmp es := hfinished.equalities
    rw [Formula.ofParts, hequalities.ofListLast_eq, hdisjunctions.ofListLast_eq]
  unfold next endPass
  dsimp only
  rw [if_neg Bool.false_ne_true, absorb_finished hfinished]
  dsimp only
  rw [if_neg Bool.false_ne_true, hdedup]
  exact congrArg (fun φ => Except.ok (Sum.inr φ)) hform

/-- The bindings are found, the equalities are kept, once more if there were bindings, and the
    formula comes back. -/
theorem run_finished (n : Nat) :
    run voc unifier mode (σ.entries.length + (es.length + (es.length + (n + 2))))
      (ofFormula (.all σ es ds)) = .ok (.all σ es ds) := by
  have last (names : FreshNames) (n : Nat) :
      run voc unifier mode (n + 1) ⟨names, σ, es, [], ds, false⟩ = .ok (.all σ es ds) := by
    rw [run, next_finished names hfinished]
  obtain ⟨progress, hbindings⟩ := run_bindings _ false hfinished hsettled
    (es.length + (es.length + (n + 2))) σ.entries [] rfl
  refine hbindings.trans ?_
  rw [run_kept _ progress hfinished hsettled _ es [] rfl]
  cases progress with
  | false => exact last _ (es.length + (n + 1))
  | true =>
    have hagain (names : FreshNames) : Leads voc unifier mode ⟨names, σ, es, [], ds, true⟩
        ⟨names, σ, [], es, ds, false⟩ := rfl
    change run voc unifier mode (es.length + (n + 1) + 1) _ = _
    rw [run_of_leads (hagain _), run_kept _ false hfinished hsettled _ es [] rfl, last]

end Again

end Worklist

namespace Formula

variable {voc : Vocabulary} {unifier : Unifier} {mode : SimplifyMode} {φ S : Formula}

theorem exists_stepBound (σ : Substitution) (es : List Equality) (ds : List Disjunction) :
    ∃ n, (all σ es ds).stepBound =
      σ.entries.length + (es.length + (es.length + (n + 2))) := by
  have counted {α : Type} {f : α → Nat} (hf : ∀ a, 1 ≤ f a) (xs : List α) :
      xs.length ≤ (xs.map f).sum := by
    induction xs with
    | nil => exact Nat.le_refl 0
    | cons x xs ih =>
      rw [List.length_cons, List.map_cons, List.sum_cons]
      have hx := hf x
      omega
  have hentries := counted (fun entry => Nat.le_add_left 1 entry.2.size) σ.entries
  have hequalities := counted (f := Equality.size)
    (fun e => Nat.le_trans e.lhs.size_pos (Nat.le_add_right ..)) es
  have hsize : σ.entries.length + es.length ≤ (all σ es ds).size := by
    rw [size]
    omega
  have hlarge : 2 * ((all σ es ds).size + 1) ≤ (all σ es ds).stepBound := by
    have hpow : (all σ es ds).size < 2 ^ (all σ es ds).size := Nat.lt_two_pow_self
    have hmore : 2 ^ ((all σ es ds).size + 1) ≤ (all σ es ds).stepBound :=
      Nat.pow_le_pow_right (by omega) (by omega)
    rw [Nat.pow_succ] at hmore
    omega
  exact ⟨(all σ es ds).stepBound - (σ.entries.length + 2 * es.length + 2), by omega⟩

theorem Finished.simplify_eq (hfinished : S.Finished voc unifier mode) (hsettled : S.Settled voc)
    (hproper : S.isFalse = false) : S.simplify voc unifier mode = .ok S := by
  cases S with
  | falsified w => cases hproper
  | all σ es ds =>
    change (if (all σ es ds).isTrue then Except.ok (all σ es ds) else
      (all σ es ds).simplifyWithin voc unifier mode (all σ es ds).stepBound) = _
    split
    · rfl
    · obtain ⟨n, hbound⟩ := exists_stepBound σ es ds
      rw [simplifyWithin, hbound]
      exact Worklist.run_finished hfinished hsettled n

/-- A settled result is given back when it is simplified. -/
theorem Settled.simplify_eq (hsettled : S.Settled voc) (h : φ.simplify voc unifier mode = .ok S) :
    S.simplify voc unifier mode = .ok S := by
  rcases simplify_result h with rfl | hrun
  · rfl
  · exact (finished_simplifyWithin hrun).simplify_eq hsettled (isFalse_of_simplify h)

end Formula

end Entail
