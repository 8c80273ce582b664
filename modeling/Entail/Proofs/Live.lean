import Entail.Proofs.Nodes
import Entail.Proofs.Sizes

set_option autoImplicit false

/-! # Live variables

What is still to be done about a worklist is measured on its equalities with the bindings put in.
The variables that are left there are live. A step that binds a variable leaves it dead for good,
and brings none to life but those of the term it is bound to, which were live before. -/

namespace Entail

namespace Term

/-! ## The variables of a term with bindings put in -/

theorem occurrences_list (xs : List Term) (frame : Option Term) :
    (list xs frame).occurrences =
      xs.flatMap occurrences ++ (frame.map occurrences).getD [] := by
  cases frame with
  | none => rw [occurrences, allOccurrences_eq, Option.map_none, Option.getD_none, List.append_nil]
  | some u => rw [occurrences, allOccurrences_eq, Option.map_some, Option.getD_some]

theorem occurrences_consFrame (xs : List Term) (frame : Term) :
    (consFrame xs frame).occurrences = xs.flatMap occurrences ++ frame.occurrences := by
  induction frame using Term.ind generalizing xs with
  | closed ys _ =>
    rw [consFrame, occurrences_list, occurrences_list, List.flatMap_append]
    simp
  | framed ys frame _ ih =>
    rw [consFrame, ih, occurrences_list, List.flatMap_append]
    simp
  | _ => cases xs <;> simp [consFrame, occurrences_list]

/-- Substituting puts the variables of its image in the place of each variable. -/
theorem occurrences_substitute (f : Variable → Option Term) (t : Term) :
    (t.substitute f).occurrences =
      t.occurrences.flatMap fun v => ((f v).getD (.var v)).occurrences := by
  have members {xs : List Term} (ih : ∀ x ∈ xs, (x.substitute f).occurrences =
      x.occurrences.flatMap fun v => ((f v).getD (.var v)).occurrences) :
      (xs.map (substitute f)).flatMap occurrences =
        (xs.flatMap occurrences).flatMap fun v => ((f v).getD (.var v)).occurrences := by
    rw [List.flatMap_map, List.flatMap_assoc]
    exact List.flatMap_congr ih
  induction t using Term.ind with
  | var v => simp [substitute, occurrences]
  | app g xs s ih =>
    rw [substitute, substituteAll_eq, occurrences, occurrences, allOccurrences_eq,
      allOccurrences_eq, members ih]
  | builtin op xs ih =>
    rw [substitute, substituteAll_eq, occurrences, occurrences, allOccurrences_eq,
      allOccurrences_eq, members ih]
  | closed xs ih =>
    rw [substitute, substituteAll_eq, occurrences, occurrences, allOccurrences_eq,
      allOccurrences_eq, members ih]
  | framed xs frame ih ihframe =>
    rw [substitute, substituteAll_eq, mkList, occurrences_consFrame, members ih, ihframe,
      occurrences, allOccurrences_eq, List.flatMap_append]
  | ite c t e ihc iht ihe =>
    rw [substitute, occurrences, occurrences, ihc, iht, ihe, List.flatMap_append,
      List.flatMap_append]
  | _ => rfl

/-- Evaluation brings in no variables, and leaves none that is decided. -/
theorem mem_evaluate {voc : Vocabulary} {facts : Facts} {t : Term} {v : Variable}
    (hv : v ∈ (t.evaluate voc facts).occurrences) :
    v ∈ t.occurrences ∧ facts.decide (.var v) = .var v := by
  have hocc : t.Within (· ∈ t.occurrences) fun _ => True :=
    within_occurrences (within_any t) fun _ hx => hx
  have hleft : (t.evaluate voc facts).Within
      (fun x => x ∈ t.occurrences ∧ facts.decide (.var x) = .var x) fun _ => True := by
    refine all_evaluate
      { token := fun t ht => ?_
        var := fun _ hx hleft => ⟨hx, hleft⟩
        app := fun _ _ _ _ => trivial
        builtin := fun _ _ _ => trivial
        closed := fun _ => trivial
        framed := fun _ _ _ _ => trivial
        ite := fun _ _ _ _ => trivial } hocc
    cases t <;> trivial
  exact hleft.occurrences v hv

end Term

namespace Substitution

/-- The term that a variable stands for. -/
def image (s : Substitution) (v : Variable) : Term := (s.get? v).getD (.var v)

variable {voc : Vocabulary} {s s' : Substitution} {v z : Variable} {t : Term}

theorem image_of_not_binds (h : ¬s.Binds v) : s.image v = .var v := by
  rw [image, get?_eq_none_of_not_binds h, Option.getD_none]

theorem Resolved.image_of_mem (hs : s.Resolved) {entry : Variable × Term}
    (hentry : entry ∈ s.entries) : s.image entry.1 = entry.2 := by
  rw [image, hs.get?_of_mem hentry, Option.getD_some]

/-- No bound variable is left in what variables stand for. -/
theorem Resolved.unbound_image (hs : s.Resolved) {u : Variable}
    (hv : v ∈ (s.image u).occurrences) : ¬s.Binds v := by
  by_cases hu : s.Binds u
  · obtain ⟨entry, hentry, rfl⟩ := hu
    rw [hs.image_of_mem hentry] at hv
    exact hs.unbound entry hentry v hv
  · rw [image_of_not_binds hu] at hv
    rw [List.mem_singleton.mp hv]
    exact hu

section Composed

variable (hs : s.Resolved) (hv : ¬s.Binds v) (ht : v ∉ t.occurrences)
  (htb : ∀ w ∈ t.occurrences, ¬s.Binds w) (h : s.compose voc .unknown (singleton v t) = .ok s')

include hs hv ht htb h

/-- What variables stand for after one more variable was bound: the new term, the old terms with
    the variable replaced, and the others themselves. -/
theorem image_compose (u : Variable) :
    (u = v ∧ s'.image u = t) ∨ (u ≠ v ∧ s'.image u = .var u ∧ s.image u = .var u) ∨
      (u ≠ v ∧ s'.image u = (s.image u).rewrite voc .unknown (singleton v t).get?) := by
  obtain ⟨s'', hs'', hmem⟩ := compose_singleton voc hs hv ht htb
  rw [h] at hs''
  obtain rfl := Except.ok.inj hs''
  obtain ⟨hs', hbinds, _⟩ := compose_spec hs hv ht htb h
  by_cases huv : u = v
  · subst huv
    exact Or.inl ⟨rfl, hs'.image_of_mem ((hmem (u, t)).mpr (Or.inl rfl))⟩
  · by_cases hu : s.Binds u
    · obtain ⟨old, hold, rfl⟩ := hu
      refine Or.inr (Or.inr ⟨huv, ?_⟩)
      rw [hs.image_of_mem hold]
      exact hs'.image_of_mem ((hmem _).mpr (Or.inr ⟨old, hold, rfl⟩))
    · have hu' : ¬s'.Binds u := fun hu' => ((hbinds u).mp hu').elim huv hu
      exact Or.inr (Or.inl ⟨huv, image_of_not_binds hu', image_of_not_binds hu⟩)

/-- Only variables of the new term come to what a variable stands for, and the bound one goes. -/
theorem mem_image_compose {u x : Variable} (hx : x ∈ (s'.image u).occurrences) :
    x ∈ t.occurrences ∨ (x ∈ (s.image u).occurrences ∧ x ≠ v) := by
  rcases image_compose hs hv ht htb h u with ⟨_, hu⟩ | ⟨hne, hu, hold⟩ | ⟨_, hu⟩
  · rw [hu] at hx
    exact Or.inl hx
  · rw [hu] at hx
    obtain rfl := List.mem_singleton.mp hx
    exact Or.inr ⟨hold ▸ hx, hne⟩
  · rw [hu] at hx
    exact occurrences_rewrite_singleton voc (s.image u) hx

end Composed

/-- A variable that stood for another one stands for it still, unless that one is bound now. -/
theorem image_compose_var {u x : Variable} (hs : s.Resolved) (hv : ¬s.Binds v) (hne : v ≠ z)
    (hz : ¬s.Binds z) (h : s.compose voc .unknown (singleton v (.var z)) = .ok s')
    (hu : s.image u = .var x) : s'.image u = .var (if x = v then z else x) := by
  have ht : v ∉ (Term.var z).occurrences := fun hmem => hne (List.mem_singleton.mp hmem)
  have htb : ∀ w ∈ (Term.var z).occurrences, ¬s.Binds w := fun w hw =>
    List.mem_singleton.mp hw ▸ hz
  rcases image_compose hs hv ht htb h u with ⟨rfl, hu'⟩ | ⟨hne', hu', hold⟩ | ⟨_, hu'⟩
  · rw [image_of_not_binds hv] at hu
    obtain rfl := Term.var.inj hu
    rw [hu', if_pos rfl]
  · rw [hold] at hu
    obtain rfl := Term.var.inj hu
    rw [hu', if_neg hne']
  · rw [hu', hu, Term.rewrite, Term.substitute, get?_singleton]
    split_ifs
    · rw [Option.getD_some, Term.evaluate, Facts.decide]
      simp [Facts.unknown]
    · rw [Option.getD_none, Term.evaluate, Facts.decide]
      simp [Facts.unknown]

end Substitution

namespace Equality

/-- The equality with bindings put in, before it is evaluated. -/
def instantiate (s : Substitution) (e : Equality) : Equality :=
  ⟨e.lhs.substitute s.get?, e.rhs.substitute s.get?⟩

theorem occurrences_instantiate (s : Substitution) (e : Equality) :
    (e.instantiate s).occurrences = e.occurrences.flatMap fun v => (s.image v).occurrences := by
  rw [occurrences, occurrences, instantiate, Term.occurrences_substitute,
    Term.occurrences_substitute, List.flatMap_append]
  rfl

/-- Where no variable is bound, putting in bindings changes nothing that counts. -/
theorem instantiate_of_unbound {s : Substitution} {e : Equality}
    (h : ∀ v ∈ e.occurrences, ¬s.Binds v) :
    (e.instantiate s).occurrences = e.occurrences ∧ (e.instantiate s).size ≤ e.size := by
  refine ⟨?_, Nat.add_le_add (Term.size_substitute_le fun v hv => ?_)
    (Term.size_substitute_le fun v hv => ?_)⟩
  · rw [occurrences_instantiate, ← List.flatMap_singleton' e.occurrences, List.flatMap_assoc]
    refine List.flatMap_congr fun v hv => ?_
    rw [List.flatMap_singleton, Substitution.image_of_not_binds (h v hv)]
    rfl
  · exact Substitution.get?_eq_none_of_not_binds (h v (List.mem_append_left _ hv))
  · exact Substitution.get?_eq_none_of_not_binds (h v (List.mem_append_right _ hv))

end Equality

/-! ## Variables that nothing decides -/

namespace Facts

/-- None of the equalities tells the truth value of the variable. -/
def Silent (es : List Equality) (v : Variable) : Prop :=
  v.sort.isBool = true → ∀ e ∈ es, fromEquality (.var v) e = none

/-- An equality tells nothing about a variable that is not in it. -/
theorem fromEquality_of_not_mem {v : Variable} {e : Equality} (h : v ∉ e.occurrences) :
    fromEquality (.var v) e = none := by
  have side {t u : Term} (ht : v ∉ t.occurrences) : fromSides (.var v) t u = none := by
    unfold fromSides
    split
    · rw [if_neg]
      intro hsame
      rw [Term.occurrences_eq_of_beq hsame] at ht
      exact ht (List.mem_singleton.mpr rfl)
    · rfl
  rw [Equality.occurrences, List.mem_append, not_or] at h
  rw [fromEquality, side h.1, side h.2]
  rfl

theorem silent_of_not_mem {v : Variable} {es : List Equality}
    (h : ∀ e ∈ es, v ∉ e.occurrences) : Silent es v :=
  fun _ e he => fromEquality_of_not_mem (h e he)

theorem silent_append {v : Variable} {es es' : List Equality} :
    Silent (es ++ es') v ↔ Silent es v ∧ Silent es' v := by
  simp only [Silent, List.forall_mem_append, ← imp_and]

theorem silent_vars (v : Variable) {es : List Equality}
    (h : ∀ e ∈ es, ∃ x y, e = ⟨.var x, .var y⟩) : Silent es v := by
  intro _ e he
  obtain ⟨x, y, rfl⟩ := h e he
  rfl

theorem decide_var (facts : Facts) {v : Variable} (hbool : v.sort.isBool = true) :
    facts.decide (.var v) = ((facts (.var v)).map Term.bool).getD (.var v) := by
  have hlook : ((Term.var v).isToken || !(Term.var v).sort.isBool) = false := by
    change (false || !v.sort.isBool) = false
    rw [hbool]
    rfl
  rw [Facts.decide, hlook, if_neg Bool.false_ne_true]
  cases facts (.var v) <;> rfl

/-- A variable that evaluation leaves alone is told nothing about. -/
theorem silent_of_decide {s : Substitution} {es : List Equality} {v : Variable}
    (h : Facts.decide (ofParts s es) (.var v) = .var v) : Silent es v := by
  intro hbool e he
  rw [decide_var _ hbool] at h
  cases hfacts : ofParts s es (.var v) with
  | some b =>
    rw [hfacts] at h
    exact absurd h (by simp)
  | none =>
    rw [ofParts] at hfacts
    split at hfacts
    · exact absurd hfacts (by simp)
    · exact List.findSome?_eq_none_iff.mp hfacts e he
    · simp

theorem decide_of_silent {s : Substitution} {es : List Equality} {v : Variable}
    (hv : ¬s.Binds v) (h : Silent es v) : Facts.decide (ofParts s es) (.var v) = .var v := by
  rcases Term.decide_cases (ofParts s es) (.var v) with hsame | ⟨b, htold, hbool, _⟩
  · exact hsame
  · have hnone : ofParts s es (.var v) = none := by
      rw [ofParts, fromBindings, Substitution.get?_eq_none_of_not_binds hv]
      · exact List.findSome?_eq_none_iff.mpr (h (beq_iff_eq.mpr hbool))
      · simp
    rw [hnone] at htold
    cases htold

end Facts

namespace Worklist

variable {voc : Vocabulary} {mode : SimplifyMode} {w w' : Worklist} {e : Equality}
  {rest parts : List Equality} {v : Variable} {t : Term} {s' : Substitution}

/-- All equalities of a worklist. -/
def stated (w : Worklist) : List Equality := w.visited ++ w.pending

/-- The variables of the equalities with the bindings put in. -/
def live (w : Worklist) : Finset Variable :=
  (w.stated.flatMap fun e => (e.instantiate w.bindings).occurrences).toFinset

/-- The number of nodes of the equalities with the bindings put in. -/
def weight (w : Worklist) : Nat :=
  (w.stated.map fun e => (e.instantiate w.bindings).size).sum

theorem mem_live_iff : v ∈ w.live ↔
    ∃ e ∈ w.stated, ∃ u ∈ e.occurrences, v ∈ (w.bindings.image u).occurrences := by
  rw [live, List.mem_toFinset, List.mem_flatMap]
  refine exists_congr fun e => and_congr_right fun _ => ?_
  rw [Equality.occurrences_instantiate, List.mem_flatMap]

/-! ## Looking at an equality -/

theorem stated_of_pending (h : w.pending = e :: rest) : w.stated = w.visited ++ e :: rest := by
  rw [stated, h]

/-- The variables of the equality that is looked at are live, not bound, and nothing else tells
    what they are. -/
theorem mem_looked (voc : Vocabulary) (hw : w.bindings.Resolved) (hpending : w.pending = e :: rest)
    (hv : v ∈ (w.looked voc e rest).occurrences) :
    v ∈ w.live ∧ ¬w.bindings.Binds v ∧ Facts.Silent (w.visited ++ rest) v := by
  have hfacts : v ∈ (e.instantiate w.bindings).occurrences ∧
      Facts.decide (w.restFacts rest) (.var v) = .var v := by
    rcases List.mem_append.mp hv with hv | hv
    · exact (Term.mem_evaluate hv).imp_left fun hocc => List.mem_append_left _ hocc
    · exact (Term.mem_evaluate hv).imp_left fun hocc => List.mem_append_right _ hocc
  rw [Equality.occurrences_instantiate, List.mem_flatMap] at hfacts
  obtain ⟨⟨u, hu, hocc⟩, hdecide⟩ := hfacts
  have he : e ∈ w.stated := by
    rw [stated_of_pending hpending]
    exact List.mem_append_right _ (List.mem_cons_self ..)
  exact ⟨mem_live_iff.mpr ⟨e, he, u, hu, hocc⟩, hw.unbound_image hocc,
    Facts.silent_of_decide hdecide⟩

theorem size_looked (w : Worklist) (e : Equality) (rest : List Equality) :
    (w.looked voc e rest).size ≤ (e.instantiate w.bindings).size :=
  Equality.size_rewrite voc _ _ e

/-- A variable that stands for another one, and a variable that is not bound, are looked at as
    they are unless something tells their truth values. -/
theorem looked_vars {a b z : Variable} (ha : w.bindings.image a = .var b)
    (hb : ¬w.bindings.Binds b) (hz : ¬w.bindings.Binds z)
    (hbSilent : Facts.Silent (w.visited ++ rest) b) (hzSilent : Facts.Silent (w.visited ++ rest) z) :
    w.looked voc ⟨.var a, .var z⟩ rest = ⟨.var b, .var z⟩ := by
  have side {u x : Variable} (hu : w.bindings.image u = .var x) (hx : ¬w.bindings.Binds x)
      (hsilent : Facts.Silent (w.visited ++ rest) x) :
      (Term.var u).rewrite voc (w.restFacts rest) w.bindings.get? = .var x := by
    have hput : (Term.var u).substitute w.bindings.get? = .var x := hu
    rw [Term.rewrite, hput, Term.evaluate]
    exact Facts.decide_of_silent hx hsilent
  rw [looked, Equality.rewrite, side ha hb hbSilent,
    side (Substitution.image_of_not_binds hz) hz hzSilent]

/-! ## What a step does to live variables -/

/-- Putting other equalities in the place of one, with some of its variables and new ones. -/
theorem live_introduce (hw : w.bindings.Resolved) (hpending : w.pending = e :: rest)
    {N : Finset Variable} (hN : ∀ v ∈ N, ¬w.bindings.Binds v)
    (hparts : ∀ part ∈ parts, ∀ v ∈ part.occurrences,
      v ∈ (w.looked voc e rest).occurrences ∨ v ∈ N)
    (hbindings : w'.bindings = w.bindings) (hstated : w'.stated = w.visited ++ parts ++ rest) :
    w'.live ⊆ w.live ∪ N := by
  intro v hv
  rw [mem_live_iff, hbindings, hstated] at hv
  obtain ⟨e', he', u, hu, hv⟩ := hv
  have old (hmem : e' ∈ w.visited ++ rest) : v ∈ w.live ∪ N := by
    refine Finset.mem_union_left N (mem_live_iff.mpr ⟨e', ?_, u, hu, hv⟩)
    rw [stated_of_pending hpending]
    rcases List.mem_append.mp hmem with hmem | hmem
    · exact List.mem_append_left _ hmem
    · exact List.mem_append_right _ (List.mem_cons_of_mem _ hmem)
  rcases List.mem_append.mp he' with he' | he'
  · rcases List.mem_append.mp he' with he' | he'
    · exact old (List.mem_append_left _ he')
    · rcases hparts e' he' u hu with hlooked | hnew
      · have hu := mem_looked voc hw hpending hlooked
        rw [Substitution.image_of_not_binds hu.2.1] at hv
        rw [List.mem_singleton.mp hv]
        exact Finset.mem_union_left N hu.1
      · rw [Substitution.image_of_not_binds (hN u hnew)] at hv
        rw [List.mem_singleton.mp hv]
        exact Finset.mem_union_right _ hnew
  · exact old (List.mem_append_right _ he')

/-- Putting other equalities with some of its variables in the place of one. -/
theorem live_replace (hw : w.bindings.Resolved) (hpending : w.pending = e :: rest)
    (hparts : ∀ part ∈ parts, ∀ v ∈ part.occurrences, v ∈ (w.looked voc e rest).occurrences)
    (hbindings : w'.bindings = w.bindings) (hstated : w'.stated = w.visited ++ parts ++ rest) :
    w'.live ⊆ w.live := by
  have hlive : w'.live ⊆ w.live ∪ ∅ := live_introduce hw hpending nofun
    (fun part hpart v hv => Or.inl (hparts part hpart v hv)) hbindings hstated
  rwa [Finset.union_empty] at hlive

theorem weight_replace (hw : w.bindings.Resolved) (hpending : w.pending = e :: rest)
    (hparts : ∀ part ∈ parts, ∀ v ∈ part.occurrences, v ∈ (w.looked voc e rest).occurrences)
    (hbindings : w'.bindings = w.bindings) (hstated : w'.stated = w.visited ++ parts ++ rest) :
    w'.weight + (w.looked voc e rest).size ≤ w.weight + (parts.map Equality.size).sum := by
  have hsum : (parts.map fun part => (part.instantiate w.bindings).size).sum ≤
      (parts.map Equality.size).sum :=
    List.sum_le_sum fun part hpart => (Equality.instantiate_of_unbound fun v hv =>
      (mem_looked voc hw hpending (hparts part hpart v hv)).2.1).2
  have hlooked : (w.looked voc e rest).size ≤ (e.instantiate w.bindings).size :=
    size_looked w e rest
  rw [weight, weight, hbindings, hstated, stated_of_pending hpending]
  simp only [List.map_append, List.map_cons, List.sum_append, List.sum_cons]
  omega

/-- Binding a variable to a term of live variables leaves it dead. -/
theorem live_bind (hw : w.bindings.Resolved) (hpending : w.pending = e :: rest)
    (hfits : Fits w.bindings (.bind v t)) (ht : ∀ x ∈ t.occurrences, x ∈ w.live)
    (hs' : w.bindings.compose voc .unknown (.singleton v t) = .ok s')
    (hbindings : w'.bindings = s') (hstated : w'.stated = w.visited ++ rest) :
    w'.live ⊆ w.live.erase v := by
  obtain ⟨hv, hvt, htb⟩ := hfits
  intro x hx
  rw [mem_live_iff, hbindings, hstated] at hx
  obtain ⟨e', he', u, hu, hx⟩ := hx
  rw [Finset.mem_erase]
  rcases Substitution.mem_image_compose hw hv hvt htb hs' hx with hxt | ⟨hxu, hne⟩
  · exact ⟨fun heq => hvt (heq ▸ hxt), ht x hxt⟩
  · refine ⟨hne, mem_live_iff.mpr ⟨e', ?_, u, hu, hxu⟩⟩
    rw [stated_of_pending hpending]
    rcases List.mem_append.mp he' with he' | he'
    · exact List.mem_append_left _ he'
    · exact List.mem_append_right _ (List.mem_cons_of_mem _ he')

end Worklist

end Entail
