import Entail.Proofs.Bindings
import Entail.Proofs.Rewriting

set_option autoImplicit false

/-! # Composition of substitutions

While a formula is simplified no bound variable occurs in a bound term. Adding a binding for a
variable that is not bound yet keeps it so when the new term mentions no bound variable and not the
variable itself: then composition cannot fail, and it states the old bindings and the new one. -/

namespace Entail

variable {V : Type}

namespace Substitution

/-- The variable is bound. -/
def Binds (s : Substitution) (v : Variable) : Prop := ∃ entry ∈ s.entries, entry.1 = v

/-- No bound variable occurs in a bound term, and none is bound twice. -/
structure Resolved (s : Substitution) : Prop where
  unbound : ∀ entry ∈ s.entries, ∀ v ∈ entry.2.occurrences, ¬s.Binds v
  single : ∀ entry ∈ s.entries, ∀ other ∈ s.entries, entry.1 = other.1 → entry = other

theorem resolved_empty : empty.Resolved := ⟨nofun, nofun⟩

/-- Leaving out bindings keeps the others resolved. -/
theorem Resolved.subset {s s' : Substitution} (hs : s.Resolved)
    (h : ∀ entry ∈ s'.entries, entry ∈ s.entries) : s'.Resolved where
  unbound entry hentry v hv := by
    rintro ⟨other, hother, rfl⟩
    exact hs.unbound entry (h entry hentry) other.1 hv ⟨other, h other hother, rfl⟩
  single := Single.subset hs.single h

theorem not_binds_of_get? {s : Substitution} {v : Variable} (h : s.get? v = none) :
    ¬s.Binds v := by
  rintro ⟨entry, hentry, rfl⟩
  exact get?_eq_none_iff.mp h entry hentry rfl

theorem get?_eq_none_of_not_binds {s : Substitution} {v : Variable} (h : ¬s.Binds v) :
    s.get? v = none :=
  get?_eq_none_iff.mpr fun entry hentry heq => h ⟨entry, hentry, heq⟩

/-- A binding is found by its variable. -/
theorem Resolved.get?_of_mem {s : Substitution} (hs : s.Resolved) {entry : Variable × Term}
    (hentry : entry ∈ s.entries) : s.get? entry.1 = some entry.2 :=
  Single.get?_of_mem hs.single hentry

/-- Resolved bindings hold once every bound variable is given the value of its term. -/
theorem Resolved.holds_after {s : Substitution} (hs : s.Resolved) (A : Algebra V)
    (ρ : Variable → V) : s.Holds A (Term.after A ρ s.get?) := by
  intro entry hentry
  have hfree : ∀ v ∈ entry.2.occurrences, Term.after A ρ s.get? v = ρ v := by
    intro v hv
    rw [Term.after, get?_eq_none_of_not_binds (hs.unbound entry hentry v hv)]
    rfl
  rw [Term.eval_congr A entry.2 hfree, Term.after, hs.get?_of_mem hentry]
  rfl

theorem get?_singleton (v w : Variable) (t : Term) :
    (singleton v t).get? w = if w = v then some t else none := by
  rw [get?, singleton, lookup_cons]
  rfl

/-- Where a variable has the value of a term, replacing it keeps values. -/
theorem agree_singleton {A : Algebra V} {ρ : Variable → V} {v : Variable} {t : Term}
    (h : ρ v = t.eval A ρ) :
    ∀ w u, (singleton v t).get? w = some u → ρ w = u.eval A ρ := by
  intro w u hu
  rw [get?_singleton] at hu
  split_ifs at hu with hw
  obtain rfl := Option.some.inj hu
  rw [hw, h]

/-- The variables of a term in which a variable was replaced. -/
theorem occurrences_rewrite_singleton (voc : Vocabulary) {v : Variable} {t : Term} (u : Term)
    {w : Variable} (hw : w ∈ (u.rewrite voc .unknown (singleton v t).get?).occurrences) :
    w ∈ t.occurrences ∨ (w ∈ u.occurrences ∧ w ≠ v) := by
  have hu : u.Within (· ∈ u.occurrences) fun _ => True :=
    Term.within_occurrences (Term.within_any u) fun _ hx => hx
  have hsub : (u.substitute (singleton v t).get?).Within
      (fun x => x ∈ t.occurrences ∨ (x ∈ u.occurrences ∧ x ≠ v)) fun _ => True := by
    refine Term.within_substitute hu fun x hx => ?_
    rw [get?_singleton]
    split_ifs with heq
    · exact Term.within_occurrences (Term.within_any t) fun _ hy => Or.inl hy
    · exact Or.inr ⟨hx, heq⟩
  exact (Term.within_evaluate voc .unknown hsub).occurrences w hw

variable {voc : Vocabulary} {s : Substitution} {v : Variable} {t : Term}

theorem applied_singleton {entries : List (Variable × Term)} (h : ∀ entry ∈ entries, entry.1 ≠ v) :
    applied voc .unknown (singleton v t) entries =
      .ok (entries.map fun entry => (entry.1, entry.2.rewrite voc .unknown (singleton v t).get?)) := by
  induction entries with
  | nil => rfl
  | cons entry entries ih =>
    rw [List.forall_mem_cons] at h
    obtain ⟨u, w⟩ := entry
    rw [applied, get?_singleton, if_neg h.1]
    simp only [ih h.2]
    rfl

theorem withoutCycles_eq {entries : List (Variable × Term)}
    (h : ∀ entry ∈ entries, entry.1 ∉ entry.2.occurrences) :
    withoutCycles entries = .ok entries := by
  induction entries with
  | nil => rfl
  | cons entry entries ih =>
    rw [List.forall_mem_cons] at h
    obtain ⟨u, w⟩ := entry
    have hvar : (w.asVar? == some u) = false := by
      cases w with
      | var x =>
        have hne : x ≠ u := by
          rintro rfl
          exact h.1 (List.mem_singleton.mpr rfl)
        simpa [Term.asVar?] using hne
      | _ => rfl
    have hoccurs : w.occurs u = false := by
      rw [← Bool.not_eq_true, Term.occurs_iff]
      exact h.1
    rw [withoutCycles, hvar, hoccurs]
    simp only [Bool.false_eq_true, if_false, Bool.false_and, ih h.2]
    rfl

/-- A new binding among the old ones, whose terms are rewritten with it. -/
def extended (voc : Vocabulary) (s : Substitution) (v : Variable) (t : Term) : Substitution :=
  ⟨Sorted.insert (fun a b => a.1.cmp b.1) (v, t) (s.entries.map fun entry =>
    (entry.1, entry.2.rewrite voc .unknown (singleton v t).get?))⟩

theorem mem_extended_iff (voc : Vocabulary) (hv : ¬s.Binds v) (t : Term)
    (entry : Variable × Term) : entry ∈ (s.extended voc v t).entries ↔
      entry = (v, t) ∨ ∃ old ∈ s.entries,
        entry = (old.1, old.2.rewrite voc .unknown (singleton v t).get?) := by
  rw [extended, Sorted.mem_insert_iff]
  · refine or_congr_right ?_
    rw [List.mem_map]
    exact exists_congr fun old => and_congr_right fun _ => eq_comm
  · rw [List.forall_mem_map]
    exact fun old hold heq => hv ⟨old, hold, ((Variable.cmp_eq_iff _ _).mp heq).symm⟩

/-- Binding one more variable to a term without bound variables: every old term is rewritten with
    the new binding. -/
theorem compose_singleton_eq (voc : Vocabulary) (hs : s.Resolved) (hv : ¬s.Binds v)
    (ht : v ∉ t.occurrences) (htb : ∀ w ∈ t.occurrences, ¬s.Binds w) :
    s.compose voc .unknown (singleton v t) = .ok (s.extended voc v t) := by
  have hne : ∀ entry ∈ s.entries, entry.1 ≠ v := fun entry hentry heq => hv ⟨entry, hentry, heq⟩
  have hacyclic : ∀ entry ∈ (s.extended voc v t).entries, entry.1 ∉ entry.2.occurrences := by
    intro entry hentry hoccurs
    rcases (mem_extended_iff voc hv t entry).mp hentry with rfl | ⟨old, hold, rfl⟩
    · exact ht hoccurs
    · rcases occurrences_rewrite_singleton voc old.2 hoccurs with hoccurs | ⟨hoccurs, _⟩
      · exact htb old.1 hoccurs ⟨old, hold, rfl⟩
      · exact hs.unbound old hold old.1 hoccurs ⟨old, hold, rfl⟩
  rw [compose, applied_singleton hne]
  change (withoutCycles (s.extended voc v t).entries).bind _ = _
  rw [withoutCycles_eq hacyclic]
  rfl

theorem compose_singleton (voc : Vocabulary) (hs : s.Resolved) (hv : ¬s.Binds v)
    (ht : v ∉ t.occurrences) (htb : ∀ w ∈ t.occurrences, ¬s.Binds w) :
    ∃ s', s.compose voc .unknown (singleton v t) = .ok s' ∧ ∀ entry, entry ∈ s'.entries ↔
      entry = (v, t) ∨ ∃ old ∈ s.entries,
        entry = (old.1, old.2.rewrite voc .unknown (singleton v t).get?) :=
  ⟨_, compose_singleton_eq voc hs hv ht htb, mem_extended_iff voc hv t⟩

/-- Composition with a new binding states the old bindings and the new one, and stays resolved. -/
theorem compose_spec {s' : Substitution} (hs : s.Resolved) (hv : ¬s.Binds v)
    (ht : v ∉ t.occurrences) (htb : ∀ w ∈ t.occurrences, ¬s.Binds w)
    (h : s.compose voc .unknown (singleton v t) = .ok s') :
    s'.Resolved ∧ (∀ w, s'.Binds w ↔ w = v ∨ s.Binds w) ∧
      ∀ {V : Type} (A : Algebra V) (ρ : Variable → V),
        s'.Holds A ρ ↔ s.Holds A ρ ∧ ρ v = t.eval A ρ := by
  obtain ⟨s'', hs'', hmem⟩ := compose_singleton voc hs hv ht htb
  rw [h] at hs''
  obtain rfl := Except.ok.inj hs''
  have hbinds (w : Variable) : s'.Binds w ↔ w = v ∨ s.Binds w := by
    constructor
    · rintro ⟨entry, hentry, rfl⟩
      rcases (hmem entry).mp hentry with rfl | ⟨old, hold, rfl⟩
      · exact Or.inl rfl
      · exact Or.inr ⟨old, hold, rfl⟩
    · rintro (rfl | ⟨old, hold, rfl⟩)
      · exact ⟨(w, t), (hmem _).mpr (Or.inl rfl), rfl⟩
      · exact ⟨_, (hmem _).mpr (Or.inr ⟨old, hold, rfl⟩), rfl⟩
  refine ⟨⟨fun entry hentry w hw => ?_, fun entry hentry other hother heq => ?_⟩, hbinds,
    fun A ρ => ⟨fun hholds => ?_, fun hholds => ?_⟩⟩
  · rw [hbinds, not_or]
    rcases (hmem entry).mp hentry with rfl | ⟨old, hold, rfl⟩
    · exact ⟨fun heq => ht (heq ▸ hw), htb w hw⟩
    · rcases occurrences_rewrite_singleton voc old.2 hw with hw | ⟨hw, hne⟩
      · exact ⟨fun heq => ht (heq ▸ hw), htb w hw⟩
      · exact ⟨hne, hs.unbound old hold w hw⟩
  · rcases (hmem entry).mp hentry with rfl | ⟨old, hold, rfl⟩
    · rcases (hmem other).mp hother with rfl | ⟨old', hold', rfl⟩
      · rfl
      · exact absurd ⟨old', hold', heq.symm⟩ hv
    · rcases (hmem other).mp hother with rfl | ⟨old', hold', rfl⟩
      · exact absurd ⟨old, hold, heq⟩ hv
      · rw [hs.single old hold old' hold' heq]
  · have hvt : ρ v = t.eval A ρ := hholds (v, t) ((hmem _).mpr (Or.inl rfl))
    refine ⟨fun old hold => ?_, hvt⟩
    have hnew := hholds _ ((hmem _).mpr (Or.inr ⟨old, hold, rfl⟩))
    rwa [Term.eval_rewrite voc (Facts.unknown_sound A ρ) (agree_singleton hvt)] at hnew
  · intro entry hentry
    rcases (hmem entry).mp hentry with rfl | ⟨old, hold, rfl⟩
    · exact hholds.2
    · rw [Term.eval_rewrite voc (Facts.unknown_sound A ρ) (agree_singleton hholds.2)]
      exact hholds.1 old hold

/-- What the bound terms have in common they keep under composition. -/
theorem forall_mem_compose {s' : Substitution} (hs : s.Resolved) (hv : ¬s.Binds v)
    (ht : v ∉ t.occurrences) (htb : ∀ w ∈ t.occurrences, ¬s.Binds w)
    (h : s.compose voc .unknown (singleton v t) = .ok s') {P : Variable × Term → Prop}
    (hnew : P (v, t)) (hold : ∀ old ∈ s.entries,
      P (old.1, old.2.rewrite voc .unknown (singleton v t).get?)) :
    ∀ entry ∈ s'.entries, P entry := by
  obtain ⟨s'', hs'', hmem⟩ := compose_singleton voc hs hv ht htb
  rw [h] at hs''
  obtain rfl := Except.ok.inj hs''
  intro entry hentry
  rcases (hmem entry).mp hentry with rfl | ⟨old, hold', rfl⟩
  · exact hnew
  · exact hold old hold'

end Substitution

end Entail
