import Entail.Proofs.Confluence
import Entail.Proofs.Live

set_option autoImplicit false

/-! # One substitution after another

When two substitutions can be composed, rewriting with the composition is rewriting with the first
and then with the second. Their keys may overlap and their values may mention bound variables:
where both bind a variable the second has to give the value of the first the same term, and the
bindings of the second one, which are not evaluated when they are added, are evaluated when they
are used. What composition drops binds a variable to itself. -/

namespace Entail

theorem exists_of_map_ok {ε α β : Type} {x : Except ε α} {f : α → β} {b : β}
    (h : (do return f (← x)) = Except.ok b) : ∃ a, x = .ok a ∧ f a = b := by
  cases x with
  | error e => simp at h
  | ok a => exact ⟨a, rfl, Except.ok.inj h⟩

namespace Substitution

variable {voc : Vocabulary} {facts : Facts} {s other c : Substitution}

theorem single_of_nodup (h : (s.entries.map Prod.fst).Nodup) : s.Single :=
  fun _ hentry _ hother heq => List.inj_on_of_nodup_map h hentry hother heq

/-! ## The entries of a composition -/

theorem applied_cons {v : Variable} {t : Term} {entries own : List (Variable × Term)}
    (h : applied voc facts other ((v, t) :: entries) = .ok own) :
    (∀ bound, other.get? v = some bound → (bound == t.rewrite voc facts other.get?) = true) ∧
      ∃ rest, applied voc facts other entries = .ok rest ∧
        (v, t.rewrite voc facts other.get?) :: rest = own := by
  rw [applied] at h
  split at h
  · next bound hbound =>
    split_ifs at h with heq
    refine ⟨fun u hu => ?_, exists_of_map_ok h⟩
    rw [hbound] at hu
    obtain rfl := Option.some.inj hu
    exact heq
  · next hnone => exact ⟨fun u hu => by simp [hnone] at hu, exists_of_map_ok h⟩

/-- The values are rewritten, and where `other` binds a variable as well the terms are equal. -/
theorem applied_spec {entries own : List (Variable × Term)}
    (h : applied voc facts other entries = .ok own) :
    own = entries.map (fun entry => (entry.1, entry.2.rewrite voc facts other.get?)) ∧
      ∀ entry ∈ own, ∀ bound, other.get? entry.1 = some bound → (bound == entry.2) = true := by
  induction entries generalizing own with
  | nil =>
    obtain rfl := Except.ok.inj h
    simp
  | cons entry entries ih =>
    obtain ⟨v, t⟩ := entry
    obtain ⟨hbound, rest, hrest, rfl⟩ := applied_cons h
    obtain ⟨rfl, hothers⟩ := ih hrest
    exact ⟨rfl, List.forall_mem_cons.mpr ⟨hbound, hothers⟩⟩

/-- What is dropped are identities, and what is kept is no cycle through a normal term. -/
theorem withoutCycles_spec {entries kept : List (Variable × Term)}
    (h : withoutCycles entries = .ok kept) :
    (∀ entry, entry ∈ kept ↔ entry ∈ entries ∧ entry.2 ≠ .var entry.1) ∧
      ∀ entry ∈ kept, ¬(entry.1 ∈ entry.2.occurrences ∧ entry.2.isNormal = true) := by
  induction entries generalizing kept with
  | nil =>
    obtain rfl := Except.ok.inj h
    simp
  | cons entry entries ih =>
    obtain ⟨v, t⟩ := entry
    rw [withoutCycles] at h
    split_ifs at h with hvar hcycle
    · obtain ⟨hkept, hcycles⟩ := ih h
      obtain rfl : t = .var v := by
        cases t <;> simp_all [Term.asVar?]
      refine ⟨fun entry => ?_, hcycles⟩
      rw [hkept, List.mem_cons]
      constructor
      · exact fun h => ⟨Or.inr h.1, h.2⟩
      · rintro ⟨rfl | hentry, hne⟩
        · simp at hne
        · exact ⟨hentry, hne⟩
    · obtain ⟨rest, hrest, rfl⟩ := exists_of_map_ok h
      obtain ⟨hkept, hcycles⟩ := ih hrest
      have hne : t ≠ .var v := by
        rintro rfl
        simp [Term.asVar?] at hvar
      refine ⟨fun entry => ?_, List.forall_mem_cons.mpr ⟨?_, hcycles⟩⟩
      · rw [List.mem_cons, hkept, List.mem_cons]
        constructor
        · rintro (rfl | ⟨hentry, hne⟩)
          · exact ⟨Or.inl rfl, hne⟩
          · exact ⟨Or.inr hentry, hne⟩
        · rintro ⟨rfl | hentry, hne⟩
          · exact Or.inl rfl
          · exact Or.inr ⟨hentry, hne⟩
      · simpa [Term.occurs_iff] using hcycle

/-- The entries of both substitutions before identities and cycles are looked for. -/
def joined (own : List (Variable × Term)) (other : Substitution) : List (Variable × Term) :=
  Sorted.union (fun a b => a.1.cmp b.1) own other.entries

theorem mem_joined {own : List (Variable × Term)} {entry : Variable × Term}
    (h : entry ∈ joined own other) : entry ∈ own ∨ entry ∈ other.entries :=
  Sorted.mem_foldl (fun _ _ _ => Sorted.mem_insert _) other.entries own h

/-- Every variable that one of the two binds is bound. -/
theorem exists_mem_joined {own : List (Variable × Term)} {entry : Variable × Term}
    (h : entry ∈ own ∨ entry ∈ other.entries) : ∃ entry' ∈ joined own other, entry'.1 = entry.1 := by
  rcases h with h | h
  · exact ⟨entry, Sorted.mem_union_of_mem _ h, rfl⟩
  · obtain ⟨entry', hentry', rfl | heq⟩ :=
      Sorted.exists_mem_union (fun a b => a.1.cmp b.1) h own
    · exact ⟨_, hentry', rfl⟩
    · exact ⟨entry', hentry', ((Variable.cmp_eq_iff _ _).mp heq).symm⟩

theorem compose_eq_ok (h : s.compose voc facts other = .ok c) :
    ∃ own, applied voc facts other s.entries = .ok own ∧
      withoutCycles (joined own other) = .ok c.entries := by
  rw [compose] at h
  cases happlied : applied voc facts other s.entries with
  | error e =>
    rw [happlied] at h
    cases h
  | ok own =>
    rw [happlied] at h
    obtain ⟨kept, hkept, rfl⟩ := exists_of_map_ok h
    exact ⟨own, rfl, hkept⟩

/-! ## The value of a variable -/

variable {sigs : Signatures}

theorem agreed_image (hs : ∀ entry ∈ s.entries, entry.2.Agreed sigs) (v : Variable) :
    (s.image v).Agreed sigs := by
  rw [image]
  cases hget : s.get? v with
  | none => exact trivial
  | some t => exact hs _ (mem_of_get? hget)

/-- Whichever entry of a variable is kept, it evaluates to what the first substitution and then the
    second one give. -/
theorem evaluate_of_mem_joined (hs : s.Single) (hother : other.Single)
    (hagreed : ∀ entry ∈ s.entries, entry.2.Agreed sigs)
    (hagreed' : ∀ entry ∈ other.entries, entry.2.Agreed sigs) {own : List (Variable × Term)}
    (h : applied voc .unknown other s.entries = .ok own) {entry : Variable × Term}
    (hentry : entry ∈ joined own other) : entry.2.evaluate voc .unknown =
      (s.image entry.1).rewrite voc .unknown other.get? := by
  obtain ⟨hown, hoverlap⟩ := applied_spec h
  have rewritten {old : Variable × Term} (hold : old ∈ s.entries) :
      (old.2.rewrite voc .unknown other.get?).evaluate voc .unknown =
        (s.image old.1).rewrite voc .unknown other.get? := by
    have himage : s.image old.1 = old.2 := by rw [image, hs.get?_of_mem hold, Option.getD_some]
    rw [himage]
    exact Term.evaluate_evaluate (Term.within_substitute (hagreed old hold)
      fun v _ => agreed_image hagreed' v)
  rcases mem_joined hentry with hmem | hmem
  · rw [hown] at hmem
    obtain ⟨old, hold, rfl⟩ := List.mem_map.mp hmem
    exact rewritten hold
  · have hbound := hother.get?_of_mem hmem
    cases hget : s.get? entry.1 with
    | none =>
      have himage : s.image entry.1 = .var entry.1 := by rw [image, hget, Option.getD_none]
      rw [himage, Term.rewrite, Term.substitute, hbound, Option.getD_some]
    | some t =>
      have hold : (entry.1, t) ∈ s.entries := mem_of_get? hget
      -- where both bind the variable the terms have to be equal
      have hequal : (entry.2 == t.rewrite voc .unknown other.get?) = true := by
        refine hoverlap (entry.1, t.rewrite voc .unknown other.get?) ?_ _ hbound
        rw [hown]
        exact List.mem_map_of_mem hold
      have heq : entry.2 = t.rewrite voc .unknown other.get? :=
        Term.eq_of_bare (hagreed' entry hmem) (Term.agreed_rewrite voc .unknown hagreed'
          (hagreed _ hold)) ((Term.beq_iff _ _).mp hequal)
      rw [heq]
      exact rewritten hold

/-- The value that a composition gives to a variable. -/
theorem evaluate_image_compose (hs : s.Single) (hother : other.Single)
    (hagreed : ∀ entry ∈ s.entries, entry.2.Agreed sigs)
    (hagreed' : ∀ entry ∈ other.entries, entry.2.Agreed sigs)
    (h : s.compose voc .unknown other = .ok c) (v : Variable) :
    (c.image v).evaluate voc .unknown = (s.image v).rewrite voc .unknown other.get? := by
  obtain ⟨own, happlied, hcycles⟩ := compose_eq_ok h
  obtain ⟨hkept, _⟩ := withoutCycles_spec hcycles
  cases hget : c.get? v with
  | some t =>
    have hmem : (v, t) ∈ joined own other := ((hkept _).mp (mem_of_get? hget)).1
    rw [image, hget]
    exact evaluate_of_mem_joined hs hother hagreed hagreed' happlied hmem
  | none =>
    rw [image, hget, Option.getD_none]
    by_cases hbinds : ∃ entry ∈ joined own other, entry.1 = v
    · -- an identity was dropped
      obtain ⟨⟨w, t⟩, hmem, rfl⟩ := hbinds
      have ht : t = .var w := by
        by_contra hne
        exact get?_eq_none_iff.mp hget _ ((hkept (w, t)).mpr ⟨hmem, hne⟩) rfl
      rw [← evaluate_of_mem_joined hs hother hagreed hagreed' happlied hmem, ht]
    · -- neither of the two binds the variable
      have hsnone : s.get? v = none := by
        rw [get?_eq_none_iff]
        rintro old hold rfl
        have hmem : (old.1, old.2.rewrite voc .unknown other.get?) ∈ own := by
          rw [(applied_spec happlied).1]
          exact List.mem_map_of_mem hold
        obtain ⟨entry, hentry, heq⟩ := exists_mem_joined (Or.inl hmem)
        exact hbinds ⟨entry, hentry, heq⟩
      have honone : other.get? v = none := by
        rw [get?_eq_none_iff]
        rintro entry hentry rfl
        exact hbinds (exists_mem_joined (Or.inr hentry))
      rw [image, hsnone, Option.getD_none, Term.rewrite, Term.substitute, honone, Option.getD_none]

/-- **Composition is one substitution after the other**, and it binds no variable to itself or to a
    normal term that contains it. -/
theorem composition_is_sequential (hs : s.Single) (hother : other.Single)
    (hagreed : ∀ entry ∈ s.entries, entry.2.Agreed sigs)
    (hagreed' : ∀ entry ∈ other.entries, entry.2.Agreed sigs)
    (h : s.compose voc .unknown other = .ok c) :
    (∀ t : Term, t.Agreed sigs →
      (t.rewrite voc .unknown s.get?).rewrite voc .unknown other.get? =
        t.rewrite voc .unknown c.get?) ∧
    ∀ entry ∈ c.entries, entry.2 ≠ .var entry.1 ∧
      ¬(entry.1 ∈ entry.2.occurrences ∧ entry.2.isNormal = true) := by
  refine ⟨fun t ht => ?_, fun entry hentry => ?_⟩
  · have hsubstituted : (t.substitute s.get?).Agreed sigs :=
      Term.within_substitute ht fun v _ => agreed_image hagreed v
    calc (t.rewrite voc .unknown s.get?).rewrite voc .unknown other.get?
        = (t.substitute s.get?).rewrite voc .unknown other.get? :=
          Term.rewrite_evaluate hsubstituted
      _ = t.rewrite voc .unknown c.get? := Term.rewrite_substitute (fun v =>
          (evaluate_image_compose hs hother hagreed hagreed' h v).symm) t
  · obtain ⟨own, _, hcycles⟩ := compose_eq_ok h
    obtain ⟨hkept, hnormal⟩ := withoutCycles_spec hcycles
    exact ⟨((hkept entry).mp hentry).2, hnormal entry hentry⟩

end Substitution

/-! ### A common key and an identity -/

namespace Composed

def a : Variable := ⟨"A", .int⟩

def b : Variable := ⟨"B", .int⟩

def x : Variable := ⟨"X", .int⟩

def y : Variable := ⟨"Y", .int⟩

def z : Variable := ⟨"Z", .int⟩

def f : Symbol := ⟨"f", .constructor, [⟨[.int], ⟨"S"⟩⟩]⟩

/-- `A` is bound to `B`, `X` to `Y`, and `Z` to `#if X <=Int 1 #then Y #else 2 #fi`. -/
def first : Substitution :=
  ⟨[(a, .var b), (x, .var y), (z, .ite (.builtin .le [.var x, .int 1]) (.var y) (.int 2))]⟩

/-- `B` is bound to `A`, and both `X` and `Y` to `1`. -/
def second : Substitution := ⟨[(b, .var a), (x, .int 1), (y, .int 1)]⟩

/-- `A` is not bound any more, and the condition is known. -/
def both : Substitution := ⟨[(b, .var a), (x, .int 1), (y, .int 1), (z, .int 1)]⟩

/-- `f(Z +Int A)` -/
def term : Term := .app f [.builtin .add [.var z, .var a]] ⟨"S"⟩

theorem composition_is_sequential_term :
    first.compose .initial .unknown second = .ok both ∧
    (term.rewrite .initial .unknown first.get?).rewrite .initial .unknown second.get? =
      term.rewrite .initial .unknown both.get? ∧
    term.rewrite .initial .unknown both.get? =
      .app f [.builtin .add [.int 1, .var a]] ⟨"S"⟩ ∧
    ∀ entry ∈ both.entries, entry.2 ≠ .var entry.1 ∧
      ¬(entry.1 ∈ entry.2.occurrences ∧ entry.2.isNormal = true) := by
  have hfirst : first.Single := Substitution.single_of_nodup (by decide)
  have hsecond : second.Single := Substitution.single_of_nodup (by decide)
  have hagreed : ∀ entry ∈ first.entries, entry.2.Agreed fun _ _ => f.signatures := by
    simp [first, Term.Agreed, Term.All, Term.AllIn, Term.WithinHead]
  have hagreed' : ∀ entry ∈ second.entries, entry.2.Agreed fun _ _ => f.signatures := by
    simp [second, Term.Agreed, Term.All, Term.WithinHead]
  have hcompose : first.compose .initial .unknown second = .ok both := by cbv
  obtain ⟨hterms, hentries⟩ :=
    Substitution.composition_is_sequential hfirst hsecond hagreed hagreed' hcompose
  refine ⟨hcompose, hterms term ?_, by cbv, hentries⟩
  simp [term, Term.Agreed, Term.All, Term.AllIn, Term.WithinHead, Symbol.Agrees]

end Composed

end Entail
