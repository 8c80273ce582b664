import Entail.Proofs.Building

set_option autoImplicit false

/-! # Which bindings can be added together

Bindings are compared as terms: a variable that is bound already may be bound again to an equal term
and to no other. So bindings can be added to a substitution just when no variable gets two different
terms, and what is bound then is what was bound before together with what was added. -/

namespace Entail

variable {V : Type}

namespace Substitution

/-- Each variable is bound at most once. -/
def Single (s : Substitution) : Prop :=
  ∀ entry ∈ s.entries, ∀ other ∈ s.entries, entry.1 = other.1 → entry = other

/-- A variable that both bind is bound to equal terms. -/
def Agrees (s s' : Substitution) : Prop :=
  ∀ v t u, s.get? v = some t → s'.get? v = some u → (t == u) = true

theorem single_empty : empty.Single := nofun

theorem agrees_empty (s : Substitution) : empty.Agrees s := fun _ _ _ => nofun

theorem Single.subset {s s' : Substitution} (hs : s.Single)
    (h : ∀ entry ∈ s'.entries, entry ∈ s.entries) : s'.Single :=
  fun entry hentry other hother => hs entry (h entry hentry) other (h other hother)

/-- A binding is found by its variable. -/
theorem Single.get?_of_mem {s : Substitution} (hs : s.Single) {entry : Variable × Term}
    (hentry : entry ∈ s.entries) : s.get? entry.1 = some entry.2 := by
  cases hget : s.get? entry.1 with
  | none => exact absurd rfl (get?_eq_none_iff.mp hget entry hentry)
  | some t => rw [hs entry hentry _ (mem_of_get? hget) rfl]

theorem get?_put (s : Substitution) (v : Variable) (t : Term) (w : Variable) :
    (s.put v t).get? w = if w = v then some t else s.get? w := by
  obtain ⟨entries⟩ := s
  rw [put, get?, get?]
  dsimp only
  induction entries with
  | nil => rw [Sorted.put, lookup_cons]
  | cons entry entries ih =>
    rw [Sorted.put]
    split
    · rw [lookup_cons]
    · -- the entry that is replaced binds the same variable
      rename_i heq
      rw [lookup_cons, lookup_cons, (Variable.cmp_eq_iff v entry.1).mp heq]
      split_ifs <;> rfl
    · rename_i hgt
      have hne : entry.1 ≠ v := by
        rintro rfl
        rw [(Variable.cmp_eq_iff entry.1 entry.1).mpr rfl] at hgt
        exact absurd hgt (by simp)
      rw [lookup_cons, ih, lookup_cons]
      split_ifs with hentry hv
      · exact absurd (hentry.symm.trans hv) hne
      · rfl
      · rfl
      · rfl

theorem Single.bind {s s' : Substitution} (hs : s.Single) {v : Variable} {t : Term}
    (h : s.bind v t = .ok s') : s'.Single := by
  unfold Substitution.bind at h
  split at h
  · split at h
    · obtain rfl := Except.ok.inj h
      exact hs
    · exact absurd h nofun
  · rename_i hnone
    obtain rfl := Except.ok.inj h
    have hunbound := get?_eq_none_iff.mp hnone
    intro entry hentry other hother hkeys
    rcases (mem_put_iff hnone t entry).mp hentry with rfl | hentry <;>
      rcases (mem_put_iff hnone t other).mp hother with rfl | hother
    · rfl
    · exact absurd hkeys.symm (hunbound other hother)
    · exact absurd hkeys (hunbound entry hentry)
    · exact hs entry hentry other hother hkeys

/-- Binding fails just when the variable is bound to a different term. -/
theorem bind_cases (s : Substitution) (v : Variable) (t : Term) :
    (∃ bound, s.get? v = some bound ∧ (bound == t) = true ∧ s.bind v t = .ok s) ∨
      (∃ bound, s.get? v = some bound ∧ (bound == t) = false ∧ s.bind v t = .error bound) ∨
      s.get? v = none ∧ s.bind v t = .ok (s.put v t) := by
  unfold Substitution.bind
  cases hget : s.get? v with
  | none => exact .inr (.inr ⟨rfl, rfl⟩)
  | some bound =>
    dsimp only
    cases heq : bound == t with
    | true => exact .inl ⟨bound, rfl, heq, rfl⟩
    | false => exact .inr (.inl ⟨bound, rfl, heq, rfl⟩)

theorem get?_of_bind {s s' : Substitution} {v : Variable} {t : Term} (h : s.bind v t = .ok s')
    (w : Variable) : s'.get? w = (s.get? w).or (if w = v then some t else none) := by
  rcases s.bind_cases v t with ⟨bound, hbound, _, hbind⟩ | ⟨bound, _, _, hbind⟩ | ⟨hnone, hbind⟩
  · obtain rfl := Except.ok.inj (hbind.symm.trans h)
    split_ifs with hw
    · rw [hw, hbound]
      rfl
    · rw [Option.or_none]
  · exact absurd (hbind.symm.trans h) nofun
  · obtain rfl := Except.ok.inj (hbind.symm.trans h)
    rw [get?_put]
    split_ifs with hw
    · rw [hw, hnone]
      rfl
    · rw [Option.or_none]

end Substitution

namespace Formula

variable {s : Substitution} {es : List Equality} {ds : List Disjunction}

theorem addBinding_of_bind {s' : Substitution} {v : Variable} {t : Term}
    (h : s.bind v t = .ok s') : (all s es ds).addBinding v t = .all s' es ds := by
  unfold addBinding
  dsimp only
  rw [h]

theorem addBinding_of_error {v : Variable} {t bound : Term} (h : s.bind v t = .error bound) :
    (all s es ds).addBinding v t = .falsified ⟨bound, t⟩ := by
  unfold addBinding
  dsimp only
  rw [h]

theorem addBindings_cons (φ : Formula) (v : Variable) (t : Term)
    (entries : List (Variable × Term)) :
    φ.addBindings ((v, t) :: entries) = (φ.addBinding v t).addBindings entries := rfl

@[simp] theorem addBindings_falsified (w : Equality) (entries : List (Variable × Term)) :
    (falsified w).addBindings entries = .falsified w := merge_falsified (.all ⟨entries⟩ [] []) w

@[simp] theorem addEqualities_falsified (w : Equality) (es : List Equality) :
    (falsified w).addEqualities es = .falsified w := merge_falsified (.all .empty es []) w

theorem addBindings_cases (s : Substitution) (es : List Equality) (ds : List Disjunction)
    (entries : List (Variable × Term)) :
    (∃ w, (all s es ds).addBindings entries = .falsified w) ∨
      ∃ s', (all s es ds).addBindings entries = .all s' es ds := by
  induction entries generalizing s with
  | nil => exact .inr ⟨s, rfl⟩
  | cons entry entries ih =>
    obtain ⟨v, t⟩ := entry
    rw [addBindings_cons]
    cases hbind : s.bind v t with
    | error bound =>
      rw [addBinding_of_error hbind]
      exact .inl ⟨_, addBindings_falsified _ entries⟩
    | ok s' =>
      rw [addBinding_of_bind hbind]
      exact ih s'

/-- Bindings that give no variable a second term are all added, and nothing else changes. -/
theorem exists_addBindings {added : Substitution} (hadded : added.Single)
    (hagrees : s.Agrees added) (es : List Equality) (ds : List Disjunction) :
    ∃ s' : Substitution, (all s es ds).addBindings added.entries = .all s' es ds ∧
      (∀ entry ∈ s'.entries, entry ∈ s.entries ∨ entry ∈ added.entries) ∧
      ∀ v, s'.get? v = (s.get? v).or (added.get? v) := by
  obtain ⟨entries⟩ := added
  -- the invariant is that the bindings so far agree with those that are left to add
  induction entries generalizing s with
  | nil => exact ⟨s, rfl, fun _ => .inl, fun v => Option.or_none.symm⟩
  | cons entry entries ih =>
    obtain ⟨v, t⟩ := entry
    have hget (w : Variable) : Substitution.get? ⟨(v, t) :: entries⟩ w =
        if w = v then some t else Substitution.get? ⟨entries⟩ w := lookup_cons (v, t) entries w
    have hrest {w : Variable} {u : Term} (hu : Substitution.get? ⟨entries⟩ w = some u) :
        Substitution.get? ⟨(v, t) :: entries⟩ w = some u :=
      hadded.get?_of_mem (List.mem_cons_of_mem _ (Substitution.mem_of_get? hu))
    have hhead : Substitution.get? ⟨(v, t) :: entries⟩ v = some t := by rw [hget, if_pos rfl]
    obtain ⟨s₁, hbind⟩ : ∃ s₁, s.bind v t = .ok s₁ := by
      rcases s.bind_cases v t with ⟨_, _, _, hbind⟩ | ⟨bound, hbound, hne, _⟩ | ⟨_, hbind⟩
      · exact ⟨s, hbind⟩
      · rw [hagrees v bound t hbound hhead] at hne
        exact absurd hne nofun
      · exact ⟨s.put v t, hbind⟩
    have hs₁ := Substitution.get?_of_bind hbind
    have hagrees₁ : s₁.Agrees ⟨entries⟩ := by
      intro w u u' hu hu'
      rw [hs₁, Option.or_eq_some_iff] at hu
      rcases hu with hu | ⟨_, hu⟩
      · exact hagrees w u u' hu (hrest hu')
      · split_ifs at hu with hw
        rw [hw] at hu'
        rw [← Option.some.inj hu, Option.some.inj (hhead.symm.trans (hrest hu'))]
        exact Term.beq_self u'
    obtain ⟨s', hs', hentries, hs'get⟩ :=
      ih (hadded.subset fun _ => List.mem_cons_of_mem _) hagrees₁
    refine ⟨s', ?_, fun e he => ?_, fun w => ?_⟩
    · rw [addBindings_cons, addBinding_of_bind hbind]
      exact hs'
    · rcases hentries e he with he | he
      · rcases Substitution.mem_of_bind hbind he with rfl | he
        · exact .inr (List.mem_cons_self ..)
        · exact .inl he
      · exact .inr (List.mem_cons_of_mem _ he)
    · rw [hs'get, hs₁, hget, Option.or_assoc]
      split_ifs <;> rfl

/-- A variable that gets a second term refutes the formula. -/
theorem exists_addBindings_falsified {added : Substitution} (h : ¬s.Agrees added)
    (es : List Equality) (ds : List Disjunction) :
    ∃ w, (all s es ds).addBindings added.entries = .falsified w := by
  simp only [Substitution.Agrees, not_forall, Bool.not_eq_true] at h
  obtain ⟨v, t, u, ht, hu, hne⟩ := h
  obtain ⟨entries⟩ := added
  induction entries generalizing s with
  | nil => cases hu
  | cons entry entries ih =>
    obtain ⟨v', t'⟩ := entry
    rw [addBindings_cons]
    cases hbind : s.bind v' t' with
    | error bound =>
      rw [addBinding_of_error hbind]
      exact ⟨_, addBindings_falsified _ entries⟩
    | ok s₁ =>
      rw [addBinding_of_bind hbind]
      have ht₁ : s₁.get? v = some t := by rw [Substitution.get?_of_bind hbind, ht]; rfl
      refine ih ht₁ ?_
      rw [Substitution.get?, lookup_cons] at hu
      split_ifs at hu with hv
      · -- the entry that differs was added without an error
        subst hv
        obtain rfl := Option.some.inj hu
        rcases s.bind_cases v t' with ⟨bound, hbound, heq, _⟩ | ⟨_, _, _, herror⟩ | ⟨hnone, _⟩
        · rw [Option.some.inj (ht.symm.trans hbound), heq] at hne
          exact absurd hne (by simp)
        · exact absurd (herror.symm.trans hbind) (by simp)
        · exact absurd (ht.symm.trans hnone) (by simp)
      · exact hu

end Formula

end Entail
