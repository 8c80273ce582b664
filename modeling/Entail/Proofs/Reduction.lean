import Entail.Formula.Facts
import Entail.Proofs.Composition

set_option autoImplicit false

/-! # Turning bindings around and leaving out what is stated

Turning bindings around states the same, and what is left out of a formula because another one states
it holds wherever that one does. -/

namespace Entail

variable {V : Type}

namespace Formula

/-! ## Turning bindings around -/

/-- One binding is looked at, and turned around if it is the first of a variable outside `vars` to
    this variable of `vars`. -/
def turn (vars : VarSet) (turned : Substitution) (entry : Variable × Term) : Substitution :=
  match entry.2 with
  | .var v =>
    if !vars.contains entry.1 && vars.contains v && !turned.contains v then
      turned.put v (.var entry.1)
    else turned
  | _ => turned

theorem turnable_eq (vars : VarSet) (s : Substitution) :
    turnable vars s = s.entries.foldl (turn vars) .empty := rfl

/-- What is turned around binds a variable outside `vars` to a variable of `vars`. -/
theorem crosses_of_turnable {vars : VarSet} {s : Substitution} {v : Variable} {t : Term}
    (h : (v, t) ∈ (turnable vars s).entries) :
    ∃ key, t = .var key ∧ (key, .var v) ∈ s.entries ∧ key ∉ vars ∧ v ∈ vars := by
  have fold (entries : List (Variable × Term)) (turned : Substitution)
      (hturned : ∀ entry ∈ turned.entries, ∃ key, entry.2 = .var key ∧
        (key, .var entry.1) ∈ s.entries ∧ key ∉ vars ∧ entry.1 ∈ vars)
      (hentries : ∀ entry ∈ entries, entry ∈ s.entries) :
      ∀ entry ∈ (entries.foldl (turn vars) turned).entries, ∃ key, entry.2 = .var key ∧
        (key, .var entry.1) ∈ s.entries ∧ key ∉ vars ∧ entry.1 ∈ vars := by
    induction entries generalizing turned with
    | nil => exact hturned
    | cons entry entries ih =>
      rw [List.forall_mem_cons] at hentries
      refine ih _ (fun old hold => ?_) hentries.2
      obtain ⟨key, value⟩ := entry
      unfold turn at hold
      dsimp only at hold
      split at hold
      · split at hold
        · rename_i w hcrosses
          simp only [Bool.and_eq_true, Bool.not_eq_true', List.contains_eq_mem,
            decide_eq_false_iff_not, decide_eq_true_eq] at hcrosses
          rcases Sorted.mem_put _ hold with rfl | hold
          · exact ⟨key, rfl, hentries.1, hcrosses.1⟩
          · exact hturned old hold
        · exact hturned old hold
      · exact hturned old hold
  rw [turnable_eq] at h
  exact fold s.entries .empty nofun (fun _ h => h) _ h

/-- A binding is turned around only if it binds a variable to a variable. -/
theorem mem_turnable {vars : VarSet} {s : Substitution} {v : Variable} {t : Term}
    (h : (v, t) ∈ (turnable vars s).entries) :
    ∃ key, t = .var key ∧ (key, .var v) ∈ s.entries := by
  obtain ⟨key, ht, hentry, _⟩ := crosses_of_turnable h
  exact ⟨key, ht, hentry⟩

/-- Of the bindings to a variable of `vars` one is turned around. -/
theorem exists_turnable {vars : VarSet} {s : Substitution} {key v : Variable}
    (h : (key, .var v) ∈ s.entries) (hkey : key ∉ vars) (hv : v ∈ vars) :
    ∃ key', (turnable vars s).get? v = some (.var key') := by
  have step (turned : Substitution) (entry : Variable × Term)
      (hbound : turned.contains v = true ∨ entry = (key, .var v)) :
      (turn vars turned entry).contains v = true := by
    unfold turn
    split
    · rename_i w hw
      split
      · rw [Substitution.contains, Substitution.get?_put]
        split_ifs with hvw
        · rfl
        · refine hbound.resolve_right fun heq => hvw ?_
          rw [heq] at hw
          exact Term.var.inj hw
      · rename_i hstays
        rcases hbound with hbound | rfl
        · exact hbound
        · obtain rfl := Term.var.inj hw
          simpa [hkey, hv] using hstays
    · rename_i hvar
      refine hbound.resolve_right fun heq => hvar v ?_
      rw [heq]
  have fold (entries : List (Variable × Term)) (turned : Substitution)
      (hbound : turned.contains v = true ∨ (key, .var v) ∈ entries) :
      (entries.foldl (turn vars) turned).contains v = true := by
    induction entries generalizing turned with
    | nil => exact hbound.resolve_right List.not_mem_nil
    | cons entry entries ih =>
      refine ih _ ?_
      rcases hbound with hbound | hbound
      · exact .inl (step turned entry (.inl hbound))
      · rcases List.mem_cons.mp hbound with heq | hmem
        · exact .inl (step turned entry (.inr heq.symm))
        · exact .inr hmem
  obtain ⟨t, ht⟩ := Option.isSome_iff_exists.mp (fold s.entries .empty (.inr h))
  obtain ⟨key', rfl, _⟩ := mem_turnable (Substitution.mem_of_get? ht)
  exact ⟨key', ht⟩

section Turning

variable {A : Algebra V} {ρ : Variable → V} {voc : Vocabulary}

/-- Where all bindings after turning hold, those that were turned hold. -/
theorem turned_agree {vars : VarSet} {s : Substitution} {facts : Facts}
    (h : ∀ entry ∈ s.entries, ρ (turnBinding voc facts (turnable vars s) entry).1 =
      (turnBinding voc facts (turnable vars s) entry).2.eval A ρ) :
    ∀ v t, (turnable vars s).get? v = some t → ρ v = t.eval A ρ := by
  intro v t hv
  obtain ⟨key, rfl, hentry⟩ := mem_turnable (Substitution.mem_of_get? hv)
  have hturned := h _ hentry
  have hself : ((turnable vars s).get? v == some (.var key)) = true := by
    rw [hv]
    exact Term.beq_self _
  unfold turnBinding at hturned
  dsimp only at hturned
  rw [if_pos hself] at hturned
  exact hturned

/-- Where the renaming is true, a binding holds just when it does after turning or renaming. -/
theorem turnBinding_holds_iff {turned : Substitution}
    (hturned : ∀ v t, turned.get? v = some t → ρ v = t.eval A ρ) (entry : Variable × Term) :
    ρ (turnBinding voc .unknown turned entry).1 =
      (turnBinding voc .unknown turned entry).2.eval A ρ ↔ ρ entry.1 = entry.2.eval A ρ := by
  have hrewrite (t : Term) := Term.eval_rewrite voc (Facts.unknown_sound A ρ) hturned t
  obtain ⟨key, value⟩ := entry
  unfold turnBinding
  dsimp only
  split
  · split
    · exact eq_comm
    · rw [hrewrite]
  · rw [hrewrite]

/-- Where a formula holds with some bindings turned around, it holds as it was. -/
theorem holds_of_orient {φ : Formula} {vars : VarSet}
    (h : (φ.orient voc .unknown vars).Holds A ρ) : φ.Holds A ρ := by
  cases φ with
  | falsified w => exact h
  | all s es ds =>
    unfold orient at h
    dsimp only at h
    split at h
    · exact h
    · have hmembers := flat_members voc .unknown (turnable vars s).get? ds
      obtain ⟨h, hds⟩ := (holds_addDisjunctions_iff hmembers _).mp h
      obtain ⟨h, hes⟩ := holds_of_addEqualities h
      obtain ⟨_, hs⟩ := holds_of_addBindings h
      rw [List.forall_mem_map] at hs hes hds
      have hturned := turned_agree hs
      refine (holds_all_iff A ρ s es ds).mpr ⟨fun entry hentry => ?_, fun e he => ?_,
        fun d hd => ?_⟩
      · exact (turnBinding_holds_iff hturned entry).mp (hs entry hentry)
      · exact (Equality.holds_rewrite_iff voc (Facts.unknown_sound A ρ) hturned e).mp (hes e he)
      · exact (Disjunction.holds_rewrite_iff (Facts.unknown_sound A ρ) hturned d).mp (hds d hd)

/-- What turning a binding around comes to. -/
theorem turnBinding_cases (voc : Vocabulary) (vars : VarSet) (s : Substitution)
    (entry : Variable × Term) :
    (∃ v, entry.2 = .var v ∧ (turnable vars s).get? v = some (.var entry.1) ∧
      turnBinding voc .unknown (turnable vars s) entry = (v, .var entry.1)) ∨
    ((∀ v, entry.2 = .var v → (turnable vars s).get? v ≠ some (.var entry.1)) ∧
      turnBinding voc .unknown (turnable vars s) entry =
        (entry.1, entry.2.rewrite voc .unknown (turnable vars s).get?)) := by
  obtain ⟨key, value⟩ := entry
  unfold turnBinding
  dsimp only
  split
  · rename_i v
    split
    · rename_i hturned
      refine Or.inl ⟨v, rfl, ?_, rfl⟩
      cases hget : (turnable vars s).get? v with
      | none =>
        rw [hget] at hturned
        exact absurd hturned nofun
      | some u =>
        obtain ⟨key', rfl, _⟩ := mem_turnable (Substitution.mem_of_get? hget)
        rw [hget] at hturned
        have hkey := (Term.beq_iff (.var key') (.var key)).mp hturned
        rw [Term.bare, Term.bare] at hkey
        rw [hkey]
    · rename_i hturned
      refine Or.inr ⟨fun v' hv' hget => hturned ?_, rfl⟩
      obtain rfl := Term.var.inj hv'
      rw [hget]
      exact Term.beq_self _
  · rename_i hvar
    exact Or.inr ⟨fun v hv => absurd hv (hvar v), rfl⟩

/-- The variables of a term after renaming. -/
theorem occurrences_renamed (voc : Vocabulary) (vars : VarSet) (s : Substitution) (t : Term)
    {w : Variable} (hw : w ∈ (t.rewrite voc .unknown (turnable vars s).get?).occurrences) :
    (w ∈ t.occurrences ∧ (turnable vars s).get? w = none) ∨
      ∃ v, (turnable vars s).get? v = some (.var w) := by
  have ht : t.Within (· ∈ t.occurrences) fun _ => True :=
    Term.within_occurrences (Term.within_any t) fun _ hx => hx
  have hsub : (t.substitute (turnable vars s).get?).Within
      (fun x => (x ∈ t.occurrences ∧ (turnable vars s).get? x = none) ∨
        ∃ v, (turnable vars s).get? v = some (.var x)) fun _ => True := by
    refine Term.within_substitute ht fun x hx => ?_
    cases hget : (turnable vars s).get? x with
    | none => exact Or.inl ⟨hx, hget⟩
    | some u =>
      obtain ⟨key, rfl, _⟩ := mem_turnable (Substitution.mem_of_get? hget)
      exact Or.inr ⟨x, hget⟩
  exact (Term.within_evaluate voc .unknown hsub).occurrences w hw

/-- No variable is bound twice after turning, if the variables that are turned were not bound. -/
theorem single_turned (voc : Vocabulary) {vars : VarSet} {s : Substitution} (hs : s.Single)
    (hfree : ∀ v key, (turnable vars s).get? v = some (.var key) → ¬s.Binds v) :
    Substitution.Single ⟨s.entries.map (turnBinding voc .unknown (turnable vars s))⟩ := by
  unfold Substitution.Single
  rw [List.forall_mem_map]
  intro entry hentry
  rw [List.forall_mem_map]
  intro other hother hkeys
  rcases turnBinding_cases voc vars s entry with ⟨v, _, hget, heq⟩ | ⟨_, heq⟩ <;>
    rcases turnBinding_cases voc vars s other with ⟨v', _, hget', heq'⟩ | ⟨_, heq'⟩ <;>
    rw [heq, heq'] at hkeys ⊢
  · obtain rfl : v = v' := hkeys
    rw [hget] at hget'
    rw [Option.some.inj hget']
  · exact absurd ⟨other, hother, hkeys.symm⟩ (hfree v _ hget)
  · exact absurd ⟨entry, hentry, hkeys⟩ (hfree v' _ hget')
  · rw [hs entry hentry other hother hkeys]

/-- Turning around resolved bindings leaves resolved bindings. -/
theorem resolved_turned (voc : Vocabulary) (vars : VarSet) {s : Substitution} (hs : s.Resolved) :
    Substitution.Resolved
      ⟨s.entries.map (turnBinding voc .unknown (turnable vars s))⟩ := by
  have hkey {v w : Variable} (hget : (turnable vars s).get? v = some (.var w)) :
      (w, .var v) ∈ s.entries := by
    obtain ⟨key, heq, hmem⟩ := mem_turnable (Substitution.mem_of_get? hget)
    obtain rfl := Term.var.inj heq
    exact hmem
  -- a variable that was turned is not bound otherwise, since it is the value of a binding
  have hvalue {v w : Variable} (hget : (turnable vars s).get? v = some (.var w)) : ¬s.Binds v :=
    hs.unbound _ (hkey hget) v (List.mem_singleton.mpr rfl)
  refine ⟨?_, single_turned voc hs.single fun _ _ => hvalue⟩
  · rw [List.forall_mem_map]
    rintro entry hentry w hw ⟨new, hnew, rfl⟩
    obtain ⟨other, hother, rfl⟩ := List.mem_map.mp hnew
    -- what occurs in a value was turned to, or it was there before and was not turned
    have hoccurs : (∃ v, (turnable vars s).get? v =
        some (.var (turnBinding voc .unknown (turnable vars s) other).1)) ∨
        ((turnBinding voc .unknown (turnable vars s) other).1 ∈ entry.2.occurrences ∧
          (turnable vars s).get? (turnBinding voc .unknown (turnable vars s) other).1 = none) := by
      rcases turnBinding_cases voc vars s entry with ⟨v, _, hget, heq⟩ | ⟨_, heq⟩
      · rw [heq] at hw
        have hw := List.mem_singleton.mp hw
        exact Or.inl ⟨v, hw ▸ hget⟩
      · rw [heq] at hw
        exact (occurrences_renamed voc vars s entry.2 hw).symm
    rcases turnBinding_cases voc vars s other with ⟨v, _, hget, heq⟩ | ⟨hkept, heq⟩
    · rw [heq] at hoccurs
      rcases hoccurs with ⟨u, hu⟩ | ⟨_, hnone⟩
      · exact hvalue hget ⟨_, hkey hu, rfl⟩
      · rw [hget] at hnone
        exact absurd hnone nofun
    · rw [heq] at hoccurs
      rcases hoccurs with ⟨u, hu⟩ | ⟨hmem, _⟩
      · have hsame := hs.single other hother _ (hkey hu) rfl
        exact hkept u (by rw [hsame]) hu
      · exact hs.unbound entry hentry other.1 hmem ⟨other, hother, rfl⟩

/-- Without a binding to turn around nothing changes. -/
theorem orient_of_isEmpty {φ : Formula} {vars : VarSet} {facts : Facts}
    (h : (turnable vars φ.bindings).isEmpty = true) : φ.orient voc facts vars = φ := by
  cases φ with
  | falsified w => rfl
  | all s es ds =>
    unfold orient
    dsimp only
    exact if_pos h

/-- What the parts have in common after turning and renaming is true of all parts of the result. -/
theorem everywhere_orient {S : Substitution → Prop} {p : Term → Prop} (hp : ∀ b, p (.bool b))
    (hempty : ∀ s : Substitution, s.entries = [] → S s) {s : Substitution} {es : List Equality}
    {ds : List Disjunction} {vars : VarSet} (hturned : (turnable vars s).isEmpty = false)
    (hbind : ∀ s₁ s₂ v t,
      (v, t) ∈ s.entries.map (turnBinding voc .unknown (turnable vars s)) → S s₁ →
        s₁.bind v t = .ok s₂ → S s₂)
    (hes : ∀ e ∈ es, (e.rewrite voc .unknown (turnable vars s).get?).All p)
    (hds : ∀ d ∈ ds, ∀ φ ∈ d, RewritesTo voc .unknown (turnable vars s).get? p φ) :
    ((all s es ds).orient voc .unknown vars).Everywhere S (Equality.All p) := by
  unfold orient
  dsimp only
  rw [hturned, if_neg Bool.false_ne_true]
  refine everywhere_addDisjunctions hp hempty (unbound_members fun d hd φ hφ =>
    unbound_rewrite hp (hds d hd φ hφ)) (everywhere_addEqualities hp ?_
      (everywhere_addBindings hbind (everywhere_top (hempty _ rfl))))
  rw [List.forall_mem_map]
  exact hes

/-- The bindings of the result were turned around or renamed. -/
theorem mem_orient {φ : Formula} {vars : VarSet} (h : (turnable vars φ.bindings).isEmpty = false) :
    ∀ entry ∈ (φ.orient voc .unknown vars).bindings.entries, ∃ old ∈ φ.bindings.entries,
      turnBinding voc .unknown (turnable vars φ.bindings) old = entry := by
  cases φ with
  | falsified w => exact absurd h nofun
  | all s es ds =>
    change (turnable vars s).isEmpty = false at h
    have hbind : ∀ s₁ s₂ v t,
        (v, t) ∈ s.entries.map (turnBinding voc .unknown (turnable vars s)) →
        (∀ entry ∈ Substitution.entries s₁,
          entry ∈ s.entries.map (turnBinding voc .unknown (turnable vars s))) →
        s₁.bind v t = .ok s₂ → ∀ entry ∈ s₂.entries,
          entry ∈ s.entries.map (turnBinding voc .unknown (turnable vars s)) := by
      intro s₁ s₂ v t hmem hs₁ hbind entry hentry
      rcases Substitution.mem_of_bind hbind hentry with rfl | hentry
      · exact hmem
      · exact hs₁ entry hentry
    have heach := everywhere_orient (fun _ => trivial)
      (fun s hempty entry hentry => absurd hentry (by rw [hempty]; exact List.not_mem_nil)) h hbind
      (fun e (_ : e ∈ es) => flat_rewrite voc _ _ e)
      (fun d (_ : d ∈ ds) φ _ => rewritesTo_flat voc _ _ φ)
    cases horient : (all s es ds).orient voc .unknown vars with
    | falsified w => exact nofun
    | all s' es' ds' =>
      rw [horient] at heach
      exact fun entry hentry =>
        List.mem_map.mp (((everywhere_all_iff s' es' ds').mp heach).1 entry hentry)

/-- Turning bindings around leaves resolved bindings. -/
theorem resolved_orient {φ : Formula} {vars : VarSet} (hφ : φ.bindings.Resolved) :
    (φ.orient voc .unknown vars).bindings.Resolved := by
  cases h : (turnable vars φ.bindings).isEmpty with
  | true =>
    rw [orient_of_isEmpty h]
    exact hφ
  | false =>
    exact (resolved_turned voc vars hφ).subset fun entry hentry =>
      List.mem_map.mpr (mem_orient h entry hentry)

/-- Turning bindings around keeps what renaming keeps. -/
theorem each_orient {p : Term → Prop} (hp : ∀ b, p (.bool b)) {φ : Formula} {vars : VarSet}
    (hrewrite : ∀ t : Term, t.All p → (t.rewrite voc .unknown
      (turnable vars φ.bindings).get?).All p) (hφ : φ.Each p) :
    (φ.orient voc .unknown vars).Each p := by
  cases h : (turnable vars φ.bindings).isEmpty with
  | true =>
    rw [orient_of_isEmpty h]
    exact hφ
  | false =>
    cases φ with
    | falsified w => trivial
    | all s es ds =>
      obtain ⟨hs, hes, hds⟩ := (everywhere_all_iff s es ds).mp hφ
      have hbind : ∀ s₁ s₂ v t,
          (v, t) ∈ s.entries.map (turnBinding voc .unknown (turnable vars s)) →
          (∀ entry ∈ Substitution.entries s₁, p (.var entry.1) ∧ entry.2.All p) →
          s₁.bind v t = .ok s₂ →
          ∀ entry ∈ s₂.entries, p (.var entry.1) ∧ entry.2.All p := by
        intro s₁ s₂ v t hmem hs₁ hbind entry hentry
        rcases Substitution.mem_of_bind hbind hentry with rfl | hentry
        · obtain ⟨old, hold, heq⟩ := List.mem_map.mp hmem
          obtain ⟨hkey, hvalue⟩ := hs old hold
          rcases turnBinding_cases voc vars s old with ⟨v', hv', _, hturned⟩ | ⟨_, hturned⟩
          · rw [hv'] at hvalue
            obtain ⟨rfl, rfl⟩ := Prod.mk.inj (heq.symm.trans hturned)
            exact ⟨hvalue, hkey⟩
          · obtain ⟨rfl, rfl⟩ := Prod.mk.inj (heq.symm.trans hturned)
            exact ⟨hkey, hrewrite _ hvalue⟩
        · exact hs₁ entry hentry
      exact everywhere_orient hp
        (fun s hempty entry hentry => absurd hentry (by rw [hempty]; exact List.not_mem_nil)) h
        hbind (fun e he => ⟨hrewrite _ (hes e he).1, hrewrite _ (hes e he).2⟩)
        (fun d hd φ hφ => rewritesTo_of_each hrewrite (hds d hd φ hφ))

theorem flat_orient {φ : Formula} {vars : VarSet} (hφ : φ.Each Term.FlatHead) :
    (φ.orient voc .unknown vars).Each Term.FlatHead :=
  each_orient (fun _ => trivial) (fun _ _ => Term.flat_evaluate voc .unknown _) hφ

theorem within_orient {X : Variable → Prop} {Q : Symbol → Prop} {φ : Formula} {vars : VarSet}
    (hφ : φ.Each (Term.WithinHead X Q)) :
    (φ.orient voc .unknown vars).Each (Term.WithinHead X Q) := by
  refine each_orient (fun _ => trivial) (fun t ht => ?_) hφ
  refine Term.within_evaluate voc .unknown (Term.within_substitute ht fun v hv => ?_)
  cases hget : (turnable vars φ.bindings).get? v with
  | none => exact hv
  | some u =>
    obtain ⟨key, rfl, hentry⟩ := mem_turnable (Substitution.mem_of_get? hget)
    cases φ with
    | falsified w => exact absurd hentry List.not_mem_nil
    | all s es ds => exact (((everywhere_all_iff s es ds).mp hφ).1 _ hentry).1

end Turning

/-! ## Leaving out what is stated -/

section Leaving

variable {A : Algebra V} {ρ : Variable → V}

theorem bindsTo_sound {s : Substitution} (hs : s.Holds A ρ) {lhs rhs : Term}
    (h : bindsTo s lhs rhs = true) : lhs.eval A ρ = rhs.eval A ρ := by
  unfold bindsTo at h
  split at h
  · split at h
    · rename_i bound hv
      rw [← Term.eval_eq_of_beq A ρ h]
      exact hs.get? _ bound hv
    · exact absurd h nofun
  · exact absurd h nofun

/-- What a formula contains holds where the formula does. -/
theorem holds_of_containsEquality {φ : Formula} (hφ : φ.Holds A ρ) {e : Equality}
    (h : φ.containsEquality e = true) : e.Holds A ρ := by
  cases φ with
  | falsified w => exact absurd hφ (not_holds_falsified A ρ w)
  | all s es ds =>
    obtain ⟨hs, hes, _⟩ := (holds_all_iff A ρ s es ds).mp hφ
    have hmember {e : Equality} (h : Sorted.contains Equality.cmp e es = true) : e.Holds A ρ := by
      obtain ⟨e', he', heq⟩ := (Sorted.contains_iff _ _ _).mp h
      exact (Equality.holds_congr (Ordering.isEq_iff_eq_eq.mp heq)).mpr (hes e' he')
    rw [containsEquality, Bool.or_eq_true, Bool.or_eq_true, Bool.or_eq_true] at h
    rcases h with ((h | h) | h) | h
    · exact hmember h
    · exact (Equality.holds_reversed_iff e).mp (hmember h)
    · exact bindsTo_sound hs h
    · exact (bindsTo_sound hs h).symm

/-- Where a formula holds, and what another one states beyond it, the other one holds. -/
theorem holds_of_without {φ ψ : Formula} (hφ : φ.Holds A ρ) (h : (φ.without ψ).Holds A ρ) :
    ψ.Holds A ρ := by
  cases ψ with
  | falsified w => exact h
  | all s es ds =>
    obtain ⟨hs, hes, hds⟩ := (holds_all_iff A ρ _ _ _).mp h
    refine (holds_all_iff A ρ s es ds).mpr ⟨fun entry hentry => ?_, fun e he => ?_,
      fun d hd => ?_⟩
    · cases hstated : φ.containsEquality ⟨.var entry.1, entry.2⟩ with
      | true => exact holds_of_containsEquality hφ hstated
      | false => exact hs entry (List.mem_filter.mpr ⟨hentry, by simp [hstated]⟩)
    · cases hstated : φ.containsEquality e with
      | true => exact holds_of_containsEquality hφ hstated
      | false => exact hes e (List.mem_filter.mpr ⟨he, by simp [hstated]⟩)
    · cases hstated : Sorted.contains Disjunction.cmp d φ.disjunctions with
      | true =>
        obtain ⟨d', hd', heq⟩ := (Sorted.contains_iff _ _ _).mp hstated
        refine (Disjunction.holds_congr (Ordering.isEq_iff_eq_eq.mp heq)).mpr ?_
        cases φ with
        | falsified w => exact absurd hφ (not_holds_falsified A ρ w)
        | all s' es' ds' => exact ((holds_all_iff A ρ s' es' ds').mp hφ).2.2 d' hd'
      | false => exact hds d (List.mem_filter.mpr ⟨hd, by simp [hstated]⟩)

theorem each_without {p : Term → Prop} {φ ψ : Formula} (hψ : ψ.Each p) :
    (φ.without ψ).Each p := by
  cases ψ with
  | falsified w => trivial
  | all s es ds =>
    obtain ⟨hs, hes, hds⟩ := (everywhere_all_iff s es ds).mp hψ
    exact (everywhere_all_iff _ _ _).mpr
      ⟨fun entry hentry => hs entry (List.mem_filter.mp hentry).1,
        fun e he => hes e (List.mem_filter.mp he).1,
        fun d hd => hds d (List.mem_filter.mp hd).1⟩

end Leaving

end Formula

end Entail
