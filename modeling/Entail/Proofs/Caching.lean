import Entail.Proofs.Transparency

set_option autoImplicit false

/-! # The table of results

What a table holds for a key stays there, with the first result that was stored, until the table is
emptied. A table with a capacity never holds more than this: when it is full, an insertion empties
it. It does so before it looks for the key, so that also an insertion at a key that is present puts
its own result in the place of all entries; a look-up that computes only what it does not find never
comes to that. -/

namespace Entail

variable {σ : Type}

namespace SimplificationCache

/-! ## Calls -/

/-- The result for a key; one that is not there is computed, with the given value, and inserted. -/
def getOrCompute (c : SimplificationCache) (key : SimplificationKey) (value : Simplified) :
    Simplified × SimplificationCache :=
  match c.get? key with
  | some stored => (stored, c.hit)
  | none => c.miss.insert key value

/-- What a table is asked to do. -/
inductive Call where
  | get (key : SimplificationKey)
  | insert (key : SimplificationKey) (value : Simplified)
  /-- `value` is what computing would give -/
  | getOrCompute (key : SimplificationKey) (value : Simplified)
  | clear

/-- The entry that a call brings. -/
def Call.entry? : Call → Option (SimplificationKey × Simplified)
  | .insert key value => some (key, value)
  | .getOrCompute key value => some (key, value)
  | _ => none

/-- The table after a call. -/
def after (c : SimplificationCache) : Call → SimplificationCache
  | .get _ => c
  | .insert key value => (c.insert key value).2
  | .getOrCompute key value => (c.getOrCompute key value).2
  | .clear => c.clear

/-- The table after some calls. -/
def run (c : SimplificationCache) (calls : List Call) : SimplificationCache := calls.foldl after c

/-- The call drops all entries. -/
def Empties (c : SimplificationCache) : Call → Prop
  | .get _ => False
  | .insert _ _ => c.isFull = true
  | .getOrCompute key _ => c.get? key = none ∧ c.isFull = true
  | .clear => True

/-- None of the calls, one after the other, drops all entries. -/
def Keeps (c : SimplificationCache) : List Call → Prop
  | [] => True
  | call :: calls => ¬c.Empties call ∧ (c.after call).Keeps calls

/-! ## Inserting -/

section Inserting

variable {c : SimplificationCache} {key : SimplificationKey} {stored : Simplified}

theorem getOrCompute_of_present (h : c.get? key = some stored) (value : Simplified) :
    c.getOrCompute key value = (stored, c.hit) := by
  rw [getOrCompute, h]

theorem getOrCompute_of_absent (h : c.get? key = none) (value : Simplified) :
    c.getOrCompute key value = c.miss.insert key value := by
  rw [getOrCompute, h]

theorem get?_cons_self {entries : List (SimplificationKey × Simplified)} {value : Simplified}
    (h : c.entries = (key, value) :: entries) : c.get? key = some value := by
  have hself : (key == key) = true := (SimplificationKey.beq_iff key key).mpr ⟨rfl, rfl⟩
  rw [get?, h, List.find?_cons, hself]
  rfl

/-- A new entry at an absent key does not stand before one that is there. -/
theorem get?_cons_of_absent {c' : SimplificationCache} {key' : SimplificationKey}
    {value : Simplified} (h : c'.entries = (key', value) :: c.entries)
    (habsent : c.get? key' = none) (hkey : c.get? key = some stored) :
    c'.get? key = some stored := by
  have hdiffers : (key' == key) = false := by
    rw [← Bool.not_eq_true]
    intro heq
    obtain ⟨hformula, hmode⟩ := (SimplificationKey.beq_iff key' key).mp heq
    have hsame (a : SimplificationKey) : (a == key') = (a == key) := by
      rw [Bool.eq_iff_iff, SimplificationKey.beq_iff, SimplificationKey.beq_iff, hformula, hmode]
    simp only [get?, hsame] at habsent
    rw [get?, habsent] at hkey
    cases hkey
  rw [get?, h, List.find?_cons, hdiffers]
  exact hkey

end Inserting

/-! ## What one call does -/

/-- A call leaves the entries alone, leaves nothing but what it brings, or adds what it brings to a
    table that is not full and does not have it. -/
theorem after_cases (c : SimplificationCache) (call : Call) :
    (¬c.Empties call ∧ (c.after call).entries = c.entries) ∨
    (c.Empties call ∧ (c.after call).entries = call.entry?.toList) ∨
    (¬c.Empties call ∧ c.isFull = false ∧ ∃ key value, call.entry? = some (key, value) ∧
      c.get? key = none ∧ (c.after call).entries = (key, value) :: c.entries) := by
  cases call with
  | get key => exact .inl ⟨id, rfl⟩
  | clear => exact .inr (.inl ⟨trivial, rfl⟩)
  | insert key value =>
    simp only [Empties, after]
    cases hfull : c.isFull with
    | true => exact .inr (.inl ⟨rfl, by rw [insert_of_full hfull]; rfl⟩)
    | false =>
      cases hkey : c.get? key with
      | some stored => exact .inl ⟨Bool.false_ne_true, by rw [insert_of_present hfull hkey]⟩
      | none =>
        exact .inr (.inr ⟨Bool.false_ne_true, rfl, key, value, rfl, hkey, by
          rw [insert_of_absent hfull hkey]⟩)
  | getOrCompute key value =>
    simp only [Empties, after]
    cases hkey : c.get? key with
    | some stored => exact .inl ⟨by simp, by rw [getOrCompute_of_present hkey]; rfl⟩
    | none =>
      rw [getOrCompute_of_absent hkey]
      cases hfull : c.isFull with
      | true => exact .inr (.inl ⟨⟨rfl, rfl⟩, by rw [insert_of_full (c := c.miss) hfull]; rfl⟩)
      | false =>
        exact .inr (.inr ⟨by simp, rfl, key, value, rfl, hkey, by
          rw [insert_of_absent (c := c.miss) hfull hkey]; rfl⟩)

theorem capacity_insert (c : SimplificationCache) (key : SimplificationKey) (value : Simplified) :
    (c.insert key value).2.capacity = c.capacity := by
  unfold insert
  dsimp only
  split <;> split <;> rfl

theorem capacity_after (c : SimplificationCache) (call : Call) :
    (c.after call).capacity = c.capacity := by
  cases call with
  | insert key value => exact capacity_insert c key value
  | getOrCompute key value =>
    rw [after, getOrCompute]
    split
    · rfl
    · exact capacity_insert c.miss key value
  | _ => rfl

/-- There are no more entries than there may be. -/
def Bounded (c : SimplificationCache) : Prop := ∀ n, 0 < n → c.capacity = some n → c.size ≤ n

theorem Bounded.after {c : SimplificationCache} (hc : c.Bounded) (call : Call) :
    (c.after call).Bounded := by
  intro n hpos hcapacity
  rw [capacity_after] at hcapacity
  unfold size
  rcases c.after_cases call with ⟨-, h⟩ | ⟨-, h⟩ | ⟨-, hfull, key, value, -, -, h⟩
  · rw [h]
    exact hc n hpos hcapacity
  · rw [h]
    exact Option.length_toList_le.trans hpos
  · rw [h, List.length_cons]
    rw [isFull, hcapacity, decide_eq_false_iff_not, not_le] at hfull
    exact hfull

/-- Only emptying the table ends an entry. -/
theorem get?_after {c : SimplificationCache} {call : Call} {key : SimplificationKey}
    {stored : Simplified} (hkept : ¬c.Empties call) (h : c.get? key = some stored) :
    (c.after call).get? key = some stored := by
  rcases c.after_cases call with ⟨-, hsame⟩ | ⟨hempties, -⟩ | ⟨-, -, _, _, -, habsent, hadded⟩
  · rw [get?, hsame]
    exact h
  · exact absurd hempties hkept
  · exact get?_cons_of_absent hadded habsent h

/-- A call at an absent key brings its entry, whether it empties the table or not. -/
theorem get?_after_of_absent {c : SimplificationCache} {call : Call} {key : SimplificationKey}
    {value : Simplified} (hcall : call.entry? = some (key, value)) (h : c.get? key = none) :
    (c.after call).get? key = some value := by
  have stored {c' : SimplificationCache} (hfull : c'.isFull = c.isFull)
      (hentries : c'.entries = c.entries) : (c'.insert key value).2.get? key = some value := by
    cases hc : c.isFull with
    | true => rw [insert_of_full (hfull.trans hc), get?_cons_self rfl]
    | false =>
      have habsent : c'.get? key = none := by
        rw [get?, hentries]
        exact h
      rw [insert_of_absent (hfull.trans hc) habsent, get?_cons_self rfl]
  cases call with
  | insert key' value' =>
    obtain ⟨rfl, rfl⟩ := Prod.mk.inj (Option.some.inj hcall)
    exact stored rfl rfl
  | getOrCompute key' value' =>
    obtain ⟨rfl, rfl⟩ := Prod.mk.inj (Option.some.inj hcall)
    rw [after, getOrCompute_of_absent h]
    exact stored rfl rfl
  | _ => cases hcall

theorem mem_after {c : SimplificationCache} {call : Call} {entry : SimplificationKey × Simplified}
    (h : entry ∈ (c.after call).entries) : entry ∈ c.entries ∨ call.entry? = some entry := by
  rcases c.after_cases call with ⟨-, hsame⟩ | ⟨-, honly⟩ | ⟨-, -, key, value, hcall, -, hadded⟩
  · rw [hsame] at h
    exact .inl h
  · rw [honly] at h
    exact .inr (Option.mem_toList.mp h)
  · rw [hadded] at h
    rcases List.mem_cons.mp h with rfl | h
    · exact .inr hcall
    · exact .inl h

/-! ## What many calls do -/

theorem Bounded.run {c : SimplificationCache} (hc : c.Bounded) (calls : List Call) :
    (c.run calls).Bounded := by
  induction calls generalizing c with
  | nil => exact hc
  | cons call calls ih => exact ih (hc.after call)

theorem capacity_run (c : SimplificationCache) (calls : List Call) :
    (c.run calls).capacity = c.capacity := by
  induction calls generalizing c with
  | nil => rfl
  | cons call calls ih => exact (ih (c.after call)).trans (c.capacity_after call)

theorem get?_run {c : SimplificationCache} {calls : List Call} {key : SimplificationKey}
    {stored : Simplified} (hkept : c.Keeps calls) (h : c.get? key = some stored) :
    (c.run calls).get? key = some stored := by
  induction calls generalizing c with
  | nil => exact h
  | cons call calls ih => exact ih hkept.2 (get?_after hkept.1 h)

/-- What is there was there before or was brought by one of the calls. -/
theorem mem_run {c : SimplificationCache} {calls : List Call}
    {entry : SimplificationKey × Simplified} (h : entry ∈ (c.run calls).entries) :
    entry ∈ c.entries ∨ ∃ call ∈ calls, call.entry? = some entry := by
  induction calls generalizing c with
  | nil => exact .inl h
  | cons call calls ih =>
    rcases ih h with h | ⟨call', hcall', hentry⟩
    · refine (mem_after h).imp_right fun hentry => ⟨call, List.mem_cons_self .., hentry⟩
    · exact .inr ⟨call', List.mem_cons_of_mem call hcall', hentry⟩

/-- **A bounded table that inserts what is absent.** After any calls on an empty table, with a
    capacity or without one: at a key that is present nothing is computed, and inserting there gives
    the stored result and leaves the table alone, unless the table is full, when the new result
    replaces all entries. At an absent key the new result is found from then on, until the table is
    emptied. The capacity is respected. What is found for a key was brought by one of the calls for
    the same formula in the same mode. -/
theorem insert_if_absent (capacity : Option Nat) (calls : List Call) (key : SimplificationKey) :
    let c := (empty capacity).run calls
    (∀ stored value, c.get? key = some stored →
      c.getOrCompute key value = (stored, c.hit) ∧
      (c.isFull = false → c.insert key value = (stored, c)) ∧
      (c.isFull = true → c.insert key value = (value, { c with entries := [(key, value)] }))) ∧
    (∀ call value later, call.entry? = some (key, value) → c.get? key = none →
      (c.after call).Keeps later → ((c.after call).run later).get? key = some value) ∧
    (∀ n, 0 < n → capacity = some n → c.size ≤ n) ∧
    ∀ value, c.get? key = some value → ∃ call ∈ calls, ∃ key', call.entry? = some (key', value) ∧
      (key'.formula == key.formula) = true ∧ key'.mode = key.mode := by
  intro c
  refine ⟨fun stored value h => ?_, fun call value later hcall h hkept => ?_,
    fun n hpos hcapacity => ?_, fun value h => ?_⟩
  · exact ⟨getOrCompute_of_present h value, fun hfull => insert_of_present hfull h value,
      fun hfull => insert_of_full hfull key value⟩
  · exact get?_run hkept (get?_after_of_absent hcall h)
  · have hempty : (empty capacity).Bounded := fun _ _ _ => Nat.zero_le _
    exact hempty.run calls n hpos ((capacity_run _ calls).trans hcapacity)
  · obtain ⟨entry, hentry, hformula, hmode, rfl⟩ := mem_of_get? h
    rcases mem_run hentry with hentry | ⟨call, hcall, hbrought⟩
    · exact absurd hentry List.not_mem_nil
    · exact ⟨call, hcall, entry.1, hbrought, (Formula.beq_iff _ _).mpr hformula, hmode⟩

/-! ### Two keys -/

namespace Filled

def x : Term := .var ⟨"X", .int⟩

/-- `X = n` -/
def stated (n : Int) : Formula := .all .empty [⟨x, .int n⟩] []

/-- `X = n`, in the default mode -/
def key (n : Int) : SimplificationKey := ⟨stated n, .default⟩

/-- The table for two results with one entry, `X = 1` for itself -/
def table : SimplificationCache := (empty (some 2)).run [.insert (key 1) (.ok (stated 1))]

/-- Inserting again gives the old result, and a second one is found after further look-ups. -/
theorem insert_if_absent_table :
    table.insert (key 1) (.ok (stated 2)) = (.ok (stated 1), table) ∧
    ((table.after (.insert (key 2) (.ok (stated 2)))).run
      [.get (key 1), .getOrCompute (key 1) (.ok (stated 3))]).get? (key 2) = some (.ok (stated 2)) ∧
    table.size ≤ 2 := by
  have hpresent : table.get? (key 1) = some (.ok (stated 1)) := by cbv
  have hroom : table.isFull = false := by cbv
  have habsent : table.get? (key 2) = none := by cbv
  have hkept : (table.after (.insert (key 2) (.ok (stated 2)))).Keeps
      [.get (key 1), .getOrCompute (key 1) (.ok (stated 3))] := by
    refine ⟨id, fun hempties => ?_, trivial⟩
    have hfound : (table.after (.insert (key 2) (.ok (stated 2)))).get? (key 1) =
        some (.ok (stated 1)) := by cbv
    cases hfound.symm.trans hempties.1
  obtain ⟨hinsert, -, hsize, -⟩ :=
    insert_if_absent (some 2) [.insert (key 1) (.ok (stated 1))] (key 1)
  obtain ⟨-, hfound, -, -⟩ :=
    insert_if_absent (some 2) [.insert (key 1) (.ok (stated 1))] (key 2)
  exact ⟨(hinsert _ _ hpresent).2.1 hroom, hfound _ _ _ rfl habsent hkept, hsize 2 (by decide) rfl⟩

/-- The table is full when both keys are present. Inserting a different result for the first key
    then gives this result, although there is one, and drops the second key. -/
theorem full_table_replaced :
    let full := table.after (.insert (key 2) (.ok (stated 2)))
    full.get? (key 1) = some (.ok (stated 1)) ∧
    (full.insert (key 1) (.ok (stated 3))).1 = .ok (stated 3) ∧
    (Except.ok (stated 3) : Simplified) ≠ .ok (stated 1) ∧
    full.get? (key 2) = some (.ok (stated 2)) ∧
    (full.insert (key 1) (.ok (stated 3))).2.get? (key 2) = none := by
  have hdiffer : (Except.ok (stated 3) : Simplified) ≠ .ok (stated 1) := by
    simp [stated]
  exact ⟨by cbv, by cbv, hdiffer, by cbv, by cbv⟩

end Filled

end SimplificationCache

/-! ## Simplification through the table -/

namespace Engine

variable {e : Engine σ}

theorem computeSimplified_simplifications (e : Engine σ) (mode : SimplifyMode) (logFailures : Bool)
    (φ : Formula) (s : Session σ) :
    (e.computeSimplified mode logFailures φ s).2.simplifications = s.simplifications := by
  unfold computeSimplified
  generalize φ.simplifyWithin e.vocabulary e.unifier mode φ.stepBound = answer
  match answer with
  | .ok _ | .error .exhausted | .error (.refuted _) => rfl

/-- Simplifying an open formula looks it up and computes what is not found. -/
theorem simplify_getOrCompute (hcache : e.options.cacheSimplifications = true)
    (mode : SimplifyMode) (logFailures : Bool) {φ : Formula} (hφ : φ.truth = .unknown)
    (s : Session σ) :
    ((e.simplify mode logFailures φ s).1, (e.simplify mode logFailures φ s).2.simplifications) =
      s.simplifications.getOrCompute ⟨φ, mode⟩
        (φ.simplifyWithin e.vocabulary e.unifier mode φ.stepBound) := by
  have hopen : φ.isFalse = false ∧ φ.isTrue = false := by
    unfold Formula.truth at hφ
    split_ifs at hφ with hfalse htrue
    exact ⟨Bool.not_eq_true _ ▸ hfalse, Bool.not_eq_true _ ▸ htrue⟩
  cases φ with
  | falsified w => exact absurd hopen.1 nofun
  | all b es ds =>
    unfold simplify
    dsimp only
    rw [hopen.2, hcache, if_neg Bool.false_ne_true, if_neg (by decide)]
    cases hget : s.simplifications.get? ⟨.all b es ds, mode⟩ with
    | some stored =>
      rw [SimplificationCache.getOrCompute_of_present hget]
      simp only [bind, StateT.bind, get, getThe, MonadStateOf.get, StateT.get, pure, hget]
      rfl
    | none =>
      have hvalue := e.computeSimplified_fst mode logFailures (.all b es ds)
        { s with simplifications := s.simplifications.miss }
      have htable := e.computeSimplified_simplifications mode logFailures (.all b es ds)
        { s with simplifications := s.simplifications.miss }
      rw [SimplificationCache.getOrCompute_of_absent hget, ← hvalue]
      simp only [bind, StateT.bind, get, getThe, MonadStateOf.get, StateT.get, pure, hget, modify,
        modifyGet, MonadStateOf.modifyGet, StateT.modifyGet, StateT.pure]
      generalize e.computeSimplified mode logFailures _ _ = computed at htable ⊢
      change computed.2.simplifications.insert ⟨.all b es ds, mode⟩ computed.1 = _
      rw [htable]

end Engine

end Entail
