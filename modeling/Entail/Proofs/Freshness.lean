import Entail.Variable.Fresh
import Mathlib.Data.List.Perm.Subperm
import Mathlib.Data.List.Nodup
import Mathlib.Data.List.Forall2

set_option autoImplicit false

/-! # New variables

A new name is taken by no variable so far and starts with an underscore. So new variables can be
given any values without changing the values of the others. -/

namespace Entail

/-- That no name of a list is one that could be chosen is checked by evaluation. -/
theorem Variable.unchosen_of_any {vs : List Variable} (h : vs.any Variable.isFresh = false) :
    ∀ v ∈ vs, v.isFresh = false := by
  simpa using h

namespace FreshNames

/-! ## Free names -/

theorem primed_injective (base : String) : Function.Injective (primed base) := by
  intro m n h
  have hlist := congrArg String.toList h
  rw [primed, primed, String.toList_append, String.toList_append] at hlist
  have hsuffix := congrArg List.length (List.append_cancel_left hlist)
  simpa using hsuffix

/-- Some candidate is free: there are more of them than names that are taken. -/
theorem exists_free (taken : List String) (base : String) :
    ∃ name ∈ (List.range (taken.length + 1)).map (primed base), name ∉ taken := by
  by_contra hnone
  push Not at hnone
  have hnodup : ((List.range (taken.length + 1)).map (primed base)).Nodup :=
    List.nodup_range.map (primed_injective base)
  have hle := (hnodup.subperm hnone).length_le
  rw [List.length_map, List.length_range] at hle
  omega

/-- The name that is chosen is the first candidate that is not taken. -/
theorem firstFree_spec (taken : List String) (base : String) :
    ∃ n, firstFree taken base = primed base n ∧ primed base n ∉ taken ∧
      ∀ k < n, primed base k ∈ taken := by
  rw [firstFree]
  cases hfind : ((List.range (taken.length + 1)).map (primed base)).find?
      fun name => !taken.contains name with
  | none =>
    obtain ⟨name, hname, hfree⟩ := exists_free taken base
    have hcontains := List.find?_eq_none.mp hfind name hname
    simp [hfree] at hcontains
  | some name =>
    obtain ⟨hfree, n, _, hn, hbefore⟩ := List.find?_eq_some_iff_getElem.mp hfind
    rw [List.getElem_map, List.getElem_range] at hn
    subst hn
    exact ⟨n, rfl, by simpa using hfree, fun k hk => by simpa using hbefore k hk⟩

theorem startsWith_primed (origins : List Variable) (n : Nat) :
    (primed (baseName origins) n).startsWith "_" = true := by
  simp [primed, baseName]

/-- What is known of a new variable. -/
theorem derive_spec {names names' : FreshNames} {origins : List Variable} {s : SortName}
    {z : Variable} (h : names.derive origins s = (z, names')) :
    z.sort = s ∧ z.name ∉ names.taken ∧ z.isFresh = true ∧
      names'.taken = z.name :: names.taken := by
  rw [derive] at h
  obtain ⟨rfl, rfl⟩ := Prod.mk.inj h
  obtain ⟨n, hn, hfree, _⟩ := firstFree_spec names.taken (baseName origins)
  rw [hn]
  exact ⟨rfl, hfree, startsWith_primed origins n, rfl⟩

/-! ## Several new variables -/

/-- New variables, one after the other, each of them for several origins. -/
def deriveAll (names : FreshNames) :
    List (List Variable × SortName) → List Variable × FreshNames
  | [] => ([], names)
  | (origins, s) :: requests =>
    let (z, names) := names.derive origins s
    let (zs, names) := deriveAll names requests
    (z :: zs, names)

theorem deriveEach_eq (names : FreshNames) (pairs : List (Variable × SortName)) :
    names.deriveEach pairs = names.deriveAll (pairs.map fun pair => ([pair.1], pair.2)) := by
  induction pairs generalizing names with
  | nil => rfl
  | cons pair pairs ih =>
    rw [deriveEach, List.map_cons, deriveAll]
    simp only [ih]

/-- What is known of new variables: they have the given sorts, their names were free and are
    distinct, and all names are taken afterwards. -/
theorem deriveAll_spec {names names' : FreshNames} {requests : List (List Variable × SortName)}
    {news : List Variable} (h : names.deriveAll requests = (news, names')) :
    news.map (·.sort) = requests.map (·.2) ∧
      (∀ z ∈ news, z.name ∉ names.taken ∧ z.isFresh = true) ∧ (news.map (·.name)).Nodup ∧
      ∀ n, n ∈ names'.taken ↔ n ∈ news.map (·.name) ∨ n ∈ names.taken := by
  induction requests generalizing names news with
  | nil =>
    obtain ⟨rfl, rfl⟩ := Prod.mk.inj h
    exact ⟨rfl, nofun, List.nodup_nil, fun n => by simp⟩
  | cons request requests ih =>
    obtain ⟨origins, s⟩ := request
    rw [deriveAll] at h
    cases hz : names.derive origins s with
    | mk z names₁ =>
      cases hrest : names₁.deriveAll requests with
      | mk rest names₂ =>
        simp only [hz, hrest, Prod.mk.injEq] at h
        obtain ⟨rfl, rfl⟩ := h
        obtain ⟨hsort, hname, hfresh, htaken⟩ := derive_spec hz
        obtain ⟨hsorts, hnames, hnodup, htaken'⟩ := ih hrest
        simp only [htaken, List.mem_cons] at hnames htaken'
        refine ⟨by rw [List.map_cons, List.map_cons, hsort, hsorts], ?_, ?_, fun n => ?_⟩
        · intro w hw
          rcases List.mem_cons.mp hw with rfl | hw
          · exact ⟨hname, hfresh⟩
          · exact ⟨fun hmem => (hnames w hw).1 (Or.inr hmem), (hnames w hw).2⟩
        · -- the name of the first one is taken when the others are chosen
          rw [List.map_cons, List.nodup_cons]
          refine ⟨fun hmem => ?_, hnodup⟩
          obtain ⟨w, hw, heq⟩ := List.mem_map.mp hmem
          exact (hnames w hw).1 (Or.inl heq)
        · rw [htaken', List.map_cons, List.mem_cons]
          tauto

theorem deriveEach_spec {names names' : FreshNames} {pairs : List (Variable × SortName)}
    {news : List Variable} (h : names.deriveEach pairs = (news, names')) :
    news.map (·.sort) = pairs.map (·.2) ∧
      (∀ z ∈ news, z.name ∉ names.taken ∧ z.isFresh = true ∧ z.name ∈ names'.taken) ∧
      ∀ n ∈ names.taken, n ∈ names'.taken := by
  rw [deriveEach_eq] at h
  obtain ⟨hsorts, hnames, _, htaken⟩ := deriveAll_spec h
  refine ⟨by rw [hsorts, List.map_map]; rfl, fun z hz => ?_, fun n hn => (htaken n).mpr (Or.inr hn)⟩
  have hmem := (htaken z.name).mpr (Or.inl (List.mem_map.mpr ⟨z, hz, rfl⟩))
  exact ⟨(hnames z hz).1, (hnames z hz).2, hmem⟩

/-- New variables are distinct. -/
theorem nodup_deriveEach {names names' : FreshNames} {pairs : List (Variable × SortName)}
    {news : List Variable} (h : names.deriveEach pairs = (news, names')) : news.Nodup := by
  rw [deriveEach_eq] at h
  exact List.Nodup.of_map _ (deriveAll_spec h).2.2.1

/-- New variables can have any values. -/
theorem exists_values {V : Type} {names names' : FreshNames} {pairs : List (Variable × SortName)}
    {news : List Variable} (h : names.deriveEach pairs = (news, names')) (ρ : Variable → V)
    {vs : List V} (hlen : vs.length = pairs.length) :
    ∃ ρ' : Variable → V, (∀ w, w.name ∈ names.taken → ρ' w = ρ w) ∧ news.map ρ' = vs := by
  induction pairs generalizing names news ρ vs with
  | nil =>
    obtain ⟨rfl, rfl⟩ := Prod.mk.inj h
    obtain rfl := List.length_eq_zero_iff.mp hlen
    exact ⟨ρ, fun _ _ => rfl, rfl⟩
  | cons pair pairs ih =>
    obtain ⟨origin, s⟩ := pair
    cases vs with
    | nil => exact absurd hlen nofun
    | cons v vs =>
      rw [deriveEach] at h
      cases hz : names.derive [origin] s with
      | mk z names₁ =>
        cases hrest : names₁.deriveEach pairs with
        | mk rest names₂ =>
          simp only [hz, hrest, Prod.mk.injEq] at h
          obtain ⟨rfl, rfl⟩ := h
          obtain ⟨_, hname, _, htaken⟩ := derive_spec hz
          obtain ⟨ρ', hkept, hvalues⟩ := ih hrest (Function.update ρ z v) (Nat.succ.inj hlen)
          rw [htaken] at hkept
          refine ⟨ρ', fun w hw => ?_, ?_⟩
          · rw [hkept w (List.mem_cons_of_mem _ hw), Function.update_of_ne]
            rintro rfl
            exact hname hw
          · rw [List.map_cons, hvalues, hkept z (List.mem_cons_self ..), Function.update_self]

end FreshNames

end Entail
