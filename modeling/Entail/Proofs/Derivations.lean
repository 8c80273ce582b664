import Entail.Proofs.Freshness
import Entail.Proofs.Ordering
import Mathlib.Data.List.Permutation

set_option autoImplicit false

/-! # Priming ends in new names

A name is primed for as long as it is taken. Of its primed forms only finitely many are taken, so
this ends, and it ends in the name that is chosen. All names that were given or are to be avoided
stay taken, so no name is given twice, whatever the variables stand for. -/

namespace Entail.FreshNames

/-! ## Priming -/

/-- A name that is taken gets a prime, and what comes of it is primed on. -/
inductive Primes (taken : List String) : String → String → Prop
  | free {name : String} (h : name ∉ taken) : Primes taken name name
  | prime {name result : String} (h : name ∈ taken) (rest : Primes taken (name.push '\'') result) :
      Primes taken name result

theorem Primes.unique {taken : List String} {name a b : String} (ha : Primes taken name a)
    (hb : Primes taken name b) : a = b := by
  induction ha with
  | free h =>
    cases hb with
    | free _ => rfl
    | prime h' _ => exact absurd h' h
  | prime h _ ih =>
    cases hb with
    | free h' => exact absurd h h'
    | prime _ rest => exact ih rest

theorem primed_zero (base : String) : primed base 0 = base := by
  simp [primed]

theorem primed_succ (base : String) (n : Nat) :
    primed base (n + 1) = (primed base n).push '\'' := by
  apply String.toList_inj.mp
  simp [primed, List.replicate_succ']

/-- Priming ends, in the name that is chosen. -/
theorem primes_iff (taken : List String) (base name : String) :
    Primes taken base name ↔ name = firstFree taken base := by
  obtain ⟨n, heq, hfree, htaken⟩ := firstFree_spec taken base
  -- from every candidate on the way, on to the first one that is free
  have hprimes (left : Nat) : ∀ k, k + left = n → Primes taken (primed base k) (primed base n) := by
    induction left with
    | zero =>
      intro k hk
      obtain rfl : k = n := by omega
      exact .free hfree
    | succ left ih =>
      intro k hk
      refine .prime (htaken k (by omega)) ?_
      rw [← primed_succ]
      exact ih (k + 1) (by omega)
  have hbase := hprimes n 0 (by omega)
  rw [primed_zero, ← heq] at hbase
  exact ⟨fun h => h.unique hbase, fun h => h ▸ hbase⟩

/-! ## Requests -/

/-- Requests for new variables are answered one after the other. The name of each variable comes of
    priming and is taken from then on. -/
inductive Answers : List String → List (List Variable × SortName) → List Variable → Prop
  | nil (taken : List String) : Answers taken [] []
  | cons {taken : List String} {origins : List Variable} {s : SortName} {name : String}
      {requests : List (List Variable × SortName)} {news : List Variable}
      (hname : Primes taken (baseName origins) name)
      (rest : Answers (name :: taken) requests news) :
      Answers taken ((origins, s) :: requests) (⟨name, s⟩ :: news)

theorem answers_iff (names : FreshNames) (requests : List (List Variable × SortName))
    (news : List Variable) :
    Answers names.taken requests news ↔ news = (names.deriveAll requests).1 := by
  induction requests generalizing names news with
  | nil =>
    constructor
    · rintro ⟨⟩
      rfl
    · rintro rfl
      exact .nil names.taken
  | cons request requests ih =>
    obtain ⟨origins, s⟩ := request
    have hrest := ih (names.derive origins s).2
    constructor
    · intro h
      cases h with
      | cons hname rest =>
        obtain rfl := (primes_iff _ _ _).mp hname
        rw [deriveAll, (hrest _).mp rest]
        rfl
    · rintro rfl
      exact .cons ((primes_iff _ _ _).mpr rfl) ((hrest _).mpr rfl)

/-! ## The order of origins -/

theorem mergeSort_eq_of_perm {vs ws : List Variable} (h : vs.Perm ws) :
    (vs.mergeSort fun a b => (a.cmp b).isLE) = ws.mergeSort fun a b => (a.cmp b).isLE := by
  have htotal (a b : Variable) : ((a.cmp b).isLE || (b.cmp a).isLE) = true := by
    have hswap : b.cmp a = (a.cmp b).swap := Std.OrientedCmp.eq_swap
    rw [hswap]
    cases a.cmp b <;> rfl
  have hsorted (us : List Variable) :
      (us.mergeSort fun a b => (a.cmp b).isLE).Pairwise fun a b => (a.cmp b).isLE = true :=
    List.pairwise_mergeSort (fun _ _ _ => Std.TransCmp.isLE_trans) htotal us
  refine List.Perm.eq_of_pairwise (fun a b _ _ hab hba => ?_) (hsorted vs) (hsorted ws) ?_
  · exact (Variable.cmp_eq_iff a b).mp (Std.OrientedCmp.isLE_antisymm hab hba)
  · exact (List.mergeSort_perm vs _).trans (h.trans (List.mergeSort_perm ws _).symm)

theorem baseName_eq_of_perm {vs ws : List Variable} (h : vs.Perm ws) :
    baseName vs = baseName ws := by
  rw [baseName, baseName, mergeSort_eq_of_perm h]

/-- The same request, with the origins in any order. -/
def SameRequest (r r' : List Variable × SortName) : Prop := r.1.Perm r'.1 ∧ r.2 = r'.2

theorem deriveAll_eq_of_same {requests requests' : List (List Variable × SortName)}
    (h : List.Forall₂ SameRequest requests requests') (names : FreshNames) :
    names.deriveAll requests = names.deriveAll requests' := by
  induction h generalizing names with
  | nil => rfl
  | @cons r r' _ _ hr _ ih =>
    obtain ⟨origins, s⟩ := r
    obtain ⟨origins', s'⟩ := r'
    obtain ⟨hperm, hsort⟩ := hr
    dsimp only at hperm hsort
    have hderive : names.derive origins s = names.derive origins' s' := by
      rw [derive, derive, baseName_eq_of_perm hperm, hsort]
    simp only [deriveAll, hderive, ih]

/-- **New names do not collide.** Whatever is to be avoided and requested: the requests are
    answered, since each priming ends, and in one way only; the variables have the requested sorts
    and the names of new variables; no name is given twice or is that of a variable to be avoided;
    and the order of the origins in the requests does not matter. -/
theorem new_names_distinct (vars : List Variable) (requests : List (List Variable × SortName)) :
    ∃ news, ((avoiding vars).deriveAll requests).1 = news ∧
      (∀ news', Answers (vars.map (·.name)) requests news' ↔ news' = news) ∧
      news.map (·.sort) = requests.map (·.2) ∧ (news.map (·.name)).Nodup ∧
      (∀ z ∈ news, z.isFresh = true ∧ ∀ v ∈ vars, z.name ≠ v.name) ∧
      ∀ requests', List.Forall₂ SameRequest requests requests' →
        ((avoiding vars).deriveAll requests').1 = news := by
  cases hderive : (avoiding vars).deriveAll requests with
  | mk news names =>
    obtain ⟨hsorts, hnames, hnodup, _⟩ := deriveAll_spec hderive
    refine ⟨news, rfl, fun news' => ?_, hsorts, hnodup, fun z hz => ?_, fun requests' hsame => ?_⟩
    · have hanswers := answers_iff (avoiding vars) requests news'
      rwa [hderive] at hanswers
    · obtain ⟨hfree, hfresh⟩ := hnames z hz
      refine ⟨hfresh, fun v hv heq => hfree ?_⟩
      exact List.mem_map.mpr ⟨v, hv, heq.symm⟩
    · rw [← deriveAll_eq_of_same hsame, hderive]

namespace Joined

def x : Variable := ⟨"X", .int⟩

def y : Variable := ⟨"Y", .bool⟩

def xy : Variable := ⟨"X_Y", .int⟩

def vars : List Variable := [x, y, xy, ⟨"_X", .bool⟩]

/-- For `X`, of which a new variable is there already, for `X` and `Y`, and for `X_Y`. -/
def requests (both : List Variable) : List (List Variable × SortName) :=
  [([x], .int), (both, .bool), ([xy], .int)]

/-- Names that are joined to the same name are primed, and so are names that are taken. -/
theorem new_names_distinct_joined :
    List.Forall₂ SameRequest (requests [x, y]) (requests [y, x]) ∧
    ((avoiding vars).deriveAll (requests [y, x])).1 =
      [⟨"_X'", .int⟩, ⟨"_X_Y", .bool⟩, ⟨"_X_Y'", .int⟩] ∧
    Answers (vars.map (·.name)) (requests [y, x])
      [⟨"_X'", .int⟩, ⟨"_X_Y", .bool⟩, ⟨"_X_Y'", .int⟩] := by
  have hsame : List.Forall₂ SameRequest (requests [x, y]) (requests [y, x]) :=
    .cons ⟨.refl _, rfl⟩ (.cons ⟨.swap _ _ _, rfl⟩ (.cons ⟨.refl _, rfl⟩ .nil))
  have hnews : ((avoiding vars).deriveAll (requests [x, y])).1 =
      [⟨"_X'", .int⟩, ⟨"_X_Y", .bool⟩, ⟨"_X_Y'", .int⟩] := by
    cbv
  obtain ⟨news, heq, _, _, _, _, hreordered⟩ := new_names_distinct vars (requests [x, y])
  obtain ⟨news', heq', hanswers, _⟩ := new_names_distinct vars (requests [y, x])
  have hreordered := hreordered _ hsame
  rw [← heq, hnews] at hreordered
  exact ⟨hsame, hreordered, (hanswers _).mpr (hreordered.symm.trans heq')⟩

end Joined

end Entail.FreshNames
