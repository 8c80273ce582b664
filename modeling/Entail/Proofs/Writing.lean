import Entail.Proofs.Ascending
import Entail.Proofs.Building
import Entail.Proofs.Sexps

set_option autoImplicit false

/-! # What is written

A writer gives a text and adds to the declarations. The text reads as an S-expression of the same
shape as what is written, and all that occurs in it is declared afterwards. Declarations are never
taken back or changed, and each identifier is declared once, so what is declared at one place stays
declared for the places that were written before. -/

namespace Entail.Smt

/-! ## S-expressions of terms and formulas -/

/-- The identifier of a sort, builtin or declared. -/
def sortIdentifier (s : SortName) : String :=
  if s.isInt then "Int" else if s.isBool then "Bool" else sortName s

/-- A negative integer is the negation of a numeral. -/
def integerSexp (n : Int) : Sexp :=
  if n < 0 then .list [.atom "-", .atom (toString (-n))] else .atom (toString n)

mutual

/-- A term as it is written. What cannot be written stands as the empty list. -/
def termSexp : Term → Sexp
  | .var v => .atom (variableName v)
  | .bool b => .atom (if b then "true" else "false")
  | .int n => integerSexp n
  | .str _ => .list []
  | .list _ _ => .list []
  | .app f args _ =>
    if args.isEmpty then .atom (functionName f)
    else .list (.atom (functionName f) :: termSexps args)
  | .builtin op args => .list (.atom (operator op) :: termSexps args)
  | .ite c t e => .list [.atom "ite", termSexp c, termSexp t, termSexp e]
termination_by structural t => t

def termSexps : List Term → List Sexp
  | [] => []
  | t :: ts => termSexp t :: termSexps ts
termination_by structural ts => ts

end

theorem termSexps_eq (ts : List Term) : termSexps ts = ts.map termSexp := by
  induction ts with
  | nil => rfl
  | cons t ts ih => rw [termSexps, ih, List.map_cons]

def equalitySexp (e : Equality) : Sexp := .list [.atom "=", termSexp e.lhs, termSexp e.rhs]

/-- Several statements joined by an operator. -/
def joinedSexp (operator neutral : String) : List Sexp → Sexp
  | [] => .atom neutral
  | [only] => only
  | parts => .list (.atom operator :: parts)

mutual

/-- A formula as it is written. -/
def formulaSexp : Formula → Sexp
  | .falsified _ => .atom "false"
  | .all s es ds =>
    joinedSexp "and" "true" ((s.equalities ++ es).map equalitySexp ++ disjunctionSexps ds)
termination_by structural φ => φ

def disjunctionSexps : List (List Formula) → List Sexp
  | [] => []
  | d :: ds => joinedSexp "or" "false" (alternativeSexps d) :: disjunctionSexps ds
termination_by structural ds => ds

def alternativeSexps : List Formula → List Sexp
  | [] => []
  | φ :: φs => formulaSexp φ :: alternativeSexps φs
termination_by structural φs => φs

end

/-! ## Words -/

/-- What holds of the sixteen digits holds of all digits of a number. -/
theorem forall_mem_toDigits {p : Char → Prop} (h : ∀ d < 16, p (Nat.digitChar d)) (n : Nat) :
    ∀ c ∈ Nat.toDigits 16 n, p c := by
  induction n using Nat.strongRecOn with
  | _ n ih =>
    intro c hc
    rw [Nat.toDigits_eq_if (by decide)] at hc
    split at hc
    · rename_i hlt
      rw [List.mem_singleton.mp hc]
      exact h n hlt
    · rcases List.mem_append.mp hc with hc | hc
      · exact ih (n / 16) (by omega) c hc
      · rw [List.mem_singleton.mp hc]
        exact h _ (Nat.mod_lt n (by decide))

theorem isAlphanum_of_mem_toDigits {c : Char} {n : Nat} (h : c ∈ Nat.toDigits 16 n) :
    c.isAlphanum = true :=
  forall_mem_toDigits (p := fun c => c.isAlphanum = true) (by decide) n c h

theorem isWordChar_of_isAlphanum {c : Char} (h : c.isAlphanum = true) : isWordChar c = true := by
  rw [isWordChar, h, Bool.true_or]

theorem isWordChar_of_mem_mangleChar {c d : Char} (h : d ∈ mangleChar c) : isWordChar d = true := by
  unfold mangleChar at h
  split at h
  · rename_i hplain
    obtain rfl := List.mem_singleton.mp h
    rw [isPlain, Bool.or_eq_true, beq_iff_eq] at hplain
    rcases hplain with hplain | rfl
    · exact isWordChar_of_isAlphanum hplain
    · rfl
  · rcases List.mem_cons.mp h with rfl | h
    · rfl
    · exact isWordChar_of_isAlphanum (isAlphanum_of_mem_toDigits h)

theorem isWord_mangle {kind : String} (hkind : IsWord kind) (name : String) :
    IsWord (mangle kind name) := by
  rw [mangle]
  refine ⟨?_, fun c hc => ?_⟩
  · simp [hkind.ne_nil]
  · rw [String.toList_append, String.toList_ofList] at hc
    rcases List.mem_append.mp hc with hc | hc
    · exact hkind.chars c hc
    · obtain ⟨d, _, hd⟩ := List.mem_flatMap.mp hc
      exact isWordChar_of_mem_mangleChar hd

theorem isWord_variableName (v : Variable) : IsWord (variableName v) :=
  isWord_mangle (.of_all rfl) v.name

theorem isWord_functionName (f : Symbol) : IsWord (functionName f) :=
  isWord_mangle (.of_all rfl) f.name

theorem isWord_sortName (s : SortName) : IsWord (sortName s) :=
  isWord_mangle (.of_all rfl) s.name

theorem isWord_toString {n : Int} (h : 0 ≤ n) : IsWord (toString n) := by
  obtain ⟨m, rfl⟩ := Int.eq_ofNat_of_zero_le h
  change IsWord (toString m)
  refine ⟨by simp, fun c hc => ?_⟩
  rw [Nat.toString_eq_ofList_toDigits, String.toList_ofList] at hc
  have hdigit := Nat.isDigit_of_mem_toDigits (by decide) (by decide) hc
  exact isWordChar_of_isAlphanum (by simp [Char.isAlphanum, hdigit])

theorem isWord_operator (op : Builtin) : IsWord (operator op) := by
  cases op <;> exact .of_all rfl

theorem spells_integer (n : Int) : Spells (integer n) [integerSexp n] := by
  unfold integer integerSexp
  split
  · rename_i hneg
    have hminus : IsWord "-" := .of_all rfl
    have hnumeral : IsWord (toString (-n)) := isWord_toString (by omega)
    have happlied := spells_applied hminus (.cons hnumeral.spells .nil)
    simpa [applied, Text.joinWith] using happlied
  · rename_i hnonneg
    exact (isWord_toString (by omega)).spells

theorem spells_joined {operator neutral : String} (hoperator : IsWord operator)
    (hneutral : IsWord neutral) {texts : List String} {xs : List Sexp}
    (h : List.Forall₂ (fun text x => Spells text [x]) texts xs) :
    Spells (joined operator neutral texts) [joinedSexp operator neutral xs] := by
  cases h with
  | nil => exact hneutral.spells
  | cons hx hxs =>
    cases hxs with
    | nil => exact hx
    | cons hy hys => exact spells_applied hoperator (.cons hx (.cons hy hys))

/-! ## Declarations -/

instance transCmp_fst {β : Type} : Std.TransCmp fun a b : String × β => compare a.1 b.1 where
  eq_swap := Std.OrientedOrd.eq_swap
  isLE_trans := Std.TransOrd.isLE_trans

namespace Declarations

/-- The sort is builtin or declared. -/
def Knows (d : Declarations) (sort : String) : Prop := sort = "Int" ∨ sort = "Bool" ∨ sort ∈ d.sorts

/-- Each identifier is declared once and is that of a name of its kind, and sorts are declared where
    they are used. -/
structure Proper (d : Declarations) : Prop where
  sorts : Sorted.Ascending compare d.sorts
  constants : Sorted.Ascending (fun a b => compare a.1 b.1) d.constants
  functions : Sorted.Ascending (fun a b => compare a.1 b.1) d.functions
  sort_names : ∀ s ∈ d.sorts, ∃ n, s = sortName n
  constant_names : ∀ c ∈ d.constants, (∃ v, c.1 = variableName v) ∧ d.Knows c.2
  function_names : ∀ f ∈ d.functions,
    (∃ g, f.1 = functionName g) ∧ (∀ s ∈ f.2.1, d.Knows s) ∧ d.Knows f.2.2

/-- Everything that is declared stays declared. -/
structure Extends (d d' : Declarations) : Prop where
  sorts : d.sorts ⊆ d'.sorts
  constants : d.constants ⊆ d'.constants
  functions : d.functions ⊆ d'.functions
  proper : d'.Proper

variable {d d' d'' : Declarations}

theorem Extends.trans (h : d.Extends d') (h' : d'.Extends d'') : d.Extends d'' :=
  ⟨List.Subset.trans h.sorts h'.sorts, List.Subset.trans h.constants h'.constants,
    List.Subset.trans h.functions h'.functions, h'.proper⟩

theorem Proper.extends_self (h : d.Proper) : d.Extends d :=
  ⟨fun _ => id, fun _ => id, fun _ => id, h⟩

theorem Knows.mono (hsorts : d.sorts ⊆ d'.sorts) {sort : String} (h : d.Knows sort) :
    d'.Knows sort :=
  h.imp_right (Or.imp_right fun hmem => hsorts hmem)

theorem proper_empty : empty.Proper := ⟨.nil, .nil, .nil, nofun, nofun, nofun⟩

theorem Proper.insert_sort (h : d.Proper) (s : SortName) :
    d.Extends { d with sorts := Sorted.insert compare (sortName s) d.sorts } ∧
      sortName s ∈ Sorted.insert compare (sortName s) d.sorts := by
  have hsorts : d.sorts ⊆ Sorted.insert compare (sortName s) d.sorts :=
    fun _ => Sorted.mem_insert_of_mem _
  refine ⟨⟨hsorts, fun _ => id, fun _ => id, ?_⟩, ?_⟩
  · exact
      { sorts := Sorted.ascending_insert _ h.sorts
        constants := h.constants
        functions := h.functions
        sort_names := fun n hn => (Sorted.mem_insert _ hn).elim (fun heq => ⟨s, heq⟩)
          (h.sort_names n)
        constant_names := fun c hc => (h.constant_names c hc).imp_right (Knows.mono hsorts)
        function_names := fun f hf =>
          let ⟨hname, hparams, hresult⟩ := h.function_names f hf
          ⟨hname, fun q hq => (hparams q hq).mono hsorts, hresult.mono hsorts⟩ }
  · obtain ⟨n, hn, heq⟩ := Sorted.exists_mem_insert compare (sortName s) d.sorts
    rcases heq with rfl | heq
    · exact hn
    · rwa [← Std.LawfulEqOrd.eq_of_compare heq] at hn

/-- A new identifier is added to a table, and nothing else changes. -/
theorem mem_insert_entry {β : Type} {table : List (String × β)} {name : String}
    (hnew : table.lookup name = none) (value : β) (entry : String × β) :
    entry ∈ Sorted.insert (fun a b => compare a.1 b.1) (name, value) table ↔
      entry = (name, value) ∨ entry ∈ table := by
  refine Sorted.mem_insert_iff (fun other hother heq => ?_) entry
  have hname := Std.LawfulEqOrd.eq_of_compare heq
  exact absurd hname (by simpa using List.lookup_eq_none_iff.mp hnew other hother)

theorem Proper.insert_constant (h : d.Proper) (v : Variable) {sort : String} (hsort : d.Knows sort)
    (hnew : d.constants.lookup (variableName v) = none) :
    d.Extends { d with
      constants := Sorted.insert (fun a b => compare a.1 b.1) (variableName v, sort) d.constants } ∧
      (variableName v, sort) ∈
        Sorted.insert (fun a b => compare a.1 b.1) (variableName v, sort) d.constants := by
  have hmem (c : String × String) := mem_insert_entry hnew sort c
  refine ⟨⟨fun _ => id, fun c hc => (hmem c).mpr (.inr hc), fun _ => id, ?_⟩,
    (hmem _).mpr (.inl rfl)⟩
  exact
    { sorts := h.sorts
      constants := Sorted.ascending_insert _ h.constants
      functions := h.functions
      sort_names := h.sort_names
      constant_names := fun c hc => by
        rcases (hmem c).mp hc with rfl | hc
        · exact ⟨⟨v, rfl⟩, hsort⟩
        · exact h.constant_names c hc
      function_names := h.function_names }

theorem Proper.insert_function (h : d.Proper) (f : Symbol) {params : List String} {sort : String}
    (hparams : ∀ s ∈ params, d.Knows s) (hsort : d.Knows sort)
    (hnew : d.functions.lookup (functionName f) = none) :
    d.Extends { d with
      functions :=
        Sorted.insert (fun a b => compare a.1 b.1) (functionName f, params, sort) d.functions } ∧
      (functionName f, params, sort) ∈
        Sorted.insert (fun a b => compare a.1 b.1) (functionName f, params, sort) d.functions := by
  have hmem (g : String × List String × String) := mem_insert_entry hnew (params, sort) g
  refine ⟨⟨fun _ => id, fun _ => id, fun g hg => (hmem g).mpr (.inr hg), ?_⟩,
    (hmem _).mpr (.inl rfl)⟩
  exact
    { sorts := h.sorts
      constants := h.constants
      functions := Sorted.ascending_insert _ h.functions
      sort_names := h.sort_names
      constant_names := h.constant_names
      function_names := fun g hg => by
        rcases (hmem g).mp hg with rfl | hg
        · exact ⟨⟨f, rfl⟩, hparams, hsort⟩
        · exact h.function_names g hg }

end Declarations

/-! ## Runs of writers -/

namespace Writer

variable {α β : Type} {d d' : Declarations}

theorem run_bind (w : Writer α) (f : α → Writer β) (d : Declarations) :
    ExceptT.run (w >>= f) d =
      match ExceptT.run w d with
      | (.ok a, d₁) => ExceptT.run (f a) d₁
      | (.error e, d₁) => (.error e, d₁) := by
  rw [ExceptT.run_bind]
  simp only [bind, StateT.bind]
  cases ExceptT.run w d with
  | mk answer d₁ => cases answer <;> rfl

/-- With `d` declared before, the writer gives `a`, and `d'` is declared afterwards. -/
def Gives (w : Writer α) (d : Declarations) (a : α) (d' : Declarations) : Prop :=
  ExceptT.run w d = (.ok a, d')

theorem gives_pure {a b : α} (h : Gives (pure a) d b d') : b = a ∧ d' = d := by
  cases h
  exact ⟨rfl, rfl⟩

theorem gives_bind {w : Writer α} {f : α → Writer β} {b : β} (h : Gives (w >>= f) d b d') :
    ∃ a d₁, w.Gives d a d₁ ∧ (f a).Gives d₁ b d' := by
  rw [Gives, run_bind] at h
  split at h
  · rename_i a d₁ hrun
    exact ⟨a, d₁, hrun, h⟩
  · cases h

/-- Writing one part after another keeps what is known of the earlier ones. -/
theorem gives_mapM {f : α → Writer β} {P : Declarations → α → β → Prop} {xs : List α}
    (hmono : ∀ {d d' x y}, d.Extends d' → P d x y → P d' x y)
    (hf : ∀ x ∈ xs, ∀ {d d' y}, d.Proper → (f x).Gives d y d' → d.Extends d' ∧ P d' x y)
    {ys : List β} (hd : d.Proper) (h : Gives (xs.mapM f) d ys d') :
    d.Extends d' ∧ List.Forall₂ (P d') xs ys := by
  induction xs generalizing d ys with
  | nil =>
    rw [List.mapM_nil] at h
    obtain ⟨rfl, rfl⟩ := gives_pure h
    exact ⟨hd.extends_self, .nil⟩
  | cons x xs ih =>
    rw [List.forall_mem_cons] at hf
    rw [List.mapM_cons] at h
    obtain ⟨y, d₁, hy, h⟩ := gives_bind h
    obtain ⟨ys', d₂, hys, h⟩ := gives_bind h
    obtain ⟨rfl, rfl⟩ := gives_pure h
    obtain ⟨hd₁, hPy⟩ := hf.1 hd hy
    obtain ⟨hd₂, hPys⟩ := ih hf.2 hd₁.proper hys
    exact ⟨hd₁.trans hd₂, .cons (hmono hd₂ hPy) hPys⟩

/-- The writer refuses only what cannot be written. -/
def Honest (w : Writer α) : Prop :=
  ∀ d d' e, ExceptT.run w d = (.error e, d') → ∃ what, e = .untranslatable what

theorem honest_pure (a : α) : Honest (pure a) := nofun

theorem honest_get : Honest get := nofun

theorem honest_modify (f : Declarations → Declarations) : Honest (modify f) := nofun

theorem honest_untranslatable (what : String) :
    Honest (throw (.untranslatable what) : Writer α) := by
  intro d d' e h
  cases h
  exact ⟨what, rfl⟩

theorem honest_bind {w : Writer α} {f : α → Writer β} (hw : w.Honest) (hf : ∀ a, (f a).Honest) :
    Honest (w >>= f) := by
  intro d d' e h
  rw [run_bind] at h
  split at h
  · exact hf _ _ _ _ h
  · rename_i hrun
    cases h
    exact hw _ _ _ hrun

theorem honest_mapM {f : α → Writer β} {xs : List α} (hf : ∀ x ∈ xs, (f x).Honest) :
    Honest (xs.mapM f) := by
  induction xs with
  | nil => exact honest_pure []
  | cons x xs ih =>
    rw [List.forall_mem_cons] at hf
    rw [List.mapM_cons]
    exact honest_bind hf.1 fun _ => honest_bind (ih hf.2) fun _ => honest_pure _

end Writer

/-! ## Sorts and declared identifiers -/

section

variable {d d' : Declarations}

open Writer

theorem gives_writeSort {s : SortName} {sort : String} (hd : d.Proper)
    (h : (writeSort s).Gives d sort d') :
    d.Extends d' ∧ sort = sortIdentifier s ∧ d'.Knows sort := by
  unfold writeSort at h
  unfold sortIdentifier
  split at h
  · rename_i hint
    obtain ⟨rfl, rfl⟩ := gives_pure h
    exact ⟨hd.extends_self, by rw [if_pos hint], .inl rfl⟩
  rename_i hint
  split at h
  · rename_i hbool
    obtain ⟨rfl, rfl⟩ := gives_pure h
    exact ⟨hd.extends_self, by rw [if_neg hint, if_pos hbool], .inr (.inl rfl)⟩
  rename_i hbool
  split at h
  · cases h
  cases h
  obtain ⟨hextends, hmem⟩ := hd.insert_sort s
  exact ⟨hextends, by rw [if_neg hint, if_neg hbool], .inr (.inr hmem)⟩

/-- The sorts of terms, one after the other. -/
theorem gives_writeSorts {ts : List Term} {sorts : List String} (hd : d.Proper)
    (h : Gives (ts.mapM fun t => writeSort t.sort) d sorts d') :
    d.Extends d' ∧ sorts = ts.map (fun t => sortIdentifier t.sort) ∧ ∀ s ∈ sorts, d'.Knows s := by
  obtain ⟨hextends, hsorts⟩ := gives_mapM
    (P := fun d (t : Term) sort => sort = sortIdentifier t.sort ∧ d.Knows sort)
    (fun h => And.imp_right (Declarations.Knows.mono h.sorts))
    (fun t _ {_ _ _} hd hsort => gives_writeSort hd hsort) hd h
  refine ⟨hextends, ?_⟩
  clear h
  induction hsorts with
  | nil => exact ⟨rfl, nofun⟩
  | cons hsort _ ih => exact ⟨by rw [hsort.1, ih.1]; rfl, List.forall_mem_cons.mpr ⟨hsort.2, ih.2⟩⟩

theorem gives_declareConstant {v : Variable} {sort : String} {u : Unit} (hd : d.Proper)
    (hsort : d.Knows sort) (h : (declareConstant v sort).Gives d u d') :
    d.Extends d' ∧ (variableName v, sort) ∈ d'.constants := by
  obtain ⟨d₀, d₁, hget, h⟩ := gives_bind h
  cases hget
  split at h
  · rename_i declared hdeclared
    split at h
    · rename_i hsame
      obtain ⟨_, rfl⟩ := gives_pure h
      obtain ⟨l₁, l₂, hl, _⟩ := List.lookup_eq_some_iff.mp hdeclared
      exact ⟨hd.extends_self, by rw [hl, eq_of_beq hsame]; simp⟩
    · cases h
  · rename_i hnew
    cases h
    exact hd.insert_constant v hsort hnew

theorem gives_declareFunction {f : Symbol} {params : List String} {sort : String} {u : Unit}
    (hd : d.Proper) (hparams : ∀ s ∈ params, d.Knows s) (hsort : d.Knows sort)
    (h : (declareFunction f params sort).Gives d u d') :
    d.Extends d' ∧ (functionName f, params, sort) ∈ d'.functions := by
  obtain ⟨d₀, d₁, hget, h⟩ := gives_bind h
  cases hget
  split at h
  · rename_i declared hdeclared
    split at h
    · rename_i hsame
      obtain ⟨_, rfl⟩ := gives_pure h
      obtain ⟨l₁, l₂, hl, _⟩ := List.lookup_eq_some_iff.mp hdeclared
      exact ⟨hd.extends_self, by rw [hl, eq_of_beq hsame]; simp⟩
    · cases h
  · rename_i hnew
    cases h
    exact hd.insert_function f hparams hsort hnew

end

/-! ## Terms -/

/-- What a head needs is declared: the variable, unless it is in `bound`, or the symbol with the
    sorts of the arguments and of the result. Strings and lists are not written. -/
def Declared (bound : VarSet) (d : Declarations) : Term → Prop
  | .var v => v ∈ bound ∨ (variableName v, sortIdentifier v.sort) ∈ d.constants
  | .app f args s =>
    (functionName f, args.map (fun t => sortIdentifier t.sort), sortIdentifier s) ∈ d.functions
  | .str _ | .list _ _ => False
  | _ => True

section

variable {bound : VarSet} {d d' : Declarations} {text : String}

open Writer

theorem Declared.mono (h : d.Extends d') (t : Term) (ht : Declared bound d t) :
    Declared bound d' t := by
  cases t with
  | var v => exact ht.imp_right fun hmem => h.constants hmem
  | app f args s => exact h.functions ht
  | _ => exact ht

/-- The text reads as the S-expression of the term, and all that occurs in the term is declared. -/
def WritesTerm (bound : VarSet) (d : Declarations) (t : Term) (text : String) : Prop :=
  Spells text [termSexp t] ∧ t.All (Declared bound d)

theorem WritesTerm.mono (h : d.Extends d') {t : Term} (ht : WritesTerm bound d t text) :
    WritesTerm bound d' t text :=
  ht.imp_right (Term.All.mono (Declared.mono h))

theorem writeTerms_eq (bound : VarSet) (ts : List Term) :
    writeTerms bound ts = ts.mapM (writeTerm bound) := by
  induction ts with
  | nil => rw [List.mapM_nil, writeTerms]
  | cons t ts ih => rw [List.mapM_cons, writeTerms, ih]

/-- What reads one by one reads as a list of texts. -/
theorem forall₂_spells_map {α : Type} {f : α → Sexp} {P : α → Prop} {xs : List α}
    {texts : List String}
    (h : List.Forall₂ (fun x text => Spells text [f x] ∧ P x) xs texts) :
    List.Forall₂ (fun text x => Spells text [x]) texts (xs.map f) ∧ ∀ x ∈ xs, P x := by
  induction h with
  | nil => exact ⟨.nil, nofun⟩
  | cons hx _ ih => exact ⟨.cons hx.1 ih.1, List.forall_mem_cons.mpr ⟨hx.2, ih.2⟩⟩

theorem gives_writeTerms {ts : List Term} {texts : List String}
    (ih : ∀ t ∈ ts, ∀ {d d' text}, d.Proper → (writeTerm bound t).Gives d text d' →
      d.Extends d' ∧ WritesTerm bound d' t text)
    (hd : d.Proper) (h : (writeTerms bound ts).Gives d texts d') :
    d.Extends d' ∧ List.Forall₂ (fun text x => Spells text [x]) texts (termSexps ts) ∧
      ∀ t ∈ ts, t.All (Declared bound d') := by
  rw [writeTerms_eq] at h
  obtain ⟨hextends, hwrites⟩ :=
    gives_mapM (P := WritesTerm bound) (fun h => WritesTerm.mono h) ih hd h
  rw [termSexps_eq]
  exact ⟨hextends, forall₂_spells_map hwrites⟩

theorem gives_writeTerm {t : Term} (hd : d.Proper) (h : (writeTerm bound t).Gives d text d') :
    d.Extends d' ∧ WritesTerm bound d' t text := by
  induction t using Term.ind generalizing d d' text with
  | var v =>
    rw [writeTerm] at h
    split at h
    · rename_i hbound
      obtain ⟨rfl, rfl⟩ := gives_pure h
      exact ⟨hd.extends_self, (isWord_variableName v).spells, .inl (by simpa using hbound)⟩
    · obtain ⟨sort, d₁, hsort, h⟩ := gives_bind h
      obtain ⟨u, d₂, hconstant, h⟩ := gives_bind h
      obtain ⟨rfl, rfl⟩ := gives_pure h
      obtain ⟨hd₁, rfl, hknows⟩ := gives_writeSort hd hsort
      obtain ⟨hd₂, hmem⟩ := gives_declareConstant hd₁.proper hknows hconstant
      exact ⟨hd₁.trans hd₂, (isWord_variableName v).spells, .inr hmem⟩
  | bool b =>
    cases b <;> rw [writeTerm] at h <;> obtain ⟨rfl, rfl⟩ := gives_pure h
    · exact ⟨hd.extends_self, (IsWord.of_all rfl).spells, trivial⟩
    · exact ⟨hd.extends_self, (IsWord.of_all rfl).spells, trivial⟩
  | int n =>
    rw [writeTerm] at h
    obtain ⟨rfl, rfl⟩ := gives_pure h
    exact ⟨hd.extends_self, spells_integer n, trivial⟩
  | str s =>
    rw [writeTerm] at h
    cases h
  | app f args s ih =>
    rw [writeTerm] at h
    obtain ⟨params, d₁, hparams, h₁⟩ := gives_bind h
    obtain ⟨sort, d₂, hsort, h₂⟩ := gives_bind h₁
    obtain ⟨_, d₃, hfunction, h₃⟩ := gives_bind h₂
    obtain ⟨hd₁, hparamsEq, hparams⟩ := gives_writeSorts hd hparams
    obtain ⟨hd₂, hsortEq, hsort⟩ := gives_writeSort hd₁.proper hsort
    obtain ⟨hd₃, hfunction⟩ := gives_declareFunction hd₂.proper
      (fun q hq => (hparams q hq).mono hd₂.sorts) hsort hfunction
    rw [hparamsEq, hsortEq] at hfunction
    have hextends := hd₁.trans (hd₂.trans hd₃)
    split at h₃
    · rename_i hempty
      obtain ⟨rfl, rfl⟩ := gives_pure h₃
      obtain rfl := List.isEmpty_iff.mp hempty
      exact ⟨hextends, (isWord_functionName f).spells,
        (Term.all_app_iff f [] s).mpr ⟨hfunction, nofun⟩⟩
    · rename_i hempty
      obtain ⟨texts, d₄, htexts, h₄⟩ := gives_bind h₃
      obtain ⟨rfl, rfl⟩ := gives_pure h₄
      obtain ⟨hd₄, hspells, hargs⟩ := gives_writeTerms ih hd₃.proper htexts
      refine ⟨hextends.trans hd₄, ?_,
        (Term.all_app_iff f args s).mpr ⟨hd₄.functions hfunction, hargs⟩⟩
      rw [termSexp, if_neg hempty]
      exact spells_applied (isWord_functionName f) hspells
  | builtin op args ih =>
    rw [writeTerm] at h
    obtain ⟨texts, d₁, htexts, h⟩ := gives_bind h
    obtain ⟨rfl, rfl⟩ := gives_pure h
    obtain ⟨hextends, hspells, hargs⟩ := gives_writeTerms ih hd htexts
    exact ⟨hextends, spells_applied (isWord_operator op) hspells,
      (Term.all_builtin_iff op args).mpr ⟨trivial, hargs⟩⟩
  | closed xs _ =>
    rw [writeTerm] at h
    cases h
  | framed xs frame _ _ =>
    rw [writeTerm] at h
    cases h
  | ite c t e ihc iht ihe =>
    rw [writeTerm] at h
    obtain ⟨c', d₁, hc, h⟩ := gives_bind h
    obtain ⟨t', d₂, ht, h⟩ := gives_bind h
    obtain ⟨e', d₃, he, h⟩ := gives_bind h
    obtain ⟨rfl, rfl⟩ := gives_pure h
    obtain ⟨hd₁, hc⟩ := ihc hd hc
    obtain ⟨hd₂, ht⟩ := iht hd₁.proper ht
    obtain ⟨hd₃, he⟩ := ihe hd₂.proper he
    have hc := hc.mono (hd₂.trans hd₃)
    have ht := ht.mono hd₃
    refine ⟨hd₁.trans (hd₂.trans hd₃), ?_, ?_⟩
    · rw [termSexp]
      exact spells_applied (.of_all rfl) (.cons hc.1 (.cons ht.1 (.cons he.1 .nil)))
    · exact (Term.all_ite_iff c t e).mpr ⟨trivial, hc.2, ht.2, he.2⟩

/-! ## Formulas -/

/-- The text reads as the S-expression of the formula, and all that occurs in it is declared. -/
def WritesFormula (bound : VarSet) (d : Declarations) (φ : Formula) (text : String) : Prop :=
  Spells text [formulaSexp φ] ∧ φ.Each (Declared bound d)

def WritesEquality (bound : VarSet) (d : Declarations) (e : Equality) (text : String) : Prop :=
  Spells text [equalitySexp e] ∧ e.All (Declared bound d)

/-- The same for a disjunction. -/
def WritesDisjunction (bound : VarSet) (d : Declarations) (alternatives : Disjunction)
    (text : String) : Prop :=
  Spells text [joinedSexp "or" "false" (alternatives.map formulaSexp)] ∧
    ∀ φ ∈ alternatives, Formula.Each (Declared bound d) φ

theorem all_mono (h : d.Extends d') {e : Equality} (he : e.All (Declared bound d)) :
    e.All (Declared bound d') :=
  he.imp (Term.All.mono (Declared.mono h)) (Term.All.mono (Declared.mono h))

theorem each_mono (h : d.Extends d') {φ : Formula} (hφ : φ.Each (Declared bound d)) :
    φ.Each (Declared bound d') :=
  Formula.Everywhere.mono (fun _ hs entry hentry => (hs entry hentry).imp (Declared.mono h _)
    (Term.All.mono (Declared.mono h))) (fun _ => all_mono h) hφ

theorem gives_writeEquality {e : Equality} (hd : d.Proper)
    (h : (writeEquality bound e).Gives d text d') :
    d.Extends d' ∧ WritesEquality bound d' e text := by
  obtain ⟨l, d₁, hl, h⟩ := gives_bind h
  obtain ⟨r, d₂, hr, h⟩ := gives_bind h
  obtain ⟨rfl, rfl⟩ := gives_pure h
  obtain ⟨hd₁, hl⟩ := gives_writeTerm hd hl
  obtain ⟨hd₂, hr⟩ := gives_writeTerm hd₁.proper hr
  have hl := hl.mono hd₂
  exact ⟨hd₁.trans hd₂, spells_applied (.of_all rfl) (.cons hl.1 (.cons hr.1 .nil)),
    hl.2, hr.2⟩

theorem writeAlternatives_eq (bound : VarSet) (φs : List Formula) :
    writeAlternatives bound φs = φs.mapM (writeFormula bound) := by
  induction φs with
  | nil => rw [List.mapM_nil, writeAlternatives]
  | cons φ φs ih => rw [List.mapM_cons, writeAlternatives, ih]

/-- Write the alternatives of a disjunction. -/
def writeDisjunction (bound : VarSet) (d : Disjunction) : Writer String := do
  return joined "or" "false" (← d.mapM (writeFormula bound))

theorem writeDisjunctions_eq (bound : VarSet) (ds : List Disjunction) :
    writeDisjunctions bound ds = ds.mapM (writeDisjunction bound) := by
  induction ds with
  | nil => rw [List.mapM_nil, writeDisjunctions]
  | cons d ds ih =>
    rw [List.mapM_cons, writeDisjunctions, ih, writeAlternatives_eq, writeDisjunction]
    simp only [bind_assoc, pure_bind]

theorem alternativeSexps_eq (φs : List Formula) : alternativeSexps φs = φs.map formulaSexp := by
  induction φs with
  | nil => rfl
  | cons φ φs ih => rw [alternativeSexps, ih, List.map_cons]

theorem disjunctionSexps_eq (ds : List Disjunction) :
    disjunctionSexps ds = ds.map fun d => joinedSexp "or" "false" (d.map formulaSexp) := by
  induction ds with
  | nil => rfl
  | cons d ds ih => rw [disjunctionSexps, ih, List.map_cons, alternativeSexps_eq]

theorem gives_writeDisjunction {alternatives : Disjunction}
    (ih : ∀ φ ∈ alternatives, ∀ {d d' text}, d.Proper → (writeFormula bound φ).Gives d text d' →
      d.Extends d' ∧ WritesFormula bound d' φ text)
    (hd : d.Proper) (h : (writeDisjunction bound alternatives).Gives d text d') :
    d.Extends d' ∧ WritesDisjunction bound d' alternatives text := by
  obtain ⟨texts, d₁, htexts, h⟩ := gives_bind h
  obtain ⟨rfl, rfl⟩ := gives_pure h
  obtain ⟨hextends, hwrites⟩ := gives_mapM (P := WritesFormula bound)
    (fun h => And.imp_right (each_mono h)) ih hd htexts
  obtain ⟨hspells, heach⟩ := forall₂_spells_map hwrites
  exact ⟨hextends, spells_joined (.of_all rfl) (.of_all rfl) hspells, heach⟩

theorem gives_writeFormula {φ : Formula} (hd : d.Proper)
    (h : (writeFormula bound φ).Gives d text d') :
    d.Extends d' ∧ WritesFormula bound d' φ text := by
  induction φ using Formula.ind generalizing d d' text with
  | falsified w =>
    rw [writeFormula] at h
    obtain ⟨rfl, rfl⟩ := gives_pure h
    exact ⟨hd.extends_self, (IsWord.of_all rfl).spells, trivial⟩
  | all s es ds ih =>
    rw [writeFormula, writeDisjunctions_eq] at h
    obtain ⟨equalities, d₁, hequalities, h⟩ := gives_bind h
    obtain ⟨disjunctions, d₂, hdisjunctions, h⟩ := gives_bind h
    obtain ⟨rfl, rfl⟩ := gives_pure h
    obtain ⟨hd₁, hequalities⟩ := gives_mapM (P := WritesEquality bound)
      (fun h => And.imp_right (all_mono h)) (fun _ _ {_ _ _} => gives_writeEquality) hd hequalities
    obtain ⟨hd₂, hdisjunctions⟩ := gives_mapM (P := WritesDisjunction bound)
      (fun h hd => hd.imp_right fun halternatives φ hφ => each_mono h (halternatives φ hφ))
      (fun d hd {_ _ _} => gives_writeDisjunction (ih d hd)) hd₁.proper hdisjunctions
    obtain ⟨hspells, hall⟩ := forall₂_spells_map hequalities
    obtain ⟨hspells', heach⟩ := forall₂_spells_map hdisjunctions
    refine ⟨hd₁.trans hd₂, ?_, ?_⟩
    · rw [formulaSexp, disjunctionSexps_eq]
      exact spells_joined (.of_all rfl) (.of_all rfl)
        (List.rel_append hspells hspells')
    · refine (Formula.everywhere_all_iff s es ds).mpr
        ⟨fun entry hentry => ?_, fun e he => ?_, heach⟩
      · exact all_mono hd₂ (hall ⟨.var entry.1, entry.2⟩
          (List.mem_append_left es (List.mem_map.mpr ⟨entry, hentry, rfl⟩)))
      · exact all_mono hd₂ (hall e (List.mem_append_right _ he))

/-! ## What cannot be written -/

theorem honest_writeSort (s : SortName) : (writeSort s).Honest := by
  unfold writeSort
  split
  · exact honest_pure _
  split
  · exact honest_pure _
  split
  · exact honest_untranslatable _
  · exact honest_bind (honest_modify _) fun _ => honest_pure _

theorem honest_declareConstant (v : Variable) (sort : String) :
    (declareConstant v sort).Honest := by
  refine honest_bind honest_get fun d => ?_
  split
  · split
    · exact honest_pure ()
    · exact honest_untranslatable _
  · exact honest_modify _

theorem honest_declareFunction (f : Symbol) (params : List String) (sort : String) :
    (declareFunction f params sort).Honest := by
  refine honest_bind honest_get fun d => ?_
  split
  · split
    · exact honest_pure ()
    · exact honest_untranslatable _
  · exact honest_modify _

theorem honest_writeTerm (bound : VarSet) (t : Term) : (writeTerm bound t).Honest := by
  induction t using Term.ind with
  | var v =>
    rw [writeTerm]
    split
    · exact honest_pure _
    · exact honest_bind (honest_writeSort _) fun _ =>
        honest_bind (honest_declareConstant v _) fun _ => honest_pure _
  | bool b => cases b <;> rw [writeTerm] <;> exact honest_pure _
  | int n => rw [writeTerm]; exact honest_pure _
  | str s => rw [writeTerm]; exact honest_untranslatable _
  | app f args s ih =>
    rw [writeTerm, writeTerms_eq]
    refine honest_bind (honest_mapM fun t _ => honest_writeSort t.sort) fun params =>
      honest_bind (honest_writeSort s) fun sort =>
        honest_bind (honest_declareFunction f params sort) fun _ => ?_
    split
    · exact honest_pure _
    · exact honest_bind (honest_mapM ih) fun _ => honest_pure _
  | builtin op args ih =>
    rw [writeTerm, writeTerms_eq]
    exact honest_bind (honest_mapM ih) fun _ => honest_pure _
  | closed xs _ => rw [writeTerm]; exact honest_untranslatable _
  | framed xs frame _ _ => rw [writeTerm]; exact honest_untranslatable _
  | ite c t e ihc iht ihe =>
    rw [writeTerm]
    exact honest_bind ihc fun _ => honest_bind iht fun _ => honest_bind ihe fun _ => honest_pure _

theorem honest_writeFormula (bound : VarSet) (φ : Formula) : (writeFormula bound φ).Honest := by
  induction φ using Formula.ind with
  | falsified w => rw [writeFormula]; exact honest_pure _
  | all s es ds ih =>
    rw [writeFormula, writeDisjunctions_eq]
    have equality (e : Equality) : (writeEquality bound e).Honest :=
      honest_bind (honest_writeTerm bound e.lhs) fun _ =>
        honest_bind (honest_writeTerm bound e.rhs) fun _ => honest_pure _
    have disjunction (d : Disjunction) (hd : d ∈ ds) : (writeDisjunction bound d).Honest :=
      honest_bind (honest_mapM (ih d hd)) fun _ => honest_pure _
    exact honest_bind (honest_mapM fun e _ => equality e) fun _ =>
      honest_bind (honest_mapM disjunction) fun _ => honest_pure _

theorem honest_writeBinder (v : Variable) : (writeBinder v).Honest :=
  honest_bind (honest_writeSort v.sort) fun _ => honest_pure _

end

/-! ## Queries -/

theorem query_ok {w : Writer String} {query : String} (h : w.query = .ok query) :
    ∃ body d, w.Gives .empty body d ∧ query = d.text ++ body := by
  unfold Writer.query at h
  split at h
  · rename_i body d hrun
    exact ⟨body, d, hrun, (Except.ok.inj h).symm⟩
  · cases h

theorem query_error {w : Writer String} (hw : w.Honest) {e : SmtError} (h : w.query = .error e) :
    ∃ what, e = .untranslatable what := by
  unfold Writer.query at h
  split at h
  · cases h
  · rename_i hrun
    cases h
    exact hw _ _ _ hrun

theorem constraintQuery_error {φ : Formula} {e : SmtError} (h : constraintQuery φ = .error e) :
    ∃ what, e = .untranslatable what :=
  query_error (Writer.honest_bind (honest_writeFormula [] φ) fun _ => Writer.honest_pure _) h

theorem implicationQuery_error {left right : Formula} {existentials : VarSet} {e : SmtError}
    (h : implicationQuery left right existentials = .error e) :
    ∃ what, e = .untranslatable what := by
  refine query_error ?_ h
  refine Writer.honest_bind (honest_writeFormula [] left) fun premise =>
    Writer.honest_bind (honest_writeFormula _ right) fun conclusion => ?_
  dsimp only
  split
  · exact Writer.honest_bind (Writer.honest_pure _) fun _ => Writer.honest_pure _
  · exact Writer.honest_bind (Writer.honest_mapM fun v _ => honest_writeBinder v) fun _ =>
      Writer.honest_bind (Writer.honest_pure _) fun _ => Writer.honest_pure _

end Entail.Smt
