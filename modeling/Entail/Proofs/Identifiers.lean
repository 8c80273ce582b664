import Entail.Proofs.Writing
import Mathlib.Data.List.Chain

set_option autoImplicit false

/-! # Names that are written alike

Identifiers of different kinds of names are never the same. A character that cannot stand in an
identifier is written as its code in hexadecimal digits, as many as it has, and nothing marks the
end. So digits that follow such a character read on as part of its code, and the name is written
like one with the character of the longer code. Names are told apart if no digits follow, or if all
the codes have two digits. -/

namespace Entail.Smt

/-! ## Codes -/

theorem digitChar_inj : ∀ d < 16, ∀ e < 16, Nat.digitChar d = Nat.digitChar e → d = e := by
  decide

theorem length_toDigits_le_one_iff (n : Nat) : (Nat.toDigits 16 n).length ≤ 1 ↔ n < 16 := by
  have hiff := Nat.length_toDigits_le_iff (b := 16) (n := n) (by decide) Nat.one_pos
  rwa [Nat.pow_one] at hiff

theorem toDigits_of_le {n : Nat} (hn : ¬n < 16) :
    Nat.toDigits 16 n = Nat.toDigits 16 (n / 16) ++ [Nat.digitChar (n % 16)] := by
  rw [Nat.toDigits_eq_if (by decide), if_neg hn]

theorem toDigits_injective : Function.Injective (Nat.toDigits 16) := by
  intro a b h
  induction a using Nat.strongRecOn generalizing b with
  | _ a ih =>
    have hsmall : a < 16 ↔ b < 16 := by
      rw [← length_toDigits_le_one_iff a, h, length_toDigits_le_one_iff]
    by_cases ha : a < 16
    · rw [Nat.toDigits_of_lt_base ha, Nat.toDigits_of_lt_base (hsmall.mp ha)] at h
      exact digitChar_inj a ha b (hsmall.mp ha) (List.singleton_inj.mp h)
    · rw [toDigits_of_le ha, toDigits_of_le (mt hsmall.mpr ha)] at h
      obtain ⟨hinit, hlast⟩ := List.append_inj' h rfl
      have hquotient : a / 16 = b / 16 := ih (a / 16) (by omega) hinit
      have hremainder : a % 16 = b % 16 :=
        digitChar_inj _ (Nat.mod_lt a (by decide)) _ (Nat.mod_lt b (by decide))
          (List.singleton_inj.mp hlast)
      omega

/-- Characters have different codes. -/
theorem eq_of_toDigits {c d : Char} (h : Nat.toDigits 16 c.toNat = Nat.toDigits 16 d.toNat) :
    c = d := by
  have hcode := toDigits_injective h
  rw [← Char.ofNat_toNat c, hcode, Char.ofNat_toNat]

theorem isPlain_of_mem_toDigits {d : Char} {n : Nat} (h : d ∈ Nat.toDigits 16 n) :
    isPlain d = true := by
  rw [isPlain, isAlphanum_of_mem_toDigits h, Bool.true_or]

theorem mangleChar_of_plain {c : Char} (h : isPlain c = true) : mangleChar c = [c] := by
  rw [mangleChar, if_pos h]

theorem mangleChar_of_escaped {c : Char} (h : isPlain c = false) :
    mangleChar c = '$' :: Nat.toDigits 16 c.toNat := by
  rw [mangleChar, h, if_neg Bool.false_ne_true]

theorem flatMap_of_plain {cs : List Char} (h : ∀ c ∈ cs, isPlain c = true) :
    cs.flatMap mangleChar = cs := by
  induction cs with
  | nil => rfl
  | cons c cs ih =>
    rw [List.forall_mem_cons] at h
    rw [List.flatMap_cons, mangleChar_of_plain h.1, ih h.2, List.singleton_append]

/-- Plain characters at the start of what is written are at the start of the name. -/
theorem exists_of_flatMap_append {cs name rest : List Char} (hcs : ∀ c ∈ cs, isPlain c = true)
    (h : name.flatMap mangleChar = cs ++ rest) :
    ∃ name', name = cs ++ name' ∧ name'.flatMap mangleChar = rest := by
  induction cs generalizing name with
  | nil => exact ⟨name, rfl, h⟩
  | cons c cs ih =>
    rw [List.forall_mem_cons] at hcs
    cases name with
    | nil => exact absurd h nofun
    | cons d name =>
      rw [List.flatMap_cons, List.cons_append] at h
      by_cases hd : isPlain d = true
      · rw [mangleChar_of_plain hd, List.singleton_append] at h
        obtain ⟨rfl, htail⟩ := List.cons.inj h
        obtain ⟨name', rfl, hrest⟩ := ih hcs.2 htail
        exact ⟨name', rfl, hrest⟩
      · rw [Bool.not_eq_true] at hd
        rw [mangleChar_of_escaped hd, List.cons_append] at h
        obtain ⟨rfl, _⟩ := List.cons.inj h
        exact absurd hcs.1 (by decide)

/-! ## Names written alike -/

/-- Two names are equal but for places where one has a character that is not plain and digits after
    it, and the other one has the character whose code these digits complete. -/
inductive Alike : List Char → List Char → Prop
  | nil : Alike [] []
  | same {m n : List Char} (c : Char) (h : Alike m n) : Alike (c :: m) (c :: n)
  | left {m n digits : List Char} {c d : Char} (hc : isPlain c = false) (hd : isPlain d = false)
      (hcode : Nat.toDigits 16 c.toNat ++ digits = Nat.toDigits 16 d.toNat) (h : Alike m n) :
      Alike (c :: (digits ++ m)) (d :: n)
  | right {m n digits : List Char} {c d : Char} (hc : isPlain c = false) (hd : isPlain d = false)
      (hcode : Nat.toDigits 16 c.toNat ++ digits = Nat.toDigits 16 d.toNat) (h : Alike m n) :
      Alike (d :: m) (c :: (digits ++ n))

theorem isPlain_of_completed {c d : Char} {digits : List Char}
    (hcode : Nat.toDigits 16 c.toNat ++ digits = Nat.toDigits 16 d.toNat) :
    ∀ x ∈ digits, isPlain x = true := by
  intro x hx
  have hmem : x ∈ Nat.toDigits 16 d.toNat := hcode ▸ List.mem_append_right _ hx
  exact isPlain_of_mem_toDigits hmem

/-- A completed code is written like the digits that complete it. -/
theorem flatMap_completed {c d : Char} {digits m : List Char} (hc : isPlain c = false)
    (hd : isPlain d = false)
    (hcode : Nat.toDigits 16 c.toNat ++ digits = Nat.toDigits 16 d.toNat) :
    (c :: (digits ++ m)).flatMap mangleChar = (d :: m).flatMap mangleChar := by
  rw [List.flatMap_cons, List.flatMap_append, flatMap_of_plain (isPlain_of_completed hcode),
    List.flatMap_cons, mangleChar_of_escaped hc, mangleChar_of_escaped hd, ← hcode,
    List.cons_append, List.cons_append, List.append_assoc]

theorem Alike.flatMap_eq {m n : List Char} (h : Alike m n) :
    m.flatMap mangleChar = n.flatMap mangleChar := by
  induction h with
  | nil => rfl
  | same c _ ih => rw [List.flatMap_cons, List.flatMap_cons, ih]
  | left hc hd hcode _ ih =>
    rw [flatMap_completed hc hd hcode, List.flatMap_cons, List.flatMap_cons, ih]
  | right hc hd hcode _ ih =>
    rw [flatMap_completed hc hd hcode, List.flatMap_cons, List.flatMap_cons, ih]

/-- What is plain is not the sign in front of a code. -/
theorem append_ne_of_plain {c d : Char} (hc : isPlain c = true) (hd : isPlain d = false)
    (cs ds : List Char) : mangleChar c ++ cs ≠ mangleChar d ++ ds := by
  intro h
  rw [mangleChar_of_plain hc, mangleChar_of_escaped hd] at h
  obtain ⟨rfl, _⟩ := List.cons.inj h
  exact absurd hc (by decide)

/-- Of two codes that are continued alike, one is completed by digits. -/
theorem completed_of_append_eq {c d : Char} {m n : List Char}
    (h : Nat.toDigits 16 c.toNat ++ m.flatMap mangleChar =
      Nat.toDigits 16 d.toNat ++ n.flatMap mangleChar) :
    (∃ digits m', m = digits ++ m' ∧ m'.flatMap mangleChar = n.flatMap mangleChar ∧
      Nat.toDigits 16 c.toNat ++ digits = Nat.toDigits 16 d.toNat) ∨
    ∃ digits n', n = digits ++ n' ∧ m.flatMap mangleChar = n'.flatMap mangleChar ∧
      Nat.toDigits 16 d.toNat ++ digits = Nat.toDigits 16 c.toNat := by
  rcases List.append_eq_append_iff.mp h with ⟨digits, hcode, hrest⟩ | ⟨digits, hcode, hrest⟩
  · obtain ⟨m', hm, hm'⟩ := exists_of_flatMap_append (isPlain_of_completed hcode.symm) hrest
    exact Or.inl ⟨digits, m', hm, hm', hcode.symm⟩
  · obtain ⟨n', hn, hn'⟩ := exists_of_flatMap_append (isPlain_of_completed hcode.symm) hrest
    exact Or.inr ⟨digits, n', hn, hn'.symm, hcode.symm⟩

theorem mangleChar_ne_nil (c : Char) : mangleChar c ≠ [] := by
  unfold mangleChar
  split <;> exact List.cons_ne_nil _ _

theorem alike_of_flatMap_eq {m n : List Char} (h : m.flatMap mangleChar = n.flatMap mangleChar) :
    Alike m n := by
  -- the digits that complete a code are skipped, so the induction is on the length
  induction hlength : m.length using Nat.strongRecOn generalizing m n with
  | _ length ih =>
    subst hlength
    match m, n with
    | [], [] => exact .nil
    | [], d :: n => simp [mangleChar_ne_nil] at h
    | c :: m, [] => simp [mangleChar_ne_nil] at h
    | c :: m, d :: n =>
      rw [List.flatMap_cons, List.flatMap_cons] at h
      cases hc : isPlain c <;> cases hd : isPlain d
      · rw [mangleChar_of_escaped hc, mangleChar_of_escaped hd] at h
        rcases completed_of_append_eq (List.cons.inj h).2 with
          ⟨digits, m', rfl, hrest, hcode⟩ | ⟨digits, n', rfl, hrest, hcode⟩
        · exact .left hc hd hcode (ih m'.length (by grind) hrest rfl)
        · exact .right hd hc hcode (ih m.length (by simp) hrest rfl)
      · exact absurd h.symm (append_ne_of_plain hd hc _ _)
      · exact absurd h (append_ne_of_plain hc hd _ _)
      · rw [mangleChar_of_plain hc, mangleChar_of_plain hd] at h
        obtain ⟨rfl, htail⟩ := List.cons.inj h
        exact .same c (ih m.length (by simp) htail rfl)

theorem mangle_eq_iff (kind m n : String) :
    mangle kind m = mangle kind n ↔ Alike m.toList n.toList := by
  rw [mangle, mangle, String.append_right_inj, String.ofList_inj]
  exact ⟨alike_of_flatMap_eq, Alike.flatMap_eq⟩

/-! ## Names told apart -/

/-- The code of every character that is not plain has two digits, as those of the printable ASCII
    characters do. -/
def TwoDigitCodes (name : List Char) : Prop :=
  ∀ c ∈ name, isPlain c = false → 16 ≤ c.toNat ∧ c.toNat < 256

instance (name : List Char) : Decidable (TwoDigitCodes name) :=
  List.decidableBAll (fun c => isPlain c = false → 16 ≤ c.toNat ∧ c.toNat < 256) name

theorem length_toDigits_of_le {n : Nat} (hn : 16 ≤ n) (hn' : n < 256) :
    (Nat.toDigits 16 n).length = 2 := by
  have hle : (Nat.toDigits 16 n).length ≤ 2 :=
    (Nat.length_toDigits_le_iff (by decide) (by decide)).mpr hn'
  have hgt : ¬(Nat.toDigits 16 n).length ≤ 1 := by
    rw [length_toDigits_le_one_iff]
    omega
  omega

def isCodeDigit (c : Char) : Bool := c.isDigit || ('a' ≤ c && c ≤ 'f')

/-- No character that is not plain has a digit of a code after it. -/
def CodesEnd (name : List Char) : Prop :=
  name.IsChain fun c d => isPlain c = false → isCodeDigit d = false

instance (name : List Char) : Decidable (CodesEnd name) :=
  inferInstanceAs (Decidable (name.IsChain _))

theorem isCodeDigit_of_mem_toDigits {c : Char} {n : Nat} (h : c ∈ Nat.toDigits 16 n) :
    isCodeDigit c = true :=
  forall_mem_toDigits (p := fun c => isCodeDigit c = true) (by decide) n c h

/-- Names that are written alike are equal if their parts rule out that digits complete a code. -/
theorem Alike.eq_of_parts {P : List Char → Prop} (hpart : ∀ cs m, P (cs ++ m) → P m)
    (hdigits : ∀ {c d : Char} {digits m n : List Char}, isPlain c = false → isPlain d = false →
      Nat.toDigits 16 c.toNat ++ digits = Nat.toDigits 16 d.toNat →
      P (c :: (digits ++ m)) → P (d :: n) → digits = [])
    {m n : List Char} (h : Alike m n) (hm : P m) (hn : P n) : m = n := by
  induction h with
  | nil => rfl
  | same c _ ih => rw [ih (hpart [c] _ hm) (hpart [c] _ hn)]
  | @left m n digits c d hc hd hcode _ ih =>
    obtain rfl := hdigits hc hd hcode hm hn
    rw [List.append_nil] at hcode
    rw [eq_of_toDigits hcode, List.nil_append, ih (hpart [c] _ hm) (hpart [d] _ hn)]
  | @right m n digits c d hc hd hcode _ ih =>
    obtain rfl := hdigits hc hd hcode hn hm
    rw [List.append_nil] at hcode
    rw [eq_of_toDigits hcode, List.nil_append, ih (hpart [d] _ hm) (hpart [c] _ hn)]

theorem Alike.eq_of_twoDigitCodes {m n : List Char} (h : Alike m n) (hm : TwoDigitCodes m)
    (hn : TwoDigitCodes n) : m = n := by
  refine h.eq_of_parts (P := TwoDigitCodes) ?_ ?_ hm hn
  · intro cs m hall c hc
    exact hall c (List.mem_append_right _ hc)
  · intro c d digits m n hc hd hcode hleft hright
    obtain ⟨hc, hc'⟩ := hleft c (List.mem_cons_self ..) hc
    obtain ⟨hd, hd'⟩ := hright d (List.mem_cons_self ..) hd
    have hlength := congrArg List.length hcode
    rw [List.length_append, length_toDigits_of_le hc hc', length_toDigits_of_le hd hd'] at hlength
    exact List.length_eq_zero_iff.mp (by omega)

theorem Alike.eq_of_codesEnd {m n : List Char} (h : Alike m n) (hm : CodesEnd m)
    (hn : CodesEnd n) : m = n := by
  refine h.eq_of_parts (P := CodesEnd) ?_ ?_ hm hn
  · intro cs m hchain
    exact List.IsChain.right_of_append hchain
  · intro c d digits m n hc _ hcode hchain _
    cases digits with
    | nil => rfl
    | cons x digits =>
      have hx : x ∈ Nat.toDigits 16 d.toNat := by
        rw [← hcode]
        exact List.mem_append_right _ (List.mem_cons_self ..)
      have hnot := (List.isChain_cons_cons.mp hchain).1 hc
      rw [isCodeDigit_of_mem_toDigits hx] at hnot
      exact absurd hnot (by decide)

/-! ## Identifiers -/

/-- What is written in front of the names of variables, functions and sorts. -/
def kinds : List String := ["v_", "f_", "S_"]

theorem kind_eq_of_mangle {kind kind' m n : String} (hkind : kind ∈ kinds) (hkind' : kind' ∈ kinds)
    (h : mangle kind m = mangle kind' n) : kind = kind' := by
  have hlength : ∀ k ∈ kinds, k.toList.length = 2 := by decide
  have hlist := congrArg String.toList h
  rw [mangle, mangle, String.toList_append, String.toList_append] at hlist
  have hhead := (List.append_inj hlist (by rw [hlength kind hkind, hlength kind' hkind'])).1
  exact String.toList_inj.mp hhead

/-- **Identifiers tell the kinds of names apart, and names unless a code is completed.** Two
    identifiers are the same just if the names are of one kind and equal, but for places where
    digits after a character that is not plain complete the code of another one. So names are told
    apart by their identifiers if codes have two digits or no digits after them, and otherwise they
    need not be. -/
theorem identifiers_eq_iff {kind kind' : String} (hkind : kind ∈ kinds) (hkind' : kind' ∈ kinds)
    (m n : String) :
    (mangle kind m = mangle kind' n ↔ kind = kind' ∧ Alike m.toList n.toList) ∧
    (mangle kind m = mangle kind' n →
      TwoDigitCodes m.toList ∧ TwoDigitCodes n.toList ∨ CodesEnd m.toList ∧ CodesEnd n.toList →
      m = n) := by
  have hiff : mangle kind m = mangle kind' n ↔ kind = kind' ∧ Alike m.toList n.toList := by
    constructor
    · intro h
      obtain rfl := kind_eq_of_mangle hkind hkind' h
      exact ⟨rfl, (mangle_eq_iff kind m n).mp h⟩
    · rintro ⟨rfl, h⟩
      exact (mangle_eq_iff kind m n).mpr h
  refine ⟨hiff, fun h hnames => ?_⟩
  obtain ⟨_, halike⟩ := hiff.mp h
  rcases hnames with ⟨hm, hn⟩ | ⟨hm, hn⟩
  · exact String.toList_inj.mp (halike.eq_of_twoDigitCodes hm hn)
  · exact String.toList_inj.mp (halike.eq_of_codesEnd hm hn)

namespace Completed

/-- The digit 1 is after a character with the code 2d. -/
def digit : String := "n-1"

/-- A half triangular colon, with the code 2d1. -/
def colon : String := "n\u02d1"

theorem alike : Alike digit.toList colon.toList := by
  have hcode : Nat.toDigits 16 '-'.toNat ++ ['1'] = Nat.toDigits 16 '\u02d1'.toNat := by decide
  exact .same 'n' (.left (by decide) (by decide) hcode .nil)

/-- ASCII names are told apart from each other, and so are names without digits after codes. -/
theorem identifiers_eq_iff_names :
    mangle "v_" digit ≠ mangle "v_" "n'1" ∧ mangle "v_" "n-x" ≠ mangle "v_" colon ∧
      mangle "v_" digit ≠ mangle "f_" digit ∧ mangle "v_" digit = mangle "v_" colon := by
  have hvariable : "v_" ∈ kinds := by decide
  have hfunction : "f_" ∈ kinds := by decide
  have hdigit : TwoDigitCodes digit.toList := by decide
  have hquote : TwoDigitCodes "n'1".toList := by decide
  have hletter : CodesEnd "n-x".toList := by decide
  have hcolon : CodesEnd colon.toList := by decide
  refine ⟨fun h => ?_, fun h => ?_, fun h => ?_, ?_⟩
  · have heq := (identifiers_eq_iff hvariable hvariable digit "n'1").2 h (Or.inl ⟨hdigit, hquote⟩)
    exact absurd heq (by decide)
  · have heq := (identifiers_eq_iff hvariable hvariable "n-x" colon).2 h
      (Or.inr ⟨hletter, hcolon⟩)
    exact absurd heq (by decide)
  · have hkind := ((identifiers_eq_iff hvariable hfunction digit digit).1.mp h).1
    exact absurd hkind (by decide)
  · exact (identifiers_eq_iff hvariable hvariable digit colon).1.mpr ⟨rfl, alike⟩

/-- Two variables, stated to be equal. -/
def goal : Formula := .ofEqualities [⟨.var ⟨digit, .int⟩, .var ⟨colon, .int⟩⟩]

def query : String :=
  "(declare-fun v_n$2d1 () Int)\n(assert true)\n(assert (not (= v_n$2d1 v_n$2d1)))\n(check-sat)\n"

/-- Different names have one identifier as variables, functions and sorts. The query whether two
    variables are always equal asks for one of them whether it is equal to itself. -/
theorem identifiers_shared :
    digit ≠ colon ∧ (∀ kind ∈ kinds, mangle kind digit = mangle kind colon) ∧
      implicationQuery .top goal [] = .ok query := by
  refine ⟨by decide, fun kind _ => (mangle_eq_iff kind digit colon).mpr alike, by rfl⟩

end Completed

end Entail.Smt
