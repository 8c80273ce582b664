import Entail.Smt.Query
import Mathlib.Data.List.Forall2

set_option autoImplicit false

/-! # Reading S-expressions

Queries are text. What a text says is told by reading it: words and parentheses first, then lists
with whatever nests in them. Characters that are part of neither are not read. A text is put
together from parts, each of which reads as some S-expressions wherever something follows that ends
a word. -/

namespace Entail.Smt

/-! ## Words and parentheses -/

/-- What a text is made of. -/
inductive Token where
  | opening
  | closing
  | word (chars : List Char)
  /-- something that is not read -/
  | other (c : Char)

/-- Letters, digits and the signs of which identifiers, numerals and operators are made. -/
def isWordChar (c : Char) : Bool :=
  c.isAlphanum || ['~', '!', '@', '$', '%', '^', '&', '*', '_', '-', '+', '=', '<', '>', '.', '?',
    '/'].contains c

def isSpace (c : Char) : Bool := c == ' ' || c == '\t' || c == '\n' || c == '\r'

/-- The tokens for a character that ends a word. -/
def delimiter (c : Char) : List Token :=
  if c == '(' then [.opening]
  else if c == ')' then [.closing]
  else if isSpace c then []
  else [.other c]

/-- The tokens for a word, if there is one. -/
def ended (word : List Char) : List Token := if word.isEmpty then [] else [.word word]

/-- The tokens of a text after the beginning of a word. -/
def lex (word : List Char) : List Char → List Token
  | [] => ended word
  | c :: cs =>
    if isWordChar c then lex (word ++ [c]) cs else ended word ++ (delimiter c ++ lex [] cs)

/-- No word goes on. -/
def Delimited (cs : List Char) : Prop := ∀ c ∈ cs.head?, isWordChar c = false

theorem delimited_append {cs ds : List Char} (hcs : Delimited cs) (hds : Delimited ds) :
    Delimited (cs ++ ds) := by
  cases cs with
  | nil => exact hds
  | cons c cs => exact hcs

theorem lex_append_word {word cs : List Char} (hcs : ∀ c ∈ cs, isWordChar c = true)
    (rest : List Char) : lex word (cs ++ rest) = lex (word ++ cs) rest := by
  induction cs generalizing word with
  | nil => rw [List.append_nil, List.nil_append]
  | cons c cs ih =>
    rw [List.forall_mem_cons] at hcs
    rw [List.cons_append, lex, if_pos hcs.1, ih hcs.2, List.append_assoc]
    rfl

theorem lex_delimited (word : List Char) {rest : List Char} (hrest : Delimited rest) :
    lex word rest = ended word ++ lex [] rest := by
  cases rest with
  | nil => exact (List.append_nil _).symm
  | cons c rest =>
    have hc : isWordChar c ≠ true := Bool.eq_false_iff.mp (hrest c rfl)
    rw [lex, if_neg hc, lex, if_neg hc]
    rfl

theorem lex_delimiter {c : Char} (hc : isWordChar c = false) (cs : List Char) :
    lex [] (c :: cs) = delimiter c ++ lex [] cs := by
  rw [lex, if_neg (Bool.eq_false_iff.mp hc)]
  rfl

/-! ## Lists -/

/-- Words and lists of S-expressions. -/
inductive Sexp where
  | atom (word : String)
  | list (members : List Sexp)

namespace Sexp

/-- Induction with a hypothesis for each member of a list. -/
@[elab_as_elim]
theorem ind {P : Sexp → Prop} (atom : ∀ w, P (.atom w))
    (list : ∀ xs, (∀ x ∈ xs, P x) → P (.list xs)) (x : Sexp) : P x := by
  refine Sexp.rec (motive_1 := P) (motive_2 := fun xs => ∀ x ∈ xs, P x) atom list nofun ?_ x
  exact fun x xs hx hxs => List.forall_mem_cons.mpr ⟨hx, hxs⟩

mutual

def tokens : Sexp → List Token
  | .atom w => [.word w.toList]
  | .list xs => .opening :: (tokensOf xs ++ [.closing])
termination_by structural x => x

def tokensOf : List Sexp → List Token
  | [] => []
  | x :: xs => x.tokens ++ tokensOf xs
termination_by structural xs => xs

end

theorem tokensOf_eq (xs : List Sexp) : tokensOf xs = xs.flatMap tokens := by
  induction xs with
  | nil => rfl
  | cons x xs ih => rw [tokensOf, ih, List.flatMap_cons]

end Sexp

/-- Read tokens: `members` were read before in the list that is open, the last one first, and
    `around` in the lists around it. -/
def build : List Token → (members : List Sexp) → (around : List (List Sexp)) → Option (List Sexp)
  | [], members, [] => some members.reverse
  | [], _, _ :: _ => none
  | .opening :: ts, members, around => build ts [] (members :: around)
  | .closing :: ts, members, outer :: around => build ts (.list members.reverse :: outer) around
  | .closing :: _, _, [] => none
  | .word w :: ts, members, around => build ts (.atom (String.ofList w) :: members) around
  | .other _ :: _, _, _ => none

/-- Read a text as S-expressions. -/
def read (text : String) : Option (List Sexp) := build (lex [] text.toList) [] []

theorem build_tokensOf {xs : List Sexp}
    (ih : ∀ x ∈ xs, ∀ ts members around,
      build (x.tokens ++ ts) members around = build ts (x :: members) around)
    (ts : List Token) (members : List Sexp) (around : List (List Sexp)) :
    build (Sexp.tokensOf xs ++ ts) members around = build ts (xs.reverse ++ members) around := by
  induction xs generalizing members with
  | nil => rfl
  | cons x xs ihxs =>
    rw [List.forall_mem_cons] at ih
    rw [Sexp.tokensOf, List.append_assoc, ih.1, ihxs ih.2, List.reverse_cons, List.append_assoc]
    rfl

theorem build_tokens (x : Sexp) (ts : List Token) (members : List Sexp)
    (around : List (List Sexp)) :
    build (x.tokens ++ ts) members around = build ts (x :: members) around := by
  induction x using Sexp.ind generalizing ts members around with
  | atom w => simp [Sexp.tokens, build]
  | list xs ih =>
    rw [Sexp.tokens, List.cons_append, build, List.append_assoc, build_tokensOf ih]
    simp [build]

/-! ## Putting a text together -/

/-- Wherever no word goes on behind it, the text reads as these S-expressions. -/
def Spells (text : String) (xs : List Sexp) : Prop :=
  ∀ rest, Delimited rest → lex [] (text.toList ++ rest) = Sexp.tokensOf xs ++ lex [] rest

theorem Spells.read_eq {text : String} {xs : List Sexp} (h : Spells text xs) :
    read text = some xs := by
  have htokens : lex [] text.toList = Sexp.tokensOf xs := by
    simpa [lex, ended] using h [] nofun
  rw [read, htokens, ← List.append_nil (Sexp.tokensOf xs),
    build_tokensOf fun x _ => build_tokens x]
  simp [build]

theorem Spells.append {text text' : String} {xs ys : List Sexp} (h : Spells text xs)
    (h' : Spells text' ys) (hdelimited : Delimited text'.toList) :
    Spells (text ++ text') (xs ++ ys) := by
  intro rest hrest
  rw [String.toList_append, List.append_assoc, h _ (delimited_append hdelimited hrest),
    h' rest hrest, Sexp.tokensOf_eq, Sexp.tokensOf_eq, Sexp.tokensOf_eq, List.flatMap_append,
    List.append_assoc]

/-- A word is made of word characters. -/
structure IsWord (word : String) : Prop where
  ne_nil : word.toList ≠ []
  chars : ∀ c ∈ word.toList, isWordChar c = true

/-- Whether a literal is a word is computed. -/
theorem IsWord.of_all {word : String}
    (h : (!word.toList.isEmpty && word.toList.all isWordChar) = true) : IsWord word := by
  obtain ⟨hne, hall⟩ := Bool.and_eq_true_iff.mp h
  exact ⟨by simpa using hne, List.all_eq_true.mp hall⟩

theorem IsWord.spells {word : String} (h : IsWord word) : Spells word [.atom word] := by
  intro rest hrest
  rw [lex_append_word h.chars, lex_delimited _ hrest, List.nil_append, ended,
    if_neg (by simpa using h.ne_nil)]
  rfl

theorem delimited_cons {c : Char} (hc : isWordChar c = false) (cs : List Char) :
    Delimited (c :: cs) := by
  rintro d hd
  obtain rfl : c = d := by simpa using hd
  exact hc

theorem Spells.space {text : String} {xs : List Sexp} (h : Spells text xs) :
    Spells (" " ++ text) xs := by
  intro rest hrest
  rw [String.toList_append, List.append_assoc, ← h rest hrest]
  exact lex_delimiter (c := ' ') rfl _

theorem Spells.line {text : String} {xs : List Sexp} (h : Spells text xs) :
    Spells (text ++ "\n") xs := by
  have hend : Spells "\n" [] := fun _ _ => rfl
  simpa using h.append hend (delimited_cons rfl [])

theorem Spells.list {text : String} {xs : List Sexp} (h : Spells text xs) :
    Spells ("(" ++ text ++ ")") [.list xs] := by
  intro rest hrest
  have hclosing : lex [] (')' :: rest) = .closing :: lex [] rest := lex_delimiter rfl rest
  have hopening (cs : List Char) : lex [] ('(' :: cs) = .opening :: lex [] cs :=
    lex_delimiter rfl cs
  have htext : lex [] (text.toList ++ ')' :: rest) =
      Sexp.tokensOf xs ++ .closing :: lex [] rest := by
    rw [h _ (delimited_cons rfl rest), hclosing]
  simp [hopening, htext, Sexp.tokensOf, Sexp.tokens]

/-- Texts with spaces between them. -/
theorem spells_joinWith {texts : List String} {xs : List Sexp}
    (h : List.Forall₂ (fun text x => Spells text [x]) texts xs) :
    Spells (Text.joinWith " " texts) xs := by
  unfold Text.joinWith
  induction h with
  | nil => exact fun _ _ => rfl
  | @cons text x texts xs hx hxs ih =>
    cases hxs with
    | nil => simpa using hx
    | cons hy hys =>
      rw [String.intercalate_cons_cons, String.append_assoc]
      refine hx.append ih.space ?_
      rw [String.toList_append]
      exact delimited_cons rfl _

/-- An operator with its arguments. -/
theorem spells_applied {operator : String} (hoperator : IsWord operator) {texts : List String}
    {xs : List Sexp} (h : List.Forall₂ (fun text x => Spells text [x]) texts xs) :
    Spells (applied operator texts) [.list (.atom operator :: xs)] := by
  have hdelimited : Delimited (" " ++ Text.joinWith " " texts).toList := by
    rw [String.toList_append]
    exact delimited_cons rfl _
  have hmembers := hoperator.spells.append (spells_joinWith h).space hdelimited
  simpa [applied, String.append_assoc] using hmembers.list

end Entail.Smt
