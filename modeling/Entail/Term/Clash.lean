import Entail.Term.Order

set_option autoImplicit false

/-! # Structural difference

Two terms clash when their shapes alone show that they are different: distinct tokens, distinct
constructors, a token against a constructor or a list, lists of which the shorter one is closed, or
such a difference inside two equal constructors or at one position of two lists. -/

namespace Entail

namespace Term

/-- The shorter of two lists is closed. Lists of one length are never told apart by their frames:
    a frame may still be empty. -/
def shorterIsClosed (xs : List Term) (frame : Option Term) (ys : List Term)
    (frame' : Option Term) : Bool :=
  (xs.length < ys.length && frame.isNone) || (ys.length < xs.length && frame'.isNone)

mutual

/-- The shapes of two terms exclude that they are equal. -/
def clashes : Term → Term → Bool
  | .app f xs _, .app g ys _ =>
    f.isConstructor && g.isConstructor &&
      (!f.same g || xs.length != ys.length || clashesSomewhere xs ys)
  | .list xs frame, .list ys frame' =>
    shorterIsClosed xs frame ys frame' || clashesSomewhere xs ys
  | .app f _ _, .list _ _ => f.isConstructor
  | .list _ _, .app g _ _ => g.isConstructor
  | .app f _ _, u => u.isToken && f.isConstructor
  | .list _ _, u => u.isToken
  | t, .app g _ _ => t.isToken && g.isConstructor
  | t, .list _ _ => t.isToken
  | t, u => t.isToken && u.isToken && t != u
termination_by structural t => t

/-- Two lists of terms clash at some common position. -/
def clashesSomewhere : List Term → List Term → Bool
  | x :: xs, y :: ys => clashes x y || clashesSomewhere xs ys
  | _, _ => false
termination_by structural xs => xs

end

end Term

end Entail
