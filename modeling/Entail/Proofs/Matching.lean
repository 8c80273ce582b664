import Entail.Engine

set_option autoImplicit false

/-! # Two ways to work

Two pieces of work are compared by their answers. The sessions in which they are done may differ:
what is kept and what is reported is no part of an answer. -/

namespace Entail

variable {σ α β : Type}

/-! ## Work -/

/-- In every session of which `I` is true, `x` answers as `y` does in any session. `I` stays true,
    and `P` is true of the answer. -/
def Work.Matches (I : Session σ → Prop) (x y : Work σ α) (P : α → Prop) : Prop :=
  ∀ s s', I s → I (x s).2 ∧ (x s).1 = (y s').1 ∧ P (x s).1

namespace Work

variable {I : Session σ → Prop} {x y : Work σ α} {P P' : α → Prop} {R : β → Prop}

theorem Matches.pure {a : α} (h : P a) : Matches I (Pure.pure a) (Pure.pure a) P :=
  fun _ _ hs => ⟨hs, rfl, h⟩

theorem Matches.bind {f g : α → Work σ β} (hx : Matches I x y P)
    (hf : ∀ a, P a → Matches I (f a) (g a) R) : Matches I (x >>= f) (y >>= g) R := by
  intro s s' hs
  obtain ⟨hkeeps, hsame, ha⟩ := hx s s' hs
  have hrest := hf (x s).1 ha (x s).2 (y s').2 hkeeps
  change I (f (x s).1 (x s).2).2 ∧ (f (x s).1 (x s).2).1 = (g (y s').1 (y s').2).1 ∧ _
  rw [← hsame]
  exact hrest

theorem Matches.imp (h : Matches I x y P) (hP : ∀ a, P a → P' a) : Matches I x y P' :=
  fun s s' hs => (h s s' hs).imp id fun hrest => hrest.imp id (hP _)

theorem matches_report (hI : ∀ s ds, I s → I { s with diagnostics := s.diagnostics ++ ds })
    (ds : List Diagnostic) : Matches I (report ds) (report ds) fun _ => True :=
  fun s _ hs => ⟨hI s ds hs, rfl, trivial⟩

end Work

/-! ## Work that may be refused -/

/-- The same for work that may be refused, where it is refused alike. -/
def Inquiry.Matches (I : Session σ → Prop) (x y : Inquiry σ α) (P : α → Prop) : Prop :=
  Work.Matches I x.run y.run fun answer => ∀ a, answer = .ok a → P a

namespace Inquiry

variable {I : Session σ → Prop} {x y : Inquiry σ α} {P : α → Prop} {R : β → Prop}

theorem Matches.pure {a : α} (h : P a) : Matches I (Pure.pure a) (Pure.pure a) P :=
  Work.Matches.pure fun _ hb => Except.ok.inj hb ▸ h

theorem Matches.bind {f g : α → Inquiry σ β} (hx : Matches I x y P)
    (hf : ∀ a, P a → Matches I (f a) (g a) R) : Matches I (x >>= f) (y >>= g) R := by
  change Work.Matches I (x.run >>= ExceptT.bindCont f) (y.run >>= ExceptT.bindCont g) _
  refine Work.Matches.bind hx fun answer hanswer => ?_
  cases answer with
  | error refusal => exact Work.Matches.pure fun _ hb => absurd hb nofun
  | ok a => exact hf a (hanswer a rfl)

theorem Matches.imp {P' : α → Prop} (h : Matches I x y P) (hP : ∀ a, P a → P' a) :
    Matches I x y P' :=
  Work.Matches.imp h fun _ hanswer a ha => hP a (hanswer a ha)

theorem matches_lift {x y : Work σ α} (h : Work.Matches I x y P) :
    Matches I (liftM x) (liftM y) P :=
  Work.Matches.bind h fun _ ha => Work.Matches.pure fun _ hb => Except.ok.inj hb ▸ ha

/-- What one way does first has an answer that is known. -/
theorem Matches.pure_bind {a : β} {x : Inquiry σ β} {f : β → Inquiry σ α}
    (hx : Matches I x (Pure.pure a) (· = a)) (hf : Matches I (f a) y P) :
    Matches I (x >>= f) y P := by
  rw [← LawfulMonad.pure_bind a fun _ => y]
  exact hx.bind fun b hb => hb ▸ hf

/-- What one way reports for itself. -/
theorem Matches.emit_bind {event : Event} {f : Unit → Inquiry σ α}
    (hI : ∀ s ds, I s → I { s with diagnostics := s.diagnostics ++ ds })
    (h : Matches I (f ()) y P) : Matches I (emit event >>= f) y P :=
  fun s s' hs => h _ s' (hI s [.event event] hs)

/-- What one way looks up for itself. -/
theorem Matches.get_bind {f : Session σ → Inquiry σ α} (h : ∀ s, I s → Matches I (f s) y P) :
    Matches I (get >>= f) y P :=
  fun s s' hs => h s hs s s' hs

/-- What one way notes for itself. -/
theorem Matches.modify_bind {f : Session σ → Session σ} {x : Unit → Inquiry σ α}
    (hI : ∀ s, I s → I (f s)) (h : Matches I (x ()) y P) : Matches I (modify f >>= x) y P :=
  fun s s' hs => h (f s) s' (hI s hs)

theorem matches_emit (hI : ∀ s ds, I s → I { s with diagnostics := s.diagnostics ++ ds })
    (event : Event) : Matches I (emit event) (emit event) fun _ => True :=
  matches_lift (Work.matches_report hI [.event event])

theorem matches_debug (hI : ∀ s ds, I s → I { s with diagnostics := s.diagnostics ++ ds })
    (message : String) : Matches I (debug message) (debug message) fun _ => True :=
  matches_lift (Work.matches_report hI _)

end Inquiry

end Entail
