import ScriptTyping.Session

/-!
# What holds after a computation

`m.After s Q` says that `m`, started in the session `s`, ends with a result and a session of which
`Q` holds. Every computation ends, so this is all there is to say of it.
-/

namespace ScriptTyping.Check

variable {α β : Type} {s : Session}

def After (m : Check α) (s : Session) (Q : α → Session → Prop) : Prop := Q (m s).1 (m s).2

theorem After.mono {m : Check α} {P Q : α → Session → Prop} (h : m.After s P)
    (hPQ : ∀ a s', P a s' → Q a s') : m.After s Q :=
  hPQ _ _ h

theorem After.and {m : Check α} {P Q : α → Session → Prop} (hP : m.After s P) (hQ : m.After s Q) :
    m.After s fun a s' => P a s' ∧ Q a s' :=
  ⟨hP, hQ⟩

@[simp] theorem after_pure (a : α) (Q : α → Session → Prop) :
    After (pure a) s Q ↔ Q a s := Iff.rfl

@[simp] theorem after_bind (m : Check α) (f : α → Check β) (Q : β → Session → Prop) :
    After (m >>= f) s Q ↔ m.After s fun a s' => (f a).After s' Q := Iff.rfl

@[simp] theorem after_get (Q : Session → Session → Prop) : After get s Q ↔ Q s s := Iff.rfl

@[simp] theorem after_modify (f : Session → Session) (Q : Unit → Session → Prop) :
    After (modify f) s Q ↔ Q () (f s) := Iff.rfl

@[simp] theorem after_modifyGet (f : Session → α × Session) (Q : α → Session → Prop) :
    After (modifyGet f) s Q ↔ Q (f s).1 (f s).2 := Iff.rfl

/-! ## Lists -/

@[simp] theorem after_forM_nil (f : α → Check Unit) (Q : Unit → Session → Prop) :
    After (List.forM [] f) s Q ↔ Q () s := Iff.rfl

@[simp] theorem after_forM_cons (x : α) (xs : List α) (f : α → Check Unit)
    (Q : Unit → Session → Prop) :
    After (List.forM (x :: xs) f) s Q ↔ (f x).After s fun _ s' => After (List.forM xs f) s' Q :=
  Iff.rfl

@[simp] theorem after_mapM_nil (f : α → Check β) (Q : List β → Session → Prop) :
    After (List.mapM f []) s Q ↔ Q [] s := Iff.rfl

@[simp] theorem after_mapM_cons (x : α) (xs : List α) (f : α → Check β)
    (Q : List β → Session → Prop) :
    After (List.mapM f (x :: xs)) s Q ↔
      (f x).After s fun y s' => After (List.mapM f xs) s' fun ys s'' => Q (y :: ys) s'' := by
  rw [List.mapM_cons]; rfl

/-! ## Computations that keep something -/

variable {I : Session → Prop}

/-- From a session in `I` the computation comes to one in `I`, with a result in `Q`. -/
def Keeps (I : Session → Prop) (m : Check α) (Q : α → Prop) : Prop :=
  ∀ s, I s → m.After s fun a s' => Q a ∧ I s'

namespace Keeps

variable {P Q : α → Prop} {R : β → Prop} {m m' : Check α}

theorem pure {a : α} (ha : Q a) : Keeps I (pure a : Check α) Q := fun _ hs => ⟨ha, hs⟩

theorem bind {f : α → Check β} (hm : Keeps I m P) (hf : ∀ a, P a → Keeps I (f a) R) :
    Keeps I (m >>= f) R := by
  intro s hs
  rw [after_bind]
  refine (hm s hs).mono ?_
  rintro a s1 ⟨ha, hs1⟩
  exact hf a ha s1 hs1

theorem get_bind {f : Session → Check β} (hf : ∀ s, I s → Keeps I (f s) R) :
    Keeps I (MonadState.get >>= f) R := by
  intro s hs
  rw [after_bind]
  exact hf s hs s hs

theorem ite {p : Prop} [Decidable p] (hm : Keeps I m Q) (hm' : Keeps I m' Q) :
    Keeps I (if p then m else m') Q := by
  split
  · exact hm
  · exact hm'

theorem modify {f : Session → Session} (hf : ∀ s, I s → I (f s)) :
    Keeps I (modify f : Check Unit) fun _ => True :=
  fun s hs => ⟨trivial, hf s hs⟩

theorem mapM {f : α → Check β} (hf : ∀ x, Keeps I (f x) R) (xs : List α) :
    Keeps I (xs.mapM f) fun ys => ∀ y ∈ ys, R y := by
  induction xs with
  | nil => exact pure (by simp)
  | cons x xs ih =>
    rw [List.mapM_cons]
    exact (hf x).bind fun y hy => ih.bind fun ys hys => pure (by simp [hy]; exact hys)

theorem forM {f : α → Check Unit} (hf : ∀ x, Keeps I (f x) fun _ => True) (xs : List α) :
    Keeps I (xs.forM f) fun _ => True := by
  induction xs with
  | nil => exact pure trivial
  | cons x xs ih => exact (hf x).bind fun _ _ => ih

end Keeps

end ScriptTyping.Check
