import EnvScript.Text

/-!
# Positions

Lines and columns of a text, both counted from one. `Position.after p t` is where one stands after
reading `t` from `p`.
-/

namespace EnvScript

structure Position where
  line : Nat
  col : Nat
  deriving DecidableEq, Repr

namespace Position

def start : Position := ⟨1, 1⟩

def next (p : Position) (c : Char) : Position :=
  if c = '\n' then ⟨p.line + 1, 1⟩ else ⟨p.line, p.col + 1⟩

def after (p : Position) (t : Text) : Position := t.foldl next p

@[simp] theorem after_nil (p : Position) : p.after [] = p := rfl

@[simp] theorem after_cons (p : Position) (c : Char) (t : Text) :
    p.after (c :: t) = (p.next c).after t := rfl

theorem after_append (p : Position) (s t : Text) : p.after (s ++ t) = (p.after s).after t :=
  List.foldl_append

theorem line_after (p : Position) (t : Text) :
    (p.after t).line = p.line + t.count '\n' := by
  induction t generalizing p with
  | nil => rfl
  | cons x t ih =>
    rw [after_cons, ih, List.count_cons]
    unfold next
    split
    · rename_i hx
      simp only [hx, beq_self_eq_true, if_true]
      omega
    · rename_i hx
      simp [hx]

end Position

end EnvScript
