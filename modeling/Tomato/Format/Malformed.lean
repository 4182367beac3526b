import Tomato.Format.Run

/-!
# Formats with malformed conversions

What starts like a conversion and is none is printed as it stands and takes no argument. What
stands before it and after it is printed as it would be on its own.
-/

namespace Tomato

open Snprintf

/-- The arguments after some were taken. -/
def VaList.drop (args : VaList) (k : ℕ) : VaList := { args with slot := fun i => args.slot (i + k) }

namespace Format

variable {args : VaList} {a b ds : List Directive} {d : Directive} {f : CString} {p : Spec} {c : ℕ}

theorem Ok.left (h : Ok (a ++ d :: b)) : Ok a := by
  induction a with
  | nil => trivial
  | cons x a ih =>
      refine ⟨h.1, fun hinc => ?_, ih h.2.2⟩
      simpa using h.2.1 hinc

theorem Ok.right (h : Ok (a ++ b)) : Ok b := by
  induction a with
  | nil => exact h
  | cons x a ih => exact ih h.2.2

end Format

end Tomato
