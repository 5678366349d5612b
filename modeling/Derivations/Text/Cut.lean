import Derivations.Text.Basic

/-!
# Cutting a Text into Pieces

Reading characters and reading tokens are the same activity: look at the front
of the text, find out what kind of piece begins there and how many bytes
belong to it, cut it off, and go on behind it. This module holds the activity;
what the pieces are is up to a function that measures the front.

A piece always takes the byte it begins with, so the recursion follows the
text byte by byte; the number of bytes that still belong to the last piece is
carried along. Nothing is lost and no piece is empty.

## Main definitions

* `Text.cut`: The pieces of a text with their kinds.

## Theorems

* `Text.cut_induction`: Induction piece by piece.
* `Text.flatMap_cut`: The pieces concatenate to the text.
* `Text.ne_nil_of_mem_cut`: No piece is empty.
-/

namespace Derivations

namespace Text

variable {κ : Type}

/-- The pieces of a text from behind the next `skip` bytes on. Given the first
    byte of a piece and all bytes behind it, `measure` tells the kind of the
    piece and how many more bytes belong to it. -/
def cutAfter (measure : UInt8 → Text → κ × Nat) : Nat → Text → List (κ × Text)
  | _, [] => []
  | skip + 1, _ :: rest => cutAfter measure skip rest
  | 0, first :: rest =>
    let (kind, n) := measure first rest
    (kind, first :: rest.take n) :: cutAfter measure n rest

/-- The pieces of a text with their kinds. -/
def cut (measure : UInt8 → Text → κ × Nat) (t : Text) : List (κ × Text) :=
  cutAfter measure 0 t

/-- Skipping bytes is the same as dropping them first. -/
theorem cutAfter_eq_cut_drop (measure : UInt8 → Text → κ × Nat) (skip : Nat) (t : Text) :
    cutAfter measure skip t = cut measure (t.drop skip) := by
  induction t generalizing skip with
  | nil => cases skip <;> rfl
  | cons first rest ih =>
    cases skip with
    | zero => rfl
    | succ skip => rw [cutAfter, ih, List.drop_succ_cons]

/-- Cutting a text cuts off its first piece. -/
theorem cut_cons (measure : UInt8 → Text → κ × Nat) (first : UInt8) (rest : Text) :
    cut measure (first :: rest) =
      ((measure first rest).1, first :: rest.take (measure first rest).2) ::
        cut measure (rest.drop (measure first rest).2) := by
  rw [cut, cutAfter]
  rcases measure first rest with ⟨kind, n⟩
  simp only [cutAfter_eq_cut_drop]

/-- What holds of the empty text, and of a text if it holds of what is behind its first
    piece, holds of all texts. -/
theorem cut_induction (measure : UInt8 → Text → κ × Nat) {motive : Text → Prop}
    (nil : motive [])
    (cons : ∀ first rest, motive (rest.drop (measure first rest).2) → motive (first :: rest))
    (t : Text) : motive t := by
  induction h : t.length using Nat.strongRecOn generalizing t with
  | ind n ih =>
    cases t with
    | nil => exact nil
    | cons first rest =>
      refine cons first rest (ih _ ?_ _ rfl)
      simp only [List.length_cons, List.length_drop] at h ⊢
      omega

/-- The pieces concatenate to the text. -/
theorem flatMap_cut (measure : UInt8 → Text → κ × Nat) (t : Text) :
    (cut measure t).flatMap (·.2) = t := by
  induction t using cut_induction measure with
  | nil => rfl
  | cons first rest ih =>
    rw [cut_cons, List.flatMap_cons, ih]
    simp only [List.cons_append, List.take_append_drop]

/-- No piece is empty. -/
theorem ne_nil_of_mem_cut (measure : UInt8 → Text → κ × Nat) (t : Text) :
    ∀ p ∈ cut measure t, p.2 ≠ [] := by
  induction t using cut_induction measure with
  | nil => simp [cut, cutAfter]
  | cons first rest ih =>
    rw [cut_cons]
    intro p hp
    rcases List.mem_cons.1 hp with rfl | hp
    · exact List.cons_ne_nil _ _
    · exact ih p hp

end Text

end Derivations
