import Mathlib.Data.List.Basic

/-!
# Reading fields one after another

A field reader takes the bytes from a cursor on and returns the field's value and how far it
moved the cursor. `readFields` reads a list of fields, each with the reader of its kind, moving
the cursor past each one. A value's type may depend on its kind, so read values are pairs
`⟨kind, value⟩`.

`readFields_flatMap` is the rule for a concatenation of encodings: if each reader, on an
encoding followed by anything, returns the encoded value and moves exactly past the encoding,
then reading the kinds of a list of fields from the concatenation of their encodings returns
the list.
-/

namespace Cursor

variable {κ α : Type} {V : κ → Type}

/-- Read one field per kind in `kinds`, each starting where the previous one stopped. -/
def readFields (read : (k : κ) → List α → Option (V k × Nat)) :
    List κ → List α → Option (List (Σ k, V k))
  | [], _ => some []
  | k :: kinds, data => do
    let (v, n) ← read k data
    let vs ← readFields read kinds (data.drop n)
    pure (⟨k, v⟩ :: vs)

/-- A reader that inverts a writer on every encoding followed by anything reads back every
concatenation of encodings. -/
theorem readFields_flatMap {read : (k : κ) → List α → Option (V k × Nat)}
    (write : (k : κ) → V k → List α)
    (hread : ∀ k v rest, read k (write k v ++ rest) = some (v, (write k v).length))
    (fields : List (Σ k, V k)) (rest : List α) :
    readFields read (fields.map Sigma.fst) (fields.flatMap (fun f => write f.1 f.2) ++ rest) =
      some fields := by
  induction fields with
  | nil => rfl
  | cons f fields ih =>
    obtain ⟨k, v⟩ := f
    -- the first read stops right after the first encoding, where the others begin
    have hdrop : (write k v ++ (fields.flatMap (fun f => write f.1 f.2) ++ rest)).drop
        (write k v).length = fields.flatMap (fun f => write f.1 f.2) ++ rest :=
      List.drop_left
    simp only [List.map_cons, List.flatMap_cons, List.append_assoc, readFields, hread, bind,
      Option.bind, hdrop, ih, pure]

end Cursor
