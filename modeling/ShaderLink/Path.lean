import ShaderLink.Fault

/-!
# Module paths and ids

A module path begins with the name of its library; segments are separated by slashes.  The id of a
declaration is the path of its module followed by its name.
-/

namespace ShaderLink

/-- The id of what is declared under a name in the module at a path. -/
def idOf (path name : Text) : Text := path ++ '/' :: name

/-- The text before the first slash. -/
def firstSegment (path : Text) : Text := path.takeWhile (· != '/')

/-- The library to which a path or an id belongs. -/
def libraryOf (path : Text) : Except Fault Text :=
  match firstSegment path with
  | [] => .error (Cause.noLibraryName path).fault
  | c :: t => .ok (c :: t)

theorem libraryOf_eq_ok_iff {path library : Text} :
    libraryOf path = .ok library ↔ firstSegment path = library ∧ library ≠ [] := by
  unfold libraryOf
  constructor
  · intro h
    split at h
    · cases h
    · rename_i c t hp
      cases h
      exact ⟨hp, List.cons_ne_nil c t⟩
  · rintro ⟨h, hne⟩
    split
    · rename_i hp
      exact absurd (h.symm.trans hp) hne
    · rename_i c t hp
      rw [← hp, h]

end ShaderLink
