import BootImage.Layout.Cursor

/-!
# Resolving one label

Where a label is can be found without an index, by reading the stream up to the first entry that
defines it. All branches count as near.
-/

namespace BootImage

/-- Where `name` is, in a stream that starts at the given cursor. -/
def resolveFrom (c : Cursor) (name : String) : Code → Except AssemblyError LabelAddress
  | [] => .error (.undefinedLabel name)
  | e :: code =>
    if e.defines name then .ok c.place
    else do
      let (_, next) ← c.advance e .near
      resolveFrom next name code

/-- Where the first definition of `name` is, up to letter case. -/
def resolveLabel (code : Code) (name : String) : Except AssemblyError LabelAddress :=
  resolveFrom {} name code

end BootImage
