/-!
# Field queries

A field is asked for as `Type::field`. Type names may hold `::` themselves, so the last one
separates.
-/

namespace BootImage

/-- A question for a field of a type. -/
structure FieldQuery where
  type : String
  field : String
  deriving DecidableEq

namespace FieldQuery

/-- Splits a text at the last `::` in it. -/
def splitLast? : List Char → Option (List Char × List Char)
  | [] => none
  | c :: cs =>
    match splitLast? cs with
    | some (before, after) => some (c :: before, after)
    | none =>
      match c, cs with
      | ':', ':' :: rest => some ([], rest)
      | _, _ => none

/-- Reads a query, which must hold `::`. -/
def ofString? (s : String) : Option FieldQuery :=
  (splitLast? s.toList).map fun (type, field) =>
    { type := String.ofList type, field := String.ofList field }

end FieldQuery

end BootImage
