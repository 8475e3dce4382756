/-!
# Label names up to letter case

Two label names are the same label when they differ only in the case of the letters `A`–`Z`.
Characters outside ASCII have no case here: `É` and `é` are different names.
-/

namespace BootImage.Text

/-- The spelling of `s` with every letter `A`–`Z` in lower case and all else unchanged. -/
def foldCase (s : String) : String :=
  String.ofList (s.toList.map Char.toLower)

/-- Whether two names are equal up to the case of the letters `A`–`Z`. -/
def sameName (a b : String) : Bool :=
  foldCase a == foldCase b

end BootImage.Text
