/-!
# ASCII case

Lower case of the letters A to Z, and names that agree up to it. The words compared through
`lowered` (`true`, `false`, the names of the file formats) have no letter with an upper-case form
outside ASCII, so nothing beyond ASCII can match them.
-/

namespace LayeredConfig

def lowered (text : String) : String :=
  String.ofList (text.toList.map Char.toLower)

/-- Character lists that agree up to the case of ASCII letters. -/
def agreeUpToCase : List Char → List Char → Bool
  | [], [] => true
  | a :: as, b :: bs => a.toLower == b.toLower && agreeUpToCase as bs
  | _, _ => false

theorem agreeUpToCase_iff (as bs : List Char) :
    agreeUpToCase as bs = true ↔ as.map Char.toLower = bs.map Char.toLower := by
  induction as generalizing bs with
  | nil => cases bs <;> simp [agreeUpToCase]
  | cons a as ih => cases bs <;> simp [agreeUpToCase, ih]

end LayeredConfig
