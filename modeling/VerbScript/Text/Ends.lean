/-!
# VerbScript.Text.Ends

Texts without a class of characters at their end.
-/

namespace VerbScript.Text

/-- The characters without those at the end that satisfy `p`. -/
def dropFinal (p : Char → Bool) (text : List Char) : List Char :=
  (text.reverse.dropWhile p).reverse

end VerbScript.Text
