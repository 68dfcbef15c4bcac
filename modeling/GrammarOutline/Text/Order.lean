/-!
# The order of names

Names are listed in the order of the code points of their characters.
-/
namespace GrammarOutline.Text

def sorted (names : List String) : List String := names.mergeSort fun a b => !decide (b < a)

end GrammarOutline.Text
