import GrammarOutline.Conversion
import GrammarOutline.Production.Reader

/-!
# Conversion of named resources

A resource is a text with a name. Reading one may be an effect, so the conversion works in any
monad. A fault is reported together with the resource in which it was met.
-/
namespace GrammarOutline

namespace Conversion

/-- Notes the resource in which a fault was met. -/
def located {α : Type} (resource : Option String) (result : Except Fault α) :
    Except Diagnosis α :=
  result.mapError fun fault => (Diagnosis.ofFault fault).within resource

/-- Converts the grammar of one resource with the definitions of another. Resources are read when
they are needed, and nothing more is done after the first fault. An empty name stands for no
definitions. -/
def ofResources {m : Type → Type} [Monad m] (read : String → m (Except Fault (List Char)))
    (grammar : String) (extra : Option String) (policy : InlinePolicy) :
    m (Except Diagnosis Conversion) := do
  match located none (← read grammar) with
  | .error d => return .error d
  | .ok source =>
    match located (some grammar) (Grammar.read source) with
    | .error d => return .error d
    | .ok g =>
      if (extra.getD "").isEmpty then
        return located (some grammar) (g.convert Table.empty policy)
      else
        match located none (← read (extra.getD "")) with
        | .error d => return .error d
        | .ok source =>
          match located extra (Definitions.read source) with
          | .error d => return .error d
          | .ok definitions => return located (some grammar) (g.convert definitions policy)

end Conversion

end GrammarOutline
