import Derivations.Text.Basic

/-!
# Escaped Text

Text that becomes part of a drawing or of a page must not be read as markup.
The five characters with a meaning in markup are replaced by entities. Pages
replace two more: a plus sign, which some readers take for an encoding of
their own, and the zero byte, which no page may contain.

## Main definitions

* `Escape.entity?`: The entity for a byte with a meaning in markup.
* `Escape.markup`: A text safe to stand in a drawing.
* `Escape.page`: A text safe to stand on a page.
-/

namespace Derivations

namespace Escape

/-- The entity for a byte with a meaning in markup. -/
def entity? (b : UInt8) : Option Text :=
  if b = '&'.toUInt8 then some "&amp;"
  else if b = '\''.toUInt8 then some "&#39;"
  else if b = '<'.toUInt8 then some "&lt;"
  else if b = '>'.toUInt8 then some "&gt;"
  else if b = '"'.toUInt8 then some "&#34;"
  else none

/-- A text safe to stand in a drawing. -/
def markup (t : Text) : Text :=
  t.flatMap fun b => (entity? b).getD [b]

/-- The replacement for a byte which a page does not show as it is. -/
def pageEntity? (b : UInt8) : Option Text :=
  if b = '+'.toUInt8 then some "&#43;"
  else if b = 0 then some "\uFFFD"
  else entity? b

/-- A text safe to stand on a page. -/
def page (t : Text) : Text :=
  t.flatMap fun b => (pageEntity? b).getD [b]

end Escape

end Derivations
