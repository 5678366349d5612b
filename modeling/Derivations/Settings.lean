import Derivations.Text.Lower
import Derivations.Text.Numeral

/-!
# Settings

Parsers can be configured from outside by named settings. A setting is given
as a text, a number or a truth value, and whoever asks for it says what kind
of value is wanted; a setting that does not provide one counts as not given.

## Main definitions

* `Setting`: The value of a setting.
* `Settings`: Named settings.
* `Settings.int`, `Settings.bool`: A setting as a number or a truth value.
-/

namespace Derivations

/-- The value of a setting. -/
inductive Setting where
  | text (t : Text)
  | number (n : Int)
  | flag (b : Bool)
deriving DecidableEq, Repr

/-- Named settings. -/
abbrev Settings := List (Text × Setting)

namespace Settings

/-- A setting as a number: texts are read as decimal numerals, numbers out of
    range give the nearest bound, and everything else counts as zero. -/
def int (s : Settings) (name : Text) : Int :=
  match s.lookup name with
  | some (.text t) => (Numeral.plain t).clamped
  | some (.number n) => n
  | _ => 0

/-- A setting as a truth value: the text `true` in any case counts as true, and
    everything else that is no truth value as false. -/
def bool (s : Settings) (name : Text) : Bool :=
  match s.lookup name with
  | some (.text t) => t.lower = Text.ofString "true"
  | some (.flag b) => b
  | _ => false

end Settings

end Derivations
