import AegisCode.NestedObjects
import AegisCode.ParseErrors

/-!
# Answers that are cut short

The beginning of a text of an object is no such text itself, but the scan goes on
behind its first brace and comes to the objects inside it. What it finds there is
returned as the action if it has the fields of one.
-/
namespace AegisCode

open Json (Decoder rawDecode loads excess Proper Spread tokens memberObjects Follows after isMark)
open Str (startsWith)

section
variable {D : Decoder}

end

/-! ## From inside a string nothing is read that is an action -/

section
variable {P : ParserLibrary} {data : Dict} {s p q : Str}

end

end AegisCode
