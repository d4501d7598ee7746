import Coverage.Text.Bytes

/-!
The languages that sources are read in, chosen by the ending of a path.
-/
namespace Coverage

inductive Dialect where
  /-- With markup elements. -/
  | javaScript
  | typeScript
  /-- TypeScript with markup elements. -/
  | tsx
  deriving DecidableEq

namespace Dialect

/-- By what stands behind the last dot, or by the whole path if it has none. -/
def ofPath (path : String) : Dialect :=
  let ending := (Text.splitAt '.' path.toList).getLastD []
  if ["ts", "mts", "cts"].any (·.toList == ending) then typeScript
  else if "tsx".toList == ending then tsx
  else javaScript

def isTyped : Dialect → Bool
  | javaScript => false
  | _ => true

def hasMarkup : Dialect → Bool
  | typeScript => false
  | _ => true

end Dialect
end Coverage
