import Coverage.Text.Bytes

/-!
The characters with the property White_Space, and words found in a text.
-/
namespace Coverage.Text

def isBlank (c : Char) : Bool :=
  let n := c.toNat
  (0x9 ≤ n && n ≤ 0xd) || n == 0x20 || n == 0x85 || n == 0xa0 || n == 0x1680 ||
  (0x2000 ≤ n && n ≤ 0x200a) || n == 0x2028 || n == 0x2029 || n == 0x202f || n == 0x205f ||
  n == 0x3000

def trimStart (t : Text) : Text := t.dropWhile isBlank

/-- What follows a word at the start of a text. -/
def dropWord? : Text → Text → Option Text
  | [], t => some t
  | _ :: _, [] => none
  | c :: w, d :: t => if c = d then dropWord? w t else none

/-- What follows the first place where a word stands. -/
def after? (w : Text) : Text → Option Text
  | [] => dropWord? w []
  | c :: t => dropWord? w (c :: t) <|> after? w t

def hasWord (w t : Text) : Bool := (after? w t).isSome

end Coverage.Text
