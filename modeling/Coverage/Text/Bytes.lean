/-!
Text as a list of characters that is measured and cut in UTF-8 bytes. A cut inside a character fails.
-/
namespace Coverage

abbrev Text := List Char

namespace Text

def byteLength (t : Text) : Nat := t.foldr (fun c n => c.utf8Size + n) 0

/-- The pieces between the separators; there is one more piece than separators. -/
def splitAt (sep : Char) (t : Text) : List Text :=
  t.foldr (fun c r => if c = sep then [] :: r else (c :: r.headD []) :: r.tail) [[]]

/-- The text behind the first `n` bytes. -/
def dropBytes? : Nat → Text → Option Text
  | 0, t => some t
  | _ + 1, [] => none
  | n + 1, c :: t => if c.utf8Size ≤ n + 1 then dropBytes? (n + 1 - c.utf8Size) t else none

/-- The first `n` bytes, added to what was taken before. -/
def takeBytesOnto? (taken : Text) : Nat → Text → Option Text
  | 0, _ => some taken.reverse
  | _ + 1, [] => none
  | n + 1, c :: t =>
    if c.utf8Size ≤ n + 1 then takeBytesOnto? (c :: taken) (n + 1 - c.utf8Size) t else none

def takeBytes? (n : Nat) (t : Text) : Option Text := takeBytesOnto? [] n t

/-- The bytes from `start` up to `stop`. -/
def slice? (t : Text) (start stop : Nat) : Option Text :=
  if start ≤ stop then (dropBytes? start t).bind (takeBytes? (stop - start)) else none

/-- The first of the bytes that encode a character. -/
def leadByte (c : Char) : Nat :=
  let n := c.toNat
  if n < 0x80 then n
  else if n < 0x800 then 0xc0 + n / 0x40
  else if n < 0x10000 then 0xe0 + n / 0x1000
  else 0xf0 + n / 0x40000

@[simp] theorem byteLength_nil : byteLength [] = 0 := rfl

@[simp] theorem byteLength_cons {c : Char} {t : Text} :
    byteLength (c :: t) = c.utf8Size + byteLength t := rfl

@[simp] theorem byteLength_append {s t : Text} :
    byteLength (s ++ t) = byteLength s + byteLength t := by
  induction s with
  | nil => simp
  | cons c r ih => simp [ih, Nat.add_assoc]

theorem splitAt_ne_nil {sep : Char} {t : Text} : splitAt sep t ≠ [] := by
  cases t with
  | nil => simp [splitAt]
  | cons c r => rw [splitAt, List.foldr_cons]; split <;> simp

/-- Pieces with the separator put back between them. -/
theorem intercalate_splitAt {sep : Char} {t : Text} : [sep].intercalate (splitAt sep t) = t := by
  induction t with
  | nil => rfl
  | cons c r ih =>
    have hne := @splitAt_ne_nil sep r
    rw [splitAt, List.foldr_cons, ← splitAt]
    cases hs : splitAt sep r with
    | nil => exact absurd hs hne
    | cons p ps =>
      rw [hs] at ih
      split
      · next h => subst h; rw [← ih]; cases ps <;> rfl
      · rw [← ih]; cases ps <;> rfl

end Text
end Coverage
