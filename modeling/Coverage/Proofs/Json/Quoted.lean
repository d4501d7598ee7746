import Coverage.Json.Reader
import Coverage.Json.Writer

/-! Strings between quotes. What is written for a string is read back as that string, whatever follows. -/
namespace Coverage.Json

variable {c : Char} {l : List Char} {t : Text}

theorem hexValue?_hexDigit : ∀ n < 16, hexValue? (hexDigit n) = some n := by decide

theorem unit?_hexDigit (h : c.toNat < 0x20) :
    unit? '0' '0' (hexDigit (c.toNat / 16)) (hexDigit (c.toNat % 16)) = some c.toNat := by
  have hzero : hexValue? '0' = some 0 := rfl
  have hhigh := hexValue?_hexDigit (c.toNat / 16) (by omega)
  have hlow := hexValue?_hexDigit (c.toNat % 16) (by omega)
  simp only [unit?, hzero, hhigh, hlow, Option.bind_eq_bind, Option.bind_some, Option.pure_def]
  congr 1
  omega

/-- A string so far that no half of a surrogate pair has spoiled. -/
def Scan.ofReversed (l : List Char) : Scan := ⟨l, none, true⟩

theorem Scan.push_ofReversed : (Scan.ofReversed l).push c = .ofReversed (c :: l) := rfl

theorem Scan.pushUnit_ofReversed (h : c.toNat < 0x20) :
    (Scan.ofReversed l).pushUnit c.toNat = .ofReversed (c :: l) := by
  have hlead : ¬ (0xd800 ≤ c.toNat ∧ c.toNat ≤ 0xdbff) := by omega
  have htrail : ¬ (0xdc00 ≤ c.toNat ∧ c.toNat ≤ 0xdfff) := by omega
  simp only [pushUnit, ofReversed, hlead, htrail, if_false, Char.ofNat_toNat]
  rfl

theorem scanString_escape :
    scanString (.ofReversed l) (escape c ++ t) = scanString (.ofReversed (c :: l)) t := by
  rw [escape]
  repeat' split
  all_goals try (subst c; rfl)
  · next hcontrol =>
    simp only [List.cons_append, List.nil_append, scanString, unit?_hexDigit hcontrol]
    simp only [Option.bind_eq_bind, Option.bind_some, Scan.pushUnit_ofReversed hcontrol]
  · next hquote hslash _ _ _ _ _ hcontrol =>
    rw [List.singleton_append, scanString]
    · simp [hslash, hcontrol, Scan.push_ofReversed]
    all_goals simp_all

theorem scanString_escaped (l : List Char) (s : List Char) (t : Text) :
    scanString (.ofReversed l) (s.flatMap escape ++ '"' :: t) =
      some (some (String.ofList (l.reverse ++ s)), t) := by
  induction s generalizing l with
  | nil => simp [scanString, Scan.result, Scan.ofReversed]
  | cons c s ih =>
    rw [List.flatMap_cons, List.append_assoc, scanString_escape, ih]
    simp

/-- What follows the opening quote of a string, and the string that is read from it. -/
theorem exists_quoted (s : String) : ∃ u : Text, (quoted s).toList = '"' :: u ∧
    ∀ t, scanString .start (u ++ t) = some (some s, t) := by
  refine ⟨s.toList.flatMap escape ++ ['"'], ?_, fun t => ?_⟩
  · simp [quoted]
  · rw [List.append_assoc]
    exact (scanString_escaped [] s.toList t).trans (by simp)

end Coverage.Json
