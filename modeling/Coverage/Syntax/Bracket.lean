import Coverage.Syntax.Parse

/-!
What stands behind a closing parenthesis. A parenthesis opens the parameters of an arrow function or
an expression, which only the text behind its partner tells; so the partner is looked for by a walk
that knows strings, templates, comments and regular expressions but no grammar.
-/
namespace Coverage.Syntax.Bracket

/-- Where a walk to the closing parenthesis stands. `operand` says that a slash would divide. -/
inductive Walk where
  | code (operand : Bool)
  | quoted (quote : Char) (escaped : Bool)
  | template (escaped : Bool)
  | line
  | opening
  | block (star : Bool)
  | regex (inClass escaped : Bool)

/-- Depth counts round, square and curly brackets alike; `templates` holds the depths at which the
code inside a template string ends. -/
structure Place where
  depth : Nat
  templates : List Nat

def closesOperand (x : Char) : Bool := Token.isWordPart x || x == ')' || x == ']'

/-- The text behind the bracket that closes the one before the text. -/
def partner? (w : Walk) (p : Place) : Text → Option Text
  | [] => none
  | x :: r =>
    match w with
    | .quoted q escaped =>
      if escaped then partner? (.quoted q false) p r
      else if x == '\\' then partner? (.quoted q true) p r
      else if x == q || x == '\n' then partner? (.code true) p r
      else partner? w p r
    | .template escaped =>
      if escaped then partner? (.template false) p r
      else if x == '\\' then partner? (.template true) p r
      else if x == '\x60' then partner? (.code true) p r
      else if x == '$' && r.head? == some '\x7b' then
        partner? (.code false) { p with templates := p.depth :: p.templates } r
      else partner? w p r
    | .line => if x == '\n' then partner? (.code false) p r else partner? w p r
    | .opening => partner? (.block false) p r
    | .block star =>
      if star && x == '/' then partner? (.code false) p r else partner? (.block (x == '*')) p r
    | .regex inClass escaped =>
      if x == '\n' then partner? (.code false) p r
      else if escaped then partner? (.regex inClass false) p r
      else if x == '\\' then partner? (.regex inClass true) p r
      else if inClass then partner? (.regex (x != ']') false) p r
      else if x == '/' then partner? (.code true) p r
      else partner? (.regex (x == '[') false) p r
    | .code operand =>
      if x == '"' || x == '\x27' then partner? (.quoted x false) p r
      else if x == '\x60' then partner? (.template false) p r
      else if x == '/' then
        if r.head? == some '/' then partner? .line p r
        else if r.head? == some '*' then partner? .opening p r
        else if operand then partner? (.code false) p r
        else partner? (.regex false false) p r
      else if x == '(' || x == '[' || x == '\x7b' then
        partner? (.code false) { p with depth := p.depth + 1 } r
      else if x == ')' || x == ']' || x == '\x7d' then
        match p.depth with
        | 0 => some r
        | d + 1 =>
          if x == '\x7d' && p.templates.head? == some d then
            partner? (.template false) ⟨d, p.templates.tail⟩ r
          else partner? (.code (x != '\x7d')) { p with depth := d } r
      else if Cursor.isGap x then partner? w p r
      else partner? (.code (closesOperand x)) p r

/-- What stands behind the partner of a bracket. -/
inductive Follower where
  | arrow
  | colon
  | other
  deriving DecidableEq

/-- From behind an opening bracket. -/
def follower (c : Cursor) : Follower :=
  match partner? (.code false) ⟨0, []⟩ c.rest with
  | none => .other
  | some r =>
    match (Cursor.start r).skipTrivia.rest with
    | '=' :: '>' :: _ => .arrow
    | ':' :: _ => .colon
    | _ => .other

end Coverage.Syntax.Bracket
