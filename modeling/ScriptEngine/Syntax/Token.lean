import ScriptEngine.Number.Decimal
import ScriptEngine.Text.Ranges

/-!
Tokens of scripts, read from a list of characters. Readers take the characters that follow and
give back the rest; `none` means that the text is malformed. Whether a slash divides or opens a
regular expression, and whether a brace closes a block or a template hole, is for the caller to
say: a slash and a brace are plain marks here, and `regex?` and `templatePiece` read on from them.
-/

namespace ScriptEngine.Syntax

inductive Token where
  /-- An identifier or a keyword. -/
  | word (text : String) (escaped : Bool)
  | privateName
  | number (value : Double)
  | bigint
  | text (value : String)
  /-- The opening piece of a template: whether it is also the last, and whether its escapes are
  well formed. -/
  | template (closed sound : Bool)
  | mark (spelling : String)
  | finish
deriving DecidableEq, Inhabited

namespace Scan

def isLineEnd (c : Char) : Bool := c == '\n' || c == '\r' || c == '\u2028' || c == '\u2029'

/-- Blanks other than line ends. -/
def isSpace (c : Char) : Bool :=
  let n := c.toNat
  n == 9 || n == 11 || n == 12 || n == 0x20 || n == 0x85 || n == 0xa0 || n == 0x1680 ||
    n == 0x180e || (0x2000 ≤ n && n ≤ 0x200b) || n == 0x202f || n == 0x205f || n == 0x3000 ||
    n == 0xfeff

def isNameStart (c : Char) : Bool :=
  c.isAlpha || c == '$' || c == '_' || (0x80 ≤ c.toNat && Text.inRanges Text.identifierStart c.toNat)

/-- Characters after the first one of a name, the two joiners included. -/
def isNamePart (c : Char) : Bool :=
  isNameStart c || c.isDigit || c == '\u200c' || c == '\u200d' ||
    (0x80 ≤ c.toNat && Text.inRanges Text.identifierPart c.toNat)

/-- What is being skipped between tokens. -/
inductive Gap where
  | blank | lineComment | blockComment

/-- Skip blanks and comments. The answer tells whether a line end was among them. -/
def skip : Gap → Bool → List Char → Option (Bool × List Char)
  | .blank, newline, '/' :: '/' :: rest => skip .lineComment newline rest
  | .blank, newline, '/' :: '*' :: rest => skip .blockComment newline rest
  | .blank, newline, c :: rest =>
    if isLineEnd c then skip .blank true rest
    else if isSpace c then skip .blank newline rest
    else some (newline, c :: rest)
  | .lineComment, newline, c :: rest =>
    if isLineEnd c then skip .blank true rest else skip .lineComment newline rest
  | .blockComment, newline, '*' :: '/' :: rest => skip .blank newline rest
  | .blockComment, newline, c :: rest => skip .blockComment (newline || isLineEnd c) rest
  | .blockComment, _, [] => none
  | _, newline, [] => some (newline, [])

/-- A first line that names an interpreter is no part of the script. -/
def dropShebang : List Char → List Char
  | '#' :: '!' :: rest => rest.dropWhile (!isLineEnd ·)
  | text => text

/-- Value of a digit in bases up to sixteen. -/
def digit? (base : Nat) (c : Char) : Option Nat :=
  let n := c.toNat
  let value :=
    if c.isDigit then n - '0'.toNat
    else if 'a' ≤ c ∧ c ≤ 'f' then n - 'a'.toNat + 10
    else if 'A' ≤ c ∧ c ≤ 'F' then n - 'A'.toNat + 10
    else base
  if value < base then some value else none

/-- Digits in a base; a low line may stand between two of them. -/
def digitRun (base : Nat) : List Char → Option (List Nat × List Char)
  | '_' :: c :: rest =>
    match digit? base c with
    | some d => (digitRun base rest).map fun (ds, rest) => (d :: ds, rest)
    | none => none
  | ['_'] => none
  | c :: rest =>
    match digit? base c with
    | some d => (digitRun base rest).map fun (ds, rest) => (d :: ds, rest)
    | none => some ([], c :: rest)
  | [] => some ([], [])

/-- One digit at least. -/
def digits? (base : Nat) : List Char → Option (List Nat × List Char)
  | c :: rest => if (digit? base c).isSome then digitRun base (c :: rest) else none
  | [] => none

def valueIn (base : Nat) (digits : List Nat) : Nat := digits.foldl (base * · + ·) 0

/-- The double for digits in a base that is a power of two. A number that fits in a machine word
is rounded once; a longer one is rounded after each digit. -/
def roundedIn (base longest : Nat) (digits : List Nat) : Double :=
  if digits.length ≤ longest then .ofInt (valueIn base digits)
  else digits.foldl (extend base) (.zero false)
where
  extend (base : Nat) (acc : Double) (d : Nat) : Double :=
    if acc.isFinite then
      .round false (base * acc.magnitude + d * Double.unitsPerOne) 1
    else acc

/-- Exponents beyond this make any mantissa of a script vanish or overflow. -/
def exponentBound : Nat := 1000000

/-- The power of ten after a mantissa. -/
def exponent? : List Char → Option (Int × List Char)
  | mark :: rest =>
    if mark = 'e' ∨ mark = 'E' then
      match rest with
      | '-' :: rest => (digits? 10 rest).map fun (ds, rest) => (-(bounded ds : Int), rest)
      | '+' :: rest => (digits? 10 rest).map fun (ds, rest) => ((bounded ds : Int), rest)
      | rest => (digits? 10 rest).map fun (ds, rest) => ((bounded ds : Int), rest)
    else some (0, mark :: rest)
  | [] => some (0, [])
where
  bounded (ds : List Nat) : Nat := min exponentBound (valueIn 10 ds)

/-- A number must not run into a name or a digit. -/
def endsNumber : List Char → Bool
  | c :: _ => !(isNameStart c || c.isDigit)
  | [] => true

/-- Fraction and exponent after the whole part of a decimal. -/
def decimal? (whole : List Nat) (rest : List Char) : Option (Token × List Char) := do
  let (places, rest) ← match rest with
    | '.' :: tail => match tail with
      | '_' :: _ => some ([], tail)
      | _ => digitRun 10 tail
    | _ => some ([], rest)
  let (power, rest) ← exponent? rest
  return (.number (.ofDecimal false (valueIn 10 (whole ++ places)) (power - places.length)), rest)

/-- A run of digits after a leading zero counts in eights unless it has an eight or a nine. -/
def zeroLed? (rest : List Char) : Option (Token × List Char) :=
  let (run, after) := rest.span Char.isDigit
  let ds := run.filterMap (digit? 10)
  if run.all (· < '8') then some (.number (roundedIn 8 21 ds), after)
  else match after with
    | '.' :: _ | 'e' :: _ => decimal? ds after
    | _ => some (.number (.ofDecimal false (valueIn 10 ds) 0), after)

/-- Digits after a base mark such as `0x`. -/
def based? (base longest : Nat) (rest : List Char) : Option (Token × List Char) := do
  match ← digits? base rest with
  | (_, 'n' :: rest) => return (.bigint, rest)
  | (ds, rest) => return (.number (roundedIn base longest ds), rest)

def number? (text : List Char) : Option (Token × List Char) := do
  let (token, rest) ← match text with
    | '0' :: mark :: rest =>
      if mark = 'x' ∨ mark = 'X' then based? 16 16 rest
      else if mark = 'o' ∨ mark = 'O' then based? 8 21 rest
      else if mark = 'b' ∨ mark = 'B' then based? 2 64 rest
      else if mark.isDigit then zeroLed? (mark :: rest)
      else if mark = 'n' then some (.bigint, rest)
      else if mark = '_' then none
      else decimal? [0] (mark :: rest)
    | '.' :: _ => decimal? [] text
    | _ => do
      match ← digits? 10 text with
      | (_, 'n' :: rest) => return (.bigint, rest)
      | (ds, rest) => decimal? ds rest
  if endsNumber rest then some (token, rest) else none

/-- Exactly `count` hexadecimal digits. -/
def hexDigits? : Nat → Nat → List Char → Option (Nat × List Char)
  | 0, acc, rest => some (acc, rest)
  | count + 1, acc, c :: rest =>
    match digit? 16 c with
    | some d => hexDigits? count (16 * acc + d) rest
    | none => none
  | _ + 1, _, [] => none

/-- Code point after `\u`: four hexadecimal digits, or any number of them in braces. -/
def codePoint? : List Char → Option (Nat × List Char)
  | '\x7b' :: rest =>
    let (run, after) := rest.span fun c => (digit? 16 c).isSome
    let code := valueIn 16 (run.filterMap (digit? 16))
    match after with
    | '\x7d' :: rest => if run ≠ [] ∧ code ≤ 0x10ffff then some (code, rest) else none
    | _ => none
  | rest => hexDigits? 4 0 rest

/-- Two halves of a pair written as two escapes make one character. -/
def pairedCodePoint? (rest : List Char) : Option (Nat × List Char) := do
  let (high, rest) ← codePoint? rest
  if 0xd800 ≤ high ∧ high < 0xdc00 then
    match rest with
    | '\\' :: 'u' :: tail =>
      match codePoint? tail with
      | some (low, after) =>
        if 0xdc00 ≤ low ∧ low < 0xe000 then
          return (0x10000 + (high - 0xd800) * 0x400 + (low - 0xdc00), after)
        else return (high, rest)
      | none => return (high, rest)
    | _ => return (high, rest)
  else return (high, rest)

/-- A code point as a character; half a pair becomes the replacement character. -/
def character (code : Nat) : Char := if code.isValidChar then Char.ofNat code else '\ufffd'

/-- Up to three digits of a character number in eights, at most 255. -/
def octalEscape (first : Nat) (rest : List Char) : Nat × List Char :=
  match rest with
  | c :: tail =>
    match digit? 8 c with
    | some second =>
      let two := 8 * first + second
      match tail with
      | d :: after =>
        match digit? 8 d with
        | some third => if first < 4 then (8 * two + third, after) else (two, tail)
        | none => (two, tail)
      | [] => (two, tail)
    | none => (first, rest)
  | [] => (first, rest)

/-- What stands after a backslash: the characters meant, and the rest. Character numbers in
eights are not for templates. -/
def escape? (template : Bool) : List Char → Option (List Char × List Char)
  | [] => none
  | c :: rest =>
    match c with
    | 'n' => some (['\n'], rest)
    | 'r' => some (['\r'], rest)
    | 't' => some (['\t'], rest)
    | 'b' => some (['\x08'], rest)
    | 'v' => some (['\x0b'], rest)
    | 'f' => some (['\x0c'], rest)
    | 'x' => (hexDigits? 2 0 rest).map fun (n, rest) => ([character n], rest)
    | 'u' => (pairedCodePoint? rest).map fun (n, rest) => ([character n], rest)
    | '\r' => match rest with
      | '\n' :: rest => some ([], rest)
      | _ => some ([], rest)
    | _ =>
      if isLineEnd c then some ([], rest)
      else if c.isDigit then
        let nextIsDigit := match rest with
          | d :: _ => d.isDigit
          | [] => false
        if c = '0' ∧ !nextIsDigit then some (['\x00'], rest)
        else if template then none
        else match digit? 8 c with
          | some first =>
            let (code, rest) := octalEscape first rest
            some ([character code], rest)
          | none => some ([c], rest)
      else some ([c], rest)

/-- Characters up to the closing quote, in reverse before `acc`. Each round uses up one
character at least. -/
def textRest (quote : Char) : Nat → List Char → List Char → Option (String × List Char)
  | fuel + 1, acc, c :: rest =>
    if c = quote then some (String.ofList acc.reverse, rest)
    else if c = '\\' then
      match escape? false rest with
      | some (meant, rest) => textRest quote fuel (meant.reverse ++ acc) rest
      | none => none
    else if c = '\n' ∨ c = '\r' then none
    else textRest quote fuel (c :: acc) rest
  | _, _, _ => none

def text? (quote : Char) (rest : List Char) : Option (Token × List Char) :=
  (textRest quote (rest.length + 1) [] rest).map fun (value, rest) => (.text value, rest)

/-- A piece of a template, up to the closing quote or the next hole: whether it closes the
template, whether its escapes are well formed, and the rest. -/
def templateRest : Nat → Bool → List Char → Option (Bool × Bool × List Char)
  | fuel + 1, sound, c :: rest =>
    if c = '\x60' then some (true, sound, rest)
    else if c = '\\' then
      match escape? true rest with
      | some (_, rest) => templateRest fuel sound rest
      | none => templateRest fuel false (rest.drop 1)
    else match c, rest with
      | '$', '\x7b' :: rest => some (false, sound, rest)
      | _, _ => templateRest fuel sound rest
  | _, _, _ => none

def templatePiece (rest : List Char) : Option (Bool × Bool × List Char) :=
  templateRest (rest.length + 1) true rest

/-- Body of a regular expression after its opening slash; within brackets a slash does not
close it. -/
def regexBody : Bool → List Char → Option (List Char)
  | inClass, '\\' :: c :: rest => if isLineEnd c then none else regexBody inClass rest
  | inClass, c :: rest =>
    if isLineEnd c ∨ c = '\\' then none
    else if c = '/' ∧ !inClass then some rest
    else regexBody (if c = '[' then true else if c = ']' then false else inClass) rest
  | _, [] => none

/-- A regular expression after its opening slash, with its flags. -/
def regex? (rest : List Char) : Option (List Char) := do
  let rest ← regexBody false rest
  let (flags, rest) := rest.span isNamePart
  let known := flags.all (["d", "g", "i", "m", "s", "u", "v", "y"].contains ·.toString)
  let twice := flags.eraseDups.length ≠ flags.length
  if known ∧ ¬ twice ∧ ¬ ('u' ∈ flags ∧ 'v' ∈ flags) then some rest else none

/-- The characters of a name, in reverse before `acc`, and whether one of them is an escape. -/
def nameRest : Nat → Bool → List Char → List Char → Option (String × Bool × List Char)
  | fuel + 1, _, acc, '\\' :: rest =>
    match rest with
    | 'u' :: rest =>
      match codePoint? rest with
      | some (code, rest) =>
        let c := character code
        let fits := if acc = [] then isNameStart c else isNamePart c
        if fits then nameRest fuel true (c :: acc) rest else none
      | none => none
    | _ => none
  | fuel + 1, escaped, acc, c :: rest =>
    if (if acc = [] then isNameStart c else isNamePart c) then nameRest fuel escaped (c :: acc) rest
    else if acc = [] then none
    else some (String.ofList acc.reverse, escaped, c :: rest)
  | _, escaped, acc, [] => if acc = [] then none else some (String.ofList acc.reverse, escaped, [])
  | 0, _, _, _ => none

def name? (text : List Char) : Option (String × Bool × List Char) :=
  nameRest (text.length + 1) false [] text

/-- Marks, the longer before the shorter. -/
def marks : List String := [
  ">>>=", "...", "===", "!==", "**=", "<<=", ">>=", ">>>", "&&=", "||=", "??=",
  "=>", "==", "!=", "<=", ">=", "&&", "||", "??", "?.", "++", "--", "+=", "-=", "*=", "/=", "%=",
  "&=", "|=", "^=", "<<", ">>", "**",
  "\x7b", "\x7d", "(", ")", "[", "]", ".", ";", ",", "<", ">", "+", "-", "*", "/", "%", "&", "|",
  "^", "!", "~", "?", ":", "=", "@"]

/-- A question mark and a dot before a digit are two marks. -/
def fitsMark (spelling : String) (rest : List Char) : Bool :=
  match spelling, rest with
  | "?.", c :: _ => !c.isDigit
  | _, _ => true

def mark? (text : List Char) : Option (Token × List Char) :=
  marks.findSome? fun spelling =>
    if spelling.toList.isPrefixOf text then
      let rest := text.drop spelling.length
      if fitsMark spelling rest then some (.mark spelling, rest) else none
    else none

/-- The token at the start of the text, which is not blank. -/
def read? : List Char → Option (Token × List Char)
  | [] => some (.finish, [])
  | c :: rest =>
    if c = '"' ∨ c = '\'' then text? c rest
    else if c = '\x60' then
      (templatePiece rest).map fun (closed, sound, rest) => (.template closed sound, rest)
    else if c.isDigit then number? (c :: rest)
    else if c = '#' then (name? rest).map fun (_, _, rest) => (.privateName, rest)
    else if isNameStart c ∨ c = '\\' then
      (name? (c :: rest)).map fun (text, escaped, rest) => (.word text escaped, rest)
    else match c, rest with
      | '.', d :: _ => if d.isDigit then number? (c :: rest) else mark? (c :: rest)
      | _, _ => mark? (c :: rest)

end Scan
end ScriptEngine.Syntax
