import SoftLinear.Text.Reader
import SoftLinear.Yaml.Token

/-!
# YAML names, tags and directives
-/

namespace SoftLinear.Yaml

/-- The name of an anchor or an alias, after its mark. -/
def anchorName : Scan String := do
  discard (one fun _ => true)
  let name ← span isNameChar
  guard (!name.isEmpty)
  before fun c => isGap c || c.any "?:,]\x7d%@`".toList.contains
  return String.ofList name

/-! ## Tags -/

/-- One octet, written as a percent sign and two hexadecimal digits. -/
def octet : Scan Nat := do
  mark '%'
  natural? 16 (← Reader.times 2 (one fun _ => true))

/-- A character written as the octets of its encoding. -/
def octets : Scan Char := do
  let first ← octet
  let (count, value) ←
    if first < 0x80 then pure (0, first)
    else if 0xc0 ≤ first && first < 0xe0 then pure (1, first % 0x20)
    else if 0xe0 ≤ first && first < 0xf0 then pure (2, first % 0x10)
    else if 0xf0 ≤ first && first < 0xf8 then pure (3, first % 0x08)
    else failure
  let others ← Reader.times count octet
  guard (others.all fun n => n / 0x40 = 2)
  return (character? (others.foldl (fun value n => 0x40 * value + n % 0x40) value)).getD '\ufffd'

/-- Part of a tag; commas and brackets may stand in some. -/
def tagText (wide : Bool) : Scan (List Char) :=
  Reader.many <| octets <|> one fun c =>
    isNameChar c || ";/?:@&=+$.!~*'()".toList.contains c || (wide && ",[]".toList.contains c)

/-- The handle of a tag: an exclamation mark, a name, and one more mark if it comes. -/
def tagHandle : Scan (List Char) := do
  mark '!'
  let name ← span isNameChar
  let last ← (mark '!' *> pure ['!']) <|> pure []
  return '!' :: name ++ last

/-- A tag in full, within angle brackets. -/
def fullTag : Scan Token := do
  mark '!'
  mark '<'
  let text ← tagText true
  guard (!text.isEmpty)
  mark '>'
  return .tag "" (String.ofList text)

/-- A tag with a handle. -/
def shortTag : Scan Token := do
  let handle ← tagHandle
  let text ← tagText false
  if 1 < handle.length && handle.getLast? = some '!' then
    guard (!text.isEmpty)
    return .tag (String.ofList handle) (String.ofList text)
  else
    let suffix := handle.drop 1 ++ text
    return if suffix.isEmpty then .tag "" "!" else .tag "!" (String.ofList suffix)

/-- A tag; a blank, a break or, within brackets, a comma comes after it. -/
def tag (inFlow : Bool) : Scan Token := do
  let t ← if ahead 1 (← get) = some '<' then fullTag else shortTag
  before fun c => isGap c || (inFlow && c = some ',')
  return t

/-! ## Directives -/

def versionNumber : Scan Nat := do
  let digits ← span Char.isDigit
  guard (digits.length < 10)
  natural? 10 digits

/-- The value of a directive with a given name. -/
def directiveValue : String → Scan Token
  | "YAML" => do
    let major ← versionNumber
    mark '.'
    return .version major (← versionNumber)
  | "TAG" => do
    let handle ← tagHandle
    guard (handle = ['!'] || handle.getLast? = some '!')
    before (·.any isBlank)
    discard (span isBlank)
    let text ← tagText true
    guard (!text.isEmpty)
    before isGap
    return .tagHandle (String.ofList handle) (String.ofList text)
  | _ => failure

/-- A directive, with the rest of its line. -/
def directive : Scan Token := do
  mark '%'
  let name ← span isNameChar
  before isGap
  discard (span isBlank)
  let t ← directiveValue (String.ofList name)
  lineEnd
  return t

end SoftLinear.Yaml
