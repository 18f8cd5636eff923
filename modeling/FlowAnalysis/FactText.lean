/-! # The text of a fact

Facts are written out in the log. Text is quoted: quotes and backslashes are
escaped, line feed, carriage return, tab and null have short escapes, and any
other control character of ASCII is written by its number.
-/
namespace FlowAnalysis

class FactText (α : Type) where
  text : α → String

export FactText (text)

namespace Quoted

/-- A character as it stands between quotes. -/
def escape (c : Char) : String :=
  match c with
  | '"' => "\\\""
  | '\\' => "\\\\"
  | '\n' => "\\n"
  | '\r' => "\\r"
  | '\t' => "\\t"
  | '\x00' => "\\0"
  | c =>
    if c.toNat < 0x20 ∨ c.toNat = 0x7f then
      "\\u\x7b" ++ String.ofList (Nat.toDigits 16 c.toNat) ++ "\x7d"
    else c.toString

def quote (s : String) : String := "\"" ++ String.join (s.toList.map escape) ++ "\""

end Quoted

instance : FactText Bool := ⟨fun b => if b then "true" else "false"⟩
instance : FactText Nat := ⟨toString⟩
instance : FactText Int := ⟨toString⟩
instance : FactText Int64 := ⟨toString⟩
instance : FactText UInt64 := ⟨toString⟩
instance : FactText String := ⟨Quoted.quote⟩

end FlowAnalysis
