/-
Blank characters, and the words between them.

A character is blank if it has the White_Space property of Unicode. A line is cut into words at
blank characters, and blank characters at its start can be dropped.
-/
import PageShell.Text.Split

namespace PageShell.Text

/-- the characters with the White_Space property -/
def isBlank (c : Char) : Bool :=
  let n := c.toNat
  (0x09 ≤ n && n ≤ 0x0D) || n == 0x20 || n == 0x85 || n == 0xA0 || n == 0x1680
    || (0x2000 ≤ n && n ≤ 0x200A) || n == 0x2028 || n == 0x2029 || n == 0x202F || n == 0x205F
    || n == 0x3000

/-- the words of a line, in order -/
def words (line : String) : List String :=
  (fields isBlank line.toList).map String.ofList

/-- the text without the blank characters at its start -/
def trimStart (s : String) : String :=
  String.ofList (s.toList.dropWhile isBlank)

/-- a text of blank characters only -/
def isBlankText (s : String) : Bool :=
  s.toList.all isBlank

end PageShell.Text
