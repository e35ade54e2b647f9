/-
  BlockEngine.Text.Blank — white space, and texts without it at the ends.

  White space are the code points with the Unicode property White_Space, in UTF-8.
-/

import BlockEngine.Text.Basic

namespace BlockEngine.Text

def blankCodes : List Nat :=
  [0x09, 0x0A, 0x0B, 0x0C, 0x0D, 0x20, 0x85, 0xA0, 0x1680, 0x2000, 0x2001, 0x2002, 0x2003,
    0x2004, 0x2005, 0x2006, 0x2007, 0x2008, 0x2009, 0x200A, 0x2028, 0x2029, 0x202F, 0x205F,
    0x3000]

def blanks : List Text := blankCodes.map ofCode

/-- Drops the forms in `forms` from the front, as often as one of them stands there. -/
def dropForms (forms : List Text) : Nat → Text → Text
  | 0, t => t
  | n + 1, t =>
    match forms.findSome? (after? · t) with
    | some rest => dropForms forms n rest
    | none => t

def trimLeft (t : Text) : Text := dropForms blanks t.length t

def trimRight (t : Text) : Text := (dropForms (blanks.map List.reverse) t.length t.reverse).reverse

def trim (t : Text) : Text := trimRight (trimLeft t)

end BlockEngine.Text
