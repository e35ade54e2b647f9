/-
  BlockEngine.Wire.Item — the items of the CBOR data format, and what can be wrong with their bytes.
-/

import BlockEngine.Double.Basic
import BlockEngine.Text.Basic

namespace BlockEngine.Wire

inductive Item where
  | unsigned (n : Nat)
  /-- The number -1 - `n`. -/
  | negative (n : Nat)
  /-- A byte string in chunks; one of known length is one chunk. -/
  | bytes (chunks : List Text)
  /-- A text string in chunks. -/
  | text (chunks : List Text)
  | array (items : List Item)
  /-- Keys and values in turn. -/
  | map (entries : List Item)
  | tag (number : Nat) (content : Item)
  | simple (n : Nat)
  | float (x : Double)

inductive Flaw where
  /-- There are none. -/
  | empty
  /-- They end too soon. -/
  | truncated
  /-- They are no item. -/
  | malformed
  /-- Items nest too deeply. -/
  | tooDeep
  /-- An array or a map is too large. -/
  | tooLarge
  /-- A length is no length. -/
  | overlong
  /-- Something follows the item. -/
  | trailing
  /-- An item does not fit where it stands. -/
  | mistyped
  /-- A text is not UTF-8. -/
  | notUtf8
  /-- A tag holds what it must not. -/
  | badTag
  deriving DecidableEq, Repr

/-- How deep items nest at most that are read. -/
def maxDepth : Nat := 32

/-- How many elements or entries an item has at most that is read. -/
def maxElements : Nat := 131072

def Item.ofInt (n : Int) : Item := if n < 0 then .negative (-1 - n).toNat else .unsigned n.toNat

end BlockEngine.Wire
