/-
  BlockEngine.Wire.Cbor.Reading — reading CBOR items from bytes.

  A reader takes an item off the front of some bytes. Items may be of unknown length, which ends
  at a break byte. Arrays and maps nest at most 32 deep and hold at most 131072 elements or pairs;
  a tag right below a tag counts as a level.
-/

import BlockEngine.Double.Narrow
import BlockEngine.Wire.Item

namespace BlockEngine.Wire

/-- Reads something off the front of some bytes. -/
abbrev Reader (α : Type) := Text → Except Flaw (α × Text)

def breakByte : UInt8 := 0xFF

/-- The first byte of an item with the number that follows it. The additional information 31 is
    for an unknown length. -/
structure Head where
  major : Nat
  info : Nat
  value : Nat

def Head.isOpen (h : Head) : Bool := h.info == 31

def numberOf (t : Text) : Nat := t.foldl (fun n b => n * 256 + b.toNat) 0

def readBytes (n : Nat) : Reader Text := fun t =>
  if t.length < n then .error .truncated else .ok (t.take n, t.drop n)

def readHead : Reader Head
  | [] => .error .truncated
  | b :: rest =>
    let major := b.toNat / 32
    let info := b.toNat % 32
    if info < 24 then .ok (⟨major, info, info⟩, rest)
    else if info < 28 then do
      let (digits, rest) ← readBytes (2 ^ (info - 24)) rest
      let value := numberOf digits
      if info = 24 ∧ major = 7 ∧ value < 32 then .error .malformed
      else .ok (⟨major, info, value⟩, rest)
    else if info = 31 ∧ (major = 2 ∨ major = 3 ∨ major = 4 ∨ major = 5) then
      .ok (⟨major, info, info⟩, rest)
    else .error .malformed

def readMany {α : Type} (read : Reader α) : Nat → List α → Reader (List α)
  | 0, done, t => .ok (done.reverse, t)
  | n + 1, done, t => do
    let (x, t) ← read t
    readMany read n (x :: done) t

/-- Reads things up to a break, after others. Bytes bound their number. -/
def readOpen {α : Type} (read : Reader α) (tooMany : Nat → Bool) :
    Nat → Nat → List α → Reader (List α)
  | _, _, _, [] => .error .truncated
  | 0, _, _, _ :: _ => .error .truncated
  | fuel + 1, count, done, b :: rest =>
    if b = breakByte then .ok (done.reverse, rest)
    else do
      let (x, t) ← read (b :: rest)
      if tooMany (count + 1) then .error .tooLarge
      else readOpen read tooMany fuel (count + 1) (x :: done) t

def readString (h : Head) : Reader Text := fun t =>
  if 2 ^ 63 ≤ h.value then .error .overlong else readBytes h.value t

/-- A chunk of a string of unknown length: a string of the same type and of known length. -/
def readChunk (major : Nat) : Reader Text := fun t => do
  let (h, rest) ← match t with
    | [] => .error .truncated
    | b :: _ =>
      if b.toNat / 32 = major ∧ b.toNat % 32 ≠ 31 then readHead t else .error .malformed
  readString h rest

def readChunks (h : Head) : Reader (List Text) := fun t =>
  if h.isOpen then readOpen (readChunk h.major) (fun _ => false) (t.length + 1) 0 [] t
  else do
    let (s, t) ← readString h t
    .ok ([s], t)

/-- The elements of an array or the entries of a map, `width` to each. -/
def readElements (read : Reader Item) (width : Nat) (h : Head) : Reader (List Item) := fun t =>
  if h.isOpen then do
    let tooMany (n : Nat) : Bool := n % width == 0 && decide (maxElements < n / width)
    let (xs, t) ← readOpen read tooMany (t.length + 1) 0 [] t
    if xs.length % width = 0 then .ok (xs, t) else .error .malformed
  else if 2 ^ 63 ≤ h.value then .error .overlong
  else if maxElements < h.value then .error .tooLarge
  else readMany read (width * h.value) [] t

/-- The numbers of the tags that directly follow a tag, the last first, and the depth below. -/
def readTags : Nat → Nat → List Nat → Reader (List Nat × Nat)
  | 0, _, _, _ => .error .truncated
  | fuel + 1, depth, tags, t =>
    match t with
    | [] => .error .truncated
    | b :: _ =>
      if b.toNat / 32 = 6 then do
        let (h, t) ← readHead t
        if maxDepth < depth + 1 then .error .tooDeep
        else readTags fuel (depth + 1) (h.value :: tags) t
      else .ok ((tags, depth), t)

/-- Reads an item at a depth. Each level takes a byte, so their number is enough fuel. -/
def readItem : Nat → Nat → Reader Item
  | 0, _, _ => .error .truncated
  | fuel + 1, depth, t => do
    let (h, t) ← readHead t
    match h.major with
    | 0 => .ok (.unsigned h.value, t)
    | 1 => .ok (.negative h.value, t)
    | 2 =>
      let (chunks, t) ← readChunks h t
      .ok (.bytes chunks, t)
    | 3 =>
      let (chunks, t) ← readChunks h t
      .ok (.text chunks, t)
    | 4 =>
      if maxDepth < depth + 1 then .error .tooDeep
      else
        let (items, t) ← readElements (readItem fuel (depth + 1)) 1 h t
        .ok (.array items, t)
    | 5 =>
      if maxDepth < depth + 1 then .error .tooDeep
      else
        let (entries, t) ← readElements (readItem fuel (depth + 1)) 2 h t
        .ok (.map entries, t)
    | 6 =>
      let ((tags, depth), t) ← readTags (t.length + 1) depth [h.value] t
      let (content, t) ← readItem fuel depth t
      .ok (tags.foldl (fun x n => .tag n x) content, t)
    | _ =>
      match h.info with
      | 25 => .ok (.float (.widen .half h.value), t)
      | 26 => .ok (.float (.widen .single h.value), t)
      | 27 => .ok (.float ⟨h.value.toUInt64⟩, t)
      | _ => .ok (.simple h.value, t)

def Item.ofBytes (t : Text) : Except Flaw Item :=
  if t.isEmpty then .error .empty
  else do
    let (x, rest) ← readItem (t.length + 1) 0 t
    if rest.isEmpty then .ok x else .error .trailing

end BlockEngine.Wire
