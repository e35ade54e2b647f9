/-
  BlockEngine.Wire.Message — values and results of runs as bytes, with the codec that the engine runs on.
-/

import BlockEngine.Wire.Cbor.Filling
import BlockEngine.Wire.Cbor.Writing
import BlockEngine.Wire.Codec

namespace BlockEngine.Wire

def cbor : Codec where
  pack := Record.toItem
  write := Item.encode
  read := Item.ofBytes
  unpack := Record.ofItem
  unpackAll := Record.listOfItem

def encode (v : Value) : Except Error Text := cbor.encode v

def decode (t : Text) : Except Error Value := cbor.decode t

def encodeResults (vs : List Value) : Except Error Text := cbor.encodeResults vs

def decodeResults (t : Text) : Except Error (List Value) := cbor.decodeResults t

end BlockEngine.Wire
