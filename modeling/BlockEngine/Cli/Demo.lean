/-
  BlockEngine.Cli.Demo — the demonstration program.

  A procedure greets by name. The entry chain calls it, then counts to three in a loop and prints
  each number, the second as a word, and returns the count.
-/

import BlockEngine.Library.Builder

namespace BlockEngine.Cli.Demo

def greeting (l : Library) : Edit (ChainId × Handle) := do
  let (chain, signature) ← l.define "greet" ["name"]
  let name ← l.param signature 0
  let line ← l.new "join" [.text "hello, ", .block name]
  Edit.append chain [← l.new "print" [.block line]]
  return (chain, signature)

def loop (l : Library) : Edit (List BlockId) := do
  let opening ← l.new "repeat" [.text "3"]
  let next ← l.new "add" [.block (← l.new "get" [.text "i"]), .text "1"]
  let count ← l.new "set" [.text "i", .block next]
  let isTwo ← l.new "equal" [.block (← l.new "get" [.text "i"]), .text "2"]
  let cond ← l.new "if" [.block isTwo]
  let word ← l.new "print" [.text "two"]
  let otherwise ← l.new "else" []
  let number ← l.new "print" [.block (← l.new "get" [.text "i"])]
  let closings := [← l.new "end" [], ← l.new "end" []]
  return [opening, count, cond, word, otherwise, number] ++ closings

def chains (l : Library) : Edit (List ChainId) := do
  let (greet, signature) ← greeting l
  let call ← l.place signature [.text "blox"]
  let declare ← l.new "declare" [.text "i", .text "0"]
  let turns ← loop l
  let result ← l.new "return" [.block (← l.new "get" [.text "i"])]
  let entry ← l.program ([call, declare] ++ turns ++ [result])
  return [greet, entry]

end BlockEngine.Cli.Demo
