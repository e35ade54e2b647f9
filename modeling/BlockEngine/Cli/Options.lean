/-
  BlockEngine.Cli.Options — the options of the command line.

  Options come first: each argument that begins with one or two minus signs is one, up to the
  first that is none, a lone minus sign or two of them. A switch has its value after an equals
  sign or is on; every other option has its value there or in the next argument. A later option
  takes the place of an earlier one.
-/

import BlockEngine.Config.Duration
import BlockEngine.Text.Integer

namespace BlockEngine.Cli

structure Options where
  /-- Where the search for a manifest starts. -/
  directory : Text := "."
  /-- How much to log, if not what the manifest asks for. -/
  verbosity : Option Int := none
  /-- The time limit, if not that of the manifest. -/
  timeout : Option Config.Duration := none
  /-- Results are printed as hexadecimal CBOR. -/
  encoded : Bool := false
  /-- The program is only checked. -/
  checkOnly : Bool := false

namespace Options

inductive Flag where
  | directory
  | verbosity
  | timeout
  | encoded
  | checkOnly
  deriving DecidableEq

def Flag.named? (name : Text) : Option Flag :=
  if name = ("C" : Text) then some .directory
  else if name = ("v" : Text) then some .verbosity
  else if name = ("timeout" : Text) then some .timeout
  else if name = ("cbor" : Text) then some .encoded
  else if name = ("validate" : Text) then some .checkOnly
  else none

def Flag.isSwitch : Flag → Bool
  | .encoded | .checkOnly => true
  | _ => false

inductive Misuse where
  | badForm (arg : Text)
  | undefined (name : Text)
  | missingValue (name : Text)
  | badSwitch (value name : Text)
  | badValue (value name : Text) (f : Text.Integer.Flaw)

def flawText : Text.Integer.Flaw → Text
  | .malformed => "parse error"
  | .outOfRange => "value out of range"

def Misuse.message : Misuse → Text
  | .badForm arg => "bad flag syntax: " ++ arg
  | .undefined name => "flag provided but not defined: -" ++ name
  | .missingValue name => "flag needs an argument: -" ++ name
  | .badSwitch value name =>
    "invalid boolean value " ++ value.quoted ++ " for -" ++ name ++ ": " ++ flawText .malformed
  | .badValue value name f =>
    "invalid value " ++ value.quoted ++ " for flag -" ++ name ++ ": " ++ flawText f

inductive Refusal where
  | help
  | misuse (m : Misuse)

def switch? (t : Text) : Option Bool :=
  if (["1", "t", "T", "true", "TRUE", "True"] : List Text).contains t then some true
  else if (["0", "f", "F", "false", "FALSE", "False"] : List Text).contains t then some false
  else none

def set (flag : Flag) (value : Text) (o : Options) : Except Text.Integer.Flaw Options :=
  match flag with
  | .directory => .ok { o with directory := value }
  | .verbosity => do
    let n ← Text.Integer.ofText value
    .ok { o with verbosity := some n }
  | .timeout =>
    match Config.Duration.ofText value with
    | .ok d => .ok { o with timeout := some d }
    | .error _ => .error .malformed
  | .encoded =>
    match switch? value with
    | some b => .ok { o with encoded := b }
    | none => .error .malformed
  | .checkOnly =>
    match switch? value with
    | some b => .ok { o with checkOnly := b }
    | none => .error .malformed

inductive Argument where
  /-- The options end before it, or with it. -/
  | none
  | badForm
  | option (name : Text) (value : Option Text)

def minus : UInt8 := Text.byte '-'

def equals : UInt8 := Text.byte '='

def Argument.ofBody (body : Text) : Argument :=
  match body with
  | [] => .badForm
  | b :: rest =>
    if b = minus ∨ b = equals then .badForm
    else
      let name := b :: rest.takeWhile (· != equals)
      match rest.dropWhile (· != equals) with
      | [] => .option name .none
      | _ :: value => .option name (some value)

def Argument.ofText (arg : Text) : Argument :=
  match arg with
  | a :: b :: rest =>
    if a != minus then .none
    else if b != minus then ofBody (b :: rest)
    else if rest.isEmpty then .none
    else ofBody rest
  | _ => .none

def take (flag : Flag) (name value : Text) (o : Options) : Except Refusal Options :=
  match o.set flag value with
  | .ok o => .ok o
  | .error f =>
    .error (.misuse (if flag.isSwitch then .badSwitch value name else .badValue value name f))

def parse (o : Options) : List Text → Except Refusal Options
  | [] => .ok o
  | arg :: rest =>
    match Argument.ofText arg with
    | .none => .ok o
    | .badForm => .error (.misuse (.badForm arg))
    | .option name value =>
      match Flag.named? name with
      | none =>
        if name = ("help" : Text) ∨ name = ("h" : Text) then .error .help
        else .error (.misuse (.undefined name))
      | some flag =>
        match value, rest with
        | some value, rest => o.take flag name value >>= (parse · rest)
        | none, rest =>
          if flag.isSwitch then o.take flag name "true" >>= (parse · rest)
          else
            match rest with
            | [] => .error (.misuse (.missingValue name))
            | value :: rest => o.take flag name value >>= (parse · rest)

def usageLines : List Text :=
  ["Usage: blox [options]",
    "",
    "Builds the demonstration block program and runs it on a worker.",
    "",
    "Options:",
    "  -C string",
    "    \tDirectory to search for blox.toml (default \".\")",
    "  -cbor",
    "    \tPrint results as hex-encoded CBOR",
    "  -timeout duration",
    "    \tStop the program after this duration (overrides blox.toml)",
    "  -v int",
    "    \tLog verbosity (overrides blox.toml)",
    "  -validate",
    "    \tOnly check that the program's control blocks nest",
    "",
    "Examples:",
    "  blox                  # Run with ./blox.toml or defaults",
    "  blox -v 2 -timeout 1s # Debug logging, stop after a second",
    "  blox -cbor            # Print results for an editor process"]

def usage : Text := usageLines.flatMap fun line => line ++ [Text.byte '\n']

end Options

end BlockEngine.Cli
