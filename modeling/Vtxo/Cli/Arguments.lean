import Vtxo.Curve.Key
import Vtxo.Network
import Vtxo.Text.Decimal

/-!
# Command line arguments

A command line is a verb with options and at most one text. The network may be named before the verb or after it,
where it counts more. An option takes its value after an equals sign or as the next argument, which must not look
like an option then. After a double hyphen everything is text.

The verb cuts the command line into two parts. A value that is an argument of its own waits and is read when its
part goes on or the command line ends; so one that stands right before the verb is read last, and help that
is asked for after the verb comes before it.

  1. `Invocation.ofArguments`: the meaning of a command line, or why it has none.
-/

set_option autoImplicit false

namespace Vtxo.Cli

/-! ## What can be asked -/

/-- What to do. -/
inductive Command where
  | decodeAddress (text : String)
  | parseContract (text : String) (server : Option XOnlyKey)
  | decodeNote (text : String) (server : Option XOnlyKey)
  | paymentAddress (server user : XOnlyKey) (exitDelay : UInt16)

/-- What to do, and for which network if not for the one of the settings. -/
structure Invocation where
  network : Option Network
  command : Command

/-- Why a command line is not carried out. -/
inductive Refusal where
  | help
  | usage
deriving DecidableEq

/-- The verbs. -/
inductive Verb where
  | decodeAddress
  | parseContract
  | decodeNote
  | paymentAddress
deriving DecidableEq

/-- The options. -/
inductive Flag where
  | network
  | server
  | user
  | exitDelay
deriving DecidableEq

namespace Verb

def all : List Verb := [decodeAddress, parseContract, decodeNote, paymentAddress]

def name : Verb → String
  | decodeAddress => "decode-address"
  | parseContract => "parse-contract"
  | decodeNote => "decode-note"
  | paymentAddress => "payment-address"

def ofName? (text : String) : Option Verb :=
  all.find? fun verb => verb.name == text

/-- The options of a verb. -/
def flags : Verb → List Flag
  | decodeAddress => [.network]
  | parseContract | decodeNote => [.network, .server]
  | paymentAddress => [.network, .server, .user, .exitDelay]

/-- Whether a verb is about a text. -/
def takesText : Verb → Bool
  | paymentAddress => false
  | _ => true

end Verb

def Flag.name : Flag → String
  | network => "network"
  | server => "server"
  | user => "user"
  | exitDelay => "exit-delay"

/-! ## What was given -/

/-- The values on a command line, each at most once. -/
structure Given where
  network : Option Network
  server : Option XOnlyKey
  user : Option XOnlyKey
  exitDelay : Option UInt16
  text : Option String

namespace Given

def nothing : Given := ⟨none, none, none, none, none⟩

/-- Fill a place that is still free. -/
def fill {α : Type} (place value : Option α) : Except Refusal (Option α) :=
  if place.isNone && value.isSome then .ok value else .error .usage

/-- A number of blocks. -/
def blocks? (text : String) : Option UInt16 :=
  ((Decimal.signed? 64 text).filter fun n => 0 ≤ n ∧ n ≤ 65535).map fun n => UInt16.ofNat n.toNat

/-- The values with that of an option added. -/
def set (given : Given) (flag : Flag) (value : String) : Except Refusal Given :=
  match flag with
  | .network => (fill given.network (Network.ofName? value)).map ({ given with network := · })
  | .server => (fill given.server (XOnlyKey.ofHex? value)).map ({ given with server := · })
  | .user => (fill given.user (XOnlyKey.ofHex? value)).map ({ given with user := · })
  | .exitDelay => (fill given.exitDelay (blocks? value)).map ({ given with exitDelay := · })

/-- The values with the text added. -/
def setText (given : Given) (verb : Verb) (text : String) : Except Refusal Given :=
  if verb.takesText then (fill given.text (some text)).map ({ given with text := · })
  else .error .usage

end Given

/-- What the part of a command line before the verb, or after it, gives. -/
structure Part where
  given : Given
  /-- An option with a value that was an argument of its own and is not read yet. -/
  waiting : Option (Flag × String)

namespace Part

def start : Part := ⟨.nothing, none⟩

/-- The part with the value that waits read, if there is one. -/
def settle (part : Part) : Except Refusal Part :=
  match part.waiting with
  | none => .ok part
  | some (flag, value) => (part.given.set flag value).map (⟨·, none⟩)

/-- The part with a value that waits. Reading the option's name has settled the part before. -/
def wait (part : Part) (flag : Flag) (value : String) : Part :=
  { part with waiting := some (flag, value) }

/-- The part with the value of an option. -/
def set (part : Part) (flag : Flag) (value : String) : Except Refusal Part :=
  (part.given.set flag value).map (⟨·, none⟩)

/-- The part with the text added. -/
def setText (part : Part) (verb : Verb) (text : String) : Except Refusal Part :=
  (part.given.setText verb text).map (⟨·, none⟩)

end Part

/-! ## Reading arguments -/

/-- How an argument looks. -/
inductive Shape where
  /-- A double hyphen and nothing else. -/
  | endOfOptions
  /-- An option by its name, with the value after an equals sign. -/
  | long (name : String) (value : Option String)
  /-- A hyphen and letters. -/
  | short (letters : List Char)
  | text

/-- What precedes the first equals sign, and what follows it. -/
def splitEquals : List Char → List Char × Option (List Char)
  | [] => ([], none)
  | c :: rest =>
    if c = '=' then ([], some rest)
    else
      let (name, value) := splitEquals rest
      (c :: name, value)

def shapeOf (argument : String) : Shape :=
  match argument.toList with
  | ['-', '-'] => .endOfOptions
  | '-' :: '-' :: rest =>
    let (name, value) := splitEquals rest
    .long (String.ofList name) (value.map String.ofList)
  | '-' :: c :: rest => .short (c :: rest)
  | _ => .text

/-- What the next argument may be. -/
inductive Expecting where
  /-- An option, or a verb or its text. -/
  | anything
  | valueOf (flag : Flag)
  /-- A text, after the end of the options. -/
  | text
  /-- The verb that help is wanted for. -/
  | helpTopic
  /-- Nothing more, after a request for help. -/
  | nothing
deriving DecidableEq

/-- The arguments read so far. -/
structure Reading where
  /-- What was given before the verb, once there is a verb. -/
  outer : Part
  verb : Option Verb
  /-- What is given in the part that is being read. -/
  part : Part
  expecting : Expecting

namespace Reading

def start : Reading := ⟨.start, none, .start, .anything⟩

/-- The options that may come next. -/
def flags (reading : Reading) : List Flag :=
  match reading.verb with
  | none => [.network]
  | some verb => verb.flags

/-- The reading with the value that waits in its part read. -/
def settle (reading : Reading) : Except Refusal Reading :=
  reading.part.settle.map ({ reading with part := · })

/-- Begin the option of a name, with its value if that is given already. -/
def long (reading : Reading) (name : String) (value : Option String) : Except Refusal Reading :=
  match reading.flags.find? fun flag => flag.name == name with
  | none => .error (if name = "help" ∧ value = none then .help else .usage)
  | some flag =>
    match value with
    | none => .ok { reading with expecting := .valueOf flag }
    | some value => (reading.part.set flag value).map ({ reading with part := · })

/-- Refuse letters after a hyphen, of which only the first may ask for help. -/
def short (letters : List Char) : Except Refusal Reading :=
  .error (if letters.head? = some 'h' then .help else .usage)

/-- Read a text after the verb. -/
def text (reading : Reading) (argument : String) : Except Refusal Reading :=
  match reading.verb with
  | none => .error .usage
  | some verb => (reading.part.setText verb argument).map ({ reading with part := · })

/-- Read the verb, after which the network may be named once more. -/
def verbNamed (reading : Reading) (argument : String) : Except Refusal Reading :=
  if argument = "help" then .ok { reading with expecting := .helpTopic }
  else
    match Verb.ofName? argument with
    | none => .error .usage
    -- A place filled before the verb is free again after it.
    | some verb => .ok ⟨reading.part, some verb, .start, .anything⟩

/-- Read an argument that may be anything. -/
def any (reading : Reading) (argument : String) : Except Refusal Reading :=
  match shapeOf argument with
  | .endOfOptions => .ok { reading with expecting := .text }
  | .short letters => do
    let _ ← reading.settle
    short letters
  | .long name value => do (← reading.settle).long name value
  | .text =>
    -- The verb ends its part without settling it: what waits there is read at the end.
    if reading.verb.isNone then reading.verbNamed argument
    else do (← reading.settle).text argument

/-- Read one argument. -/
def next (reading : Reading) (argument : String) : Except Refusal Reading :=
  match reading.expecting with
  | .anything => reading.any argument
  | .text => do (← reading.settle).text argument
  | .valueOf flag =>
    match shapeOf argument with
    | .text => .ok { reading with part := reading.part.wait flag argument, expecting := .anything }
    | _ => .error .usage
  | .helpTopic =>
    if argument = "help" ∨ (Verb.ofName? argument).isSome then .ok { reading with expecting := .nothing }
    else .error .usage
  | .nothing => .error .usage

/-- The value of a place that must be filled. -/
def needed {α : Type} (place : Option α) : Except Refusal α :=
  match place with
  | some value => .ok value
  | none => .error .usage

/-- How long the owner waits if nothing else is said, in blocks. -/
def defaultExitDelay : UInt16 := 144

/-- The command of a verb with the values given. -/
def command (given : Given) : Verb → Except Refusal Command
  | .decodeAddress => (needed given.text).map .decodeAddress
  | .parseContract => (needed given.text).map (.parseContract · given.server)
  | .decodeNote => (needed given.text).map (.decodeNote · given.server)
  | .paymentAddress => do
    let server ← needed given.server
    let user ← needed given.user
    return .paymentAddress server user (given.exitDelay.getD defaultExitDelay)

/-- The meaning of all arguments. -/
def finish (reading : Reading) : Except Refusal Invocation :=
  match reading.expecting, reading.verb with
  | .helpTopic, _ | .nothing, _ => .error .help
  | .anything, some verb | .text, some verb => do
    let given := (← reading.part.settle).given
    let outer := (← reading.outer.settle).given
    return ⟨given.network <|> outer.network, ← command given verb⟩
  | _, _ => .error .usage

end Reading

/-- The meaning of a command line. -/
def Invocation.ofArguments (arguments : List String) : Except Refusal Invocation := do
  (← arguments.foldlM Reading.next Reading.start).finish

end Vtxo.Cli
